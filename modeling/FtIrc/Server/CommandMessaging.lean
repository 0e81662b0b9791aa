import FtIrc.Server.Bot

/-!
# Messages between clients

`PRIVMSG`, `NOTICE`, `PING`, `PONG` and `QUIT`.
-/

namespace FtIrc

variable [Libcpp]

namespace Server

/-- One target of a `PRIVMSG`. -/
def privmsgOne (client : ClientId) (text : Str) (s : Server) (target : Str) : Server :=
  let line := str ":" ++ (s.deref client).getPrefix ++ str " PRIVMSG " ++ target ++ str " :" ++ text
  if target.head? = some HASH then
    match s.findChannel target with
    | none => s.sendReply client "403" (target ++ str " :No such channel")
    | some chan =>
      if !s.isMember chan client then
        s.sendReply client "404" (target ++ str " :Cannot send to channel")
      else s.broadcastMessage chan line (some client)
  else if Libcpp.eqAsciiNocase target botNickname then s.botHandleMessage client text
  else
    match s.findClientByNick target with
    | none => s.sendReply client "401" (target ++ str " :No such nick/channel")
    | some dest => s.queueMessage dest line

/-- One target of a `NOTICE`. -/
def noticeOne (client : ClientId) (text : Str) (s : Server) (target : Str) : Server :=
  let line := str ":" ++ (s.deref client).getPrefix ++ str " NOTICE " ++ target ++ str " :" ++ text
  if target.head? = some HASH then
    match s.findChannel target with
    | none => s
    | some chan =>
      if !s.isMember chan client then s else s.broadcastMessage chan line (some client)
  else
    match s.findClientByNick target with
    | none => s
    | some dest => s.queueMessage dest line

/-- The text of a message. -/
def messageText (msg : Message) : Str := if msg.matched then msg.field "msgtext" else msg.param 1

/-- The targets of a message. -/
def messageTargets (msg : Message) : List Str :=
  if msg.matched then msg.list "msgtarget" COMMA else Libcpp.splitNonempty (msg.param 0) COMMA

/-- `Server::cmdPrivmsg`. -/
def cmdPrivmsg (s : Server) (client : ClientId) (msg : Message) : Server :=
  if msg.params = [] ∨ msg.param 0 = [] then
    s.sendReply client "411" (str ":No recipient given (PRIVMSG)")
  else if msg.params.length < 2 ∨ msg.param 1 = [] then
    s.sendReply client "412" (str ":No text to send")
  else (messageTargets msg).foldl (privmsgOne client (messageText msg)) s

/-- `Server::cmdNotice`. -/
def cmdNotice (s : Server) (client : ClientId) (msg : Message) : Server :=
  if msg.params.length < 2 ∨ msg.param 0 = [] ∨ msg.param 1 = [] then s
  else (messageTargets msg).foldl (noticeOne client (messageText msg)) s

/-- `Server::cmdPing`. -/
def cmdPing (s : Server) (client : ClientId) (msg : Message) : Server :=
  if msg.params = [] then s.sendReply client "461" (str "PING :Not enough parameters")
  else
    s.queueMessage client
      (str ":" ++ SERVER_NAME ++ str " PONG " ++ SERVER_NAME ++ str " :" ++ msg.param 0)

/-- `Server::cmdPong`. -/
def cmdPong (s : Server) (client : ClientId) (_msg : Message) : Server :=
  s.update client fun c => { c with lastActivity := s.clock, pingSent := false }

/-- `Server::cmdQuit`. -/
def cmdQuit (s : Server) (client : ClientId) (msg : Message) : Server :=
  let reason :=
    if msg.matched then msg.field "quitmsg"
    else if msg.params ≠ [] then msg.param 0
    else str "Quit"
  s.disconnectClient (s.deref client).fd reason

end Server

end FtIrc
