import FtIrc.Server.CommandRegistration

/-!
# Joining and leaving channels

`JOIN`, `PART` and the `JOIN 0` that leaves every channel. Both commands take
their fields from the grammar only: a line that does not match the production of
the command is refused.
-/

namespace FtIrc

variable [Libcpp]

/-- `Server::isValidChannelName`. -/
def isValidChannelName (name : Str) : Bool :=
  decide (name.length ≤ MAX_CHANNELLEN) && decide (name.head? = some HASH) &&
    decide (2 ≤ name.length) && name.all fun c => !(c == SPACE || c == 7 || c == COMMA)

namespace Server

/-- `Channel::getNamesChunks`: the nicknames of the members, as many to a chunk as
the budget allows. -/
def getNamesChunks (s : Server) (ch : ChannelRef) (budget : ℕ) : List Str :=
  let packed := (s.channel ch).members.entries.foldl
    (fun (acc : List Str × Str) e =>
      let entry := (if (s.channel ch).isOperator e.1 then str "@" else []) ++ (s.deref e.2).nickname
      let acc :=
        if acc.2 ≠ [] ∧ acc.2.length + 1 + entry.length > budget then (acc.1 ++ [acc.2], []) else acc
      (acc.1, (if acc.2 ≠ [] then acc.2 ++ str " " else acc.2) ++ entry))
    ([], [])
  let chunks := if packed.2 ≠ [] then packed.1 ++ [packed.2] else packed.1
  if chunks = [] then [[]] else chunks

/-- The replies to a client that is on a channel now: topic, names and modes. -/
def joinReplies (s : Server) (client : ClientId) (chan : ChannelRef) (name : Str) : Server :=
  let c := s.channel chan
  let s :=
    if c.topic ≠ [] then
      (s.sendReply client "332" (name ++ str " :" ++ c.topic)).sendReply client "333"
        (name ++ str " " ++ c.topicSetter ++ str " " ++ Libcpp.toDecimal c.topicTime)
    else s.sendReply client "331" (name ++ str " :No topic is set")
  let namesHead := str "= " ++ name ++ str " :"
  let framing := 1 + SERVER_NAME.length + 1 + 3 + 1 + (s.deref client).nickname.length + 1 +
    namesHead.length
  let budget := if framing + 1 < MAX_MSGLEN - 2 then MAX_MSGLEN - 2 - framing else 1
  let s := (s.getNamesChunks chan budget).foldl
    (fun s chunk => s.sendReply client "353" (namesHead ++ chunk)) s
  let s := s.sendReply client "366" (name ++ str " :End of /NAMES list")
  let modeReply := name ++ str " " ++ c.getModeString ++
    (if c.getModeParams ≠ [] then str " " ++ c.getModeParams else [])
  let s := s.sendReply client "324" modeReply
  s.sendReply client "329" (name ++ str " " ++ Libcpp.toDecimal c.creationTime)

/-- The announcement of a join and the replies to it. -/
def announceJoin (s : Server) (client : ClientId) (chan : ChannelRef) (name : Str) : Server :=
  let msg := str ":" ++ (s.deref client).getPrefix ++ str " JOIN " ++ (s.channel chan).name
  (s.broadcastMessage chan msg none).joinReplies client chan name

/-- One channel of a `JOIN`, with its key. -/
def joinOne (client : ClientId) (s : Server) (target : Str × Str) : Server :=
  let name := target.1
  if !isValidChannelName name then s.sendReply client "476" (name ++ str " :Bad Channel Mask")
  else
    match s.findChannel name with
    | some chan =>
      let fd := (s.deref client).fd
      if (s.channel chan).isMember fd then s
      else if (s.channel chan).inviteOnly && !(s.channel chan).isInvited fd then
        s.sendReply client "473" (name ++ str " :Cannot join channel (+i)")
      else if (s.channel chan).key ≠ [] ∧ (s.channel chan).key ≠ target.2 then
        s.sendReply client "475" (name ++ str " :Cannot join channel (+k)")
      else if (s.channel chan).userLimit > 0 ∧
          (s.channel chan).getMemberCount ≥ (s.channel chan).userLimit then
        s.sendReply client "471" (name ++ str " :Cannot join channel (+l)")
      else
        (s.updateChannel chan fun c => (c.addMember fd client).removeInvite fd).announceJoin
          client chan name
    | none => (s.createChannel name client).announceJoin client (Libcpp.asciiToLower name) name

/-- A client leaves a channel: the others are told, and an empty channel goes. -/
def leaveChannel (s : Server) (client : ClientId) (chan : ChannelRef) (chanName partMsg : Str) :
    Server :=
  let s := s.broadcastMessage chan partMsg none
  let s := s.updateChannel chan fun c => c.removeMember (s.deref client).fd
  if (s.channel chan).isEmpty then s.removeChannel chanName else s

/-- `Server::partAllChannels`. -/
def partAllChannels (s : Server) (client : ClientId) : Server :=
  let names := s.channels.keys.filter fun ch => s.isMember ch client
  names.foldl
    (fun s name =>
      match s.findChannel name with
      | none => s
      | some chan =>
        s.leaveChannel client chan name
          (str ":" ++ (s.deref client).getPrefix ++ str " PART " ++ (s.channel chan).name))
    s

/-- `Server::cmdJoin`. -/
def cmdJoin (s : Server) (client : ClientId) (msg : Message) : Server :=
  if !msg.matched then s.sendReply client "461" (str "JOIN :Not enough parameters")
  else if !msg.has "chanlist" then s.partAllChannels client
  else
    let channels := msg.list "chanlist" COMMA
    let keys := msg.listKeepEmpty "keylist" COMMA
    (channels.zipIdx.map fun e => (e.1, keys.getD e.2 [])).foldl (joinOne client) s

/-- One channel of a `PART`. -/
def partOne (client : ClientId) (reason : Str) (s : Server) (chanName : Str) : Server :=
  match s.findChannel chanName with
  | none => s.sendReply client "403" (chanName ++ str " :No such channel")
  | some chan =>
    if !s.isMember chan client then
      s.sendReply client "442" (chanName ++ str " :You're not on that channel")
    else
      s.leaveChannel client chan chanName
        (str ":" ++ (s.deref client).getPrefix ++ str " PART " ++ (s.channel chan).name ++
          (if reason ≠ [] then str " :" ++ reason else []))

/-- `Server::cmdPart`. -/
def cmdPart (s : Server) (client : ClientId) (msg : Message) : Server :=
  if !msg.matched then s.sendReply client "461" (str "PART :Not enough parameters")
  else (msg.list "chanlist" COMMA).foldl (partOne client (msg.field "partmsg")) s

end Server

end FtIrc
