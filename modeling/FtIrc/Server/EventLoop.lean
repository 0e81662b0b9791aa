import FtIrc.Server.FileTransfer

/-!
# Dispatch and the event loop

The table of commands, what becomes of a line, and one pass of `Server::run`:
the reported events, the two sweeps over time-outs, the ticks of the extensions
and the interests the next wait will have.

The kernel is a parameter: what `recv` and `send` return, which descriptors are
reported and which descriptor `accept` hands out are arguments here.
-/

namespace FtIrc

open Abnf

variable [Libcpp]

namespace Server

/-! ### Commands -/

/-- `Server::CommandEntry`. -/
structure CommandEntry where
  name : Str
  handler : Server → ClientId → Message → Server
  needsRegistration : Bool

/-- `Server::kCommands`. -/
def kCommands : List CommandEntry :=
  [⟨str "CAP", cmdCap, false⟩, ⟨str "PASS", cmdPass, false⟩, ⟨str "NICK", cmdNick, false⟩,
    ⟨str "USER", cmdUser, false⟩, ⟨str "QUIT", cmdQuit, false⟩, ⟨str "PONG", cmdPong, false⟩,
    ⟨str "PING", cmdPing, true⟩, ⟨str "JOIN", cmdJoin, true⟩, ⟨str "PART", cmdPart, true⟩,
    ⟨str "PRIVMSG", cmdPrivmsg, true⟩, ⟨str "NOTICE", cmdNotice, true⟩,
    ⟨str "KICK", cmdKick, true⟩, ⟨str "INVITE", cmdInvite, true⟩, ⟨str "TOPIC", cmdTopic, true⟩,
    ⟨str "MODE", cmdMode, true⟩, ⟨str "WHO", cmdWho, true⟩, ⟨str "WHOIS", cmdWhois, true⟩,
    ⟨str "USERHOST", cmdUserhost, true⟩]

/-- `Server::findCommand`. -/
def findCommand (name : Str) : Option CommandEntry := kCommands.find? fun e => e.name == name

/-- `Server::dispatchCommand`. -/
def dispatchCommand (s : Server) (client : ClientId) (msg : Message) : Server :=
  let registered := fun (s : Server) (otherwise : Server) =>
    if !(s.deref client).registered then s.sendReply client "451" (str ":You have not registered")
    else otherwise
  match findCommand msg.command with
  | some entry =>
    if !entry.needsRegistration then entry.handler s client msg
    else registered s (entry.handler s client msg)
  | none =>
    registered s <|
      match s.fileOnCommand client msg with
      | some s => s
      | none => s.sendReply client "421" (msg.command ++ str " :Unknown command")

/-- `Server::handleMessage`, with the matcher of the server. -/
def handleMessage (M : Matcher) (s : Server) (client : ClientId) (raw : Str) : Server :=
  let s := s.record (.inbound client raw)
  match M.buildMessage raw with
  | none => s
  | some msg => s.dispatchCommand client msg

/-- A line with a command of the table runs its handler, if the client is registered or
need not be. -/
theorem handleMessage_of_findCommand {M : Matcher} {s : Server} {p : ClientId} {raw : Str}
    {msg : Message} {entry : CommandEntry} (hmsg : M.buildMessage raw = some msg)
    (hentry : findCommand msg.command = some entry) :
    s.handleMessage M p raw =
      if entry.needsRegistration = true ∧ (s.deref p).registered = false then
        (s.record (.inbound p raw)).sendReply p "451" (str ":You have not registered")
      else entry.handler (s.record (.inbound p raw)) p msg := by
  have hread : (s.record (.inbound p raw)).deref p = s.deref p := rfl
  rw [handleMessage, hmsg]
  dsimp only
  rw [dispatchCommand, hentry]
  dsimp only
  rw [hread]
  rcases entry.needsRegistration <;> rcases (s.deref p).registered <;> rfl

/-! ### Connections and sockets -/

/-- `inet_ntoa`. -/
def inetNtoa (a b c d : Octet) : Str :=
  decimal a.toNat ++ str "." ++ decimal b.toNat ++ str "." ++ decimal c.toNat ++ str "." ++
    decimal d.toNat

/-- `Server::acceptClient`, once `accept` has handed out a descriptor. -/
def acceptClient (s : Server) (fd : Fd) (hostname : Str) : Server :=
  if s.clients.size ≥ MAX_CLIENTS then s
  else
    { s with
      heap := s.heap.insert s.nextClient (Client.new fd hostname s.clock)
      nextClient := s.nextClient + 1
      clients := s.clients.insert fd s.nextClient
      epollMask := s.epollMask.insert fd ⟨true, false⟩ }

/-- What `recv` returns. -/
inductive Received
  /-- These octets. -/
  | octets (data : Str)
  /-- The peer closed the connection. -/
  | eof
  /-- Nothing, with an error. -/
  | error

/-- The loop of `handleClientInput` over the lines extracted: it ends early when
the client is gone or about to close. -/
def handleLines (M : Matcher) (fd : Fd) (client : ClientId) : Server → List Str → Server × Bool
  | s, [] => (s, true)
  | s, raw :: rest =>
    let s := s.handleMessage M client raw
    match s.clients.get? fd with
    | none => (s, false)
    | some p => if (s.deref p).pendingClose then (s, false) else handleLines M fd client s rest

/-- Octets were received: they go through the line buffer, and the complete lines
come out. -/
def receive (s : Server) (client : ClientId) (data : Str) : List Str × Server :=
  let s := s.update client fun c =>
    { c with io := Libcpp.feed c.io data, lastActivity := s.clock, pingSent := false }
  let (messages, io) := (s.deref client).extractMessages
  (messages, s.update client fun c => { c with io := io })

/-- `Server::handleClientInput`. -/
def handleClientInput (M : Matcher) (s : Server) (fd : Fd) (got : Received) : Server :=
  match s.clients.get? fd with
  | none => s
  | some client =>
    match got with
    | .error => s
    | .eof => s.disconnectClient fd (str "Connection closed")
    | .octets data =>
      let (messages, s) := s.receive client data
      match handleLines M fd client s messages with
      | (s, false) => s
      | (s, true) =>
        if Libcpp.overflowed (s.deref client).io then s.disconnectClientNow fd (str "SendQ exceeded")
        else s

/-- `Server::handleClientOutput`, where `send` takes that many octets, or fails. -/
def handleClientOutput (s : Server) (fd : Fd) (sent : Option ℕ) : Server :=
  match s.clients.get? fd with
  | none => s
  | some client =>
    if !Libcpp.hasPending (s.deref client).io then s
    else
      match sent with
      | none => s
      | some n =>
        let octets := (Libcpp.outData (s.deref client).io).take n
        let s := (s.update client fun c => { c with io := Libcpp.consume c.io n }).record
          (.sent client octets)
        if (s.deref client).pendingClose then
          if !Libcpp.hasPending (s.deref client).io || Libcpp.overflowed (s.deref client).io then
            s.finalizeDisconnect fd
          else s
        else if Libcpp.overflowed (s.deref client).io then
          s.disconnectClientNow fd (str "SendQ exceeded")
        else s

/-- What was reported on the descriptor of a client: input, with what `recv`
returns, room for output, with what `send` takes, an error or a hang-up. -/
structure Readiness where
  fd : Fd
  input : Option Received := none
  output : Option (Option ℕ) := none
  hangup : Bool := false

/-- An error or a hang-up was reported. -/
def handleHangup (s : Server) (fd : Fd) : Server :=
  match s.clients.get? fd with
  | none => s
  | some p => (s.record (.hangup p)).disconnectClientNow fd (str "Connection error")

/-- The body of the loop over the reported events, for the descriptor of a client. -/
def handleEvent (M : Matcher) (s : Server) (r : Readiness) : Server :=
  if !s.clients.contains r.fd then s
  else
    let s := match r.input with
      | some got => s.handleClientInput M r.fd got
      | none => s
    let s := match r.output with
      | some sent => s.handleClientOutput r.fd sent
      | none => s
    if r.hangup then s.handleHangup r.fd else s

/-! ### After the events -/

/-- What `checkTimeouts` does on its way through the clients: it pings the idle
ones and collects those to be closed. -/
def checkTimeoutsOne (now : Time) (acc : Server × List Fd × List Fd) (e : Fd × ClientId) :
    Server × List Fd × List Fd :=
  let (s, sendQNow, pingTimeout) := acc
  let c := s.deref e.2
  if c.pendingClose then acc
  else if Libcpp.overflowed c.io then (s, sendQNow ++ [e.1], pingTimeout)
  else if c.pingSent && decide (now - c.lastActivity > PING_INTERVAL + PING_TIMEOUT) then
    (s, sendQNow, pingTimeout ++ [e.1])
  else if !c.pingSent && decide (now - c.lastActivity > PING_INTERVAL) then
    ((s.sendToClient e.2 (str "PING :" ++ SERVER_NAME)).update e.2 fun c =>
      { c with pingSent := true }, sendQNow, pingTimeout)
  else acc

/-- `Server::checkTimeouts`. -/
def checkTimeouts (s : Server) : Server :=
  let now := s.clock
  if now - s.lastPingCheck < 30 then s
  else
    let s := { s with lastPingCheck := now }
    let (s, sendQNow, pingTimeout) := s.clients.entries.foldl (checkTimeoutsOne now) (s, [], [])
    let s := sendQNow.foldl (fun s fd => s.disconnectClientNow fd (str "SendQ exceeded")) s
    pingTimeout.foldl (fun s fd => s.disconnectClient fd (str "Ping timeout")) s

/-- `Server::checkPendingCloseTimeouts`. -/
def checkPendingCloseTimeouts (s : Server) : Server :=
  let expired := (s.clients.entries.filter fun e =>
    (s.deref e.2).pendingClose &&
      decide (s.clock - (s.deref e.2).pendingCloseSince ≥ s.pendingCloseTimeout)).map Prod.fst
  expired.foldl finalizeDisconnect s

/-- The ticks of the extensions. -/
def tick (s : Server) : Server := s.fileOnTick s.clock

/-- `Server::updateEpollInterest`. -/
def updateEpollInterest (s : Server) (client : ClientId) : Server :=
  let c := s.deref client
  { s with
    epollMask := s.epollMask.insert c.fd ⟨!c.pendingClose, Libcpp.hasPending c.io⟩ }

/-- The interests for the next wait. -/
def updateInterests (s : Server) : Server := s.clients.values.foldl updateEpollInterest s

end Server

end FtIrc
