import FtIrc.Server.Message

/-!
# The state of the server

The objects of the server and what it does to them below the level of commands:
clients, channels, the transfer table of the FILE extension, and the tables that
tie them together.

A `Client*` of the source is a `FtIrc.ClientId`, the identity of an object on the
heap: descriptors are handed out again by the kernel, identities are not, and the
difference is what the authority invariant is about. A member map therefore binds
a descriptor to an identity, exactly as `std::map<int, Client*>` does, and
nothing in the model stops it from pointing at an object that is gone. Reading
through such a pointer, undefined in the source, gives a default client here.

A `Channel*` never outlives the table `_channels`, which owns the channels, so it
is the key of the channel there (`FtIrc.ChannelRef`).

Everything the server hands to a socket, takes from one, or does to a session is
recorded in `FtIrc.Server.trace`, newest first: these are the calls to `IrcTrace`
of the source, and the closing steps of a session.
-/

namespace FtIrc

open Abnf

/-! ### The limits of `Replies.hpp` -/

def MAX_NICKLEN : ℕ := 9
def MAX_USERLEN : ℕ := 10
def MAX_CHANNELLEN : ℕ := 50
def MAX_TOPICLEN : ℕ := 390
def MAX_MSGLEN : ℕ := 512
def MAX_KEYLEN : ℕ := 23
def MAX_USERLIMIT : ℤ := 65535
def MAX_SENDQ : ℕ := 64 * 1024
def MAX_CLIENTS : ℕ := 1024
def PING_INTERVAL : Time := 120
def PING_TIMEOUT : Time := 120

def SERVER_NAME : Str := str "ft_irc"
def SERVER_VERSION : Str := str "1.0"
def SERVER_CREATED : Str := str "2025-01-01"

@[simp] theorem oneLine_SERVER_NAME : OneLine SERVER_NAME := by decide

@[simp] theorem oneLine_SERVER_VERSION : OneLine SERVER_VERSION := by decide

@[simp] theorem oneLine_SERVER_CREATED : OneLine SERVER_CREATED := by decide

/-- A file descriptor. -/
abbrev Fd := ℕ

/-- The identity of a `Client` object. -/
abbrev ClientId := ℕ

/-- The key under which the server keeps a channel. -/
abbrev ChannelRef := Str

variable [Libcpp]

/-! ### Clients -/

/-- `Client`; the defaults are those of its constructor. -/
structure Client where
  fd : Fd
  hostname : Str
  io : Libcpp.Socket
  lastActivity : Time
  nickname : Str := str "*"
  username : Str := []
  realname : Str := []
  password : Str := []
  registered : Bool := false
  passSent : Bool := false
  nickSet : Bool := false
  userSet : Bool := false
  pingSent : Bool := false
  pendingClose : Bool := false
  pendingCloseSince : Time := 0
  tearingDown : Bool := false
  invisible : Bool := false
  wallops : Bool := false

namespace Client

/-- `Client::Client`. -/
def new (fd : Fd) (hostname : Str) (now : Time) : Client :=
  { fd := fd, hostname := hostname, io := Libcpp.newSocket MAX_MSGLEN MAX_SENDQ,
    lastActivity := now }

instance : Inhabited Client := ⟨new 0 [] 0⟩

variable (c : Client)

/-- `Client::getPrefix`. -/
def getPrefix : Str := c.nickname ++ str "!" ++ c.username ++ str "@" ++ c.hostname

/-- `Client::getUserModeString`. -/
def getUserModeString : Str :=
  str "+" ++ (if c.invisible then str "i" else []) ++ (if c.wallops then str "w" else [])

/-- `stripNul`. -/
def stripNul (line : Str) : Str := line.filter fun o => decide (o ≠ NUL)

/-- `splitOnCr`: the nonempty pieces between the CRs of a line. -/
def splitOnCr (line : Str) : List Str :=
  (line.splitOn CR).filter fun piece => decide (piece ≠ [])

/-- The loop of `Client::extractMessages`, given fuel for every waiting line. -/
def drainLines : ℕ → Libcpp.Socket → List Str × Libcpp.Socket
  | 0, io => ([], io)
  | k + 1, io =>
    match Libcpp.nextLine io with
    | none => ([], io)
    | some (line, io) =>
      let (messages, io) := drainLines k io
      (splitOnCr (stripNul line) ++ messages, io)

/-- `Client::extractMessages`. -/
def extractMessages : List Str × Libcpp.Socket := drainLines (Libcpp.inSize c.io + 1) c.io

end Client

/-! ### Channels -/

/-- `Channel`. -/
structure Channel where
  name : Str
  topic : Str := []
  topicSetter : Str := []
  topicTime : Time := 0
  creationTime : Time
  key : Str := []
  userLimit : ℕ := 0
  inviteOnly : Bool := false
  topicRestricted : Bool := false
  members : OrdMap Fd ClientId := OrdMap.empty
  operators : Finset Fd := ∅
  inviteList : Finset Fd := ∅

namespace Channel

instance : Inhabited Channel := ⟨{ name := [], creationTime := 0 }⟩

variable (ch : Channel)

def addMember (fd : Fd) (p : ClientId) : Channel := { ch with members := ch.members.insert fd p }

def removeMember (fd : Fd) : Channel :=
  { ch with members := ch.members.erase fd, operators := ch.operators.erase fd }

def isMember (fd : Fd) : Bool := ch.members.contains fd

def isEmpty : Bool := ch.members.isEmpty

def isOperator (fd : Fd) : Bool := decide (fd ∈ ch.operators)

def setOperator (fd : Fd) (op : Bool) : Channel :=
  { ch with operators := if op then insert fd ch.operators else ch.operators.erase fd }

def addInvite (fd : Fd) : Channel := { ch with inviteList := insert fd ch.inviteList }

def isInvited (fd : Fd) : Bool := decide (fd ∈ ch.inviteList)

def removeInvite (fd : Fd) : Channel := { ch with inviteList := ch.inviteList.erase fd }

def getMemberCount : ℕ := ch.members.size

/-- `Channel::setTopic`. -/
def setTopic (topic setter : Str) (now : Time) : Channel :=
  { ch with topic := topic, topicSetter := setter, topicTime := now }

/-- `Channel::Channel`: the creator is its first member and operator. -/
def new (name : Str) (fd : Fd) (p : ClientId) (now : Time) : Channel :=
  (({ name := name, creationTime := now } : Channel).addMember fd p).setOperator fd true

/-- `Channel::getModeString`. -/
def getModeString : Str :=
  str "+" ++ (if ch.inviteOnly then str "i" else []) ++
    (if ch.topicRestricted then str "t" else []) ++ (if ch.key ≠ [] then str "k" else []) ++
    (if ch.userLimit > 0 then str "l" else [])

/-- `Channel::getModeParams`. -/
def getModeParams : Str :=
  let params := if ch.key ≠ [] then ch.key else []
  if ch.userLimit > 0 then
    (if params ≠ [] then params ++ str " " else params) ++ Libcpp.toDecimal ch.userLimit
  else params

end Channel

/-! ### The FILE extension's table -/

/-- `FileTransferExt::Transfer`. -/
structure Transfer where
  senderFd : Fd
  recipientFd : Fd
  filename : Str
  declaredSize : ℕ
  relayedBytes : ℕ
  accepted : Bool
  lastActivity : Time

/-- `FileTransferExt`. -/
structure FileTransferExt where
  transfers : OrdMap ℤ Transfer := OrdMap.empty
  nextId : ℤ := 1

/-! ### The server -/

/-- What the event loop waits for on a descriptor, besides errors. -/
structure Interest where
  input : Bool
  output : Bool
  deriving DecidableEq

/-- How a client stood when its descriptor was closed. -/
structure Farewell where
  /-- Something was still waiting to be sent. -/
  unsent : Bool
  /-- The send queue had overflowed. -/
  overflowed : Bool
  /-- For how long the close had been pending, if it was. -/
  waited : Option Time
  deriving DecidableEq

/-- What is recorded of a session. -/
inductive Event
  /-- A line was handed to `handleMessage`. -/
  | inbound (p : ClientId) (raw : Str)
  /-- A payload was handed to the socket buffer. -/
  | outbound (p : ClientId) (wire : Str)
  /-- These octets left the send buffer. -/
  | sent (p : ClientId) (octets : Str)
  /-- An error or a hang-up was reported on the descriptor. -/
  | hangup (p : ClientId)
  /-- `teardownClientState` took effect. -/
  | teardown (p : ClientId)
  /-- The close was deferred. -/
  | closing (p : ClientId)
  /-- The descriptor was closed and the object freed. -/
  | finalized (p : ClientId) (how : Farewell)
  deriving DecidableEq

/-- **The state of the server.** The extensions are those of the bonus and full
tiers, `Bot` and `FileTransferExt` in this order, followed by any number of
extensions whose only doing is to call `disconnectClient` again, for the client
that is being torn down, from inside `onClientDisconnect`. -/
structure Server where
  password : Str
  /-- `_pendingCloseTimeoutSec`. -/
  pendingCloseTimeout : Time
  /-- What `std::time` returns. -/
  clock : Time
  /-- The `Client` objects that are alive. -/
  heap : OrdMap ClientId Client := OrdMap.empty
  /-- The identity of the next object. -/
  nextClient : ClientId := 0
  clients : OrdMap Fd ClientId := OrdMap.empty
  epollMask : OrdMap Fd Interest := OrdMap.empty
  channels : OrdMap Str Channel := OrdMap.empty
  /-- `Bot::_nextJoke`. -/
  nextJoke : ℕ := 0
  files : FileTransferExt := {}
  lastPingCheck : Time
  /-- The reasons with which the further extensions call `disconnectClient`. -/
  reentrant : List Str := []
  trace : List Event := []

/-- The payload of a message: as much of it as a line can hold. -/
def wire (msg : Str) : Str :=
  let maxPayload := MAX_MSGLEN - 2
  if msg.length > maxPayload then msg.take maxPayload else msg

theorem length_wire_le (msg : Str) : (wire msg).length ≤ MAX_MSGLEN - 2 := by
  rw [wire]
  split_ifs with h
  · exact List.length_take_le _ _
  · exact Nat.not_lt.mp h

theorem OneLine.wire {msg : Str} (h : OneLine msg) : OneLine (wire msg) := by
  rw [FtIrc.wire]
  split_ifs
  · exact h.take _
  · exact h

namespace Server

variable (s : Server)

/-! ### Reading and writing through pointers -/

/-- The client a pointer points at. -/
def deref (p : ClientId) : Client := (s.heap.get? p).getD default

/-- Write to the client a pointer points at. -/
def update (p : ClientId) (f : Client → Client) : Server :=
  { s with heap := s.heap.modify p f }

/-- The channel a pointer points at. -/
def channel (ch : ChannelRef) : Channel := (s.channels.get? ch).getD default

/-- Write to the channel a pointer points at. -/
def updateChannel (ch : ChannelRef) (f : Channel → Channel) : Server :=
  { s with channels := s.channels.modify ch f }

/-- Record an event. -/
def record (e : Event) : Server := { s with trace := e :: s.trace }

/-! ### Queueing messages -/

/-- `Client::queueMessage`: what is left of the message goes to the socket
buffer. -/
def queueMessage (p : ClientId) (msg : Str) : Server :=
  (s.update p fun c => { c with io := Libcpp.queue c.io (wire msg) }).record
    (.outbound p (wire msg))

/-- `Server::sendToClient`. -/
def sendToClient (p : ClientId) (msg : Str) : Server :=
  s.queueMessage p (str ":" ++ SERVER_NAME ++ str " " ++ msg)

/-- `Server::sendReply`. -/
def sendReply (p : ClientId) (numeric : String) (params : Str) : Server :=
  s.queueMessage p (str ":" ++ SERVER_NAME ++ str " " ++ str numeric ++ str " " ++
    (s.deref p).nickname ++ str " " ++ params)

/-- The same message to every client of a list, but for the excluded one. -/
def queueAll (ps : List ClientId) (msg : Str) (exclude : Option ClientId) : Server :=
  ps.foldl (fun s p => if exclude = some p then s else s.queueMessage p msg) s

/-- `Channel::broadcastMessage`. -/
def broadcastMessage (ch : ChannelRef) (msg : Str) (exclude : Option ClientId) : Server :=
  s.queueAll (s.channel ch).members.values msg exclude

/-- The inner loop of `broadcastToChannels` and `teardownClientState`: the message
goes to the clients whose descriptor has not had it yet. -/
def queueOnce (ps : List ClientId) (msg : Str) (alreadySent : Finset Fd) :
    Server × Finset Fd :=
  ps.foldl
    (fun acc p =>
      let mfd := (acc.1.deref p).fd
      if mfd ∈ acc.2 then acc else (acc.1.queueMessage p msg, insert mfd acc.2))
    (s, alreadySent)

/-! ### Finding clients and channels -/

/-- `Server::findClientByFd`. -/
def findClientByFd (fd : Fd) : Option ClientId := s.clients.get? fd

/-- `Server::findClientByNick`. -/
def findClientByNick (nickname : Str) : Option ClientId :=
  s.clients.values.find? fun p =>
    (s.deref p).registered && !(s.deref p).tearingDown &&
      Libcpp.eqAsciiNocase (s.deref p).nickname nickname

/-- `Server::isNickInUse`. -/
def isNickInUse (nickname : Str) (except : ClientId) : Bool :=
  s.clients.values.any fun p =>
    !(p == except) && !(s.deref p).tearingDown &&
      Libcpp.eqAsciiNocase (s.deref p).nickname nickname

/-- `Server::findChannel`. -/
def findChannel (name : Str) : Option ChannelRef :=
  if s.channels.contains (Libcpp.asciiToLower name) then some (Libcpp.asciiToLower name) else none

/-- `Channel::findMember`. -/
def findMember (ch : ChannelRef) (nickname : Str) : Option ClientId :=
  (s.channel ch).members.values.find? fun p =>
    Libcpp.eqAsciiNocase (s.deref p).nickname nickname

/-- `Channel::isMember`, of a client. -/
def isMember (ch : ChannelRef) (p : ClientId) : Bool := (s.channel ch).isMember (s.deref p).fd

/-- `Channel::isOperator`, of a client. -/
def isOperator (ch : ChannelRef) (p : ClientId) : Bool := (s.channel ch).isOperator (s.deref p).fd

/-- `Server::createChannel`. -/
def createChannel (name : Str) (p : ClientId) : Server :=
  { s with
    channels := s.channels.insert (Libcpp.asciiToLower name)
      (Channel.new name (s.deref p).fd p s.clock) }

/-- `Server::removeChannel`. -/
def removeChannel (name : Str) : Server :=
  { s with channels := s.channels.erase (Libcpp.asciiToLower name) }

/-- `Server::broadcastToChannels`. -/
def broadcastToChannels (p : ClientId) (msg : Str) : Server :=
  (s.channels.keys.foldl
    (fun acc ch =>
      if acc.1.isMember ch p then acc.1.queueOnce (acc.1.channel ch).members.values msg acc.2
      else acc)
    (s, {(s.deref p).fd})).1

end Server

end FtIrc
