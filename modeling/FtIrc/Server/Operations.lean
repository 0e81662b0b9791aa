import FtIrc.Library.Guarded
import FtIrc.Server.EventLoop

/-!
# What the server does, in guarded operations

Everything the handlers of the server do to its state comes down to a couple of
dozen operations: a message is queued, a field of a client is set, a descriptor
enters or leaves a set, a session ends. `FtIrc.Op` names them,
`FtIrc.Op.run` says what they do in the words of the server itself, and
`FtIrc.Op.Allowed` says when they are safe: a message is one line and goes to a
client that is there and not being torn down, a descriptor enters the sets of a
channel only while it belongs to a registered client, a session ends only once its
descriptor stands in no set.

The invariants of the server are proved of these operations, once each, in
`FtIrc.Server.Invariant`; that the handlers amount to allowed operations is proved
handler by handler. Which of them a *client* may cause by a line is another matter,
for `FtIrc.Op.Permitted`.
-/

namespace FtIrc

variable [Libcpp]

namespace Server

/-! ### Who may stand in the tables -/

/-- The descriptor belongs to a registered client that is not being torn down. -/
def Entitled (s : Server) (fd : Fd) (p : ClientId) : Prop :=
  s.clients.get? fd = some p ∧ (s.deref p).registered = true ∧ (s.deref p).tearingDown = false

/-- The client is in the table and not being torn down. -/
def Live (s : Server) (p : ClientId) : Prop :=
  s.clients.get? (s.deref p).fd = some p ∧ (s.deref p).tearingDown = false

/-- The descriptor stands in no set of any channel and in no transfer. -/
structure Unlisted (s : Server) (fd : Fd) : Prop where
  member : ∀ ch chan, s.channels.get? ch = some chan → chan.members.get? fd = none
  invited : ∀ ch chan, s.channels.get? ch = some chan → fd ∉ chan.inviteList
  transfer : ∀ id t, s.files.transfers.get? id = some t → t.senderFd ≠ fd ∧ t.recipientFd ≠ fd

/-- No other client that is not being torn down goes by the nickname. -/
def NickFree (s : Server) (p : ClientId) (nick : Str) : Prop :=
  ∀ q c, s.heap.get? q = some c → q ≠ p → c.tearingDown = false →
    asciiFold c.nickname ≠ asciiFold nick

/-- There is a reason to close the descriptor of a client: nothing is waiting to be
sent, the send queue overflowed, the deadline of a pending close passed, or an
error or a hang-up was reported. -/
def Due (s : Server) (p : ClientId) : Prop :=
  Libcpp.hasPending (s.deref p).io = false ∨ Libcpp.overflowed (s.deref p).io = true ∨
    ((s.deref p).pendingClose = true ∧
      s.pendingCloseTimeout ≤ s.clock - (s.deref p).pendingCloseSince) ∨
    Event.hangup p ∈ s.trace

/-- What stands for a host: a word no longer than an address in dots. -/
def IsHost (hostname : Str) : Prop := IsWord hostname ∧ hostname.length ≤ 15

/-- The teardown of a client took effect. -/
def markTornDown (s : Server) (p : ClientId) : Server :=
  (markTearingDown p s).record (.teardown p)

end Server

/-! ### The operations -/

/-- A user mode. -/
inductive UserFlag
  | invisible
  | wallops

/-- Set or clear a user mode. -/
def UserFlag.set (b : Bool) : UserFlag → Client → Client
  | invisible, c => { c with invisible := b }
  | wallops, c => { c with wallops := b }

/-- A setting of a channel. -/
inductive Setting
  | inviteOnly (b : Bool)
  | topicRestricted (b : Bool)
  | key (k : Str)
  | userLimit (n : ℕ)

/-- Change a setting of a channel. -/
def Setting.apply : Setting → Channel → Channel
  | inviteOnly b, c => { c with inviteOnly := b }
  | topicRestricted b, c => { c with topicRestricted := b }
  | key k, c => { c with key := k }
  | userLimit n, c => { c with userLimit := n }

/-- What a channel may be set to. -/
def Setting.Valid : Setting → Prop
  | key k => k = [] ∨ isValidChannelKey k = true
  | userLimit n => (n : ℤ) ≤ MAX_USERLIMIT
  | _ => True

/-- **A transfer as it is offered**: between two clients, of a size within the
bounds, and nothing of it relayed yet. -/
structure Transfer.Fresh (t : Transfer) : Prop where
  parties : t.senderFd ≠ t.recipientFd
  pos : 1 ≤ t.declaredSize
  le : t.declaredSize ≤ MAX_FILE_SIZE
  relayed : t.relayedBytes = 0
  pending : t.accepted = false

/-- **What may become of a transfer**: the parties, the file and the size stay, an
answer is not taken back, and only of an accepted transfer is more relayed, up to
the size. -/
structure Transfer.Advances (t t' : Transfer) : Prop where
  senderFd : t'.senderFd = t.senderFd
  recipientFd : t'.recipientFd = t.recipientFd
  filename : t'.filename = t.filename
  declaredSize : t'.declaredSize = t.declaredSize
  accepted : t.accepted = true → t'.accepted = true
  relayed : t'.relayedBytes = t.relayedBytes ∨
    t.accepted = true ∧ t.relayedBytes ≤ t'.relayedBytes ∧ t'.relayedBytes ≤ t.declaredSize

omit [Libcpp] in
/-- A transfer may stay as it is. -/
theorem Transfer.Advances.refl (t : Transfer) : t.Advances t :=
  ⟨rfl, rfl, rfl, rfl, id, Or.inl rfl⟩

/-- **The operations of the server.** -/
inductive Op
  /-- Queue a message to a client. -/
  | send (q : ClientId) (msg : Str)
  /-- A line from a client is being handled. -/
  | hear (p : ClientId) (raw : Str)
  | pass (p : ClientId) (password : Str)
  | nick (p : ClientId) (nickname : Str)
  | user (p : ClientId) (username mode realname : Str)
  | register (p : ClientId)
  | userMode (p : ClientId) (flag : UserFlag) (b : Bool)
  /-- A client was heard of, or asked for a sign of life. -/
  | heed (p : ClientId) (lastActivity : Time) (pingSent : Bool)
  | create (p : ClientId) (name : Str)
  | join (p : ClientId) (fd : Fd) (ch : ChannelRef)
  /-- A descriptor leaves a channel, and the channel goes when it is empty. -/
  | leave (fd : Fd) (ch : ChannelRef)
  | uninvite (fd : Fd) (ch : ChannelRef)
  | invite (fd : Fd) (ch : ChannelRef)
  | topic (ch : ChannelRef) (text setter : Str)
  | setting (ch : ChannelRef) (set : Setting)
  | operator (fd : Fd) (ch : ChannelRef) (b : Bool)
  | offer (t : Transfer)
  | progress (id : ℤ) (f : Transfer → Transfer)
  | drop (id : ℤ)
  | joke (n : ℕ)
  /-- A client is torn down and its close deferred. -/
  | defer (p : ClientId)
  /-- A client is torn down and its descriptor closed. -/
  | expel (p : ClientId) (fd : Fd)
  /-- The descriptor of a client whose close was deferred is closed. -/
  | finalize (p : ClientId) (fd : Fd)
  /-- Octets were received, or lines extracted. -/
  | socket (p : ClientId) (io : Libcpp.Socket)
  /-- Octets were sent. -/
  | transmit (p : ClientId) (n : ℕ)
  /-- An error or a hang-up was reported. -/
  | hangup (p : ClientId)
  | accept (fd : Fd) (hostname : Str)
  | clock (now : Time)
  | pingCheck (now : Time)
  | interests (mask : OrdMap Fd Interest)

namespace Op

open Server

/-- What an operation does. -/
def run : Op → Server → Server
  | send q msg, s => s.queueMessage q msg
  | hear p raw, s => s.record (.inbound p raw)
  | pass p pw, s => s.update p fun c => { c with password := pw, passSent := true }
  | nick p n, s => s.update p fun c => { c with nickname := n, nickSet := true }
  | user p name mode real, s =>
    s.update p fun c =>
      { applyUserModeBitmask mode { c with username := name } with realname := real, userSet := true }
  | register p, s => s.update p fun c => { c with registered := true }
  | userMode p flag b, s => s.update p (flag.set b)
  | heed p last ping, s => s.update p fun c => { c with lastActivity := last, pingSent := ping }
  | create p name, s => s.createChannel name p
  | join p fd ch, s => s.updateChannel ch fun c => (c.addMember fd p).removeInvite fd
  | leave fd ch, s => s.dropMember fd ch
  | uninvite fd ch, s => s.updateChannel ch fun c => c.removeInvite fd
  | invite fd ch, s => s.updateChannel ch fun c => c.addInvite fd
  | topic ch text setter, s => s.updateChannel ch fun c => c.setTopic text setter s.clock
  | setting ch set, s => s.updateChannel ch set.apply
  | operator fd ch b, s => s.updateChannel ch fun c => c.setOperator fd b
  | offer t, s => s.addTransfer t
  | progress id f, s => s.updateTransfers fun ts => ts.modify id f
  | drop id, s => s.updateTransfers fun ts => ts.erase id
  | joke n, s => { s with nextJoke := n }
  | defer p, s =>
    ((s.markTornDown p).update p fun c =>
      { c with pendingClose := true, pendingCloseSince := s.clock }).record (.closing p)
  | expel p fd, s => (s.markTornDown p).finalizeDisconnect fd
  | finalize _ fd, s => s.finalizeDisconnect fd
  | socket p io, s => s.update p fun c => { c with io := io }
  | transmit p n, s =>
    (s.update p fun c => { c with io := Libcpp.consume c.io n }).record
      (.sent p ((Libcpp.outData (s.deref p).io).take n))
  | hangup p, s => s.record (.hangup p)
  | accept fd hostname, s => s.acceptClient fd hostname
  | clock now, s => { s with clock := now }
  | pingCheck now, s => { s with lastPingCheck := now }
  | interests mask, s => { s with epollMask := mask }

/-- The client an operation writes to, if there is one that stays, and what it
writes. -/
def edit : Op → Server → Option (ClientId × (Client → Client))
  | send q msg, _ => some (q, fun c => { c with io := Libcpp.queue c.io (wire msg) })
  | pass p pw, _ => some (p, fun c => { c with password := pw, passSent := true })
  | nick p n, _ => some (p, fun c => { c with nickname := n, nickSet := true })
  | user p name mode real, _ =>
    some (p, fun c =>
      { applyUserModeBitmask mode { c with username := name } with realname := real, userSet := true })
  | register p, _ => some (p, fun c => { c with registered := true })
  | userMode p flag b, _ => some (p, flag.set b)
  | heed p last ping, _ => some (p, fun c => { c with lastActivity := last, pingSent := ping })
  | defer p, s =>
    some (p, fun c =>
      { c with tearingDown := true, pendingClose := true, pendingCloseSince := s.clock })
  | socket p io, _ => some (p, fun c => { c with io := io })
  | transmit p n, _ => some (p, fun c => { c with io := Libcpp.consume c.io n })
  | _, _ => none

/-- The channel an operation writes to, if it was there before, and what it
writes. -/
def editChannel : Op → Server → Option (ChannelRef × (Channel → Channel))
  | join p fd ch, _ => some (ch, fun c => (c.addMember fd p).removeInvite fd)
  | leave fd ch, _ => some (ch, fun c => c.removeMember fd)
  | uninvite fd ch, _ => some (ch, fun c => c.removeInvite fd)
  | invite fd ch, _ => some (ch, fun c => c.addInvite fd)
  | topic ch text setter, s => some (ch, fun c => c.setTopic text setter s.clock)
  | setting ch set, _ => some (ch, set.apply)
  | operator fd ch b, _ => some (ch, fun c => c.setOperator fd b)
  | _, _ => none

/-- The descriptor whose client an operation tears down or removes. -/
def evicts : Op → Server → Option Fd
  | defer p, s => some (s.deref p).fd
  | expel _ fd, _ => some fd
  | finalize _ fd, _ => some fd
  | _, _ => none

/-- **When an operation is safe.** -/
def Allowed : Op → Server → Prop
  | send q msg, s => s.Live q ∧ OneLine msg
  | hear p _, s => s.Live p
  | pass p pw, s => (s.deref p).registered = false ∧ OneLine pw
  | nick p n, s =>
    isValidNickname n = true ∧ n.length ≤ MAX_NICKLEN ∧ reservesNick n = false ∧ s.NickFree p n
  | user _ name _ real, _ =>
    OneLine name ∧ OneLine real ∧ isValidUsername name = true ∧ name.length ≤ MAX_USERLEN
  | register p, s =>
    (s.deref p).passSent = true ∧ (s.deref p).nickSet = true ∧ (s.deref p).userSet = true ∧
      (s.deref p).password = s.password
  | userMode _ _ _, _ => True
  | heed _ _ _, _ => True
  | create p name, s =>
    s.Entitled (s.deref p).fd p ∧ OneLine name ∧
      s.channels.get? (Libcpp.asciiToLower name) = none ∧ isValidChannelName name = true
  | join p fd ch, s => s.Entitled fd p ∧ ∃ chan, s.channels.get? ch = some chan
  | leave _ _, _ => True
  | uninvite _ _, _ => True
  | invite fd ch, s => (∃ p, s.Entitled fd p) ∧ (s.channel ch).members.get? fd = none
  | topic _ text setter, _ => OneLine text ∧ OneLine setter ∧ IsWord setter ∧ setter ≠ []
  | setting _ set, _ => (∀ k, set = .key k → OneLine k) ∧ set.Valid
  | operator fd ch b, s => b = true → ∃ p, (s.channel ch).members.get? fd = some p
  | offer t, s =>
    (∃ p, s.Entitled t.senderFd p) ∧ (∃ q, s.Entitled t.recipientFd q) ∧ OneLine t.filename ∧
      t.Fresh ∧ ∀ id t', s.files.transfers.get? id = some t' →
        ¬(t'.senderFd = t.senderFd ∧ t'.recipientFd = t.recipientFd)
  | progress id f, s => ∀ t, s.files.transfers.get? id = some t → t.Advances (f t)
  | drop _, _ => True
  | joke _, _ => True
  | defer p, s => s.Live p ∧ s.Unlisted (s.deref p).fd
  | expel p fd, s => s.Live p ∧ fd = (s.deref p).fd ∧ s.Unlisted fd ∧ s.Due p
  | finalize p fd, s =>
    s.clients.get? fd = some p ∧ (s.deref p).pendingClose = true ∧ s.Due p
  | socket p io, s =>
    Libcpp.outData io = Libcpp.outData (s.deref p).io ∧
      Libcpp.overflowed io = Libcpp.overflowed (s.deref p).io
  | transmit p _, s => s.clients.get? (s.deref p).fd = some p
  | hangup p, s => s.clients.get? (s.deref p).fd = some p
  | accept fd hostname, s =>
    s.clients.get? fd = none ∧ OneLine hostname ∧ IsHost hostname ∧ hostname ≠ []
  | clock _, _ => True
  | pingCheck _, _ => True
  | interests _, _ => True

end Op

/-- The server as a machine of guarded operations. -/
def serverMachine : Guarded Server Op where
  run := Op.run
  allowed := Op.Allowed

end FtIrc
