import FtIrc.Server.Frame

/-!
# The invariants of the server

Eleven properties that no allowed operation breaks (`FtIrc.Server.Inv.run`):

| invariant | what it says |
|---|---|
| `FtIrc.Server.Table` | the table of clients and the objects on the heap match |
| `FtIrc.Server.Authority` | every descriptor in a set of a channel or in a transfer belongs to a registered client that is not being torn down |
| `FtIrc.Server.Gate` | a registered client has sent the password of the server, and its names |
| `FtIrc.Server.Nicks` | the nicknames in use are valid and pairwise different |
| `FtIrc.Server.Texts` | every text that may be sent to somebody is one line |
| `FtIrc.Server.Names` | whatever a client says begins with a short word, its name |
| `FtIrc.Server.ChannelTable` | no channel is empty, and each stands under its own name |
| `FtIrc.Server.TransferTable` | a transfer has a number of its own and stays within what was offered |
| `FtIrc.Server.Settled` | a client is being torn down exactly if its close is pending |
| `FtIrc.Server.Announced` | a client whose close is pending was recorded as closing |
| `FtIrc.Server.Chronicle` | what was recorded of a session happened in order |

Each is proved operation by operation. Most operations do not touch what an
invariant speaks of; the ones that matter are where the guards of
`FtIrc.Op.Allowed` come in.
-/

namespace FtIrc

variable [Libcpp]

/-! ### The statements -/

/-- **Who stands in the sets of a channel.** -/
structure Server.ChannelSafe (s : Server) (chan : Channel) : Prop where
  /-- A member's descriptor belongs to that very client, which is registered and
  not being torn down. -/
  member : ∀ fd p, chan.members.get? fd = some p → s.Entitled fd p
  operator : ∀ fd ∈ chan.operators, ∃ p, chan.members.get? fd = some p
  invited : ∀ fd ∈ chan.inviteList, ∃ p, s.Entitled fd p
  uninvited : ∀ fd p, chan.members.get? fd = some p → fd ∉ chan.inviteList

namespace Event

/-- Whether the event is the end of a session. -/
def IsFinal (p : ClientId) (e : Event) : Prop := ∃ how, e = finalized p how

/-- An event that is neither the teardown of a client nor the end of a session. -/
def IsTalk (e : Event) : Prop := ∀ p, e ≠ teardown p ∧ e ≠ closing p ∧ ¬e.IsFinal p

/-- **An event is in order** after the ones recorded before it. -/
def InOrder (pendingCloseTimeout : Time) (old : List Event) : Event → Prop
  | inbound p _ => closing p ∉ old
  | outbound p _ => closing p ∉ old
  | sent _ _ => True
  | hangup _ => True
  | teardown p => teardown p ∉ old
  | closing p => closing p ∉ old ∧ teardown p ∈ old
  | finalized p how =>
    (∀ e ∈ old, ¬e.IsFinal p) ∧ teardown p ∈ old ∧
      (how.unsent = false ∨ how.overflowed = true ∨
        (∃ w, how.waited = some w ∧ pendingCloseTimeout ≤ w) ∨ hangup p ∈ old)

/-- Every event of a record, newest first, is in order. -/
def AllInOrder (pendingCloseTimeout : Time) : List Event → Prop
  | [] => True
  | e :: old => e.InOrder pendingCloseTimeout old ∧ AllInOrder pendingCloseTimeout old

end Event

namespace Server

variable (s : Server)

/-- The client was torn down, and may be gone altogether. -/
def Ended (p : ClientId) : Prop := ∀ c, s.heap.get? p = some c → c.tearingDown = true

structure Table : Prop where
  heap_of_clients : ∀ fd p, s.clients.get? fd = some p → ∃ c, s.heap.get? p = some c ∧ c.fd = fd
  clients_of_heap : ∀ p c, s.heap.get? p = some c → s.clients.get? c.fd = some p
  heap_lt : ∀ p c, s.heap.get? p = some c → p < s.nextClient

/-- **Authority never outlives its connection.** -/
structure Authority : Prop where
  channel : ∀ ch chan, s.channels.get? ch = some chan → s.ChannelSafe chan
  transfer : ∀ id t, s.files.transfers.get? id = some t →
    (∃ p, s.Entitled t.senderFd p) ∧ ∃ q, s.Entitled t.recipientFd q

/-- A client that is registered has sent the password of the server and its
names. -/
def PassedGate (c : Client) : Prop :=
  c.registered = true →
    c.passSent = true ∧ c.nickSet = true ∧ c.userSet = true ∧ c.password = s.password

/-- **Nobody registers without the password.** -/
def Gate : Prop := ∀ p c, s.heap.get? p = some c → s.PassedGate c

/-- A nickname a client has chosen is valid, not too long and not reserved. -/
def NickOk (c : Client) : Prop :=
  c.nickSet = true →
    isValidNickname c.nickname = true ∧ c.nickname.length ≤ MAX_NICKLEN ∧
      reservesNick c.nickname = false

/-- **Nicknames are valid and unique.** -/
structure Nicks : Prop where
  valid : ∀ p c, s.heap.get? p = some c → NickOk c
  unique : ∀ p q c d, s.heap.get? p = some c → s.heap.get? q = some d → p ≠ q →
    c.tearingDown = false → d.tearingDown = false → c.nickSet = true → d.nickSet = true →
    asciiFold c.nickname ≠ asciiFold d.nickname

/-- What the server keeps of a client and may send to others is one line each. -/
structure ClientText (c : Client) : Prop where
  nickname : OneLine c.nickname
  username : OneLine c.username
  realname : OneLine c.realname
  hostname : OneLine c.hostname

/-- What the server keeps of a channel and may send to somebody is one line each. -/
structure ChannelText (c : Channel) : Prop where
  name : OneLine c.name
  topic : OneLine c.topic
  topicSetter : OneLine c.topicSetter
  key : OneLine c.key

/-- **No line injection.** -/
structure Texts : Prop where
  client : ∀ p c, s.heap.get? p = some c → ClientText c
  channel : ∀ ch chan, s.channels.get? ch = some chan → ChannelText chan
  transfer : ∀ id t, s.files.transfers.get? id = some t → OneLine t.filename
  outbound : ∀ p wire, Event.outbound p wire ∈ s.trace →
    OneLine wire ∧ wire.length ≤ MAX_MSGLEN - 2

/-- The names of a client are short words. -/
structure ClientNames (c : Client) : Prop where
  nickname : IsWord c.nickname ∧ c.nickname.length ≤ MAX_NICKLEN
  username : IsWord c.username ∧ c.username.length ≤ MAX_USERLEN
  hostname : IsHost c.hostname

/-- **Whoever speaks is named in one word.** -/
def Names : Prop := ∀ p c, s.heap.get? p = some c → ClientNames c

/-- What a channel that stands under a key is like. -/
structure ChannelSound (ch : ChannelRef) (chan : Channel) : Prop where
  inhabited : ∃ fd p, chan.members.get? fd = some p
  named : ch = Libcpp.asciiToLower chan.name
  name : isValidChannelName chan.name = true
  userLimit : (chan.userLimit : ℤ) ≤ MAX_USERLIMIT
  key : chan.key = [] ∨ isValidChannelKey chan.key = true

/-- **The table of channels** holds channels with members, under their names. -/
def ChannelTable : Prop := ∀ ch chan, s.channels.get? ch = some chan → ChannelSound ch chan

/-- What a transfer is like. -/
structure TransferSound (t : Transfer) : Prop where
  parties : t.senderFd ≠ t.recipientFd
  pos : 1 ≤ t.declaredSize
  le : t.declaredSize ≤ MAX_FILE_SIZE
  relayed : t.relayedBytes ≤ t.declaredSize
  accepted : 0 < t.relayedBytes → t.accepted = true

/-- **The table of transfers**: their numbers are below the next one, and no two go
from one client to another. -/
structure TransferTable : Prop where
  sound : ∀ id t, s.files.transfers.get? id = some t → TransferSound t
  next : 1 ≤ s.files.nextId
  below : ∀ id t, s.files.transfers.get? id = some t → 1 ≤ id ∧ id < s.files.nextId
  unique : ∀ id id' t t', s.files.transfers.get? id = some t →
    s.files.transfers.get? id' = some t' → t.senderFd = t'.senderFd →
    t.recipientFd = t'.recipientFd → id = id'

/-- A client is being torn down exactly if its close is pending. -/
def Settled : Prop := ∀ p c, s.heap.get? p = some c → c.pendingClose = c.tearingDown

/-- Whoever's close is pending was recorded as closing. -/
def Announced : Prop :=
  ∀ p c, s.heap.get? p = some c → c.pendingClose = true → .closing p ∈ s.trace

/-- **The record of every session is in order**, and agrees with the tables. -/
structure Chronicle : Prop where
  ordered : Event.AllInOrder s.pendingCloseTimeout s.trace
  teardown : ∀ p, .teardown p ∈ s.trace ↔ p < s.nextClient ∧ s.Ended p
  closing : ∀ p, .closing p ∈ s.trace → p < s.nextClient ∧ s.Ended p
  final : ∀ p, (∃ e ∈ s.trace, e.IsFinal p) ↔ p < s.nextClient ∧ s.heap.get? p = none

/-- **The invariants of the server.** -/
structure Inv : Prop where
  table : s.Table
  authority : s.Authority
  gate : s.Gate
  nicks : s.Nicks
  texts : s.Texts
  names : s.Names
  channelTable : s.ChannelTable
  transferTable : s.TransferTable
  settled : s.Settled
  announced : s.Announced
  chronicle : s.Chronicle

end Server

/-! ### The table of clients -/

namespace Server

variable {s t : Server} {p q : ClientId} {fd : Fd} {f : Client → Client}

namespace Table

theorem fd_eq (h : s.Table) (hp : s.clients.get? fd = some p) : (s.deref p).fd = fd := by
  obtain ⟨c, hc, hfd⟩ := h.heap_of_clients fd p hp
  rw [deref_of_get? hc, hfd]

theorem get? (h : s.Table) (hp : s.clients.get? fd = some p) :
    s.heap.get? p = some (s.deref p) := by
  obtain ⟨c, hc, -⟩ := h.heap_of_clients fd p hp
  rw [deref_of_get? hc, hc]

theorem clients_fd (h : s.Table) (hp : s.clients.get? fd = some p) :
    s.clients.get? (s.deref p).fd = some p := (h.fd_eq hp).symm ▸ hp

theorem live_get? (h : s.Table) (hp : s.Live p) : s.heap.get? p = some (s.deref p) := h.get? hp.1

/-- Two clients on one descriptor are one. -/
theorem eq_of_fd_eq (h : s.Table) {c d : Client} (hc : s.heap.get? p = some c)
    (hd : s.heap.get? q = some d) (hfd : c.fd = d.fd) : p = q := by
  have hp := h.clients_of_heap p c hc
  rw [hfd, h.clients_of_heap q d hd] at hp
  exact (Option.some.inj hp).symm

/-- A table reads a state only through its clients, its heap and the next identity. -/
theorem congr (h : s.Table) (hheap : t.heap = s.heap) (hclients : t.clients = s.clients)
    (hnext : t.nextClient = s.nextClient) : t.Table :=
  ⟨by rw [hheap, hclients]; exact h.heap_of_clients, by rw [hheap, hclients]; exact h.clients_of_heap,
    by rw [hheap, hnext]; exact h.heap_lt⟩

theorem update (h : s.Table) (hf : ∀ c, (f c).fd = c.fd) : (s.update p f).Table := by
  refine ⟨fun fd q hq => ?_, fun q c hc => ?_, fun q c hc => ?_⟩
  · obtain ⟨c, hc, hfd⟩ := h.heap_of_clients fd q hq
    by_cases hqp : q = p
    · subst hqp
      exact ⟨f c, by rw [get?_update_self, hc]; rfl, by rw [hf, hfd]⟩
    · exact ⟨c, by rw [get?_update_of_ne hqp, hc], hfd⟩
  · obtain ⟨d, hd, ⟨-, rfl⟩ | ⟨-, rfl⟩⟩ := get?_update_eq_some hc
    · rw [hf]
      exact h.clients_of_heap q d hd
    · exact h.clients_of_heap q c hd
  · obtain ⟨d, hd, -⟩ := get?_update_eq_some hc
    exact h.heap_lt q d hd

theorem finalizeDisconnect (h : s.Table) (hp : s.clients.get? fd = some p) :
    (s.finalizeDisconnect fd).Table := by
  have hfin : s.finalizeDisconnect fd = ({ s with
      epollMask := s.epollMask.erase fd
      heap := s.heap.erase p
      clients := s.clients.erase fd } : Server).record (.finalized p (s.farewell p)) := by
    rw [Server.finalizeDisconnect, hp]
  rw [hfin]
  refine ⟨fun fd' q hq => ?_, fun q c hc => ?_, fun q c hc => ?_⟩
  · have hq' : (s.clients.erase fd).get? fd' = some q := hq
    rw [OrdMap.get?_erase] at hq'
    split_ifs at hq' with hfd
    obtain ⟨c, hc, hcfd⟩ := h.heap_of_clients fd' q hq'
    refine ⟨c, ?_, hcfd⟩
    have hne : p ≠ q := fun hpq => hfd (by
      rw [← h.fd_eq hp, hpq, deref_of_get? hc, hcfd])
    exact (OrdMap.get?_erase_of_ne _ hne).trans hc
  · have hc' : (s.heap.erase p).get? q = some c := hc
    rw [OrdMap.get?_erase] at hc'
    split_ifs at hc' with hpq
    have hne : fd ≠ c.fd := fun hfd => hpq (h.eq_of_fd_eq (h.get? hp) hc' (by
      rw [h.fd_eq hp, hfd]))
    exact (OrdMap.get?_erase_of_ne _ hne).trans (h.clients_of_heap q c hc')
  · have hc' : (s.heap.erase p).get? q = some c := hc
    rw [OrdMap.get?_erase] at hc'
    split_ifs at hc'
    exact h.heap_lt q c hc'

theorem accept (h : s.Table) {hostname : Str} (hfd : s.clients.get? fd = none) :
    (s.acceptClient fd hostname).Table := by
  rw [acceptClient]
  split_ifs
  · exact h
  have hfresh : s.heap.get? s.nextClient = none := by
    rcases hn : s.heap.get? s.nextClient with _ | c
    · rfl
    · exact absurd (h.heap_lt _ _ hn) (lt_irrefl _)
  refine ⟨fun fd' q hq => ?_, fun q c hc => ?_, fun q c hc => ?_⟩
  · have hq' : (s.clients.insert fd s.nextClient).get? fd' = some q := hq
    rw [OrdMap.get?_insert] at hq'
    split_ifs at hq' with hff
    · rw [Option.some.injEq] at hq'
      subst hq'
      exact ⟨Client.new fd hostname s.clock, OrdMap.get?_insert_self _ _ _, hff⟩
    · obtain ⟨c, hc, hcfd⟩ := h.heap_of_clients fd' q hq'
      have hne : s.nextClient ≠ q := (h.heap_lt q c hc).ne'
      exact ⟨c, (OrdMap.get?_insert_of_ne _ _ hne).trans hc, hcfd⟩
  · have hc' : (s.heap.insert s.nextClient (Client.new fd hostname s.clock)).get? q = some c := hc
    rw [OrdMap.get?_insert] at hc'
    split_ifs at hc' with hn
    · rw [Option.some.injEq] at hc'
      subst hc' hn
      exact OrdMap.get?_insert_self _ _ _
    · have hold := h.clients_of_heap q c hc'
      have hne : fd ≠ c.fd := fun hff => by
        rw [← hff, hfd] at hold
        exact absurd hold (by simp)
      exact (OrdMap.get?_insert_of_ne _ _ hne).trans hold
  · have hc' : (s.heap.insert s.nextClient (Client.new fd hostname s.clock)).get? q = some c := hc
    rw [OrdMap.get?_insert] at hc'
    change q < s.nextClient + 1
    split_ifs at hc' with hn
    · exact hn ▸ Nat.lt_succ_self _
    · exact Nat.lt_succ_of_lt (h.heap_lt q c hc')

end Table

end Server

end FtIrc
