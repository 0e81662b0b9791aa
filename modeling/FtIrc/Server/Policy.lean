import FtIrc.Server.Tables
import FtIrc.Server.Wire

/-!
# What a client may cause by a line

`FtIrc.Op.Permitted` is the security policy of the server: of the operations that
are safe at all, those a client may cause by one line, given the state the server
was in when the line arrived. It may speak to others only if it is registered, it
may change only itself, its own memberships and, of the channels, what its status
in them gives it power over; and one line either only adds to the channels or only
takes away from them.

While a line is being handled the client stays in place
(`FtIrc.Server.Turn.runs`), unless the line is one that may end its session. The
lemmas of this file are the vocabulary for the handlers: replying, sending,
broadcasting, and looping over any of these.
-/

namespace FtIrc

variable [Libcpp]

/-- What a line is about. -/
inductive Manner
  /-- Channels are joined. -/
  | joining
  /-- Somebody is invited. -/
  | inviting
  /-- A channel is set, or operators are made. -/
  | moding
  /-- Anything that is none of the others. -/
  | acting
  /-- A transfer is dealt with. -/
  | filing
  /-- The session may end. -/
  | leaving
  deriving DecidableEq

/-- **The operations a client may cause** by a line that arrives in the state
`s₀`. -/
def Op.Permitted (s₀ : Server) (p : ClientId) (m : Manner) : Op → Prop
  | send q msg =>
    (q = p ∨ (s₀.deref p).registered = true) ∧ (Quiet msg ∨ m = .filing ∨ m = .leaving)
  | hear q _ | pass q _ | nick q _ | user q _ _ _ | register q | userMode q _ _ => q = p
  | heed q last ping => q = p ∧ last = s₀.clock ∧ ping = false
  | create q _ => m = .joining ∧ q = p ∧ (s₀.deref p).registered = true
  | join q fd _ =>
    m = .joining ∧ q = p ∧ fd = (s₀.deref p).fd ∧ (s₀.deref p).registered = true
  | leave fd ch =>
    m ≠ .joining ∧ (s₀.deref p).registered = true ∧
      (fd = (s₀.deref p).fd ∨ s₀.isOperator ch p = true)
  | uninvite fd _ => m ≠ .joining ∧ (s₀.deref p).registered = true ∧ fd = (s₀.deref p).fd
  | invite _ ch =>
    m = .inviting ∧ (s₀.deref p).registered = true ∧ s₀.isMember ch p = true ∧
      ((s₀.channel ch).inviteOnly = true → s₀.isOperator ch p = true)
  | topic ch _ _ =>
    m ≠ .joining ∧ (s₀.deref p).registered = true ∧ s₀.isMember ch p = true ∧
      ((s₀.channel ch).topicRestricted = true → s₀.isOperator ch p = true)
  | setting ch _ | operator _ ch _ =>
    m = .moding ∧ (s₀.deref p).registered = true ∧ s₀.isOperator ch p = true
  | offer _ | progress _ _ | drop _ =>
    (m = .filing ∨ m = .leaving) ∧ (s₀.deref p).registered = true
  | joke _ => (s₀.deref p).registered = true
  | defer q => m = .leaving ∧ q = p
  | expel q fd => m = .leaving ∧ q = p ∧ fd = (s₀.deref p).fd
  | finalize _ _ | socket _ _ | transmit _ _ | hangup _ | accept _ _ | clock _ | pingCheck _
  | interests _ => False

/-- What is permitted to a line of no particular kind is permitted to one that deals
with transfers. -/
theorem Op.Permitted.filing {s₀ : Server} {p : ClientId} {op : Op}
    (h : op.Permitted s₀ p .acting) : op.Permitted s₀ p .filing := by
  cases op <;> simp_all [Op.Permitted]

/-- What is permitted to a line that deals with transfers is permitted to one that
may end the session. -/
theorem Op.Permitted.leaving {s₀ : Server} {p : ClientId} {op : Op}
    (h : op.Permitted s₀ p .filing) : op.Permitted s₀ p .leaving := by
  cases op <;> simp_all [Op.Permitted]

/-- What may be said by a line: one line, and nothing about a transfer unless the line
deals with one or may end the session. -/
def Speech (m : Manner) (w : Str) : Prop := OneLine w ∧ (Quiet w ∨ m = .filing ∨ m = .leaving)

namespace Server

variable {s₀ s t : Server} {p q : ClientId} {m : Manner} {w : Str}

/-- The sequences of operations a line may amount to. -/
abbrev Complies (s₀ : Server) (p : ClientId) (m : Manner) : Server → Server → Prop :=
  serverMachine.Runs (Op.Permitted s₀ p m)

/-- One permitted operation. -/
theorem Complies.op (op : Op) (hP : op.Permitted s₀ p m) (ho : op.Allowed s) :
    Complies s₀ p m s (op.run s) :=
  .single hP ho

theorem Complies.filing (h : Complies s₀ p .acting s t) : Complies s₀ p .filing s t :=
  h.mono fun _ => Op.Permitted.filing

theorem Complies.leaving (h : Complies s₀ p .filing s t) : Complies s₀ p .leaving s t :=
  h.mono fun _ => Op.Permitted.leaving

/-- A line that does not end the session evicts nobody. -/
theorem evicts_of_permitted {op : Op} (h : op.Permitted s₀ p m) (hm : m ≠ .leaving) :
    op.evicts s = none := by
  cases op with
  | defer q => exact absurd h.1 hm
  | expel q fd => exact absurd h.1 hm
  | finalize q fd => exact h.elim
  | _ => rfl

/-- **A client whose line is being handled**, the line having arrived in `s₀` and the
server being in `s` now. -/
structure Turn (s₀ : Server) (p : ClientId) (s : Server) : Prop where
  inv : s.Inv
  live : s.Live p
  fd : (s.deref p).fd = (s₀.deref p).fd
  registered : (s₀.deref p).registered = true → (s.deref p).registered = true
  clock : s.clock = s₀.clock

/-- While a line is being handled the time is the same. -/
theorem clock_of_permitted {op : Op} (h : op.Permitted s₀ p m) : (op.run s).clock = s.clock := by
  cases op with
  | leave fd ch =>
    rw [Op.run, dropMember]
    split_ifs <;> rfl
  | expel q fd =>
    rw [Op.run, finalizeDisconnect]
    split <;> rfl
  | finalize | socket | transmit | hangup | accept | clock | pingCheck | interests => exact h.elim
  | _ => rfl

namespace Turn

theorem start (hi : s.Inv) (hp : s.Live p) : Turn s p s := ⟨hi, hp, rfl, id, rfl⟩

theorem entitled (h : Turn s₀ p s) (hreg : (s₀.deref p).registered = true) :
    s.Entitled (s.deref p).fd p :=
  ⟨h.live.1, h.registered hreg, h.live.2⟩

/-- **The client stays in place while its line is handled**, and so does every
other. -/
theorem runs (h : Turn s₀ p s) (hrun : Complies s₀ p m s t) (hm : m ≠ .leaving) : Turn s₀ p t := by
  refine hrun.invariant (fun op u hP ho hu => ?_) h
  have hev : op.evicts u ≠ some (u.deref p).fd := by simp [evicts_of_permitted hP hm]
  obtain ⟨hfd, -, hreg⟩ := deref_run hu.inv.table ho hu.live.1 hev
  exact ⟨hu.inv.run ho, hu.live.run hu.inv.table ho hev, hfd.trans hu.fd,
    fun hr => hreg (hu.registered hr), (clock_of_permitted hP).trans hu.clock⟩

theorem live_runs (h : Turn s₀ p s) (hrun : Complies s₀ p m s t) (hm : m ≠ .leaving)
    (hq : s.Live q) : t.Live q := by
  refine (hrun.invariant (I := fun u => Turn s₀ p u ∧ u.Live q) (fun op u hP ho hu => ?_)
    ⟨h, hq⟩).2
  have hev : ∀ fd, op.evicts u ≠ some fd := fun fd => by simp [evicts_of_permitted hP hm]
  exact ⟨hu.1.runs (.single hP ho) hm, hu.2.run hu.1.inv.table ho (hev _)⟩

theorem entitled_runs (h : Turn s₀ p s) (hrun : Complies s₀ p m s t) (hm : m ≠ .leaving) {fd : Fd}
    (hq : s.Entitled fd q) : t.Entitled fd q := by
  refine (hrun.invariant (I := fun u => Turn s₀ p u ∧ u.Entitled fd q) (fun op u hP ho hu => ?_)
    ⟨h, hq⟩).2
  have hev : op.evicts u ≠ some fd := by simp [evicts_of_permitted hP hm]
  exact ⟨hu.1.runs (.single hP ho) hm, hu.2.run hu.1.inv.table ho hev⟩

/-- **A loop**, every round of which complies. -/
theorem foldl {α : Type} (h : Turn s₀ p s) (hm : m ≠ .leaving) {f : Server → α → Server}
    (l : List α) (hf : ∀ u, Turn s₀ p u → Complies s₀ p m s u → ∀ a ∈ l,
      Complies s₀ p m u (f u a)) :
    Complies s₀ p m s (l.foldl f s) := by
  have := Guarded.Runs.foldl (M := serverMachine) (P := Op.Permitted s₀ p m) (g := id)
    (J := fun u => Turn s₀ p u ∧ Complies s₀ p m s u) (f := f) l
    (fun u hu a ha => ⟨hf u hu.1 hu.2 a ha,
      hu.1.runs (hf u hu.1 hu.2 a ha) hm, hu.2.trans (hf u hu.1 hu.2 a ha)⟩)
    ⟨h, .refl s⟩
  exact this.1

/-! ### Speaking -/

/-- A message to a client that is there, from one who may speak to it. -/
theorem send (_h : Turn s₀ p s) (hq : s.Live q) (hsay : q = p ∨ (s₀.deref p).registered = true)
    (hmsg : Speech m w) : Complies s₀ p m s (s.queueMessage q w) :=
  .op (.send q w) ⟨hsay, hmsg.2⟩ ⟨hq, hmsg.1⟩

/-- A message to the client itself. -/
theorem tell (h : Turn s₀ p s) (hmsg : Speech m w) : Complies s₀ p m s (s.queueMessage p w) :=
  h.send h.live (Or.inl rfl) hmsg

end Turn

/-! ### The texts of a state -/

namespace Inv

variable (h : s.Inv)

include h

theorem clientText (q : ClientId) : ClientText (s.deref q) := by
  rcases hq : s.heap.get? q with _ | c
  · rw [deref_of_none hq]
    exact ClientText.new OneLine.nil
  · rw [deref_of_get? hq]
    exact h.texts.client q c hq

theorem nickname (q : ClientId) : OneLine (s.deref q).nickname := (h.clientText q).nickname

theorem username (q : ClientId) : OneLine (s.deref q).username := (h.clientText q).username

theorem realname (q : ClientId) : OneLine (s.deref q).realname := (h.clientText q).realname

theorem hostname (q : ClientId) : OneLine (s.deref q).hostname := (h.clientText q).hostname

theorem getPrefix (q : ClientId) : OneLine (s.deref q).getPrefix := by
  rw [Client.getPrefix]
  simp (disch := decide) [h.nickname q, h.username q, h.hostname q]

theorem channelText (ch : ChannelRef) : ChannelText (s.channel ch) := by
  rcases hch : s.channels.get? ch with _ | chan
  · rw [channel_of_none hch]
    exact ⟨OneLine.nil, OneLine.nil, OneLine.nil, OneLine.nil⟩
  · rw [channel_of_get? hch]
    exact h.texts.channel ch chan hch

/-- The mode string of a channel and its parameters are one line. -/
theorem channelModes (ch : ChannelRef) :
    OneLine (s.channel ch).getModeString ∧ OneLine (s.channel ch).getModeParams := by
  have hkey := (h.channelText ch).key
  refine ⟨?_, ?_⟩
  · rw [Channel.getModeString]
    split_ifs <;> decide
  · rw [Channel.getModeParams]
    split_ifs <;> simp (disch := decide) [hkey]

/-- The members of a channel are there. -/
theorem live_of_mem {c : ChannelRef} (hq : q ∈ (s.channel c).members.values) : s.Live q := by
  obtain ⟨fd, hfd⟩ := OrdMap.mem_values.mp hq
  rcases hch : s.channels.get? c with _ | chan
  · rw [channel_of_none hch] at hfd
    exact absurd hfd (by simp [show (default : Channel).members = OrdMap.empty from rfl])
  · rw [channel_of_get? hch] at hfd
    exact ((h.authority.channel c chan hch).member fd q hfd).live h.table

/-- Whoever is found by nickname is entitled to its descriptor. -/
theorem entitled_of_findClientByNick {nick : Str} (hq : s.findClientByNick nick = some q) :
    s.Entitled (s.deref q).fd q := by
  obtain ⟨hP, hmem⟩ := And.intro (List.find?_some hq) (List.mem_of_find?_eq_some hq)
  obtain ⟨fd, hfd⟩ := OrdMap.mem_values.mp hmem
  simp only [Bool.and_eq_true, Bool.not_eq_true'] at hP
  exact ⟨(h.table.fd_eq hfd).symm ▸ hfd, hP.1.1, hP.1.2⟩

end Inv

/-! ### What is said -/

/-- The three digits of a numeric reply. -/
def IsNumeric (n : String) : Prop := (str n).length = 3 ∧ ∀ c ∈ str n, isDigitOctet c = true

instance : DecidablePred IsNumeric := fun n =>
  haveI := List.decidableBAll (fun c => isDigitOctet c = true) (str n)
  inferInstanceAs (Decidable (_ ∧ _))

/-- A numeric reply of one line. -/
def Reply (n : String) (a : Str) : Prop := IsNumeric n ∧ OneLine a

instance (n : String) (a : Str) : Decidable (Reply n a) := inferInstanceAs (Decidable (_ ∧ _))

omit [Libcpp] in
@[simp] theorem reply_iff {n : String} {a : Str} (hn : IsNumeric n) : Reply n a ↔ OneLine a :=
  and_iff_right hn

/-- A literal that holds a verb, other than the one for transfers. -/
def IsSpeech (x : String) : Prop := HasVerb x ∧ verbOf x ≠ str "FILE"

instance : DecidablePred IsSpeech := fun _ => inferInstanceAs (Decidable (_ ∧ _))

omit [Libcpp] in
/-- Whoever is named by a word may say anything but what is about transfers. -/
theorem speech_of_name {pre : Str} {x : String} (hw : str ":" ++ pre ++ str x <+: w)
    (hpre : IsWord pre) (hlen : pre.length ≤ 40) (hx : IsSpeech x)
    (hnotice : verbOf x = str "NOTICE" → pre ≠ SERVER_NAME) (hone : OneLine w) : Speech m w := by
  obtain ⟨rest, rfl⟩ := hw
  refine ⟨hone, Or.inl ((says_name hpre hlen hx.1).append.quiet hx.2 fun hverb hsource => ?_)⟩
  exact hnotice hverb (List.cons.inj hsource).2

omit [Libcpp] in
/-- What the server says. -/
theorem speech_server (x : String) (hw : str ":" ++ SERVER_NAME ++ str x <+: w) (hx : IsSpeech x)
    (hnotice : verbOf x ≠ str "NOTICE") (hone : OneLine w) : Speech m w :=
  speech_of_name hw (by decide) (by decide) hx (fun h => absurd h hnotice) hone

theorem Inv.clientNames (h : s.Inv) (q : ClientId) : ClientNames (s.deref q) := by
  rcases hq : s.heap.get? q with _ | c
  · have hnick : IsWord (str "*") ∧ (str "*").length ≤ MAX_NICKLEN := by decide
    rw [deref_of_none hq]
    exact ⟨hnick, ⟨.nil, Nat.zero_le _⟩, .nil, Nat.zero_le _⟩
  · rw [deref_of_get? hq]
    exact h.names q c hq

/-- A client is named by a short word. -/
theorem Inv.isWord_getPrefix (h : s.Inv) (q : ClientId) :
    IsWord (s.deref q).getPrefix ∧ (s.deref q).getPrefix.length ≤ 36 := by
  obtain ⟨⟨hnick, hnlen⟩, ⟨huser, hulen⟩, hhost, hhlen⟩ := h.clientNames q
  rw [MAX_NICKLEN] at hnlen
  rw [MAX_USERLEN] at hulen
  rw [Client.getPrefix]
  refine ⟨?_, ?_⟩
  · simp only [IsWord.append_iff, hnick, huser, hhost, true_and, and_true]
    decide
  · simp only [List.length_append, show (str "!").length = 1 from rfl,
      show (str "@").length = 1 from rfl]
    omega

/-- A registered client has chosen a name. -/
theorem Inv.nickname_ne_nil (hi : s.Inv) (hp : s.Live p) (hreg : (s.deref p).registered = true) :
    (s.deref p).nickname ≠ [] := by
  have hget := hi.table.live_get? hp
  have hvalid := (hi.nicks.valid p _ hget (hi.gate p _ hget hreg).2.1).1
  intro hnil
  rw [hnil] at hvalid
  exact absurd hvalid (by simp [isValidNickname])

/-- The server is not named like a client. -/
theorem getPrefix_ne_SERVER_NAME {c : Client} : c.getPrefix ≠ SERVER_NAME := fun h => by
  have hmem : (33 : Octet) ∈ c.getPrefix := by simp [Client.getPrefix, show str "!" = [33] from rfl]
  rw [h] at hmem
  exact absurd hmem (by decide)

/-- **What a client says** that is not about transfers. -/
theorem Inv.speech (h : s.Inv) (q : ClientId) (x : String)
    (hw : str ":" ++ (s.deref q).getPrefix ++ str x <+: w) (hx : IsSpeech x) (hone : OneLine w) : Speech m w :=
  speech_of_name hw (h.isWord_getPrefix q).1 ((h.isWord_getPrefix q).2.trans (by decide)) hx
    (fun _ => getPrefix_ne_SERVER_NAME) hone

namespace Turn

/-- A numeric reply. -/
theorem reply (h : Turn s₀ p s) {n : String} {a : Str} (hreply : Reply n a) :
    Complies s₀ p m s (s.sendReply p n a) := by
  obtain ⟨⟨hlen, hdigit⟩, hparams⟩ := hreply
  have hnum : OneLine (str n) := fun c hc => by
    refine ⟨?_, ?_, ?_⟩ <;> rintro rfl <;> exact absurd (hdigit _ hc) (by decide)
  have hword : IsWord (str n) := by
    rintro c hc rfl
    exact absurd (hdigit _ hc) (by decide)
  refine h.tell ⟨by simp (disch := decide) [h.inv.nickname p, hparams, hnum], Or.inl ?_⟩
  have hsays : Says (str ":" ++ SERVER_NAME) (str n)
      (str ":" ++ SERVER_NAME ++ str " " ++ str n ++ str " " ++ (s.deref p).nickname ++ str " " ++ a) :=
    ⟨by decide, hword, by rw [hlen]; decide, ⟨(s.deref p).nickname ++ str " " ++ a, by
      simp only [show str " " = [SPACE] from rfl, List.append_assoc, List.cons_append,
        List.nil_append]⟩⟩
  exact hsays.quiet (fun hcon => absurd (congrArg List.length hcon) (by rw [hlen]; decide))
    fun hcon => absurd (congrArg List.length hcon) (by rw [hlen]; decide)

/-- The same message to many. -/
theorem queueAll (h : Turn s₀ p s) (hm : m ≠ .leaving) (hreg : (s₀.deref p).registered = true)
    {l : List ClientId} {x : Option ClientId} (hps : ∀ q ∈ l, s.Live q)
    (hmsg : Speech m w) : Complies s₀ p m s (s.queueAll l w x) := by
  refine h.foldl hm l fun u hu hrun q hq => ?_
  split_ifs
  · exact .refl u
  · exact hu.send (h.live_runs hrun hm (hps q hq)) (Or.inr hreg) hmsg

/-- A message to a channel. -/
theorem broadcast (h : Turn s₀ p s) (hm : m ≠ .leaving) (hreg : (s₀.deref p).registered = true)
    {c : ChannelRef} {x : Option ClientId} (hmsg : Speech m w) :
    Complies s₀ p m s (s.broadcastMessage c w x) :=
  h.queueAll hm hreg (fun _ => h.inv.live_of_mem) hmsg

/-- A message to those who have not had it yet. -/
theorem queueOnce (h : Turn s₀ p s) (hm : m ≠ .leaving) (hreg : (s₀.deref p).registered = true)
    {l : List ClientId} {x : Finset Fd} (hps : ∀ q ∈ l, s.Live q) (hmsg : Speech m w) :
    Complies s₀ p m s (s.queueOnce l w x).1 := by
  have := Guarded.Runs.foldl (M := serverMachine) (P := Op.Permitted s₀ p m) (g := Prod.fst)
    (J := fun acc : Server × Finset Fd => Complies s₀ p m s acc.1)
    (f := fun acc q =>
      if (acc.1.deref q).fd ∈ acc.2 then acc
      else (acc.1.queueMessage q w, insert (acc.1.deref q).fd acc.2)) l
    (fun acc hacc q hq => ?_) (b := (s, x)) (.refl s)
  · exact this.1
  · split_ifs
    · exact ⟨.refl _, hacc⟩
    · have hone := (h.runs hacc hm).send (m := m) (h.live_runs hacc hm (hps q hq)) (Or.inr hreg) hmsg
      exact ⟨hone, hacc.trans hone⟩

/-- A message to every channel of the client. -/
theorem broadcastToChannels (h : Turn s₀ p s) (hm : m ≠ .leaving)
    (hreg : (s₀.deref p).registered = true) (hmsg : Speech m w) :
    Complies s₀ p m s (s.broadcastToChannels p w) := by
  have := Guarded.Runs.foldl (M := serverMachine) (P := Op.Permitted s₀ p m) (g := Prod.fst)
    (J := fun acc : Server × Finset Fd => Turn s₀ p acc.1)
    (f := fun acc ch =>
      if acc.1.isMember ch p then acc.1.queueOnce (acc.1.channel ch).members.values w acc.2
      else acc) s.channels.keys
    (fun acc hacc ch _ => ?_) (b := (s, {(s.deref p).fd})) h
  · exact this.1
  · split_ifs
    · have hone := hacc.queueOnce (m := m) (l := (acc.1.channel ch).members.values)
        (x := acc.2) hm hreg (fun _ => hacc.inv.live_of_mem) hmsg
      exact ⟨hone, hacc.runs hone hm⟩
    · exact ⟨.refl _, hacc⟩

end Turn

end Server

end FtIrc
