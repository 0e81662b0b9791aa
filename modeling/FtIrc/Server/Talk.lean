import FtIrc.Server.Frame

/-!
# Talking

Most of what a handler does is to queue messages, and a message leaves everything
alone but a socket buffer and the record. `FtIrc.Server.queueMany` queues a list of
messages; `FtIrc.Server.Tells` says that a state came about by nothing else, from
messages with a given property. What was read before messages were queued reads the
same after them, so a handler is understood once it is known what it says and what it
does besides.
-/

namespace FtIrc

variable [Libcpp]

namespace Server

variable {s t u : Server} {p q : ClientId} {fd : Fd} {ch : ChannelRef} {w : Str}
  {msgs : List (ClientId × Str)} {P Q : ClientId → Str → Prop}

/-- Messages to several clients, one after another. -/
def queueMany (s : Server) (msgs : List (ClientId × Str)) : Server :=
  msgs.foldl (fun s e => s.queueMessage e.1 e.2) s

/-- What is recorded of a message. -/
def sentAs (e : ClientId × Str) : Event := .outbound e.1 (wire e.2)

@[simp] theorem queueMany_nil : s.queueMany [] = s := rfl

@[simp] theorem queueMany_cons {e : ClientId × Str} :
    s.queueMany (e :: msgs) = (s.queueMessage e.1 e.2).queueMany msgs := rfl

theorem queueMany_append (msgs' : List (ClientId × Str)) :
    s.queueMany (msgs ++ msgs') = (s.queueMany msgs).queueMany msgs' :=
  List.foldl_append ..

/-! ### What messages leave alone -/

/-- **What one message leaves alone, many do.** -/
theorem read_queueMany {β : Type} (g : Server → β) (hg : ∀ u q w, g (u.queueMessage q w) = g u) :
    g (s.queueMany msgs) = g s := by
  induction msgs generalizing s with
  | nil => rfl
  | cons e msgs ih => exact ih.trans (hg s e.1 e.2)

@[simp] theorem channels_queueMany : (s.queueMany msgs).channels = s.channels :=
  read_queueMany Server.channels fun _ _ _ => rfl

@[simp] theorem clients_queueMany : (s.queueMany msgs).clients = s.clients :=
  read_queueMany Server.clients fun _ _ _ => rfl

@[simp] theorem files_queueMany : (s.queueMany msgs).files = s.files :=
  read_queueMany Server.files fun _ _ _ => rfl

@[simp] theorem clock_queueMany : (s.queueMany msgs).clock = s.clock :=
  read_queueMany Server.clock fun _ _ _ => rfl

@[simp] theorem password_queueMany : (s.queueMany msgs).password = s.password :=
  read_queueMany Server.password fun _ _ _ => rfl

@[simp] theorem reentrant_queueMany : (s.queueMany msgs).reentrant = s.reentrant :=
  read_queueMany Server.reentrant fun _ _ _ => rfl

@[simp] theorem channel_queueMany : (s.queueMany msgs).channel ch = s.channel ch :=
  read_queueMany (channel · ch) fun _ _ _ => rfl

@[simp] theorem findChannel_queueMany (name : Str) :
    (s.queueMany msgs).findChannel name = s.findChannel name :=
  read_queueMany (findChannel · name) fun _ _ _ => rfl

@[simp] theorem findClientByFd_queueMany (fd : Fd) :
    (s.queueMany msgs).findClientByFd fd = s.findClientByFd fd :=
  read_queueMany (findClientByFd · fd) fun _ _ _ => rfl

/-- **A client that is written to** differs in its socket only. -/
theorem deref_queueMany (msgs : List (ClientId × Str)) (q : ClientId) :
    ∃ io, (s.queueMany msgs).deref q = { s.deref q with io := io } := by
  induction msgs generalizing s with
  | nil => exact ⟨(s.deref q).io, rfl⟩
  | cons e msgs ih =>
    obtain ⟨io, hio⟩ := ih (s := s.queueMessage e.1 e.2)
    refine ⟨io, hio.trans ?_⟩
    exact deref_update_field (f := fun c => { c with io := Libcpp.queue c.io (wire e.2) })
      (fun c => { c with io := io }) (fun _ => rfl) q

@[simp] theorem fd_queueMany : ((s.queueMany msgs).deref q).fd = (s.deref q).fd := by
  obtain ⟨io, hio⟩ := deref_queueMany (s := s) msgs q
  rw [hio]

@[simp] theorem nickname_queueMany :
    ((s.queueMany msgs).deref q).nickname = (s.deref q).nickname := by
  obtain ⟨io, hio⟩ := deref_queueMany (s := s) msgs q
  rw [hio]

@[simp] theorem getPrefix_queueMany :
    ((s.queueMany msgs).deref q).getPrefix = (s.deref q).getPrefix := by
  obtain ⟨io, hio⟩ := deref_queueMany (s := s) msgs q
  rw [hio]
  rfl

@[simp] theorem isMember_queueMany : (s.queueMany msgs).isMember ch q = s.isMember ch q := by
  rw [isMember, channel_queueMany, fd_queueMany, isMember]

@[simp] theorem isOperator_queueMany : (s.queueMany msgs).isOperator ch q = s.isOperator ch q := by
  rw [isOperator, channel_queueMany, fd_queueMany, isOperator]

/-- **What was said is recorded**, newest first. -/
theorem trace_queueMany : (s.queueMany msgs).trace = (msgs.map sentAs).reverse ++ s.trace := by
  induction msgs generalizing s with
  | nil => rfl
  | cons e msgs ih =>
    rw [queueMany_cons, ih, List.map_cons, List.reverse_cons, List.append_assoc]
    rfl

/-- Writing to a channel and talking do not interfere. -/
theorem queueMany_updateChannel (f : Channel → Channel) :
    (s.queueMany msgs).updateChannel ch f = (s.updateChannel ch f).queueMany msgs := by
  induction msgs generalizing s with
  | nil => rfl
  | cons e msgs ih => exact ih

/-! ### Who talks -/

/-- The text of a numeric reply. -/
def replyText (nick : Str) (numeric : String) (params : Str) : Str :=
  str ":" ++ SERVER_NAME ++ str " " ++ str numeric ++ str " " ++ nick ++ str " " ++ params

theorem sendReply_eq (numeric : String) (params : Str) :
    s.sendReply p numeric params =
      s.queueMany [(p, replyText (s.deref p).nickname numeric params)] := rfl

/-- A message to everybody of a list but one. -/
theorem queueAll_eq (ps : List ClientId) (exclude : Option ClientId) :
    s.queueAll ps w exclude =
      s.queueMany ((ps.filter fun q => decide (exclude ≠ some q)).map fun q => (q, w)) := by
  induction ps generalizing s with
  | nil => rfl
  | cons q ps ih =>
    have hcons : s.queueAll (q :: ps) w exclude =
        (if exclude = some q then s else s.queueMessage q w).queueAll ps w exclude := rfl
    rw [hcons, ih, List.filter_cons]
    by_cases hq : exclude = some q
    · simp [hq]
    · simp [hq]

/-- A message to the members of a channel. -/
theorem broadcastMessage_eq (exclude : Option ClientId) :
    s.broadcastMessage ch w exclude =
      s.queueMany (((s.channel ch).members.values.filter fun q =>
        decide (exclude ≠ some q)).map fun q => (q, w)) :=
  queueAll_eq _ _

/-! ### Nothing but talk -/

/-- **All that happened was talk**: messages with a property were queued. -/
def Tells (P : ClientId → Str → Prop) (s t : Server) : Prop :=
  ∃ msgs : List (ClientId × Str), (∀ e ∈ msgs, P e.1 e.2) ∧ t = s.queueMany msgs

namespace Tells

theorem refl (s : Server) : Tells P s s := ⟨[], by simp, rfl⟩

theorem trans (h : Tells P s t) (h' : Tells P t u) : Tells P s u := by
  obtain ⟨msgs, hmsgs, rfl⟩ := h
  obtain ⟨msgs', hmsgs', rfl⟩ := h'
  refine ⟨msgs ++ msgs', fun e he => ?_, (queueMany_append msgs').symm⟩
  rcases List.mem_append.mp he with he | he
  · exact hmsgs e he
  · exact hmsgs' e he

theorem mono (h : Tells P s t) (hPQ : ∀ q w, P q w → Q q w) : Tells Q s t := by
  obtain ⟨msgs, hmsgs, rfl⟩ := h
  exact ⟨msgs, fun e he => hPQ _ _ (hmsgs e he), rfl⟩

/-- One message. -/
theorem message (hP : P q w) : Tells P s (s.queueMessage q w) :=
  ⟨[(q, w)], by simpa using hP, rfl⟩

/-- The same message to everybody of a list but one. -/
theorem queueAll {ps : List ClientId} {exclude : Option ClientId}
    (hP : ∀ q ∈ ps, exclude ≠ some q → P q w) : Tells P s (s.queueAll ps w exclude) := by
  refine ⟨_, fun e he => ?_, queueAll_eq ps exclude⟩
  obtain ⟨q, hq, rfl⟩ := List.mem_map.mp he
  obtain ⟨hmem, hne⟩ := List.mem_filter.mp hq
  exact hP q hmem (of_decide_eq_true hne)

/-- A numeric reply. -/
theorem reply {n : String} {a : Str} (hP : P p (replyText (s.deref p).nickname n a)) :
    Tells P s (s.sendReply p n a) :=
  message hP

theorem nickname (h : Tells P s t) (q : ClientId) :
    (t.deref q).nickname = (s.deref q).nickname := by
  obtain ⟨msgs, -, rfl⟩ := h
  exact nickname_queueMany

/-- One more numeric reply. -/
theorem andReply (h : Tells P s t) {n : String} {a : Str}
    (hP : P p (replyText (s.deref p).nickname n a)) : Tells P s (t.sendReply p n a) :=
  h.trans (.reply (h.nickname p ▸ hP))

/-- A message to the members of a channel but one. -/
theorem broadcast {exclude : Option ClientId}
    (hP : ∀ q ∈ (s.channel ch).members.values, exclude ≠ some q → P q w) :
    Tells P s (s.broadcastMessage ch w exclude) :=
  queueAll hP

theorem updateChannel (h : Tells P s t) (ch : ChannelRef) (f : Channel → Channel) :
    Tells P (s.updateChannel ch f) (t.updateChannel ch f) := by
  obtain ⟨msgs, hmsgs, rfl⟩ := h
  exact ⟨msgs, hmsgs, queueMany_updateChannel f⟩

/-- A loop that talks in every round. -/
theorem foldl {α : Type} {f : Server → α → Server} (l : List α)
    (hf : ∀ u, Tells P s u → ∀ a ∈ l, Tells P u (f u a)) : Tells P s (l.foldl f s) := by
  refine List.foldlRecOn l f (motive := Tells P s) (.refl s) fun u hu a ha => ?_
  exact hu.trans (hf u hu a ha)

end Tells

/-- **Talk does not change what is read**: stated once for every reading that one
message leaves alone. -/
theorem Tells.read {β : Type} (g : Server → β) (hg : ∀ u q w, g (u.queueMessage q w) = g u)
    (h : Tells P s t) : g t = g s := by
  obtain ⟨msgs, -, rfl⟩ := h
  exact read_queueMany g hg

end Server

end FtIrc
