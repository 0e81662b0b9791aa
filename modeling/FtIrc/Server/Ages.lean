import FtIrc.Server.Reachability

/-!
# What is never taken back

A client that is gone stays gone, and so does a transfer: identities and numbers are
handed out once. `FtIrc.Server.Ages` says so of the two ends of a run, and what is left
of what was there before: a client its descriptor, a transfer its parties.
-/

namespace FtIrc

open Abnf Relation

variable [Libcpp]

/-- What stays of a transfer: everything that was offered, and the answer. -/
structure Transfer.Continues (old new : Transfer) : Prop where
  senderFd : new.senderFd = old.senderFd
  recipientFd : new.recipientFd = old.recipientFd
  filename : new.filename = old.filename
  declaredSize : new.declaredSize = old.declaredSize
  accepted : old.accepted = true → new.accepted = true

namespace Transfer.Continues

variable {a b c : Transfer}

omit [Libcpp] in
theorem refl (a : Transfer) : a.Continues a := ⟨rfl, rfl, rfl, rfl, id⟩

omit [Libcpp] in
theorem trans (h : a.Continues b) (h' : b.Continues c) : a.Continues c :=
  ⟨h'.senderFd.trans h.senderFd, h'.recipientFd.trans h.recipientFd,
    h'.filename.trans h.filename, h'.declaredSize.trans h.declaredSize,
    fun hacc => h'.accepted (h.accepted hacc)⟩

omit [Libcpp] in
theorem of_advances (h : a.Advances b) : a.Continues b :=
  ⟨h.senderFd, h.recipientFd, h.filename, h.declaredSize, h.accepted⟩

end Transfer.Continues

namespace Server

variable {M : Matcher} {s t u : Server} {p : ClientId}

/-- **Whoever is there with an old identity was there before**, on the same descriptor,
and every transfer with an old number was there before too. -/
structure Ages (s t : Server) : Prop where
  nextClient : s.nextClient ≤ t.nextClient
  client : ∀ p c, p < s.nextClient → t.heap.get? p = some c →
    ∃ d, s.heap.get? p = some d ∧ c.fd = d.fd
  nextId : s.files.nextId ≤ t.files.nextId
  transfer : ∀ id tr, id < s.files.nextId → t.files.transfers.get? id = some tr →
    ∃ old, s.files.transfers.get? id = some old ∧ old.Continues tr

namespace Ages

theorem refl (s : Server) : s.Ages s :=
  ⟨le_refl _, fun _ c _ hc => ⟨c, hc, rfl⟩, le_refl _, fun _ tr _ htr => ⟨tr, htr, .refl tr⟩⟩

theorem trans (h : s.Ages t) (h' : t.Ages u) : s.Ages u where
  nextClient := h.nextClient.trans h'.nextClient
  client p c hp hc := by
    obtain ⟨d, hd, hfd⟩ := h'.client p c (hp.trans_le h.nextClient) hc
    obtain ⟨e, he, hfd'⟩ := h.client p d hp hd
    exact ⟨e, he, hfd.trans hfd'⟩
  nextId := h.nextId.trans h'.nextId
  transfer id tr hid htr := by
    obtain ⟨mid, hmid, hcon⟩ := h'.transfer id tr (hid.trans_le h.nextId) htr
    obtain ⟨old, hold, hcon'⟩ := h.transfer id mid hid hmid
    exact ⟨old, hold, hcon'.trans hcon⟩

end Ages

/-- An operation never writes to the descriptor of a client. -/
theorem fd_of_edit {op : Op} {f : Client → Client} {q : ClientId} (hf : op.edit s = some (q, f))
    (c : Client) : (f c).fd = c.fd := by
  cases op <;> simp only [Op.edit, Option.some.injEq, Prod.mk.injEq, reduceCtorEq] at hf <;>
    obtain ⟨rfl, rfl⟩ := hf
  case user p name mode real =>
    obtain ⟨i, w, hbits⟩ := applyUserModeBitmask_eq mode { c with username := name }
    beta_reduce
    rw [hbits]
  case userMode p flag b => cases flag <;> rfl
  all_goals rfl

/-- Identities are not taken back. -/
theorem nextClient_run (op : Op) : s.nextClient ≤ (op.run s).nextClient := by
  cases op with
  | leave fd ch =>
    rw [Op.run, dropMember]
    split_ifs <;> exact le_refl _
  | expel p fd =>
    rw [Op.run, finalizeDisconnect]
    split <;> exact le_refl _
  | finalize p fd =>
    rw [Op.run, finalizeDisconnect]
    split <;> exact le_refl _
  | accept fd hostname =>
    rw [Op.run, acceptClient]
    split_ifs
    · exact le_refl _
    · exact Nat.le_succ _
  | _ => exact le_refl _

/-- **One operation** takes nothing back. -/
theorem ages_run {op : Op} (hi : s.Inv) (ho : op.Allowed s) : s.Ages (op.run s) where
  nextClient := nextClient_run op
  client p c hp hc := by
    rcases get?_run hi.table ho hc with ⟨d, hd, ⟨f, hf, rfl⟩ | ⟨-, rfl⟩⟩ | ⟨fd, hostname, -, rfl, -⟩
    · exact ⟨d, hd, fd_of_edit hf d⟩
    · exact ⟨c, hd, rfl⟩
    · exact absurd hp (lt_irrefl _)
  nextId := by
    rcases nextId_run (s := s) op with heq | ⟨-, heq⟩ <;> omega
  transfer id tr hid htr := by
    rcases get?_transfers_run ho htr with ⟨old, hold, hadv⟩ | ⟨rfl, -⟩
    · exact ⟨old, hold, .of_advances hadv⟩
    · exact absurd hid (lt_irrefl _)

/-- **A sequence of operations** takes nothing back. -/
theorem ages_runs {P : Op → Prop} (hi : s.Inv) (hrun : serverMachine.Runs P s t) : s.Ages t :=
  hrun.relates (I := Inv) .refl (fun _ _ _ => .trans) (fun _ _ _ ho hu => hu.run ho)
    (fun _ _ _ ho hu => ages_run hu ho) hi

/-! ### Runs of the server -/

/-- **A run of the server**: any number of steps, of any clients, in any order. -/
abbrev Steps (M : Matcher) : Server → Server → Prop := ReflTransGen (Step M)

theorem Steps.inv (h : Steps M s t) (hi : s.Inv) : t.Inv := by
  induction h with
  | refl => exact hi
  | tail _ hstep ih => exact hstep.inv ih

theorem Steps.ages (h : Steps M s t) (hi : s.Inv) : s.Ages t := by
  induction h with
  | refl => exact .refl s
  | tail hrun hstep ih =>
    have hmid := Steps.inv hrun hi
    exact ih.trans (ages_runs hmid (hstep.runs hmid))

/-- **A turning point**: what holds at the end of a run and not at its start came about in
one of its steps. -/
theorem Steps.turning {P : Server → Prop} (h : Steps M s t) (hs : ¬P s) (ht : P t) :
    ∃ u v, Steps M s u ∧ Step M u v ∧ Steps M v t ∧ ¬P u ∧ P v := by
  induction h with
  | refl => exact absurd ht hs
  | @tail u v hrun hstep ih =>
    by_cases hu : P u
    · obtain ⟨u', v', h₁, h₂, h₃, h₄, h₅⟩ := ih hu
      exact ⟨u', v', h₁, h₂, h₃.tail hstep, h₄, h₅⟩
    · exact ⟨u, v, hrun, hstep, .refl, hu, ht⟩

end Server

end FtIrc
