import FtIrc.Server.Loop

/-!
# A session ends once, and quietly

What the record of a session says over a whole run of the event loop, whatever made
the session end and in whatever order: the teardown takes effect once, also where an
extension calls `disconnectClient` from inside it; a client about to close is in no
channel, in no transfer and under no nickname, is sent nothing more and is not
listened to; and its descriptor is closed once, for one of four reasons, at the
latest when the deadline has passed (`FtIrc.Loop.Reachable.sessions`).
-/

namespace FtIrc

open Abnf

variable [Libcpp]

/-! ### Records in order -/

namespace Event

variable {T : Time} {p : ClientId} {e : Event} {trace newer older : List Event}

/-- Whether the event is the end of the session of a client. -/
def isFinal (p : ClientId) : Event → Bool
  | finalized q _ => q == p
  | _ => false

omit [Libcpp] in
theorem isFinal_iff : e.isFinal p = true ↔ e.IsFinal p := by
  refine ⟨fun h => ?_, fun ⟨how, h⟩ => by rw [h, isFinal, beq_self_eq_true]⟩
  cases e with
  | finalized q how => exact ⟨how, by rw [beq_iff_eq.mp h]⟩
  | _ => exact absurd h Bool.false_ne_true

omit [Libcpp] in
/-- Every event of a record in order is in order after the ones before it. -/
theorem AllInOrder.inOrder (h : AllInOrder T trace) (htrace : trace = newer ++ e :: older) :
    e.InOrder T older := by
  induction newer generalizing trace with
  | nil =>
    subst htrace
    exact h.1
  | cons e' newer ih =>
    subst htrace
    exact ih h.2 rfl

omit [Libcpp] in
/-- An event that is never recorded twice is recorded at most once. -/
theorem AllInOrder.count_le_one {f : Event → Bool} (h : AllInOrder T trace)
    (htwice : ∀ e old, f e = true → e.InOrder T old → ∀ e' ∈ old, f e' = false) :
    trace.countP f ≤ 1 := by
  induction trace with
  | nil => simp
  | cons e old ih =>
    rcases htest : f e
    · rw [List.countP_cons_of_neg (by simp [htest])]
      exact ih h.2
    · rw [List.countP_cons_of_pos htest]
      have hnone : old.countP f = 0 :=
        List.countP_eq_zero.mpr fun e' he' => by simp [htwice e old htest h.1 e' he']
      omega

end Event

namespace Server

variable {M : Matcher} {s t : Server} {p q : ClientId} {fd : Fd} {who : ClientId → Prop}

/-! ### While a close is pending -/

/-- **A pending close stays pending**, since the time it has been, for as long as the
client is there. -/
theorem pendingClose_run {op : Op} (hi : s.Inv) (ho : op.Allowed s) (hop : op.Within who)
    (hp : (s.deref p).pendingClose = true) {c : Client} (hc : (op.run s).heap.get? p = some c) :
    c.pendingClose = true ∧ c.pendingCloseSince = (s.deref p).pendingCloseSince := by
  rcases get?_run hi.table ho hc with ⟨d, hd, ⟨f, hf, rfl⟩ | ⟨-, rfl⟩⟩ | ⟨fd, hostname, rfl, -, -⟩
  · rw [deref_of_get? hd] at hp ⊢
    cases op <;> simp only [Op.edit, Option.some.injEq, Prod.mk.injEq, reduceCtorEq] at hf <;>
      obtain ⟨rfl, rfl⟩ := hf
    case defer p =>
      have hset := hi.settled p d hd
      rw [hp, ← deref_of_get? hd, ho.1.2] at hset
      exact absurd hset (by decide)
    case user p name mode real =>
      obtain ⟨i, w, hbits⟩ := applyUserModeBitmask_eq mode { d with username := name }
      beta_reduce
      rw [hbits]
      exact ⟨hp, rfl⟩
    case userMode p flag b => cases flag <;> exact ⟨hp, rfl⟩
    all_goals exact ⟨hp, rfl⟩
  · rw [deref_of_get? hd] at hp ⊢
    exact ⟨hp, rfl⟩
  · exact hop.elim

theorem pendingClose_runs (hrun : serverMachine.Runs (Op.Within who) s t) (hi : s.Inv)
    (hp : (s.deref p).pendingClose = true) {c : Client} (hc : t.heap.get? p = some c) :
    c.pendingClose = true ∧ c.pendingCloseSince = (s.deref p).pendingCloseSince := by
  refine (hrun.invariant (I := fun u => u.Inv ∧ ∀ c, u.heap.get? p = some c →
    c.pendingClose = true ∧ c.pendingCloseSince = (s.deref p).pendingCloseSince)
    (fun op u hop ho hu => ⟨hu.1.run ho, fun c hc => ?_⟩)
    ⟨hi, fun c hc => by rw [← deref_of_get? hc]; exact ⟨hp, rfl⟩⟩).2 c hc
  -- nobody arrives, so the client was there before the operation too
  have hclients := (hu.1.run ho).table.clients_of_heap p c hc
  have hget := hu.1.table.get? (clients_of_run hop hclients)
  obtain ⟨hpc, hsince⟩ := hu.2 _ hget
  obtain ⟨hpc', hsince'⟩ := pendingClose_run hu.1 ho hop hpc hc
  exact ⟨hpc', hsince'.trans hsince⟩

/-- The deadline is never changed. -/
theorem deadline_runs {P : Op → Prop} (hrun : serverMachine.Runs P s t) :
    t.pendingCloseTimeout = s.pendingCloseTimeout :=
  hrun.invariant (I := fun u => u.pendingCloseTimeout = s.pendingCloseTimeout)
    (fun op u _ _ hu => (run_password op u).2.trans hu) rfl

/-- The deadline sweep closes every descriptor whose time has come. -/
theorem clients_checkPendingCloseTimeouts (hp : s.clients.get? fd = some p)
    (hpc : (s.deref p).pendingClose = true)
    (hlate : s.pendingCloseTimeout ≤ s.clock - (s.deref p).pendingCloseSince) :
    s.checkPendingCloseTimeouts.clients.get? fd = none := by
  have hfinal : ∀ (u : Server) fd', fd = fd' ∨ u.clients.get? fd = none →
      (u.finalizeDisconnect fd').clients.get? fd = none := by
    intro u fd' h
    rw [finalizeDisconnect]
    split
    · rename_i hnone
      exact h.elim (fun heq => heq ▸ hnone) id
    · refine (OrdMap.get?_erase _ _ _).trans ?_
      split_ifs with heq
      · rfl
      · exact h.resolve_left (Ne.symm heq)
  have hfold : ∀ (fds : List Fd) (u : Server), fd ∈ fds ∨ u.clients.get? fd = none →
      (fds.foldl finalizeDisconnect u).clients.get? fd = none := by
    intro fds
    induction fds with
    | nil => exact fun u h => h.resolve_left List.not_mem_nil
    | cons fd' fds ih =>
      refine fun u h => ih _ ?_
      rcases h with h | h
      · rcases List.mem_cons.mp h with rfl | h
        · exact Or.inr (hfinal u fd (Or.inl rfl))
        · exact Or.inl h
      · exact Or.inr (hfinal u fd' (Or.inr h))
  refine hfold _ s (Or.inl (List.mem_map.mpr ⟨(fd, p), List.mem_filter.mpr ⟨?_, ?_⟩, rfl⟩))
  · exact OrdMap.mem_entries.mpr hp
  · simpa [hpc] using hlate

/-- **The deadline is kept**: a pass of the loop after it leaves nothing of the client. -/
theorem Inv.gone_afterEvents (hi : s.Inv) (hp : s.clients.get? fd = some p)
    (hpc : (s.deref p).pendingClose = true) {t₁ t₂ t₃ : Time}
    (hlate : s.pendingCloseTimeout ≤ t₂ - (s.deref p).pendingCloseSince) :
    (s.afterEvents t₁ t₂ t₃).heap.get? p = none := by
  have hclock : ∀ (u : Server) now, serverMachine.Runs (Op.Sweep fun _ => True) u
      { u with clock := now } := fun u now =>
    .single (M := serverMachine) (o := .clock now) trivial trivial
  have hping := (hclock s t₁).trans (runs_checkTimeouts (hi.runs (hclock s t₁)))
  have hbefore := hping.trans (hclock _ t₂)
  set u : Server := { ({ s with clock := t₁ } : Server).checkTimeouts with clock := t₂ } with hu
  have hi' : u.Inv := hi.runs hbefore
  have hsweep := runs_checkPendingCloseTimeouts hi'
  have hafter := (hclock u.checkPendingCloseTimeouts t₃).trans
    ((runs_tick (hi'.runs (hsweep.trans (hclock _ t₃)))).trans runs_updateInterests)
  -- the sweep closes the descriptor, unless it was closed before
  have hclosed : u.checkPendingCloseTimeouts.clients.get? fd = none := by
    rcases hq : u.clients.get? fd with _ | q
    · rcases hq' : u.checkPendingCloseTimeouts.clients.get? fd with _ | q
      · rfl
      · rw [clients_of_runs (within_of_sweep hsweep) hq'] at hq
        exact absurd hq (by simp)
    · obtain rfl : p = q := Option.some.inj (hp.symm.trans (clients_of_runs (within_of_sweep hbefore) hq))
      obtain ⟨hpc', hsince⟩ := pendingClose_runs (within_of_sweep hbefore) hi hpc (hi'.table.get? hq)
      refine clients_checkPendingCloseTimeouts hq hpc' ?_
      rw [hsince, deadline_runs (within_of_sweep hbefore)]
      exact hlate
  rcases hc : (s.afterEvents t₁ t₂ t₃).heap.get? p with _ | c
  · rfl
  · have hclients := (hi'.runs (hsweep.trans hafter)).table.clients_of_heap p c hc
    have hfd : c.fd = fd := by
      rw [← hi.table.fd_eq hp, ← hi.table.fd_eq
        (clients_of_runs (within_of_sweep (hbefore.trans (hsweep.trans hafter))) hclients)]
    rw [clients_of_runs (within_of_sweep hafter) (hfd ▸ hclients)] at hclosed
    exact absurd hclosed (by simp)

/-! ### The end of a session -/

/-- A client about to close has no rights, is a member of no channel, and nobody finds
it by nickname. -/
theorem Inv.withdrawn (hi : s.Inv) (hp : s.clients.get? fd = some p)
    (hpc : (s.deref p).pendingClose = true) :
    s.Rightless fd ∧ (∀ ch, p ∉ (s.channel ch).members.values) ∧
      ∀ nick, s.findClientByNick nick ≠ some p := by
  have htd : (s.deref p).tearingDown ≠ false := by
    rw [← hi.settled p _ (hi.table.get? hp), hpc]
    decide
  refine ⟨hi.authority.rightless (hi.authority.unlisted fun q hq => ?_), fun ch hmem => ?_,
    fun nick hnick => ?_⟩
  · obtain rfl : p = q := Option.some.inj (hp.symm.trans hq.1)
    exact htd hq.2.2
  · exact htd (hi.live_of_mem hmem).2
  · exact htd (hi.entitled_of_findClientByNick hnick).2.2

end Server

namespace Loop

open Server

variable {M : Matcher} {l : Loop}

/-- **A session ends once, and quietly.** In every state of the event loop, after any
run, with any further extensions calling `disconnectClient` again:

* the teardown of a client took effect at most once, and it did exactly if the client
  is tearing down or gone;
* a client whose close is pending was recorded as closing, is in no channel, no
  invite list and no transfer, and is found by no nickname; and after a client is
  recorded as closing nothing is queued to it and no line of it is dispatched;
* a client is finalized at most once, and it was exactly if it is gone; when it was,
  nothing was left to send, the send queue had overflowed, the deadline had passed, or
  an error or a hang-up had been reported; and a pass after the deadline finalizes
  it. -/
theorem Reachable.sessions (h : Reachable M l) :
    (∀ p, l.server.trace.count (.teardown p) ≤ 1 ∧
      (.teardown p ∈ l.server.trace ↔ p < l.server.nextClient ∧ l.server.Ended p)) ∧
    (∀ fd p, l.server.clients.get? fd = some p → (l.server.deref p).pendingClose = true →
      .closing p ∈ l.server.trace ∧ l.server.Rightless fd ∧
        (∀ ch, p ∉ (l.server.channel ch).members.values) ∧
          ∀ nick, l.server.findClientByNick nick ≠ some p) ∧
    (∀ p newer older, l.server.trace = newer ++ .closing p :: older →
      ∀ e ∈ newer, (∀ wire, e ≠ .outbound p wire) ∧ ∀ raw, e ≠ .inbound p raw) ∧
    (∀ p, l.server.trace.countP (Event.isFinal p) ≤ 1 ∧
      ((∃ e ∈ l.server.trace, e.isFinal p = true) ↔
        p < l.server.nextClient ∧ l.server.heap.get? p = none)) ∧
    (∀ p how newer older, l.server.trace = newer ++ .finalized p how :: older →
      how.unsent = false ∨ how.overflowed = true ∨
        (∃ w, how.waited = some w ∧ l.server.pendingCloseTimeout ≤ w) ∨ .hangup p ∈ older) ∧
    (∀ fd p t₁ t₂ t₃, l.server.clients.get? fd = some p →
      (l.server.deref p).pendingClose = true →
      l.server.pendingCloseTimeout ≤ t₂ - (l.server.deref p).pendingCloseSince →
      (l.server.afterEvents t₁ t₂ t₃).heap.get? p = none) := by
  have hi := h.server.1.inv
  have hord := hi.chronicle.ordered
  refine ⟨fun p => ⟨?_, hi.chronicle.teardown p⟩, fun fd p hp hpc => ⟨?_, hi.withdrawn hp hpc⟩,
    fun p newer older htrace e he => ?_, fun p => ⟨?_, ?_⟩, fun p how newer older htrace => ?_,
    fun fd p t₁ t₂ t₃ hp hpc hlate => hi.gone_afterEvents hp hpc hlate⟩
  · refine hord.count_le_one (f := (· == .teardown p)) fun e old he hin e' he' => ?_
    obtain rfl := beq_iff_eq.mp he
    exact beq_eq_false_iff_ne.mpr fun hcon => hin (hcon ▸ he')
  · exact hi.announced p _ (hi.table.get? hp) hpc
  · obtain ⟨front, back, rfl⟩ := List.append_of_mem he
    have hin := hord.inOrder (htrace.trans (List.append_assoc front (e :: back) _))
    have hclosing : Event.closing p ∈ back ++ .closing p :: older := by simp
    exact ⟨fun wire hcon => (hcon ▸ hin) hclosing, fun raw hcon => (hcon ▸ hin) hclosing⟩
  · refine hord.count_le_one fun e old he hin e' he' => ?_
    obtain ⟨how, rfl⟩ := Event.isFinal_iff.mp he
    exact Bool.not_eq_true _ ▸ fun hcon => hin.1 e' he' (Event.isFinal_iff.mp hcon)
  · exact Iff.trans ⟨fun ⟨e, he, hfin⟩ => ⟨e, he, Event.isFinal_iff.mp hfin⟩,
      fun ⟨e, he, hfin⟩ => ⟨e, he, Event.isFinal_iff.mpr hfin⟩⟩ (hi.chronicle.final p)
  · exact (hord.inOrder htrace).2.2

/-- The loop after a client came, on descriptor 4, and closed its side of the
connection. -/
@[reducible] def closedByPeer : letI := referenceLibcpp; Loop :=
  letI := referenceLibcpp
  let s := (started (str "secret") 30 0 []).acceptClient 4 (inetNtoa 127 0 0 1)
  let t := s.afterEvents 1 1 1
  { server := t.handleEvent (.mute {}) { fd := 4, input := some .eof }
    asked := t.epollMask
    seen := insert 4 ∅ }

omit [Libcpp] in
theorem reachable_closedByPeer : letI := referenceLibcpp
    Reachable (.mute {}) closedByPeer :=
  letI := referenceLibcpp
  .step (.step (.step (.start (str "secret") 30 0 []) (.accept _ 4 127 0 0 1 rfl))
    (.pass _ 1 1 1)) (.event _ { fd := 4, input := some .eof } (by simp)
      ⟨fun _ => ⟨⟨true, false⟩, by decide +kernel, rfl⟩, fun h => absurd h (by simp)⟩)

omit [Libcpp] in
/-- The client that closed its side was torn down once. -/
theorem sessions_closedByPeer : letI := referenceLibcpp
    closedByPeer.server.trace.count (.teardown 0) ≤ 1 ∧
      .teardown 0 ∈ closedByPeer.server.trace :=
  letI := referenceLibcpp
  have h := (Reachable.sessions reachable_closedByPeer).1 0
  have hgone : closedByPeer.server.heap.get? 0 = none :=
    Option.isNone_iff_eq_none.mp (by decide +kernel)
  ⟨h.1, h.2.mpr ⟨by decide +kernel, fun c hc => absurd (hgone.symm.trans hc) (by simp)⟩⟩

end Loop

end FtIrc
