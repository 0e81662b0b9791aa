import FtIrc.Server.ComplianceRegistration

/-!
# What can happen to the server

The steps a server takes, at the grain of single lines: a connection is accepted,
octets are received, a line is handled, octets are sent, a session ends, time goes
by, the sweeps run. `FtIrc.Server.Reachable` is what any sequence of them leads to,
in any order and with any clients, and **every invariant of
`FtIrc.Server.Inv` holds of every reachable state**
(`FtIrc.Server.Reachable.inv`).

Every step is a sequence of the safe operations of `FtIrc.serverMachine`; what is
kept track of besides is whose session an operation may end
(`FtIrc.Op.Within`).
-/

namespace FtIrc

open Abnf

variable [Libcpp]

/-- No client arrives, and none ends but those that satisfy a predicate. -/
def Op.Within (W : ClientId → Prop) : Op → Prop
  | defer q | expel q _ | finalize q _ => W q
  | accept _ _ => False
  | _ => True

theorem Op.Permitted.within {s₀ : Server} {p : ClientId} {m : Manner} {op : Op}
    (h : op.Permitted s₀ p m) : op.Within (· = p) := by
  cases op <;> simp_all [Op.Permitted, Op.Within]

/-- The same of what is not about any line that gives rights: nobody enters a channel,
is invited to one or made an operator, and no channel is set. -/
def Op.Sweep (W : ClientId → Prop) : Op → Prop
  | create _ _ | join _ _ _ | invite _ _ | setting _ _ | operator _ _ _ => False
  | op => op.Within W

theorem Op.Sweep.within {W : ClientId → Prop} {op : Op} (h : op.Sweep W) : op.Within W := by
  cases op <;> first | exact h | exact h.elim

theorem Op.Sweep.any {W : ClientId → Prop} {op : Op} (h : op.Sweep W) :
    op.Sweep fun _ => True := by
  cases op <;> simp_all [Op.Sweep, Op.Within]

/-- What concerns sockets, times and interests only, and the pings. -/
def Op.Idle : Op → Prop
  | send _ msg => msg = str ":" ++ SERVER_NAME ++ str " " ++ (str "PING :" ++ SERVER_NAME)
  | heed _ _ _ | socket _ _ | transmit _ _ | hangup _ | clock _ | pingCheck _ | interests _ => True
  | _ => False

theorem Op.Idle.sweep {W : ClientId → Prop} {op : Op} (h : op.Idle) : op.Sweep W := by
  cases op <;> first | exact h.elim | trivial

theorem Op.Idle.within {op : Op} (h : op.Idle) : op.Within fun _ => True :=
  (Op.Idle.sweep h).within

/-- What closes the descriptor of a client whose close was pending. -/
def Op.Closing : Op → Prop
  | finalize _ _ | interests _ => True
  | _ => False

theorem Op.Closing.sweep {op : Op} (h : op.Closing) : op.Sweep fun _ => True := by
  cases op <;> first | exact h.elim | trivial

/-- Only the lines of three kinds give rights. -/
theorem Op.Permitted.sweep {s₀ : Server} {p : ClientId} {m : Manner} {op : Op}
    (h : op.Permitted s₀ p m) (hm : m = .acting ∨ m = .filing ∨ m = .leaving) :
    op.Sweep (· = p) := by
  rcases hm with rfl | rfl | rfl <;> cases op <;> simp_all [Op.Permitted, Op.Within, Op.Sweep]

namespace Server

variable {M : Matcher} {s t : Server} {p q : ClientId} {fd : Fd} {W : ClientId → Prop}
  {reason : Str}

/-! ### The steps -/

/-- **What happens on the connection of one client.** -/
inductive Acts (M : Matcher) (p : ClientId) : Server → Server → Prop
  /-- Octets are received, and the complete lines taken out of the buffer. -/
  | receive (s : Server) (data : Str) : Acts M p s (s.receive p data).2
  /-- A line is handled. -/
  | line (s : Server) (raw : Str) : s.Live p → OneLine raw → Acts M p s (s.handleMessage M p raw)
  /-- There is room for output. -/
  | output (s : Server) (fd : Fd) (sent : Option ℕ) : s.clients.get? fd = some p →
      Acts M p s (s.handleClientOutput fd sent)
  /-- The session is ended: the end of input, or a ping that was not answered. -/
  | disconnect (s : Server) (fd : Fd) (reason : Str) : s.clients.get? fd = some p →
      OneLine reason → Acts M p s (s.disconnectClient fd reason)
  /-- The session is ended at once, for a send queue that overflowed. -/
  | disconnectNow (s : Server) (fd : Fd) (reason : Str) : s.clients.get? fd = some p →
      OneLine reason → Libcpp.overflowed (s.deref p).io = true →
      Acts M p s (s.disconnectClientNow fd reason)
  /-- An error or a hang-up is reported. -/
  | hangup (s : Server) (fd : Fd) : s.clients.get? fd = some p → Acts M p s (s.handleHangup fd)

/-- **What happens to the server.** -/
inductive Step (M : Matcher) : Server → Server → Prop
  | client {s t : Server} (p : ClientId) : Acts M p s t → Step M s t
  | accept (s : Server) (fd : Fd) (a b c d : Octet) : s.clients.get? fd = none →
      Step M s (s.acceptClient fd (inetNtoa a b c d))
  | clock (s : Server) (now : Time) : Step M s { s with clock := now }
  | checkTimeouts (s : Server) : Step M s s.checkTimeouts
  | checkPendingCloseTimeouts (s : Server) : Step M s s.checkPendingCloseTimeouts
  | tick (s : Server) : Step M s s.tick
  | updateInterests (s : Server) : Step M s s.updateInterests

/-- A server that was just started. -/
def started (password : Str) (pendingCloseTimeout now : Time) (reentrant : List Str) : Server :=
  { password := password, pendingCloseTimeout := pendingCloseTimeout, clock := now,
    lastPingCheck := now, reentrant := reentrant }

/-- **The reachable states**: of a server with any password and any deadline, with
any lines from any clients. -/
inductive Reachable (M : Matcher) : Server → Prop
  | start (password : Str) (pendingCloseTimeout now : Time) (reentrant : List Str) :
      Reachable M (started password pendingCloseTimeout now reentrant)
  | step {s t : Server} : Reachable M s → Step M s t → Reachable M t

/-! ### What stays in the table -/

/-- While nobody arrives, whoever is in the table was there before. -/
theorem clients_of_run {op : Op} (hop : op.Within W)
    (h : (op.run s).clients.get? fd = some q) : s.clients.get? fd = some q := by
  have hfinal : ∀ {u : Server} {fd'}, (u.finalizeDisconnect fd').clients.get? fd = some q →
      u.clients.get? fd = some q := fun {u fd'} hu => by
    rw [finalizeDisconnect] at hu
    split at hu
    · exact hu
    · have hu' : (u.clients.erase fd').get? fd = some q := hu
      rw [OrdMap.get?_erase] at hu'
      split_ifs at hu'
      exact hu'
  cases op with
  | accept fd' hostname => exact hop.elim
  | expel p fd' => exact hfinal (u := s.markTornDown p) h
  | finalize p fd' => exact hfinal h
  | leave fd' ch =>
    rw [Op.run, dropMember] at h
    split_ifs at h <;> exact h
  | _ => exact h

/-- Whoever is not evicted stays in the table, and stays as settled as before. -/
theorem kept_run {op : Op} (hi : s.Inv) (ho : op.Allowed s) (hop : op.Within W) (hq : ¬W q)
    (h : s.clients.get? fd = some q) :
    (op.run s).clients.get? fd = some q ∧
      ((op.run s).deref q).pendingClose = (s.deref q).pendingClose := by
  have hev : op.evicts s ≠ some fd := by
    intro hcon
    cases op <;> simp only [Op.evicts, Option.some.injEq, reduceCtorEq] at hcon <;> subst hcon
    case defer p => exact hq (Option.some.inj (ho.1.1.symm.trans h) ▸ hop)
    case expel p fd' => exact hq (Option.some.inj ((ho.2.1 ▸ ho.1.1).symm.trans h) ▸ hop)
    case finalize p fd' => exact hq (Option.some.inj (ho.1.symm.trans h) ▸ hop)
  have hkept := clients_run ho h hev
  refine ⟨hkept, ?_⟩
  rw [(hi.run ho).settled q _ ((hi.run ho).table.get? hkept), hi.settled q _ (hi.table.get? h)]
  exact (deref_run hi.table ho h hev).2.1

section Runs

variable (hrun : serverMachine.Runs (Op.Within W) s t)

include hrun

theorem clients_of_runs (h : t.clients.get? fd = some q) : s.clients.get? fd = some q := by
  induction hrun with
  | refl => exact h
  | tail _ hop _ ih => exact ih (clients_of_run hop h)

theorem kept_runs (hi : s.Inv) (hq : ¬W q) (h : s.clients.get? fd = some q) :
    t.clients.get? fd = some q ∧ (t.deref q).pendingClose = (s.deref q).pendingClose := by
  refine (hrun.invariant (I := fun u => u.Inv ∧ u.clients.get? fd = some q ∧
    (u.deref q).pendingClose = (s.deref q).pendingClose) (fun op u hop ho hu => ?_)
    ⟨hi, h, rfl⟩).2
  obtain ⟨hkept, hpc⟩ := kept_run hu.1 ho hop hq hu.2.1
  exact ⟨hu.1.run ho, hkept, hpc.trans hu.2.2⟩

/-- A client whose send queue overflowed is gone, or its queue is still so. -/
theorem overflowed_runs (hi : s.Inv)
    (h : ∀ q, s.clients.get? fd = some q → Libcpp.overflowed (s.deref q).io = true)
    (hq : t.clients.get? fd = some q) : Libcpp.overflowed (t.deref q).io = true := by
  refine (hrun.invariant (I := fun u => u.Inv ∧ ∀ q, u.clients.get? fd = some q →
    Libcpp.overflowed (u.deref q).io = true) (fun op u hop ho hu => ⟨hu.1.run ho, fun q hq => ?_⟩)
    ⟨hi, h⟩).2 q hq
  exact overflowed_run hu.1.table ho ((hu.1.run ho).table.get? hq)
    (hu.2 q (clients_of_run hop hq))

end Runs

/-! ### The connection of one client -/

/-- The lines taken out of the buffer of a client are one line each. -/
theorem oneLine_drainLines {k : ℕ} {io : Libcpp.Socket} {raw : Str}
    (h : raw ∈ (Client.drainLines k io).1) : OneLine raw := by
  induction k generalizing io with
  | zero => exact absurd h (by simp [Client.drainLines])
  | succ k ih =>
    rw [Client.drainLines] at h
    rcases hline : Libcpp.nextLine io with _ | ⟨line, io'⟩
    · rw [hline] at h
      exact absurd h (by simp)
    rw [hline] at h
    rcases List.mem_append.mp h with hpiece | hrest
    · have hsplit := (List.mem_filter.mp hpiece).1
      intro c hc
      have hmem : c ∈ Client.stripNul line := subset_of_mem_splitOnP hsplit hc
      rw [Client.stripNul, List.mem_filter] at hmem
      refine ⟨of_decide_eq_true hmem.2, ?_, ?_⟩
      · rintro rfl
        exact Libcpp.noLF_of_nextLine hline hmem.1
      · rintro rfl
        exact absurd (not_of_mem_splitOnP hsplit hc) (by decide)
    · exact ih hrest

/-- Taking lines out of the buffer leaves the output half alone. -/
theorem drainLines_output (k : ℕ) (io : Libcpp.Socket) :
    Libcpp.outData (Client.drainLines k io).2 = Libcpp.outData io ∧
      Libcpp.overflowed (Client.drainLines k io).2 = Libcpp.overflowed io := by
  induction k generalizing io with
  | zero => exact ⟨rfl, rfl⟩
  | succ k ih =>
    rw [Client.drainLines]
    rcases hline : Libcpp.nextLine io with _ | ⟨line, io'⟩
    · exact ⟨rfl, rfl⟩
    · obtain ⟨hout, hov⟩ := ih io'
      exact ⟨hout.trans (Libcpp.outData_of_nextLine hline),
        hov.trans (Libcpp.overflowed_of_nextLine hline)⟩

/-- What a sweep may do is within what may happen. -/
theorem within_of_sweep (h : serverMachine.Runs (Op.Sweep W) s t) :
    serverMachine.Runs (Op.Within W) s t := h.mono fun _ => Op.Sweep.within

/-- Octets are received: two writes to the socket, and the client was heard of. -/
theorem idle_receive (data : Str) :
    serverMachine.Runs Op.Idle s (s.receive p data).2 := by
  have hfeed : serverMachine.Runs Op.Idle s
      (s.update p fun c => { c with io := Libcpp.feed c.io data }) := by
    rw [update_congr (g := fun c => { c with io := Libcpp.feed (s.deref p).io data }) fun c hc => by
      rw [deref_of_get? hc]]
    exact .single (M := serverMachine) (o := .socket p (Libcpp.feed (s.deref p).io data)) trivial
      ⟨Libcpp.outData_feed _ _, Libcpp.overflowed_feed _ _⟩
  have hheed : serverMachine.Runs Op.Idle s
      ((s.update p fun c => { c with io := Libcpp.feed c.io data }).update p
        fun c => { c with lastActivity := s.clock, pingSent := false }) :=
    hfeed.trans (.single (M := serverMachine) (o := .heed p s.clock false) trivial trivial)
  rw [update_update] at hheed
  rw [receive]
  exact hheed.trans (.single (M := serverMachine)
    (o := .socket p (Client.extractMessages _).2) trivial (drainLines_output _ _))

theorem runs_receive (data : Str) :
    serverMachine.Runs (Op.Sweep W) s (s.receive p data).2 :=
  (idle_receive data).mono fun _ => Op.Idle.sweep

/-- The loop over the lines goes on while the client is there and not about to
close. -/
theorem handleLines_cons {raw : Str} {rest : List Str}
    (hq : (s.handleMessage M p raw).clients.get? fd = some q)
    (hpc : ((s.handleMessage M p raw).deref q).pendingClose = false) :
    handleLines M fd p s (raw :: rest) = handleLines M fd p (s.handleMessage M p raw) rest := by
  simp [handleLines, hq, hpc]

section Acts

variable (hi : s.Inv)

include hi

theorem runs_handleMessage (hp : s.Live p) {raw : Str} (hraw : OneLine raw) :
    serverMachine.Runs (Op.Within (· = p)) s (s.handleMessage M p raw) := by
  obtain ⟨m, hm⟩ := complies_handleMessage M hi hp hraw
  exact hm.mono fun _ => Op.Permitted.within

/-- A client that is still there after its line was handled, and is not about to
close, is in place for its next line. -/
theorem live_handleMessage (hp : s.Live p) {raw : Str} (hraw : OneLine raw)
    (hq : (s.handleMessage M p raw).clients.get? (s.deref p).fd = some q)
    (hpc : ((s.handleMessage M p raw).deref q).pendingClose = false) :
    q = p ∧ (s.handleMessage M p raw).Live p ∧
      ((s.handleMessage M p raw).deref p).fd = (s.deref p).fd := by
  have hrun := runs_handleMessage (M := M) hi hp hraw
  have hi' := hi.runs hrun
  obtain rfl : p = q := Option.some.inj (hp.1.symm.trans (clients_of_runs hrun hq))
  exact ⟨rfl, ⟨hi'.table.clients_fd hq, (hi'.settled p _ (hi'.table.get? hq)).symm.trans hpc⟩,
    hi'.table.fd_eq hq⟩

theorem runs_disconnectClient (hp : s.clients.get? fd = some p) (hreason : OneLine reason) :
    serverMachine.Runs (Op.Sweep (· = p)) s (s.disconnectClient fd reason) :=
  (complies_disconnectClient hi hreason hp).mono fun _ hop =>
    hop.sweep (Or.inr (Or.inr rfl))

theorem runs_now (hp : s.clients.get? fd = some p) (hreason : OneLine reason)
    (hdue : Libcpp.overflowed (s.deref p).io = true ∨ Event.hangup p ∈ s.trace) :
    serverMachine.Runs (Op.Sweep (· = p)) s (s.disconnectClientNow fd reason) := by
  refine (runs_disconnectClientNow hi hreason hp hdue).mono fun op hop => ?_
  rcases hop with hop | rfl
  · exact hop.sweep (Or.inr (Or.inr rfl))
  · exact rfl

theorem runs_handleClientOutput (hp : s.clients.get? fd = some p) (sent : Option ℕ) :
    serverMachine.Runs (Op.Sweep (· = p)) s (s.handleClientOutput fd sent) := by
  simp only [handleClientOutput, hp]
  split_ifs with hpend
  · exact .refl s
  rcases sent with _ | n
  · exact .refl s
  have htransmit : serverMachine.Runs (Op.Sweep (· = p)) s ((Op.transmit p n).run s) :=
    .single (M := serverMachine) (o := .transmit p n) trivial (hi.table.clients_fd hp)
  have hi' := hi.runs htransmit
  dsimp only
  refine htransmit.trans ?_
  change serverMachine.Runs (Op.Sweep (· = p)) ((Op.transmit p n).run s)
    (if (((Op.transmit p n).run s).deref p).pendingClose then _ else _)
  split_ifs with hpc hdone hov
  · refine .single (M := serverMachine) (o := .finalize p fd) rfl ⟨hp, hpc, ?_⟩
    simp only [Bool.or_eq_true, Bool.not_eq_true'] at hdone
    exact hdone.imp id Or.inl
  · exact .refl _
  · exact runs_now hi' hp (by decide) (Or.inl hov)
  · exact .refl _

theorem runs_handleHangup (hp : s.clients.get? fd = some p) :
    serverMachine.Runs (Op.Sweep (· = p)) s (s.handleHangup fd) := by
  simp only [handleHangup, hp]
  have hrecord : serverMachine.Runs (Op.Sweep (· = p)) s ((Op.hangup p).run s) :=
    .single (M := serverMachine) (o := .hangup p) trivial (hi.table.clients_fd hp)
  exact hrecord.trans (runs_now (hi.runs hrecord) hp (by decide) (Or.inr List.mem_cons_self))

/-- **What happens on the connection of a client** is safe, and ends no session but
that one. -/
theorem Acts.runs (h : Acts M p s t) : serverMachine.Runs (Op.Within (· = p)) s t := by
  cases h with
  | receive data => exact within_of_sweep (runs_receive data)
  | line raw hp hraw => exact runs_handleMessage hi hp hraw
  | output fd sent hp => exact within_of_sweep (runs_handleClientOutput hi hp sent)
  | disconnect fd reason hp hreason => exact within_of_sweep (runs_disconnectClient hi hp hreason)
  | disconnectNow fd reason hp hreason hov =>
    exact within_of_sweep (runs_now hi hp hreason (Or.inl hov))
  | hangup fd hp => exact within_of_sweep (runs_handleHangup hi hp)

end Acts

/-! ### The sweeps -/

/-- **A loop** of safe steps is one. -/
theorem runs_foldl {α : Type} {P : Op → Prop} {f : Server → α → Server} (J : Server → Prop)
    (l : List α) (hf : ∀ u, J u → ∀ a ∈ l, serverMachine.Runs P u (f u a) ∧ J (f u a)) (hs : J s) :
    serverMachine.Runs P s (l.foldl f s) ∧ J (l.foldl f s) :=
  Guarded.Runs.foldl (M := serverMachine) (g := id) l hf hs

section Sweeps

variable (hi : s.Inv)

include hi

/-- Every transfer that has been idle for too long is aborted. -/
theorem runs_tick : serverMachine.Runs (Op.Sweep W) s s.tick := by
  refine (runs_foldl Inv s.files.transfers.keys (fun u hu id _ => ?_) hi).1
  have hone : serverMachine.Runs (Op.Sweep W) u
      (u.abortOne (fun t => decide (s.clock - t.lastActivity > IDLE_TIMEOUT)) (str "timeout") id) := by
    rw [abortOne]
    rcases htr : u.files.transfers.get? id with _ | tr
    · exact .refl u
    dsimp only
    split_ifs
    · obtain ⟨⟨p, hp⟩, -⟩ := hu.authority.transfer id tr htr
      refine ((Turn.start hu (hp.live hu.table)).abortTransfer hp.2.1 (by decide)).mono fun op hop => ?_
      cases op <;> simp_all [Op.Permitted, Op.Sweep, Op.Within]
    · exact .refl u
  exact ⟨hone, hu.runs hone⟩

omit hi in
/-- Closing a descriptor, if the close of its client has been pending for too long. -/
theorem closing_finalizeDisconnect (hlate : ∀ q, s.clients.get? fd = some q →
      (s.deref q).pendingClose = true ∧
        s.pendingCloseTimeout ≤ s.clock - (s.deref q).pendingCloseSince) :
    serverMachine.Runs Op.Closing s (s.finalizeDisconnect fd) := by
  rcases hp : s.clients.get? fd with _ | p
  · rw [finalizeDisconnect, hp]
    exact .single (M := serverMachine) (o := .interests (s.epollMask.erase fd)) trivial trivial
  · exact .single (M := serverMachine) (o := .finalize p fd) trivial
      ⟨hp, (hlate p hp).1, Or.inr (Or.inr (Or.inl (hlate p hp)))⟩

omit hi in
/-- The others are as they were. -/
theorem get?_finalizeDisconnect {c : Client}
    (h : (s.finalizeDisconnect fd).heap.get? q = some c) : s.heap.get? q = some c := by
  rw [finalizeDisconnect] at h
  split at h
  · exact h
  · rename_i p _
    have h' : (s.heap.erase p).get? q = some c := h
    rw [OrdMap.get?_erase] at h'
    split_ifs at h'
    exact h'

omit hi in
theorem clock_finalizeDisconnect : (s.finalizeDisconnect fd).clock = s.clock ∧
    (s.finalizeDisconnect fd).pendingCloseTimeout = s.pendingCloseTimeout := by
  rw [finalizeDisconnect]
  split <;> exact ⟨rfl, rfl⟩

/-- Every close that has been pending for too long is completed. -/
theorem closing_checkPendingCloseTimeouts :
    serverMachine.Runs Op.Closing s s.checkPendingCloseTimeouts := by
  have hlate : ∀ fd ∈ (s.clients.entries.filter fun e => (s.deref e.2).pendingClose &&
        decide (s.clock - (s.deref e.2).pendingCloseSince ≥ s.pendingCloseTimeout)).map Prod.fst,
      ∀ q, s.clients.get? fd = some q → (s.deref q).pendingClose = true ∧
        s.pendingCloseTimeout ≤ s.clock - (s.deref q).pendingCloseSince := by
    intro fd hfd q hq
    obtain ⟨⟨fd, p⟩, he, rfl⟩ := List.mem_map.mp hfd
    obtain ⟨hmem, htest⟩ := List.mem_filter.mp he
    obtain rfl := Option.some.inj ((OrdMap.mem_entries.mp hmem).symm.trans hq)
    simpa using htest
  rw [checkPendingCloseTimeouts]
  generalize (s.clients.entries.filter fun e => (s.deref e.2).pendingClose &&
    decide (s.clock - (s.deref e.2).pendingCloseSince ≥ s.pendingCloseTimeout)).map Prod.fst =
    expired at hlate ⊢
  refine (runs_foldl (fun u => u.Inv ∧ ∀ fd ∈ expired, ∀ q, u.clients.get? fd = some q →
    (u.deref q).pendingClose = true ∧
      u.pendingCloseTimeout ≤ u.clock - (u.deref q).pendingCloseSince) expired
    (fun u hu fd hfd => ?_) ⟨hi, hlate⟩).1
  have hone := closing_finalizeDisconnect (hu.2 fd hfd)
  refine ⟨hone, hu.1.runs hone, fun fd' hfd' q hq => ?_⟩
  have hget := get?_finalizeDisconnect ((hu.1.runs hone).table.get? hq)
  rw [clock_finalizeDisconnect.1, clock_finalizeDisconnect.2, ← deref_of_get? hget]
  exact hu.2 fd' hfd' q (clients_of_runs (hone.mono fun _ hop => hop.sweep.within) hq)

theorem runs_checkPendingCloseTimeouts :
    serverMachine.Runs (Op.Sweep fun _ => True) s s.checkPendingCloseTimeouts :=
  (closing_checkPendingCloseTimeouts hi).mono fun _ => Op.Closing.sweep

/-- What the ping sweep does on its way through the clients: it sends pings, and what
it collects for a full send queue has one. -/
theorem idle_checkTimeoutsOne (now : Time) :
    let acc := s.clients.entries.foldl (checkTimeoutsOne now) (s, [], [])
    serverMachine.Runs Op.Idle s acc.1 ∧
      ∀ fd ∈ acc.2.1, ∀ q, acc.1.clients.get? fd = some q →
        Libcpp.overflowed (acc.1.deref q).io = true := by
  have hfold := Guarded.Runs.foldl (M := serverMachine) (P := Op.Idle) (g := Prod.fst)
    (J := fun acc : Server × List Fd × List Fd => acc.1.Inv ∧ acc.1.clients = s.clients ∧
      ∀ fd ∈ acc.2.1, ∀ q, acc.1.clients.get? fd = some q →
        Libcpp.overflowed (acc.1.deref q).io = true)
    (f := checkTimeoutsOne now) s.clients.entries (fun acc hacc e he => ?_) (b := (s, [], []))
    ⟨hi, rfl, by simp⟩
  · exact ⟨hfold.1, hfold.2.2.2⟩
  obtain ⟨u, sendQNow, pingTimeout⟩ := acc
  obtain ⟨hu, hclients, hov⟩ := hacc
  have he' : u.clients.get? e.1 = some e.2 := hclients ▸ OrdMap.mem_entries.mp he
  rw [checkTimeoutsOne]
  dsimp only
  split_ifs with hpc hfull hlate hidle
  · exact ⟨.refl u, hu, hclients, hov⟩
  · refine ⟨.refl u, hu, hclients, fun fd hfd q hq => ?_⟩
    rcases List.mem_append.mp hfd with hfd | hfd
    · exact hov fd hfd q hq
    · rw [List.mem_singleton] at hfd
      obtain rfl := Option.some.inj (he'.symm.trans (hfd ▸ hq))
      exact hfull
  · exact ⟨.refl u, hu, hclients, hov⟩
  · have hlive : u.Live e.2 :=
      ⟨hu.table.clients_fd he', (hu.settled e.2 _ (hu.table.get? he')).symm.trans
        (Bool.not_eq_true _ ▸ hpc)⟩
    have hping : serverMachine.Runs Op.Idle u
        ((u.sendToClient e.2 (str "PING :" ++ SERVER_NAME)).update e.2 fun c =>
          { c with pingSent := true }) := by
      have hsend : serverMachine.Runs Op.Idle u
          (u.sendToClient e.2 (str "PING :" ++ SERVER_NAME)) :=
        .single (M := serverMachine) (o := .send e.2 _) rfl ⟨hlive, by decide⟩
      generalize u.sendToClient e.2 (str "PING :" ++ SERVER_NAME) = v at hsend ⊢
      rw [update_congr (g := fun c =>
        { c with lastActivity := (v.deref e.2).lastActivity, pingSent := true }) fun c hc => by
          rw [deref_of_get? hc]]
      exact hsend.trans (.single (M := serverMachine) (o := .heed e.2 _ true) trivial trivial)
    exact ⟨hping, hu.runs hping, hclients, fun fd hfd q hq =>
      overflowed_runs (hping.mono fun _ => Op.Idle.within) hu (fun q' hq' => hov fd hfd q' hq') hq⟩
  · exact ⟨.refl u, hu, hclients, hov⟩

/-- **What it collected is closed**, for a full send queue at once, for a missing answer in
due order; whatever relation both ways of closing keep, the two loops keep. -/
theorem closeAll_relates {R : Server → Server → Prop} (hrefl : ∀ u, R u u)
    (htrans : ∀ u v w, R u v → R v w → R u w)
    (hnow : ∀ {u : Server} {fd p}, u.Inv → u.clients.get? fd = some p →
      Libcpp.overflowed (u.deref p).io = true →
        R u (u.disconnectClientNow fd (str "SendQ exceeded")))
    (hlater : ∀ {u : Server} {fd p}, u.Inv → u.clients.get? fd = some p →
      R u (u.disconnectClient fd (str "Ping timeout")))
    {sendQNow : List Fd} (hov : ∀ fd ∈ sendQNow, ∀ q,
      s.clients.get? fd = some q → Libcpp.overflowed (s.deref q).io = true)
    (pingTimeout : List Fd) :
    R s (pingTimeout.foldl (fun s fd => s.disconnectClient fd (str "Ping timeout"))
      (sendQNow.foldl (fun s fd => s.disconnectClientNow fd (str "SendQ exceeded")) s)) := by
  have hfirst := List.foldlRecOn sendQNow
    (fun s fd => s.disconnectClientNow fd (str "SendQ exceeded")) (b := s)
    (motive := fun v => R s v ∧ v.Inv ∧ ∀ fd ∈ sendQNow, ∀ q, v.clients.get? fd = some q →
      Libcpp.overflowed (v.deref q).io = true) ⟨hrefl s, hi, hov⟩ fun v hv fd hfd => ?_
  · refine (List.foldlRecOn pingTimeout _ (motive := fun v => R s v ∧ v.Inv)
      ⟨hfirst.1, hfirst.2.1⟩ fun v hv fd _ => ?_).1
    rcases hp : v.clients.get? fd with _ | p
    · rw [disconnectClient, nesting, disconnectNested, hp]
      exact hv
    · have hping : OneLine (str "Ping timeout") := by decide
      exact ⟨htrans _ _ _ hv.1 (hlater hv.2 hp), hv.2.runs (runs_disconnectClient hv.2 hp hping)⟩
  · rcases hp : v.clients.get? fd with _ | p
    · rw [disconnectClientNow, hp]
      exact hv
    · have hfull : OneLine (str "SendQ exceeded") := by decide
      have hone := runs_now hv.2.1 hp hfull (Or.inl (hv.2.2 fd hfd p hp))
      refine ⟨htrans _ _ _ hv.1 (hnow hv.2.1 hp (hv.2.2 fd hfd p hp)), hv.2.1.runs hone,
        fun fd' hfd' q hq => ?_⟩
      exact overflowed_runs (within_of_sweep hone) hv.2.1 (fun q' hq' => hv.2.2 fd' hfd' q' hq') hq

theorem runs_checkTimeouts :
    serverMachine.Runs (Op.Sweep fun _ => True) s s.checkTimeouts := by
  rw [checkTimeouts]
  dsimp only
  split_ifs
  · exact .refl s
  have hcheck : serverMachine.Runs (Op.Sweep fun _ => True) s ((Op.pingCheck s.clock).run s) :=
    .single (M := serverMachine) (o := .pingCheck s.clock) trivial trivial
  obtain ⟨hpings, hov⟩ := idle_checkTimeoutsOne (hi.runs hcheck) s.clock
  exact hcheck.trans ((hpings.mono fun _ => Op.Idle.sweep).trans
    (closeAll_relates ((hi.runs hcheck).runs hpings) .refl (fun _ _ _ => .trans)
      (fun hu hp hov => (runs_now hu hp (by decide) (Or.inl hov)).mono fun _ => Op.Sweep.any)
      (fun hu hp => (runs_disconnectClient hu hp (by decide)).mono fun _ => Op.Sweep.any) hov _))

omit hi in
theorem idle_updateInterests : serverMachine.Runs Op.Idle s s.updateInterests :=
  (runs_foldl (fun _ => True) s.clients.values (fun _ _ _ _ =>
    ⟨.single (M := serverMachine) (o := .interests _) trivial trivial, trivial⟩) trivial).1

omit hi in
theorem runs_updateInterests : serverMachine.Runs (Op.Sweep W) s s.updateInterests :=
  idle_updateInterests.mono fun _ => Op.Idle.sweep

end Sweeps

/-! ### Every reachable state -/

/-- The invariants hold of a server that was just started. -/
theorem Inv.started (password : Str) (pendingCloseTimeout now : Time) (reentrant : List Str) :
    (started password pendingCloseTimeout now reentrant).Inv := by
  set s := Server.started password pendingCloseTimeout now reentrant
  have hheap : ∀ p c, s.heap.get? p ≠ some c := fun p c => by simp [s, Server.started]
  have hclients : ∀ fd p, s.clients.get? fd ≠ some p := fun fd p => by simp [s, Server.started]
  have hchannels : ∀ ch chan, s.channels.get? ch ≠ some chan := fun ch chan => by
    simp [s, Server.started]
  have hfiles : ∀ id tr, s.files.transfers.get? id ≠ some tr := fun id tr => by
    simp [s, Server.started]
  have htrace : ∀ e, e ∉ s.trace := fun e => List.not_mem_nil
  have hnext : ∀ p, ¬p < s.nextClient := Nat.not_lt_zero
  exact {
    table := ⟨fun fd p h => absurd h (hclients fd p), fun p c h => absurd h (hheap p c),
      fun p c h => absurd h (hheap p c)⟩
    authority := ⟨fun ch chan h => absurd h (hchannels ch chan),
      fun id tr h => absurd h (hfiles id tr)⟩
    gate := fun p c h => absurd h (hheap p c)
    nicks := ⟨fun p c h => absurd h (hheap p c), fun p q c d h => absurd h (hheap p c)⟩
    texts := ⟨fun p c h => absurd h (hheap p c), fun ch chan h => absurd h (hchannels ch chan),
      fun id tr h => absurd h (hfiles id tr), fun p w h => absurd h (htrace _)⟩
    names := fun p c h => absurd h (hheap p c)
    channelTable := fun ch chan h => absurd h (hchannels ch chan)
    transferTable := ⟨fun id tr h => absurd h (hfiles id tr), le_refl _,
      fun id tr h => absurd h (hfiles id tr), fun id id' tr tr' h => absurd h (hfiles id tr)⟩
    settled := fun p c h => absurd h (hheap p c)
    announced := fun p c h => absurd h (hheap p c)
    chronicle := ⟨trivial, fun p => iff_of_false (htrace _) fun h => hnext p h.1,
      fun p h => absurd h (htrace _),
      fun p => iff_of_false (fun ⟨e, he, _⟩ => htrace e he) fun h => hnext p h.1⟩ }

omit [Libcpp] in
theorem oneLine_inetNtoa (a b c d : Octet) : OneLine (inetNtoa a b c d) := by
  rw [inetNtoa]
  simp (disch := decide)

omit [Libcpp] in
/-- The digits of an octet are three at most. -/
theorem length_decimal_le (c : Octet) : (decimal c.toNat).length ≤ 3 :=
  length_decimal_le_of_lt (c.toNat_lt.trans (by decide))

omit [Libcpp] in
/-- An address in dots is a short word. -/
theorem isHost_inetNtoa (a b c d : Octet) : IsHost (inetNtoa a b c d) := by
  have hdot : IsWord (str ".") := by decide
  refine ⟨by simp [inetNtoa, hdot], ?_⟩
  have := length_decimal_le a
  have := length_decimal_le b
  have := length_decimal_le c
  have := length_decimal_le d
  rw [inetNtoa]
  simp only [List.length_append, show (str ".").length = 1 from rfl]
  omega

omit [Libcpp] in
theorem inetNtoa_ne_nil (a b c d : Octet) : inetNtoa a b c d ≠ [] := by
  simp [inetNtoa, show str "." = [46] from rfl]

/-- **A step is a sequence of safe operations.** -/
theorem Step.runs (h : Step M s t) (hi : s.Inv) : serverMachine.Runs (fun _ => True) s t := by
  have hany : ∀ {u : Server} {P : Op → Prop}, serverMachine.Runs P s u →
      serverMachine.Runs (fun _ => True) s u := fun h => h.mono fun _ _ => trivial
  cases h with
  | client p hacts => exact hany (hacts.runs hi)
  | accept fd a b c d hfd =>
    exact .single (M := serverMachine) (o := .accept fd _) trivial
      ⟨hfd, oneLine_inetNtoa a b c d, isHost_inetNtoa a b c d, inetNtoa_ne_nil a b c d⟩
  | clock now => exact .single (M := serverMachine) (o := .clock now) trivial trivial
  | checkTimeouts => exact hany (runs_checkTimeouts hi)
  | checkPendingCloseTimeouts => exact hany (runs_checkPendingCloseTimeouts hi)
  | tick => exact hany (runs_tick (W := fun _ => True) hi)
  | updateInterests => exact hany (runs_updateInterests (W := fun _ => True))

theorem Step.inv (h : Step M s t) (hi : s.Inv) : t.Inv := hi.runs (h.runs hi)

/-- **The invariants hold of every reachable state.** -/
theorem Reachable.inv (h : Reachable M s) : s.Inv := by
  induction h with
  | start password pendingCloseTimeout now reentrant => exact .started ..
  | step _ hstep ih => exact hstep.inv ih

end Server

end FtIrc
