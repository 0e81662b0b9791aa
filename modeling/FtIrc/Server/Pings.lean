import FtIrc.LibcppReference
import FtIrc.Server.Announcements
import FtIrc.Server.Rehearsal
import FtIrc.Server.Sessions

/-!
# Pings, and the time to answer them

A client that was idle for too long is asked for a sign of life by the next check, and dropped
by a later one. The second check goes by how long the client was idle, not by when it was
asked: a check that comes late asks late, and the one that drops does not wait for it
(`FtIrc.Server.Timed.grace`).

What the server keeps of a client for this, when it was heard of and whether it was asked, is
written by three steps only: octets are received, a check asks, or a line of the client is
handled, which at most says that the client was heard of right then (`FtIrc.Server.Hears`).
From this the run behind a client that is dropped is found by going back in time
(`FtIrc.Server.Timeline`).
-/

namespace FtIrc

open Abnf Relation

variable [Libcpp]

/-- An operation that says of nobody that it was heard of at another time than now, and asks
nobody. -/
def Op.Mindful (now : Time) : Op → Prop
  | heed _ last ping => last = now ∧ ping = false
  | clock _ | accept _ _ | pingCheck _ => False
  | _ => True

/-- What a line may cause is mindful. -/
theorem Op.Permitted.mindful {s₀ : Server} {p : ClientId} {m : Manner} {op : Op}
    (h : op.Permitted s₀ p m) : op.Mindful s₀.clock := by
  cases op with
  | heed q last ping => exact h.2
  | clock | accept | pingCheck => exact h.elim
  | _ => trivial

theorem Op.Closing.mindful {now : Time} {op : Op} (h : op.Closing) : op.Mindful now := by
  cases op <;> first | exact h.elim | trivial

namespace Server

variable {M : Matcher} {s t u : Server} {p q : ClientId} {fd : Fd} {reason : Str} {now : Time}
  {c d : Client}

/-! ### What is kept of a client -/

/-- The same is kept of the client, or that it was heard of right now. -/
def HeardOf (now : Time) (d c : Client) : Prop :=
  (c.lastActivity = d.lastActivity ∧ c.pingSent = d.pingSent) ∨
    (c.lastActivity = now ∧ c.pingSent = false)

/-- **Nobody was asked**: whoever is there and not about to close was there, and is as it was or
was heard of right now. -/
structure Hears (s t : Server) : Prop where
  clock : t.clock = s.clock
  lastPingCheck : t.lastPingCheck = s.lastPingCheck
  spoken : s.spoken <:+ t.spoken
  client : ∀ q c, t.heap.get? q = some c → c.pendingClose = false →
    ∃ d, s.heap.get? q = some d ∧ d.pendingClose = false ∧ c.fd = d.fd ∧ HeardOf s.clock d c

namespace Hears

theorem refl (s : Server) : s.Hears s :=
  ⟨rfl, rfl, List.suffix_rfl, fun _ c hc hpc => ⟨c, hc, hpc, rfl, Or.inl ⟨rfl, rfl⟩⟩⟩

theorem trans (h : s.Hears t) (h' : t.Hears u) : s.Hears u where
  clock := h'.clock.trans h.clock
  lastPingCheck := h'.lastPingCheck.trans h.lastPingCheck
  spoken := h.spoken.trans h'.spoken
  client q c hc hpc := by
    obtain ⟨d, hd, hpd, hfd, hdc⟩ := h'.client q c hc hpc
    obtain ⟨e, he, hpe, hfd', hed⟩ := h.client q d hd hpd
    refine ⟨e, he, hpe, hfd.trans hfd', ?_⟩
    rcases hdc with ⟨hlast, hping⟩ | ⟨hlast, hping⟩
    · rw [HeardOf, hlast, hping]
      exact hed
    · exact Or.inr ⟨hlast.trans h.clock, hping⟩

/-- The clients are as they were. -/
theorem of_heap (hclock : t.clock = s.clock) (hlast : t.lastPingCheck = s.lastPingCheck)
    (hspoken : t.spoken = s.spoken) (hheap : t.heap = s.heap) : s.Hears t :=
  ⟨hclock, hlast, hspoken ▸ List.suffix_rfl,
    fun _ c hc hpc => ⟨c, hheap ▸ hc, hpc, rfl, Or.inl ⟨rfl, rfl⟩⟩⟩

end Hears

/-- **One mindful operation.** -/
theorem hears_run {op : Op} (hi : s.Inv) (ho : op.Allowed s) (hop : op.Mindful s.clock) :
    s.Hears (op.run s) := by
  have hrest : (op.run s).clock = s.clock ∧ (op.run s).lastPingCheck = s.lastPingCheck := by
    cases op with
    | clock | accept | pingCheck => exact hop.elim
    | leave fd ch =>
      rw [Op.run, dropMember]
      split_ifs <;> exact ⟨rfl, rfl⟩
    | expel q fd | finalize q fd =>
      rw [Op.run, finalizeDisconnect]
      split <;> exact ⟨rfl, rfl⟩
    | _ => exact ⟨rfl, rfl⟩
  have hspoken : s.spoken <:+ (op.run s).spoken := by
    rcases spoken_run (s := s) op with h | ⟨q, msg, -, h⟩
    · exact h ▸ List.suffix_rfl
    · exact h ▸ List.suffix_cons _ _
  refine ⟨hrest.1, hrest.2, hspoken, fun q c hc hpc => ?_⟩
  rcases get?_run hi.table ho hc with ⟨d, hd, ⟨f, hf, rfl⟩ | ⟨-, rfl⟩⟩ | ⟨fd, hostname, rfl, -, -⟩
  · have hfd := fd_of_edit hf d
    suffices hkept : d.pendingClose = false ∧ HeardOf s.clock d (f d) from
      ⟨d, hd, hkept.1, hfd, hkept.2⟩
    cases op <;> simp only [Op.edit, Option.some.injEq, Prod.mk.injEq, reduceCtorEq] at hf <;>
      obtain ⟨rfl, rfl⟩ := hf
    case heed => exact ⟨hpc, Or.inr hop⟩
    case defer => exact absurd hpc (by simp)
    case user name mode real =>
      obtain ⟨i, w, hbits⟩ := applyUserModeBitmask_eq mode { d with username := name }
      beta_reduce at hpc ⊢
      rw [hbits] at hpc ⊢
      exact ⟨hpc, Or.inl ⟨rfl, rfl⟩⟩
    case userMode flag b => cases flag <;> exact ⟨hpc, Or.inl ⟨rfl, rfl⟩⟩
    all_goals exact ⟨hpc, Or.inl ⟨rfl, rfl⟩⟩
  · exact ⟨c, hd, hpc, rfl, Or.inl ⟨rfl, rfl⟩⟩
  · exact hop.elim

/-- **A sequence of mindful operations.** -/
theorem hears_runs {P : Op → Prop} (hP : ∀ op, P op → op.Mindful s.clock) (hi : s.Inv)
    (hrun : serverMachine.Runs P s t) : s.Hears t :=
  (hrun.relates (I := fun u => u.Inv ∧ u.clock = s.clock) (R := fun u v => u.clock = s.clock → u.Hears v)
    (fun _ _ => .refl _) (fun _ _ _ h h' hu => (h hu).trans (h' ((h hu).clock.trans hu)))
    (fun op _ hop ho hu => ⟨hu.1.run ho, (hears_run hu.1 ho (hu.2 ▸ hP op hop)).clock.trans hu.2⟩)
    (fun op _ hop ho hu _ => hears_run hu.1 ho (hu.2 ▸ hP op hop)) ⟨hi, rfl⟩) rfl

/-- **Octets are received** of a client: it was heard of right now, and nobody else. -/
theorem get?_receive {data : Str} (hc : (s.receive p data).2.heap.get? q = some c) :
    ∃ d, s.heap.get? q = some d ∧ c.pendingClose = d.pendingClose ∧ c.fd = d.fd ∧
      ((q = p ∧ c.lastActivity = s.clock ∧ c.pingSent = false) ∨
        (q ≠ p ∧ c.lastActivity = d.lastActivity ∧ c.pingSent = d.pingSent)) := by
  obtain ⟨d, hd, ⟨rfl, rfl⟩ | ⟨hne, rfl⟩⟩ := get?_update_eq_some hc
  · obtain ⟨e, he, ⟨-, rfl⟩ | ⟨hne, -⟩⟩ := get?_update_eq_some hd
    · exact ⟨e, he, rfl, rfl, Or.inl ⟨rfl, rfl, rfl⟩⟩
    · exact absurd rfl hne
  · obtain ⟨e, he, ⟨heq, -⟩ | ⟨-, rfl⟩⟩ := get?_update_eq_some hd
    · exact absurd heq hne
    · exact ⟨_, he, rfl, rfl, Or.inr ⟨hne, rfl, rfl⟩⟩

theorem hears_receive (data : Str) : s.Hears (s.receive p data).2 := by
  refine ⟨rfl, rfl, List.suffix_rfl, fun q c hc hpc => ?_⟩
  obtain ⟨d, hd, hsame, hfd, ⟨-, hlast, hping⟩ | ⟨-, hkept⟩⟩ := get?_receive hc
  · exact ⟨d, hd, hsame ▸ hpc, hfd, Or.inr ⟨hlast, hping⟩⟩
  · exact ⟨d, hd, hsame ▸ hpc, hfd, Or.inl hkept⟩

section Steps

variable (hi : s.Inv)

include hi

theorem hears_disconnectClient (hp : s.clients.get? fd = some p) (hreason : OneLine reason) :
    s.Hears (s.disconnectClient fd reason) :=
  hears_runs (fun _ hop => hop.mindful) hi (complies_disconnectClient hi hreason hp)

theorem hears_disconnectClientNow (hp : s.clients.get? fd = some p) (hreason : OneLine reason)
    (hdue : Libcpp.overflowed (s.deref p).io = true ∨ Event.hangup p ∈ s.trace) :
    s.Hears (s.disconnectClientNow fd reason) := by
  refine hears_runs (fun op hop => ?_) hi (runs_disconnectClientNow hi hreason hp hdue)
  rcases hop with hop | rfl
  · exact hop.mindful
  · trivial

theorem hears_handleClientOutput (hp : s.clients.get? fd = some p) (sent : Option ℕ) :
    s.Hears (s.handleClientOutput fd sent) := by
  simp only [handleClientOutput, hp]
  split_ifs with hpend
  · exact .refl s
  rcases sent with _ | n
  · exact .refl s
  have hallowed : (Op.transmit p n).Allowed s := hi.table.clients_fd hp
  have hi' : ((Op.transmit p n).run s).Inv := hi.run hallowed
  dsimp only
  refine (hears_run hi hallowed trivial).trans ?_
  change Hears ((Op.transmit p n).run s)
    (if (((Op.transmit p n).run s).deref p).pendingClose then _ else _)
  split_ifs with hpc hdone hov
  · simp only [Bool.or_eq_true, Bool.not_eq_true'] at hdone
    have hfinal : (Op.finalize p fd).Allowed ((Op.transmit p n).run s) :=
      ⟨hp, hpc, hdone.imp id Or.inl⟩
    exact hears_run hi' hfinal trivial
  · exact .refl _
  · exact hears_disconnectClientNow hi' hp (by decide) (Or.inl hov)
  · exact .refl _

theorem hears_handleHangup (hp : s.clients.get? fd = some p) : s.Hears (s.handleHangup fd) := by
  simp only [handleHangup, hp]
  have hallowed : (Op.hangup p).Allowed s := hi.table.clients_fd hp
  exact (hears_run hi hallowed trivial).trans
    (hears_disconnectClientNow (hi.run hallowed) hp (by decide) (Or.inr List.mem_cons_self))

/-- A sweep over the transfers. -/
theorem hears_abortWhere (hreason : OneLine reason) (test : Transfer → Bool) :
    s.Hears (s.abortWhere test reason) := by
  refine (List.foldlRecOn s.files.transfers.keys _ (motive := fun u => s.Hears u ∧ u.Inv)
    ⟨.refl s, hi⟩ fun u hu id _ => ?_).1
  rcases htr : u.files.transfers.get? id with _ | tr
  · exact hu
  dsimp only
  split_ifs
  · obtain ⟨⟨p, hp⟩, -⟩ := hu.2.authority.transfer id tr htr
    have hrun : Complies u p .filing u (u.abortTransfer id reason) :=
      (Turn.start hu.2 (hp.live hu.2.table)).abortTransfer hp.2.1 hreason
    exact ⟨hu.1.trans (hears_runs (fun _ hop => hop.mindful) hu.2 hrun), hu.2.runs hrun⟩
  · exact hu

/-- **What happens on the connection of a client** asks nobody. -/
theorem Acts.hears (h : Acts M p s t) : s.Hears t := by
  cases h with
  | receive data => exact hears_receive data
  | line raw hp hraw =>
    obtain ⟨m, hrun⟩ := complies_handleMessage M hi hp hraw
    exact hears_runs (fun _ hop => hop.mindful) hi hrun
  | output fd sent hp => exact hears_handleClientOutput hi hp sent
  | disconnect fd reason hp hreason => exact hears_disconnectClient hi hp hreason
  | disconnectNow fd reason hp hreason hov => exact hears_disconnectClientNow hi hp hreason (Or.inl hov)
  | hangup fd hp => exact hears_handleHangup hi hp

/-- **Every step** but three asks nobody: it is a check that is due, somebody arrives, or the clock
is read. -/
theorem Step.hears (h : Step M s t) : s.Hears t ∨ t = s.checkTimeouts ∨
    (∃ fd hostname, t = s.acceptClient fd hostname) ∨ ∃ now, t = { s with clock := now } := by
  cases h with
  | client p hacts => exact Or.inl (hacts.hears hi)
  | accept fd a b c d hfd => exact Or.inr (Or.inr (Or.inl ⟨fd, _, rfl⟩))
  | clock now => exact Or.inr (Or.inr (Or.inr ⟨now, rfl⟩))
  | checkTimeouts => exact Or.inr (Or.inl rfl)
  | checkPendingCloseTimeouts =>
    exact Or.inl (hears_runs (fun _ hop => hop.mindful) hi (closing_checkPendingCloseTimeouts hi))
  | tick => exact Or.inl (hears_abortWhere hi (by decide) _)
  | updateInterests =>
    refine Or.inl (List.foldlRecOn s.clients.values updateEpollInterest (motive := fun u => s.Hears u)
      (.refl s) fun u hu q _ => hu.trans (.of_heap rfl rfl rfl rfl))

end Steps

/-! ### A check -/

/-- The text that asks for a sign of life. -/
def pingText : Str := str ":" ++ SERVER_NAME ++ str " " ++ (str "PING :" ++ SERVER_NAME)

/-- Some clients are looked at: the others stay, and what was collected is not forgotten. -/
structure LooksAt (l : List (Fd × ClientId)) (acc acc' : Server × List Fd × List Fd) : Prop where
  heap : ∀ q, (∀ e ∈ l, e.2 ≠ q) → acc'.1.heap.get? q = acc.1.heap.get? q
  spoken : acc.1.spoken <:+ acc'.1.spoken
  full : ∀ fd ∈ acc.2.1, fd ∈ acc'.2.1
  late : ∀ fd ∈ acc'.2.2, fd ∈ acc.2.2 ∨ ∃ e ∈ l, e.1 = fd
  clock : acc'.1.clock = acc.1.clock
  lastPingCheck : acc'.1.lastPingCheck = acc.1.lastPingCheck

theorem looksAt_checkTimeoutsOne (now : Time) (acc : Server × List Fd × List Fd) (e : Fd × ClientId) :
    LooksAt [e] acc (checkTimeoutsOne now acc e) := by
  obtain ⟨u, full, late⟩ := acc
  rw [checkTimeoutsOne]
  split_ifs
  · exact ⟨fun _ _ => rfl, List.suffix_rfl, fun _ => id, fun _ => Or.inl, rfl, rfl⟩
  · exact ⟨fun _ _ => rfl, List.suffix_rfl, fun _ => List.mem_append_left _, fun _ => Or.inl, rfl, rfl⟩
  · refine ⟨fun _ _ => rfl, List.suffix_rfl, fun _ => id, fun fd hfd => ?_, rfl, rfl⟩
    rcases List.mem_append.mp hfd with hold | hnew
    · exact Or.inl hold
    · exact Or.inr ⟨e, List.mem_singleton_self e, (List.mem_singleton.mp hnew).symm⟩
  · refine ⟨fun q hq => ?_, List.suffix_cons _ _, fun _ => id, fun _ => Or.inl, rfl, rfl⟩
    have hne : q ≠ e.2 := (hq e (List.mem_singleton_self e)).symm
    exact (get?_update_of_ne hne).trans (get?_update_of_ne hne)
  · exact ⟨fun _ _ => rfl, List.suffix_rfl, fun _ => id, fun _ => Or.inl, rfl, rfl⟩

theorem looksAt_checkTimeouts (now : Time) (l : List (Fd × ClientId)) (acc : Server × List Fd × List Fd) :
    LooksAt l acc (l.foldl (checkTimeoutsOne now) acc) := by
  induction l generalizing acc with
  | nil => exact ⟨fun _ _ => rfl, List.suffix_rfl, fun _ => id, fun _ => Or.inl, rfl, rfl⟩
  | cons e l ih =>
    have hone := looksAt_checkTimeoutsOne now acc e
    have hrest := ih (checkTimeoutsOne now acc e)
    refine ⟨fun q hq => ?_, hone.spoken.trans hrest.spoken, fun fd h => hrest.full fd (hone.full fd h),
      fun fd hfd => ?_, hrest.clock.trans hone.clock, hrest.lastPingCheck.trans hone.lastPingCheck⟩
    · rw [List.foldl_cons, hrest.heap q fun e' he' => hq e' (List.mem_cons_of_mem _ he'),
        hone.heap q fun e' he' => hq e' (List.mem_cons.mpr (Or.inl (List.mem_singleton.mp he')))]
    · rcases hrest.late fd hfd with hearly | ⟨e', he', heq⟩
      · refine (hone.late fd hearly).imp id ?_
        rintro ⟨e', he', heq⟩
        exact ⟨e', List.mem_cons.mpr (Or.inl (List.mem_singleton.mp he')), heq⟩
      · exact Or.inr ⟨e', List.mem_cons_of_mem _ he', heq⟩

/-- **What a check makes of a client**, and who is collected to be dropped. -/
inductive Checked (now : Time) (fd : Fd) (q : ClientId) (c : Client) (s u : Server) (full late : List Fd) :
    Prop
  /-- It is about to close. -/
  | closing : c.pendingClose = true → fd ∉ late → Checked now fd q c s u full late
  /-- Its send queue is full, and it will be closed for that. -/
  | full : Libcpp.overflowed c.io = true → fd ∈ full → fd ∉ late → Checked now fd q c s u full late
  /-- It was asked, and will be dropped. -/
  | late : c.pendingClose = false → c.pingSent = true → u.heap.get? q = some c →
      Checked now fd q c s u full late
  /-- It is asked. -/
  | asked : c.pingSent = false → c.lastActivity + PING_INTERVAL < now →
      (∃ io, u.heap.get? q = some { c with io := io, pingSent := true }) →
      (∃ new, u.spoken = new ++ s.spoken ∧ (q, wire pingText) ∈ new) → fd ∉ late →
      Checked now fd q c s u full late
  /-- It is left alone. -/
  | spared : (c.pingSent = false → now ≤ c.lastActivity + PING_INTERVAL) → u.heap.get? q = some c →
      fd ∉ late → Checked now fd q c s u full late

/-- One client is looked at. -/
theorem checked_checkTimeoutsOne {acc : Server × List Fd × List Fd} (hc : acc.1.heap.get? q = some c)
    (hspoken : s.spoken <:+ acc.1.spoken) (hnot : fd ∉ acc.2.2) :
    Checked now fd q c s (checkTimeoutsOne now acc (fd, q)).1 (checkTimeoutsOne now acc (fd, q)).2.1
      (checkTimeoutsOne now acc (fd, q)).2.2 := by
  obtain ⟨u, full, late⟩ := acc
  have hderef : u.deref q = c := deref_of_get? hc
  rw [checkTimeoutsOne]
  dsimp only
  rw [hderef]
  rcases hpc : c.pendingClose
  swap
  · exact .closing hpc hnot
  rw [if_neg (by simp)]
  by_cases hfull : Libcpp.overflowed c.io = true
  · rw [if_pos hfull]
    exact .full hfull (List.mem_append_right _ (List.mem_singleton_self _)) hnot
  rw [if_neg hfull]
  rcases hping : c.pingSent
  · rw [if_neg (by simp)]
    by_cases hidle : now - c.lastActivity > PING_INTERVAL
    · rw [if_pos (by simpa using hidle)]
      refine .asked hping (Int.add_lt_of_lt_sub_left hidle) ⟨Libcpp.queue c.io (wire pingText), ?_⟩ ?_ hnot
      · refine get?_update_self.trans ?_
        have hqueued : (u.sendToClient q (str "PING :" ++ SERVER_NAME)).heap.get? q =
            some { c with io := Libcpp.queue c.io (wire pingText) } :=
          get?_update_self.trans (congrArg _ hc)
        rw [hqueued]
        rfl
      · obtain ⟨old, hold⟩ := hspoken
        refine ⟨(q, wire pingText) :: old, ?_, List.mem_cons_self⟩
        rw [List.cons_append, hold]
        rfl
    · rw [if_neg (by simpa using hidle)]
      exact .spared (fun _ => Int.le_add_of_sub_left_le (Int.not_lt.mp hidle)) hc hnot
  · by_cases hlate : now - c.lastActivity > PING_INTERVAL + PING_TIMEOUT
    · rw [if_pos (by simpa using hlate)]
      exact .late hpc hping hc
    · rw [if_neg (by simpa using hlate), if_neg (by simp)]
      exact .spared (fun h => absurd (hping.symm.trans h) (by simp)) hc hnot

/-- **A check of all clients**, with each in its place. -/
theorem checked_checkTimeouts (hi : s.Inv) (now : Time) (hc : s.heap.get? q = some c) :
    let acc := s.clients.entries.foldl (checkTimeoutsOne now) (s, [], [])
    Checked now c.fd q c s acc.1 acc.2.1 acc.2.2 := by
  intro acc
  have hmem : (c.fd, q) ∈ s.clients.entries := OrdMap.mem_entries.mpr (hi.table.clients_of_heap q c hc)
  obtain ⟨l₁, l₂, hsplit⟩ := List.append_of_mem hmem
  -- a descriptor stands in the table once, and a client has one
  have hnodup : ((l₁ ++ (c.fd, q) :: l₂).map Prod.fst).Nodup := hsplit ▸ s.clients.nodup_keys
  rw [List.map_append, List.map_cons, List.nodup_middle, List.nodup_cons, ← List.map_append] at hnodup
  have hfds : ∀ e ∈ l₁ ++ l₂, e.1 ≠ c.fd := fun e he heq => hnodup.1 (List.mem_map.mpr ⟨e, he, heq⟩)
  have honly : ∀ e ∈ l₁ ++ l₂, e.2 ≠ q := by
    rintro ⟨fd, r⟩ he rfl
    have hin : (fd, r) ∈ s.clients.entries := by
      rw [hsplit]
      exact (List.mem_append.mp he).elim (fun h => List.mem_append_left _ h)
        fun h => List.mem_append_right _ (List.mem_cons_of_mem _ h)
    have hfd := hi.table.fd_eq (OrdMap.mem_entries.mp hin)
    rw [deref_of_get? hc] at hfd
    exact hfds _ he hfd.symm
  have hbefore := looksAt_checkTimeouts now l₁ (s, [], [])
  have hafter := looksAt_checkTimeouts now l₂
    (checkTimeoutsOne now (l₁.foldl (checkTimeoutsOne now) (s, [], [])) (c.fd, q))
  have hacc : acc = l₂.foldl (checkTimeoutsOne now)
      (checkTimeoutsOne now (l₁.foldl (checkTimeoutsOne now) (s, [], [])) (c.fd, q)) := by
    rw [show acc = s.clients.entries.foldl (checkTimeoutsOne now) (s, [], []) from rfl, hsplit,
      List.foldl_append, List.foldl_cons]
  have hget := hbefore.heap q fun e he => honly e (List.mem_append_left _ he)
  have hget' := hafter.heap q fun e he => honly e (List.mem_append_right _ he)
  have hnot : c.fd ∉ (l₁.foldl (checkTimeoutsOne now) (s, [], [])).2.2 := fun h =>
    (hbefore.late _ h).elim List.not_mem_nil fun ⟨e, he, heq⟩ => hfds e (List.mem_append_left _ he) heq
  have hnot' : c.fd ∉ (checkTimeoutsOne now
      (l₁.foldl (checkTimeoutsOne now) (s, [], [])) (c.fd, q)).2.2 → c.fd ∉ acc.2.2 := fun h hin =>
    (hafter.late _ (hacc ▸ hin)).elim h fun ⟨e, he, heq⟩ => hfds e (List.mem_append_right _ he) heq
  rw [hacc] at hnot' ⊢
  cases (checked_checkTimeoutsOne (hget.trans hc) hbefore.spoken hnot : Checked now c.fd q c s _ _ _) with
  | closing hpc hlate => exact .closing hpc (hnot' hlate)
  | full hov hin hlate => exact .full hov (hafter.full _ hin) (hnot' hlate)
  | late hpc hping h => exact .late hpc hping (hget'.trans h)
  | asked hping hidle h htold hlate =>
    obtain ⟨io, h⟩ := h
    obtain ⟨new, hnew, hin⟩ := htold
    obtain ⟨more, hmore⟩ := hafter.spoken
    refine .asked hping hidle ⟨io, hget'.trans h⟩ ⟨more ++ new, ?_, List.mem_append_right _ hin⟩
      (hnot' hlate)
    rw [← hmore, hnew, List.append_assoc]
  | spared hidle h hlate => exact .spared hidle (hget'.trans h) (hnot' hlate)

/-! ### What a check closes -/

/-- Closing a client at once takes it off the heap. -/
theorem get?_disconnectClientNow_self (hi : s.Inv) (hp : s.clients.get? fd = some p)
    (hreason : OneLine reason) : (s.disconnectClientNow fd reason).heap.get? p = none := by
  have hgone : ∀ {u : Server}, u.clients.get? fd = some p → (u.finalizeDisconnect fd).heap.get? p = none :=
    fun hu => by
      rw [finalizeDisconnect, hu]
      exact OrdMap.get?_erase_self _ _
  obtain rfl := hi.table.fd_eq hp
  simp only [disconnectClientNow, hp]
  rcases hpc : (s.deref p).pendingClose
  · have htd : (s.deref p).tearingDown = false := (hi.settled p _ (hi.table.get? hp)).symm.trans hpc
    have hstate : teardownClientState disconnectClient s p reason =
        (s.clearAway p reason).markTornDown p := teardownClientState_eq hi ⟨hp, htd⟩ hreason nesting
    have hlive := ((Turn.start hi ⟨hp, htd⟩).runs (complies_clearAway hi ⟨hp, htd⟩ hreason) (by decide))
    simp only [htd, Bool.false_eq_true, if_false, hstate]
    exact hgone (hlive.fd ▸ hlive.live.1)
  · simp only [if_true]
    exact hgone hp

/-- What was collected for a full send queue still has one. -/
def Collected (s : Server) (sendQNow : List Fd) : Prop :=
  ∀ fd ∈ sendQNow, ∀ q, s.clients.get? fd = some q → Libcpp.overflowed (s.deref q).io = true

/-- One client is closed for its send queue. -/
theorem closesFull (hi : s.Inv) {sendQNow : List Fd} (hov : s.Collected sendQNow) (hfd : fd ∈ sendQNow) :
    (s.disconnectClientNow fd (str "SendQ exceeded")).Inv ∧
      s.Hears (s.disconnectClientNow fd (str "SendQ exceeded")) ∧
        (s.disconnectClientNow fd (str "SendQ exceeded")).Collected sendQNow := by
  rcases hp : s.clients.get? fd with _ | p
  · rw [disconnectClientNow, hp]
    exact ⟨hi, .refl s, hov⟩
  · have hreason : OneLine (str "SendQ exceeded") := by decide
    have hrun := runs_now hi hp hreason (Or.inl (hov fd hfd p hp))
    exact ⟨hi.runs hrun, hears_disconnectClientNow hi hp hreason (Or.inl (hov fd hfd p hp)),
      fun fd' hfd' _ hq => overflowed_runs (within_of_sweep hrun) hi (hov fd' hfd') hq⟩

/-- All of them are. -/
theorem closesAllFull (hi : s.Inv) {sendQNow : List Fd} (hov : s.Collected sendQNow) :
    let t := sendQNow.foldl (fun s fd => s.disconnectClientNow fd (str "SendQ exceeded")) s
    t.Inv ∧ s.Hears t := by
  have hloop := List.foldlRecOn sendQNow (fun s fd => s.disconnectClientNow fd (str "SendQ exceeded"))
    (b := s) (motive := fun u => (u.Inv ∧ u.Collected sendQNow) ∧ s.Hears u) ⟨⟨hi, hov⟩, .refl s⟩
    fun u hu fd hfd => by
      obtain ⟨hi', hears, hov'⟩ := closesFull hu.1.1 hu.1.2 hfd
      exact ⟨⟨hi', hov'⟩, hu.2.trans hears⟩
  exact ⟨hloop.1.1, hloop.2⟩

/-- **Whose send queue was full is gone**, or about to close. -/
theorem pendingClose_of_full (hi : s.Inv) {sendQNow : List Fd} (hov : s.Collected sendQNow)
    (hfd : c.fd ∈ sendQNow) (hc : s.heap.get? p = some c) {d : Client}
    (hd : (sendQNow.foldl (fun s fd => s.disconnectClientNow fd (str "SendQ exceeded")) s).heap.get? p =
      some d) : d.pendingClose = true := by
  induction sendQNow generalizing s c with
  | nil => exact absurd hfd List.not_mem_nil
  | cons fd rest ih =>
    obtain ⟨hi', hears, hov'⟩ := closesFull hi hov List.mem_cons_self
    have hrest : (s.disconnectClientNow fd (str "SendQ exceeded")).Collected rest := fun fd' hfd' =>
      hov' fd' (List.mem_cons_of_mem _ hfd')
    by_contra hlive
    obtain ⟨e, he, hpe, -⟩ := (closesAllFull hi' hrest).2.client p d hd (Bool.not_eq_true _ ▸ hlive)
    obtain ⟨e', he', -, hfd', -⟩ := hears.client p e he hpe
    obtain rfl : e' = c := Option.some.inj (he'.symm.trans hc)
    rcases List.mem_cons.mp hfd with hhead | htail
    · have hnone : (s.disconnectClientNow fd (str "SendQ exceeded")).heap.get? p = none :=
        get?_disconnectClientNow_self hi (hhead ▸ hi.table.clients_of_heap p e' hc) (by decide)
      exact absurd (hnone.symm.trans he) (by simp)
    · exact hlive (ih hi' hrest (hfd' ▸ htail) he hd)

/-- What a check that is due collects on its way through the clients, and the state it leaves. -/
def looked (s : Server) : Server × List Fd × List Fd :=
  s.clients.entries.foldl (checkTimeoutsOne s.clock) ({ s with lastPingCheck := s.clock }, [], [])

/-- A check that is due. -/
theorem checkTimeouts_of_due (hdue : 30 ≤ s.clock - s.lastPingCheck) : s.checkTimeouts =
    s.looked.2.2.foldl (fun s fd => s.disconnectClient fd (str "Ping timeout"))
      (s.looked.2.1.foldl (fun s fd => s.disconnectClientNow fd (str "SendQ exceeded")) s.looked.1) := by
  rw [checkTimeouts]
  dsimp only
  rw [if_neg (not_lt.mpr hdue)]
  rfl

/-- On its way it closes nobody. -/
theorem runs_looked (hi : s.Inv) :
    serverMachine.Runs Op.Idle s s.looked.1 ∧ s.looked.1.Inv ∧ s.looked.1.Collected s.looked.2.1 := by
  have hcheck : serverMachine.Runs Op.Idle s ((Op.pingCheck s.clock).run s) :=
    .single (M := serverMachine) (o := .pingCheck s.clock) trivial trivial
  obtain ⟨hrun, hov⟩ := idle_checkTimeoutsOne (hi.runs hcheck) s.clock
  exact ⟨hcheck.trans hrun, (hi.runs hcheck).runs hrun, hov⟩

/-- Closing is quiet. -/
theorem hears_closings_of (hi : s.Inv) {sendQNow : List Fd} (hov : s.Collected sendQNow)
    (pingTimeout : List Fd) :
    s.Hears (pingTimeout.foldl (fun s fd => s.disconnectClient fd (str "Ping timeout"))
      (sendQNow.foldl (fun s fd => s.disconnectClientNow fd (str "SendQ exceeded")) s)) :=
  closeAll_relates hi .refl (fun _ _ _ => .trans)
    (fun hu hp hfull => hears_disconnectClientNow hu hp (by decide) (Or.inl hfull))
    (fun hu hp => hears_disconnectClient hu hp (by decide)) hov pingTimeout

theorem hears_closings (hi : s.Inv) (hdue : 30 ≤ s.clock - s.lastPingCheck) :
    s.looked.1.Hears s.checkTimeouts := by
  obtain ⟨-, hi', hov⟩ := runs_looked hi
  rw [checkTimeouts_of_due hdue]
  exact hears_closings_of hi' hov _

theorem clock_checkTimeouts (hi : s.Inv) (hdue : 30 ≤ s.clock - s.lastPingCheck) :
    s.checkTimeouts.clock = s.clock ∧ s.checkTimeouts.lastPingCheck = s.clock := by
  have hfold := looksAt_checkTimeouts s.clock s.clients.entries ({ s with lastPingCheck := s.clock }, [], [])
  have hclosed := hears_closings hi hdue
  exact ⟨hclosed.clock.trans hfold.clock, hclosed.lastPingCheck.trans hfold.lastPingCheck⟩

/-- **What a check that is due makes of a client** that is there afterwards: it was asked, or not
yet idle for long when it was not, or heard of right then. -/
theorem cases_checkTimeouts (hi : s.Inv) (hdue : 30 ≤ s.clock - s.lastPingCheck)
    (hc : s.checkTimeouts.heap.get? q = some c) (hpc : c.pendingClose = false) :
    ∃ d, s.heap.get? q = some d ∧ d.pendingClose = false ∧
      ((d.pingSent = false ∧ d.lastActivity + PING_INTERVAL < s.clock ∧ c.lastActivity = d.lastActivity ∧
          c.pingSent = true ∧
          ∃ new, s.checkTimeouts.spoken = new ++ s.spoken ∧ (q, wire pingText) ∈ new) ∨
        ((d.pingSent = false → s.clock ≤ d.lastActivity + PING_INTERVAL) ∧
          c.lastActivity = d.lastActivity ∧ c.pingSent = d.pingSent) ∨
        c.lastActivity = s.clock ∧ c.pingSent = false) := by
  obtain ⟨hrun, hi', hov⟩ := runs_looked hi
  have hwithin := hrun.mono fun _ => Op.Idle.within
  have hclosed := hears_closings hi hdue
  have hclock : s.looked.1.clock = s.clock :=
    (looksAt_checkTimeouts s.clock s.clients.entries ({ s with lastPingCheck := s.clock }, [], [])).clock
  obtain ⟨e, he, hpe, -, hec⟩ := hclosed.client q c hc hpc
  obtain ⟨d, hd, hfd⟩ := hi.table.heap_of_clients e.fd q
    (clients_of_runs hwithin (hi'.table.clients_of_heap q e he))
  have hpd : d.pendingClose = false := by
    by_contra hpend
    have hstays := pendingClose_runs hwithin hi (p := q)
      (by rw [deref_of_get? hd]; exact Bool.not_eq_false _ ▸ hpend) he
    exact absurd (hstays.1.symm.trans hpe) (by simp)
  refine ⟨d, hd, hpd, ?_⟩
  rw [HeardOf, hclock] at hec
  rcases hec with ⟨hlast, hping⟩ | hheard
  swap
  · exact Or.inr (Or.inr hheard)
  have hallowed : (Op.pingCheck s.clock).Allowed s := trivial
  have hi₀ : ({ s with lastPingCheck := s.clock } : Server).Inv := hi.run hallowed
  have hkept : ∀ {d'}, s.looked.1.heap.get? q = some d' → e = d' := fun h =>
    Option.some.inj (he.symm.trans h)
  cases checked_checkTimeouts hi₀ s.clock hd with
  | closing hpend => exact absurd (hpend.symm.trans hpd) (by simp)
  | full hfull hin =>
    -- the loop over the full send queues leaves nothing of it that could still be open
    obtain ⟨hiw, -⟩ := closesAllFull hi' hov
    have hlater : Hears _ s.checkTimeouts := checkTimeouts_of_due hdue ▸
      hears_closings_of hiw (fun _ h => absurd h List.not_mem_nil) s.looked.2.2
    obtain ⟨f, hf, hpf, -⟩ := hlater.client q c hc hpc
    exact absurd ((pendingClose_of_full hi' hov (hfd ▸ hin) he hf).symm.trans hpf) (by simp)
  | late _ hping' hget =>
    obtain rfl := hkept hget
    exact Or.inr (Or.inl ⟨fun h => absurd (hping'.symm.trans h) (by simp), hlast, hping⟩)
  | asked hping' hidle hget htold =>
    obtain ⟨io, hget⟩ := hget
    obtain rfl := hkept hget
    obtain ⟨new, hnew, hin⟩ := htold
    obtain ⟨more, hmore⟩ := hclosed.spoken
    refine Or.inl ⟨hping', hidle, hlast, hping, more ++ new, ?_, List.mem_append_right _ hin⟩
    rw [← hmore, List.append_assoc]
    exact congrArg _ hnew
  | spared hidle hget =>
    obtain rfl := hkept hget
    exact Or.inr (Or.inl ⟨hidle, hlast, hping⟩)

/-! ### A run and its checks -/

/-- The check that comes now asks the client for a sign of life. -/
structure Pings (u : Server) (p : ClientId) : Prop where
  before : ∃ c, u.heap.get? p = some c ∧ c.pendingClose = false ∧ c.pingSent = false
  after : ∃ c, u.checkTimeouts.heap.get? p = some c ∧ c.pendingClose = false ∧ c.pingSent = true
  told : ∃ new, u.checkTimeouts.spoken = new ++ u.spoken ∧ (p, wire pingText) ∈ new

/-- A step in which nothing is received of a client. -/
def Unheard (M : Matcher) (p : ClientId) (s t : Server) : Prop :=
  Step M s t ∧ (∀ data, t ≠ (s.receive p data).2) ∧
    (t.deref p).lastActivity = (s.deref p).lastActivity

/-- A check asked the client, and nothing was received of it since. -/
def Pinged (M : Matcher) (u s : Server) (p : ClientId) : Prop :=
  u.Pings p ∧ ReflTransGen (Unheard M p) u.checkTimeouts s

/-- **A run of a server whose clock is never put back**, with the times of the checks in it, the
last one first. -/
inductive Timed (M : Matcher) : Server → List Time → Prop
  | start (password : Str) (pendingCloseTimeout now : Time) (reentrant : List Str) :
      Timed M (started password pendingCloseTimeout now reentrant) []
  | check {s : Server} {checks : List Time} : Timed M s checks → 30 ≤ s.clock - s.lastPingCheck →
      Timed M s.checkTimeouts (s.clock :: checks)
  | step {s t : Server} {checks : List Time} : Timed M s checks → Step M s t →
      t.lastPingCheck = s.lastPingCheck → s.clock ≤ t.clock → Timed M t checks

/-- The check that comes now drops the client for a missing answer. -/
def TimesOut (s : Server) (p : ClientId) (fd : Fd) : Prop :=
  30 ≤ s.clock - s.lastPingCheck ∧ s.clients.get? fd = some p ∧ fd ∈ s.looked.2.2

/-- **The advertised grace**: the client was asked after the last it was heard of, and had all the
time to answer. -/
def Grace (M : Matcher) (checks : List Time) (s : Server) (p : ClientId) : Prop :=
  ∃ u later earlier, checks = later ++ u.clock :: earlier ∧ Timed M u earlier ∧ Pinged M u s p ∧
    u.clock + PING_TIMEOUT ≤ s.clock

variable {checks : List Time}

/-- A check that is not due does nothing. -/
theorem checkTimeouts_of_not_due (hdue : ¬30 ≤ s.clock - s.lastPingCheck) : s.checkTimeouts = s := by
  rw [checkTimeouts]
  dsimp only
  rw [if_pos (not_le.mp hdue)]

theorem Timed.inv (h : Timed M s checks) : s.Inv := by
  induction h with
  | start password pendingCloseTimeout now reentrant => exact .started ..
  | check _ _ ih => exact (Step.checkTimeouts (M := M) _).inv ih
  | step _ hstep _ _ ih => exact hstep.inv ih

/-- A step that moves the clock on belongs to a run. -/
theorem Timed.extend (h : Timed M s checks) (hstep : Step M s t) (hclock : s.clock ≤ t.clock) :
    ∃ more, Timed M t (more ++ checks) := by
  by_cases hlast : t.lastPingCheck = s.lastPingCheck
  · exact ⟨[], .step h hstep hlast hclock⟩
  rcases hstep.hears h.inv with hears | rfl | ⟨fd, hostname, rfl⟩ | ⟨now, rfl⟩
  · exact absurd hears.lastPingCheck hlast
  · by_cases hdue : 30 ≤ s.clock - s.lastPingCheck
    · exact ⟨[s.clock], .check h hdue⟩
    · exact absurd (by rw [checkTimeouts_of_not_due hdue]) hlast
  · rw [acceptClient] at hlast
    split_ifs at hlast <;> exact absurd rfl hlast
  · exact absurd rfl hlast

/-- The check that is due is seen in the time of the last one. -/
theorem lastPingCheck_ne (hi : s.Inv) (hdue : 30 ≤ s.clock - s.lastPingCheck) :
    s.checkTimeouts.lastPingCheck ≠ s.lastPingCheck := by
  rw [(clock_checkTimeouts hi hdue).2]
  intro heq
  rw [heq, Int.sub_self] at hdue
  exact absurd hdue (by decide)

/-- **Between two checks** whoever is there is as it was, or was heard of right then. -/
theorem kept_step (hi : s.Inv) (hstep : Step M s t) (hlast : t.lastPingCheck = s.lastPingCheck)
    (hc : t.heap.get? q = some c) (hpc : c.pendingClose = false) :
    (∃ d, s.heap.get? q = some d ∧ d.pendingClose = false ∧ c.lastActivity = d.lastActivity ∧
        c.pingSent = d.pingSent) ∨ c.lastActivity = s.clock ∧ c.pingSent = false := by
  rcases hstep.hears hi with hears | rfl | ⟨fd, hostname, rfl⟩ | ⟨now, rfl⟩
  · obtain ⟨d, hd, hpd, -, hsame | hheard⟩ := hears.client q c hc hpc
    · exact Or.inl ⟨d, hd, hpd, hsame⟩
    · exact Or.inr hheard
  · by_cases hdue : 30 ≤ s.clock - s.lastPingCheck
    · exact absurd hlast (lastPingCheck_ne hi hdue)
    · rw [checkTimeouts_of_not_due hdue] at hc
      exact Or.inl ⟨c, hc, hpc, rfl, rfl⟩
  · rw [acceptClient] at hc
    split_ifs at hc
    · exact Or.inl ⟨c, hc, hpc, rfl, rfl⟩
    · by_cases hq : s.nextClient = q
      · subst hq
        obtain rfl := Option.some.inj ((OrdMap.get?_insert_self _ _ _).symm.trans hc)
        exact Or.inr ⟨rfl, rfl⟩
      · exact Or.inl ⟨c, (OrdMap.get?_insert_of_ne _ _ hq).symm.trans hc, hpc, rfl, rfl⟩
  · exact Or.inl ⟨c, hc, hpc, rfl, rfl⟩

/-- Receiving octets takes a question back. -/
theorem ne_receive (hc : t.heap.get? q = some c) (hping : c.pingSent = true) (data : Str) :
    t ≠ (s.receive q data).2 := by
  rintro rfl
  obtain ⟨d, -, -, -, ⟨-, -, hno⟩ | ⟨hne, -⟩⟩ := get?_receive hc
  · exact absurd (hping.symm.trans hno) (by simp)
  · exact hne rfl

/-- Nothing was received in a step that leaves the question standing. -/
theorem unheard_of_kept (hstep : Step M s t) (hd : s.heap.get? q = some d) (hc : t.heap.get? q = some c)
    (hlast : c.lastActivity = d.lastActivity) (hping : c.pingSent = true) : Unheard M q s t := by
  refine ⟨hstep, ne_receive hc hping, ?_⟩
  rw [deref_of_get? hd, deref_of_get? hc]
  exact hlast

/-- **What is known of a client by the checks so far**: if it was not asked, none of them found it
idle for long, and if it was, by one of them, and silent since. -/
structure Timeline (M : Matcher) (s : Server) (checks : List Time) : Prop where
  check_le : ∀ k ∈ checks, k ≤ s.clock
  idle : ∀ q c, s.heap.get? q = some c → c.pendingClose = false → c.pingSent = false →
    ∀ k ∈ checks, k ≤ c.lastActivity + PING_INTERVAL
  asked : ∀ q c, s.heap.get? q = some c → c.pendingClose = false → c.pingSent = true →
    ∃ u later earlier, checks = later ++ u.clock :: earlier ∧ Timed M u earlier ∧ Pinged M u s q ∧
      (∀ k ∈ earlier, k ≤ c.lastActivity + PING_INTERVAL) ∧ ∀ k ∈ later, u.clock ≤ k

omit [Libcpp] in
theorem le_add_interval {k now : Time} (h : k ≤ now) : k ≤ now + PING_INTERVAL :=
  h.trans (Int.le_add_of_nonneg_right (by decide))

/-- A step between two checks. -/
theorem Timeline.step (h : Timeline M s checks) (hi : s.Inv) (hstep : Step M s t)
    (hlast : t.lastPingCheck = s.lastPingCheck) (hclock : s.clock ≤ t.clock) : Timeline M t checks where
  check_le k hk := (h.check_le k hk).trans hclock
  idle q c hc hpc hping k hk := by
    rcases kept_step hi hstep hlast hc hpc with ⟨d, hd, hpd, hact, hsame⟩ | ⟨hact, -⟩
    · rw [hact]
      exact h.idle q d hd hpd (hsame.symm.trans hping) k hk
    · rw [hact]
      exact le_add_interval (h.check_le k hk)
  asked q c hc hpc hping := by
    rcases kept_step hi hstep hlast hc hpc with ⟨d, hd, hpd, hact, hsame⟩ | ⟨-, hno⟩
    · obtain ⟨u, later, earlier, heq, hu, ⟨hpings, hsince⟩, hearlier, hlater⟩ :=
        h.asked q d hd hpd (hsame.symm.trans hping)
      exact ⟨u, later, earlier, heq, hu, ⟨hpings, hsince.tail (unheard_of_kept hstep hd hc hact hping)⟩,
        hact ▸ hearlier, hlater⟩
    · exact absurd (hping.symm.trans hno) (by simp)

/-- A check that is due. -/
theorem Timeline.check (h : Timeline M s checks) (hrun : Timed M s checks)
    (hdue : 30 ≤ s.clock - s.lastPingCheck) : Timeline M s.checkTimeouts (s.clock :: checks) := by
  have hi := hrun.inv
  obtain ⟨hclock, -⟩ := clock_checkTimeouts hi hdue
  have hle : ∀ k ∈ s.clock :: checks, k ≤ s.clock := fun k hk =>
    (List.mem_cons.mp hk).elim (fun heq => heq.le) (h.check_le k)
  refine ⟨fun k hk => (hle k hk).trans hclock.ge, fun q c hc hpc hping k hk => ?_,
    fun q c hc hpc hping => ?_⟩
  · obtain ⟨d, hd, hpd, ⟨-, -, -, hyes, -⟩ | ⟨hidle, hact, hsame⟩ | ⟨hact, -⟩⟩ :=
      cases_checkTimeouts hi hdue hc hpc
    · exact absurd (hyes.symm.trans hping) (by simp)
    · rw [hact]
      rcases List.mem_cons.mp hk with rfl | hk
      · exact hidle (hsame.symm.trans hping)
      · exact h.idle q d hd hpd (hsame.symm.trans hping) k hk
    · rw [hact]
      exact le_add_interval (hle k hk)
  · obtain ⟨d, hd, hpd, ⟨hno, -, hact, -, htold⟩ | ⟨-, hact, hsame⟩ | ⟨-, hno⟩⟩ :=
      cases_checkTimeouts hi hdue hc hpc
    · exact ⟨s, [], checks, rfl, hrun, ⟨⟨⟨d, hd, hpd, hno⟩, ⟨c, hc, hpc, hping⟩, htold⟩, .refl⟩,
        hact ▸ h.idle q d hd hpd hno, fun _ hk => absurd hk List.not_mem_nil⟩
    · obtain ⟨u, later, earlier, heq, hu, ⟨hpings, hsince⟩, hearlier, hlater⟩ :=
        h.asked q d hd hpd (hsame.symm.trans hping)
      have hasked : u.clock ≤ s.clock :=
        h.check_le _ (heq ▸ List.mem_append_right _ List.mem_cons_self)
      refine ⟨u, s.clock :: later, earlier, congrArg _ heq, hu,
        ⟨hpings, hsince.tail (unheard_of_kept (.checkTimeouts s) hd hc hact hping)⟩, hact ▸ hearlier,
        fun k hk => ?_⟩
      exact (List.mem_cons.mp hk).elim (fun heq => heq ▸ hasked) (hlater k)
    · exact absurd (hping.symm.trans hno) (by simp)

/-- **Every run has its timeline.** -/
theorem Timed.timeline (h : Timed M s checks) : Timeline M s checks := by
  induction h with
  | start => exact ⟨by simp, by simp [started], by simp [started]⟩
  | check hrun hdue ih => exact ih.check hrun hdue
  | step hrun hstep hlast hclock ih => exact ih.step hrun.inv hstep hlast hclock

/-! ### The grace -/

/-- Who is dropped was asked. -/
theorem TimesOut.client (hi : s.Inv) (h : s.TimesOut p fd) :
    ∃ c, s.heap.get? p = some c ∧ c.pendingClose = false ∧ c.pingSent = true := by
  obtain ⟨-, hp, hlate⟩ := h
  obtain ⟨c, hc, rfl⟩ := hi.table.heap_of_clients fd p hp
  have hallowed : (Op.pingCheck s.clock).Allowed s := trivial
  have hi₀ : ({ s with lastPingCheck := s.clock } : Server).Inv := hi.run hallowed
  cases checked_checkTimeouts hi₀ s.clock hc with
  | late hpc hping => exact ⟨c, hc, hpc, hping⟩
  | closing _ hnot => exact absurd hlate hnot
  | full _ _ hnot => exact absurd hlate hnot
  | asked _ _ _ _ hnot => exact absurd hlate hnot
  | spared _ _ hnot => exact absurd hlate hnot

/-- Who was asked had been idle for long by then, and is since. -/
theorem Pinged.idle (hi : u.Inv) (h : Pinged M u s p) :
    (s.deref p).lastActivity + PING_INTERVAL < u.clock := by
  obtain ⟨⟨⟨d, hd, hpd, hno⟩, ⟨c, hc, hpc, hyes⟩, -⟩, hsince⟩ := h
  have hdue : 30 ≤ u.clock - u.lastPingCheck := by
    by_contra hdue
    rw [checkTimeouts_of_not_due hdue] at hc
    obtain rfl := Option.some.inj (hd.symm.trans hc)
    exact absurd (hno.symm.trans hyes) (by simp)
  have hsame : (s.deref p).lastActivity = (u.checkTimeouts.deref p).lastActivity := by
    induction hsince with
    | refl => rfl
    | tail _ hstep ih => exact hstep.2.2.trans ih
  rw [hsame, deref_of_get? hc]
  obtain ⟨d', hd', -, ⟨-, hidle, hact, -⟩ | ⟨-, -, hkept⟩ | ⟨-, hnot⟩⟩ := cases_checkTimeouts hi hdue hc hpc
  · rwa [hact]
  · obtain rfl := Option.some.inj (hd.symm.trans hd')
    exact absurd (hyes.symm.trans (hkept.trans hno)) (by simp)
  · exact absurd (hyes.symm.trans hnot) (by simp)

/-- **Whoever is dropped was asked**, after the last that was heard of it; and it had the time that
is advertised exactly if some check, so long ago, found it idle for long already. -/
theorem Timed.grace (h : Timed M s checks) (hout : s.TimesOut p fd) :
    (∃ u later earlier, checks = later ++ u.clock :: earlier ∧ Timed M u earlier ∧ Pinged M u s p) ∧
      (Grace M checks s p ↔
        ∃ k ∈ checks, (s.deref p).lastActivity + PING_INTERVAL < k ∧ k + PING_TIMEOUT ≤ s.clock) := by
  obtain ⟨c, hc, hpc, hping⟩ := hout.client h.inv
  obtain ⟨u, later, earlier, heq, hu, hpinged, hearlier, hlater⟩ := h.timeline.asked p c hc hpc hping
  refine ⟨⟨u, later, earlier, heq, hu, hpinged⟩, ?_, ?_⟩
  · rintro ⟨v, later', earlier', heq', hv, hpinged', hgrace⟩
    refine ⟨v.clock, heq' ▸ List.mem_append_right _ List.mem_cons_self, hpinged'.idle hv.inv, hgrace⟩
  · rintro ⟨k, hk, hidle, hgrace⟩
    rw [deref_of_get? hc] at hidle
    -- the check that found it idle is none of those before it was asked
    have hle : u.clock ≤ k := by
      rw [heq] at hk
      rcases List.mem_append.mp hk with hk | hk
      · exact hlater k hk
      rcases List.mem_cons.mp hk with rfl | hk
      · exact le_refl _
      · exact absurd (hearlier k hk) (not_le.mpr hidle)
    exact ⟨u, later, earlier, heq, hu, hpinged, (Int.add_le_add_right hle _).trans hgrace⟩

/-! ### Two runs -/

/-- A client arrived when the clock was at nought. -/
def arrived : Server := (started (str "secret") 30 0 []).acceptClient 4 (inetNtoa 127 0 0 1)

/-- A check was made at one time, and the next one may come at another. -/
def waited (asked now : Time) : Server :=
  { ({ arrived with clock := asked } : Server).checkTimeouts with clock := now }

theorem timed_waited {asked now : Time} (hasked : 30 ≤ asked) (hnow : asked ≤ now) :
    Timed M (waited asked now) [asked] := by
  have hstart := Timed.start (M := M) (str "secret") 30 0 []
  have harrived : Timed M arrived [] := .step hstart (.accept _ 4 127 0 0 1 rfl) rfl (le_refl _)
  have hclock : Timed M { arrived with clock := asked } [] :=
    .step harrived (.clock arrived asked) rfl ((by decide : (0 : ℤ) ≤ 30).trans hasked)
  have hdue : 30 ≤ ({ arrived with clock := asked } : Server).clock - arrived.lastPingCheck := by
    change 30 ≤ asked - 0
    rwa [Int.sub_zero]
  refine .step (.check hclock hdue) (.clock _ now) rfl ?_
  rw [(clock_checkTimeouts hclock.inv hdue).1]
  exact hnow

section Rehearsed

omit [Libcpp]

set_option maxRecDepth 4000 in
/-- Asked after 151 seconds, and dropped 120 seconds later. -/
theorem grace_waited : letI := referenceLibcpp
    Grace rehearsalMatcher [151] (waited 151 271) 0 := by
  let _ := referenceLibcpp
  have hout : (waited 151 271).TimesOut 0 4 := ⟨by decide, by decide, by decide⟩
  exact ((timed_waited (by decide) (by decide)).grace hout).2.mpr
    ⟨151, List.mem_singleton_self _, by decide, by decide⟩

set_option maxRecDepth 4000 in
/-- **A check that comes late asks late**, and the next one drops the client all the same: after 90
seconds. -/
theorem not_grace : letI := referenceLibcpp
    ¬∀ (M : Matcher) (s : Server) (checks : List Time) (p : ClientId) (fd : Fd), Timed M s checks →
      s.TimesOut p fd → Grace M checks s p := by
  let _ := referenceLibcpp
  intro h
  have hout : (waited 151 241).TimesOut 0 4 := ⟨by decide, by decide, by decide⟩
  obtain ⟨u, later, earlier, heq, -, -, hgrace⟩ :=
    h rehearsalMatcher _ _ 0 4 (timed_waited (by decide) (by decide)) hout
  have hmem : u.clock ∈ [(151 : Time)] := heq ▸ List.mem_append_right _ List.mem_cons_self
  rw [List.mem_singleton.mp hmem] at hgrace
  exact absurd hgrace (by decide)

end Rehearsed

end Server

end FtIrc
