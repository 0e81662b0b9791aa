import Mathlib.Logic.Relation
import FtIrc.Server.Rights

/-!
# Runs of the event loop

`Server::run` as a transition system. A `FtIrc.Loop` is the server together with
what the current batch of reports is about: the interests the last wait was for and
the descriptors reported so far. Two things are assumed of the kernel: it reports
input and output only where they were asked for, errors and hang-ups always, and it
reports a descriptor at most once in a batch (`FtIrc.Loop.Step.event`); and it does
not hand out a descriptor that is in use (`FtIrc.Loop.Step.accept`).

Every run of the loop is a run of the steps of `FtIrc.Server.Step`
(`FtIrc.Loop.Reachable.server`), so that all that is known of the reachable states
is known of the states of the loop. What the loop adds is that a client about to
close is not asked for input any more, and none of its lines is dispatched.
-/

namespace FtIrc

open Abnf

variable [Libcpp]

/-- What was reported on a descriptor was asked for. -/
def Server.Readiness.Requested (asked : OrdMap Fd Interest) (r : Server.Readiness) : Prop :=
  (r.input.isSome = true → ∃ i, asked.get? r.fd = some i ∧ i.input = true) ∧
    (r.output.isSome = true → ∃ i, asked.get? r.fd = some i ∧ i.output = true)

/-- The sweeps after a batch; the clock is read three times. -/
def Server.swept (t₁ t₂ t₃ : Time) (s : Server) : Server :=
  let s := ({ s with clock := t₁ } : Server).checkTimeouts
  let s := ({ s with clock := t₂ } : Server).checkPendingCloseTimeouts
  ({ s with clock := t₃ } : Server).tick

/-- What the loop does after a batch. -/
def Server.afterEvents (t₁ t₂ t₃ : Time) (s : Server) : Server :=
  (s.swept t₁ t₂ t₃).updateInterests

/-- The server in the middle of a batch. -/
structure Loop where
  server : Server
  /-- The interests of the wait that reported the batch. -/
  asked : OrdMap Fd Interest := OrdMap.empty
  /-- The descriptors reported so far. -/
  seen : Finset Fd := ∅

namespace Loop

open Server

variable {M : Matcher} {l l' : Loop} {p q : ClientId} {fd : Fd}

/-- **The steps of the event loop.** -/
inductive Step (M : Matcher) : Loop → Loop → Prop
  | accept (l : Loop) (fd : Fd) (a b c d : Octet) : l.server.clients.get? fd = none →
      Step M l { l with server := l.server.acceptClient fd (inetNtoa a b c d) }
  | event (l : Loop) (r : Readiness) : r.fd ∉ l.seen → r.Requested l.asked →
      Step M l { l with server := l.server.handleEvent M r, seen := insert r.fd l.seen }
  | clock (l : Loop) (now : Time) : Step M l { l with server := { l.server with clock := now } }
  | pass (l : Loop) (t₁ t₂ t₃ : Time) :
      Step M l { server := l.server.afterEvents t₁ t₂ t₃
                 asked := (l.server.afterEvents t₁ t₂ t₃).epollMask }

/-- **The states of the loop**, of a server with any password, any deadline and any
further extensions. -/
inductive Reachable (M : Matcher) : Loop → Prop
  | start (password : Str) (pendingCloseTimeout now : Time) (reentrant : List Str) :
      Reachable M { server := started password pendingCloseTimeout now reentrant }
  | step {l l' : Loop} : Reachable M l → Step M l l' → Reachable M l'

/-- A client about to close has been dealt with in this batch, or input was not asked
for. -/
def Quiet (l : Loop) : Prop :=
  ∀ fd q, l.server.clients.get? fd = some q → (l.server.deref q).pendingClose = true →
    fd ∈ l.seen ∨ ∀ i, l.asked.get? fd = some i → i.input = false

end Loop

namespace Server

open Relation

variable {M : Matcher} {s t : Server} {p q : ClientId} {fd : Fd}

/-! ### A report, in steps -/

/-- A sequence of what happens on one connection is safe. -/
theorem runs_of_acts (hi : s.Inv) (h : ReflTransGen (Acts M p) s t) :
    serverMachine.Runs (Op.Within (· = p)) s t := by
  induction h with
  | refl => exact .refl s
  | tail _ hacts ih => exact ih.trans (hacts.runs (hi.runs ih))

/-- The lines of a client, one after the other; if the loop comes to its end, the
client is still there. -/
theorem acts_handleLines (hi : s.Inv) (hp : s.Live p) {lines : List Str}
    (hlines : ∀ raw ∈ lines, OneLine raw) :
    ReflTransGen (Acts M p) s (handleLines M (s.deref p).fd p s lines).1 ∧
      ((handleLines M (s.deref p).fd p s lines).2 = true →
        (handleLines M (s.deref p).fd p s lines).1.clients.get? (s.deref p).fd = some p) := by
  induction lines generalizing s with
  | nil => exact ⟨.refl, fun _ => hp.1⟩
  | cons raw rest ih =>
    obtain ⟨hraw, hrest⟩ := List.forall_mem_cons.mp hlines
    have hone : Acts M p s (s.handleMessage M p raw) := .line s raw hp hraw
    rcases hq : (s.handleMessage M p raw).clients.get? (s.deref p).fd with _ | q
    · simpa [handleLines, hq] using ReflTransGen.single hone
    rcases hpc : ((s.handleMessage M p raw).deref q).pendingClose
    · obtain ⟨rfl, hlive, hfd⟩ := live_handleMessage hi hp hraw hq hpc
      rw [handleLines_cons hq hpc]
      obtain ⟨hacts, hend⟩ := ih (hi.runs (hone.runs hi)) hlive hrest
      exact hfd ▸ ⟨.head hone hacts, hend⟩
    · simpa [handleLines, hq, hpc] using ReflTransGen.single hone

/-- Octets received from a client that is not about to close. -/
theorem acts_handleClientInput (hi : s.Inv) (hp : s.clients.get? fd = some p)
    (hpc : (s.deref p).pendingClose = false) (got : Received) :
    ReflTransGen (Acts M p) s (s.handleClientInput M fd got) := by
  simp only [handleClientInput, hp]
  rcases got with data | _ | _
  · have hfirst : Acts M p s (s.receive p data).2 := .receive s data
    have hi' := hi.runs (hfirst.runs hi)
    obtain ⟨hclients, hpc'⟩ := kept_runs (W := fun _ => False)
      (within_of_sweep (runs_receive (s := s) (p := p) data)) hi id hp
    have hlive : (s.receive p data).2.Live p := ⟨hi'.table.clients_fd hclients,
      (hi'.settled p _ (hi'.table.get? hclients)).symm.trans (hpc'.trans hpc)⟩
    have hlines : ∀ raw ∈ (s.receive p data).1, OneLine raw := by
      intro raw hraw
      rw [receive] at hraw
      exact oneLine_drainLines hraw
    obtain ⟨hacts, hend⟩ := acts_handleLines (M := M) hi' hlive hlines
    rw [hi'.table.fd_eq hclients] at hacts hend
    dsimp only
    generalize handleLines M fd p (s.receive p data).2 (s.receive p data).1 = r at hacts hend ⊢
    obtain ⟨u, _ | _⟩ := r
    · exact .head hfirst hacts
    · dsimp only
      split_ifs with hov
      · exact .tail (.head hfirst hacts) (.disconnectNow u fd _ (hend rfl) (by decide) hov)
      · exact .head hfirst hacts
  · exact .single (.disconnect s fd _ hp (by decide))
  · exact .refl

/-- **A report on the descriptor of a client** is a sequence of what happens on its
connection. -/
theorem acts_handleEvent (hi : s.Inv) {r : Readiness} (hp : s.clients.get? r.fd = some p)
    (hpc : r.input.isSome = true → (s.deref p).pendingClose = false) :
    ReflTransGen (Acts M p) s (s.handleEvent M r) := by
  have hthen : ∀ {u : Server} {f : Server → Server}, ReflTransGen (Acts M p) s u →
      (u.clients.get? r.fd = some p → Acts M p u (f u)) →
      (u.clients.get? r.fd = none → f u = u) → ReflTransGen (Acts M p) s (f u) := by
    intro u f hu hsome hnone
    rcases hq : u.clients.get? r.fd with _ | q
    · rw [hnone hq]
      exact hu
    · obtain rfl : p = q := Option.some.inj (hp.symm.trans (clients_of_runs (runs_of_acts hi hu) hq))
      exact hu.tail (hsome hq)
  have hhangup : ∀ v, ReflTransGen (Acts M p) s v →
      ReflTransGen (Acts M p) s (if r.hangup then v.handleHangup r.fd else v) := by
    intro v hv
    split_ifs
    · exact hthen (f := fun v => v.handleHangup r.fd) hv (fun hq => .hangup v r.fd hq)
        fun hq => by simp only [handleHangup, hq]
    · exact hv
  have houtput : ∀ u sent, ReflTransGen (Acts M p) s u →
      ReflTransGen (Acts M p) s (u.handleClientOutput r.fd sent) := fun u sent hu =>
    hthen (f := fun u => u.handleClientOutput r.fd sent) hu (fun hq => .output u r.fd sent hq)
      fun hq => by simp only [handleClientOutput, hq]
  have hinput : ∀ got, r.input = some got →
      ReflTransGen (Acts M p) s (s.handleClientInput M r.fd got) := fun got hin =>
    acts_handleClientInput hi hp (hpc (by rw [hin]; rfl)) got
  rw [handleEvent, OrdMap.contains_iff.mpr ⟨p, hp⟩]
  simp only [Bool.not_true, Bool.false_eq_true, if_false]
  rcases hin : r.input with _ | got <;> rcases r.output with _ | sent
  · exact hhangup s .refl
  · exact hhangup _ (houtput s sent .refl)
  · exact hhangup _ (hinput got hin)
  · exact hhangup _ (houtput _ sent (hinput got hin))

/-! ### After a batch -/

/-- The interests of the next wait: no input from a client about to close. -/
theorem epollMask_updateInterests (ht : s.Table) (hp : s.clients.get? fd = some p) :
    s.updateInterests.epollMask.get? fd =
      some ⟨!(s.deref p).pendingClose, Libcpp.hasPending (s.deref p).io⟩ := by
  have hfold : ∀ (ps : List ClientId) (u : Server), u.heap = s.heap → (∀ q ∈ ps, ∃ fd',
      s.clients.get? fd' = some q) → p ∈ ps ∨ u.epollMask.get? fd =
        some ⟨!(s.deref p).pendingClose, Libcpp.hasPending (s.deref p).io⟩ →
      (ps.foldl updateEpollInterest u).epollMask.get? fd =
        some ⟨!(s.deref p).pendingClose, Libcpp.hasPending (s.deref p).io⟩ := by
    intro ps
    induction ps with
    | nil => exact fun u _ _ h => h.resolve_left List.not_mem_nil
    | cons q ps ih =>
      intro u hheap hps h
      obtain ⟨⟨fd', hq⟩, hps'⟩ := List.forall_mem_cons.mp hps
      refine ih _ hheap hps' ?_
      have hderef : u.deref q = s.deref q := by rw [deref, deref, hheap]
      by_cases hqp : q = p
      · refine Or.inr ?_
        rw [updateEpollInterest, hderef, hqp, ht.fd_eq hp]
        exact OrdMap.get?_insert_self _ _ _
      · refine h.imp (fun hmem => (List.mem_cons.mp hmem).resolve_left (Ne.symm hqp)) fun hmask => ?_
        have hne : (s.deref q).fd ≠ fd := fun hcon => by
          rw [ht.fd_eq hq] at hcon
          exact hqp (Option.some.inj ((hcon ▸ hq).symm.trans hp))
        rw [updateEpollInterest, hderef]
        exact (OrdMap.get?_insert_of_ne _ _ hne).trans hmask
  exact hfold s.clients.values s rfl (fun q hq => OrdMap.mem_values.mp hq)
    (Or.inl (OrdMap.mem_values.mpr ⟨fd, hp⟩))

/-- Setting the interests touches nothing else. -/
theorem updateInterests_eq : s.updateInterests = { s with epollMask := s.updateInterests.epollMask } := by
  have hfold : ∀ (ps : List ClientId) (u : Server), ps.foldl updateEpollInterest u =
      { u with epollMask := (ps.foldl updateEpollInterest u).epollMask } := by
    intro ps
    induction ps with
    | nil => exact fun _ => rfl
    | cons q ps ih => exact fun u => (ih (u.updateEpollInterest q)).trans rfl
  exact hfold s.clients.values s

theorem Reachable.swept (h : Reachable M s) (t₁ t₂ t₃ : Time) : Reachable M (s.swept t₁ t₂ t₃) :=
  .step (.step (.step (.step (.step (.step h (.clock _ t₁)) (.checkTimeouts _)) (.clock _ t₂))
    (.checkPendingCloseTimeouts _)) (.clock _ t₃)) (.tick _)

/-- A client just accepted is not about to close, and the others are as they were. -/
theorem pendingClose_acceptClient (_ht : s.Table) {fd' : Fd} {hostname : Str}
    (hq : (s.acceptClient fd hostname).clients.get? fd' = some q)
    (hpc : ((s.acceptClient fd hostname).deref q).pendingClose = true) :
    s.clients.get? fd' = some q ∧ (s.deref q).pendingClose = true := by
  rw [acceptClient] at hq hpc
  split_ifs at hq hpc
  · exact ⟨hq, hpc⟩
  have hq' : (s.clients.insert fd s.nextClient).get? fd' = some q := hq
  have hget : (s.heap.insert s.nextClient (Client.new fd hostname s.clock)).get? q =
      if s.nextClient = q then some (Client.new fd hostname s.clock) else s.heap.get? q :=
    OrdMap.get?_insert _ _ _ _
  have hpc' : (((s.heap.insert s.nextClient (Client.new fd hostname s.clock)).get? q).getD
      default).pendingClose = true := hpc
  rw [hget] at hpc'
  split_ifs at hpc' with hn
  · exact absurd hpc' Bool.false_ne_true
  rw [OrdMap.get?_insert] at hq'
  split_ifs at hq' with hfd
  · exact absurd (Option.some.inj hq') hn
  · exact ⟨hq', hpc'⟩

end Server

namespace Loop

open Server

variable {M : Matcher} {l l' : Loop} {p q : ClientId} {fd : Fd}

/-- A report on a client that is asked for nothing while it is about to close. -/
theorem Quiet.pendingClose_eq_false (h : l.Quiet) {r : Readiness} (hseen : r.fd ∉ l.seen)
    (hreq : r.Requested l.asked) (hp : l.server.clients.get? r.fd = some p)
    (hin : r.input.isSome = true) : (l.server.deref p).pendingClose = false := by
  obtain ⟨i, hi, hinput⟩ := hreq.1 hin
  refine Bool.not_eq_true _ ▸ fun hpc => ?_
  rcases h r.fd p hp hpc with hs | hoff
  · exact hseen hs
  · exact absurd (hinput.symm.trans (hoff i hi)) (by decide)

/-- **A step of the loop** is a sequence of steps of the server, and after it, as before
it, no client about to close is waiting to be heard. -/
theorem Step.reachable (h : Step M l l') (hs : Server.Reachable M l.server) (hquiet : l.Quiet) :
    Server.Reachable M l'.server ∧ l'.Quiet := by
  have hi := hs.inv
  cases h with
  | accept fd a b c d hfd =>
    refine ⟨.step hs (.accept _ fd a b c d hfd), fun fd' q hq hpc => ?_⟩
    obtain ⟨hq', hpc'⟩ := pendingClose_acceptClient hi.table hq hpc
    exact hquiet fd' q hq' hpc'
  | event r hseen hreq =>
    rcases hp : l.server.clients.get? r.fd with _ | p
    · have hsame : l.server.handleEvent M r = l.server := by
        rw [handleEvent, OrdMap.contains_eq_false.mpr hp]
        rfl
      rw [hsame]
      exact ⟨hs, fun fd q hq hpc => (hquiet fd q hq hpc).imp_left (Finset.mem_insert_of_mem)⟩
    have hacts := acts_handleEvent (M := M) hi hp (hquiet.pendingClose_eq_false hseen hreq hp)
    have hruns := runs_of_acts hi hacts
    refine ⟨?_, fun fd q hq hpc => ?_⟩
    · clear hruns
      generalize l.server.handleEvent M r = t at hacts
      induction hacts with
      | refl => exact hs
      | tail _ hone ih => exact .step ih (.client p hone)
    · have hq' := clients_of_runs hruns hq
      by_cases hfd : fd = r.fd
      · exact Or.inl (hfd ▸ Finset.mem_insert_self _ _)
      · have hqp : q ≠ p := fun hcon => hfd (by
          rw [← hi.table.fd_eq hq', hcon, hi.table.fd_eq hp])
        refine (hquiet fd q hq' ?_).imp_left Finset.mem_insert_of_mem
        exact (kept_runs hruns hi hqp hq').2.symm.trans hpc
  | clock now => exact ⟨.step hs (.clock _ now), hquiet⟩
  | pass t₁ t₂ t₃ =>
    have hswept := hs.swept t₁ t₂ t₃
    refine ⟨.step hswept (.updateInterests _), fun fd q hq hpc => Or.inr fun i hi => ?_⟩
    rw [afterEvents, updateInterests_eq] at hq hpc
    have hmask := epollMask_updateInterests hswept.inv.table hq
    have hpc' : ((l.server.swept t₁ t₂ t₃).deref q).pendingClose = true := hpc
    rw [hpc'] at hmask
    exact Option.some.inj (hmask.symm.trans hi) ▸ rfl

/-- **The loop refines the steps of the server**: every state of the loop is a reachable
one, and quiet. -/
theorem Reachable.server (h : Reachable M l) : Server.Reachable M l.server ∧ l.Quiet := by
  induction h with
  | start password pendingCloseTimeout now reentrant =>
    refine ⟨.start .., fun fd q hq => ?_⟩
    exact absurd hq (by simp [started])
  | step _ hstep ih => exact hstep.reachable ih.1 ih.2

end Loop

end FtIrc
