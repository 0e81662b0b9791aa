import Mathlib.Tactic.Common

/-!
# Guarded operations

A machine given by its operations: what each of them does to a state, and in
which states it may be done. A program on such a machine is understood through
the sequences of allowed operations it amounts to, `FtIrc.Guarded.Runs`, taken
from a set of operations that may depend on who is running the program.

Three rules are all that is used of a sequence:

* what every allowed operation preserves, a sequence preserves
  (`FtIrc.Guarded.Runs.invariant`);
* what every allowed operation relates, in a reflexive and transitive way, the
  ends of a sequence are related by (`FtIrc.Guarded.Runs.relates`);
* a loop whose body is a sequence of operations is one
  (`FtIrc.Guarded.Runs.foldl`).
-/

namespace FtIrc

/-- A state machine given by guarded operations. -/
structure Guarded (σ ο : Type) where
  /-- What an operation does. -/
  run : ο → σ → σ
  /-- In which states it may be done. -/
  allowed : ο → σ → Prop

namespace Guarded

variable {σ ο α : Type} {M : Guarded σ ο} {P Q : ο → Prop}

/-- **A sequence of allowed operations**, all of them from the set `P`. -/
inductive Runs (M : Guarded σ ο) (P : ο → Prop) : σ → σ → Prop
  /-- Nothing is done. -/
  | refl (s : σ) : Runs M P s s
  /-- One more operation is done. -/
  | tail {s t : σ} {o : ο} : Runs M P s t → P o → M.allowed o t → Runs M P s (M.run o t)

namespace Runs

theorem single {s : σ} {o : ο} (hP : P o) (h : M.allowed o s) : M.Runs P s (M.run o s) :=
  tail (refl s) hP h

theorem trans {s t u : σ} (h : M.Runs P s t) (h' : M.Runs P t u) : M.Runs P s u := by
  induction h' with
  | refl => exact h
  | tail _ hP ho ih => exact tail ih hP ho

theorem mono (hPQ : ∀ o, P o → Q o) {s t : σ} (h : M.Runs P s t) : M.Runs Q s t := by
  induction h with
  | refl => exact refl _
  | tail _ hP ho ih => exact tail ih (hPQ _ hP) ho

/-- **What every operation preserves, a sequence preserves.** -/
theorem invariant {I : σ → Prop} (hI : ∀ o s, P o → M.allowed o s → I s → I (M.run o s))
    {s t : σ} (h : M.Runs P s t) (hs : I s) : I t := by
  induction h with
  | refl => exact hs
  | tail _ hP ho ih => exact hI _ _ hP ho ih

/-- **What every operation relates, a sequence relates**, when the relation is
reflexive and transitive; the operations may be taken to start in states with a
property that they preserve. -/
theorem relates {I : σ → Prop} {R : σ → σ → Prop} (hrefl : ∀ s, R s s)
    (htrans : ∀ s t u, R s t → R t u → R s u)
    (hI : ∀ o s, P o → M.allowed o s → I s → I (M.run o s))
    (hR : ∀ o s, P o → M.allowed o s → I s → R s (M.run o s))
    {s t : σ} (h : M.Runs P s t) (hs : I s) : R s t := by
  induction h with
  | refl => exact hrefl _
  | tail hrun hP ho ih => exact htrans _ _ _ ih (hR _ _ hP ho (hrun.invariant hI hs))

/-- **A loop is a sequence** when each round is one, from every state the
invariant of the loop holds in, and keeps that invariant. -/
theorem foldl {β : Type} {J : β → Prop} {g : β → σ} {f : β → α → β} (l : List α)
    (hf : ∀ b, J b → ∀ a ∈ l, M.Runs P (g b) (g (f b a)) ∧ J (f b a)) {b : β} (hb : J b) :
    M.Runs P (g b) (g (l.foldl f b)) ∧ J (l.foldl f b) := by
  induction l generalizing b with
  | nil => exact ⟨refl _, hb⟩
  | cons a l ih =>
    obtain ⟨hrun, hJ⟩ := hf b hb a List.mem_cons_self
    obtain ⟨hrun', hJ'⟩ := ih (fun b hb a ha => hf b hb a (List.mem_cons_of_mem _ ha)) hJ
    exact ⟨hrun.trans hrun', hJ'⟩

end Runs

end Guarded

end FtIrc
