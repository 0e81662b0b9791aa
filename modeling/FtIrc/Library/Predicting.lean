import FtIrc.Library.Pattern

/-!
# Searches that the next symbol decides

A pattern that cannot begin with the next symbol matches nothing there
(`FtIrc.Pattern.eval_of_stuck`). So a run of symbols is taken whole when what is to come has no
use for such a symbol (`FtIrc.Pattern.eval_run`), or when what is to come succeeds behind the whole run
(`FtIrc.Pattern.eval_run_eq_some`). A search through patterns that are told apart like that goes one way only.
-/

namespace FtIrc

namespace Pattern

variable {α S K C : Type} {mem : S → α → Bool} {N : Notes α K C} {p a b : Pattern S K} {least count : ℕ} {most : Option ℕ}
  {κ : List α → Option C} {w : List α}

/-- Whether a pattern can begin with a symbol. -/
def starts (mem : S → α → Bool) : Pattern S K → α → Bool
  | symbol s, c => mem s c
  | seq a b, c => a.starts mem c || (a.nullable && b.starts mem c)
  | alt a b, c => a.starts mem c || b.starts mem c
  | rep _ _ a, c => a.starts mem c
  | capture _ a, c => a.starts mem c
  | _, _ => false

/-- A pattern cannot begin with what comes next. -/
def Stuck (mem : S → α → Bool) (p : Pattern S K) (w : List α) : Prop := ∀ c ∈ w.head?, p.starts mem c = false

theorem stuck_nil : Stuck mem p [] := fun _ hc => by cases hc

theorem stuck_cons {c : α} : Stuck mem p (c :: w) ↔ p.starts mem c = false :=
  ⟨fun h => h c rfl, fun h d hd => by rwa [← Option.some.inj hd]⟩

theorem Stuck.left (h : Stuck mem (seq a b) w) : Stuck mem a w := fun c hc => (Bool.or_eq_false_iff.mp (h c hc)).1

theorem Stuck.right (h : Stuck mem (seq a b) w) (hnull : a.nullable = true) : Stuck mem b w := by
  intro c hc
  have hright := (Bool.or_eq_false_iff.mp (h c hc)).2
  rwa [hnull, Bool.true_and] at hright

/-- **Nothing is found** where a pattern is stuck, unless it can match nothing and what is to come is found there. -/
theorem eval_of_stuck (h : Stuck mem p w) (hκ : p.nullable = true → κ w = none) : p.eval mem N κ w = none := by
  induction p generalizing κ with
  | empty => exact hκ rfl
  | never => rfl
  | symbol s =>
    rcases w with _ | ⟨c, w⟩
    · rfl
    · rw [eval, if_neg]
      exact Bool.eq_false_iff.mp (stuck_cons.mp h)
  | seq a b iha ihb =>
    rw [eval]
    refine iha h.left fun hnull => ihb (h.right hnull) fun hnull' => hκ ?_
    rw [nullable, hnull, hnull']
    rfl
  | alt a b iha ihb =>
    have hboth : Stuck mem a w ∧ Stuck mem b w :=
      ⟨fun c hc => (Bool.or_eq_false_iff.mp (h c hc)).1, fun c hc => (Bool.or_eq_false_iff.mp (h c hc)).2⟩
    rw [eval, iha hboth.1 fun hnull => hκ (by rw [nullable, hnull, Bool.true_or]),
      ihb hboth.2 fun hnull => hκ (by rw [nullable, hnull, Bool.or_true])]
    rfl
  | rep least most a ih =>
    rw [eval_rep, turns_eq]
    have hbody : a.eval mem N (fun rest => if rest.length = w.length then if least ≤ 0 + 1 then κ rest else none
        else turns mem N a least most κ (0 + 1) rest) w = none := by
      refine ih h fun hnull => ?_
      rw [if_pos rfl, hκ (by rw [nullable, hnull, Bool.or_true]), ite_self]
    rw [hbody, ite_self, Option.none_or]
    split_ifs with hleast
    · refine hκ ?_
      rw [nullable, Nat.le_zero.mp hleast]
      rfl
    · rfl
  | capture k a ih =>
    rw [eval, ih h fun hnull => ?_]
    · rfl
    · rw [hκ hnull]
      rfl

/-- So with the turns of a repetition. -/
theorem turns_of_stuck (h : Stuck mem a w) (hnull : a.nullable = false) (hκ : κ w = none) :
    turns mem N a least most κ count w = none := by
  rw [turns_of_steady (.inl hnull), eval_of_stuck h fun h => absurd (hnull.symm.trans h) Bool.false_ne_true, hκ, ite_self, ite_self]
  rfl

/-- A repetition that is stuck is left. -/
theorem turns_eq_of_stuck (h : Stuck mem a w) (hnull : a.nullable = false) :
    turns mem N a least most κ count w = if least ≤ count then κ w else none := by
  rw [turns_of_steady (.inl hnull), eval_of_stuck h fun h => absurd (hnull.symm.trans h) Bool.false_ne_true, ite_self, Option.none_or]

/-- **An option** is tried first, and left out then. -/
theorem eval_option : (rep 0 (some 1) a).eval mem N κ w = (a.eval mem N κ w).or (κ w) := by
  have hsteady : Steady 0 (some 1) a := .inr ⟨1, rfl, le_rfl, Nat.zero_le _⟩
  have hone : ∀ w, turns mem N a 0 (some 1) κ 1 w = κ w := by
    intro w
    rw [turns_of_steady hsteady, if_neg fun h => absurd (h 1 rfl) (lt_irrefl 1), if_pos (Nat.zero_le _), Option.none_or]
  rw [eval_rep, turns_of_steady hsteady, if_pos, if_pos le_rfl]
  · rw [show turns mem N a 0 (some 1) κ (0 + 1) = κ from funext hone]
  · rintro n ⟨⟩
    exact Nat.zero_lt_one

section Runs

variable (hp : p.isSymbol = true)
include hp

/-- What is to come has no use for symbols of a run. -/
theorem turns_run (hκ : ∀ c w, p.accepts mem c = true → κ (c :: w) = none) (hcount : least ≤ count) :
    turns mem N p least none κ count w = κ (w.dropWhile (p.accepts mem)) := by
  induction w generalizing count with
  | nil =>
    rw [turns_of_steady (.inl (nullable_of_isSymbol hp)), eval_nil_of_isSymbol hp, ite_self, Option.none_or, if_pos hcount]
    rfl
  | cons c w ih =>
    rw [turns_of_steady (.inl (nullable_of_isSymbol hp)), eval_cons_of_isSymbol hp, if_pos (by simp), if_pos hcount]
    by_cases hc : p.accepts mem c = true
    · rw [if_pos hc, ih (by omega), hκ c w hc, Option.or_none, List.dropWhile_cons_of_pos hc]
    · rw [if_neg hc, Option.none_or, List.dropWhile_cons_of_neg hc]

/-- **A run of symbols is taken whole**, where what is to come has no use for such a symbol. -/
theorem eval_run (hκ : ∀ c w, p.accepts mem c = true → κ (c :: w) = none) :
    (rep 0 none p).eval mem N κ w = κ (w.dropWhile (p.accepts mem)) := turns_run hp hκ le_rfl

/-- **A run of at least one symbol.** -/
theorem eval_run_one (hκ : ∀ c w, p.accepts mem c = true → κ (c :: w) = none) :
    (rep 1 none p).eval mem N κ w = if ∃ c ∈ w.head?, p.accepts mem c = true then κ (w.dropWhile (p.accepts mem)) else none := by
  rw [eval_rep, turns_of_steady (.inl (nullable_of_isSymbol hp)), if_neg (Nat.not_succ_le_zero 0), Option.or_none, if_pos (by simp)]
  rcases w with _ | ⟨c, w⟩
  · rw [eval_nil_of_isSymbol hp, if_neg]
    rintro ⟨c, ⟨⟩, -⟩
  · rw [eval_cons_of_isSymbol hp]
    by_cases hc : p.accepts mem c = true
    · rw [if_pos hc, if_pos ⟨c, rfl, hc⟩, turns_run hp hκ le_rfl, List.dropWhile_cons_of_pos hc]
    · rw [if_neg hc, if_neg]
      rintro ⟨d, ⟨⟩, hd⟩
      exact hc hd

/-- **A run of symbols is taken whole**, where what is to come succeeds behind it. -/
theorem turns_run_eq_some {x : C} (hcount : least ≤ count) (hx : κ (w.dropWhile (p.accepts mem)) = some x) :
    turns mem N p least none κ count w = some x := by
  induction w generalizing count with
  | nil =>
    rw [turns_of_steady (.inl (nullable_of_isSymbol hp)), eval_nil_of_isSymbol hp, ite_self, Option.none_or, if_pos hcount]
    exact hx
  | cons c w ih =>
    rw [turns_of_steady (.inl (nullable_of_isSymbol hp)), eval_cons_of_isSymbol hp, if_pos (by simp), if_pos hcount]
    by_cases hc : p.accepts mem c = true
    · rw [List.dropWhile_cons_of_pos hc] at hx
      rw [if_pos hc, ih (by omega) hx]
      rfl
    · rw [List.dropWhile_cons_of_neg hc] at hx
      rw [if_neg hc, Option.none_or, hx]

theorem eval_run_eq_some {x : C} (hx : κ (w.dropWhile (p.accepts mem)) = some x) :
    (rep 0 none p).eval mem N κ w = some x := turns_run_eq_some hp le_rfl hx

theorem eval_run_one_eq_some {c : α} {x : C} (hc : p.accepts mem c = true) (hx : κ (w.dropWhile (p.accepts mem)) = some x) :
    (rep 1 none p).eval mem N κ (c :: w) = some x := by
  rw [eval_rep, turns_of_steady (.inl (nullable_of_isSymbol hp)), if_neg (Nat.not_succ_le_zero 0), Option.or_none, if_pos (by simp),
    eval_cons_of_isSymbol hp, if_pos hc, turns_run_eq_some hp le_rfl hx]

end Runs

end Pattern

end FtIrc
