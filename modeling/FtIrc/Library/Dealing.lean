import Mathlib.Data.List.ReduceOption
import Mathlib.Tactic.Common

/-!
# Dealing things out along a row

Things are dealt out to the people in a row, from the front. Some must have one, some
may have one, and some want none (`FtIrc.Need`). Whoever must have one takes the next, if
there is any left; whoever may have one takes it only if more are left than the people
behind must have (`FtIrc.dealt`), so that nobody who must have one is robbed.

Who gets one can be said without going along the row (`FtIrc.Dealing`): **if there are
enough, everybody who must have one does, and of those who may have one, as many from the
front as there are things to spare; if there are not, those who must have one get one
from the front until there are none left**, and nobody else gets any
(`FtIrc.dealing_dealt`).
-/

namespace FtIrc

/-- Whether somebody wants one of the things that are dealt out. -/
inductive Need
  | none
  | may
  | must
  deriving DecidableEq

variable {α β : Type*} (need : α → Need)

/-- How many of a row must have one. -/
def owed (row : List α) : ℕ := row.countP fun a => decide (need a = .must)

/-- How many of a row may have one. -/
def hoping (row : List α) : ℕ := row.countP fun a => decide (need a = .may)

/-- Whether the first of a row takes a thing, so many being left. -/
def takes (a : α) (row : List α) (left : ℕ) : Prop :=
  need a = .must ∨ (need a = .may ∧ owed need row < left)

instance (a : α) (row : List α) (left : ℕ) : Decidable (takes need a row left) :=
  inferInstanceAs (Decidable (_ ∨ _))

/-- **What everybody in a row gets.** -/
def dealt : List α → List β → List (Option β)
  | [], _ => []
  | a :: row, things =>
    if takes need a row things.length then things.head? :: dealt row things.tail
    else .none :: dealt row things

/-- One at a place of the row got something. -/
def Got (got : List (Option β)) (i : ℕ) : Prop := ∃ x, got[i]? = some (some x)

/-- **A fair way to deal things out.** -/
structure Dealing (row : List α) (things : List β) (got : List (Option β)) : Prop where
  length_eq : got.length = row.length
  /-- The things are given away in their order, from the front. -/
  inOrder : got.reduceOption <+: things
  /-- There are enough. -/
  enough : owed need row ≤ things.length → ∀ i a, row[i]? = some a →
    (Got got i ↔ need a = .must ∨
      (need a = .may ∧ hoping need (row.take i) < things.length - owed need row))
  /-- There are not. -/
  short : things.length < owed need row → ∀ i a, row[i]? = some a →
    (Got got i ↔ need a = .must ∧ owed need (row.take i) < things.length)

variable {need} {a : α} {row : List α} {x : β} {things : List β} {got : List (Option β)}

@[simp] theorem owed_nil : owed need [] = 0 := rfl

@[simp] theorem hoping_nil : hoping need [] = 0 := rfl

theorem owed_cons : owed need (a :: row) = owed need row + if need a = .must then 1 else 0 := by
  simp [owed, List.countP_cons]

theorem hoping_cons : hoping need (a :: row) = hoping need row + if need a = .may then 1 else 0 := by
  simp [hoping, List.countP_cons]

theorem got_cons_zero {y : Option β} : Got (y :: got) 0 ↔ y.isSome := by
  simp [Got, Option.isSome_iff_exists]

theorem got_cons_succ {y : Option β} {i : ℕ} : Got (y :: got) (i + 1) ↔ Got got i := by
  simp [Got]

/-- There is nothing to deal out. -/
theorem not_got_dealt_nil (i : ℕ) : ¬Got (dealt need row ([] : List β)) i := by
  induction row generalizing i with
  | nil => simp [dealt, Got]
  | cons a row ih =>
    rw [dealt, List.head?_nil, List.tail_nil, ite_self]
    cases i with
    | zero => simp [Got]
    | succ i => exact fun h => ih i (got_cons_succ.mp h)

/-- **Somebody takes the first thing**, and the rest is dealt out to those behind. -/
theorem Dealing.takes (h : Dealing need row things got) (htakes : takes need a row (things.length + 1)) :
    Dealing need (a :: row) (x :: things) (some x :: got) where
  length_eq := by rw [List.length_cons, h.length_eq, List.length_cons]
  inOrder := by
    rw [List.reduceOption_cons_of_some]
    exact List.cons_prefix_cons.mpr ⟨rfl, h.inOrder⟩
  enough henough i b hb := by
    rw [owed_cons, List.length_cons] at henough ⊢
    cases i with
    | zero =>
      obtain rfl : a = b := by simpa using hb
      rw [got_cons_zero, List.take_zero, hoping_nil]
      simp only [Option.isSome_some, true_iff]
      refine htakes.imp_right fun hmay => ⟨hmay.1, ?_⟩
      rw [if_neg (by simp [hmay.1])]
      omega
    | succ i =>
      have hrest : owed need row ≤ things.length := by
        rcases htakes with hmust | ⟨hmay, hleft⟩
        · rw [if_pos hmust] at henough
          omega
        · omega
      rw [got_cons_succ, List.take_succ_cons, hoping_cons, h.enough hrest i b (by simpa using hb)]
      refine or_congr_right (and_congr_right fun _ => ?_)
      rcases htakes with hmust | ⟨hmay, -⟩
      · rw [if_pos hmust, if_neg (by simp [hmust])]
        omega
      · rw [if_pos hmay, if_neg (by simp [hmay])]
        omega
  short hshort i b hb := by
    rw [owed_cons, List.length_cons] at hshort
    -- with too few left, only those who must have one take one
    have hmust : need a = .must := by
      rcases htakes with hmust | ⟨hmay, hleft⟩
      · exact hmust
      · rw [if_neg (by simp [hmay])] at hshort
        omega
    rw [if_pos hmust] at hshort
    cases i with
    | zero =>
      obtain rfl : a = b := by simpa using hb
      rw [got_cons_zero, List.take_zero, owed_nil, List.length_cons]
      simp [hmust]
    | succ i =>
      rw [got_cons_succ, List.take_succ_cons, owed_cons, if_pos hmust, List.length_cons,
        h.short (by omega) i b (by simpa using hb)]
      exact and_congr_right fun _ => by omega

/-- **Somebody takes nothing**, since nothing is left or none is wanted, or too few are
left for those behind. -/
theorem Dealing.passes (h : Dealing need row things got)
    (hpass : need a = .must → things = []) (hfew : need a = .may → things.length ≤ owed need row)
    (hnone : things = [] → ∀ i, ¬Got got i) :
    Dealing need (a :: row) things (none :: got) where
  length_eq := by rw [List.length_cons, h.length_eq, List.length_cons]
  inOrder := by
    rw [List.reduceOption_cons_of_none]
    exact h.inOrder
  enough henough i b hb := by
    rw [owed_cons] at henough ⊢
    have hno : need a ≠ .must := by
      rintro hmust
      rw [if_pos hmust, hpass hmust, List.length_nil] at henough
      omega
    rw [if_neg hno] at henough ⊢
    cases i with
    | zero =>
      obtain rfl : a = b := by simpa using hb
      rw [got_cons_zero, List.take_zero, hoping_nil]
      simp only [Option.isSome_none, Bool.false_eq_true, false_iff]
      rintro (hmust | ⟨hmay, hleft⟩)
      · exact hno hmust
      · have := hfew hmay
        omega
    | succ i =>
      rw [got_cons_succ, List.take_succ_cons, hoping_cons, h.enough (by omega) i b (by simpa using hb)]
      refine or_congr_right (and_congr_right fun _ => ?_)
      split_ifs with hmay
      · have := hfew hmay
        omega
      · rfl
  short hshort i b hb := by
    rw [owed_cons] at hshort
    by_cases hmust : need a = .must
    · obtain rfl := hpass hmust
      constructor
      · intro hgot
        cases i with
        | zero => exact absurd (got_cons_zero.mp hgot) (by simp)
        | succ i => exact absurd (got_cons_succ.mp hgot) (hnone rfl i)
      · rintro ⟨-, hlt⟩
        exact absurd hlt (Nat.not_lt_zero _)
    · rw [if_neg hmust] at hshort
      cases i with
      | zero =>
        obtain rfl : a = b := by simpa using hb
        rw [got_cons_zero]
        simp [hmust]
      | succ i =>
        rw [got_cons_succ, List.take_succ_cons, owed_cons, if_neg hmust]
        exact h.short hshort i b (by simpa using hb)

/-- **The rule that is followed along the row is fair.** -/
theorem dealing_dealt (need : α → Need) (row : List α) (things : List β) :
    Dealing need row things (dealt need row things) := by
  induction row generalizing things with
  | nil => exact ⟨rfl, List.nil_prefix, by simp, by simp⟩
  | cons a row ih =>
    rw [dealt]
    split_ifs with htakes
    · rcases things with _ | ⟨x, things⟩
      · refine (ih []).passes (fun _ => rfl) (fun _ => Nat.zero_le _) fun _ => not_got_dealt_nil
      · exact (ih things).takes htakes
    · rw [FtIrc.takes, not_or, not_and, Nat.not_lt] at htakes
      exact (ih things).passes (fun hmust => absurd hmust htakes.1) htakes.2
        fun hnil => hnil ▸ not_got_dealt_nil

end FtIrc
