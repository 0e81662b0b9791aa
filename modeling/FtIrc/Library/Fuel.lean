import Mathlib.Data.Nat.Init
import Mathlib.Order.Lattice

/-!
# Computations with fuel

A recursion that may not end is written as a function of fuel, `none` standing for fuel that ran
out. More fuel changes nothing about a result that is there (`FtIrc.Fuel.Steady`), and the
recursion ends if there is one for some fuel (`FtIrc.Fuel.Ends`). Results are compared by
`FtIrc.Fuel.Refines`, which goes through a bind (`FtIrc.Fuel.Refines.bind`), so that a recursion is
seen to be steady by going through its equations once; and what ends can be put together
(`FtIrc.Fuel.Ends.bind`).
-/

namespace FtIrc

namespace Fuel

variable {α β σ : Type} {x y z : Option α} {f f' : ℕ → Option α} {k k' : ℕ}

/-- The second computation has the result of the first, if that has one. -/
def Refines (x y : Option α) : Prop := ∀ a, x = some a → y = some a

theorem Refines.refl (x : Option α) : Refines x x := fun _ h => h

theorem Refines.trans (h : Refines x y) (h' : Refines y z) : Refines x z := fun a ha => h' a (h a ha)

theorem Refines.none (y : Option α) : Refines none y := fun _ h => (nomatch h)

theorem Refines.bind {g g' : α → Option β} (h : Refines x y) (hg : ∀ a, Refines (g a) (g' a)) :
    Refines (x.bind g) (y.bind g') := by
  intro b hb
  obtain ⟨a, ha, hb⟩ := Option.bind_eq_some_iff.mp hb
  rw [h a ha, Option.bind_some]
  exact hg a b hb

theorem Refines.map {g : α → β} (h : Refines x y) : Refines (x.map g) (y.map g) := by
  intro b hb
  obtain ⟨a, ha, rfl⟩ := Option.map_eq_some_iff.mp hb
  rw [h a ha, Option.map_some]

theorem Refines.ite {c : Prop} [Decidable c] {x' y' : Option α} (h : Refines x y) (h' : Refines x' y') :
    Refines (if c then x else x') (if c then y else y') := by
  split
  · exact h
  · exact h'

/-- More fuel changes nothing. -/
def Steady (f : ℕ → Option α) : Prop := ∀ k, Refines (f k) (f (k + 1))

theorem Steady.refines (hf : Steady f) (hk : k ≤ k') : Refines (f k) (f k') := by
  induction k', hk using Nat.le_induction with
  | base => exact .refl _
  | succ k' _ ih => exact ih.trans (hf k')

theorem Steady.eq_some (hf : Steady f) {a : α} (h : f k = some a) (hk : k ≤ k') : f k' = some a :=
  hf.refines hk a h

/-- The fuel does not matter to what comes out. -/
theorem Steady.unique (hf : Steady f) {a b : α} (ha : f k = some a) (hb : f k' = some b) : a = b := by
  rcases le_total k k' with hk | hk
  · exact Option.some.inj ((hf.eq_some ha hk).symm.trans hb)
  · exact Option.some.inj (ha.symm.trans (hf.eq_some hb hk))

/-- Some fuel is enough. -/
def Ends (f : ℕ → Option α) : Prop := ∃ k a, f k = some a

theorem Ends.pure (a : α) : Ends fun _ => some a := ⟨0, a, rfl⟩

/-- One step less. -/
theorem Ends.of_succ (h : Ends fun k => f (k + 1)) : Ends f := by
  obtain ⟨k, a, ha⟩ := h
  exact ⟨k + 1, a, ha⟩

theorem Ends.congr (h : Ends f) (he : ∀ k, f k = f' k) : Ends f' := by
  obtain ⟨k, a, ha⟩ := h
  exact ⟨k, a, (he k).symm.trans ha⟩

theorem Ends.map {g : α → β} (h : Ends f) : Ends fun k => (f k).map g := by
  obtain ⟨k, a, ha⟩ := h
  exact ⟨k, g a, congrArg (Option.map g) ha⟩

/-- **A computation that goes on with what another one found.** -/
theorem Ends.bind {g : α → ℕ → Option β} (hf : Steady f) (hg : ∀ a, Steady (g a)) (h : Ends f)
    (hnext : ∀ a, (∃ k, f k = some a) → Ends (g a)) : Ends fun k => (f k).bind fun a => g a k := by
  obtain ⟨k, a, ha⟩ := h
  obtain ⟨k', b, hb⟩ := hnext a ⟨k, ha⟩
  refine ⟨max k k', b, ?_⟩
  change (f (max k k')).bind _ = some b
  rw [hf.eq_some ha (le_max_left k k'), Option.bind_some]
  exact (hg a).eq_some hb (le_max_right k k')

/-! ### What comes out -/

/-- **With enough fuel**, this comes out. -/
def Gives (f : ℕ → Option α) (a : α) : Prop := ∃ k, f k = some a

theorem Steady.gives_unique (hf : Steady f) {a b : α} (ha : Gives f a) (hb : Gives f b) : a = b := by
  obtain ⟨k, ha⟩ := ha
  obtain ⟨k', hb⟩ := hb
  exact hf.unique ha hb

/-- One step less. -/
theorem gives_succ_iff (hf : Steady f) {a : α} : Gives (fun k => f (k + 1)) a ↔ Gives f a := by
  constructor
  · rintro ⟨k, ha⟩
    exact ⟨k + 1, ha⟩
  · rintro ⟨k, ha⟩
    exact ⟨k, hf k a ha⟩

theorem gives_pure_iff {a b : α} : Gives (fun _ => some a) b ↔ a = b :=
  ⟨fun ⟨_, h⟩ => Option.some.inj h, fun h => ⟨0, congrArg some h⟩⟩

theorem gives_map_iff {g : α → β} {b : β} : Gives (fun k => (f k).map g) b ↔ ∃ a, Gives f a ∧ g a = b := by
  constructor
  · rintro ⟨k, h⟩
    obtain ⟨a, ha, hb⟩ := Option.map_eq_some_iff.mp h
    exact ⟨a, ⟨k, ha⟩, hb⟩
  · rintro ⟨a, ⟨k, ha⟩, rfl⟩
    exact ⟨k, congrArg (Option.map g) ha⟩

/-- **One computation goes on with what another one found.** -/
theorem gives_bind_iff {g : α → ℕ → Option β} (hf : Steady f) (hg : ∀ a, Steady (g a)) {b : β} :
    Gives (fun k => (f k).bind fun a => g a k) b ↔ ∃ a, Gives f a ∧ Gives (g a) b := by
  constructor
  · rintro ⟨k, h⟩
    obtain ⟨a, ha, hb⟩ := Option.bind_eq_some_iff.mp h
    exact ⟨a, ⟨k, ha⟩, k, hb⟩
  · rintro ⟨a, ⟨k, ha⟩, k', hb⟩
    refine ⟨max k k', ?_⟩
    change (f (max k k')).bind _ = some b
    rw [hf.eq_some ha (le_max_left k k'), Option.bind_some]
    exact (hg a).eq_some hb (le_max_right k k')

/-! ### Loops -/

/-- A loop that stops as soon as its body says so. -/
def firstOf (body : α → σ → Option (Bool × σ)) (stop : Bool × σ → Bool) : List α → σ → Option (Bool × σ)
  | [], s => some (false, s)
  | a :: as, s => (body a s).bind fun r => if stop r then some r else firstOf body stop as r.2

theorem Refines.firstOf {body body' : α → σ → Option (Bool × σ)} {stop : Bool × σ → Bool}
    (h : ∀ a s, Refines (body a s) (body' a s)) (as : List α) (s : σ) :
    Refines (firstOf body stop as s) (Fuel.firstOf body' stop as s) := by
  induction as generalizing s with
  | nil => exact .refl _
  | cons a as ih => exact (h a s).bind fun r => .ite (.refl _) (ih r.2)

/-- A loop ends if its body does, wherever it is. -/
theorem Ends.firstOf {body : ℕ → α → σ → Option (Bool × σ)} {stop : Bool × σ → Bool}
    (hsteady : ∀ a s, Steady fun k => body k a s) {as : List α} (h : ∀ a ∈ as, ∀ s, Ends fun k => body k a s)
    (s : σ) : Ends fun k => Fuel.firstOf (body k) stop as s := by
  induction as generalizing s with
  | nil => exact .pure _
  | cons a as ih =>
    have hrest := ih fun a' ha' => h a' (List.mem_cons_of_mem a ha')
    refine Ends.bind (hsteady a s) (fun r k => ?_) (h a List.mem_cons_self s) fun r _ => ?_
    · exact .ite (.refl _) (Refines.firstOf (fun a s => hsteady a s k) as r.2)
    · by_cases hstop : stop r = true
      · simp only [hstop, if_true]
        exact .pure r
      · simp only [hstop]
        exact hrest r.2

/-- What the body keeps, the loop keeps. -/
theorem firstOf_keeps {P : σ → Prop} {body : α → σ → Option (Bool × σ)} {stop : Bool × σ → Bool} {as : List α}
    (hbody : ∀ a ∈ as, ∀ s r, P s → body a s = some r → P r.2) {s : σ} (hs : P s) {r : Bool × σ}
    (h : firstOf body stop as s = some r) : P r.2 := by
  induction as generalizing s with
  | nil =>
    obtain rfl := Option.some.inj h
    exact hs
  | cons a as ih =>
    obtain ⟨r', hr', h⟩ := Option.bind_eq_some_iff.mp h
    have hkept := hbody a List.mem_cons_self s r' hs hr'
    split_ifs at h
    · obtain rfl := Option.some.inj h
      exact hkept
    · exact ih (fun a' ha' => hbody a' (List.mem_cons_of_mem a ha')) hkept h

end Fuel

end FtIrc
