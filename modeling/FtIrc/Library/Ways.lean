import FtIrc.Library.Fuel
import Mathlib.Data.List.Forall2

/-!
# Ways that are tried one after another

A way of going on from a state may succeed or fail, and leaves another state behind
(`FtIrc.Ways.Way`). Several ways are tried until one succeeds (`FtIrc.Ways.first`). Ways are compared
up to a relation between states that says which differences do not matter
(`FtIrc.Ways.Within`); trying several ways goes along with that (`FtIrc.Ways.within_first`), and a
way that leaves nothing behind when it fails need not be tried again
(`FtIrc.Ways.Repeatable.once`).
-/

namespace FtIrc

namespace Ways

/-- A way of going on from a state: what it may come to, and in which state. -/
abbrev Way (σ : Type) := σ → Bool × σ → Prop

variable {σ ι : Type} {W W' : Way σ} {Ws Vs : List (Way σ)} {s s' : σ} {r r' : Bool × σ}

/-- **The first way that succeeds is gone.** -/
inductive first : List (Way σ) → Way σ
  | none {s : σ} : first [] s (false, s)
  | hit {W : Way σ} {Ws : List (Way σ)} {s : σ} {r : Bool × σ} : W s r → r.1 = true → first (W :: Ws) s r
  | miss {W : Way σ} {Ws : List (Way σ)} {s : σ} {r r' : Bool × σ} :
      W s r → r.1 = false → first Ws r.2 r' → first (W :: Ws) s r'

theorem first_append : first (Ws ++ Vs) s r ↔
    (first Ws s r ∧ r.1 = true) ∨ ∃ r', first Ws s r' ∧ r'.1 = false ∧ first Vs r'.2 r := by
  induction Ws generalizing s with
  | nil =>
    constructor
    · exact fun h => .inr ⟨_, .none, rfl, h⟩
    · rintro (⟨h, hr⟩ | ⟨r', h, -, hrest⟩)
      · cases h
        exact nomatch hr
      · cases h
        exact hrest
  | cons W Ws ih =>
    rw [List.cons_append]
    constructor
    · intro h
      cases h with
      | hit hW hr => exact .inl ⟨.hit hW hr, hr⟩
      | miss hW hr hrest =>
        rcases ih.mp hrest with ⟨h, htrue⟩ | ⟨r', h, hfalse, hVs⟩
        · exact .inl ⟨.miss hW hr h, htrue⟩
        · exact .inr ⟨r', .miss hW hr h, hfalse, hVs⟩
    · rintro (⟨h, htrue⟩ | ⟨r', h, hfalse, hVs⟩)
      · cases h with
        | hit hW hr => exact .hit hW hr
        | miss hW hr hrest => exact .miss hW hr (ih.mpr (.inl ⟨hrest, htrue⟩))
      · cases h with
        | hit _ hr => exact absurd hr (by simp [hfalse])
        | miss hW hr hrest => exact .miss hW hr (ih.mpr (.inr ⟨r', hrest, hfalse, hVs⟩))

/-- One way is its own first. -/
theorem first_singleton (W : Way σ) : first [W] = W := by
  funext s r
  refine propext ⟨fun h => ?_, fun hW => ?_⟩
  · cases h with
    | hit hW _ => exact hW
    | @miss _ _ _ r₁ _ hW hr hrest =>
      cases hrest
      rwa [← hr]
  · cases hr : r.1 with
    | true => exact .hit hW hr
    | false =>
      obtain ⟨b, s₁⟩ := r
      obtain rfl : b = false := hr
      exact .miss hW rfl .none

/-- Groups of ways are tried as the ways in them. -/
theorem first_flatten (Ls : List (List (Way σ))) : first (Ls.map first) = first Ls.flatten := by
  funext s r
  refine propext ?_
  induction Ls generalizing s with
  | nil => rfl
  | cons L Ls ih =>
    rw [List.map_cons, List.flatten_cons, first_append]
    constructor
    · intro h
      cases h with
      | hit hL hr => exact .inl ⟨hL, hr⟩
      | miss hL hr hrest => exact .inr ⟨_, hL, hr, (ih _).mp hrest⟩
    · rintro (⟨hL, hr⟩ | ⟨r', hL, hr, hrest⟩)
      · exact .hit hL hr
      · exact .miss hL hr ((ih _).mpr hrest)

/-- Two groups of ways, one after the other. -/
theorem first_pair (Ws Vs : List (Way σ)) : first [first Ws, first Vs] = first (Ws ++ Vs) := by
  have hflat := first_flatten [Ws, Vs]
  rwa [List.flatten_cons, List.flatten_cons, List.flatten_nil, List.append_nil] at hflat

/-! ### Loops -/

section Loops

open Fuel

variable {stop : Bool × σ → Bool} {fit : σ → Prop} (hstop : ∀ r, fit r.2 → stop r = r.1)
include hstop

/-- A loop that stops where its body succeeds goes the first way that does. -/
theorem first_of_firstOf {body : ι → σ → Option (Bool × σ)} {go : ι → Way σ}
    (hgo : ∀ i s r, body i s = some r → go i s r) (hfit : ∀ i s r, fit s → go i s r → fit r.2) {is : List ι}
    (hs : fit s) (h : firstOf body stop is s = some r) : first (is.map go) s r := by
  induction is generalizing s with
  | nil =>
    obtain rfl := Option.some.inj h
    exact .none
  | cons i is ih =>
    obtain ⟨r₁, hbody, h⟩ := Option.bind_eq_some_iff.mp h
    have hbody := hgo i s r₁ hbody
    have hfit₁ := hfit i s r₁ hs hbody
    rw [hstop r₁ hfit₁] at h
    cases hr : r₁.1 with
    | true =>
      rw [hr, if_pos rfl] at h
      obtain rfl := Option.some.inj h
      exact .hit hbody hr
    | false =>
      rw [hr, if_neg Bool.false_ne_true] at h
      exact .miss hbody hr (ih hfit₁ h)

/-- The first way that succeeds is where the loop stops. -/
theorem gives_firstOf {body : ℕ → ι → σ → Option (Bool × σ)} (hsteady : ∀ i s, Steady fun k => body k i s)
    (hfit : ∀ i s r, fit s → Gives (fun k => body k i s) r → fit r.2) {is : List ι} (hs : fit s)
    (h : first (is.map fun i s r => Gives (fun k => body k i s) r) s r) :
    Gives (fun k => firstOf (body k) stop is s) r := by
  induction is generalizing s with
  | nil =>
    cases h
    exact gives_pure_iff.mpr rfl
  | cons i is ih =>
    have hnext : ∀ r₁ : Bool × σ, Steady fun k => if stop r₁ then some r₁ else firstOf (body k) stop is r₁.2 :=
      fun r₁ k => .ite (.refl _) (Refines.firstOf (fun i s => hsteady i s k) is r₁.2)
    refine (gives_bind_iff (hsteady i s) hnext).mpr ?_
    cases h with
    | hit hbody hr =>
      refine ⟨r, hbody, ?_⟩
      simp only [hstop r (hfit i s r hs hbody), hr, if_true]
      exact gives_pure_iff.mpr rfl
    | @miss _ _ _ r₁ _ hbody hr hrest =>
      refine ⟨r₁, hbody, ?_⟩
      simp only [hstop r₁ (hfit i s r₁ hs hbody), hr, Bool.false_eq_true, if_false]
      exact ih (hfit i s r₁ hs hbody) hrest

end Loops

/-! ### Ways up to what does not matter -/

variable {same : σ → σ → Prop}

/-- **One way goes where another one goes**, from states and to states that are the same. -/
def Within (same : σ → σ → Prop) (W W' : Way σ) : Prop :=
  ∀ s s' r, same s s' → W s r → ∃ r', W' s' r' ∧ r.1 = r'.1 ∧ same r.2 r'.2

theorem Within.go (h : Within same W W') (hs : same s s') (hW : W s r) :
    ∃ r', W' s' r' ∧ r.1 = r'.1 ∧ same r.2 r'.2 := h s s' r hs hW

/-- Two ways are equal. -/
structure Equal (same : σ → σ → Prop) (W W' : Way σ) : Prop where
  within : Within same W W'
  converse : Within same W' W

theorem Equal.symm (h : Equal same W W') : Equal same W' W := ⟨h.converse, h.within⟩

theorem Within.trans {W'' : Way σ} (htrans : ∀ {s s' s''}, same s s' → same s' s'' → same s s'')
    (hrefl : ∀ {s s'}, same s s' → same s' s') (h : Within same W W') (h' : Within same W' W'') :
    Within same W W'' := by
  intro s s' r hs hW
  obtain ⟨r₁, hW', hbool, hsame⟩ := h.go hs hW
  obtain ⟨r₂, hW'', hbool', hsame'⟩ := h'.go (hrefl hs) hW'
  exact ⟨r₂, hW'', hbool.trans hbool', htrans hsame hsame'⟩

theorem Equal.trans {W'' : Way σ} (htrans : ∀ {s s' s''}, same s s' → same s' s'' → same s s'')
    (hsymm : ∀ {s s'}, same s s' → same s' s) (h : Equal same W W') (h' : Equal same W' W'') : Equal same W W'' := by
  have hrefl : ∀ {s s'}, same s s' → same s' s' := fun hs => htrans (hsymm hs) hs
  exact ⟨h.within.trans htrans hrefl h'.within, h'.converse.trans htrans hrefl h.converse⟩

/-- Several ways are tried where others are, if each goes where the other one does. -/
theorem within_first (h : List.Forall₂ (Within same) Ws Vs) : Within same (first Ws) (first Vs) := by
  intro s s' r hs hfirst
  induction h generalizing s s' with
  | nil =>
    cases hfirst
    exact ⟨_, .none, rfl, hs⟩
  | cons hW _ ih =>
    cases hfirst with
    | hit hgo hr =>
      obtain ⟨r', hgo', hbool, hsame⟩ := hW.go hs hgo
      exact ⟨r', .hit hgo' (hbool ▸ hr), hbool, hsame⟩
    | miss hgo hr hrest =>
      obtain ⟨r₁, hgo', hbool, hsame⟩ := hW.go hs hgo
      obtain ⟨r', hrest', hbool', hsame'⟩ := ih _ _ hsame hrest
      exact ⟨r', .miss hgo' (hbool ▸ hr) hrest', hbool', hsame'⟩

theorem equal_first (h : List.Forall₂ (Equal same) Ws Vs) : Equal same (first Ws) (first Vs) :=
  ⟨within_first (h.imp fun _ _ hW => hW.within), within_first (List.Forall₂.flip (h.imp fun _ _ hW => hW.converse))⟩

/-- A way is tried so often where another one is. -/
theorem equal_copies (n : ℕ) (h : 0 < n → Equal same W W') :
    Equal same (first (List.replicate n W)) (first (List.replicate n W')) := by
  refine equal_first ?_
  induction n with
  | zero => exact .nil
  | succ n ih => exact .cons (h n.succ_pos) (ih fun _ => h n.succ_pos)

/-! ### Ways that need not be tried again -/

/-- What is needed of ways so that none of them need be tried twice: states that are the same are
so to all of them, a way comes to one result, and nothing is left behind where it fails. -/
structure Repeatable (same : σ → σ → Prop) (kept : σ → Prop) (way : ι → Way σ) : Prop where
  symm : ∀ {s s'}, same s s' → same s' s
  trans : ∀ {s s' s''}, same s s' → same s' s'' → same s s''
  keeps : ∀ {s s'}, same s s' → kept s → kept s'
  within : ∀ i, Within same (way i) (way i)
  unique : ∀ {i s r r'}, way i s r → way i s r' → r = r'
  back : ∀ {i s r}, kept s → same s s → way i s r → r.1 = false → same s r.2

variable [BEq ι] [LawfulBEq ι] {kept : σ → Prop} {way : ι → Way σ} {i : ι} {is : List ι} {failed : Bool × σ}
  {s₁ s₂ : σ}

/-- A way that has failed may be left out. -/
theorem Repeatable.leave (h : Repeatable same kept way) (hfailed : way i s failed) (hfalse : failed.1 = false)
    (hkept : kept s) (hs₁ : same s s₁) (hs₂ : same s s₂) (hfirst : first (is.map way) s₁ r) :
    ∃ r', first ((is.filter fun j => !j == i).map way) s₂ r' ∧ r.1 = r'.1 ∧ same r.2 r'.2 := by
  have hback : ∀ {j t r}, same s t → way j t r → r.1 = false → same s r.2 := fun ht hgo hr =>
    h.trans ht (h.back (h.keeps ht hkept) (h.trans (h.symm ht) ht) hgo hr)
  induction is generalizing s₁ s₂ with
  | nil =>
    cases hfirst
    exact ⟨_, .none, rfl, h.trans (h.symm hs₁) hs₂⟩
  | cons j is ih =>
    by_cases hj : j = i
    · subst hj
      rw [List.filter_cons_of_neg (by simp)]
      cases hfirst with
      | hit hgo hr =>
        obtain ⟨r', hgo', hbool, -⟩ := (h.within j).go (h.symm hs₁) hgo
        rw [h.unique hgo' hfailed, hr, hfalse] at hbool
        exact nomatch hbool
      | miss hgo hr hrest => exact ih (hback hs₁ hgo hr) hs₂ hrest
    · rw [List.filter_cons_of_pos (by simpa using hj)]
      cases hfirst with
      | hit hgo hr =>
        obtain ⟨r', hgo', hbool, hsame⟩ := (h.within j).go (h.trans (h.symm hs₁) hs₂) hgo
        exact ⟨r', .hit hgo' (hbool ▸ hr), hbool, hsame⟩
      | miss hgo hr hrest =>
        obtain ⟨r₁, hgo', hbool, -⟩ := (h.within j).go (h.trans (h.symm hs₁) hs₂) hgo
        obtain ⟨r', hrest', hbool', hsame⟩ := ih (hback hs₁ hgo hr) (hback hs₂ hgo' (hbool ▸ hr)) hrest
        exact ⟨r', .miss hgo' (hbool ▸ hr) hrest', hbool', hsame⟩

/-- A way that has failed may be put in. -/
theorem Repeatable.putIn (h : Repeatable same kept way) (hfailed : way i s failed) (hfalse : failed.1 = false)
    (hkept : kept s) (hs₁ : same s s₁) (hs₂ : same s s₂)
    (hfirst : first ((is.filter fun j => !j == i).map way) s₁ r) :
    ∃ r', first (is.map way) s₂ r' ∧ r.1 = r'.1 ∧ same r.2 r'.2 := by
  have hback : ∀ {j t r}, same s t → way j t r → r.1 = false → same s r.2 := fun ht hgo hr =>
    h.trans ht (h.back (h.keeps ht hkept) (h.trans (h.symm ht) ht) hgo hr)
  induction is generalizing s₁ s₂ with
  | nil =>
    cases hfirst
    exact ⟨_, .none, rfl, h.trans (h.symm hs₁) hs₂⟩
  | cons j is ih =>
    by_cases hj : j = i
    · subst hj
      rw [List.filter_cons_of_neg (by simp)] at hfirst
      obtain ⟨r₁, hgo, hbool, -⟩ := (h.within j).go hs₂ hfailed
      have hr₁ : r₁.1 = false := hbool ▸ hfalse
      obtain ⟨r', hrest, hbool', hsame⟩ := ih hs₁ (hback hs₂ hgo hr₁) hfirst
      exact ⟨r', .miss hgo hr₁ hrest, hbool', hsame⟩
    · rw [List.filter_cons_of_pos (by simpa using hj)] at hfirst
      cases hfirst with
      | hit hgo hr =>
        obtain ⟨r', hgo', hbool, hsame⟩ := (h.within j).go (h.trans (h.symm hs₁) hs₂) hgo
        exact ⟨r', .hit hgo' (hbool ▸ hr), hbool, hsame⟩
      | miss hgo hr hrest =>
        obtain ⟨r₁, hgo', hbool, -⟩ := (h.within j).go (h.trans (h.symm hs₁) hs₂) hgo
        obtain ⟨r', hrest', hbool', hsame⟩ := ih (hback hs₁ hgo hr) (hback hs₂ hgo' (hbool ▸ hr)) hrest
        exact ⟨r', .miss hgo' (hbool ▸ hr) hrest', hbool', hsame⟩

/-- **Ways need not be tried again.** -/
theorem Repeatable.once (h : Repeatable same kept way) (hkept : kept s) (hs : same s s')
    (hfirst : first (is.map way) s r) :
    ∃ r', first (is.eraseDups.map way) s' r' ∧ r.1 = r'.1 ∧ same r.2 r'.2 := by
  induction hn : is.length using Nat.strong_induction_on generalizing is s s' r with
  | _ n ih =>
    rcases is with _ | ⟨i, is⟩
    · cases hfirst
      exact ⟨_, .none, rfl, hs⟩
    rw [List.eraseDups_cons]
    cases hfirst with
    | hit hgo hr =>
      obtain ⟨r', hgo', hbool, hsame⟩ := (h.within i).go hs hgo
      exact ⟨r', .hit hgo' (hbool ▸ hr), hbool, hsame⟩
    | @miss _ _ _ r₁ _ hgo hr hrest =>
      have hback := h.back hkept (h.trans hs (h.symm hs)) hgo hr
      obtain ⟨r₂, hleft, hbool, hsame⟩ := h.leave hgo hr hkept hback hback hrest
      obtain ⟨r₁', hgo', hbool', hsame'⟩ := (h.within i).go hs hgo
      have hlt : (is.filter fun j => !j == i).length < n := by
        have hle := List.length_filter_le (fun j => !j == i) is
        rw [List.length_cons] at hn
        omega
      obtain ⟨r', hrest', hbool'', hsame''⟩ := ih _ hlt (h.keeps hback hkept) hsame' hleft rfl
      exact ⟨r', .miss hgo' (hbool' ▸ hr) hrest', hbool.trans hbool'', h.trans hsame hsame''⟩

/-- Ways may be tried again. -/
theorem Repeatable.again (h : Repeatable same kept way) (hkept : kept s) (hs : same s s')
    (hfirst : first (is.eraseDups.map way) s r) :
    ∃ r', first (is.map way) s' r' ∧ r.1 = r'.1 ∧ same r.2 r'.2 := by
  induction hn : is.length using Nat.strong_induction_on generalizing is s s' r with
  | _ n ih =>
    rcases is with _ | ⟨i, is⟩
    · cases hfirst
      exact ⟨_, .none, rfl, hs⟩
    rw [List.eraseDups_cons] at hfirst
    cases hfirst with
    | hit hgo hr =>
      obtain ⟨r', hgo', hbool, hsame⟩ := (h.within i).go hs hgo
      exact ⟨r', .hit hgo' (hbool ▸ hr), hbool, hsame⟩
    | @miss _ _ _ r₁ _ hgo hr hrest =>
      have hback := h.back hkept (h.trans hs (h.symm hs)) hgo hr
      obtain ⟨r₁', hgo', hbool', hsame'⟩ := (h.within i).go hs hgo
      have hlt : (is.filter fun j => !j == i).length < n := by
        have hle := List.length_filter_le (fun j => !j == i) is
        rw [List.length_cons] at hn
        omega
      obtain ⟨r₂, hleft, hbool, hsame⟩ := ih _ hlt (h.keeps hback hkept) (h.trans (h.symm hback) hback) hrest rfl
      obtain ⟨r', hrest', hbool'', hsame''⟩ := h.putIn hgo hr hkept hback (h.trans hback hsame') hleft
      exact ⟨r', .miss hgo' (hbool' ▸ hr) hrest', hbool.trans hbool'', h.trans hsame hsame''⟩

end Ways

end FtIrc
