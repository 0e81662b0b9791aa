import FtIrc.Library.Unrolling

/-!
# Searches that miss nothing

A search through a pattern succeeds on a text of the pattern and a rest that what follows succeeds on
(`FtIrc.Pattern.found_eval`). Only a repetition may miss some: an iteration that matches nothing is the
last one, also where more of them must be. So none is missed if a body that may match nothing is not
asked for twice (`FtIrc.Pattern.Unhindered`).
-/

namespace FtIrc

namespace Pattern

open scoped Computability

variable {α S K C : Type} {mem : S → α → Bool} {N : Notes α K C} {w : List α} {κ : List α → Option C}

/-- The texts on which a search succeeds. -/
def found (κ : List α → Option C) : Language α := {w | (κ w).isSome = true}

theorem mem_found : w ∈ found κ ↔ (κ w).isSome = true := Iff.rfl

/-- **No body that may match nothing must be matched twice.** -/
def Unhindered (p : Pattern S K) : Prop := p.Every fun
  | rep least _ a => a.nullable = false ∨ least ≤ 1
  | _ => True

theorem nil_mem_language {p : Pattern S K} (h : [] ∈ p.language mem) : p.nullable = true := by
  induction p with
  | empty => rfl
  | never => exact absurd h (Language.notMem_zero _)
  | symbol s =>
    obtain ⟨c, -, hc⟩ := h
    cases hc
  | seq a b iha ihb =>
    obtain ⟨u, hu, v, hv, huv⟩ := Language.mem_mul.mp h
    obtain ⟨rfl, rfl⟩ := List.append_eq_nil_iff.mp huv
    exact Bool.and_eq_true_iff.mpr ⟨iha hu, ihb hv⟩
  | alt a b iha ihb =>
    refine Bool.or_eq_true_iff.mpr ?_
    exact ((Language.mem_add _ _ _).mp h).imp iha ihb
  | rep least most a ih =>
    obtain ⟨n, hn, -, hw⟩ := h
    refine Bool.or_eq_true_iff.mpr ?_
    rcases n with _ | n
    · exact .inl (decide_eq_true (Nat.le_zero.mp hn))
    · rw [pow_succ'] at hw
      obtain ⟨u, hu, v, -, huv⟩ := Language.mem_mul.mp hw
      obtain ⟨rfl, -⟩ := List.append_eq_nil_iff.mp huv
      exact .inr (ih hu)
  | capture k a ih => exact ih h

theorem isSome_ite_none {c : Prop} [Decidable c] {x : Option C} : (if c then x else none).isSome = true ↔ c ∧ x.isSome = true := by
  split_ifs with hc
  · exact (and_iff_right hc).symm
  · exact ⟨fun h => absurd h (by simp), fun h => absurd h.1 hc⟩

section Repetitions

variable {a : Pattern S K} {least fuel count : ℕ} {most : Option ℕ}

/-- What a repetition succeeds on. -/
theorem mem_found_iterate_succ {body : (List α → Option C) → List α → Option C} :
    w ∈ found (iterate body least most κ (fuel + 1) count) ↔
      (∀ m ∈ most, count < m) ∧ w ∈ found (body fun rest =>
        if rest.length = w.length then if least ≤ count + 1 then κ rest else none
        else iterate body least most κ fuel (count + 1) rest) ∨ least ≤ count ∧ w ∈ found κ := by
  rw [mem_found, iterate, Option.isSome_or, Bool.or_eq_true, isSome_ite_none, isSome_ite_none]
  rfl

/-- What a repetition finds is some number of texts of its body. -/
theorem exists_pow_of_iterate (ha : ∀ κ : List α → Option C, found (a.eval mem N κ) = a.language mem * found κ)
    (h : w ∈ found (iterate (a.eval mem N) least most κ fuel count)) :
    ∃ n, least ≤ count + n ∧ (∀ m ∈ most, n = 0 ∨ count + n ≤ m) ∧ w ∈ a.language mem ^ n * found κ := by
  induction fuel generalizing count w with
  | zero => exact absurd h Bool.false_ne_true
  | succ fuel ih =>
    rcases mem_found_iterate_succ.mp h with ⟨hmore, h⟩ | ⟨hle, h⟩
    · rw [ha] at h
      obtain ⟨u, hu, rest, hrest, rfl⟩ := Language.mem_mul.mp h
      rw [mem_found] at hrest
      by_cases hlen : rest.length = (u ++ rest).length
      · rw [if_pos hlen, isSome_ite_none] at hrest
        refine ⟨1, hrest.1, fun m hm => .inr (hmore m hm), ?_⟩
        rw [pow_one]
        exact Language.append_mem_mul hu hrest.2
      · rw [if_neg hlen] at hrest
        obtain ⟨n, hn, hmost, hrest⟩ := ih hrest
        refine ⟨n + 1, by omega, fun m hm => .inr ?_, ?_⟩
        · have := hmore m hm
          have := hmost m hm
          omega
        · rw [pow_succ', mul_assoc]
          exact Language.append_mem_mul hu hrest
    · refine ⟨0, hle, fun _ _ => .inl rfl, ?_⟩
      rw [pow_zero, one_mul]
      exact h

/-- **Some number of texts of its body is found**, if the body takes a symbol or need not be there twice. -/
theorem mem_found_iterate (ha : ∀ κ : List α → Option C, found (a.eval mem N κ) = a.language mem * found κ)
    (hcond : a.nullable = false ∨ least ≤ 1) {n : ℕ} (hlen : w.length < fuel) (hleast : least ≤ count + n)
    (hmost : ∀ m ∈ most, n = 0 ∨ count + n ≤ m) (h : w ∈ a.language mem ^ n * found κ) :
    w ∈ found (iterate (a.eval mem N) least most κ fuel count) := by
  induction fuel generalizing count w n with
  | zero => exact absurd hlen (Nat.not_lt_zero _)
  | succ fuel ih =>
    -- texts of the body that are empty are left out one by one
    induction n with
    | zero =>
      rw [pow_zero, one_mul] at h
      exact mem_found_iterate_succ.mpr (.inr ⟨hleast, h⟩)
    | succ n ihn =>
      rw [pow_succ', mul_assoc] at h
      obtain ⟨u, hu, rest, hrest, rfl⟩ := Language.mem_mul.mp h
      have hmore : ∀ m ∈ most, count < m := fun m hm => by
        have := hmost m hm
        omega
      have hbody : ∀ κ' : List α → Option C, rest ∈ found κ' → u ++ rest ∈ found (a.eval mem N κ') := fun κ' hκ' => by
        rw [ha]
        exact Language.append_mem_mul hu hκ'
      rcases u with _ | ⟨c, u⟩
      · have hone : least ≤ 1 := hcond.resolve_left fun hnull => by
          rw [nil_mem_language hu] at hnull
          cases hnull
        rcases n with _ | n
        · rw [pow_zero, one_mul] at hrest
          refine mem_found_iterate_succ.mpr (.inl ⟨hmore, hbody _ ?_⟩)
          rw [mem_found, List.nil_append, if_pos rfl, if_pos hleast]
          exact hrest
        · refine ihn (by omega) (fun m hm => ?_) hrest
          have := hmost m hm
          omega
      · rw [List.cons_append, List.length_cons, List.length_append] at hlen
        refine mem_found_iterate_succ.mpr (.inl ⟨hmore, hbody _ ?_⟩)
        rw [mem_found, if_neg (by rw [List.cons_append, List.length_cons, List.length_append]; omega)]
        refine ih (by omega) (by omega) (fun m hm => ?_) hrest
        have := hmost m hm
        omega

end Repetitions

/-- **A search through a pattern succeeds** on a text of the pattern, and behind it one that what follows
succeeds on. -/
theorem found_eval {p : Pattern S K} (h : p.Unhindered) (κ : List α → Option C) :
    found (p.eval mem N κ) = p.language mem * found κ := by
  induction p generalizing κ with
  | empty => exact (one_mul _).symm
  | never =>
    rw [language, zero_mul]
    exact Set.eq_empty_of_forall_notMem fun w hw => absurd hw Bool.false_ne_true
  | symbol s =>
    ext w
    rw [mem_found, Language.mem_mul]
    constructor
    · intro hw
      rcases w with _ | ⟨c, w⟩
      · exact absurd hw Bool.false_ne_true
      · obtain ⟨hc, hw⟩ := isSome_ite_none.mp hw
        exact ⟨[c], ⟨c, hc, rfl⟩, w, hw, rfl⟩
    · rintro ⟨_, ⟨c, hc, rfl⟩, w, hw, rfl⟩
      exact isSome_ite_none.mpr ⟨hc, hw⟩
  | seq a b iha ihb => exact (iha h.1 _).trans (by rw [ihb h.2, language, mul_assoc])
  | alt a b iha ihb =>
    rw [language, add_mul, ← iha h.1, ← ihb h.2]
    ext w
    rw [Language.mem_add, mem_found, mem_found, mem_found, eval, Option.isSome_or, Bool.or_eq_true]
  | rep least most a ih =>
    ext w
    rw [Language.mem_mul]
    constructor
    · intro hw
      obtain ⟨n, hn, hmost, hw⟩ := exists_pow_of_iterate (ih h.2) hw
      obtain ⟨u, hu, v, hv, rfl⟩ := Language.mem_mul.mp hw
      refine ⟨u, ⟨n, by omega, fun m hm => ?_, hu⟩, v, hv, rfl⟩
      have := hmost m hm
      omega
    · rintro ⟨u, ⟨n, hn, hmost, hu⟩, v, hv, rfl⟩
      refine mem_found_iterate (ih h.2) h.1 (Nat.lt_succ_self _) (by omega) (fun m hm => ?_) (Language.append_mem_mul hu hv)
      have := hmost m hm
      omega
  | capture k a ih =>
    ext w
    have hmap : found (fun rest => (κ rest).map (N.closed k w rest)) = found κ := by
      ext rest
      rw [mem_found, Option.isSome_map]
      rfl
    rw [mem_found, eval, Option.isSome_map, ← mem_found, ih h.2, hmap]
    rfl

end Pattern

end FtIrc
