import Mathlib.Data.List.Lex
import Mathlib.Data.Finset.Basic
import Mathlib.Tactic.Common

/-!
# Ordered maps

A finite map from a linear order, held as the list of its entries in strictly
increasing order of the keys – the abstract contents of a balanced search tree,
iterated from the least key to the greatest. The order is a field of the
structure, so a map with a repeated or misplaced key cannot be built, and two
maps with the same lookups are equal (`FtIrc.OrdMap.ext_get?`).

| operation | what it does | its lookup |
|---|---|---|
| `insert k v` | binds `k`, replacing an earlier binding | `FtIrc.OrdMap.get?_insert` |
| `erase k` | forgets `k` | `FtIrc.OrdMap.get?_erase` |
| `modify k f` | applies `f` to the value at `k`, if there is one | `FtIrc.OrdMap.get?_modify` |
| `filterMap f` | rewrites or drops every entry | `FtIrc.OrdMap.get?_filterMap` |
-/

namespace FtIrc

/-- **A finite map** from keys to values, its entries in increasing order of the
keys. -/
structure OrdMap (K V : Type) [LinearOrder K] where
  /-- The entries, from the least key to the greatest. -/
  entries : List (K × V)
  /-- The keys strictly increase. -/
  sorted : entries.Pairwise fun a b => a.1 < b.1

namespace OrdMap

variable {K V W : Type} [LinearOrder K]

/-! ### The lists underneath -/

/-- The value a list of entries binds to a key. -/
def lookupList (k : K) : List (K × V) → Option V
  | [] => none
  | e :: l => if e.1 = k then some e.2 else lookupList k l

/-- Insertion into a list of entries, before the first greater key. -/
def insertList (k : K) (v : V) : List (K × V) → List (K × V)
  | [] => [(k, v)]
  | e :: l =>
      if k < e.1 then (k, v) :: e :: l
      else if e.1 = k then (k, v) :: l
      else e :: insertList k v l

theorem lookupList_eq_none {k : K} {l : List (K × V)} :
    lookupList k l = none ↔ ∀ e ∈ l, e.1 ≠ k := by
  induction l with
  | nil => simp [lookupList]
  | cons e l ih =>
    by_cases h : e.1 = k
    · simp [lookupList, h]
    · simp [lookupList, h, ih]

/-- In a list with increasing keys, being bound is being an entry. -/
theorem lookupList_eq_some {k : K} {v : V} {l : List (K × V)}
    (hl : l.Pairwise fun a b => a.1 < b.1) : lookupList k l = some v ↔ (k, v) ∈ l := by
  induction l with
  | nil => simp [lookupList]
  | cons e l ih =>
    obtain ⟨he, hl⟩ := List.pairwise_cons.mp hl
    by_cases h : e.1 = k
    · have hnot : (k, v) ∉ l := fun hmem => (he _ hmem).ne h
      rw [lookupList, if_pos h, List.mem_cons]
      constructor
      · intro hv
        exact Or.inl (Prod.ext h.symm (Option.some.inj hv).symm)
      · rintro (hv | hmem)
        · exact congrArg some (congrArg Prod.snd hv).symm
        · exact absurd hmem hnot
    · rw [lookupList, if_neg h, ih hl, List.mem_cons]
      constructor
      · exact Or.inr
      · rintro (hv | hmem)
        · exact absurd (congrArg Prod.fst hv).symm h
        · exact hmem

theorem mem_insertList {k : K} {v : V} {l : List (K × V)} {e : K × V} :
    e ∈ insertList k v l → e = (k, v) ∨ e ∈ l := by
  induction l with
  | nil => simp [insertList]
  | cons a l ih =>
    rw [insertList]
    split_ifs with h₁ h₂
    · simp
    · intro h
      rcases List.mem_cons.mp h with h | h
      · exact Or.inl h
      · exact Or.inr (List.mem_cons_of_mem _ h)
    · intro h
      rcases List.mem_cons.mp h with h | h
      · exact Or.inr (h ▸ List.mem_cons_self)
      · exact (ih h).imp_right (List.mem_cons_of_mem _)

theorem insertList_sorted {k : K} {v : V} {l : List (K × V)}
    (hl : l.Pairwise fun a b => a.1 < b.1) :
    (insertList k v l).Pairwise fun a b => a.1 < b.1 := by
  induction l with
  | nil => simp [insertList]
  | cons a l ih =>
    obtain ⟨ha, hl'⟩ := List.pairwise_cons.mp hl
    rw [insertList]
    split_ifs with h₁ h₂
    · refine List.pairwise_cons.mpr ⟨fun e he => ?_, hl⟩
      rcases List.mem_cons.mp he with rfl | he
      · exact h₁
      · exact h₁.trans (ha e he)
    · exact List.pairwise_cons.mpr ⟨fun e he => h₂ ▸ ha e he, hl'⟩
    · refine List.pairwise_cons.mpr ⟨fun e he => ?_, ih hl'⟩
      rcases mem_insertList he with rfl | he
      · exact lt_of_le_of_ne (not_lt.mp h₁) h₂
      · exact ha e he

theorem lookupList_insertList {k k' : K} {v : V} {l : List (K × V)}
    (hl : l.Pairwise fun a b => a.1 < b.1) :
    lookupList k' (insertList k v l) = if k = k' then some v else lookupList k' l := by
  induction l with
  | nil => rfl
  | cons a l ih =>
    obtain ⟨ha, hl'⟩ := List.pairwise_cons.mp hl
    rw [insertList]
    by_cases h₁ : k < a.1
    · rw [if_pos h₁, lookupList]
    · rw [if_neg h₁]
      by_cases h₂ : a.1 = k
      · rw [if_pos h₂, lookupList, lookupList, h₂]
        by_cases h₃ : k = k'
        · rw [if_pos h₃, if_pos h₃]
        · rw [if_neg h₃, if_neg h₃, if_neg h₃]
      · rw [if_neg h₂, lookupList, lookupList, ih hl']
        by_cases h₃ : a.1 = k'
        · rw [if_pos h₃, if_pos h₃, if_neg fun hk => h₂ (h₃.trans hk.symm)]
        · rw [if_neg h₃, if_neg h₃]

/-! ### The operations -/

/-- The empty map. -/
def empty : OrdMap K V := ⟨[], List.Pairwise.nil⟩

instance : Inhabited (OrdMap K V) := ⟨empty⟩

/-- The value bound to a key. -/
def get? (m : OrdMap K V) (k : K) : Option V := lookupList k m.entries

/-- Whether a key is bound. -/
def contains (m : OrdMap K V) (k : K) : Bool := (m.get? k).isSome

/-- The keys, in increasing order. -/
def keys (m : OrdMap K V) : List K := m.entries.map Prod.fst

/-- The values, in increasing order of their keys. -/
def values (m : OrdMap K V) : List V := m.entries.map Prod.snd

/-- The number of entries. -/
def size (m : OrdMap K V) : ℕ := m.entries.length

/-- Whether there is no entry. -/
def isEmpty (m : OrdMap K V) : Bool := m.entries.isEmpty

/-- Bind a key, replacing an earlier binding. -/
def insert (m : OrdMap K V) (k : K) (v : V) : OrdMap K V :=
  ⟨insertList k v m.entries, insertList_sorted m.sorted⟩

/-- Forget a key. -/
def erase (m : OrdMap K V) (k : K) : OrdMap K V :=
  ⟨m.entries.filter fun e => decide (e.1 ≠ k), m.sorted.filter _⟩

/-- Rewrite or drop every entry. -/
def filterMap (m : OrdMap K V) (f : K → V → Option W) : OrdMap K W :=
  ⟨m.entries.filterMap fun e => (f e.1 e.2).map fun w => (e.1, w),
    m.sorted.filterMap _ fun a b hab a' ha b' hb => by
      obtain ⟨w, -, rfl⟩ := Option.map_eq_some_iff.mp ha
      obtain ⟨w', -, rfl⟩ := Option.map_eq_some_iff.mp hb
      exact hab⟩

/-- Apply a function to the value at a key, if the key is bound. -/
def modify (m : OrdMap K V) (k : K) (f : V → V) : OrdMap K V :=
  m.filterMap fun k' v => some (if k' = k then f v else v)

/-! ### Lookups -/

theorem mem_entries {m : OrdMap K V} {k : K} {v : V} : (k, v) ∈ m.entries ↔ m.get? k = some v :=
  (lookupList_eq_some m.sorted).symm

theorem mem_keys {m : OrdMap K V} {k : K} : k ∈ m.keys ↔ ∃ v, m.get? k = some v := by
  simp [keys, mem_entries]

theorem mem_values {m : OrdMap K V} {v : V} : v ∈ m.values ↔ ∃ k, m.get? k = some v := by
  simp [values, mem_entries]

theorem nodup_keys (m : OrdMap K V) : m.keys.Nodup := by
  refine List.Pairwise.map _ (fun a b h => ?_) m.sorted
  exact (show a.1 < b.1 from h).ne

theorem contains_iff {m : OrdMap K V} {k : K} : m.contains k = true ↔ ∃ v, m.get? k = some v :=
  Option.isSome_iff_exists

theorem contains_eq_false {m : OrdMap K V} {k : K} : m.contains k = false ↔ m.get? k = none := by
  simp [contains]

theorem isEmpty_iff {m : OrdMap K V} : m.isEmpty = true ↔ ∀ k, m.get? k = none := by
  rw [isEmpty, List.isEmpty_iff]
  constructor
  · intro h k
    rw [get?, h]
    rfl
  · intro h
    refine List.eq_nil_iff_forall_not_mem.mpr fun e he => ?_
    have := mem_entries.mp (show (e.1, e.2) ∈ m.entries from he)
    rw [h e.1] at this
    exact absurd this (by simp)

@[simp] theorem get?_empty (k : K) : (empty : OrdMap K V).get? k = none := rfl

theorem get?_insert (m : OrdMap K V) (k : K) (v : V) (k' : K) :
    (m.insert k v).get? k' = if k = k' then some v else m.get? k' :=
  lookupList_insertList m.sorted

@[simp] theorem get?_insert_self (m : OrdMap K V) (k : K) (v : V) :
    (m.insert k v).get? k = some v := by
  rw [get?_insert, if_pos rfl]

theorem get?_insert_of_ne (m : OrdMap K V) {k k' : K} (v : V) (h : k ≠ k') :
    (m.insert k v).get? k' = m.get? k' := by
  rw [get?_insert, if_neg h]

theorem get?_filterMap (m : OrdMap K V) (f : K → V → Option W) (k : K) :
    (m.filterMap f).get? k = (m.get? k).bind (f k) := by
  ext w
  rw [← mem_entries, Option.bind_eq_some_iff]
  simp only [filterMap, List.mem_filterMap, Option.map_eq_some_iff, Prod.mk.injEq, Prod.exists]
  constructor
  · rintro ⟨k', v, hmem, w', hf, rfl, rfl⟩
    exact ⟨v, mem_entries.mp hmem, hf⟩
  · rintro ⟨v, hv, hf⟩
    exact ⟨k, v, mem_entries.mpr hv, w, hf, rfl, rfl⟩

theorem get?_erase (m : OrdMap K V) (k k' : K) :
    (m.erase k).get? k' = if k = k' then none else m.get? k' := by
  ext v
  rw [← mem_entries]
  simp only [erase, List.mem_filter, mem_entries, decide_eq_true_eq]
  split_ifs with h
  · simp [h]
  · simp [Ne.symm h]

@[simp] theorem get?_erase_self (m : OrdMap K V) (k : K) : (m.erase k).get? k = none := by
  rw [get?_erase, if_pos rfl]

theorem get?_erase_of_ne (m : OrdMap K V) {k k' : K} (h : k ≠ k') :
    (m.erase k).get? k' = m.get? k' := by
  rw [get?_erase, if_neg h]

theorem get?_modify (m : OrdMap K V) (k : K) (f : V → V) (k' : K) :
    (m.modify k f).get? k' = (m.get? k').map fun v => if k' = k then f v else v := by
  rw [modify, get?_filterMap]
  cases m.get? k' <;> rfl

theorem get?_modify_self (m : OrdMap K V) (k : K) (f : V → V) :
    (m.modify k f).get? k = (m.get? k).map f := by
  rw [get?_modify]
  simp

theorem get?_modify_of_ne (m : OrdMap K V) {k k' : K} (f : V → V) (h : k' ≠ k) :
    (m.modify k f).get? k' = m.get? k' := by
  rw [get?_modify]
  cases m.get? k' <;> simp [h]

/-- **Two maps with the same lookups are equal.** -/
theorem ext_get? {m m' : OrdMap K V} (h : ∀ k, m.get? k = m'.get? k) : m = m' := by
  obtain ⟨l, hl⟩ := m
  obtain ⟨l', hl'⟩ := m'
  have hmem : ∀ e, e ∈ l ↔ e ∈ l' := fun e => by
    have h₁ : (e.1, e.2) ∈ l ↔ _ := (lookupList_eq_some (v := e.2) hl).symm
    have h₂ : (e.1, e.2) ∈ l' ↔ _ := (lookupList_eq_some (v := e.2) hl').symm
    have h₃ : lookupList e.1 l = lookupList e.1 l' := h e.1
    rw [h₃] at h₁
    exact h₁.trans h₂.symm
  have hnd : ∀ {l : List (K × V)}, (l.Pairwise fun a b => a.1 < b.1) → l.Nodup := fun hl =>
    hl.imp fun hab hne => hab.ne (congrArg Prod.fst hne)
  have hperm : l.Perm l' := (List.perm_ext_iff_of_nodup (hnd hl) (hnd hl')).mpr hmem
  have : l = l' := hperm.eq_of_pairwise (fun a b _ _ hab hba => absurd hab hba.asymm) hl hl'
  subst this
  rfl

/-- Forgetting a key that is not bound changes nothing. -/
theorem erase_eq_self {m : OrdMap K V} {k : K} (h : m.get? k = none) : m.erase k = m := by
  refine ext_get? fun k' => ?_
  rw [get?_erase]
  split_ifs with hk
  · rw [← hk, h]
  · rfl

/-- Modifying by a function that fixes the bound value changes nothing. -/
theorem modify_eq_self {m : OrdMap K V} {k : K} {f : V → V}
    (h : ∀ v, m.get? k = some v → f v = v) : m.modify k f = m := by
  refine ext_get? fun k' => ?_
  rw [get?_modify]
  rcases hv : m.get? k' with _ | v
  · rfl
  · by_cases hk : k' = k
    · rw [Option.map_some, if_pos hk, h v (hk ▸ hv)]
    · rw [Option.map_some, if_neg hk]

/-- What is erased may as well not have been changed. -/
theorem erase_modify (m : OrdMap K V) (k : K) (f : V → V) : (m.modify k f).erase k = m.erase k := by
  refine ext_get? fun k' => ?_
  by_cases h : k = k'
  · subst h
    rw [get?_erase_self, get?_erase_self]
  · rw [get?_erase_of_ne _ h, get?_erase_of_ne _ h, get?_modify_of_ne _ _ (Ne.symm h)]

/-- Modifying twice is modifying once. -/
theorem modify_modify (m : OrdMap K V) (k : K) (f g : V → V) :
    (m.modify k f).modify k g = m.modify k fun v => g (f v) := by
  refine ext_get? fun k' => ?_
  simp only [get?_modify, Option.map_map]
  congr 1
  funext v
  by_cases hk : k' = k
  · simp [hk]
  · simp [hk]

@[simp] theorem keys_modify (m : OrdMap K V) (k : K) (f : V → V) : (m.modify k f).keys = m.keys := by
  simp [keys, modify, filterMap]

/-- Writes to two keys go in any order, and so do writes that do not interfere. -/
theorem modify_comm (m : OrdMap K V) {k k' : K} {f g : V → V} (h : k' ≠ k ∨ ∀ v, g (f v) = f (g v)) :
    (m.modify k f).modify k' g = (m.modify k' g).modify k f := by
  refine ext_get? fun j => ?_
  simp only [get?_modify, Option.map_map]
  congr 1
  funext v
  simp only [Function.comp_apply]
  by_cases hk : j = k
  · by_cases hk' : j = k'
    · rcases h with hne | hcomm
      · exact absurd (hk'.symm.trans hk) hne
      · rw [if_pos hk, if_pos hk', if_pos hk', if_pos hk, hcomm]
    · rw [if_pos hk, if_neg hk', if_neg hk', if_pos hk]
  · rw [if_neg hk, if_neg hk]

/-- A write and a removal go in any order. -/
theorem modify_erase (m : OrdMap K V) (k k' : K) (f : V → V) :
    (m.modify k f).erase k' = (m.erase k').modify k f := by
  refine ext_get? fun j => ?_
  simp only [get?_modify, get?_erase]
  split_ifs <;> rfl

/-- A write and an insertion at another key go in any order. -/
theorem modify_insert (m : OrdMap K V) {k k' : K} (f : V → V) {v : V} (h : k' ≠ k) :
    (m.modify k f).insert k' v = (m.insert k' v).modify k f := by
  refine ext_get? fun j => ?_
  simp only [get?_modify, get?_insert]
  by_cases hj : k' = j
  · subst hj
    rw [if_pos rfl, if_pos rfl, Option.map_some, if_neg h]
  · rw [if_neg hj, if_neg hj]

end OrdMap

end FtIrc
