import Mathlib.Data.List.Basic

/-!
# Packing a list into groups

A list is cut into groups, each as long as it can be: the next element goes into the group
that was begun, if it fits there, and begins another one if it does not (`FtIrc.pack`). The
groups hold the list in its order (`FtIrc.flatten_pack`), and every group fits, or is a
single element (`FtIrc.fits_of_mem_pack`).
-/

namespace FtIrc

section Packing

variable {α : Type} (fits : List α → Prop) [DecidablePred fits]

/-- The groups of the rest of a list, one of them begun. -/
def packFrom : List α → List α → List (List α)
  | group, [] => [group]
  | group, a :: l =>
    if fits (group ++ [a]) then packFrom (group ++ [a]) l else group :: packFrom [a] l

/-- **The groups of a list.** -/
def pack : List α → List (List α)
  | [] => []
  | a :: l => packFrom fits [a] l

variable {fits} {group g l : List α}

theorem flatten_packFrom : (packFrom fits group l).flatten = group ++ l := by
  induction l generalizing group with
  | nil => rw [packFrom, List.flatten_singleton, List.append_nil]
  | cons a l ih =>
    rw [packFrom]
    split_ifs
    · rw [ih, List.append_assoc, List.singleton_append]
    · rw [List.flatten_cons, ih, List.singleton_append]

/-- **The groups hold the list**, in its order. -/
theorem flatten_pack : (pack fits l).flatten = l := by
  rcases l with _ | ⟨a, l⟩
  · rfl
  · exact flatten_packFrom

theorem fits_of_mem_packFrom (hgroup : group.length = 1 ∨ (group ≠ [] ∧ fits group))
    (h : g ∈ packFrom fits group l) : g.length = 1 ∨ (g ≠ [] ∧ fits g) := by
  induction l generalizing group with
  | nil =>
    rw [packFrom, List.mem_singleton] at h
    exact h ▸ hgroup
  | cons a l ih =>
    rw [packFrom] at h
    split_ifs at h with hfits
    · exact ih (Or.inr ⟨by simp, hfits⟩) h
    · rcases List.mem_cons.mp h with rfl | h
      · exact hgroup
      · exact ih (Or.inl rfl) h

/-- **A group of more than one element fits.** -/
theorem fits_of_mem_pack (h : g ∈ pack fits l) : g.length = 1 ∨ (g ≠ [] ∧ fits g) := by
  rcases l with _ | ⟨a, l⟩
  · exact absurd h List.not_mem_nil
  · exact fits_of_mem_packFrom (Or.inl rfl) h

/-- No group is empty. -/
theorem ne_nil_of_mem_pack (h : g ∈ pack fits l) : g ≠ [] := by
  rintro rfl
  rcases fits_of_mem_pack h with hone | ⟨hne, -⟩
  · exact absurd hone (by simp)
  · exact hne rfl

/-- A group is a part of the list. -/
theorem sublist_of_mem_pack (h : g ∈ pack fits l) : g.Sublist l := by
  have hsub := List.sublist_flatten_of_mem h
  rwa [flatten_pack] at hsub

end Packing

end FtIrc
