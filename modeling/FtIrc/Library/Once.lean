import Mathlib.Data.Finset.Insert
import Mathlib.Data.List.Nodup

/-!
# Picking everybody once

A list is gone through with the keys that were met so far, and an element is picked if
its key was not among them (`FtIrc.once`). Going through two lists one after the other
is going through them at once (`FtIrc.once_append`). Where the keys tell the elements
apart, what is picked are the elements whose key was not met before, each of them once
(`FtIrc.mem_once_iff`, `FtIrc.nodup_once`), however often and in however many lists
they occur.
-/

namespace FtIrc

variable {α κ : Type*} [DecidableEq κ]

/-- The elements whose key was not met before, the first of each key. -/
def once (key : α → κ) : Finset κ → List α → List α
  | _, [] => []
  | seen, a :: l =>
    if key a ∈ seen then once key seen l else a :: once key (insert (key a) seen) l

/-- The keys met, after a list. -/
def met (key : α → κ) (seen : Finset κ) (l : List α) : Finset κ :=
  l.foldl (fun seen a => insert (key a) seen) seen

variable {key : α → κ} {seen : Finset κ} {l l' : List α} {a : α}

@[simp] theorem once_nil : once key seen [] = [] := rfl

@[simp] theorem met_nil : met key seen [] = seen := rfl

@[simp] theorem met_cons : met key seen (a :: l) = met key (insert (key a) seen) l := rfl

theorem once_cons_of_mem (h : key a ∈ seen) : once key seen (a :: l) = once key seen l := if_pos h

theorem once_cons_of_notMem (h : key a ∉ seen) :
    once key seen (a :: l) = a :: once key (insert (key a) seen) l := if_neg h

theorem met_append : met key seen (l ++ l') = met key (met key seen l) l' := List.foldl_append ..

/-- **One list after another** is both at once. -/
theorem once_append : once key seen (l ++ l') = once key seen l ++ once key (met key seen l) l' := by
  induction l generalizing seen with
  | nil => rfl
  | cons a l ih =>
    rw [List.cons_append, met_cons]
    by_cases ha : key a ∈ seen
    · rw [once_cons_of_mem ha, once_cons_of_mem ha, Finset.insert_eq_of_mem ha, ih]
    · rw [once_cons_of_notMem ha, once_cons_of_notMem ha, ih, List.cons_append]

/-- What is picked is from the list, and its key was not met before. -/
theorem of_mem_once (h : a ∈ once key seen l) : a ∈ l ∧ key a ∉ seen := by
  induction l generalizing seen with
  | nil => exact absurd h List.not_mem_nil
  | cons b l ih =>
    by_cases hb : key b ∈ seen
    · rw [once_cons_of_mem hb] at h
      exact ⟨List.mem_cons_of_mem b (ih h).1, (ih h).2⟩
    · rw [once_cons_of_notMem hb] at h
      rcases List.mem_cons.mp h with rfl | h
      · exact ⟨List.mem_cons_self, hb⟩
      · exact ⟨List.mem_cons_of_mem b (ih h).1, fun hs => (ih h).2 (Finset.mem_insert_of_mem hs)⟩

/-- **No key is picked twice.** -/
theorem nodup_map_once (key : α → κ) (seen : Finset κ) (l : List α) :
    ((once key seen l).map key).Nodup := by
  induction l generalizing seen with
  | nil => exact List.nodup_nil
  | cons b l ih =>
    by_cases hb : key b ∈ seen
    · rw [once_cons_of_mem hb]
      exact ih seen
    · rw [once_cons_of_notMem hb, List.map_cons, List.nodup_cons]
      refine ⟨fun h => ?_, ih _⟩
      obtain ⟨a, ha, heq⟩ := List.mem_map.mp h
      exact (of_mem_once ha).2 (heq ▸ Finset.mem_insert_self _ _)

/-- Nothing is picked twice. -/
theorem nodup_once (key : α → κ) (seen : Finset κ) (l : List α) : (once key seen l).Nodup :=
  List.Nodup.of_map key (nodup_map_once key seen l)

/-- An element is picked if no other has its key. -/
theorem mem_once (h : a ∈ l) (hinj : ∀ b ∈ l, key b = key a → b = a) (hseen : key a ∉ seen) :
    a ∈ once key seen l := by
  induction l generalizing seen with
  | nil => exact absurd h List.not_mem_nil
  | cons b l ih =>
    have hinj' : ∀ b ∈ l, key b = key a → b = a := fun b hb => hinj b (List.mem_cons_of_mem _ hb)
    by_cases hb : key b ∈ seen
    · rw [once_cons_of_mem hb]
      refine ih ((List.mem_cons.mp h).resolve_left ?_) hinj' hseen
      rintro rfl
      exact hseen hb
    · rw [once_cons_of_notMem hb, List.mem_cons]
      by_cases hab : a = b
      · exact Or.inl hab
      · refine Or.inr (ih ((List.mem_cons.mp h).resolve_left hab) hinj' fun hs => ?_)
        rcases Finset.mem_insert.mp hs with heq | hs
        · exact hab (hinj b List.mem_cons_self heq.symm).symm
        · exact hseen hs

/-- **What is picked**, where the keys tell the elements apart. -/
theorem mem_once_iff (hinj : ∀ a ∈ l, ∀ b ∈ l, key a = key b → a = b) :
    a ∈ once key seen l ↔ a ∈ l ∧ key a ∉ seen :=
  ⟨of_mem_once, fun h => mem_once h.1 (fun b hb heq => hinj b hb a h.1 heq) h.2⟩

end FtIrc
