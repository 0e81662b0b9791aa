import Mathlib.Data.List.DropRight

/-!
# The pieces of a list

What stands between the cuts of a list, empty pieces dropped (`FtIrc.pieces`); and those of
the pieces that a cut follows (`FtIrc.closedPieces`), which are the pieces of the list up to
its last cut.

Of two lists one of which begins the other, the pieces are the same exactly if nothing but cuts
is missing in the shorter one (`FtIrc.pieces_eq_iff`).
-/

namespace FtIrc

section Pieces

variable {α : Type} (cut : α → Bool) (l : List α)

/-- The nonempty pieces between the cuts. -/
def pieces : List (List α) := (l.splitOnP cut).filter fun piece => !piece.isEmpty

/-- The nonempty pieces that a cut follows. -/
def closedPieces : List (List α) := (l.splitOnP cut).dropLast.filter fun piece => !piece.isEmpty

variable {cut} {l} {m u v : List α} {c : α}

@[simp] theorem pieces_nil : pieces cut [] = [] := rfl

theorem pieces_append_cons (hc : cut c = true) (l m : List α) :
    pieces cut (l ++ c :: m) = pieces cut l ++ pieces cut m := by
  rw [pieces, List.splitOnP_append_cons l m hc, List.filter_append]
  rfl

theorem closedPieces_append_cons (hc : cut c = true) (l m : List α) :
    closedPieces cut (l ++ c :: m) = pieces cut l ++ closedPieces cut m := by
  rw [closedPieces, List.splitOnP_append_cons l m hc,
    List.dropLast_append_of_ne_nil (List.splitOnP_ne_nil cut m), List.filter_append]
  rfl

/-- A list without cuts is one piece, and no cut follows it. -/
theorem pieces_of_forall (h : ∀ a ∈ l, cut a = false) :
    pieces cut l = if l = [] then [] else [l] := by
  rw [pieces, List.splitOnP_eq_singleton h]
  cases l <;> rfl

theorem closedPieces_of_forall (h : ∀ a ∈ l, cut a = false) : closedPieces cut l = [] := by
  rw [closedPieces, List.splitOnP_eq_singleton h]
  rfl

/-- A list of cuts has no pieces. -/
theorem pieces_eq_nil (h : ∀ a ∈ l, cut a = true) : pieces cut l = [] := by
  induction l with
  | nil => rfl
  | cons a l ih =>
    obtain ⟨ha, hl⟩ := List.forall_mem_cons.mp h
    rw [← List.nil_append (a :: l), pieces_append_cons ha, ih hl]
    rfl

/-- More cuts at the end change nothing. -/
theorem pieces_append_of_forall (h : ∀ a ∈ m, cut a = true) : pieces cut (l ++ m) = pieces cut l := by
  cases m with
  | nil => rw [List.append_nil]
  | cons a m =>
    obtain ⟨ha, hm⟩ := List.forall_mem_cons.mp h
    rw [pieces_append_cons ha, pieces_eq_nil hm, List.append_nil]

theorem splitOnP_congr {cut' : α → Bool} (h : ∀ a ∈ l, cut a = cut' a) : l.splitOnP cut = l.splitOnP cut' := by
  induction l with
  | nil => rfl
  | cons a l ih =>
    obtain ⟨ha, hl⟩ := List.forall_mem_cons.mp h
    rw [List.splitOnP_cons_eq_if_modifyHead, List.splitOnP_cons_eq_if_modifyHead, ha, ih hl]

/-- Where a list is cut is all that counts. -/
theorem pieces_congr {cut' : α → Bool} (h : ∀ a ∈ l, cut a = cut' a) : pieces cut l = pieces cut' l := by
  rw [pieces, pieces, splitOnP_congr h]

theorem closedPieces_congr {cut' : α → Bool} (h : ∀ a ∈ l, cut a = cut' a) :
    closedPieces cut l = closedPieces cut' l := by
  rw [closedPieces, closedPieces, splitOnP_congr h]

/-- Put together, the pieces are the list without its cuts. -/
theorem flatten_pieces : (pieces cut l).flatten = l.filter fun a => !cut a := by
  have hflatten : (l.splitOnP cut).flatten = l.filter fun a => !cut a := by
    induction l with
    | nil => rfl
    | cons a l ih =>
      rw [List.splitOnP_cons_eq_if_modifyHead]
      split_ifs with ha
      · rw [List.flatten_cons, ih, List.filter_cons_of_neg (by simp [ha])]
        rfl
      · obtain ⟨piece, rest, hsplit⟩ := List.exists_cons_of_ne_nil (List.splitOnP_ne_nil cut l)
        rw [hsplit, List.flatten_cons] at ih
        rw [hsplit, List.modifyHead_cons, List.flatten_cons, List.cons_append, ih,
          List.filter_cons_of_pos (by simp [ha])]
  rw [← hflatten, pieces, List.flatten_filter_not_isEmpty]

/-- **Nothing but cuts is missing** in the beginning of a list that has all its pieces. -/
theorem pieces_eq_iff_of_prefix (h : u <+: v) :
    pieces cut u = pieces cut v ↔ (u.filter fun a => !cut a) = v.filter fun a => !cut a := by
  constructor
  · intro heq
    rw [← flatten_pieces, ← flatten_pieces, heq]
  · obtain ⟨m, rfl⟩ := h
    intro heq
    rw [List.filter_append, List.self_eq_append_right] at heq
    refine (pieces_append_of_forall fun a ha => ?_).symm
    have := List.filter_eq_nil_iff.mp heq a ha
    simpa using this

/-- Of two beginnings of a list either may be the shorter. -/
theorem pieces_eq_iff (hu : u <+: l) (hv : v <+: l) :
    pieces cut u = pieces cut v ↔ (u.filter fun a => !cut a) = v.filter fun a => !cut a := by
  rcases List.prefix_or_prefix_of_prefix hu hv with h | h
  · exact pieces_eq_iff_of_prefix h
  · rw [eq_comm, pieces_eq_iff_of_prefix h, eq_comm]

/-- **The pieces a cut follows** are those up to the last cut. -/
theorem closedPieces_eq : closedPieces cut l = pieces cut (l.rdropWhile fun a => !cut a) := by
  rcases List.eq_nil_or_concat (l.rdropWhile fun a => !cut a) with hnil | ⟨front, c, hfront⟩
  · have hnone := List.rdropWhile_eq_nil_iff.mp hnil
    rw [hnil, closedPieces_of_forall fun a ha => by simpa using hnone a ha]
    rfl
  · have hc : cut c = true := by
      have hlast := List.rdropWhile_last_not (fun a => !cut a) l (by rw [hfront]; simp)
      simpa [hfront] using hlast
    have hl : l = front ++ c :: l.rtakeWhile fun a => !cut a := by
      have hboth : (l.rdropWhile fun a => !cut a) ++ (l.rtakeWhile fun a => !cut a) = l :=
        List.rdropWhile_append_rtakeWhile
      rw [hfront, List.concat_eq_append, List.append_assoc] at hboth
      exact hboth.symm
    have htail : closedPieces cut (l.rtakeWhile fun a => !cut a) = [] :=
      closedPieces_of_forall fun a ha => by simpa using List.mem_rtakeWhile_imp ha
    rw [hfront, List.concat_eq_append, pieces_append_cons hc, pieces_nil, hl,
      closedPieces_append_cons hc, htail]

/-- What is dropped at the end of a list may be thinned out first, if what stops it stays. -/
theorem rdropWhile_filter {p q : α → Bool} (h : ∀ a, p a = false → q a = true) :
    (l.filter q).rdropWhile p = (l.rdropWhile p).filter q := by
  induction l using List.reverseRecOn with
  | nil => rfl
  | append_singleton l a ih =>
    rcases ha : p a
    · rw [List.rdropWhile_concat_neg _ _ _ (by simp [ha]), List.filter_append,
        List.filter_cons_of_pos (h a ha), List.filter_nil, List.rdropWhile_concat_neg _ _ _ (by simp [ha])]
    · rw [List.rdropWhile_concat_pos _ _ _ ha, List.filter_append]
      rcases hq : q a
      · rw [List.filter_cons_of_neg (by simp [hq]), List.filter_nil, List.append_nil, ih]
      · rw [List.filter_cons_of_pos hq, List.filter_nil, List.rdropWhile_concat_pos _ _ _ ha, ih]

end Pieces

end FtIrc
