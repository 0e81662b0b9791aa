import Mathlib.Data.Nat.Bitwise
import Mathlib.Data.List.Basic

/-!
# What a search costs at most

A bound on the steps of a search that goes on from a text (`FtIrc.Cost`): so many where the text is at
its end, so many where it begins with a symbol that the search has no use for, and otherwise at
most linearly many in its length. Sets of symbols are numbers, a bit for each symbol, so that bounds can
be computed; `code` says which bit a symbol has.

Bounds are put together the way searches are: one search behind a symbol (`FtIrc.Cost.behind`), one search and
then another one (`FtIrc.Cost.or`), a search at each end of a run of symbols (`FtIrc.Cost.scan`). What makes
the last one linear is that the search has no use for the symbols of the run (`FtIrc.Cost.scan_on`).
-/

namespace FtIrc

/-- **What a search costs at most**, how deep it goes, and whether it is known to succeed. -/
structure Cost where
  /-- The symbols it has a use for. -/
  opens : ℕ := 0
  /-- What it costs in front of another symbol. -/
  refused : ℕ := 0
  /-- What it costs at the end. -/
  ended : ℕ := 0
  base : ℕ := 0
  rate : ℕ := 0
  depth : ℕ := 0
  sure : Bool := false
  sureAtEnd : Bool := false

namespace Cost

variable {α : Type} {code : α → ℕ} {b b' κ : Cost} {w : List α}

/-- What it costs on a text. -/
def on (code : α → ℕ) (b : Cost) : List α → ℕ
  | [] => b.ended
  | c :: w => if b.opens.testBit (code c) then b.base + b.rate * (w.length + 1) else b.refused

/-- Whether it succeeds on a text. -/
def SureOn (b : Cost) (w : List α) : Prop := b.sure = true ∨ b.sureAtEnd = true ∧ w = []

/-- What it costs at most, but for the length. -/
def most (b : Cost) : ℕ := max b.ended (max b.refused b.base)

theorem on_le (b : Cost) (w : List α) : b.on code w ≤ b.most + b.rate * w.length := by
  have hended : b.ended ≤ b.most := le_max_left _ _
  have hrefused : b.refused ≤ b.most := (le_max_left _ _).trans (le_max_right _ _)
  have hbase : b.base ≤ b.most := (le_max_right _ _).trans (le_max_right _ _)
  rcases w with _ | ⟨c, w⟩
  · exact hended.trans (Nat.le_add_right _ _)
  · rw [on, List.length_cons]
    split_ifs
    · exact Nat.add_le_add_right hbase _
    · exact hrefused.trans (Nat.le_add_right _ _)

/-- One step more, one level deeper. -/
def enter (b : Cost) : Cost :=
  { b with refused := b.refused + 1, ended := b.ended + 1, base := b.base + 1, depth := b.depth + 1 }

theorem enter_on (b : Cost) (w : List α) : b.enter.on code w = b.on code w + 1 := by
  rcases w with _ | ⟨c, w⟩
  · rfl
  · rw [on, on]
    change (if b.opens.testBit (code c) then b.base + 1 + b.rate * (w.length + 1) else b.refused + 1) = _
    split_ifs
    · omega
    · rfl

/-- **A search behind some symbols**, the first of which is one of these. -/
def behind (mask : ℕ) (κ : Cost) : Cost :=
  { opens := mask, base := κ.most, rate := κ.rate, depth := κ.depth }

theorem le_behind_on {mask : ℕ} {c : α} {w rest : List α} (hc : mask.testBit (code c) = true) (hle : rest.length ≤ w.length) :
    κ.on code rest ≤ (κ.behind mask).on code (c :: w) := by
  have hrate : κ.rate * rest.length ≤ κ.rate * (w.length + 1) := Nat.mul_le_mul_left _ (by omega)
  rw [on, behind, if_pos hc]
  exact (κ.on_le rest).trans (Nat.add_le_add_left hrate _)

/-- **A search and then another one.** -/
def or (b b' : Cost) : Cost where
  opens := b.opens ||| b'.opens
  refused := b.refused + b'.refused
  ended := b.ended + b'.ended
  -- what no symbol is of use to both does not add up
  base := if b.opens &&& b'.opens = 0 then max (b.base + b'.refused) (b.refused + b'.base) else b.most + b'.most
  rate := if b.opens &&& b'.opens = 0 then max b.rate b'.rate else b.rate + b'.rate
  depth := max b.depth b'.depth
  sure := b.sure || b'.sure
  sureAtEnd := b.sureAtEnd || b'.sureAtEnd

theorem add_le_or_on (b b' : Cost) (w : List α) : b.on code w + b'.on code w ≤ (b.or b').on code w := by
  rcases w with _ | ⟨c, w⟩
  · exact le_rfl
  have hsum : b.rate * (w.length + 1) + b'.rate * (w.length + 1) = (b.rate + b'.rate) * (w.length + 1) := (Nat.add_mul _ _ _).symm
  have hleft : b.rate * (w.length + 1) ≤ max b.rate b'.rate * (w.length + 1) := Nat.mul_le_mul_right _ (le_max_left _ _)
  have hright : b'.rate * (w.length + 1) ≤ max b.rate b'.rate * (w.length + 1) := Nat.mul_le_mul_right _ (le_max_right _ _)
  simp only [on, or, Nat.testBit_or]
  by_cases hdisjoint : b.opens &&& b'.opens = 0
  · have hnot : ¬ (b.opens.testBit (code c) = true ∧ b'.opens.testBit (code c) = true) := by
      rw [← Bool.and_eq_true, ← Nat.testBit_and, hdisjoint, Nat.zero_testBit]
      exact Bool.false_ne_true
    rw [if_pos hdisjoint, if_pos hdisjoint]
    cases hb : b.opens.testBit (code c) <;> cases hb' : b'.opens.testBit (code c)
    · simp
    · simp only [Bool.false_or, if_true, Bool.false_eq_true, if_false]
      omega
    · simp only [Bool.true_or, if_true, Bool.false_eq_true, if_false]
      omega
    · exact absurd ⟨hb, hb'⟩ hnot
  · rw [if_neg hdisjoint, if_neg hdisjoint]
    have hle : b.on code (c :: w) + b'.on code (c :: w) ≤
        b.most + b.rate * (w.length + 1) + (b'.most + b'.rate * (w.length + 1)) := Nat.add_le_add (b.on_le _) (b'.on_le _)
    cases hb : b.opens.testBit (code c) <;> cases hb' : b'.opens.testBit (code c)
    · exact le_rfl
    all_goals
      simp only [on, hb, hb', Bool.false_or, Bool.true_or, if_true, Bool.false_eq_true, if_false] at hle ⊢
      omega

theorem SureOn.of_or (h : (b.or b').SureOn w) : b.SureOn w ∨ b'.SureOn w := by
  rcases h with h | ⟨h, hw⟩
  · exact ((Bool.or_eq_true _ _).mp h).imp .inl .inl
  · exact ((Bool.or_eq_true _ _).mp h).imp (fun h => .inr ⟨h, hw⟩) fun h => .inr ⟨h, hw⟩

/-- **A search at each end of a run of these symbols**, from the longest one on: the others cost what is refused. -/
def scan (mask : ℕ) (optional : Bool) (κ : Cost) : Cost :=
  if optional then
    { opens := mask ||| κ.opens, refused := κ.refused, ended := κ.ended, base := κ.most, rate := max (1 + κ.refused) κ.rate,
      depth := κ.depth, sure := κ.sure, sureAtEnd := κ.sureAtEnd }
  else { opens := mask, base := κ.most, rate := max (1 + κ.refused) κ.rate, depth := κ.depth }

theorem scan_depth (mask : ℕ) (optional : Bool) (κ : Cost) : (κ.scan mask optional).depth = κ.depth := by
  rw [scan]
  split_ifs <;> rfl

theorem SureOn.of_scan {mask : ℕ} {optional : Bool} (h : (κ.scan mask optional).SureOn w) : optional = true ∧ κ.SureOn w := by
  rw [scan] at h
  split_ifs at h with hoptional
  · exact ⟨hoptional, h⟩
  · rcases h with h | ⟨h, -⟩ <;> cases h

theorem le_scan_on {mask taken : ℕ} {optional : Bool} (htaken : taken ≤ w.length)
    (hrun : ∀ c ∈ w.take taken, mask.testBit (code c) = true) (h : optional = true ∨ 0 < taken) :
    taken * (1 + κ.refused) + κ.on code (w.drop taken) ≤ (κ.scan mask optional).on code w := by
  have hrate : taken * (1 + κ.refused) + κ.rate * (w.length - taken) ≤ max (1 + κ.refused) κ.rate * w.length := by
    calc taken * (1 + κ.refused) + κ.rate * (w.length - taken)
        ≤ taken * max (1 + κ.refused) κ.rate + max (1 + κ.refused) κ.rate * (w.length - taken) :=
          Nat.add_le_add (Nat.mul_le_mul_left _ (le_max_left _ _)) (Nat.mul_le_mul_right _ (le_max_right _ _))
      _ = max (1 + κ.refused) κ.rate * w.length := by
          rw [Nat.mul_comm taken, ← Nat.mul_add, Nat.add_sub_cancel' htaken]
  have hrest : κ.on code (w.drop taken) ≤ κ.most + κ.rate * (w.drop taken).length := κ.on_le _
  rw [List.length_drop] at hrest
  rcases w with _ | ⟨c, w⟩
  · obtain rfl := Nat.le_zero.mp htaken
    obtain rfl : optional = true := h.resolve_right (lt_irrefl 0)
    rw [Nat.zero_mul, Nat.zero_add]
    exact le_rfl
  rcases Nat.eq_zero_or_pos taken with rfl | hpos
  · obtain rfl : optional = true := h.resolve_right (lt_irrefl 0)
    have hmax : κ.rate * (w.length + 1) ≤ max (1 + κ.refused) κ.rate * (w.length + 1) := Nat.mul_le_mul_right _ (le_max_right _ _)
    have hon : κ.on code (c :: w) ≤ κ.most + κ.rate * (c :: w).length := κ.on_le _
    rw [List.length_cons, on] at hon
    rw [Nat.zero_mul, Nat.zero_add, List.drop_zero, scan, if_pos rfl, on, on, Nat.testBit_or]
    cases hmask : mask.testBit (code c) <;> cases hopens : κ.opens.testBit (code c) <;>
      simp only [hopens, Bool.or_false, Bool.or_true, Bool.false_eq_true, if_false, if_true] at hon ⊢
    · exact le_rfl
    all_goals exact hon.trans (Nat.add_le_add_left hmax _)
  · have hin : (κ.scan mask optional).opens.testBit (code c) = true := by
      have hmask := hrun c (by
        obtain ⟨n, rfl⟩ := Nat.exists_eq_succ_of_ne_zero hpos.ne'
        exact List.mem_cons_self)
      rw [scan]
      split_ifs
      · exact (Nat.testBit_or ..).trans (by rw [hmask, Bool.true_or])
      · exact hmask
    have hbase : (κ.scan mask optional).base = κ.most ∧ (κ.scan mask optional).rate = max (1 + κ.refused) κ.rate := by
      rw [scan]
      split_ifs <;> exact ⟨rfl, rfl⟩
    rw [on, if_pos hin, hbase.1, hbase.2, ← List.length_cons (a := c)]
    omega

/-- A search at each end of a run of symbols that goes to the end. -/
def scanAll (mask : ℕ) (κ : Cost) : Cost :=
  { opens := mask, ended := κ.ended, base := κ.ended, rate := 1, depth := κ.depth, sure := true, sureAtEnd := true }

theorem scanAll_on {mask : ℕ} (h : ∀ c ∈ w, mask.testBit (code c) = true) : (κ.scanAll mask).on code w = w.length + κ.ended := by
  rcases w with _ | ⟨c, w⟩
  · exact (Nat.zero_add _).symm
  · refine (if_pos (h c List.mem_cons_self)).trans ?_
    change κ.ended + 1 * (w.length + 1) = w.length + 1 + κ.ended
    omega

end Cost

end FtIrc
