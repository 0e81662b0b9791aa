import FtIrc.Library.Machine
import Mathlib.Computability.Language

/-!
# The parts of a program

A program for the machine that runs in lockstep is put together from parts. A part is entered at
one address and left at another, and what it takes in between are the words of a language
(`FtIrc.Machine.Fragment`). Parts are set one behind the other, or beside each other behind a
split; behind a split that the part leads back to, a part becomes a loop.

What a whole program accepts is the language of the part that leads from its start to its end
(`FtIrc.Machine.Fragment.search_isSome_iff`).
-/

namespace FtIrc

namespace Machine

open scoped Computability

variable {α : Type} {code : ℕ → Instr α} {L M : Language α} {a b c x y k : ℕ} {w : List α}

/-- **A part of a program**, from `a` to `b`, for a language. What is left of a path behind the part
is no longer than the path. -/
structure Fragment (code : ℕ → Instr α) (L : Language α) (a b : ℕ) : Prop where
  complete : ∀ {s w : List α}, s ∈ L → Accepts code b w → Accepts code a (s ++ w)
  sound : ∀ {k : ℕ} {w : List α}, AcceptsIn code k a w →
    ∃ s w' k', w = s ++ w' ∧ s ∈ L ∧ k' ≤ k ∧ AcceptsIn code k' b w'

/-- A path goes on at one of the successors of an instruction that has some. -/
theorem AcceptsIn.move_inv (h : AcceptsIn code k a w) (hsome : (code a).successors a ≠ []) :
    ∃ q ∈ (code a).successors a, ∃ k', k = k' + 1 ∧ AcceptsIn code k' q w := by
  cases h with
  | accept hcode => exact absurd (by rw [hcode]; rfl) hsome
  | move hmove hq => exact ⟨_, hmove, _, rfl, hq⟩
  | take hcode _ _ => exact absurd (by rw [hcode]; rfl) hsome

/-- A path ends where the program does. -/
theorem AcceptsIn.accept_inv (h : AcceptsIn code k a w) (hcode : code a = .accept) : w = [] := by
  cases h with
  | accept _ => rfl
  | move hmove _ => simp [Eps, hcode, Instr.successors] at hmove
  | take hsymbol _ _ => simp [hcode] at hsymbol

namespace Fragment

/-- Where nothing is done, nothing is taken. -/
theorem nil : Fragment code 1 a a where
  complete hs hw := by
    rw [Language.mem_one] at hs
    rwa [hs]
  sound h := ⟨[], _, _, rfl, Language.nil_mem_one, le_rfl, h⟩

/-- A test takes a symbol. -/
theorem symbol {p : α → Bool} (hcode : code a = .symbol p) :
    Fragment code {s | ∃ c, p c = true ∧ s = [c]} a (a + 1) where
  complete := by
    rintro s w ⟨c, hc, rfl⟩ ⟨k, hk⟩
    exact ⟨k + 1, .take hcode hc hk⟩
  sound h := by
    cases h with
    | accept hacc => simp [hcode] at hacc
    | move hmove _ => simp [Eps, hcode, Instr.successors] at hmove
    | @take k _ c w q hsymbol hc hq =>
      obtain rfl : p = q := by simpa [hcode] using hsymbol
      exact ⟨[c], w, k, rfl, ⟨c, hc, rfl⟩, Nat.le_succ k, hq⟩

/-- An instruction that leads to one place is passed. -/
theorem pass (hx : (code a).successors a = [x]) : Fragment code 1 a x where
  complete := by
    intro s w hs hw
    rw [Language.mem_one] at hs
    subst hs
    exact hw.move (by rw [Eps, hx]; exact List.mem_singleton_self x)
  sound h := by
    obtain ⟨q, hq, k', rfl, hrest⟩ := h.move_inv (by rw [hx]; simp)
    rw [hx, List.mem_singleton] at hq
    subst hq
    exact ⟨[], _, k', rfl, Language.nil_mem_one, Nat.le_succ k', hrest⟩

/-- One part behind the other. -/
theorem append (h : Fragment code L a b) (h' : Fragment code M b c) : Fragment code (L * M) a c where
  complete := by
    intro s w hs hw
    obtain ⟨s₁, hs₁, s₂, hs₂, rfl⟩ := Language.mem_mul.mp hs
    rw [List.append_assoc]
    exact h.complete hs₁ (h'.complete hs₂ hw)
  sound hk := by
    obtain ⟨s₁, w₁, k₁, rfl, hs₁, hle₁, hk₁⟩ := h.sound hk
    obtain ⟨s₂, w₂, k₂, rfl, hs₂, hle₂, hk₂⟩ := h'.sound hk₁
    exact ⟨s₁ ++ s₂, w₂, k₂, (List.append_assoc ..).symm, Language.append_mem_mul hs₁ hs₂, hle₂.trans hle₁, hk₂⟩

/-- What leads into a part belongs to it. -/
theorem enter (hx : (code a).successors a = [x]) (h : Fragment code L x b) : Fragment code L a b := by
  simpa using (pass hx).append h

/-- What leads out of a part belongs to it. -/
theorem leave (h : Fragment code L a b) (hx : (code b).successors b = [x]) : Fragment code L a x := by
  simpa using h.append (pass hx)

/-- One part or the other. -/
theorem split (hcode : (code a).successors a = [x, y]) (h : Fragment code L x b) (h' : Fragment code M y b) :
    Fragment code (L + M) a b where
  complete := by
    rintro s w (hs | hs) hw
    · exact (h.complete hs hw).move (by rw [Eps, hcode]; simp)
    · exact (h'.complete hs hw).move (by rw [Eps, hcode]; simp)
  sound hk := by
    obtain ⟨q, hq, k, rfl, hrest⟩ := hk.move_inv (by rw [hcode]; simp)
    rw [hcode, List.mem_pair] at hq
    rcases hq with rfl | rfl
    · obtain ⟨s, w', k', rfl, hs, hle, hk'⟩ := h.sound hrest
      exact ⟨s, w', k', rfl, .inl hs, hle.trans (Nat.le_succ k), hk'⟩
    · obtain ⟨s, w', k', rfl, hs, hle, hk'⟩ := h'.sound hrest
      exact ⟨s, w', k', rfl, .inr hs, hle.trans (Nat.le_succ k), hk'⟩

/-- **A part that is led back to its start** is gone through any number of times. -/
theorem loop (hcode : (code a).successors a = [x, y]) (h : Fragment code L x b)
    (hback : (code b).successors b = [a]) : Fragment code (L∗) a y where
  complete := by
    intro s w hs hw
    obtain ⟨pieces, rfl, hpieces⟩ := Language.mem_kstar.mp hs
    clear hs
    induction pieces with
    | nil => exact hw.move (by rw [Eps, hcode]; simp)
    | cons piece pieces ih =>
      have hrest := ih fun s hs => hpieces s (List.mem_cons_of_mem _ hs)
      have hagain : Accepts code b (pieces.flatten ++ w) := hrest.move (by rw [Eps, hback]; simp)
      rw [List.flatten_cons, List.append_assoc]
      exact (h.complete (hpieces piece List.mem_cons_self) hagain).move (by rw [Eps, hcode]; simp)
  sound {k w} hk := by
    -- the path that is left behind one round is shorter
    induction k using Nat.strong_induction_on generalizing w with
    | _ k ih =>
      obtain ⟨q, hq, k, rfl, hrest⟩ := hk.move_inv (by rw [hcode]; simp)
      rw [hcode, List.mem_pair] at hq
      rcases hq with rfl | rfl
      · obtain ⟨s₁, w₁, k₁, rfl, hs₁, hle₁, hk₁⟩ := h.sound hrest
        obtain ⟨q, hq, k₂, rfl, hround⟩ := hk₁.move_inv (by rw [hback]; simp)
        rw [hback, List.mem_singleton] at hq
        subst hq
        obtain ⟨s₂, w₂, k₃, rfl, hs₂, hle₂, hk₃⟩ := ih k₂ (by omega) hround
        obtain ⟨pieces, rfl, hpieces⟩ := Language.mem_kstar.mp hs₂
        have hall : s₁ ++ pieces.flatten ∈ L∗ := by
          rw [← List.flatten_cons]
          exact Language.join_mem_kstar (List.forall_mem_cons.mpr ⟨hs₁, hpieces⟩)
        exact ⟨s₁ ++ pieces.flatten, w₂, k₃, (List.append_assoc ..).symm, hall, by omega, hk₃⟩
      · exact ⟨[], w, k, rfl, Language.nil_mem_kstar L, Nat.le_succ k, hrest⟩

/-- **A program accepts the language of the part that leads to its end.** -/
theorem search_isSome_iff {size : ℕ} (hsize : Within code size) (h : Fragment code L 0 b) (hend : code b = .accept) :
    (search code size w).isSome = true ↔ w ∈ L := by
  rw [Machine.search_isSome_iff hsize]
  constructor
  · rintro ⟨k, hk⟩
    obtain ⟨s, w', k', rfl, hs, -, hk'⟩ := h.sound hk
    rw [hk'.accept_inv hend, List.append_nil]
    exact hs
  · intro hw
    have hall := h.complete hw ⟨0, .accept hend⟩
    rwa [List.append_nil] at hall

end Fragment

/-! ### Repetitions -/

/-- Up to so many words of a language, the next one where the one before was not left out. -/
def upTo (L : Language α) : ℕ → Language α
  | 0 => 1
  | n + 1 => L * upTo L n + 1

theorem mem_upTo {n : ℕ} {s : List α} : s ∈ upTo L n ↔ ∃ m ≤ n, s ∈ L ^ m := by
  induction n generalizing s with
  | zero => simp [upTo]
  | succ n ih =>
    rw [upTo, Language.mem_add]
    constructor
    · rintro (h | h)
      · obtain ⟨a, ha, b, hb, rfl⟩ := Language.mem_mul.mp h
        obtain ⟨m, hm, hb⟩ := ih.mp hb
        exact ⟨m + 1, by omega, by rw [pow_succ']; exact Language.append_mem_mul ha hb⟩
      · exact ⟨0, Nat.zero_le _, by rwa [pow_zero]⟩
    · rintro ⟨_ | m, hm, h⟩
      · exact .inr (by rwa [pow_zero] at h)
      · rw [pow_succ'] at h
        obtain ⟨a, ha, b, hb, rfl⟩ := Language.mem_mul.mp h
        exact .inl (Language.append_mem_mul ha (ih.mpr ⟨m, by omega, hb⟩))

/-- At least so many times, and any number of times more. -/
theorem mem_pow_mul_kstar {n : ℕ} {s : List α} :
    s ∈ L ^ n * L∗ ↔ ∃ m, n ≤ m ∧ s ∈ L ^ m := by
  rw [Language.kstar_eq_iSup_pow, Language.mul_iSup, Language.mem_iSup]
  constructor
  · rintro ⟨m, h⟩
    exact ⟨n + m, Nat.le_add_right _ _, by rwa [pow_add]⟩
  · rintro ⟨m, hm, h⟩
    obtain ⟨more, rfl⟩ := Nat.exists_eq_add_of_le hm
    exact ⟨more, by rwa [← pow_add]⟩

theorem mem_pow_mul_upTo {n most : ℕ} {s : List α} :
    s ∈ L ^ n * upTo L most ↔ ∃ m, n ≤ m ∧ m ≤ n + most ∧ s ∈ L ^ m := by
  constructor
  · intro h
    obtain ⟨a, ha, b, hb, rfl⟩ := Language.mem_mul.mp h
    obtain ⟨m, hm, hb⟩ := mem_upTo.mp hb
    exact ⟨n + m, by omega, by omega, by rw [pow_add]; exact Language.append_mem_mul ha hb⟩
  · rintro ⟨m, hle, hm, h⟩
    obtain ⟨more, rfl⟩ := Nat.exists_eq_add_of_le hle
    rw [pow_add] at h
    obtain ⟨a, ha, b, hb, rfl⟩ := Language.mem_mul.mp h
    exact Language.append_mem_mul ha (mem_upTo.mpr ⟨more, by omega, hb⟩)

end Machine

end FtIrc
