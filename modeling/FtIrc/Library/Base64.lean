import Mathlib.Data.List.TakeWhile
import Mathlib.Data.UInt

/-!
# Base64

A text in base64 is digits of six bits each, four of them for three octets; what is left over
at the end, two digits or three, stands for one octet or two, and there may be padding behind
it that makes four of it (`FtIrc.Base64.WellFormed`). Such a text is read as octets
(`FtIrc.Base64.decode`), three for every four digits, rounded down
(`FtIrc.Base64.WellFormed.decode`).
-/

namespace FtIrc

namespace Base64

/-- The value of a digit. -/
def value (c : UInt8) : Option ℕ :=
  if 65 ≤ c ∧ c ≤ 90 then some (c.toNat - 65)
  else if 97 ≤ c ∧ c ≤ 122 then some (c.toNat - 71)
  else if 48 ≤ c ∧ c ≤ 57 then some (c.toNat + 4)
  else if c = 43 then some 62
  else if c = 47 then some 63
  else none

/-- The character for padding. -/
def pad : UInt8 := 61

/-- The digits of a text: what stands before the padding. -/
def digits (text : List UInt8) : List UInt8 := text.takeWhile (· != pad)

/-- **A text in base64**: digits, not one more than groups of four, and behind them padding that
makes groups of four, or none. -/
def WellFormed (text : List UInt8) : Prop :=
  text = digits text ++ List.replicate (text.length - (digits text).length) pad ∧
    (∀ c ∈ digits text, (value c).isSome = true) ∧ (digits text).length % 4 ≠ 1 ∧
      (text.length = (digits text).length ∨
        text.length < (digits text).length + 3 ∧ text.length % 4 = 0)

instance (text : List UInt8) : Decidable (WellFormed text) := inferInstanceAs (Decidable (_ ∧ _))

/-- The octets that some values of digits stand for. -/
def octets : List ℕ → Option (List UInt8)
  | [] => some []
  | [_] => none
  | [a, b] => some [.ofNat (a * 4 + b / 16)]
  | [a, b, c] => some [.ofNat (a * 4 + b / 16), .ofNat (b % 16 * 16 + c / 4)]
  | a :: b :: c :: d :: rest => (octets rest).map fun os =>
      .ofNat (a * 4 + b / 16) :: .ofNat (b % 16 * 16 + c / 4) :: .ofNat (c % 4 * 64 + d) :: os

/-- **The octets a text is read as.** -/
def decode (text : List UInt8) : Option (List UInt8) := ((digits text).mapM value).bind octets

variable {text : List UInt8}

/-- Every four values stand for three octets, and so do those left over, rounded down. -/
theorem exists_octets (vs : List ℕ) (h : vs.length % 4 ≠ 1) :
    ∃ os, octets vs = some os ∧ os.length = vs.length * 3 / 4 := by
  induction vs using octets.induct with
  | case1 => exact ⟨_, rfl, rfl⟩
  | case2 a => exact absurd rfl h
  | case3 a b => exact ⟨_, rfl, by simp⟩
  | case4 a b c => exact ⟨_, rfl, by simp⟩
  | case5 a b c d rest ih =>
    simp only [List.length_cons] at h ⊢
    obtain ⟨os, hos, hlen⟩ := ih (by omega)
    refine ⟨_, by rw [octets, hos]; rfl, ?_⟩
    simp only [List.length_cons]
    omega

/-- The padding is no digit. -/
theorem pad_notMem_digits : pad ∉ digits text := fun hmem => by
  have hne := List.mem_takeWhile_imp hmem
  simp at hne

/-- **A text in base64 is read as three octets for every four digits**, rounded down. -/
theorem WellFormed.decode (h : WellFormed text) :
    ∃ os, decode text = some os ∧ os.length = (digits text).length * 3 / 4 := by
  obtain ⟨-, hvalue, hlen, -⟩ := h
  have hvalues : ∀ ds : List UInt8, (∀ c ∈ ds, (value c).isSome = true) →
      ∃ vs, ds.mapM value = some vs ∧ vs.length = ds.length := by
    intro ds hds
    induction ds with
    | nil => exact ⟨[], rfl, rfl⟩
    | cons c ds ih =>
      obtain ⟨hc, hds⟩ := List.forall_mem_cons.mp hds
      obtain ⟨v, hv⟩ := Option.isSome_iff_exists.mp hc
      obtain ⟨vs, hvs, hlen⟩ := ih hds
      refine ⟨v :: vs, ?_, by rw [List.length_cons, List.length_cons, hlen]⟩
      simp [List.mapM_cons, hv, hvs]
  obtain ⟨vs, hvs, hvlen⟩ := hvalues _ hvalue
  obtain ⟨os, hos, holen⟩ := exists_octets vs (hvlen ▸ hlen)
  refine ⟨os, ?_, hvlen ▸ holen⟩
  rw [Base64.decode, hvs]
  exact hos

end Base64

end FtIrc
