import FtIrc.Library.OrdMap
import Mathlib.Algebra.Ring.Int.Defs
import Mathlib.Algebra.Ring.Nat
import Mathlib.Data.Fintype.Card
import Mathlib.Data.Set.Finite.Basic

/-!
# Octets and strings

A `std::string` of the server is a list of octets. This file fixes the handful of
octets the protocol gives a meaning to, the ASCII case folding, and the one
predicate the whole development keeps coming back to:
`FtIrc.OneLine`, a text that holds no NUL, no LF and no CR, hence cannot be read
as more than one protocol line.
-/

namespace FtIrc

/-- An octet, the `unsigned char` of the source. -/
abbrev Octet := UInt8

/-- A `std::string`: a list of octets. -/
abbrev Str := List Octet

/-- Octets are compared as unsigned numbers, the way `std::string` does. -/
instance : LinearOrder Octet where
  le_refl := UInt8.le_refl
  le_trans _ _ _ := UInt8.le_trans
  lt_iff_le_not_ge a b := by
    rw [UInt8.lt_iff_toNat_lt, UInt8.le_iff_toNat_le, UInt8.le_iff_toNat_le]
    omega
  le_antisymm _ _ := UInt8.le_antisymm
  le_total := UInt8.le_total
  toDecidableLE := fun a b => inferInstanceAs (Decidable (a.toBitVec ≤ b.toBitVec))
  toDecidableLT := fun a b => inferInstanceAs (Decidable (a.toBitVec < b.toBitVec))

/-- The octets of a string literal. -/
def str (s : String) : Str := s.toUTF8.data.toList

/-! ### Octets with a meaning -/

/-- The octet that ends a string of C. -/
def NUL : Octet := 0

/-- The octet that ends a line. -/
def LF : Octet := 10

/-- The octet before it on the wire. -/
def CR : Octet := 13

/-- The separator of a message. -/
def SPACE : Octet := 32

/-- The separator of a list. -/
def COMMA : Octet := 44

/-- The octet that opens a prefix or a trailing parameter. -/
def COLON : Octet := 58

/-- The octet that opens a channel name. -/
def HASH : Octet := 35

/-- What ends every line on the wire. -/
def CRLF : Str := [CR, LF]

def isUpperOctet (c : Octet) : Bool := decide (65 ≤ c.toNat ∧ c.toNat ≤ 90)

def isLowerOctet (c : Octet) : Bool := decide (97 ≤ c.toNat ∧ c.toNat ≤ 122)

def isDigitOctet (c : Octet) : Bool := decide (48 ≤ c.toNat ∧ c.toNat ≤ 57)

/-- `std::isalpha` in the C locale. -/
def isAlphaOctet (c : Octet) : Bool := isUpperOctet c || isLowerOctet c

/-- The lower-case letter of an ASCII letter; every other octet stays. -/
def foldOctet (c : Octet) : Octet := if isUpperOctet c then c + 32 else c

/-- The upper-case letter of an ASCII letter; every other octet stays. -/
def raiseOctet (c : Octet) : Octet := if isLowerOctet c then c - 32 else c

/-- **ASCII case folding** of a text. -/
def asciiFold (s : Str) : Str := s.map foldOctet

/-- Every ASCII letter of a text in upper case. -/
def asciiRaise (s : Str) : Str := s.map raiseOctet

/-! ### Decimal numbers -/

/-- The decimal digits of a number, given fuel for at least that many. -/
def decimalFuel : ℕ → ℕ → Str
  | 0, _ => []
  | k + 1, n => (if n < 10 then [] else decimalFuel k (n / 10)) ++ [UInt8.ofNat (48 + n % 10)]

/-- A number in decimal. -/
def decimal (n : ℕ) : Str := decimalFuel (n + 1) n

/-- A signed number in decimal. -/
def signedDecimal (n : ℤ) : Str := if n < 0 then 45 :: decimal n.natAbs else decimal n.natAbs

/-- The value of a nonempty string of decimal digits. -/
def digitsValue (s : Str) : Option ℕ :=
  if s ≠ [] ∧ s.all isDigitOctet then some (s.foldl (fun n c => 10 * n + (c.toNat - 48)) 0)
  else none

/-- The value of a decimal number: digits only, after at most one minus sign. -/
def signedValue (s : Str) : Option ℤ :=
  match s with
  | 45 :: t => (digitsValue t).map fun n => -(n : ℤ)
  | t => (digitsValue t).map fun n => (n : ℤ)

theorem isDigitOctet_of_mem_decimalFuel {k n : ℕ} {c : Octet} (h : c ∈ decimalFuel k n) :
    isDigitOctet c = true := by
  induction k generalizing n with
  | zero => exact absurd h (by simp [decimalFuel])
  | succ k ih =>
    rw [decimalFuel, List.mem_append] at h
    rcases h with h | h
    · by_cases hn : n < 10
      · rw [if_pos hn] at h
        exact absurd h (by simp)
      · rw [if_neg hn] at h
        exact ih h
    · have hc : c = UInt8.ofNat (48 + n % 10) := by simpa using h
      have hmod : n % 10 < 10 := Nat.mod_lt _ (by omega)
      rw [hc, isDigitOctet, decide_eq_true_iff, UInt8.toNat_ofNat']
      omega

/-- **A number printed is read back.** -/
theorem digitsValue_decimal (n : ℕ) : digitsValue (decimal n) = some n := by
  have hvalue : ∀ k n : ℕ, n < k →
      (decimalFuel k n).foldl (fun n c => 10 * n + (c.toNat - 48)) 0 = n := by
    intro k
    induction k with
    | zero => exact fun n hn => absurd hn (Nat.not_lt_zero n)
    | succ k ih =>
      intro n hn
      have hmod : n % 10 < 10 := Nat.mod_lt _ (by omega)
      have hdigit : (UInt8.ofNat (48 + n % 10)).toNat - 48 = n % 10 := by
        rw [UInt8.toNat_ofNat']
        omega
      rw [decimalFuel, List.foldl_append, List.foldl_cons, List.foldl_nil, hdigit]
      split_ifs with hlt
      · rw [List.foldl_nil]
        omega
      · rw [ih (n / 10) (by omega)]
        omega
  have hne : decimal n ≠ [] := by
    rw [decimal, decimalFuel]
    simp
  have hdigits : (decimal n).all isDigitOctet = true :=
    List.all_eq_true.mpr fun c hc => isDigitOctet_of_mem_decimalFuel hc
  rw [digitsValue, if_pos ⟨hne, hdigits⟩, decimal, hvalue (n + 1) n (Nat.lt_succ_self n)]

/-- A number below a power of ten has no more digits than the exponent says. -/
theorem length_decimal_le_of_lt {k n : ℕ} (hn : n < 10 ^ (k + 1)) : (decimal n).length ≤ k + 1 := by
  have hfuel : ∀ k j n : ℕ, n < 10 ^ (k + 1) → (decimalFuel j n).length ≤ k + 1 := by
    intro k
    induction k with
    | zero =>
      rintro (_ | j) n hn
      · exact Nat.zero_le _
      · rw [decimalFuel, if_pos (by omega)]
        exact le_refl _
    | succ k ih =>
      rintro (_ | j) n hn
      · exact Nat.zero_le _
      · have hdiv : n / 10 < 10 ^ (k + 1) := Nat.div_lt_of_lt_mul (by rw [Nat.pow_succ] at hn; omega)
        have hrest := ih j (n / 10) hdiv
        rw [decimalFuel, List.length_append, List.length_singleton]
        split_ifs
        · simp
        · omega
  exact hfuel k _ n hn

/-- What does not begin with a minus sign is read as digits. -/
theorem signedValue_of_head {s : Str} (h : s.head? ≠ some 45) {n : ℕ}
    (hn : digitsValue s = some n) : signedValue s = some (n : ℤ) := by
  rw [signedValue.eq_def]
  split
  · exact absurd rfl h
  · rw [hn]
    rfl

/-- A text with a value is made of digits. -/
theorem isDigitOctet_of_digitsValue {s : Str} {n : ℕ} (h : digitsValue s = some n) :
    ∀ c ∈ s, isDigitOctet c = true := by
  rw [digitsValue] at h
  split_ifs at h with hs
  exact List.all_eq_true.mp hs.2

/-- **A number printed is read back**, signed. -/
theorem signedValue_signedDecimal {n : ℤ} (hn : 0 ≤ n) :
    signedValue (signedDecimal n) = some n := by
  have hvalue := digitsValue_decimal n.natAbs
  rw [signedDecimal, if_neg (by omega), signedValue_of_head _ hvalue, Int.natAbs_of_nonneg hn]
  intro hhead
  exact absurd (isDigitOctet_of_digitsValue hvalue _ (List.mem_of_head? hhead)) (by decide)

/-! ### Texts that are one line -/

/-- An octet that may stand inside a protocol line. -/
def LineOctet (c : Octet) : Prop := c ≠ NUL ∧ c ≠ LF ∧ c ≠ CR

instance : DecidablePred LineOctet := fun c =>
  inferInstanceAs (Decidable (c ≠ NUL ∧ c ≠ LF ∧ c ≠ CR))

/-- **A text with no NUL, no LF and no CR**: followed by `CRLF` it is exactly one
line of the protocol. -/
def OneLine (s : Str) : Prop := ∀ c ∈ s, LineOctet c

instance : DecidablePred OneLine := fun s => List.decidableBAll LineOctet s

/-- What a literal must be to stand in a line; `decide` discharges it. -/
def IsLine (x : String) : Prop := OneLine (str x)

instance : DecidablePred IsLine := fun x => inferInstanceAs (Decidable (OneLine (str x)))

namespace OneLine

variable {s t : Str}

@[simp] theorem nil : OneLine [] := fun _ h => absurd h (by simp)

@[simp] theorem cons_iff {c : Octet} : OneLine (c :: s) ↔ LineOctet c ∧ OneLine s := by
  simp [OneLine]

@[simp] theorem append_iff : OneLine (s ++ t) ↔ OneLine s ∧ OneLine t := by
  simp [OneLine, or_imp, forall_and]

/-- A text made of octets of a one-line text is one line. -/
theorem of_subset (h : OneLine t) (hs : s ⊆ t) : OneLine s := fun c hc => h c (hs hc)

theorem take (h : OneLine s) (n : ℕ) : OneLine (s.take n) := h.of_subset (List.take_subset n s)

theorem drop (h : OneLine s) (n : ℕ) : OneLine (s.drop n) := h.of_subset (List.drop_subset n s)

theorem takeWhile (h : OneLine s) (p : Octet → Bool) : OneLine (s.takeWhile p) :=
  h.of_subset (List.takeWhile_prefix p).subset

theorem dropWhile (h : OneLine s) (p : Octet → Bool) : OneLine (s.dropWhile p) :=
  h.of_subset (List.dropWhile_suffix p).subset

/-- Raising the letters of a one-line text leaves it one line. -/
theorem asciiRaise (h : OneLine s) : OneLine (asciiRaise s) := by
  intro c hc
  obtain ⟨d, hd, rfl⟩ := List.mem_map.mp hc
  rw [raiseOctet]
  split_ifs with hlow
  · have hlow' := of_decide_eq_true hlow
    have hsub : (d - 32).toNat = d.toNat - 32 :=
      UInt8.toNat_sub_of_le d 32 (UInt8.le_iff_toNat_le.mpr (by simp; omega))
    have hge : 65 ≤ (d - 32).toNat := by omega
    refine ⟨?_, ?_, ?_⟩ <;> intro hcon <;> rw [hcon] at hge <;> exact absurd hge (by decide)
  · exact h d hd

/-- A text written out that is one line. -/
@[simp] theorem literal {x : String} (h : IsLine x) : OneLine (str x) := h

/-- A decimal number is one line. -/
@[simp] theorem decimal (n : ℕ) : OneLine (decimal n) := by
  intro c hc
  have hd : 48 ≤ c.toNat ∧ c.toNat ≤ 57 :=
    of_decide_eq_true (isDigitOctet_of_mem_decimalFuel hc)
  refine ⟨?_, ?_, ?_⟩ <;> rintro rfl <;> exact absurd hd (by decide)

/-- A signed decimal number is one line. -/
@[simp] theorem signedDecimal (n : ℤ) : OneLine (signedDecimal n) := by
  rw [FtIrc.signedDecimal]
  split_ifs
  · exact cons_iff.mpr ⟨by decide, decimal _⟩
  · exact decimal _

end OneLine

/-! ### Words -/

/-- **A text with no space**: it stands as one word in a line. -/
def IsWord (s : Str) : Prop := ∀ c ∈ s, c ≠ SPACE

instance : DecidablePred IsWord := fun s => List.decidableBAll (· ≠ SPACE) s

namespace IsWord

variable {s t : Str}

@[simp] theorem nil : IsWord [] := fun _ h => absurd h (by simp)

@[simp] theorem cons_iff {c : Octet} : IsWord (c :: s) ↔ c ≠ SPACE ∧ IsWord s := by
  simp [IsWord]

@[simp] theorem append_iff : IsWord (s ++ t) ↔ IsWord s ∧ IsWord t := by
  simp [IsWord, or_imp, forall_and]

theorem of_subset (h : IsWord t) (hs : s ⊆ t) : IsWord s := fun c hc => h c (hs hc)

/-- Digits are a word. -/
theorem of_digits (h : ∀ c ∈ s, isDigitOctet c = true) : IsWord s := by
  rintro c hc rfl
  exact absurd (h _ hc) (by decide)

/-- A decimal number is a word. -/
@[simp] theorem decimal (n : ℕ) : IsWord (decimal n) :=
  of_digits fun _ => isDigitOctet_of_mem_decimalFuel

@[simp] theorem signedDecimal (n : ℤ) : IsWord (signedDecimal n) := by
  rw [FtIrc.signedDecimal]
  split_ifs
  · exact cons_iff.mpr ⟨by decide, decimal _⟩
  · exact decimal _

/-- What is read as a number is a word. -/
theorem of_signedValue {n : ℤ} (h : signedValue s = some n) : IsWord s := by
  rw [signedValue.eq_def] at h
  split at h
  · rename_i t
    rcases hk : digitsValue t with _ | k
    · rw [hk] at h
      exact absurd h (by simp)
    · exact cons_iff.mpr ⟨by decide, of_digits (isDigitOctet_of_digitsValue hk)⟩
  · rcases hk : digitsValue s with _ | k
    · rw [hk] at h
      exact absurd h (by simp)
    · exact of_digits (isDigitOctet_of_digitsValue hk)

end IsWord

end FtIrc
