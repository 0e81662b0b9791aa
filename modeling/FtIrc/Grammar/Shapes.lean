import FtIrc.Library.Searching
import FtIrc.Grammar.Derivation
import FtIrc.Grammar.Program
import FtIrc.Grammar.Stored

/-!
# The pattern of a node

A node that leads to no rule again is a pattern, with the rules written out where they are referred to
(`FtIrc.Abnf.Grammar.pattern`). What the pattern takes is what is derived from the node
(`FtIrc.Abnf.Grammar.language_pattern`), and whether it may match nothing, is a choice of single
octets, or captures anything is what the grammar says of the node.
-/

namespace FtIrc

namespace Abnf

open Fuel ProgramCompiler

open scoped Computability

/-! ### Classes -/

/-- Whether an octet is in a class. -/
def inBits (bits : Finset ℤ) (c : Octet) : Bool := decide ((c.toNat : ℤ) ∈ bits)

theorem mem_rangeBits {lo hi x : ℤ} : x ∈ rangeBits lo hi ↔ lo ≤ x ∧ x ≤ hi := by
  rw [rangeBits, Finset.mem_image]
  constructor
  · rintro ⟨n, hn, rfl⟩
    rw [Finset.mem_range] at hn
    omega
  · rintro ⟨hlo, hhi⟩
    refine ⟨(x - lo).toNat, ?_, by omega⟩
    rw [Finset.mem_range]
    omega

set_option maxRecDepth 8000 in
theorem fold_cases (x : Octet) : x = foldOctet x ∨ x = raiseOctet (foldOctet x) := by
  have hall : ∀ n < 256, UInt8.ofNat n = foldOctet (UInt8.ofNat n) ∨ UInt8.ofNat n = raiseOctet (foldOctet (UInt8.ofNat n)) := by
    decide
  have hx := hall x.toNat x.toNat_lt
  rwa [UInt8.ofNat_toNat] at hx

set_option maxRecDepth 8000 in
theorem fold_fold (x : Octet) : foldOctet (foldOctet x) = foldOctet x ∧ foldOctet (raiseOctet (foldOctet x)) = foldOctet x := by
  have hall : ∀ n < 256, foldOctet (foldOctet (UInt8.ofNat n)) = foldOctet (UInt8.ofNat n) ∧
      foldOctet (raiseOctet (foldOctet (UInt8.ofNat n))) = foldOctet (UInt8.ofNat n) := by
    decide
  have hx := hall x.toNat x.toNat_lt
  rwa [UInt8.ofNat_toNat] at hx

/-- **The bits of a letter** are those of the octets that are the same letter. -/
theorem mem_caseBits {x c : Octet} : (x.toNat : ℤ) ∈ caseBits c ↔ foldOctet x = foldOctet c := by
  rw [caseBits, Finset.mem_insert, Finset.mem_singleton, Nat.cast_inj, Nat.cast_inj, UInt8.toNat_inj, UInt8.toNat_inj]
  constructor
  · rintro (rfl | rfl)
    · exact (fold_fold c).1
    · exact (fold_fold c).2
  · intro h
    rcases fold_cases x with hx | hx
    · exact .inl (hx.trans h)
    · exact .inr (by rw [← h]; exact hx)

/-! ### The language of a node -/

namespace Grammar

variable {g : Grammar} {i k : ℕ} {s : Str}

/-- **The texts that are derived from a node.** -/
def language (g : Grammar) (i : ℕ) : Language Octet := {s | ∃ caps, g.Derives i s caps}

theorem mem_language_iff : s ∈ g.language i ↔ ∃ caps, g.Derives i s caps := Iff.rfl

theorem mem_prod_language_iff {is : List ℕ} : s ∈ (is.map g.language).prod ↔ ∃ caps, g.DerivesAll is s caps := by
  induction is generalizing s with
  | nil =>
    rw [List.map_nil, List.prod_nil, Language.mem_one]
    constructor
    · rintro rfl
      exact ⟨[], .nil⟩
    · rintro ⟨caps, h⟩
      cases h
      rfl
  | cons i is ih =>
    rw [List.map_cons, List.prod_cons, Language.mem_mul]
    constructor
    · rintro ⟨a, ⟨caps, ha⟩, b, hb, rfl⟩
      obtain ⟨caps', hb⟩ := ih.mp hb
      exact ⟨caps ++ caps', .cons ha hb⟩
    · rintro ⟨caps, h⟩
      cases h with
      | cons ha hb => exact ⟨_, ⟨_, ha⟩, _, ih.mpr ⟨_, hb⟩, rfl⟩

theorem mem_language_literal (hkind : (g.node i).kind = .literal) :
    s ∈ g.language i ↔ asciiFold s = asciiFold (g.literal (g.node i).literal) := by
  constructor
  · rintro ⟨caps, h⟩
    cases h <;> simp_all
  · exact fun h => ⟨[], .literal hkind h⟩

theorem mem_language_octetRange (hkind : (g.node i).kind = .octetRange) :
    s ∈ g.language i ↔ ∃ c : Octet, ((g.node i).lo ≤ c.toNat ∧ (c.toNat : ℤ) ≤ (g.node i).hi) ∧ s = [c] := by
  constructor
  · rintro ⟨caps, h⟩
    cases h <;> simp_all
  · rintro ⟨c, hc, rfl⟩
    exact ⟨[], .octetRange hkind hc⟩

theorem language_reference (hkind : (g.node i).kind = .reference) (hroot : g.ruleRoot (g.node i).lo ≠ kNoRule) :
    g.language i = g.language (g.ruleRoot (g.node i).lo).toNat := by
  ext s
  constructor
  · rintro ⟨caps, h⟩
    cases h <;> first | exact ⟨_, ‹_›⟩ | simp_all
  · rintro ⟨caps, h⟩
    by_cases hcapture : (g.node i).capture = kNoCapture
    · exact ⟨caps, .reference hkind hroot hcapture h⟩
    · exact ⟨_, .captured hkind hroot hcapture h⟩

theorem language_sequence (hkind : (g.node i).kind = .sequence) :
    g.language i = ((g.childrenOf (g.node i)).map g.language).prod := by
  ext s
  refine Iff.trans ?_ mem_prod_language_iff.symm
  constructor
  · rintro ⟨caps, h⟩
    cases h <;> first | exact ⟨_, ‹_›⟩ | simp_all
  · rintro ⟨caps, h⟩
    exact ⟨caps, .sequence hkind h⟩

theorem mem_language_alternation (hkind : (g.node i).kind = .alternation) :
    s ∈ g.language i ↔ ∃ child ∈ g.childrenOf (g.node i), s ∈ g.language child := by
  constructor
  · rintro ⟨caps, h⟩
    cases h <;> first | exact ⟨_, ‹_›, _, ‹_›⟩ | simp_all
  · rintro ⟨child, hchild, caps, h⟩
    exact ⟨caps, .alternation hkind hchild h⟩

theorem mem_language_repetition (hkind : (g.node i).kind = .repetition) :
    s ∈ g.language i ↔ ∃ times : ℕ, (g.node i).lo ≤ times ∧ ((g.node i).hi = kUnbounded ∨ (times : ℤ) ≤ (g.node i).hi) ∧
      s ∈ g.language (g.child (g.node i).first) ^ times := by
  have hpow : ∀ times : ℕ, s ∈ g.language (g.child (g.node i).first) ^ times ↔
      ∃ caps, g.DerivesAll (List.replicate times (g.child (g.node i).first)) s caps := fun times => by
    rw [← mem_prod_language_iff, List.map_replicate, List.prod_replicate]
  constructor
  · rintro ⟨caps, h⟩
    cases h <;> first | exact ⟨_, ‹_›, ‹_›, (hpow _).mpr ⟨_, ‹_›⟩⟩ | simp_all
  · rintro ⟨times, hlo, hhi, h⟩
    obtain ⟨caps, h⟩ := (hpow times).mp h
    exact ⟨caps, .repetition hkind hlo hhi h⟩

/-! ### The pattern of a node -/

/-- The pattern of a text, in upper or lower case. -/
def word {K : Type} : Str → Pattern (Finset ℤ) K
  | [] => .empty
  | [c] => .symbol (caseBits c)
  | c :: d :: text => .seq (.symbol (caseBits c)) (word (d :: text))

/-- The patterns of several nodes. -/
def patterns {P : Type} (step : ℕ → Option P) : List ℕ → Option (List P)
  | [] => some []
  | i :: is => (step i).bind fun a => (patterns step is).map (a :: ·)

/-- **The pattern of a node**, where it has one. The limit of a repetition is no number below zero. -/
def pattern (g : Grammar) : ℕ → ℕ → Option (Pattern (Finset ℤ) ℤ)
  | 0, _ => none
  | k + 1, i =>
    let n := g.node i
    match n.kind with
    | .literal => some (word (g.literal n.literal))
    | .octetRange => some (.symbol (rangeBits n.lo n.hi))
    | .reference =>
      if g.ruleRoot n.lo = kNoRule then none
      else (g.pattern k (g.ruleRoot n.lo).toNat).map fun a => if n.capture = kNoCapture then a else .capture n.capture a
    | .sequence => (patterns (g.pattern k) (g.childrenOf n)).map Pattern.seqs
    | .alternation => (patterns (g.pattern k) (g.childrenOf n)).map Pattern.alts
    | .repetition =>
      if n.hi < kUnbounded then none
      else if n.lo ≤ 0 ∧ n.hi = 0 then some .empty
      else (g.pattern k (g.child n.first)).map (.rep n.lo.toNat (if n.hi = kUnbounded then none else some n.hi.toNat))

theorem patterns_eq_some {P : Type} {step : ℕ → Option P} {is : List ℕ} {as : List P} :
    patterns step is = some as ↔ List.Forall₂ (fun i a => step i = some a) is as := by
  induction is generalizing as with
  | nil =>
    rw [patterns, Option.some_inj, List.forall₂_nil_left_iff, eq_comm]
  | cons i is ih =>
    rw [patterns, Option.bind_eq_some_iff]
    constructor
    · rintro ⟨a, ha, h⟩
      obtain ⟨as, has, rfl⟩ := Option.map_eq_some_iff.mp h
      exact .cons ha (ih.mp has)
    · intro h
      cases h with
      | cons ha has => exact ⟨_, ha, Option.map_eq_some_iff.mpr ⟨_, ih.mpr has, rfl⟩⟩

theorem refines_patterns {P : Type} {step step' : ℕ → Option P} (h : ∀ i, Refines (step i) (step' i)) (is : List ℕ) :
    Refines (patterns step is) (patterns step' is) := by
  induction is with
  | nil => exact .refl _
  | cons i is ih => exact (h i).bind fun a => ih.map

theorem steady_pattern (g : Grammar) (i : ℕ) : Steady fun k => g.pattern k i := by
  intro k
  induction k generalizing i with
  | zero => exact .none _
  | succ k ih =>
    change Refines (g.pattern (k + 1) i) (g.pattern (k + 1 + 1) i)
    rw [pattern, pattern]
    rcases (g.node i).kind
    · exact .ite (.refl _) (ih _).map
    · exact .refl _
    · exact .refl _
    · exact (refines_patterns ih _).map
    · exact (refines_patterns ih _).map
    · exact .ite (.refl _) (.ite (.refl _) (ih _).map)

/-- A node has this pattern. -/
def Shape (g : Grammar) (i : ℕ) (a : Pattern (Finset ℤ) ℤ) : Prop := Gives (fun k => g.pattern k i) a

variable {a : Pattern (Finset ℤ) ℤ}

theorem Shape.unique {b : Pattern (Finset ℤ) ℤ} (ha : g.Shape i a) (hb : g.Shape i b) : a = b :=
  (g.steady_pattern i).gives_unique ha hb

theorem shape_iff : g.Shape i a ↔ ∃ k, g.pattern (k + 1) i = some a := (gives_succ_iff (g.steady_pattern i)).symm

/-- **What is so of every node and its pattern**, by the kind of the node. -/
@[elab_as_elim]
theorem Shape.ind {motive : ∀ i a, g.Shape i a → Prop}
    (literal : ∀ i h, (g.node i).kind = .literal → motive i (word (g.literal (g.node i).literal)) h)
    (octetRange : ∀ i h, (g.node i).kind = .octetRange → motive i (.symbol (rangeBits (g.node i).lo (g.node i).hi)) h)
    (reference : ∀ i b h (hb : g.Shape (g.ruleRoot (g.node i).lo).toNat b), (g.node i).kind = .reference →
      g.ruleRoot (g.node i).lo ≠ kNoRule → motive _ b hb →
      motive i (if (g.node i).capture = kNoCapture then b else .capture (g.node i).capture b) h)
    (sequence : ∀ i as h, (g.node i).kind = .sequence →
      List.Forall₂ (fun i a => ∃ h, motive i a h) (g.childrenOf (g.node i)) as → motive i (Pattern.seqs as) h)
    (alternation : ∀ i as h, (g.node i).kind = .alternation →
      List.Forall₂ (fun i a => ∃ h, motive i a h) (g.childrenOf (g.node i)) as → motive i (Pattern.alts as) h)
    (nothing : ∀ i h, (g.node i).kind = .repetition → (g.node i).lo ≤ 0 → (g.node i).hi = 0 → motive i .empty h)
    (repetition : ∀ i b h (hb : g.Shape (g.child (g.node i).first) b), (g.node i).kind = .repetition →
      kUnbounded ≤ (g.node i).hi → ¬ ((g.node i).lo ≤ 0 ∧ (g.node i).hi = 0) → motive _ b hb →
      motive i (.rep (g.node i).lo.toNat (if (g.node i).hi = kUnbounded then none else some (g.node i).hi.toNat) b) h)
    {i : ℕ} {a : Pattern (Finset ℤ) ℤ} (h : g.Shape i a) : motive i a h := by
  obtain ⟨k, hk⟩ := h
  induction k generalizing i a with
  | zero => cases hk
  | succ k ih =>
    have hshape : g.Shape i a := ⟨k + 1, hk⟩
    have hparts : ∀ {is as}, patterns (g.pattern k) is = some as → List.Forall₂ (fun i a => ∃ h, motive i a h) is as :=
      fun h => (patterns_eq_some.mp h).imp fun _ _ h => ⟨⟨k, h⟩, ih h⟩
    change motive i a hshape
    simp only [pattern] at hk
    rcases hkind : (g.node i).kind <;> simp only [hkind] at hk
    case reference =>
      by_cases hroot : g.ruleRoot (g.node i).lo = kNoRule
      · rw [if_pos hroot] at hk
        cases hk
      rw [if_neg hroot] at hk
      obtain ⟨b, hb, rfl⟩ := Option.map_eq_some_iff.mp hk
      exact reference i b hshape ⟨k, hb⟩ hkind hroot (ih hb)
    case literal =>
      obtain rfl := Option.some.inj hk
      exact literal i hshape hkind
    case octetRange =>
      obtain rfl := Option.some.inj hk
      exact octetRange i hshape hkind
    case sequence =>
      obtain ⟨as, has, rfl⟩ := Option.map_eq_some_iff.mp hk
      exact sequence i as hshape hkind (hparts has)
    case alternation =>
      obtain ⟨as, has, rfl⟩ := Option.map_eq_some_iff.mp hk
      exact alternation i as hshape hkind (hparts has)
    case repetition =>
      by_cases hlow : (g.node i).hi < kUnbounded
      · rw [if_pos hlow] at hk
        cases hk
      rw [if_neg hlow] at hk
      by_cases hnone : (g.node i).lo ≤ 0 ∧ (g.node i).hi = 0
      · rw [if_pos hnone] at hk
        obtain rfl := Option.some.inj hk
        exact nothing i hshape hkind hnone.1 hnone.2
      · rw [if_neg hnone] at hk
        obtain ⟨b, hb, rfl⟩ := Option.map_eq_some_iff.mp hk
        exact repetition i b hshape ⟨k, hb⟩ hkind (not_lt.mp hlow) hnone (ih hb)

theorem Shape.literal (hkind : (g.node i).kind = .literal) (h : g.Shape i a) : a = word (g.literal (g.node i).literal) := by
  obtain ⟨k, h⟩ := shape_iff.mp h
  simp only [pattern, hkind] at h
  exact (Option.some.inj h).symm

theorem Shape.octetRange (hkind : (g.node i).kind = .octetRange) (h : g.Shape i a) :
    a = .symbol (rangeBits (g.node i).lo (g.node i).hi) := by
  obtain ⟨k, h⟩ := shape_iff.mp h
  simp only [pattern, hkind] at h
  exact (Option.some.inj h).symm

theorem Shape.reference (hkind : (g.node i).kind = .reference) (h : g.Shape i a) : g.ruleRoot (g.node i).lo ≠ kNoRule ∧
    ∃ b, g.Shape (g.ruleRoot (g.node i).lo).toNat b ∧ a = if (g.node i).capture = kNoCapture then b else .capture (g.node i).capture b := by
  obtain ⟨k, h⟩ := shape_iff.mp h
  simp only [pattern, hkind] at h
  by_cases hroot : g.ruleRoot (g.node i).lo = kNoRule
  · rw [if_pos hroot] at h
    cases h
  · rw [if_neg hroot] at h
    obtain ⟨b, hb, rfl⟩ := Option.map_eq_some_iff.mp h
    exact ⟨hroot, b, ⟨k, hb⟩, rfl⟩

theorem Shape.sequence (hkind : (g.node i).kind = .sequence) (h : g.Shape i a) :
    ∃ as, List.Forall₂ g.Shape (g.childrenOf (g.node i)) as ∧ a = Pattern.seqs as := by
  obtain ⟨k, h⟩ := shape_iff.mp h
  simp only [pattern, hkind] at h
  obtain ⟨as, has, rfl⟩ := Option.map_eq_some_iff.mp h
  exact ⟨as, (patterns_eq_some.mp has).imp fun _ _ h => ⟨k, h⟩, rfl⟩

theorem Shape.alternation (hkind : (g.node i).kind = .alternation) (h : g.Shape i a) :
    ∃ as, List.Forall₂ g.Shape (g.childrenOf (g.node i)) as ∧ a = Pattern.alts as := by
  obtain ⟨k, h⟩ := shape_iff.mp h
  simp only [pattern, hkind] at h
  obtain ⟨as, has, rfl⟩ := Option.map_eq_some_iff.mp h
  exact ⟨as, (patterns_eq_some.mp has).imp fun _ _ h => ⟨k, h⟩, rfl⟩

theorem Shape.repetition (hkind : (g.node i).kind = .repetition) (h : g.Shape i a) : kUnbounded ≤ (g.node i).hi ∧
    (((g.node i).lo ≤ 0 ∧ (g.node i).hi = 0 ∧ a = .empty) ∨ ∃ b, g.Shape (g.child (g.node i).first) b ∧
      a = .rep (g.node i).lo.toNat (if (g.node i).hi = kUnbounded then none else some (g.node i).hi.toNat) b) := by
  obtain ⟨k, h⟩ := shape_iff.mp h
  simp only [pattern, hkind] at h
  by_cases hlow : (g.node i).hi < kUnbounded
  · rw [if_pos hlow] at h
    cases h
  refine ⟨not_lt.mp hlow, ?_⟩
  rw [if_neg hlow] at h
  by_cases hnone : (g.node i).lo ≤ 0 ∧ (g.node i).hi = 0
  · rw [if_pos hnone] at h
    exact .inl ⟨hnone.1, hnone.2, (Option.some.inj h).symm⟩
  · rw [if_neg hnone] at h
    obtain ⟨b, hb, rfl⟩ := Option.map_eq_some_iff.mp h
    exact .inr ⟨b, ⟨k, hb⟩, rfl⟩

/-! ### What a pattern says of its node -/

theorem mem_language_word {K : Type} {text : Str} :
    s ∈ (word text : Pattern (Finset ℤ) K).language inBits ↔ asciiFold s = asciiFold text := by
  have hsymbol : ∀ {c : Octet} {s : Str}, s ∈ (Pattern.symbol (caseBits c) : Pattern (Finset ℤ) K).language inBits ↔
      asciiFold s = [foldOctet c] := by
    intro c s
    constructor
    · rintro ⟨x, hx, rfl⟩
      exact congrArg (· :: []) (mem_caseBits.mp (of_decide_eq_true hx))
    · intro hs
      obtain ⟨x, rest, rfl, hx, hrest⟩ := List.map_eq_cons_iff.mp hs
      obtain rfl := List.map_eq_nil_iff.mp hrest
      exact ⟨x, decide_eq_true (mem_caseBits.mpr hx), rfl⟩
  induction text generalizing s with
  | nil => exact Language.mem_one s |>.trans List.map_eq_nil_iff.symm
  | cons c text ih =>
    rcases text with _ | ⟨d, text⟩
    · exact hsymbol
    · constructor
      · intro hs
        obtain ⟨s₁, hs₁, s₂, hs₂, rfl⟩ := Language.mem_mul.mp hs
        have hrest := ih.mp hs₂
        rw [asciiFold, List.map_append, ← asciiFold, hsymbol.mp hs₁, ← asciiFold, hrest]
        rfl
      · intro hs
        obtain ⟨x, rest, rfl, hx, hrest⟩ := List.map_eq_cons_iff.mp hs
        have hone : asciiFold [x] = [foldOctet c] := congrArg (· :: []) hx
        exact Language.append_mem_mul (hsymbol.mpr hone) (ih.mpr hrest)

theorem map_parts {β : Type} {f : Pattern (Finset ℤ) ℤ → β} {f' : ℕ → β} {is : List ℕ} {as : List (Pattern (Finset ℤ) ℤ)}
    (h : List.Forall₂ (fun i a => ∃ _ : g.Shape i a, f a = f' i) is as) : as.map f = is.map f' := by
  induction h with
  | nil => rfl
  | cons ha _ ih =>
    obtain ⟨-, ha⟩ := ha
    rw [List.map_cons, List.map_cons, ha, ih]

theorem forall_parts {P : Pattern (Finset ℤ) ℤ → Prop} {is : List ℕ} {as : List (Pattern (Finset ℤ) ℤ)}
    (h : List.Forall₂ (fun i a => ∃ _ : g.Shape i a, P a) is as) : ∀ a ∈ as, P a := by
  induction h with
  | nil => simp
  | cons ha _ ih =>
    obtain ⟨-, ha⟩ := ha
    exact List.forall_mem_cons.mpr ⟨ha, ih⟩

/-- **A pattern takes what is derived from its node.** -/
theorem Shape.language_eq (h : g.Shape i a) : a.language inBits = g.language i := by
  induction h using Shape.ind with
  | literal i _ hkind =>
    ext s
    exact mem_language_word.trans (mem_language_literal hkind).symm
  | octetRange i _ hkind =>
    ext s
    refine Iff.trans (exists_congr fun c => ?_) (mem_language_octetRange hkind).symm
    rw [inBits, decide_eq_true_eq, mem_rangeBits]
  | reference i b _ _ hkind hroot ih =>
    rw [language_reference hkind hroot, ← ih]
    split_ifs <;> rfl
  | sequence i as _ hkind ih => rw [Pattern.language_seqs, map_parts ih, language_sequence hkind]
  | alternation i as _ hkind ih =>
    ext s
    have hany : (∃ M ∈ as.map (Pattern.language inBits), s ∈ M) ↔ ∃ M ∈ (g.childrenOf (g.node i)).map g.language, s ∈ M := by
      rw [map_parts ih]
    rw [Pattern.mem_language_alts, mem_language_alternation hkind]
    simpa only [List.mem_map, exists_exists_and_eq_and] using hany
  | nothing i _ hkind hlo hhi =>
    ext s
    rw [mem_language_repetition hkind]
    constructor
    · exact fun hs => ⟨0, by omega, .inr (by omega), hs⟩
    · rintro ⟨times, -, hmost, hs⟩
      obtain rfl : times = 0 := by
        rw [hhi] at hmost
        have hle := hmost.resolve_left (by decide)
        omega
      exact hs
  | repetition i b _ _ hkind hlow _ ih =>
    ext s
    rw [mem_language_repetition hkind, Pattern.mem_language_rep, ih]
    refine exists_congr fun times => and_congr Int.toNat_le (and_congr_left fun _ => ?_)
    split_ifs with hun
    · simp [hun]
    · rw [kUnbounded] at hlow hun
      simp only [Option.mem_some_iff, forall_eq', kUnbounded]
      omega

/-! ### Repetitions that progress -/

/-- **No repetition that may go round twice has a body that may match nothing.** -/
def Progresses (g : Grammar) : Prop :=
  ∀ i, (g.node i).kind = .repetition → (g.node i).hi ≠ 0 → (g.node i).hi ≠ 1 → ¬ g.Nullable (g.child (g.node i).first)

theorem nullable_word {K : Type} {text : Str} (h : (word text : Pattern (Finset ℤ) K).nullable = true) : text = [] := by
  rcases text with _ | ⟨c, _ | ⟨d, text⟩⟩
  · rfl
  · cases h
  · cases h

/-- Bounds are right, also where there is no node. -/
theorem boundsFine_node (hb : g.EveryNode GrammarNode.BoundsFine) (i : ℕ) : (g.node i).BoundsFine := by
  rw [Grammar.node, List.getD_eq_getElem?_getD]
  cases hi : g.nodes[i]? with
  | none =>
    intro hkind
    cases hkind
  | some n => exact hb n (List.mem_of_getElem? hi)

theorem nullable_seqs {is : List ℕ} {as : List (Pattern (Finset ℤ) ℤ)}
    (h : List.Forall₂ (fun i a => ∃ _ : g.Shape i a, a.nullable = true → g.Nullable i) is as)
    (hnull : (Pattern.seqs as).nullable = true) : ∀ i ∈ is, g.Nullable i := by
  rw [Pattern.nullable_seqs, List.all_eq_true] at hnull
  induction h with
  | nil => simp
  | cons ha _ ih =>
    obtain ⟨-, ha⟩ := ha
    obtain ⟨hfirst, hrest⟩ := List.forall_mem_cons.mp hnull
    exact List.forall_mem_cons.mpr ⟨ha hfirst, ih hrest⟩

theorem nullable_alts {is : List ℕ} {as : List (Pattern (Finset ℤ) ℤ)}
    (h : List.Forall₂ (fun i a => ∃ _ : g.Shape i a, a.nullable = true → g.Nullable i) is as)
    (hnull : (Pattern.alts as).nullable = true) : ∃ i ∈ is, g.Nullable i := by
  induction h with
  | nil => cases hnull
  | @cons i a is as ha _ ih =>
    obtain ⟨-, ha⟩ := ha
    rw [List.exists_mem_cons_iff]
    rcases as with _ | ⟨b, as⟩
    · exact .inl (ha hnull)
    · rcases Bool.or_eq_true_iff.mp hnull with hnull | hnull
      · exact .inl (ha hnull)
      · exact .inr (ih hnull)

/-- **What may match nothing as a pattern** may match nothing as a node. -/
theorem Shape.nullable (hb : g.EveryNode GrammarNode.BoundsFine) (h : g.Shape i a) (hnull : a.nullable = true) : g.Nullable i := by
  induction h using Shape.ind with
  | literal i _ hkind => exact .literal hkind (nullable_word hnull)
  | octetRange i _ hkind => cases hnull
  | reference i b _ _ hkind hroot ih =>
    refine .reference hkind hroot (ih ?_)
    split_ifs at hnull
    · exact hnull
    · exact hnull
  | sequence i as _ hkind ih => exact .sequence hkind (nullable_seqs ih hnull)
  | alternation i as _ hkind ih =>
    obtain ⟨child, hchild, hnull⟩ := nullable_alts ih hnull
    exact .alternation hkind hchild hnull
  | nothing i _ hkind hlo _ => exact .repetition hkind (.inl (le_antisymm hlo (boundsFine_node hb i hkind).1))
  | repetition i b _ _ hkind _ _ ih =>
    have hlo := (boundsFine_node hb i hkind).1
    rcases Bool.or_eq_true_iff.mp hnull with hzero | hnull
    · have hzero := of_decide_eq_true hzero
      exact .repetition hkind (.inl (by omega))
    · exact .repetition hkind (.inr (ih hnull))

theorem every_word {K : Type} {P : Pattern (Finset ℤ) K → Prop} (text : Str) : (word text).Every P := by
  induction text with
  | nil => trivial
  | cons c text ih =>
    rcases text with _ | ⟨d, text⟩
    · trivial
    · exact ⟨trivial, ih⟩

/-- **What is so of every repetition and every capture of a grammar** is so inside of a pattern. -/
theorem Shape.every {P : Pattern (Finset ℤ) ℤ → Prop}
    (hcapture : ∀ i b, (g.node i).kind = .reference → (g.node i).capture ≠ kNoCapture →
      g.Shape (g.ruleRoot (g.node i).lo).toNat b → P (.capture (g.node i).capture b))
    (hrepetition : ∀ i b, (g.node i).kind = .repetition → ¬ ((g.node i).lo ≤ 0 ∧ (g.node i).hi = 0) →
      g.Shape (g.child (g.node i).first) b →
      P (.rep (g.node i).lo.toNat (if (g.node i).hi = kUnbounded then none else some (g.node i).hi.toNat) b))
    (h : g.Shape i a) : a.Every P := by
  induction h using Shape.ind with
  | literal i _ _ => exact every_word _
  | octetRange i _ _ => trivial
  | reference i b _ hb hkind _ ih =>
    split_ifs with hnone
    · exact ih
    · exact ⟨hcapture i b hkind hnone hb, ih⟩
  | sequence i as _ _ ih => exact Pattern.every_seqs (forall_parts ih)
  | alternation i as _ _ ih => exact Pattern.every_alts (forall_parts ih)
  | nothing i _ _ _ _ => trivial
  | repetition i b _ hb hkind _ hnone ih => exact ⟨hrepetition i b hkind hnone hb, ih⟩

/-- **Where repetitions progress**, none of them is stopped early. -/
theorem Shape.allSteady (hb : g.EveryNode GrammarNode.BoundsFine) (hprogresses : g.Progresses) (h : g.Shape i a) :
    a.AllSteady := by
  refine h.every (fun _ _ _ _ _ => trivial) fun i b hkind hnone hshape => ?_
  obtain ⟨hlo, hhi⟩ := boundsFine_node hb i hkind
  have hzero : (g.node i).hi ≠ 0 := by
    intro hzero
    rw [hzero, kUnbounded] at hhi
    exact hnone ⟨by omega, hzero⟩
  by_cases hone : (g.node i).hi = 1
  · have hun : ¬ (1 : ℤ) = kUnbounded := by decide
    rw [hone] at hhi ⊢
    rw [if_neg hun]
    exact .inr ⟨1, rfl, le_rfl, by have := hhi.resolve_left hun; omega⟩
  · refine .inl ?_
    by_contra hnull
    exact hprogresses i hkind hzero hone (hshape.nullable hb (by simpa using hnull))

/-- **No repetition whose body may match nothing** must have it twice. -/
def Unhindered (g : Grammar) : Prop :=
  ∀ i, (g.node i).kind = .repetition → 1 < (g.node i).lo → ¬ g.Nullable (g.child (g.node i).first)

theorem Progresses.unhindered (hb : g.EveryNode GrammarNode.BoundsFine) (h : g.Progresses) : g.Unhindered := by
  intro i hkind hlo
  obtain ⟨-, hhi⟩ := boundsFine_node hb i hkind
  rw [kUnbounded] at hhi
  exact h i hkind (by omega) (by omega)

/-- **Where no repetition is hindered**, neither is one of the pattern. -/
theorem Shape.unhindered (hb : g.EveryNode GrammarNode.BoundsFine) (hunhindered : g.Unhindered) (h : g.Shape i a) :
    a.Unhindered := by
  refine h.every (fun _ _ _ _ _ => trivial) fun i b hkind _ hshape => ?_
  by_cases hlo : 1 < (g.node i).lo
  · refine .inl ?_
    by_contra hnull
    exact hunhindered i hkind hlo (hshape.nullable hb (by simpa using hnull))
  · exact .inr (by omega)

/-! ### Captures -/

theorem labels_word {K : Type} (text : Str) : (word text : Pattern (Finset ℤ) K).labels = [] := by
  induction text with
  | nil => rfl
  | cons c text ih =>
    rcases text with _ | ⟨d, text⟩
    · rfl
    · exact ih

/-- What is no node is no repetition. -/
theorem lt_of_repetition (hkind : (g.node i).kind = .repetition) : i < g.nodes.length := by
  by_contra hout
  rw [node, List.getD_eq_default _ _ (not_lt.mp hout)] at hkind
  cases hkind

theorem lt_of_reference (hcapture : (g.node i).capture ≠ kNoCapture) : i < g.nodes.length := by
  by_contra hout
  rw [node, List.getD_eq_default _ _ (not_lt.mp hout)] at hcapture
  exact hcapture rfl

/-- What is captured is one of the captures of the grammar. -/
theorem Shape.label_mem (hg : g.Ordered) (h : g.Shape i a) : ∀ l ∈ a.labels, ∃ j < g.captureNames.length, l = (j : ℕ) := by
  induction h using Shape.ind with
  | literal i _ _ => simp [labels_word]
  | octetRange i _ _ => exact fun l hl => absurd hl List.not_mem_nil
  | reference i b _ _ _ _ ih =>
    split_ifs with hcapture
    · exact ih
    · refine List.forall_mem_cons.mpr ⟨?_, ih⟩
      exact ((hg.inTables (lt_of_reference hcapture)).capture).resolve_left hcapture
  | sequence i as _ _ ih =>
    intro l hl
    obtain ⟨a, ha, hl⟩ := Pattern.mem_labels_seqs hl
    exact forall_parts ih a ha l hl
  | alternation i as _ _ ih =>
    intro l hl
    obtain ⟨a, ha, hl⟩ := Pattern.mem_labels_alts hl
    exact forall_parts ih a ha l hl
  | nothing i _ _ _ _ => exact fun l hl => absurd hl List.not_mem_nil
  | repetition i b _ _ _ _ _ ih => exact ih

theorem anyOf_false {f : ℕ → Option Bool} {cs : List ℕ} (h : anyOf f cs = some false) : ∀ c ∈ cs, f c = some false := by
  rw [anyOf] at h
  obtain ⟨r, hr, hno⟩ := Option.map_eq_some_iff.mp h
  clear h
  induction cs with
  | nil => simp
  | cons c cs ih =>
    obtain ⟨r₁, hr₁, hr⟩ := Option.bind_eq_some_iff.mp hr
    obtain ⟨yes, hyes, rfl⟩ := Option.map_eq_some_iff.mp hr₁
    cases yes with
    | true =>
      obtain rfl := Option.some.inj hr
      cases hno
    | false => exact List.forall_mem_cons.mpr ⟨hyes, ih hr⟩

theorem hasCapture_child {c : ℕ} (h : hasCapture g k i = some false) (hkind : (g.node i).kind ≠ .reference)
    (hc : c ∈ g.childrenOf (g.node i)) : ∃ k, hasCapture g k c = some false := by
  rcases k with _ | k
  · cases h
  rw [hasCapture] at h
  rw [if_neg hkind] at h
  exact ⟨k, anyOf_false h c hc⟩

theorem labels_of_parts {is : List ℕ} {as : List (Pattern (Finset ℤ) ℤ)}
    (h : List.Forall₂ (fun i a => ∃ _ : g.Shape i a, (∃ k, hasCapture g k i = some false) → a.labels = []) is as)
    (hnone : ∀ i ∈ is, ∃ k, hasCapture g k i = some false) : ∀ a ∈ as, a.labels = [] := by
  induction h with
  | nil => simp
  | cons ha _ ih =>
    obtain ⟨-, ha⟩ := ha
    obtain ⟨hfirst, hrest⟩ := List.forall_mem_cons.mp hnone
    exact List.forall_mem_cons.mpr ⟨ha hfirst, ih hrest⟩

/-- **What the compiler finds no capture in** captures nothing. -/
theorem Shape.labels_nil (hg : g.Ordered) (h : g.Shape i a) (hnone : ∃ k, hasCapture g k i = some false) : a.labels = [] := by
  induction h using Shape.ind with
  | literal i _ _ => exact labels_word _
  | octetRange i _ _ => rfl
  | reference i b _ _ hkind hroot ih =>
    obtain ⟨_ | k, hk⟩ := hnone
    · cases hk
    rw [hasCapture] at hk
    rw [if_pos hkind] at hk
    by_cases hcapture : (g.node i).capture = kNoCapture
    · rw [if_neg (not_not.mpr hcapture), if_neg hroot] at hk
      rw [if_pos hcapture]
      exact ih ⟨k, hk⟩
    · rw [if_pos hcapture] at hk
      cases hk
  | sequence i as _ hkind ih =>
    obtain ⟨k, hk⟩ := hnone
    have hall := labels_of_parts ih fun c hc => hasCapture_child hk (by simp [hkind]) hc
    refine List.eq_nil_iff_forall_not_mem.mpr fun l hl => ?_
    obtain ⟨a, ha, hl⟩ := Pattern.mem_labels_seqs hl
    rw [hall a ha] at hl
    exact absurd hl List.not_mem_nil
  | alternation i as _ hkind ih =>
    obtain ⟨k, hk⟩ := hnone
    have hall := labels_of_parts ih fun c hc => hasCapture_child hk (by simp [hkind]) hc
    refine List.eq_nil_iff_forall_not_mem.mpr fun l hl => ?_
    obtain ⟨a, ha, hl⟩ := Pattern.mem_labels_alts hl
    rw [hall a ha] at hl
    exact absurd hl List.not_mem_nil
  | nothing i _ _ _ _ => rfl
  | repetition i b _ _ hkind _ _ ih =>
    obtain ⟨k, hk⟩ := hnone
    exact ih (hasCapture_child hk (by simp [hkind]) (by simp [hg.childrenOf_repetition (lt_of_repetition hkind) hkind]))

/-- **No capture is inside of another.** -/
def FlatCaptures (g : Grammar) : Prop :=
  ∀ i, (g.node i).kind = .reference → (g.node i).capture ≠ kNoCapture →
    ∃ k, hasCapture g k (g.ruleRoot (g.node i).lo).toNat = some false

theorem Shape.flat (hg : g.Ordered) (hflat : g.FlatCaptures) (h : g.Shape i a) : a.Flat :=
  h.every (fun i _ hkind hcapture hb => hb.labels_nil hg (hflat i hkind hcapture)) fun _ _ _ _ _ => trivial

/-! ### Single octets -/

theorem isSymbol_alts {as : List (Pattern (Finset ℤ) ℤ)} (hsome : as ≠ []) (h : ∀ a ∈ as, a.isSymbol = true) :
    (Pattern.alts as).isSymbol = true := by
  induction as with
  | nil => exact absurd rfl hsome
  | cons a as ih =>
    obtain ⟨ha, has⟩ := List.forall_mem_cons.mp h
    rcases as with _ | ⟨b, as⟩
    · exact ha
    · exact Bool.and_eq_true_iff.mpr ⟨ha, ih (List.cons_ne_nil _ _) has⟩

/-- **A node that matches a single octet** is a choice of single octets. -/
theorem Shape.isSymbol (hi : g.Single i) (h : g.Shape i a) : a.isSymbol = true := by
  induction hi generalizing a with
  | octetRange hkind =>
    obtain rfl := h.octetRange hkind
    rfl
  | literal hkind hlen =>
    obtain rfl := h.literal hkind
    obtain ⟨c, htext⟩ := List.length_eq_one_iff.mp hlen
    rw [htext]
    rfl
  | reference hkind hcapture _ _ ih =>
    obtain ⟨-, b, hb, rfl⟩ := h.reference hkind
    rw [if_pos hcapture]
    exact ih hb
  | @alternation i hkind hcount _ ih =>
    obtain ⟨as, has, rfl⟩ := h.alternation hkind
    refine isSymbol_alts (fun hnil => hcount ?_) fun a ha => ?_
    · have hlen := has.length_eq
      rw [hnil, childrenOf, List.length_map, List.length_range] at hlen
      exact hlen
    · obtain ⟨j, hj, rfl⟩ := List.getElem_of_mem ha
      have hchild : j < (g.childrenOf (g.node i)).length := by rw [has.length_eq]; exact hj
      exact ih _ (List.getElem_mem hchild) (has.get hchild hj)

/-- It takes the octets that the node does. -/
theorem Shape.accepts_iff (hi : g.Single i) (h : g.Shape i a) (c : Octet) : a.accepts inBits c = true ↔ g.Takes c i := by
  have htaken : [c] ∈ a.language inBits ↔ a.accepts inBits c = true := by
    rw [Pattern.mem_language_of_isSymbol (h.isSymbol hi)]
    simp
  rw [← htaken, h.language_eq]
  constructor
  · rintro ⟨caps, hderives⟩
    clear htaken h
    induction hi generalizing caps with
    | @octetRange i hkind =>
      obtain ⟨x, hx, hc⟩ := (mem_language_octetRange hkind).mp ⟨caps, hderives⟩
      obtain rfl := (List.cons.inj hc).1
      exact .octetRange hkind hx
    | @literal i hkind _ =>
      have htext := (mem_language_literal hkind).mp ⟨caps, hderives⟩
      exact .literal hkind htext.symm
    | @reference i hkind _ hroot _ ih =>
      have hrule : [c] ∈ g.language i := ⟨caps, hderives⟩
      rw [language_reference hkind hroot] at hrule
      obtain ⟨caps', hrule⟩ := hrule
      exact .reference hkind hroot (ih caps' hrule)
    | @alternation i hkind _ _ ih =>
      obtain ⟨child, hchild, caps', hbranch⟩ := (mem_language_alternation hkind).mp ⟨caps, hderives⟩
      exact .alternation hkind hchild (ih child hchild caps' hbranch)
  · exact fun htakes => ⟨[], hi.derives htakes⟩

end Grammar

end Abnf

end FtIrc
