import FtIrc.Grammar.Program
import FtIrc.Grammar.Termination

/-!
# What is stored of the numbers

The numbers in a grammar text go through `strtol` and into an `int`. A text is stored as it is
written if its numbers are small enough (`FtIrc.Abnf.compile_wellFormed_iff`): no number before or
behind a star is greater than `INT_MAX`, and what is stored for a number behind `%x` is an octet.
Otherwise a bound of a repetition is not the number written, or a range of octets reaches beyond
them.
-/

namespace FtIrc

namespace Abnf

open Fuel

/-- `INT_MAX`. -/
def INT_MAX : ℕ := 2 ^ 31 - 1

/-! ### The numbers in a text -/

/-- The digits of a bound that are there. -/
def written (digits : Str) : List Str := if digits = [] then [] else [digits]

/-- The numbers of the bounds of a repetition. -/
def Bounds.counts : Bounds → List Str
  | .exactly times => [times]
  | .between least most => FtIrc.Abnf.written least ++ FtIrc.Abnf.written most

mutual

/-- The numbers of the repetitions in a tree. -/
def Body.counts : Body → List Str
  | .reference _ _ => []
  | .literal _ => []
  | .octets _ _ => []
  | .sequence parts => countsAll parts
  | .alternation branches => countsAll branches
  | .option body => body.counts
  | .repetition bounds body => bounds.counts ++ body.counts

/-- The numbers of the repetitions in several trees. -/
def countsAll : List Body → List Str
  | [] => []
  | b :: bs => b.counts ++ countsAll bs

end

mutual

/-- The numbers behind `%x` in a tree. -/
def Body.octetNumbers : Body → List Str
  | .reference _ _ => []
  | .literal _ => []
  | .octets low high => low :: high.toList
  | .sequence parts => octetNumbersAll parts
  | .alternation branches => octetNumbersAll branches
  | .option body => body.octetNumbers
  | .repetition _ body => body.octetNumbers

/-- The numbers behind `%x` in several trees. -/
def octetNumbersAll : List Body → List Str
  | [] => []
  | b :: bs => b.octetNumbers ++ octetNumbersAll bs

end

/-- **The numbers of the repetitions in a text.** -/
def countsIn (text : Str) : List Str := ((spellText text).getD []).flatMap fun r => r.body.counts

/-- **The numbers behind `%x` in a text.** -/
def octetNumbersIn (text : Str) : List Str := ((spellText text).getD []).flatMap fun r => r.body.octetNumbers

/-- The numbers of the repetitions as they are written, those of the octets as they are stored. -/
def Numbers.counted : Numbers := ⟨Numbers.written.count, Numbers.machine.octet⟩

variable {num num' : Numbers} {g g' : Grammar} {b : Body} {bs : List Body} {digits : Str}

/-! ### Small numbers are stored as they are -/

theorem strtolInt_small {base : ℕ} (h : valueIn base digits ≤ INT_MAX) :
    strtolInt base digits = valueIn base digits := by
  have hle : ((valueIn base digits : ℕ) : ℤ) ≤ 2 ^ 31 - 1 := by
    have hcast : ((valueIn base digits : ℕ) : ℤ) ≤ ((INT_MAX : ℕ) : ℤ) := Int.ofNat_le.mpr h
    simpa [INT_MAX] using hcast
  rw [strtolInt, min_eq_left (by rw [LONG_MAX]; omega)]
  exact Int.bmod_eq_of_le (by omega) (by omega)

theorem strtolInt_nonneg {base : ℕ} (h : valueIn base digits ≤ INT_MAX) : 0 ≤ strtolInt base digits := by
  rw [strtolInt_small h]
  exact Int.natCast_nonneg _

/-- A number that is stored as it is fits into an `int`. -/
theorem small_of_strtolInt {base : ℕ} (h : strtolInt base digits = valueIn base digits) :
    valueIn base digits ≤ INT_MAX := by
  have hlt : strtolInt base digits < (2 ^ 32 + 1) / 2 := Int.bmod_lt (by decide)
  rw [h] at hlt
  rw [INT_MAX]
  omega

/-! ### Numbers that agree -/

/-- Two readings of numbers agree about those of a text. -/
def Agree (num num' : Numbers) (counts octets : List Str) : Prop :=
  (∀ digits ∈ counts, num.count digits = num'.count digits) ∧ ∀ digits ∈ octets, num.octet digits = num'.octet digits

theorem Bounds.read_congr {bounds : Bounds} (h : ∀ digits ∈ bounds.counts, num.count digits = num'.count digits) :
    bounds.read num = bounds.read num' := by
  cases bounds with
  | exactly times => rw [Bounds.read, Bounds.read, h times (List.mem_singleton_self _)]
  | between least most =>
    have hleast : (if least = [] then (0 : ℤ) else num.count least) = if least = [] then 0 else num'.count least := by
      split
      · rfl
      · next hne => exact h least (List.mem_append_left _ (by simp [FtIrc.Abnf.written, hne]))
    have hmost : (if most = [] then kUnbounded else num.count most) =
        if most = [] then kUnbounded else num'.count most := by
      split
      · rfl
      · next hne => exact h most (List.mem_append_right _ (by simp [FtIrc.Abnf.written, hne]))
    rw [Bounds.read, Bounds.read, hleast, hmost]

theorem Numbers.upper_congr {low : Str} {high : Option Str}
    (h : ∀ digits ∈ low :: high.toList, num.octet digits = num'.octet digits) :
    num.upper low high = num'.upper low high := by
  cases high with
  | none => exact h low List.mem_cons_self
  | some high => exact h high (by simp)

theorem writeAll_congr (h : ∀ b ∈ bs, ∀ g, b.write num g = b.write num' g) (g : Grammar) :
    writeAll num bs g = writeAll num' bs g := by
  induction bs generalizing g with
  | nil => rw [writeAll, writeAll]
  | cons b bs ih =>
    rw [writeAll, writeAll, h b List.mem_cons_self]
    have hrest := ih fun b' hb' => h b' (List.mem_cons_of_mem b hb')
    simp only [hrest]

theorem mem_countsAll : digits ∈ countsAll bs ↔ ∃ b ∈ bs, digits ∈ b.counts := by
  induction bs with
  | nil => simp [countsAll]
  | cons b bs ih => simp [countsAll, ih]

theorem mem_octetNumbersAll : digits ∈ octetNumbersAll bs ↔ ∃ b ∈ bs, digits ∈ b.octetNumbers := by
  induction bs with
  | nil => simp [octetNumbersAll]
  | cons b bs ih => simp [octetNumbersAll, ih]

/-- **A tree is written the same way** by numbers that agree about it. -/
theorem write_congr (h : Agree num num' b.counts b.octetNumbers) (g : Grammar) : b.write num g = b.write num' g := by
  have hparts : ∀ bs : List Body, (∀ b ∈ bs, Agree num num' b.counts b.octetNumbers →
      ∀ g, b.write num g = b.write num' g) → Agree num num' (countsAll bs) (octetNumbersAll bs) →
      ∀ g, writeAll num bs g = writeAll num' bs g := by
    intro bs ih hbs g
    refine writeAll_congr (fun b hb g => ih b hb ⟨fun d hd => ?_, fun d hd => ?_⟩ g) g
    · exact hbs.1 d (mem_countsAll.mpr ⟨b, hb, hd⟩)
    · exact hbs.2 d (mem_octetNumbersAll.mpr ⟨b, hb, hd⟩)
  induction b using Body.induction_parts generalizing g with
  | reference captured name => rw [Body.write, Body.write]
  | literal text => rw [Body.write, Body.write]
  | octets low high =>
    rw [Body.octetNumbers] at h
    rw [Body.write, Body.write, Numbers.upper_congr h.2, h.2 low List.mem_cons_self]
  | sequence parts ih =>
    rw [Body.counts, Body.octetNumbers] at h
    rw [Body.write, Body.write, hparts parts (fun b hb hb' g => ih b hb hb' g) h]
  | alternation branches ih =>
    rw [Body.counts, Body.octetNumbers] at h
    rw [Body.write, Body.write, hparts branches (fun b hb hb' g => ih b hb hb' g) h]
  | option body ih =>
    rw [Body.counts, Body.octetNumbers] at h
    rw [Body.write, Body.write, ih h]
  | repetition bounds body ih =>
    rw [Body.counts, Body.octetNumbers] at h
    have hread : bounds.read num = bounds.read num' :=
      Bounds.read_congr fun d hd => h.1 d (List.mem_append_left _ hd)
    rw [Body.write, Body.write, hread, ih ⟨fun d hd => h.1 d (List.mem_append_right _ hd), h.2⟩]

/-- **Rules are written the same way** by numbers that agree about them. -/
theorem writeRules_congr {rules : List RuleText}
    (h : ∀ r ∈ rules, Agree num num' r.body.counts r.body.octetNumbers) (g : Grammar) :
    writeRules num rules g = writeRules num' rules g := by
  induction rules generalizing g with
  | nil => rfl
  | cons r rules ih =>
    have hrule : ∀ g, r.write num g = r.write num' g := fun g => by
      rw [RuleText.write, RuleText.write, write_congr (h r List.mem_cons_self)]
    rw [writeRules, writeRules, List.foldlM_cons, List.foldlM_cons, hrule]
    exact congrArg (Option.bind (r.write num' g))
      (funext fun g₁ => ih (fun r' hr' => h r' (List.mem_cons_of_mem r hr')) g₁)

/-! ### What holds of all nodes -/

/-- Something holds of the nodes that numbers are stored in. -/
structure Suits (P : GrammarNode → Prop) (num : Numbers) (counts octets : List Str) : Prop where
  octets : ∀ {low : Str} {high : Option Str}, (∀ digits ∈ low :: high.toList, digits ∈ octets) →
    num.octet low ≤ num.upper low high → P (octetNode (num.octet low) (num.upper low high))
  bounds : ∀ {bounds : Bounds} {read : ℤ × ℤ}, (∀ digits ∈ bounds.counts, digits ∈ counts) →
    bounds.read num = some read → ∀ first count, P { repetitionNode read with first := first, count := count }

theorem Suits.mono {P : GrammarNode → Prop} {counts octets counts' octets' : List Str}
    (h : Suits P num counts octets) (hcounts : ∀ d ∈ counts', d ∈ counts) (hoctets : ∀ d ∈ octets', d ∈ octets) :
    Suits P num counts' octets' :=
  ⟨fun hin => h.octets fun d hd => hoctets d (hin d hd), fun hin => h.bounds fun d hd => hcounts d (hin d hd)⟩

namespace Grammar

/-- All nodes of a grammar are so. -/
def EveryNode (g : Grammar) (P : GrammarNode → Prop) : Prop := ∀ n ∈ g.nodes, P n

variable {P : GrammarNode → Prop}

theorem EveryNode.addNode (hg : g.EveryNode P) {n : GrammarNode} (hn : P n) : (g.addNode n).2.EveryNode P := by
  intro m hm
  rcases List.mem_append.mp hm with hold | hnew
  · exact hg m hold
  · rwa [List.mem_singleton.mp hnew]

theorem EveryNode.addParent (hg : g.EveryNode P) {n : GrammarNode} {ids : List ℕ}
    (hn : P { n with first := g.children.length, count := ids.length }) : (g.addParent n ids).2.EveryNode P :=
  EveryNode.addNode (g := (g.addChildren ids).2) hg hn

theorem nodes_internRule (g : Grammar) (name : Str) : (g.internRule name).2.nodes = g.nodes := by
  rw [internRule]
  split <;> rfl

theorem nodes_internCapture (g : Grammar) (name : Str) : (g.internCapture name).2.nodes = g.nodes := by
  rw [internCapture]
  split <;> rfl

/-- What holds of all nodes without numbers. -/
def Plain (P : GrammarNode → Prop) : Prop := ∀ n : GrammarNode, n.kind ≠ .octetRange → n.kind ≠ .repetition → P n

theorem EveryNode.addReference (hg : g.EveryNode P) (hplain : Plain P) (captured : Bool) (name : Str) :
    (g.addReference captured name).2.EveryNode P := by
  have hrule : (g.internRule name).2.EveryNode P := fun n hn => hg n (g.nodes_internRule name ▸ hn)
  cases captured with
  | false => exact hrule.addNode (hplain _ (by simp) (by simp))
  | true =>
    have hcapture : ((g.internRule name).2.internCapture name).2.EveryNode P :=
      fun n hn => hrule n ((g.internRule name).2.nodes_internCapture name ▸ hn)
    exact hcapture.addNode (hplain _ (by simp) (by simp))

end Grammar

open Grammar in
/-- **What holds of the nodes that numbers are stored in** holds of all nodes of a tree. -/
theorem everyNode_write {P : GrammarNode → Prop} (hplain : Plain P)
    (hoption : ∀ first count, P { repetitionNode (0, 1) with first := first, count := count })
    (hg : g.EveryNode P) (hsuits : Suits P num b.counts b.octetNumbers) {made : ℕ × Grammar}
    (h : b.write num g = some made) : made.2.EveryNode P := by
  have hparts : ∀ bs : List Body, (∀ b ∈ bs, ∀ g made, g.EveryNode P → Suits P num b.counts b.octetNumbers →
      b.write num g = some made → made.2.EveryNode P) → Suits P num (countsAll bs) (octetNumbersAll bs) →
      ∀ g all, g.EveryNode P → writeAll num bs g = some all → all.2.EveryNode P := by
    intro bs
    induction bs with
    | nil =>
      intro _ _ g all hg hall
      rw [writeAll] at hall
      obtain rfl := Option.some.inj hall
      exact hg
    | cons b bs ih =>
      intro hbs hsuits g all hg hall
      obtain ⟨first, more, hfirst, hmore, rfl⟩ := writeAll_eq_some_cons.mp hall
      have hmade := hbs b List.mem_cons_self g first hg
        (hsuits.mono (fun _ => List.mem_append_left _) fun _ => List.mem_append_left _) hfirst
      exact ih (fun b' hb' => hbs b' (List.mem_cons_of_mem b hb'))
        (hsuits.mono (fun _ => List.mem_append_right _) fun _ => List.mem_append_right _) first.2 more hmade hmore
  induction b using Body.induction_parts generalizing g made with
  | reference captured name =>
    rw [Body.write] at h
    obtain rfl := Option.some.inj h
    exact hg.addReference hplain captured name
  | literal text =>
    rw [Body.write] at h
    obtain rfl := Option.some.inj h
    exact EveryNode.addNode (g := { g with literals := g.literals ++ [text] }) hg (hplain _ (by simp) (by simp))
  | octets low high =>
    obtain ⟨hle, rfl⟩ := write_octets.mp h
    exact hg.addNode (hsuits.octets (fun _ hd => hd) (not_lt.mp hle))
  | sequence parts ih =>
    rw [Body.write] at h
    obtain ⟨all, hall, h⟩ := Option.bind_eq_some_iff.mp h
    obtain rfl := Option.some.inj h
    rw [Body.counts, Body.octetNumbers] at hsuits
    have hall := hparts parts (fun b hb _ _ hg hs h => ih b hb hg hs h) hsuits g all hg hall
    exact hall.addParent (hplain _ (by simp) (by simp))
  | alternation branches ih =>
    rw [Body.write] at h
    obtain ⟨all, hall, h⟩ := Option.bind_eq_some_iff.mp h
    obtain rfl := Option.some.inj h
    rw [Body.counts, Body.octetNumbers] at hsuits
    have hall := hparts branches (fun b hb _ _ hg hs h => ih b hb hg hs h) hsuits g all hg hall
    exact hall.addParent (hplain _ (by simp) (by simp))
  | option body ih =>
    rw [Body.write] at h
    obtain ⟨inner, hinner, h⟩ := Option.bind_eq_some_iff.mp h
    obtain rfl := Option.some.inj h
    rw [Body.counts, Body.octetNumbers] at hsuits
    have hbody := ih hg hsuits hinner
    exact hbody.addParent (hoption _ _)
  | repetition bounds body ih =>
    rw [Body.write] at h
    obtain ⟨read, hread, h⟩ := Option.bind_eq_some_iff.mp h
    obtain ⟨inner, hinner, h⟩ := Option.bind_eq_some_iff.mp h
    obtain rfl := Option.some.inj h
    rw [Body.counts, Body.octetNumbers] at hsuits
    have hbody := ih hg (hsuits.mono (fun _ => List.mem_append_right _) fun _ hd => hd) hinner
    exact hbody.addParent (hsuits.bounds (fun _ => List.mem_append_left _) hread _ _)

open Grammar in
theorem Grammar.EveryNode.define {P : GrammarNode → Prop} (hg : g.EveryNode P) (hplain : Plain P) {rule : ℤ}
    {name : Str} {incremental : Bool} {body : ℕ} (h : g.define rule name incremental body = .ok g') :
    g'.EveryNode P := by
  rw [Grammar.define] at h
  dsimp only at h
  split_ifs at h
  · obtain rfl := Except.ok.inj h
    exact hg.addParent (hplain _ (by simp) (by simp))
  · obtain rfl := Except.ok.inj h
    exact hg

open Grammar in
/-- What holds of the nodes that numbers are stored in holds of all nodes of the rules. -/
theorem everyNode_writeRules {P : GrammarNode → Prop} (hplain : Plain P)
    (hoption : ∀ first count, P { repetitionNode (0, 1) with first := first, count := count })
    {rules : List RuleText} (hg : g.EveryNode P) (hsuits : ∀ r ∈ rules, Suits P num r.body.counts r.body.octetNumbers)
    (h : writeRules num rules g = some g') : g'.EveryNode P := by
  induction rules generalizing g with
  | nil =>
    obtain rfl := Option.some.inj h
    exact hg
  | cons r rules ih =>
    obtain ⟨g₁, hrule, hmore⟩ := Option.bind_eq_some_iff.mp h
    obtain ⟨made, hbody, hdefine⟩ := Option.bind_eq_some_iff.mp hrule
    have hintern : (g.internRule r.name).2.EveryNode P := fun n hn => hg n (g.nodes_internRule r.name ▸ hn)
    have hmade := everyNode_write hplain hoption hintern (hsuits r List.mem_cons_self) hbody
    exact ih (hmade.define hplain (toOption_eq_some.mp hdefine)) (fun r' hr' => hsuits r' (List.mem_cons_of_mem r hr')) hmore

/-! ### Small numbers make nodes that are right -/

/-- The bounds of a repetition are right. -/
def GrammarNode.BoundsFine (n : GrammarNode) : Prop :=
  n.kind = .repetition → 0 ≤ n.lo ∧ (n.hi = kUnbounded ∨ n.lo ≤ n.hi)

/-- A range of octets is one. -/
def GrammarNode.OctetsFine (n : GrammarNode) : Prop :=
  n.kind = .octetRange → 0 ≤ n.lo ∧ n.lo ≤ n.hi ∧ n.hi ≤ 255

theorem Bounds.read_fine {bounds : Bounds} {read : ℤ × ℤ} (h : ∀ digits ∈ bounds.counts, 0 ≤ num.count digits)
    (hread : bounds.read num = some read) : 0 ≤ read.1 ∧ (read.2 = kUnbounded ∨ read.1 ≤ read.2) := by
  cases bounds with
  | exactly times =>
    obtain rfl := Option.some.inj hread
    exact ⟨h times (List.mem_singleton_self _), .inr le_rfl⟩
  | between least most =>
    rw [Bounds.read] at hread
    obtain ⟨hnot, hread⟩ := Option.ite_none_left_eq_some.mp hread
    obtain rfl := Option.some.inj hread
    refine ⟨?_, ?_⟩
    · change 0 ≤ if least = [] then (0 : ℤ) else num.count least
      split
      · exact le_rfl
      · next hne => exact h least (List.mem_append_left _ (by simp [FtIrc.Abnf.written, hne]))
    · by_cases hun : (if most = [] then kUnbounded else num.count most) = kUnbounded
      · exact .inl hun
      · exact .inr (not_lt.mp fun hlt => hnot ⟨hun, hlt⟩)

/-- **Bounds are right** if no number is stored as a negative one. -/
theorem boundsFine_writeRules {rules : List RuleText} (h : writeRules num rules {} = some g)
    (hsmall : ∀ r ∈ rules, ∀ digits ∈ r.body.counts, 0 ≤ num.count digits) :
    g.EveryNode GrammarNode.BoundsFine := by
  refine everyNode_writeRules (fun n _ hne hkind => absurd hkind hne) (fun _ _ _ => ⟨le_rfl, .inr Int.one_nonneg⟩)
    (fun n hn => absurd hn List.not_mem_nil) (fun r hr => ⟨fun _ _ hkind => (nomatch hkind), fun hin hread _ _ _ => ?_⟩) h
  exact Bounds.read_fine (fun d hd => hsmall r hr d (hin d hd)) hread

/-- **Ranges are right** if every number is stored as an octet. -/
theorem octetsFine_writeRules {rules : List RuleText} (h : writeRules num rules {} = some g)
    (hsmall : ∀ r ∈ rules, ∀ digits ∈ r.body.octetNumbers, 0 ≤ num.octet digits ∧ num.octet digits ≤ 255) :
    g.EveryNode GrammarNode.OctetsFine := by
  refine everyNode_writeRules (fun n hne _ hkind => absurd hkind hne) (fun _ _ hkind => (nomatch hkind))
    (fun n hn => absurd hn List.not_mem_nil) (fun r hr => ⟨fun {low high} hin hle _ => ?_, fun _ _ _ _ hkind => (nomatch hkind)⟩) h
  refine ⟨(hsmall r hr low (hin low List.mem_cons_self)).1, hle, ?_⟩
  cases high with
  | none => exact (hsmall r hr low (hin low List.mem_cons_self)).2
  | some high => exact (hsmall r hr high (hin high (by simp))).2

/-! ### What is written alike -/

/-- Two grammars that differ in the numbers of their nodes only. -/
structure Grammar.Alike (g g' : Grammar) : Prop where
  nodes : g.nodes.length = g'.nodes.length
  children : g.children = g'.children
  literals : g.literals = g'.literals
  captureNames : g.captureNames = g'.captureNames
  ruleNames : g.ruleNames = g'.ruleNames
  ruleRoots : g.ruleRoots = g'.ruleRoots

namespace Grammar.Alike

variable (h : g.Alike g')
include h

theorem addNode (n n' : GrammarNode) : (g.addNode n).1 = (g'.addNode n').1 ∧ (g.addNode n).2.Alike (g'.addNode n').2 := by
  refine ⟨h.nodes, ?_, h.children, h.literals, h.captureNames, h.ruleNames, h.ruleRoots⟩
  simp [Grammar.addNode, h.nodes]

theorem addChildren (ids : List ℕ) :
    (g.addChildren ids).1 = (g'.addChildren ids).1 ∧ (g.addChildren ids).2.Alike (g'.addChildren ids).2 := by
  refine ⟨congrArg List.length h.children, h.nodes, ?_, h.literals, h.captureNames, h.ruleNames, h.ruleRoots⟩
  exact congrArg (· ++ ids) h.children

theorem addParent (n n' : GrammarNode) (ids : List ℕ) :
    (g.addParent n ids).1 = (g'.addParent n' ids).1 ∧ (g.addParent n ids).2.Alike (g'.addParent n' ids).2 :=
  (h.addChildren ids).2.addNode _ _

theorem internRule (name : Str) :
    (g.internRule name).1 = (g'.internRule name).1 ∧ (g.internRule name).2.Alike (g'.internRule name).2 := by
  rw [Grammar.internRule, Grammar.internRule, h.ruleNames]
  split
  · exact ⟨rfl, h⟩
  · exact ⟨rfl, h.nodes, h.children, h.literals, h.captureNames, rfl, congrArg (· ++ [kNoRule]) h.ruleRoots⟩

theorem internCapture (name : Str) :
    (g.internCapture name).1 = (g'.internCapture name).1 ∧ (g.internCapture name).2.Alike (g'.internCapture name).2 := by
  rw [Grammar.internCapture, Grammar.internCapture, h.captureNames]
  split
  · exact ⟨rfl, h⟩
  · exact ⟨rfl, h.nodes, h.children, h.literals, rfl, h.ruleNames, h.ruleRoots⟩

theorem addReference (captured : Bool) (name : Str) :
    (g.addReference captured name).1 = (g'.addReference captured name).1 ∧
      (g.addReference captured name).2.Alike (g'.addReference captured name).2 := by
  obtain ⟨-, hrule⟩ := h.internRule name
  cases captured with
  | false => exact hrule.addNode _ _
  | true => exact (hrule.internCapture name).2.addNode _ _

theorem addLiteral (text : Str) :
    (g.addLiteral text).1 = (g'.addLiteral text).1 ∧ (g.addLiteral text).2.Alike (g'.addLiteral text).2 := by
  have hliterals : ({ g with literals := g.literals ++ [text] } : Grammar).Alike { g' with literals := g'.literals ++ [text] } :=
    ⟨h.nodes, h.children, congrArg (· ++ [text]) h.literals, h.captureNames, h.ruleNames, h.ruleRoots⟩
  exact hliterals.addNode _ _

end Grammar.Alike

/-- The node at a position of a grammar that is the beginning of another. -/
theorem node_of_prefix {nodes : List GrammarNode} {n : GrammarNode} (h : g.nodes ++ [n] <+: nodes) :
    nodes[g.nodes.length]? = some n :=
  Grammar.getElem?_of_extends h (by simp)

/-- What is read of bounds says what each of their numbers is. -/
theorem Bounds.count_of_read {bounds : Bounds} {read : ℤ × ℤ} (h : bounds.read num = some read)
    (h' : bounds.read num' = some read) : ∀ digits ∈ bounds.counts, num.count digits = num'.count digits := by
  intro digits hdigits
  cases bounds with
  | exactly times =>
    obtain rfl := List.mem_singleton.mp hdigits
    have heq := (Option.some.inj h).trans (Option.some.inj h').symm
    exact congrArg Prod.fst heq
  | between least most =>
    rw [Bounds.read] at h h'
    obtain ⟨-, h⟩ := Option.ite_none_left_eq_some.mp h
    obtain ⟨-, h'⟩ := Option.ite_none_left_eq_some.mp h'
    obtain ⟨hleast, hmost⟩ := Prod.mk.inj ((Option.some.inj h).trans (Option.some.inj h').symm)
    rcases List.mem_append.mp hdigits with hmem | hmem
    · by_cases hnil : least = []
      · simp [FtIrc.Abnf.written, hnil] at hmem
      · rw [FtIrc.Abnf.written, if_neg hnil] at hmem
        obtain rfl := List.mem_singleton.mp hmem
        rwa [if_neg hnil, if_neg hnil] at hleast
    · by_cases hnil : most = []
      · simp [FtIrc.Abnf.written, hnil] at hmem
      · rw [FtIrc.Abnf.written, if_neg hnil] at hmem
        obtain rfl := List.mem_singleton.mp hmem
        rwa [if_neg hnil, if_neg hnil] at hmost

/-- Two ways of writing something down, told apart by the nodes only: the same is written, and
where the nodes are the same as well, the numbers are. -/
structure WrittenAlike (num num' : Numbers) (counts : List Str) {α : Type} (made made' : α × Grammar) : Prop where
  same : made.1 = made'.1
  alike : made.2.Alike made'.2
  counts : ∀ nodes, made.2.nodes <+: nodes → made'.2.nodes <+: nodes →
    ∀ digits ∈ counts, num.count digits = num'.count digits

/-- **A tree is written alike** whatever its numbers are read as. -/
theorem writtenAlike_write (hg : g.Ordered) (hg' : g'.Ordered) (halike : g.Alike g') {made made' : ℕ × Grammar}
    (h : b.write num g = some made) (h' : b.write num' g' = some made') :
    WrittenAlike num num' b.counts made made' := by
  have hparts : ∀ bs : List Body, (∀ b ∈ bs, ∀ g g' made made', g.Ordered → g'.Ordered → g.Alike g' →
      b.write num g = some made → b.write num' g' = some made' → WrittenAlike num num' b.counts made made') →
      ∀ g g' all all', g.Ordered → g'.Ordered → g.Alike g' →
      writeAll num bs g = some all → writeAll num' bs g' = some all' →
      WrittenAlike num num' (countsAll bs) all all' := by
    intro bs
    induction bs with
    | nil =>
      intro _ g g' all all' _ _ halike hall hall'
      rw [writeAll] at hall hall'
      obtain rfl := Option.some.inj hall
      obtain rfl := Option.some.inj hall'
      exact ⟨rfl, halike, fun _ _ _ d hd => absurd hd List.not_mem_nil⟩
    | cons b bs ih =>
      intro hbs g g' all all' hg hg' halike hall hall'
      obtain ⟨first, more, hfirst, hmore, rfl⟩ := writeAll_eq_some_cons.mp hall
      obtain ⟨first', more', hfirst', hmore', rfl⟩ := writeAll_eq_some_cons.mp hall'
      have hb := hbs b List.mem_cons_self g g' first first' hg hg' halike hfirst hfirst'
      have hadds := adds_write hg hfirst
      have hadds' := adds_write hg' hfirst'
      have hrest := ih (fun b' hb' => hbs b' (List.mem_cons_of_mem b hb')) first.2 first'.2 more more'
        hadds.ordered hadds'.ordered hb.alike hmore hmore'
      have hext := (addsAll_writeAll (fun _ _ _ _ => adds_write) hadds.ordered hmore).tables.nodes
      have hext' := (addsAll_writeAll (fun _ _ _ _ => adds_write) hadds'.ordered hmore').tables.nodes
      refine ⟨congrArg₂ List.cons hb.same hrest.same, hrest.alike, fun nodes hn hn' d hd => ?_⟩
      rw [countsAll] at hd
      rcases List.mem_append.mp hd with hd | hd
      · exact hb.counts nodes (hext.trans hn) (hext'.trans hn') d hd
      · exact hrest.counts nodes hn hn' d hd
  induction b using Body.induction_parts generalizing g g' made made' with
  | reference captured name =>
    rw [Body.write] at h h'
    obtain rfl := Option.some.inj h
    obtain rfl := Option.some.inj h'
    obtain ⟨hsame, hmade⟩ := halike.addReference captured name
    exact ⟨hsame, hmade, fun _ _ _ d hd => absurd hd List.not_mem_nil⟩
  | literal text =>
    rw [Body.write] at h h'
    obtain rfl := Option.some.inj h
    obtain rfl := Option.some.inj h'
    obtain ⟨hsame, hmade⟩ := halike.addLiteral text
    exact ⟨hsame, hmade, fun _ _ _ d hd => absurd hd List.not_mem_nil⟩
  | octets low high =>
    obtain ⟨-, rfl⟩ := write_octets.mp h
    obtain ⟨-, rfl⟩ := write_octets.mp h'
    obtain ⟨hsame, hmade⟩ := halike.addNode (octetNode (num.octet low) (num.upper low high))
      (octetNode (num'.octet low) (num'.upper low high))
    exact ⟨hsame, hmade, fun _ _ _ d hd => absurd hd List.not_mem_nil⟩
  | sequence parts ih =>
    rw [Body.write] at h h'
    obtain ⟨all, hall, h⟩ := Option.bind_eq_some_iff.mp h
    obtain ⟨all', hall', h'⟩ := Option.bind_eq_some_iff.mp h'
    obtain rfl := Option.some.inj h
    obtain rfl := Option.some.inj h'
    have hbs := hparts parts (fun b hb _ _ _ _ hg hg' hal h h' => ih b hb hg hg' hal h h') g g' all all' hg hg' halike hall hall'
    obtain ⟨hsame, hmade⟩ := hbs.alike.addParent { kind := .sequence } { kind := .sequence } all.1
    rw [hbs.same] at hsame hmade
    exact ⟨by rw [hbs.same]; exact hsame, by rw [hbs.same]; exact hmade, fun nodes hn hn' => hbs.counts nodes
      ((all.2.extends_addParent _ _).nodes.trans hn) ((all'.2.extends_addParent _ _).nodes.trans hn')⟩
  | alternation branches ih =>
    rw [Body.write] at h h'
    obtain ⟨all, hall, h⟩ := Option.bind_eq_some_iff.mp h
    obtain ⟨all', hall', h'⟩ := Option.bind_eq_some_iff.mp h'
    obtain rfl := Option.some.inj h
    obtain rfl := Option.some.inj h'
    have hbs := hparts branches (fun b hb _ _ _ _ hg hg' hal h h' => ih b hb hg hg' hal h h') g g' all all' hg hg' halike hall hall'
    obtain ⟨hsame, hmade⟩ := hbs.alike.addParent { kind := .alternation } { kind := .alternation } all.1
    rw [hbs.same] at hsame hmade
    exact ⟨by rw [hbs.same]; exact hsame, by rw [hbs.same]; exact hmade, fun nodes hn hn' => hbs.counts nodes
      ((all.2.extends_addParent _ _).nodes.trans hn) ((all'.2.extends_addParent _ _).nodes.trans hn')⟩
  | option body ih =>
    rw [Body.write] at h h'
    obtain ⟨inner, hinner, h⟩ := Option.bind_eq_some_iff.mp h
    obtain ⟨inner', hinner', h'⟩ := Option.bind_eq_some_iff.mp h'
    obtain rfl := Option.some.inj h
    obtain rfl := Option.some.inj h'
    have hb := ih hg hg' halike hinner hinner'
    obtain ⟨hsame, hmade⟩ := hb.alike.addParent (repetitionNode (0, 1)) (repetitionNode (0, 1)) [inner.1]
    rw [hb.same] at hsame hmade
    exact ⟨by rw [hb.same]; exact hsame, by rw [hb.same]; exact hmade, fun nodes hn hn' => hb.counts nodes
      ((inner.2.extends_addParent _ _).nodes.trans hn) ((inner'.2.extends_addParent _ _).nodes.trans hn')⟩
  | repetition bounds body ih =>
    rw [Body.write] at h h'
    obtain ⟨read, hread, h⟩ := Option.bind_eq_some_iff.mp h
    obtain ⟨read', hread', h'⟩ := Option.bind_eq_some_iff.mp h'
    obtain ⟨inner, hinner, h⟩ := Option.bind_eq_some_iff.mp h
    obtain ⟨inner', hinner', h'⟩ := Option.bind_eq_some_iff.mp h'
    obtain rfl := Option.some.inj h
    obtain rfl := Option.some.inj h'
    have hb := ih hg hg' halike hinner hinner'
    obtain ⟨hsame, hmade⟩ := hb.alike.addParent (repetitionNode read) (repetitionNode read') [inner.1]
    rw [hb.same] at hsame hmade
    refine ⟨by rw [hb.same]; exact hsame, by rw [hb.same]; exact hmade, fun nodes hn hn' d hd => ?_⟩
    rw [Body.counts] at hd
    rcases List.mem_append.mp hd with hd | hd
    · -- both nodes are the node at the same position
      have hnode := node_of_prefix (g := (inner.2.addChildren [inner.1]).2) hn
      have hnode' := node_of_prefix (g := (inner'.2.addChildren [inner'.1]).2) hn'
      have hlen : inner.2.nodes.length = inner'.2.nodes.length := hb.alike.nodes
      change nodes[inner.2.nodes.length]? = _ at hnode
      change nodes[inner'.2.nodes.length]? = _ at hnode'
      rw [hlen, hnode'] at hnode
      have heq := Option.some.inj hnode
      have hlo : read'.1 = read.1 := congrArg GrammarNode.lo heq
      have hhi : read'.2 = read.2 := congrArg GrammarNode.hi heq
      obtain rfl : read' = read := Prod.ext hlo hhi
      exact Bounds.count_of_read hread hread' d hd
    · exact hb.counts nodes ((inner.2.extends_addParent _ _).nodes.trans hn)
        ((inner'.2.extends_addParent _ _).nodes.trans hn') d hd

/-- A definition leaves what was alike alike. -/
theorem Grammar.Alike.define (h : g.Alike g') {rule : ℤ} {name : Str} {incremental : Bool} {body : ℕ} {g₁ g₁' : Grammar}
    (hd : g.define rule name incremental body = .ok g₁) (hd' : g'.define rule name incremental body = .ok g₁') :
    g₁.Alike g₁' := by
  have hroot : g.ruleRoot rule = g'.ruleRoot rule := by rw [Grammar.ruleRoot, Grammar.ruleRoot, h.ruleRoots]
  rw [Grammar.define] at hd hd'
  dsimp only at hd hd'
  rw [← hroot] at hd'
  obtain ⟨hsame, hmade⟩ := h.addParent { kind := .alternation } { kind := .alternation } [(g.ruleRoot rule).toNat, body]
  split_ifs at hd with hinc hnone
  · rw [if_pos hinc, if_neg hnone] at hd'
    obtain rfl := Except.ok.inj hd
    obtain rfl := Except.ok.inj hd'
    refine ⟨hmade.nodes, hmade.children, hmade.literals, hmade.captureNames, hmade.ruleNames, ?_⟩
    change g.ruleRoots.set _ _ = g'.ruleRoots.set _ _
    rw [h.ruleRoots, hsame]
  · rw [if_neg hinc, if_neg (by assumption)] at hd'
    obtain rfl := Except.ok.inj hd
    obtain rfl := Except.ok.inj hd'
    exact ⟨h.nodes, h.children, h.literals, h.captureNames, h.ruleNames,
      congrArg (fun roots : List ℤ => roots.set rule.toNat body) h.ruleRoots⟩

/-- **Rules that are written to the same grammar** by two readings of numbers have the same counts
in both. -/
theorem counts_of_writeRules {rules : List RuleText} (hg : g.Ordered) (hg' : g'.Ordered) (halike : g.Alike g')
    {final : Grammar} (h : writeRules num rules g = some final) (h' : writeRules num' rules g' = some final) :
    ∀ r ∈ rules, ∀ digits ∈ r.body.counts, num.count digits = num'.count digits := by
  induction rules generalizing g g' with
  | nil => exact fun r hr => absurd hr List.not_mem_nil
  | cons r rules ih =>
    obtain ⟨g₁, hrule, hmore⟩ := Option.bind_eq_some_iff.mp h
    obtain ⟨g₁', hrule', hmore'⟩ := Option.bind_eq_some_iff.mp h'
    obtain ⟨hordered, -⟩ := ordered_rule hg hrule
    obtain ⟨hordered', -⟩ := ordered_rule hg' hrule'
    have hlater := (ordered_writeRules hordered hmore).2
    have hlater' := (ordered_writeRules hordered' hmore').2
    obtain ⟨made, hbody, hdefine⟩ := Option.bind_eq_some_iff.mp hrule
    obtain ⟨made', hbody', hdefine'⟩ := Option.bind_eq_some_iff.mp hrule'
    obtain ⟨hname, hintern⟩ := halike.internRule r.name
    have hmade := writtenAlike_write (hg.internRule r.name) (hg'.internRule r.name) hintern hbody hbody'
    have hadds := adds_write (hg.internRule r.name) hbody
    have hadds' := adds_write (hg'.internRule r.name) hbody'
    have hdefine := toOption_eq_some.mp hdefine
    have hdefine' := toOption_eq_some.mp hdefine'
    have hext := (ordered_define hadds.ordered hadds.lt hdefine).2
    have hext' := (ordered_define hadds'.ordered hadds'.lt hdefine').2
    rw [← hname, ← hmade.same] at hdefine'
    intro r' hr' d hd
    rcases List.mem_cons.mp hr' with rfl | hr'
    · exact hmade.counts final.nodes (hext.trans hlater).nodes (hext'.trans hlater').nodes d hd
    · exact ih hordered hordered' (hmade.alike.define hdefine hdefine') hmore hmore' r' hr' d hd

/-! ### Every octet number is in a node -/

/-- A number is that of a range of octets. -/
def OctetIn (num : Numbers) (nodes : List GrammarNode) (digits : Str) : Prop :=
  ∃ n ∈ nodes, n.kind = .octetRange ∧ (n.lo = num.octet digits ∨ n.hi = num.octet digits)

theorem OctetIn.mono {nodes nodes' : List GrammarNode} (h : OctetIn num nodes digits) (hsub : nodes <+: nodes') :
    OctetIn num nodes' digits := by
  obtain ⟨n, hn, hkind, hnum⟩ := h
  exact ⟨n, hsub.subset hn, hkind, hnum⟩

/-- **Every number behind `%x` of a tree** is in a node of it. -/
theorem octetIn_write (hg : g.Ordered) {made : ℕ × Grammar} (h : b.write num g = some made) :
    ∀ digits ∈ b.octetNumbers, OctetIn num made.2.nodes digits := by
  have hparts : ∀ bs : List Body, (∀ b ∈ bs, ∀ g made, g.Ordered → b.write num g = some made →
      ∀ digits ∈ b.octetNumbers, OctetIn num made.2.nodes digits) →
      ∀ g all, g.Ordered → writeAll num bs g = some all →
      ∀ digits ∈ octetNumbersAll bs, OctetIn num all.2.nodes digits := by
    intro bs
    induction bs with
    | nil => exact fun _ g all _ _ d hd => absurd hd List.not_mem_nil
    | cons b bs ih =>
      intro hbs g all hg hall d hd
      obtain ⟨first, more, hfirst, hmore, rfl⟩ := writeAll_eq_some_cons.mp hall
      have hadds := adds_write hg hfirst
      rw [octetNumbersAll] at hd
      rcases List.mem_append.mp hd with hd | hd
      · have hext := (addsAll_writeAll (fun _ _ _ _ => adds_write) hadds.ordered hmore).tables.nodes
        exact (hbs b List.mem_cons_self g first hg hfirst d hd).mono hext
      · exact ih (fun b' hb' => hbs b' (List.mem_cons_of_mem b hb')) first.2 more hadds.ordered hmore d hd
  intro d hd
  induction b using Body.induction_parts generalizing g made d with
  | reference captured name => exact absurd hd List.not_mem_nil
  | literal text => exact absurd hd List.not_mem_nil
  | octets low high =>
    obtain ⟨-, rfl⟩ := write_octets.mp h
    refine ⟨_, List.mem_append_right _ (List.mem_singleton_self _), rfl, ?_⟩
    rcases List.mem_cons.mp hd with rfl | hhigh
    · exact .inl rfl
    · obtain rfl := Option.mem_toList.mp hhigh
      exact .inr rfl
  | sequence parts ih =>
    rw [Body.write] at h
    obtain ⟨all, hall, h⟩ := Option.bind_eq_some_iff.mp h
    obtain rfl := Option.some.inj h
    exact (hparts parts (fun b hb _ _ hg h d hd => ih b hb hg h d hd) g all hg hall d hd).mono
      (all.2.extends_addParent _ _).nodes
  | alternation branches ih =>
    rw [Body.write] at h
    obtain ⟨all, hall, h⟩ := Option.bind_eq_some_iff.mp h
    obtain rfl := Option.some.inj h
    exact (hparts branches (fun b hb _ _ hg h d hd => ih b hb hg h d hd) g all hg hall d hd).mono
      (all.2.extends_addParent _ _).nodes
  | option body ih =>
    rw [Body.write] at h
    obtain ⟨inner, hinner, h⟩ := Option.bind_eq_some_iff.mp h
    obtain rfl := Option.some.inj h
    exact (ih hg hinner d hd).mono (inner.2.extends_addParent _ _).nodes
  | repetition bounds body ih =>
    rw [Body.write] at h
    obtain ⟨read, hread, h⟩ := Option.bind_eq_some_iff.mp h
    obtain ⟨inner, hinner, h⟩ := Option.bind_eq_some_iff.mp h
    obtain rfl := Option.some.inj h
    exact (ih hg hinner d hd).mono (inner.2.extends_addParent _ _).nodes

/-- Every number behind `%x` of several rules is in a node. -/
theorem octetIn_writeRules {rules : List RuleText} (hg : g.Ordered) (h : writeRules num rules g = some g') :
    ∀ r ∈ rules, ∀ digits ∈ r.body.octetNumbers, OctetIn num g'.nodes digits := by
  induction rules generalizing g with
  | nil => exact fun r hr => absurd hr List.not_mem_nil
  | cons r rules ih =>
    obtain ⟨g₁, hrule, hmore⟩ := Option.bind_eq_some_iff.mp h
    obtain ⟨hordered, -⟩ := ordered_rule hg hrule
    obtain ⟨made, hbody, hdefine⟩ := Option.bind_eq_some_iff.mp hrule
    have hadds := adds_write (hg.internRule r.name) hbody
    have hext := (ordered_define hadds.ordered hadds.lt (toOption_eq_some.mp hdefine)).2
    intro r' hr' d hd
    rcases List.mem_cons.mp hr' with rfl | hr'
    · exact (octetIn_write (hg.internRule r'.name) hbody d hd).mono
        (hext.trans (ordered_writeRules hordered hmore).2).nodes
    · exact ih hordered hmore r' hr' d hd

/-! ### Grammars that are well formed -/

/-- **A grammar is well formed**: its indices are within their tables, all its rules have roots, the
numbers of its nodes are right, and no bit of a character class is outside of the 256 there are. -/
structure Grammar.WellFormed (g : Grammar) : Prop where
  tables : g.Ordered
  rooted : ∀ rule < g.ruleCount, ∃ i < g.nodes.length, g.ruleRoot rule = (i : ℕ)
  octets : g.EveryNode GrammarNode.OctetsFine
  bounds : g.EveryNode GrammarNode.BoundsFine
  classes : ∀ {k node : ℕ} {built : Bool × Finset ℤ}, ProgramCompiler.buildClass g k node ∅ = some built →
    ∀ bit ∈ built.2, 0 ≤ bit ∧ bit ≤ 255

/-- The bits set are those of octets. -/
def BitsWithin (bits : Finset ℤ) : Prop := ∀ bit ∈ bits, 0 ≤ bit ∧ bit ≤ 255

theorem octet_within (c : Octet) : 0 ≤ (c.toNat : ℤ) ∧ (c.toNat : ℤ) ≤ 255 := by
  have hlt : c.toNat < 256 := c.toNat_lt
  omega

/-- No bit is set outside of a class, if the ranges are those of octets. -/
theorem bitsWithin_buildClass (hg : g.EveryNode GrammarNode.OctetsFine) {k node : ℕ} {bits : Finset ℤ} (hbits : BitsWithin bits)
    {built : Bool × Finset ℤ} (h : ProgramCompiler.buildClass g k node bits = some built) : BitsWithin built.2 := by
  induction k generalizing node bits built with
  | zero => cases h
  | succ k ih =>
    rw [ProgramCompiler.buildClass] at h
    rcases hkind : (g.node node).kind <;> simp only [hkind] at h
    · split_ifs at h
      · obtain rfl := Option.some.inj h
        exact hbits
      · exact ih hbits h
    · split at h
      · next c _ =>
        obtain rfl := Option.some.inj h
        intro bit hbit
        rcases Finset.mem_insert.mp hbit with rfl | hbit
        · exact octet_within c
        rcases Finset.mem_union.mp hbit with hold | hcase
        · exact hbits bit hold
        · rw [ProgramCompiler.caseBits, Finset.mem_insert, Finset.mem_singleton] at hcase
          rcases hcase with rfl | rfl <;> exact octet_within _
      · obtain rfl := Option.some.inj h
        exact hbits
    · obtain rfl := Option.some.inj h
      intro bit hbit
      rcases Finset.mem_union.mp hbit with hold | hnew
      · exact hbits bit hold
      -- a node that is not there is no range
      · have hnode : node < g.nodes.length := by
          by_contra hout
          rw [Grammar.node, List.getD_eq_default _ _ (not_lt.mp hout)] at hkind
          cases hkind
        have hrange := hg _ (Grammar.node_mem hnode) hkind
        obtain ⟨i, hi, rfl⟩ := Finset.mem_image.mp hnew
        rw [Finset.mem_range] at hi
        omega
    · obtain rfl := Option.some.inj h
      exact hbits
    · obtain ⟨r, hr, rfl⟩ := Option.map_eq_some_iff.mp h
      change BitsWithin r.2
      refine firstOf_keeps (fun c _ bits r hbits hbody => ?_) hbits hr
      obtain ⟨inner, hinner, rfl⟩ := Option.map_eq_some_iff.mp hbody
      change BitsWithin inner.2
      exact ih hbits hinner
    · obtain rfl := Option.some.inj h
      exact hbits

/-- Every rule of a grammar that is accepted has a root among the nodes. -/
theorem Grammar.Accepted.rooted (hg : g.Accepted) {rule : ℕ} (hrule : rule < g.ruleCount) :
    ∃ i < g.nodes.length, g.ruleRoot rule = (i : ℕ) := by
  have hmem : (rule : ℤ) ∈ g.rules := Finset.mem_image.mpr ⟨rule, Finset.mem_range.mpr hrule, rfl⟩
  exact (hg.ordered.ruleRoot_cases rule).resolve_left (hg.root_ne hmem)

theorem accepted_compile {text : Str} (h : compile num text = .ok g) : g.Accepted :=
  ⟨ordered_compile h, (compile_eq_ok_iff.mp h).choose_spec.2.2⟩

theorem mem_countsIn {text : Str} {rules : List RuleText} (h : spellText text = some rules) :
    digits ∈ countsIn text ↔ ∃ r ∈ rules, digits ∈ r.body.counts := by
  rw [countsIn, h, Option.getD_some, List.mem_flatMap]

theorem mem_octetNumbersIn {text : Str} {rules : List RuleText} (h : spellText text = some rules) :
    digits ∈ octetNumbersIn text ↔ ∃ r ∈ rules, digits ∈ r.body.octetNumbers := by
  rw [octetNumbersIn, h, Option.getD_some, List.mem_flatMap]

/-- **A text that compiles is stored as it is written, and well formed, if and only if its numbers
are small enough**: those of the repetitions for an `int`, those behind `%x` for an octet, once
they are stored. -/
theorem compile_wellFormed_iff {text : Str} (h : compile .machine text = .ok g) :
    (g.WellFormed ∧ compile .counted text = .ok g) ↔
      (∀ digits ∈ countsIn text, valueIn 10 digits ≤ INT_MAX) ∧
        ∀ digits ∈ octetNumbersIn text, 0 ≤ strtolInt 16 digits ∧ strtolInt 16 digits ≤ 255 := by
  have haccepted := accepted_compile h
  obtain ⟨rules, hspell, hwrite, hvalid⟩ := compile_eq_ok_iff.mp h
  constructor
  · rintro ⟨hwell, hcounted⟩
    obtain ⟨rules', hspell', hwrite', -⟩ := compile_eq_ok_iff.mp hcounted
    obtain rfl : rules = rules' := Option.some.inj (hspell.symm.trans hspell')
    constructor
    · intro d hd
      obtain ⟨r, hr, hd⟩ := (mem_countsIn hspell).mp hd
      exact small_of_strtolInt (counts_of_writeRules ordered_empty ordered_empty ⟨rfl, rfl, rfl, rfl, rfl, rfl⟩
        hwrite hwrite' r hr d hd)
    · intro d hd
      obtain ⟨r, hr, hd⟩ := (mem_octetNumbersIn hspell).mp hd
      obtain ⟨n, hn, hkind, hnum⟩ := octetIn_writeRules ordered_empty hwrite r hr d hd
      obtain ⟨hlow, hle, hhigh⟩ := hwell.octets n hn hkind
      change n.lo = strtolInt 16 d ∨ n.hi = strtolInt 16 d at hnum
      omega
  · rintro ⟨hcounts, hoctets⟩
    have hfine := octetsFine_writeRules hwrite fun r hr d hd => hoctets d ((mem_octetNumbersIn hspell).mpr ⟨r, hr, hd⟩)
    refine ⟨⟨haccepted.ordered, fun _ hrule => haccepted.rooted hrule, hfine, ?_, fun hbuilt => ?_⟩, ?_⟩
    · refine boundsFine_writeRules hwrite fun r hr d hd => ?_
      exact strtolInt_nonneg (hcounts d ((mem_countsIn hspell).mpr ⟨r, hr, hd⟩))
    · exact bitsWithin_buildClass hfine (fun _ hbit => absurd hbit (Finset.notMem_empty _)) hbuilt
    · refine compile_eq_ok_iff.mpr ⟨rules, hspell, ?_, hvalid⟩
      have hagree : ∀ r ∈ rules, Agree .counted .machine r.body.counts r.body.octetNumbers := fun r hr =>
        ⟨fun d hd => (strtolInt_small (hcounts d ((mem_countsIn hspell).mpr ⟨r, hr, hd⟩))).symm, fun _ _ => rfl⟩
      rw [writeRules_congr hagree, hwrite]

set_option maxRecDepth 4000 in
theorem compile_wellFormed_repeated : ∃ g, compile .machine (str "a=2*3%x41") = .ok g ∧ g.WellFormed ∧
    compile .counted (str "a=2*3%x41") = .ok g :=
  ⟨_, rfl, (compile_wellFormed_iff rfl).mpr ⟨by decide, by decide⟩⟩

set_option maxRecDepth 4000 in
/-- A range that begins behind the last octet is stored. -/
theorem compile_octet_256 : ∃ g, compile .machine (str "a=%x100") = .ok g ∧ ¬ g.WellFormed := by
  refine ⟨_, rfl, fun hwell => ?_⟩
  have hrange := hwell.octets _ List.mem_cons_self rfl
  revert hrange
  decide

/-- Counts that fit into an `int` are stored so that the grammar is one the interpreter ends on. -/
theorem sized_compile {text : Str} (h : compile .machine text = .ok g)
    (hcounts : ∀ digits ∈ countsIn text, valueIn 10 digits ≤ INT_MAX) : g.Sized := by
  obtain ⟨rules, hspell, hwrite, -⟩ := compile_eq_ok_iff.mp h
  have hbounds := boundsFine_writeRules hwrite fun r hr d hd =>
    strtolInt_nonneg (hcounts d ((mem_countsIn hspell).mpr ⟨r, hr, hd⟩))
  exact fun n hn hkind => (hbounds n hn hkind).1

/-- **The interpreter of a text with counts that fit into an `int` ends without its limits**, and no
rule is entered again at a position where it is being matched. -/
theorem compiled_terminates {text : Str} (h : compile .machine text = .ok g)
    (hcounts : ∀ digits ∈ countsIn text, valueIn 10 digits ≤ INT_MAX) (line : Str) :
    (∀ rule tables, Ends fun k => TreeMatcher.run .unlimited g line k rule tables) ∧
      ∀ rule, g.ruleRoot rule ≠ kNoRule → ∀ pos frames next,
        ¬ Relation.TransGen (TreeMatcher.CallsWithin g line next) (.node (g.ruleRoot rule).toNat pos next)
          (.node (g.ruleRoot rule).toNat pos (frames ++ next)) := by
  have hg := accepted_compile h
  have hs := sized_compile h hcounts
  refine ⟨fun rule tables => TreeMatcher.ends_run hg hs line rule tables, fun rule hroot pos frames next => ?_⟩
  exact TreeMatcher.not_reentered hg hs (hg.ordered.root_lt hroot) frames

set_option maxRecDepth 4000 in
theorem compiled_terminates_nullable : ∃ g, compile .machine (str "a=*(\"x\" / *\"y\" / \"(\" a \")\")") = .ok g ∧
    Ends fun k => TreeMatcher.run .unlimited g (str "xy(x)") k 0 {} := by
  obtain ⟨g, hg⟩ : ∃ g, compile .machine (str "a=*(\"x\" / *\"y\" / \"(\" a \")\")") = .ok g := ⟨_, rfl⟩
  exact ⟨g, hg, (compiled_terminates hg (by decide) (str "xy(x)")).1 0 {}⟩

end Abnf

end FtIrc
