import FtIrc.Grammar.Validator
import FtIrc.Library.Fuel

/-!
# What matches a single octet

Both strategies look for nodes that match one octet and nothing else
(`FtIrc.Abnf.Grammar.isSingleOctet`), and remember what they found; a node that is being looked at
counts as one that does not. Which octets such a node matches
(`FtIrc.Abnf.Grammar.octetMatches`) is found without such a mark.
-/

namespace FtIrc

namespace Abnf

open Fuel

/-- What was found out about nodes, the latest first. -/
abbrev Memo := List (ℕ × Bool)

/-- The first of several that is true. -/
def anyOf (f : ℕ → Option Bool) (cs : List ℕ) : Option Bool :=
  (firstOf (fun c (_ : Unit) => (f c).map fun yes => (yes, ())) (fun r => r.1) cs ()).map fun r => r.1

namespace Grammar

variable (g : Grammar)

/-- The cases of `isSingleOctet`, where `ask` is the question about another node. -/
def looksSingle (ask : ℕ → Memo → Option (Bool × Memo)) (n : GrammarNode) (memo : Memo) : Option (Bool × Memo) :=
  match n.kind with
  | .octetRange => some (true, memo)
  | .literal => some (decide ((g.literal n.literal).length = 1), memo)
  | .reference =>
    if n.capture = kNoCapture ∧ g.ruleRoot n.lo ≠ kNoRule then ask (g.ruleRoot n.lo).toNat memo
    else some (false, memo)
  | .alternation =>
    -- the loop goes on as long as the answer is yes, so what it finds is turned round
    (firstOf (fun c memo => (ask c memo).map fun r => (!r.1, r.2)) (fun r => r.1) (g.childrenOf n) memo).map
      fun r => (decide (n.count ≠ 0) && !r.1, r.2)
  | .sequence => some (false, memo)
  | .repetition => some (false, memo)

/-- `isSingleOctet`, of the `TreeMatcher` and of the `ProgramCompiler`: whether a node matches one
octet, and what is known of nodes then. -/
def isSingleOctet : ℕ → ℕ → Memo → Option (Bool × Memo)
  | 0, _, _ => none
  | k + 1, node, memo =>
    match memo.lookup node with
    | some known => some (known, memo)
    | none =>
      (g.looksSingle (isSingleOctet k) (g.node node) ((node, false) :: memo)).map fun r =>
        (r.1, (node, r.1) :: r.2)

/-- `TreeMatcher::octetMatches`. -/
def octetMatches : ℕ → ℕ → Octet → Option Bool
  | 0, _, _ => none
  | k + 1, node, c =>
    let n := g.node node
    match n.kind with
    | .octetRange => some (decide (n.lo ≤ c.toNat ∧ (c.toNat : ℤ) ≤ n.hi))
    | .literal => some (decide (asciiFold (g.literal n.literal) = [foldOctet c]))
    | .reference =>
      if g.ruleRoot n.lo = kNoRule then some false else octetMatches k (g.ruleRoot n.lo).toNat c
    | .alternation => anyOf (fun child => octetMatches k child c) (g.childrenOf n)
    | .sequence => some false
    | .repetition => some false

/-- Those of some octets that a node matches. -/
def matchedOctets (k node : ℕ) : List Octet → Option (List Octet)
  | [] => some []
  | c :: cs =>
    (g.octetMatches k node c).bind fun yes =>
      (matchedOctets k node cs).map fun more => if yes then c :: more else more

/-- All octets. -/
def allOctets : List Octet := (List.range 256).map UInt8.ofNat

/-- The tables a `TreeMatcher` keeps from one match to the next. -/
structure OctetTables where
  single : Memo := []
  bitmaps : List (ℕ × List Octet) := []

/-- `TreeMatcher::octetBitmap`: the octets a node matches, and the tables then. -/
def octetBitmap (k node : ℕ) (tables : OctetTables) : Option (List Octet × OctetTables) :=
  match tables.bitmaps.lookup node with
  | some bits => some (bits, tables)
  | none =>
    (g.matchedOctets k node allOctets).map fun bits =>
      (bits, { tables with bitmaps := (node, bits) :: tables.bitmaps })

variable {g} {k : ℕ} {node : ℕ} {memo : Memo}

/-! ### More fuel changes nothing -/

theorem refines_looksSingle {ask ask' : ℕ → Memo → Option (Bool × Memo)}
    (h : ∀ c memo, Refines (ask c memo) (ask' c memo)) (n : GrammarNode) (memo : Memo) :
    Refines (g.looksSingle ask n memo) (g.looksSingle ask' n memo) := by
  rw [looksSingle, looksSingle]
  rcases n.kind
  · exact .ite (h _ _) (.refl _)
  · exact .refl _
  · exact .refl _
  · exact .refl _
  · exact (Refines.firstOf (fun c memo => (h c memo).map) _ _).map
  · exact .refl _

theorem steady_isSingleOctet (g : Grammar) (node : ℕ) (memo : Memo) :
    Steady fun k => g.isSingleOctet k node memo := by
  intro k
  induction k generalizing node memo with
  | zero => exact .none _
  | succ k ih =>
    change Refines (g.isSingleOctet (k + 1) node memo) (g.isSingleOctet (k + 1 + 1) node memo)
    rw [isSingleOctet, isSingleOctet]
    rcases memo.lookup node with _ | known
    · exact (refines_looksSingle ih _ _).map
    · exact .refl _

theorem steady_octetMatches (g : Grammar) (node : ℕ) (c : Octet) : Steady fun k => g.octetMatches k node c := by
  intro k
  induction k generalizing node with
  | zero => exact .none _
  | succ k ih =>
    change Refines (g.octetMatches (k + 1) node c) (g.octetMatches (k + 1 + 1) node c)
    rw [octetMatches, octetMatches]
    rcases (g.node node).kind
    · exact .ite (.refl _) (ih _)
    · exact .refl _
    · exact .refl _
    · exact .refl _
    · exact (Refines.firstOf (fun child _ => (ih child).map) _ _).map
    · exact .refl _

theorem steady_matchedOctets (g : Grammar) (node : ℕ) (cs : List Octet) :
    Steady fun k => g.matchedOctets k node cs := by
  intro k
  induction cs with
  | nil => exact .refl _
  | cons c cs ih => exact (steady_octetMatches g node c k).bind fun _ => ih.map

theorem steady_octetBitmap (g : Grammar) (node : ℕ) (tables : OctetTables) :
    Steady fun k => g.octetBitmap k node tables := by
  intro k
  change Refines (g.octetBitmap k node tables) (g.octetBitmap (k + 1) node tables)
  rw [octetBitmap, octetBitmap]
  rcases tables.bitmaps.lookup node with _ | bits
  · exact (steady_matchedOctets g node allOctets k).map
  · exact .refl _

end Grammar

end Abnf

end FtIrc
