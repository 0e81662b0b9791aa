import FtIrc.Grammar.Arena
import Mathlib.Data.Finset.Basic

/-!
# Which grammars are accepted

The checks `GrammarBuilder::compile` makes of a grammar it has read: every rule that is
referred to has a definition, and no rule is left-recursive. The second check follows the
left edges of a rule, past whatever may match nothing (`FtIrc.Abnf.Grammar.isNullable`), through
every rule it meets there (`FtIrc.Abnf.Grammar.collectLeftReachable`).

Both walks follow references, so they are given fuel: enough to go through the nodes once for
every rule (`FtIrc.Abnf.Grammar.walkFuel`).
-/

namespace FtIrc

namespace Abnf

namespace Grammar

variable (g : Grammar)

/-- The children of a node. -/
def childrenOf (n : GrammarNode) : List ℕ := (List.range n.count).map fun k => g.child (n.first + k)

/-- Fuel for a walk that enters no rule twice on its way. -/
def walkFuel : ℕ := (g.ruleCount + 1) * (g.nodes.length + 1)

/-- `GrammarValidator::checkAllRulesDefined`. -/
def checkAllRulesDefined : Except Str Unit :=
  match (List.range g.ruleCount).find? fun i : ℕ => decide (g.ruleRoot i = kNoRule) with
  | some i => .error (str "rule '" ++ g.ruleName i ++ str "' is referenced but never defined")
  | none => .ok ()

/-- `GrammarValidator::isNullable`, with the rules that are being looked at. -/
def isNullable : ℕ → ℕ → Finset ℤ → Bool
  | 0, _, _ => false
  | k + 1, node, busy =>
    let n := g.node node
    match n.kind with
    | .literal => (g.literal n.literal).isEmpty
    | .octetRange => false
    | .reference =>
      if n.lo ∈ busy then false
      else
        let root := g.ruleRoot n.lo
        decide (root = kNoRule) || isNullable k root.toNat (insert n.lo busy)
    | .sequence => (g.childrenOf n).all fun c => isNullable k c busy
    | .alternation => (g.childrenOf n).any fun c => isNullable k c busy
    | .repetition => decide (n.lo = 0) || isNullable k (g.child n.first) busy

/-- The children of a sequence up to the first that matches something. -/
def leftEdge (nullable : ℕ → Bool) : List ℕ → List ℕ
  | [] => []
  | c :: cs => c :: if nullable c then leftEdge nullable cs else []

/-- `GrammarValidator::collectLeftReachable`, with the rules seen so far. -/
def collectLeftReachable : ℕ → ℕ → Finset ℤ → Finset ℤ
  | 0, _, seen => seen
  | k + 1, node, seen =>
    let n := g.node node
    match n.kind with
    | .literal => seen
    | .octetRange => seen
    | .reference =>
      if n.lo ∈ seen then seen
      else
        let root := g.ruleRoot n.lo
        if root = kNoRule then insert n.lo seen
        else collectLeftReachable k root.toNat (insert n.lo seen)
    | .sequence =>
      (leftEdge (fun c => g.isNullable g.walkFuel c ∅) (g.childrenOf n)).foldl
        (fun seen c => collectLeftReachable k c seen) seen
    | .alternation => (g.childrenOf n).foldl (fun seen c => collectLeftReachable k c seen) seen
    | .repetition => collectLeftReachable k (g.child n.first) seen

/-- `GrammarValidator::checkNoLeftRecursion`. -/
def checkNoLeftRecursion : Except Str Unit :=
  let recursive (i : ℕ) : Bool :=
    let root := g.ruleRoot i
    decide (root ≠ kNoRule) && decide ((i : ℤ) ∈ g.collectLeftReachable g.walkFuel root.toNat ∅)
  match (List.range g.ruleCount).find? recursive with
  | some i => .error (str "rule '" ++ g.ruleName i ++ str "' is left-recursive")
  | none => .ok ()

/-- `GrammarValidator::validate`. -/
def validate : Except Str Unit := do
  g.checkAllRulesDefined
  g.checkNoLeftRecursion

end Grammar

end Abnf

end FtIrc
