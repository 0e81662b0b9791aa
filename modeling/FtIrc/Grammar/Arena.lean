import FtIrc.Octets
import Mathlib.Data.List.GetD

/-!
# Grammars and match results

The data every matching strategy shares: the arena of nodes a grammar text is
compiled to (`FtIrc.Abnf.Grammar`), what a successful match hands back
(`FtIrc.Abnf.MatchResult`), and the interface both strategies implement
(`FtIrc.Abnf.Matcher`, the `IMatcher` of the source).

A node names its children by position in one table of children, its text by
position in one table of literals, a rule by its number. All of these are plain
indices, as in the source; reading past the end of a table, which is undefined
there, gives a default here.
-/

namespace FtIrc

namespace Abnf

/-- What holds of every entry and of the default holds of every read. -/
theorem getD_of_forall {α : Type} {P : α → Prop} {l : List α} {d : α} (hd : P d)
    (h : ∀ a ∈ l, P a) (i : ℕ) : P (l.getD i d) := by
  by_cases hlt : i < l.length
  · rw [List.getD_eq_getElem _ _ hlt]
    exact h _ (List.getElem_mem hlt)
  · rw [List.getD_eq_default _ _ (by omega)]
    exact hd

/-! ### The arena -/

/-- `GrammarNode::Kind`. -/
inductive Kind
  /-- A reference to the rule numbered `lo`. -/
  | reference
  /-- A quoted text, matched without regard to case. -/
  | literal
  /-- One octet between `lo` and `hi`. -/
  | octetRange
  /-- The children, one after the other. -/
  | sequence
  /-- One of the children. -/
  | alternation
  /-- The only child, at least `lo` and at most `hi` times. -/
  | repetition
  deriving DecidableEq

/-- `GrammarNode::kUnbounded`. -/
def kUnbounded : ℤ := -1

/-- `GrammarNode::kNoCapture`. -/
def kNoCapture : ℤ := -1

/-- `Grammar::kNoRule`. -/
def kNoRule : ℤ := -1

/-- A node of the arena; the defaults are those of its constructor. -/
structure GrammarNode where
  kind : Kind := .sequence
  lo : ℤ := 0
  hi : ℤ := 0
  first : ℕ := 0
  count : ℕ := 0
  literal : ℤ := -1
  capture : ℤ := kNoCapture
  deriving DecidableEq, Inhabited

/-- A compiled grammar. -/
structure Grammar where
  nodes : List GrammarNode := []
  children : List ℕ := []
  literals : List Str := []
  captureNames : List Str := []
  ruleNames : List Str := []
  ruleRoots : List ℤ := []
  deriving DecidableEq, Inhabited

namespace Grammar

variable (g : Grammar)

/-- The position of a name in a list of names, or `-1`. -/
def positionOf (name : Str) (names : List Str) : ℤ :=
  match names.findIdx? (· == name) with
  | some i => i
  | none => -1

def ruleIndex (name : Str) : ℤ := positionOf (asciiFold name) g.ruleNames

def ruleRoot (rule : ℤ) : ℤ :=
  if rule < 0 then kNoRule else g.ruleRoots.getD rule.toNat kNoRule

def ruleName (rule : ℤ) : Str := if rule < 0 then [] else g.ruleNames.getD rule.toNat []

def ruleCount : ℕ := g.ruleNames.length

def node (index : ℕ) : GrammarNode := g.nodes.getD index default

def child (index : ℕ) : ℕ := g.children.getD index 0

def literal (index : ℤ) : Str := g.literals.getD index.toNat []

def captureCount : ℕ := g.captureNames.length

def captureIndex (name : Str) : ℤ := positionOf name g.captureNames

end Grammar

/-! ### What a match hands back -/

/-- `MatchResult`: for every capture name the texts it caught, and all captured
texts in order, each with the number of its capture. -/
structure MatchResult where
  /-- The capture names of the grammar the result was reset to. -/
  names : List Str := []
  values : List (List Str) := []
  sequence : List Str := []
  owners : List ℤ := []
  deriving DecidableEq

namespace MatchResult

/-- `MatchResult::reset`. -/
def reset (g : Grammar) : MatchResult :=
  { names := g.captureNames, values := g.captureNames.map fun _ => [] }

/-- `MatchResult::all`: the texts a name caught. -/
def all (r : MatchResult) (name : Str) : List Str :=
  match r.names.findIdx? (· == name) with
  | some slot => r.values.getD slot []
  | none => []

def has (r : MatchResult) (name : Str) : Bool := !(r.all name).isEmpty

def count (r : MatchResult) (name : Str) : ℕ := (r.all name).length

/-- `MatchResult::at`: empty when there is no such text. -/
def textAt (r : MatchResult) (name : Str) (index : ℕ) : Str := (r.all name).getD index []

/-- `MatchResult::get`. -/
def get (r : MatchResult) (name : Str) : Str := r.textAt name 0

/-- Every text of the result stands inside the line it was matched against. -/
def InfixOf (r : MatchResult) (line : Str) : Prop :=
  (∀ t ∈ r.sequence, t <:+: line) ∧ ∀ ts ∈ r.values, ∀ t ∈ ts, t <:+: line

theorem InfixOf.mem_all {r : MatchResult} {line name t : Str} (h : r.InfixOf line)
    (ht : t ∈ r.all name) : t <:+: line := by
  rw [all] at ht
  rcases hslot : r.names.findIdx? (· == name) with _ | slot
  · rw [hslot] at ht
    exact absurd ht (by simp)
  · rw [hslot] at ht
    exact getD_of_forall (P := fun ts => ∀ t ∈ ts, t <:+: line) (by simp) h.2 slot t ht

theorem InfixOf.textAt {r : MatchResult} {line : Str} (h : r.InfixOf line) (name : Str)
    (index : ℕ) : r.textAt name index <:+: line :=
  getD_of_forall (P := fun t => t <:+: line) List.nil_infix (fun _ => h.mem_all) index

end MatchResult

/-! ### The interface of a strategy -/

/-- **A matching strategy over a grammar**, the `IMatcher` of the source: `run` is
`match`, `none` where that returns `false`. Both strategies cut what they capture
out of the line, which is all the server relies on. -/
structure Matcher where
  grammar : Grammar
  run : ℤ → Str → Option MatchResult
  /-- Captured texts are cut out of the line. -/
  infixOf : ∀ {rule line r}, run rule line = some r → r.InfixOf line

/-- The strategy that matches nothing. -/
def Matcher.mute (g : Grammar) : Matcher where
  grammar := g
  run _ _ := none
  infixOf h := absurd h (by simp)

end Abnf

end FtIrc
