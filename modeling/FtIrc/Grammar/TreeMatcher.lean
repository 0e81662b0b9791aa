import FtIrc.Grammar.SingleOctet

/-!
# The interpreter of a grammar

`TreeMatcher` walks through the nodes of a grammar and the octets of a line at once. What is to be
matched behind a node is a list of frames (`FtIrc.Abnf.Frame`, the `Continuation` of the source),
and what was captured so far is taken back when a way turns out wrong. What is done where no frame
is left is a parameter; for the server, the line must be at its end
(`FtIrc.Abnf.TreeMatcher.atEnd`). The walk is limited in
steps and in depth (`FtIrc.Abnf.Limits`); it is written with fuel besides, which more of changes
nothing about (`FtIrc.Abnf.TreeMatcher.steady_perform`).
-/

namespace FtIrc

namespace Abnf

open Fuel

/-- How many steps a walk may take, and how deep it may go. -/
structure Limits where
  steps : Option ℕ
  depth : Option ℕ

/-- `kMaxSteps` and `kMaxDepth`. -/
def Limits.server : Limits := ⟨some 200000, some 256⟩

/-- No limits at all. -/
def Limits.unlimited : Limits := ⟨none, none⟩

/-- `steps > kMaxSteps`. -/
def Limits.stepsOver (l : Limits) (steps : ℕ) : Bool := l.steps.any fun most => decide (most < steps)

/-- `depth >= kMaxDepth`. -/
def Limits.tooDeep (l : Limits) (depth : ℕ) : Bool := l.depth.any fun most => decide (most ≤ depth)

/-- `TreeMatcher::Continuation`, one of them: what is to be done when something has matched. -/
inductive Frame
  /-- A node is matched. -/
  | node (node : ℕ)
  /-- A sequence goes on with this child. -/
  | sequence (node childNo : ℕ)
  /-- A repetition has matched so often, the last time from here. -/
  | repetition (node count start : ℕ)
  /-- A capture that began here is complete. -/
  | closeCapture (slot start : ℕ)
  deriving DecidableEq

/-- `TreeMatcher::Walk`, and the tables of the matcher. -/
structure Walk where
  values : List (List Str) := []
  sequence : List Str := []
  owners : List ℤ := []
  steps : ℕ := 0
  depth : ℕ := 0
  exhausted : Bool := false
  tables : Grammar.OctetTables := {}

/-- `std::vector::resize`. -/
def resized {α : Type} (l : List α) (size : ℕ) (fill : α) : List α :=
  l.take size ++ List.replicate (size - l.length) fill

/-- A text is captured. -/
def Walk.push (walk : Walk) (slot : ℕ) (text : Str) : Walk :=
  { walk with values := walk.values.modify slot (· ++ [text]), sequence := walk.sequence ++ [text],
              owners := walk.owners ++ [(slot : ℤ)] }

/-- What was captured since then is taken back. -/
def Walk.takeBack (walk : Walk) (slot : ℕ) (before : Walk) : Walk :=
  { walk with values := walk.values.modify slot fun list => resized list (before.values.getD slot []).length [],
              sequence := resized walk.sequence before.sequence.length [],
              owners := resized walk.owners before.sequence.length 0 }

/-- What a way through the grammar comes to. -/
abbrev Outcome := Bool × Walk

/-- A loop over several ways is left. -/
def Outcome.final (r : Outcome) : Bool := r.1 || r.2.exhausted

namespace TreeMatcher

variable (limits : Limits) (g : Grammar) (line : Str) (last : ℕ → Walk → Option Outcome)

/-- What is done where no frame is left: the line must be at its end. -/
def atEnd (pos : ℕ) (walk : Walk) : Option Outcome := some (decide (pos = line.length), walk)

/-- Whether a repetition has a child that matches a single octet, which is asked before the first
time only. -/
def asksSingleOctet (k child count : ℕ) (walk : Walk) : Option (Bool × Walk) :=
  if count = 0 then
    (g.isSingleOctet k child walk.tables.single).map fun r =>
      (r.1, { walk with tables := { walk.tables with single := r.2 } })
  else some (false, walk)

/-- The octets a repetition takes where each is matched on its own. -/
def takenFrom (bits : List Octet) (hi : ℤ) (pos : ℕ) : ℕ :=
  let most := if hi = kUnbounded then line.length else (hi % 2 ^ 64).toNat
  (((line.drop pos).take most).takeWhile fun c => decide (c ∈ bits)).length

/-- The numbers from one down to another. -/
def countdown (most least : ℕ) : List ℕ := ((List.range (most + 1)).drop least).reverse

mutual

/-- `TreeMatcher::matchContinuation`. -/
def matchContinuation : ℕ → List Frame → ℕ → Walk → Option Outcome
  | 0, _, _, _ => none
  | k + 1, frames, pos, walk =>
    if walk.exhausted then some (false, walk)
    else
      match frames with
      | [] => last pos walk
      | .node node :: next => matchNode k node pos next walk
      | .sequence node childNo :: next => matchSequence k node childNo pos next walk
      | .repetition node count start :: next => matchRepetition k node count start pos next walk
      | .closeCapture slot start :: next =>
        (matchContinuation k next pos (walk.push slot ((line.drop start).take (pos - start)))).map fun r =>
          if r.1 then r else (false, r.2.takeBack slot walk)
termination_by structural k => k

/-- `TreeMatcher::matchSequence`. -/
def matchSequence : ℕ → ℕ → ℕ → ℕ → List Frame → Walk → Option Outcome
  | 0, _, _, _, _, _ => none
  | k + 1, node, childNo, pos, next, walk =>
    let n := g.node node
    if n.count ≤ childNo then matchContinuation k next pos walk
    else matchNode k (g.child (n.first + childNo)) pos (.sequence node (childNo + 1) :: next) walk
termination_by structural k => k

/-- `TreeMatcher::matchRepetition`. -/
def matchRepetition : ℕ → ℕ → ℕ → ℕ → ℕ → List Frame → Walk → Option Outcome
  | 0, _, _, _, _, _, _ => none
  | k + 1, node, count, start, pos, next, walk =>
    if walk.exhausted then some (false, walk)
    else
      let n := g.node node
      let child := g.child n.first
      (asksSingleOctet g k child count walk).bind fun asked =>
        if asked.1 then
          (g.octetBitmap k child asked.2.tables).bind fun bitmap =>
            let taken := takenFrom line bitmap.1 n.hi pos
            let walk := { asked.2 with tables := bitmap.2, steps := asked.2.steps + taken }
            if limits.stepsOver walk.steps then some (false, { walk with exhausted := true })
            else
              firstOf (fun take walk => matchContinuation k next (pos + take) walk) Outcome.final
                (countdown taken n.lo.toNat) walk
        else
          let stop (walk : Walk) : Option Outcome :=
            if n.lo ≤ count then matchContinuation k next pos walk else some (false, walk)
          -- a body that matched nothing is not matched again
          if (n.hi = kUnbounded ∨ count < n.hi) ∧ ¬ (0 < count ∧ pos = start) then
            (matchNode k child pos (.repetition node (count + 1) pos :: next) asked.2).bind fun r =>
              if r.final then some r else stop r.2
          else stop asked.2
termination_by structural k => k

/-- `TreeMatcher::matchNode`. -/
def matchNode : ℕ → ℕ → ℕ → List Frame → Walk → Option Outcome
  | 0, _, _, _, _ => none
  | k + 1, node, pos, next, walk =>
    if walk.exhausted then some (false, walk)
    else
      let walk := { walk with steps := walk.steps + 1 }
      if limits.stepsOver walk.steps || limits.tooDeep walk.depth then
        some (false, { walk with exhausted := true })
      else
        let walk := { walk with depth := walk.depth + 1 }
        let n := g.node node
        let found : Option Outcome :=
          match n.kind with
          | .literal =>
            let text := g.literal n.literal
            if pos + text.length ≤ line.length ∧
                asciiFold ((line.drop pos).take text.length) = asciiFold text then
              matchContinuation k next (pos + text.length) walk
            else some (false, walk)
          | .octetRange =>
            if (line)[pos]?.any fun c => decide (n.lo ≤ c.toNat ∧ (c.toNat : ℤ) ≤ n.hi) then
              matchContinuation k next (pos + 1) walk
            else some (false, walk)
          | .reference =>
            let root := g.ruleRoot n.lo
            if root = kNoRule then some (false, walk)
            else if n.capture = kNoCapture then matchNode k root.toNat pos next walk
            else matchNode k root.toNat pos (.closeCapture n.capture.toNat pos :: next) walk
          | .sequence => matchSequence k node 0 pos next walk
          | .alternation =>
            firstOf (fun child walk => matchNode k child pos next walk) Outcome.final (g.childrenOf n) walk
          | .repetition => matchRepetition k node 0 pos pos next walk
        found.map fun r => (r.1, { r.2 with depth := r.2.depth - 1 })
termination_by structural k => k

end

/-- `TreeMatcher::match`: the result, whether the walk was given up, and the tables then. -/
def run (k : ℕ) (rule : ℤ) (tables : Grammar.OctetTables) : Option (Option MatchResult × Bool × Grammar.OctetTables) :=
  if g.ruleRoot rule = kNoRule then some (none, false, tables)
  else
    (matchNode limits g line (atEnd line) k (g.ruleRoot rule).toNat 0 []
        { values := g.captureNames.map fun _ => [], tables := tables }).map fun r =>
      (if r.1 then some { MatchResult.reset g with values := r.2.values, sequence := r.2.sequence, owners := r.2.owners }
        else none, r.2.exhausted, r.2.tables)

end TreeMatcher

end Abnf

end FtIrc
