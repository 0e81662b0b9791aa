import FtIrc.Grammar.SingleOctet
import Mathlib.Data.Finset.Image

/-!
# The compiler of a grammar

`ProgramCompiler` turns a rule of a grammar into a program for a machine that goes through a line
once (`FtIrc.Abnf.ProgramCompiler.compile`). Rules are written out where they are referred to, so
a rule that is being written out must not be met again; a repetition is written out as often as it
may match, or as a loop where there is no limit to that.

A character class is a bitmap of 256 bits in the source. Here it is the set of the octets whose
bits were set, as the numbers the source computes the position of a bit from: that they are octets
is not checked there.
-/

namespace FtIrc

namespace Abnf

open Fuel

/-- `Instruction::Op`. -/
inductive Op
  | octetClass
  | split
  | jump
  | save
  | accept
  deriving DecidableEq

/-- `Instruction`. -/
structure Instruction where
  op : Op
  x : ℕ := 0
  y : ℕ := 0
  deriving DecidableEq

/-- `Program`. -/
structure Program where
  code : List Instruction := []
  classes : List (Finset ℤ) := []
  slotCapture : List ℤ := []
  deriving DecidableEq

/-- What a `ProgramCompiler` works on. -/
structure Compiler where
  program : Program := {}
  compiling : Finset ℤ := ∅
  octetMemo : Memo := []

/-- `kUnrollLimit`. -/
def kUnrollLimit : ℤ := 64

namespace ProgramCompiler

variable (g : Grammar)

/-- `ProgramCompiler::emit`: the position of the new instruction, and the program with it. -/
def emit (op : Op) (x y : ℕ) (c : Compiler) : ℕ × Compiler :=
  (c.program.code.length,
    { c with program := { c.program with code := c.program.code ++ [⟨op, x, y⟩] } })

/-- An instruction gets its first operand: the position the program has come to. -/
def patchX (position : ℕ) (c : Compiler) : Compiler :=
  { c with program := { c.program with
      code := c.program.code.modify position fun ins => { ins with x := c.program.code.length } } }

/-- An instruction gets its second operand. -/
def patchY (position : ℕ) (c : Compiler) : Compiler :=
  { c with program := { c.program with
      code := c.program.code.modify position fun ins => { ins with y := c.program.code.length } } }

/-- `ProgramCompiler::addClass`. -/
def addClass (bits : Finset ℤ) (c : Compiler) : ℕ × Compiler :=
  match c.program.classes.findIdx? (· == bits) with
  | some i => (i, c)
  | none =>
    (c.program.classes.length, { c with program := { c.program with classes := c.program.classes ++ [bits] } })

/-- An instruction for a character class. -/
def emitClass (bits : Finset ℤ) (c : Compiler) : Compiler :=
  (emit .octetClass (addClass bits c).1 0 (addClass bits c).2).2

/-- The bits of a range of octets. -/
def rangeBits (lo hi : ℤ) : Finset ℤ := (Finset.range (hi + 1 - lo).toNat).image fun i : ℕ => lo + i

/-- The bits of a letter, in both cases. -/
def caseBits (c : Octet) : Finset ℤ := {((foldOctet c).toNat : ℤ), ((raiseOctet (foldOctet c)).toNat : ℤ)}

/-- `ProgramCompiler::buildClass`: whether the node has a class, and the bits set so far. -/
def buildClass : ℕ → ℕ → Finset ℤ → Option (Bool × Finset ℤ)
  | 0, _, _ => none
  | k + 1, node, bits =>
    let n := g.node node
    match n.kind with
    | .octetRange => some (true, bits ∪ rangeBits n.lo n.hi)
    | .literal =>
      match g.literal n.literal with
      | [c] => some (true, insert (c.toNat : ℤ) (bits ∪ caseBits c))
      | _ => some (false, bits)
    | .reference =>
      if g.ruleRoot n.lo = kNoRule then some (false, bits) else buildClass k (g.ruleRoot n.lo).toNat bits
    | .alternation =>
      -- the loop goes on as long as the answer is yes, so what it finds is turned round
      (firstOf (fun c bits => (buildClass k c bits).map fun r => (!r.1, r.2)) (fun r => r.1)
        (g.childrenOf n) bits).map fun r => (!r.1, r.2)
    | .sequence => some (false, bits)
    | .repetition => some (false, bits)

/-- `ProgramCompiler::hasCapture`. -/
def hasCapture : ℕ → ℕ → Option Bool
  | 0, _ => none
  | k + 1, node =>
    let n := g.node node
    if n.kind = .reference then
      if n.capture ≠ kNoCapture then some true
      else if g.ruleRoot n.lo = kNoRule then some false
      else hasCapture k (g.ruleRoot n.lo).toNat
    else anyOf (fun c => hasCapture k c) (g.childrenOf n)

/-- `ProgramCompiler::fail`. -/
def fail (message : Str) : Option (Except Str Compiler) := some (.error (str "program: " ++ message))

/-- What was emitted is gone on from, unless that failed. -/
def andThen (r : Option (Except Str Compiler)) (next : Compiler → Option (Except Str Compiler)) :
    Option (Except Str Compiler) :=
  r.bind fun
    | .ok c => next c
    | .error e => some (.error e)

/-- Several things are emitted, one after the other. -/
def emitAll {α : Type} (step : α → Compiler → Option (Except Str Compiler)) :
    List α → Compiler → Option (Except Str Compiler)
  | [], c => some (.ok c)
  | a :: as, c => andThen (step a c) (emitAll step as)

/-- The octets of a literal are emitted, each as a class. -/
def emitLiteral (text : Str) (c : Compiler) : Compiler := text.foldl (fun c octet => emitClass (caseBits octet) c) c

/-- The optional part of a repetition: where its splits stand, and what is emitted. -/
def emitOptionals (step : ℕ → Compiler → Option (Except Str Compiler)) (child : ℕ) :
    ℕ → Compiler → Option (Except Str (List ℕ × Compiler))
  | 0, c => some (.ok ([], c))
  | times + 1, c =>
    let split := emit .split 0 0 c
    (step child (patchX split.1 split.2)).bind fun
      | .error e => some (.error e)
      | .ok c => (emitOptionals step child times c).map fun r => r.map fun s => (split.1 :: s.1, s.2)

/-- `ProgramCompiler::emitRepetition`, where `step` emits a node, and `asks` looks for captures. -/
def emitRepetition (step : ℕ → Compiler → Option (Except Str Compiler)) (asks : ℕ → Option Bool)
    (n : GrammarNode) (c : Compiler) : Option (Except Str Compiler) :=
  let child := g.child n.first
  let least := if n.lo < 0 then 0 else n.lo
  andThen (emitAll (fun _ c => step child c) (List.range least.toNat) c) fun c =>
    if n.hi = kUnbounded then
      (asks child).bind fun captures =>
        if captures then
          fail (str "a capture inside an unbounded repetition cannot be compiled: the loop reuses one slot pair, so only the last match would survive. Give the repetition an upper bound so it can be unrolled.")
        else
          let loop := emit .split 0 0 c
          andThen (step child (patchX loop.1 loop.2)) fun c => some (.ok (patchY loop.1 (emit .jump loop.1 0 c).2))
    else
      let optional := n.hi - least
      if optional < 0 then fail (str "repetition range runs backwards")
      else if kUnrollLimit < optional then fail (str "bounded repetition too large to unroll")
      else
        -- the splits that leave are patched when all is written out
        (emitOptionals step child optional.toNat c).map fun r =>
          r.map fun s => s.1.foldl (fun c position => patchY position c) s.2

/-- The branches of an alternation: where the jumps behind them stand, and what is emitted. -/
def emitBranches (step : ℕ → Compiler → Option (Except Str Compiler)) :
    List ℕ → Compiler → Option (Except Str (List ℕ × Compiler))
  | [], c => some (.ok ([], c))
  | [child], c => (step child c).map fun r => r.map fun c => ([], c)
  | child :: rest, c =>
    let split := emit .split 0 0 c
    (step child (patchX split.1 split.2)).bind fun
      | .error e => some (.error e)
      | .ok c =>
        let jump := emit .jump 0 0 c
        (emitBranches step rest (patchY split.1 jump.2)).map fun r => r.map fun s => (jump.1 :: s.1, s.2)

/-- A rule is being written out. -/
def enter (rule : ℤ) (c : Compiler) : Compiler := { c with compiling := insert rule c.compiling }

/-- A rule is written out. -/
def leave (rule : ℤ) (c : Compiler) : Compiler := { c with compiling := c.compiling.erase rule }

/-- A slot for a capture. -/
def newSlot (capture : ℤ) (c : Compiler) : Compiler :=
  { c with program := { c.program with slotCapture := c.program.slotCapture ++ [capture] } }

/-- The cases of `ProgramCompiler::emitNode`. -/
def emitCases (step : ℕ → Compiler → Option (Except Str Compiler)) (asks : ℕ → Option Bool) (node : ℕ)
    (c : Compiler) : Option (Except Str Compiler) :=
  let n := g.node node
  match n.kind with
  | .octetRange => some (.ok (emitClass (rangeBits n.lo n.hi) c))
  | .literal => some (.ok (emitLiteral (g.literal n.literal) c))
  | .reference =>
    if g.ruleRoot n.lo = kNoRule then fail (str "undefined rule reference")
    else if n.lo ∈ c.compiling then
      fail (str "rule '" ++ g.ruleName n.lo ++
        str "' is recursive; the compiled strategy inlines rules and cannot express recursion")
    else if n.capture = kNoCapture then
      andThen (step (g.ruleRoot n.lo).toNat (enter n.lo c)) fun c => some (.ok (leave n.lo c))
    else
      let slot := c.program.slotCapture.length
      andThen (step (g.ruleRoot n.lo).toNat (enter n.lo (emit .save (slot * 2) 0 (newSlot n.capture c)).2)) fun c =>
        some (.ok (emit .save (slot * 2 + 1) 0 (leave n.lo c)).2)
  | .sequence => emitAll step (g.childrenOf n) c
  | .alternation =>
    (emitBranches step (g.childrenOf n) c).map fun r =>
      r.map fun s => s.1.foldl (fun c position => patchX position c) s.2
  | .repetition => emitRepetition g step asks n c

/-- `ProgramCompiler::emitNode`. -/
def emitNode : ℕ → ℕ → Compiler → Option (Except Str Compiler)
  | 0, _, _ => none
  | k + 1, node, c =>
    (g.isSingleOctet k node c.octetMemo).bind fun single =>
      let c := { c with octetMemo := single.2 }
      if single.1 then
        (buildClass g k node ∅).bind fun built =>
          if built.1 then some (.ok (emitClass built.2 c)) else emitCases g (emitNode k) (hasCapture g k) node c
      else emitCases g (emitNode k) (hasCapture g k) node c

/-- `ProgramCompiler::compile`: the program, or what is wrong. -/
def compile (k : ℕ) (rule : ℤ) : Option (Except Str Program) :=
  if g.ruleRoot rule = kNoRule then some (.error (str "program: no such rule"))
  else
    (emitNode g k (g.ruleRoot rule).toNat {}).map fun r => r.map fun c => (emit .accept 0 0 c).2.program

end ProgramCompiler

end Abnf

end FtIrc
