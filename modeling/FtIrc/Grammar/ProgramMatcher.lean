import FtIrc.Grammar.Program

/-!
# The machine that runs the programs

`ProgramMatcher` goes through a line once, with all the threads of a program at a time
(`FtIrc.Abnf.ProgramMatcher.run`). What it works on stays with it from one line to the next: the
programs that were compiled already, an arena of what threads have saved, a mark for every
instruction, and the number that the marks of a position are made with. That number is an `int` that
is never set back; here it goes round at 32 bits.
-/

namespace FtIrc

namespace Abnf

/-- `Program::inClass`. -/
def Program.inClass (p : Program) (classIndex : ℕ) (c : Octet) : Bool :=
  decide ((c.toNat : ℤ) ∈ p.classes.getD classIndex ∅)

/-- `Program::captureOfSlot`. -/
def Program.captureOfSlot (p : Program) (slot : ℕ) : ℤ := p.slotCapture.getD slot 0

/-- `ProgramMatcher::Thread`: where it stands, and what in the arena it has saved. -/
structure ProgramMatcher.Thread where
  pc : ℕ
  slots : ℕ
  deriving DecidableEq

/-- `ProgramMatcher`. -/
structure ProgramMatcher where
  programs : List (Option Program)
  error : Str := []
  arena : List (List ℤ) := []
  arenaUsed : ℕ := 0
  seen : List (BitVec 32) := []
  current : List ProgramMatcher.Thread := []
  next : List ProgramMatcher.Thread := []
  generation : BitVec 32 := 0

namespace ProgramMatcher

/-- `ProgramMatcher::ProgramMatcher`. -/
def new (g : Grammar) : ProgramMatcher := { programs := List.replicate g.ruleCount none }

/-- `ProgramMatcher::programFor`. -/
def programFor (g : Grammar) (k : ℕ) (rule : ℤ) (m : ProgramMatcher) : Option (Option Program × ProgramMatcher) :=
  if rule < 0 ∨ (m.programs.length : ℤ) ≤ rule then some (none, m)
  else
    match m.programs.getD rule.toNat none with
    | some p => some (some p, m)
    | none =>
      (ProgramCompiler.compile g k rule).map fun
        | .ok p => (some p, { m with programs := m.programs.set rule.toNat (some p) })
        | .error e => (none, { m with error := e })

/-- `ProgramMatcher::compileAll`: whether there is a program for every rule, as far as the rules have a
root. -/
def compileAll (g : Grammar) (k : ℕ) (m : ProgramMatcher) : Option (Bool × ProgramMatcher) :=
  (Fuel.firstOf (fun (i : ℕ) m =>
      if g.ruleRoot i = kNoRule then some (false, m)
      else (programFor g k i m).map fun found => (decide (found.1 = none), found.2))
    (fun r => r.1) (List.range m.programs.length) m).map fun r => (!r.1, r.2)

/-- `static_cast<int>` of a position. -/
def toInt (pos : ℕ) : ℤ := Int.bmod pos (2 ^ 32)

/-- `ProgramMatcher::cloneSlots`. -/
def cloneSlots (slots index : ℕ) (value : ℤ) (m : ProgramMatcher) : ℕ × ProgramMatcher :=
  let arena := if m.arenaUsed = m.arena.length then m.arena ++ [[]] else m.arena
  (m.arenaUsed,
    { m with
      arena := arena.set m.arenaUsed ((arena.getD slots []).set index value)
      arenaUsed := m.arenaUsed + 1 })

/-- `ProgramMatcher::addThread`, to a list of threads. An instruction is entered once only, so the
nesting has a bound. -/
def addThread (p : Program) (generation : BitVec 32) (pos : ℕ) :
    ℕ → ℕ → ℕ → List Thread × ProgramMatcher → List Thread × ProgramMatcher
  | 0, _, _, r => r
  | k + 1, pc, slots, r =>
    if r.2.seen.getD pc 0 = generation then r
    else
      let r := (r.1, { r.2 with seen := r.2.seen.set pc generation })
      match p.code[pc]? with
      | some ⟨.jump, x, _⟩ => addThread p generation pos k x slots r
      | some ⟨.split, x, y⟩ => addThread p generation pos k y slots (addThread p generation pos k x slots r)
      | some ⟨.save, x, _⟩ =>
        let updated := cloneSlots slots x (toInt pos) r.2
        addThread p generation pos k (pc + 1) updated.1 (r.1, updated.2)
      | some _ => (r.1 ++ [⟨pc, slots⟩], r.2)
      -- there is no such instruction
      | none => r

/-- The loop over the threads at a position, where the next octet is `octet`: a thread at the end of
the program, if the line ends there too, and the threads behind the octet. -/
def scan (p : Program) (generation : BitVec 32) (pos : ℕ) (octet : Option Octet) :
    List Thread → List Thread × ProgramMatcher → Option Thread × List Thread × ProgramMatcher
  | [], r => (none, r)
  | thread :: rest, r =>
    match p.code[thread.pc]?, octet with
    | some ⟨.accept, _, _⟩, none => (some thread, r)
    | some ⟨.octetClass, x, _⟩, some c =>
      if p.inClass x c then
        scan p generation pos octet rest
          (addThread p generation (pos + 1) (p.code.length + 1) (thread.pc + 1) thread.slots r)
      else scan p generation pos octet rest r
    | _, _ => scan p generation pos octet rest r

/-- The loop over the positions of a line, of which this is left. -/
def loop (p : Program) : Str → ℕ → BitVec 32 → ProgramMatcher → Option Thread × ProgramMatcher
  | [], pos, generation, m =>
    let r := scan p (generation + 1) pos none m.current ([], m)
    (r.1, { r.2.2 with next := r.2.1, generation := generation + 1 })
  | c :: rest, pos, generation, m =>
    let r := scan p (generation + 1) pos (some c) m.current ([], m)
    let m := { r.2.2 with current := r.2.1, next := m.current }
    if r.2.1 = [] then (none, { m with generation := generation + 1 })
    else loop p rest (pos + 1) (generation + 1) m

/-- What a thread at the end has saved. -/
def result (g : Grammar) (p : Program) (line : Str) (saved : List ℤ) : MatchResult :=
  (List.range p.slotCapture.length).foldl
    (fun r slot =>
      let start := saved.getD (slot * 2) 0
      let last := saved.getD (slot * 2 + 1) 0
      if start < 0 ∨ last < 0 ∨ last < start then r
      else
        let text := (line.drop start.toNat).take (last - start).toNat
        { r with
          values := r.values.modify (p.captureOfSlot slot).toNat (· ++ [text])
          sequence := r.sequence ++ [text]
          owners := r.owners ++ [p.captureOfSlot slot] })
    (MatchResult.reset g)

/-- What is set up for a line. -/
def prepare (p : Program) (m : ProgramMatcher) : ProgramMatcher :=
  let arena := if m.arena = [] then m.arena ++ [[]] else m.arena
  { m with
    arena := arena.set 0 (List.replicate (p.slotCapture.length * 2) (-1))
    arenaUsed := 1
    seen := List.replicate p.code.length 0
    current := []
    next := [] }

/-- `ProgramMatcher::match`, once there is a program. -/
def runProgram (g : Grammar) (p : Program) (line : Str) (m : ProgramMatcher) : Option MatchResult × ProgramMatcher :=
  let m := prepare p m
  let r := addThread p (m.generation + 1) 0 (p.code.length + 1) 0 0 ([], m)
  let found := loop p line 0 (m.generation + 1) { r.2 with current := r.1 }
  (found.1.map fun thread => result g p line (found.2.arena.getD thread.slots []), found.2)

/-- `ProgramMatcher::match`: the result, and the matcher after it. -/
def run (g : Grammar) (k : ℕ) (rule : ℤ) (line : Str) (m : ProgramMatcher) :
    Option (Option MatchResult × ProgramMatcher) :=
  (programFor g k rule m).map fun found =>
    match found.1 with
    | none => (none, found.2)
    | some p => if p.code = [] then (none, found.2) else runProgram g p line found.2

end ProgramMatcher

end Abnf

end FtIrc
