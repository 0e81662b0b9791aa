import FtIrc.Grammar.Emitted

/-!
# The machine that runs the programs runs in lockstep

The threads of a `ProgramMatcher` are those of the abstract machine: what a thread has saved is a slot
of the arena that no other thread writes to, and the instructions entered at a position are those
marked with the number of that position. That is so as long as the numbers do not come round to that
of an old mark, or to the one of an instruction never entered; then what is matched is what the run
of the abstract machine finds (`FtIrc.Abnf.ProgramMatcher.runProgram_eq`), whatever lines the matcher
has seen before.
-/

namespace FtIrc

namespace Abnf

namespace ProgramMatcher

variable {p : Program} {m m' m'' : ProgramMatcher} {generation : BitVec 32} {size pos : ℕ} {v v' : Finset ℕ}

/-- What a thread has in its slots, that has saved these positions. -/
def saved (size : ℕ) (saves : Machine.Saves) : List ℤ :=
  saves.foldl (fun slots save => slots.set save.1 (toInt save.2)) (List.replicate size (-1))

theorem saved_snoc (size : ℕ) (saves : Machine.Saves) (save : ℕ × ℕ) :
    saved size (saves ++ [save]) = (saved size saves).set save.1 (toInt save.2) := by
  rw [saved, List.foldl_append]
  rfl

/-- The slots of a thread are in use, and hold what was saved. -/
def Holds (m : ProgramMatcher) (size slots : ℕ) (saves : Machine.Saves) : Prop :=
  slots < m.arenaUsed ∧ m.arena[slots]? = some (saved size saves)

/-- A thread of the matcher is one of the machine. -/
def Same (m : ProgramMatcher) (size : ℕ) (t : Thread) (u : Machine.Thread) : Prop :=
  t.pc = u.pc ∧ Holds m size t.slots u.saves

/-- **What is done to a matcher on the way keeps** the slots in use, and the threads that wait. -/
structure Keeps (m m' : ProgramMatcher) : Prop where
  current : m'.current = m.current
  used : m.arenaUsed ≤ m'.arenaUsed
  slots : ∀ i < m.arenaUsed, m'.arena[i]? = m.arena[i]?

theorem Keeps.refl (m : ProgramMatcher) : Keeps m m := ⟨rfl, le_rfl, fun _ _ => rfl⟩

theorem Keeps.trans (h : Keeps m m') (h' : Keeps m' m'') : Keeps m m'' where
  current := h'.current.trans h.current
  used := h.used.trans h'.used
  slots i hi := (h'.slots i (hi.trans_le h.used)).trans (h.slots i hi)

theorem Holds.keep {slots : ℕ} {saves : Machine.Saves} (h : Holds m size slots saves) (hkeeps : Keeps m m') :
    Holds m' size slots saves :=
  ⟨h.1.trans_le hkeeps.used, (hkeeps.slots _ h.1).trans h.2⟩

/-- **The marks of a position**: the instructions marked with its number are those that were entered, and
no number is greater. -/
structure Marks (p : Program) (generation : BitVec 32) (m : ProgramMatcher) (v : Finset ℕ) : Prop where
  length : m.seen.length = p.code.length
  arena : m.arenaUsed ≤ m.arena.length
  entered : ∀ q < p.code.length, m.seen.getD q 0 = generation ↔ q ∈ v
  least : ∀ mark ∈ m.seen, mark.toNat ≤ generation.toNat

theorem Marks.cloneSlots (h : Marks p generation m v) (slots index : ℕ) (value : ℤ) :
    Marks p generation (cloneSlots slots index value m).2 v where
  length := h.length
  arena := by
    have harena := h.arena
    simp only [ProgramMatcher.cloneSlots, List.length_set]
    split_ifs with hfull
    · rw [List.length_append, List.length_singleton]
      omega
    · omega
  entered := h.entered
  least := h.least

theorem keeps_cloneSlots (slots index : ℕ) (value : ℤ) (m : ProgramMatcher) :
    Keeps m (cloneSlots slots index value m).2 where
  current := rfl
  used := Nat.le_succ _
  slots i hi := by
    simp only [cloneSlots]
    rw [List.getElem?_set_ne (by omega)]
    split_ifs with hfull
    · exact List.getElem?_append_left (by omega)
    · rfl

/-- The slots that were copied hold what was saved, and the new position. -/
theorem holds_cloneSlots {slots index : ℕ} {saves : Machine.Saves} (harena : m.arenaUsed ≤ m.arena.length)
    (h : Holds m size slots saves) :
    Holds (cloneSlots slots index (toInt pos) m).2 size (cloneSlots slots index (toInt pos) m).1 (saves ++ [(index, pos)]) := by
  refine ⟨Nat.lt_succ_self _, ?_⟩
  have hold : (if m.arenaUsed = m.arena.length then m.arena ++ [[]] else m.arena).getD slots [] = saved size saves := by
    have hlt := (List.getElem?_eq_some_iff.mp h.2).1
    rw [List.getD_eq_getElem?_getD]
    split_ifs
    · rw [List.getElem?_append_left hlt, h.2, Option.getD_some]
    · rw [h.2, Option.getD_some]
  simp only [cloneSlots]
  rw [List.getElem?_set_self, hold, saved_snoc]
  split_ifs with hfull
  · rw [List.length_append, List.length_singleton]
    omega
  · omega

/-- An instruction is entered. -/
theorem Marks.enter (h : Marks p generation m v) (pc : ℕ) :
    Marks p generation { m with seen := m.seen.set pc generation } (insert pc v) where
  length := by rw [List.length_set, h.length]
  arena := h.arena
  entered q hq := by
    rw [List.getD_eq_getElem?_getD, Finset.mem_insert]
    by_cases hpc : q = pc
    · subst hpc
      rw [List.getElem?_set_self (by rw [h.length]; exact hq)]
      simp
    · rw [List.getElem?_set_ne (Ne.symm hpc), ← List.getD_eq_getElem?_getD, h.entered q hq, or_iff_right hpc]
  least mark hmark := by
    rcases List.mem_or_eq_of_mem_set hmark with hold | rfl
    · exact h.least mark hold
    · exact le_rfl

/-- **The same was found**: to the threads that were there, those that the machine finds are added, and what was
entered on the way is marked. -/
structure Adds (p : Program) (generation : BitVec 32) (size : ℕ) (l : List Thread) (m : ProgramMatcher)
    (r : List Thread × ProgramMatcher) (e : List Machine.Thread × Finset ℕ) : Prop where
  threads : ∃ new, r.1 = l ++ new ∧ List.Forall₂ (Same r.2 size) new e.1
  keeps : Keeps m r.2
  marks : Marks p generation r.2 e.2

theorem Adds.none {l : List Thread} (h : Marks p generation m v) : Adds p generation size l m (l, m) ([], v) :=
  ⟨⟨[], (List.append_nil l).symm, .nil⟩, .refl m, h⟩

theorem Same.keep {t : Thread} {u : Machine.Thread} (h : Same m size t u) (hkeeps : Keeps m m') : Same m' size t u :=
  ⟨h.1, h.2.keep hkeeps⟩

/-- What one step adds, and then another. -/
theorem Adds.append {l : List Thread} {r r' : List Thread × ProgramMatcher} {e e' : List Machine.Thread × Finset ℕ}
    (h : Adds p generation size l m r e) (h' : Adds p generation size r.1 r.2 r' e') :
    Adds p generation size l m r' (e.1 ++ e'.1, e'.2) := by
  obtain ⟨new, hnew, hsame⟩ := h.threads
  obtain ⟨new', hnew', hsame'⟩ := h'.threads
  refine ⟨⟨new ++ new', by rw [hnew', hnew, List.append_assoc], ?_⟩, h.keeps.trans h'.keeps, h'.marks⟩
  exact List.rel_append (hsame.imp fun _ _ hs => hs.keep h'.keeps) hsame'

/-- What was kept before. -/
theorem Adds.of_keeps {l : List Thread} {r : List Thread × ProgramMatcher} {e : List Machine.Thread × Finset ℕ}
    (hkeeps : Keeps m m') (h : Adds p generation size l m' r e) : Adds p generation size l m r e :=
  ⟨h.threads, hkeeps.trans h.keeps, h.marks⟩

theorem keeps_enter (m : ProgramMatcher) (seen : List (BitVec 32)) : Keeps m { m with seen := seen } :=
  ⟨rfl, le_rfl, fun _ _ => rfl⟩

/-- **A thread is added as the machine explores it.** -/
theorem adds_addThread (hgeneration : generation ≠ 0) {k pc slots : ℕ} {saves : Machine.Saves} {l : List Thread}
    (hmarks : Marks p generation m v) (hholds : Holds m size slots saves) :
    Adds p generation size l m (addThread p generation pos k pc slots (l, m)) (Machine.explore p.instr pos k pc saves v) := by
  induction k generalizing m v pc slots saves l with
  | zero => exact .none hmarks
  | succ k ih =>
    rw [addThread, Machine.explore]
    dsimp only
    by_cases hin : pc < p.code.length
    swap
    · -- there is no such instruction, in neither of them
      have hnone : p.code[pc]? = Option.none := List.getElem?_eq_none (by omega)
      have hseen : m.seen.getD pc 0 ≠ generation := by
        rw [List.getD_eq_getElem?_getD, List.getElem?_eq_none (by rw [hmarks.length]; omega)]
        exact hgeneration.symm
      rw [if_neg hseen, hnone, Program.within_instr p pc (by omega)]
      refine .of_keeps (keeps_enter m (m.seen.set pc generation)) ?_
      have henter := hmarks.enter pc
      split_ifs with hv
      · rw [Finset.insert_eq_of_mem hv] at henter
        exact .none henter
      · exact .none henter
    have hentered := hmarks.entered pc hin
    split_ifs with hseen hv hv
    · exact .none hmarks
    · exact absurd (hentered.mp hseen) hv
    · exact absurd (hentered.mpr hv) hseen
    have henter := hmarks.enter pc
    have hkept : Holds { m with seen := m.seen.set pc generation } size slots saves := hholds.keep (keeps_enter m _)
    obtain ⟨ins, hins⟩ : ∃ ins, p.code[pc]? = some ins := ⟨_, List.getElem?_eq_getElem hin⟩
    rw [Program.instr_eq hins, hins]
    refine .of_keeps (keeps_enter m (m.seen.set pc generation)) ?_
    rcases ins with ⟨op, x, y⟩
    cases op with
    | octetClass => exact ⟨⟨_, rfl, .cons ⟨rfl, hkept⟩ .nil⟩, .refl _, henter⟩
    | accept => exact ⟨⟨_, rfl, .cons ⟨rfl, hkept⟩ .nil⟩, .refl _, henter⟩
    | jump => exact ih henter hkept
    | split =>
      have hfirst : Adds p generation size l _ (addThread p generation pos k x slots (l, _)) _ := ih henter hkept
      exact hfirst.append (ih hfirst.marks (hkept.keep hfirst.keeps))
    | save =>
      have hclone := henter.cloneSlots slots x (toInt pos)
      exact .of_keeps (keeps_cloneSlots _ _ _ _) (ih hclone (holds_cloneSlots henter.arena hkept))

/-! ### A line -/

/-- The threads behind an octet are those of the machine. -/
theorem adds_scan (hgeneration : generation ≠ 0) {c : Octet} {ts : List Thread} {us : List Machine.Thread} {l : List Thread}
    (hmarks : Marks p generation m v) (hsame : List.Forall₂ (Same m size) ts us) :
    (scan p generation pos (some c) ts (l, m)).1 = none ∧
      Adds p generation size l m (scan p generation pos (some c) ts (l, m)).2
        (Machine.advance p.instr (p.code.length + 1) pos c us v) := by
  induction ts generalizing us m v l with
  | nil =>
    cases hsame
    exact ⟨rfl, .none hmarks⟩
  | cons t ts ih =>
    cases hsame with
    | @cons _ u _ us ht hts =>
      unfold scan
      rw [Machine.advance, ← ht.1, Program.instr]
      cases hins : p.code[t.pc]? with
      | none => exact ih hmarks hts
      | some ins =>
        rcases ins with ⟨op, x, y⟩
        cases op with
        | octetClass =>
          dsimp only [Option.elim_some, Program.meaning]
          split_ifs with hclass
          · have hadds : Adds p generation size l m
                (addThread p generation (pos + 1) (p.code.length + 1) (t.pc + 1) t.slots (l, m)) _ :=
              adds_addThread hgeneration hmarks ht.2
            obtain ⟨hnone, hrest⟩ := ih hadds.marks (hts.imp fun _ _ hs => hs.keep hadds.keeps)
            exact ⟨hnone, hadds.append hrest⟩
          · exact ih hmarks hts
        | split => exact ih hmarks hts
        | jump => exact ih hmarks hts
        | save => exact ih hmarks hts
        | accept => exact ih hmarks hts

/-- **The first thread at the end.** -/
theorem scan_end {ts : List Thread} {us : List Machine.Thread} {l : List Thread} (hsame : List.Forall₂ (Same m size) ts us) :
    (scan p generation pos none ts (l, m)).2 = (l, m) ∧
      Option.Rel (Same m size) (scan p generation pos none ts (l, m)).1 (us.find? (Machine.Thread.done p.instr)) := by
  induction hsame with
  | nil => exact ⟨rfl, .none⟩
  | @cons t u ts us ht hts ih =>
    unfold scan
    rw [List.find?_cons, Machine.Thread.done, ← ht.1, Program.instr]
    cases hins : p.code[t.pc]? with
    | none => exact ih
    | some ins =>
      rcases ins with ⟨op, x, y⟩
      cases op with
      | octetClass => exact ih
      | split => exact ih
      | jump => exact ih
      | save => exact ih
      | accept => exact ⟨rfl, .some ht⟩

theorem toNat_succ (h : generation.toNat + 1 < 2 ^ 32) : (generation + 1).toNat = generation.toNat + 1 := by
  rw [BitVec.toNat_add]
  exact Nat.mod_eq_of_lt h

theorem succ_ne_zero (h : generation.toNat + 1 < 2 ^ 32) : generation + 1 ≠ 0 := by
  intro hzero
  have hnumber := toNat_succ h
  rw [hzero] at hnumber
  cases hnumber

/-- The marks of one position are not those of the next. -/
theorem Marks.next (h : Marks p generation m v) (hlt : generation.toNat + 1 < 2 ^ 32) : Marks p (generation + 1) m ∅ := by
  have hnext := toNat_succ hlt
  refine ⟨h.length, h.arena, fun q hq => ?_, fun mark hmark => ?_⟩
  · have hmem : m.seen.getD q 0 ∈ m.seen := by
      rw [List.getD_eq_getElem _ _ (by rw [h.length]; exact hq)]
      exact List.getElem_mem _
    have hle := h.least _ hmem
    simp only [Finset.notMem_empty, iff_false]
    rintro heq
    rw [heq, hnext] at hle
    omega
  · have hle := h.least mark hmark
    omega

/-- **A line is gone through as the machine runs over it.** -/
theorem loop_eq_run {rest : Str} {us : List Machine.Thread} (hmarks : Marks p generation m v)
    (hsame : List.Forall₂ (Same m size) m.current us) (hlt : generation.toNat + rest.length < 2 ^ 32) :
    ((loop p rest pos generation m).1.map fun t => (loop p rest pos generation m).2.arena.getD t.slots []) =
      (Machine.run p.instr (p.code.length + 1) pos us rest).map (saved size) := by
  induction rest generalizing pos generation m us v with
  | nil =>
    obtain ⟨hkept, hfound⟩ := scan_end (p := p) (l := []) hsame
    unfold loop
    rw [Machine.run]
    dsimp only
    generalize hscan : scan p (generation + 1) pos none m.current ([], m) = r
    rw [hscan] at hkept hfound
    obtain ⟨found, l, m₁⟩ := r
    obtain ⟨rfl, rfl⟩ := Prod.mk.inj hkept
    generalize us.find? (Machine.Thread.done p.instr) = done at hfound ⊢
    cases hfound with
    | none => rfl
    | some hs =>
      have hslots := hs.2.2
      simp [List.getD_eq_getElem?_getD, hslots]
  | cons c rest ih =>
    rw [List.length_cons] at hlt
    have hnext := hmarks.next (by omega)
    obtain ⟨-, hadds⟩ := adds_scan (l := []) (c := c) (succ_ne_zero (by omega)) hnext hsame
    unfold loop
    rw [Machine.run]
    dsimp only
    obtain ⟨new, hnew, hthreads⟩ := hadds.threads
    rw [List.nil_append] at hnew
    split_ifs with hnone
    · -- no thread is left
      rw [← hnew, hnone] at hthreads
      rw [List.forall₂_nil_left_iff.mp hthreads, Machine.run_nil]
      rfl
    · have hstart : Marks p (generation + 1)
          { (scan p (generation + 1) pos (some c) m.current ([], m)).2.2 with
            current := (scan p (generation + 1) pos (some c) m.current ([], m)).2.1, next := m.current } _ :=
        ⟨hadds.marks.length, hadds.marks.arena, hadds.marks.entered, hadds.marks.least⟩
      have hshort : (generation + 1).toNat + rest.length < 2 ^ 32 := by
        rw [toNat_succ (by omega)]
        omega
      rw [← hnew] at hthreads
      exact ih hstart hthreads hshort

/-! ### The result -/

theorem getD_set_self {α : Type} {l : List α} {i : ℕ} {a d : α} (h : i < l.length) : (l.set i a).getD i d = a := by
  rw [List.getD_eq_getElem?_getD, List.getElem?_set_self h, Option.getD_some]

/-- What is set up is as nothing was entered yet. -/
theorem marks_prepare (p : Program) (m : ProgramMatcher) (hlt : m.generation.toNat + 1 < 2 ^ 32) :
    Marks p (m.generation + 1) (prepare p m) ∅ where
  length := List.length_replicate
  arena := by
    change 1 ≤ (List.set _ _ _).length
    rw [List.length_set]
    split_ifs with hnone
    · simp
    · exact List.length_pos_iff.mpr hnone
  entered q hq := by
    have hzero : (prepare p m).seen.getD q 0 = 0 := by
      rw [List.getD_eq_getElem?_getD]
      exact congrArg (Option.getD · 0) (List.getElem?_replicate_of_lt hq)
    rw [hzero]
    exact ⟨fun h => absurd h.symm (succ_ne_zero hlt), fun h => absurd h (Finset.notMem_empty q)⟩
  least mark hmark := by
    rw [List.eq_of_mem_replicate hmark]
    exact Nat.zero_le _

theorem holds_prepare (p : Program) (m : ProgramMatcher) : Holds (prepare p m) (p.slotCapture.length * 2) 0 [] := by
  refine ⟨Nat.one_pos, ?_⟩
  change (List.set _ _ _)[0]? = _
  rw [List.getElem?_set_self]
  · rfl
  · split_ifs with hnone
    · simp
    · exact List.length_pos_iff.mpr hnone

/-- **What is matched is what the run of the machine finds**, as long as the numbers last for the line. -/
theorem runProgram_eq (g : Grammar) {line : Str} (hlt : m.generation.toNat + line.length + 1 < 2 ^ 32) :
    (runProgram g p line m).1 = (Machine.search p.instr p.code.length line).map fun saves =>
      result g p line (saved (p.slotCapture.length * 2) saves) := by
  have hadds : Adds p (m.generation + 1) (p.slotCapture.length * 2) [] (prepare p m)
      (addThread p (m.generation + 1) 0 (p.code.length + 1) 0 0 ([], prepare p m))
      (Machine.explore p.instr 0 (p.code.length + 1) 0 [] ∅) :=
    adds_addThread (succ_ne_zero (by omega)) (marks_prepare p m (by omega)) (holds_prepare p m)
  obtain ⟨new, hnew, hthreads⟩ := hadds.threads
  rw [List.nil_append] at hnew
  have hstart : Marks p (m.generation + 1)
      { (addThread p (m.generation + 1) 0 (p.code.length + 1) 0 0 ([], prepare p m)).2 with
        current := (addThread p (m.generation + 1) 0 (p.code.length + 1) 0 0 ([], prepare p m)).1 } _ :=
    ⟨hadds.marks.length, hadds.marks.arena, hadds.marks.entered, hadds.marks.least⟩
  have hshort : (m.generation + 1).toNat + line.length < 2 ^ 32 := by
    rw [toNat_succ (by omega)]
    omega
  rw [← hnew] at hthreads
  have hresult := @loop_eq_run p _ (m.generation + 1) _ 0 _ line _ hstart hthreads hshort
  have hmap := congrArg (Option.map fun slots => result g p line slots) hresult
  rw [Option.map_map, Option.map_map] at hmap
  exact hmap

/-! ### One line after another -/

variable {g : Grammar} {rule : ℤ} {line : Str}

/-- **A matcher that was used**: some lines were matched, or all programs compiled. -/
inductive Used (g : Grammar) : ProgramMatcher → Prop
  | new : Used g (new g)
  | matched {m m' : ProgramMatcher} {k : ℕ} {rule : ℤ} {line : Str} {r : Option MatchResult} : Used g m →
      run g k rule line m = some (r, m') → Used g m'
  | compiled {m m' : ProgramMatcher} {k : ℕ} {r : Bool} : Used g m → compileAll g k m = some (r, m') → Used g m'

/-- The programs that are there are those of their rules. -/
structure Table (g : Grammar) (m : ProgramMatcher) : Prop where
  length : m.programs.length = g.ruleCount
  compiled : ∀ {i : ℕ} {p : Program}, m.programs[i]? = some (some p) → ∃ k, ProgramCompiler.compile g k i = some (.ok p)

theorem steady_compile (g : Grammar) (rule : ℤ) : Fuel.Steady fun k => ProgramCompiler.compile g k rule := by
  intro k
  exact .ite (.refl _) (ProgramCompiler.steady_emitNode _ _ k).map

/-- What there is for a rule, compiled or not. -/
def Finds (g : Grammar) (rule : ℤ) (found : Option Program) : Prop :=
  if rule < 0 ∨ (g.ruleCount : ℤ) ≤ rule then found = none
  else ∃ k r, ProgramCompiler.compile g k rule = some r ∧ found = r.toOption

theorem Table.finds (hm : Table g m) {k : ℕ} {found : Option Program} (h : programFor g k rule m = some (found, m')) :
    Table g m' ∧ m'.generation = m.generation ∧ Finds g rule found := by
  rw [programFor, hm.length] at h
  rw [Finds]
  split_ifs at h ⊢ with hrule
  · obtain ⟨rfl, rfl⟩ := Prod.mk.inj (Option.some.inj h)
    exact ⟨hm, rfl, rfl⟩
  have hcast : (rule.toNat : ℤ) = rule := Int.toNat_of_nonneg (by omega)
  have hin : rule.toNat < m.programs.length := by rw [hm.length]; omega
  cases hcached : m.programs.getD rule.toNat none with
  | some p =>
    rw [hcached] at h
    obtain ⟨rfl, rfl⟩ := Prod.mk.inj (Option.some.inj h)
    rw [List.getD_eq_getElem _ _ hin] at hcached
    obtain ⟨k', hcompile⟩ := hm.compiled (List.getElem?_eq_some_iff.mpr ⟨hin, hcached⟩)
    rw [hcast] at hcompile
    exact ⟨hm, rfl, k', _, hcompile, rfl⟩
  | none =>
    rw [hcached] at h
    obtain ⟨r, hcompile, h⟩ := Option.map_eq_some_iff.mp h
    cases r with
    | error e =>
      obtain ⟨rfl, rfl⟩ := Prod.mk.inj h
      exact ⟨⟨hm.length, hm.compiled⟩, rfl, k, _, hcompile, rfl⟩
    | ok p =>
      obtain ⟨rfl, rfl⟩ := Prod.mk.inj h
      refine ⟨⟨(List.length_set ..).trans hm.length, fun {i q} hi => ?_⟩, rfl, k, _, hcompile, rfl⟩
      by_cases heq : rule.toNat = i
      · subst heq
        rw [List.getElem?_set_self hin] at hi
        obtain rfl := Option.some.inj (Option.some.inj hi)
        rw [hcast]
        exact ⟨k, hcompile⟩
      · rw [List.getElem?_set_ne heq] at hi
        exact hm.compiled hi

/-- What is found for a rule is one thing. -/
theorem Finds.unique {found found' : Option Program} (h : Finds g rule found) (h' : Finds g rule found') : found = found' := by
  rw [Finds] at h h'
  split_ifs at h h'
  · exact h.trans h'.symm
  · obtain ⟨k, r, hr, rfl⟩ := h
    obtain ⟨k', r', hr', rfl⟩ := h'
    rw [(steady_compile g rule).unique hr hr']

/-- What there is for a rule is found, whatever was compiled before. -/
theorem Table.exists_programFor (hm : Table g m) {found : Option Program} (h : Finds g rule found) :
    ∃ k m', programFor g k rule m = some (found, m') := by
  by_cases hrule : rule < 0 ∨ (m.programs.length : ℤ) ≤ rule
  · rw [Finds, if_pos (hm.length ▸ hrule)] at h
    exact ⟨0, m, by rw [programFor, if_pos hrule, h]⟩
  cases hcached : m.programs.getD rule.toNat none with
  | some p =>
    have hprogram : programFor g 0 rule m = some (some p, m) := by rw [programFor, if_neg hrule, hcached]
    obtain rfl := (hm.finds hprogram).2.2.unique h
    exact ⟨0, m, hprogram⟩
  | none =>
    rw [Finds, if_neg (hm.length ▸ hrule)] at h
    obtain ⟨k, r, hcompile, rfl⟩ := h
    cases r with
    | error e => exact ⟨k, _, by rw [programFor, if_neg hrule, hcached]; simp only [hcompile, Option.map_some]; rfl⟩
    | ok p => exact ⟨k, _, by rw [programFor, if_neg hrule, hcached]; simp only [hcompile, Option.map_some]; rfl⟩

theorem steady_programFor (g : Grammar) (rule : ℤ) (m : ProgramMatcher) : Fuel.Steady fun k => programFor g k rule m := by
  intro k
  refine .ite (.refl _) ?_
  rcases m.programs.getD rule.toNat none with _ | p
  · exact (steady_compile g rule k).map
  · exact .refl _

/-- **All rules with a program are compiled**, whatever was compiled before. -/
theorem Table.exists_compileAll (hm : Table g m)
    (h : ∀ rule ∈ g.rules, g.ruleRoot rule ≠ kNoRule → ∃ k p, ProgramCompiler.compile g k rule = some (.ok p)) :
    ∃ k m', compileAll g k m = some (true, m') := by
  let body (k i : ℕ) (m : ProgramMatcher) : Option (Bool × ProgramMatcher) :=
    if g.ruleRoot i = kNoRule then some (false, m)
    else (programFor g k i m).map fun found => (decide (found.1 = none), found.2)
  have hsteady : ∀ i m, Fuel.Steady fun k => body k i m := fun i m k => .ite (.refl _) (steady_programFor g i m k).map
  suffices hloop : ∀ is : List ℕ, (∀ i ∈ is, i < g.ruleCount) → ∀ m, Table g m →
      ∃ k m', Fuel.firstOf (body k) (fun r => r.1) is m = some (false, m') by
    obtain ⟨k, m', hrun⟩ := hloop (List.range m.programs.length) (fun i hi => hm.length ▸ List.mem_range.mp hi) m hm
    exact ⟨k, m', congrArg (Option.map fun r : Bool × ProgramMatcher => (!r.1, r.2)) hrun⟩
  intro is his
  induction is with
  | nil => exact fun m _ => ⟨0, m, rfl⟩
  | cons i is ih =>
    intro m hm
    obtain ⟨hi, his⟩ := List.forall_mem_cons.mp his
    obtain ⟨k, m', hbody, hm'⟩ : ∃ k m', body k i m = some (false, m') ∧ Table g m' := by
      by_cases hroot : g.ruleRoot i = kNoRule
      · exact ⟨0, m, if_pos hroot, hm⟩
      obtain ⟨k, p, hp⟩ := h i (Finset.mem_image.mpr ⟨i, Finset.mem_range.mpr hi, rfl⟩) hroot
      have hfinds : Finds g i (some p) := by
        rw [Finds, if_neg (by omega)]
        exact ⟨k, _, hp, rfl⟩
      obtain ⟨k', m', hfound⟩ := hm.exists_programFor hfinds
      exact ⟨k', m', (if_neg hroot).trans (congrArg (Option.map _) hfound), (hm.finds hfound).1⟩
    obtain ⟨k', m'', hrest⟩ := ih his m' hm'
    refine ⟨max k k', m'', ?_⟩
    rw [Fuel.firstOf, (hsteady i m).eq_some hbody (le_max_left k k')]
    exact (Fuel.Refines.firstOf (fun i m => (hsteady i m).refines (le_max_right k k')) is m') _ hrest

/-- What is matched, without regard to what was matched before. -/
def Matched (g : Grammar) (rule : ℤ) (line : Str) (r : Option MatchResult) : Prop :=
  ∃ found, Finds g rule found ∧ r = found.bind fun p =>
    if p.code = [] then none
    else (Machine.search p.instr p.code.length line).map fun saves => result g p line (saved (p.slotCapture.length * 2) saves)

theorem programs_addThread {k pc slots : ℕ} (r : List Thread × ProgramMatcher) :
    (addThread p generation pos k pc slots r).2.programs = r.2.programs := by
  induction k generalizing pc slots r with
  | zero => rfl
  | succ k ih =>
    unfold addThread
    split_ifs
    · rfl
    split
    · exact ih _
    · exact (ih _).trans (ih _)
    · exact ih _
    · rfl
    · rfl

theorem programs_scan {octet : Option Octet} {ts : List Thread} (r : List Thread × ProgramMatcher) :
    (scan p generation pos octet ts r).2.2.programs = r.2.programs := by
  induction ts generalizing r with
  | nil => rfl
  | cons t ts ih =>
    unfold scan
    split
    · rfl
    · split_ifs
      · exact (ih _).trans (programs_addThread _)
      · exact ih _
    · exact ih _

theorem programs_loop {rest : Str} : (loop p rest pos generation m).2.programs = m.programs := by
  induction rest generalizing pos generation m with
  | nil => exact programs_scan _
  | cons c rest ih =>
    unfold loop
    dsimp only
    split_ifs
    · exact programs_scan _
    · exact ih.trans (programs_scan _)

/-- A line does nothing to the programs. -/
theorem programs_runProgram (g : Grammar) (p : Program) (line : Str) (m : ProgramMatcher) :
    (runProgram g p line m).2.programs = m.programs :=
  programs_loop.trans (programs_addThread _)

theorem Table.same (hm : Table g m) (h : m'.programs = m.programs) : Table g m' :=
  ⟨h ▸ hm.length, fun hi => hm.compiled (h ▸ hi)⟩

theorem Table.runs (hm : Table g m) {k : ℕ} {r : Option MatchResult} (h : run g k rule line m = some (r, m')) : Table g m' := by
  obtain ⟨⟨found, m₁⟩, hfound, h⟩ := Option.map_eq_some_iff.mp h
  have htable := (hm.finds hfound).1
  cases found with
  | none =>
    obtain rfl := (Prod.mk.inj h).2
    exact htable
  | some p =>
    dsimp only at h
    split_ifs at h
    · obtain rfl := (Prod.mk.inj h).2
      exact htable
    · obtain rfl := congrArg Prod.snd h
      exact htable.same (programs_runProgram g p line m₁)

/-- **Every matcher that was used** has the programs of the rules. -/
theorem Used.table (h : Used g m) : Table g m := by
  induction h with
  | new => exact ⟨List.length_replicate, fun hi => by simp [ProgramMatcher.new, List.getElem?_replicate] at hi⟩
  | matched _ hrun ih => exact ih.runs hrun
  | compiled _ hall ih =>
    obtain ⟨r, hfirst, h⟩ := Option.map_eq_some_iff.mp hall
    obtain rfl := (Prod.mk.inj h).2
    refine Fuel.firstOf_keeps (fun i _ m r hm hstep => ?_) ih hfirst
    split_ifs at hstep
    · obtain rfl := Option.some.inj hstep
      exact hm
    · obtain ⟨found, hfound, rfl⟩ := Option.map_eq_some_iff.mp hstep
      exact (hm.finds hfound).1

/-- **A match does not depend on what was matched before**, as long as the numbers last for the line. -/
theorem run_iff (hm : Table g m) (hlt : m.generation.toNat + line.length + 1 < 2 ^ 32) {r : Option MatchResult} :
    (∃ k m', run g k rule line m = some (r, m')) ↔ Matched g rule line r := by
  constructor
  · rintro ⟨k, m', h⟩
    obtain ⟨⟨found, m₁⟩, hfound, h⟩ := Option.map_eq_some_iff.mp h
    obtain ⟨-, hgeneration, hfinds⟩ := hm.finds hfound
    refine ⟨found, hfinds, ?_⟩
    cases found with
    | none => exact (Prod.mk.inj h).1.symm
    | some p =>
      dsimp only at h
      rw [Option.bind_some]
      split_ifs at h ⊢
      · exact (Prod.mk.inj h).1.symm
      · rw [← runProgram_eq g (p := p) (m := m₁) (by rw [hgeneration]; exact hlt), h]
  · rintro ⟨found, hfinds, rfl⟩
    obtain ⟨k, m₁, hfound⟩ := hm.exists_programFor hfinds
    obtain ⟨-, hgeneration, -⟩ := hm.finds hfound
    cases found with
    | none => exact ⟨k, m₁, by rw [run, hfound]; rfl⟩
    | some p =>
      rw [Option.bind_some]
      by_cases hempty : p.code = []
      · refine ⟨k, m₁, ?_⟩
        rw [run, hfound, Option.map_some, if_pos hempty]
        dsimp only
        rw [if_pos hempty]
      · refine ⟨k, (runProgram g p line m₁).2, ?_⟩
        have hresult := runProgram_eq g (p := p) (m := m₁) (by rw [hgeneration]; exact hlt)
        rw [run, hfound, Option.map_some, if_neg hempty, ← hresult]
        dsimp only
        rw [if_neg hempty]

end ProgramMatcher

end Abnf

end FtIrc
