import FtIrc.Library.Layout
import FtIrc.Grammar.Branches
import FtIrc.Grammar.Compiling
import FtIrc.Grammar.ProgramMatcher
import FtIrc.Grammar.Shapes

/-!
# What is emitted is what is written

The compiler writes a node out as a part of a program, and that part is the pattern of the node, laid
out with a slot for each of its captures (`FtIrc.Abnf.ProgramCompiler.part_emitNode`). While the
branches of an alternation are written out the jumps behind them lead nowhere yet, and so do the splits
of a repetition with a limit; what they are patched to is where the program has come to in the end, and
nothing else in it changes any more.
-/

namespace FtIrc

namespace Abnf

open Fuel

/-- What an instruction is to a machine of threads. -/
def Program.meaning (p : Program) : Instruction → Machine.Instr Octet
  | ⟨.octetClass, x, _⟩ => .symbol (p.inClass x)
  | ⟨.split, x, y⟩ => .split x y
  | ⟨.jump, x, _⟩ => .jump x
  | ⟨.save, x, _⟩ => .save x
  | ⟨.accept, _, _⟩ => .accept

/-- What a program is to a machine of threads. -/
def Program.instr (p : Program) (pc : ℕ) : Machine.Instr Octet := (p.code[pc]?).elim .reject p.meaning

theorem Program.within_instr (p : Program) : Machine.Within p.instr p.code.length := by
  intro pc hpc
  rw [Program.instr, List.getElem?_eq_none hpc, Option.elim_none]

theorem Program.instr_eq {p : Program} {pc : ℕ} {ins : Instruction} (h : p.code[pc]? = some ins) :
    p.instr pc = p.meaning ins := by
  rw [Program.instr, h, Option.elim_some]

namespace ProgramCompiler

variable {p p' p'' P : Program} {a b : Pattern (Finset ℤ) (ℤ × ℕ)} {c c' : Compiler}

/-! ### Slots -/

/-- **The captures with these labels have got slots**, one behind the other. -/
structure Slots (labels : List (ℤ × ℕ)) (slots slots' : List ℤ) : Prop where
  added : slots' = slots ++ labels.map Prod.fst
  numbered : labels = (labels.map Prod.fst).zipIdx slots.length

theorem Slots.nil (slots : List ℤ) : Slots [] slots slots := ⟨(List.append_nil slots).symm, rfl⟩

theorem Slots.append {labels labels' : List (ℤ × ℕ)} {slots slots' slots'' : List ℤ} (h : Slots labels slots slots')
    (h' : Slots labels' slots' slots'') : Slots (labels ++ labels') slots slots'' := by
  refine ⟨?_, ?_⟩
  · rw [h'.added, h.added, List.map_append, List.append_assoc]
  · have hnext := h'.numbered
    rw [h.added, List.length_append, List.length_map] at hnext
    rw [List.map_append, List.zipIdx_append, ← h.numbered, List.length_map, ← hnext]

/-- A slot, and those of what is inside. -/
theorem Slots.cons {capture : ℤ} {labels : List (ℤ × ℕ)} {slots slots' : List ℤ} (h : Slots labels (slots ++ [capture]) slots') :
    Slots ((capture, slots.length) :: labels) slots slots' := by
  refine ⟨?_, ?_⟩
  · rw [h.added, List.append_assoc]
    rfl
  · have hrest := h.numbered
    rw [List.length_append, List.length_singleton] at hrest
    rw [List.map_cons, List.zipIdx_cons, ← hrest]

/-! ### Parts of a program that is written -/

/-- A program shows what was written between two others. -/
structure Shows (P p p' : Program) : Prop where
  code : ∀ i, p.code.length ≤ i → i < p'.code.length → P.code[i]? = p'.code[i]?
  classes : p'.classes <+: P.classes

/-- **A pattern was written** between two programs: it is laid out in whatever program shows that. -/
structure Part (a : Pattern (Finset ℤ) (ℤ × ℕ)) (p p' : Program) : Prop where
  code : p.code <+: p'.code
  classes : p.classes <+: p'.classes
  slots : Slots a.labels p.slotCapture p'.slotCapture
  laid : ∀ {P : Program}, Shows P p p' → Machine.Laid P.instr inBits Prod.snd a p.code.length p'.code.length

theorem getElem?_of_begins {α : Type} {l l' : List α} (h : l <+: l') {i : ℕ} (hi : i < l.length) :
    l'[i]? = l[i]? := by
  obtain ⟨t, rfl⟩ := h
  exact List.getElem?_append_left hi

theorem begins_of_getElem? {α : Type} {l l' : List α} (h : ∀ i < l.length, l'[i]? = l[i]?) : l <+: l' := by
  refine List.prefix_iff_getElem?.mpr fun i hi => ?_
  rw [h i hi, List.getElem?_eq_getElem hi]

/-- Nothing was written. -/
theorem Part.nil (p : Program) : Part .empty p p := ⟨List.prefix_rfl, List.prefix_rfl, .nil _, fun _ => .empty⟩

/-- What was written first is shown too. -/
theorem Shows.left (h : Shows P p p'') (hcode : p'.code <+: p''.code) (hclasses : p'.classes <+: p''.classes) : Shows P p p' where
  code i hi hi' := (h.code i hi (hi'.trans_le hcode.length_le)).trans (getElem?_of_begins hcode hi')
  classes := hclasses.trans h.classes

theorem Shows.right (h : Shows P p p'') (hcode : p.code <+: p'.code) : Shows P p' p'' where
  code i hi hi' := h.code i (hcode.length_le.trans hi) hi'
  classes := h.classes

/-- One part is written behind the other. -/
theorem Part.append (h : Part a p p') (h' : Part b p' p'') : Part (.seq a b) p p'' where
  code := h.code.trans h'.code
  classes := h.classes.trans h'.classes
  slots := h.slots.append h'.slots
  laid hP := .seq (h.laid (hP.left h'.code h'.classes)) (h'.laid (hP.right h.code))

/-- Nothing, and then a part. -/
theorem Part.of_empty (h : Part .empty p p') (h' : Part a p' p'') : Part a p p'' where
  code := h.code.trans h'.code
  classes := h.classes.trans h'.classes
  slots := h.slots.append h'.slots
  laid {P} hP := by
    have hfirst := h.laid (hP.left h'.code h'.classes)
    have hlast := h'.laid (hP.right h.code)
    generalize p.code.length = start at hfirst ⊢
    cases hfirst
    exact hlast

/-- What is written on top of the same instructions, classes and slots is the same part. -/
theorem Part.of_same (h : Part a p p') (hcode : p''.code = p.code) (hclasses : p''.classes = p.classes)
    (hslots : p''.slotCapture = p.slotCapture) : Part a p'' p' where
  code := hcode ▸ h.code
  classes := hclasses ▸ h.classes
  slots := hslots ▸ h.slots
  laid hP := by
    rw [hcode]
    exact h.laid ⟨fun i hi => hP.code i (by rwa [hcode]), hP.classes⟩

/-! ### Single instructions -/

/-- The instruction that was written last is shown. -/
theorem Shows.last {op : Op} {x y : ℕ} (h : Shows P c.program (emit op x y c).2.program) :
    P.code[c.program.code.length]? = some ⟨op, x, y⟩ := by
  have hlast := h.code c.program.code.length le_rfl (by simp [emit])
  rw [hlast]
  simp [emit]

/-- A slot is given to a capture, and its start is saved. -/
def openSlot (capture : ℤ) (c : Compiler) : Compiler := (emit .save (c.program.slotCapture.length * 2) 0 (newSlot capture c)).2

/-- The end of a capture is saved. -/
def closeSlot (slot : ℕ) (c : Compiler) : Compiler := (emit .save (slot * 2 + 1) 0 c).2

/-- **What is captured stands between two saves.** -/
theorem Part.capture {capture : ℤ} (h : Part a (openSlot capture c).program c'.program) :
    Part (.capture (capture, c.program.slotCapture.length) a) c.program (closeSlot c.program.slotCapture.length c').program := by
  have hopen : c.program.code <+: (openSlot capture c).program.code := List.prefix_append _ _
  have hclose : c'.program.code <+: (closeSlot c.program.slotCapture.length c').program.code := List.prefix_append _ _
  have hlen : (openSlot capture c).program.code.length = c.program.code.length + 1 := by simp [openSlot, newSlot, emit]
  refine ⟨hopen.trans (h.code.trans hclose), h.classes, h.slots.cons, fun {P} hP => ?_⟩
  have hshown : Shows P c.program (openSlot capture c).program := hP.left (h.code.trans hclose) h.classes
  have hfirst : Shows P (newSlot capture c).program (openSlot capture c).program := ⟨hshown.code, hshown.classes⟩
  have hsave : P.code[c.program.code.length]? = some ⟨.save, c.program.slotCapture.length * 2, 0⟩ := hfirst.last
  have hlast : Shows P c'.program (closeSlot c.program.slotCapture.length c').program := hP.right (hopen.trans h.code)
  have hbody := h.laid ((hP.left hclose List.prefix_rfl).right hopen)
  have hend : (closeSlot c.program.slotCapture.length c').program.code.length = c'.program.code.length + 1 := by
    simp [closeSlot, emit]
  rw [hlen] at hbody
  rw [hend]
  refine .capture ?_ hbody ?_
  · rw [Program.instr_eq hsave]
    rfl
  · rw [Program.instr_eq hlast.last]
    rfl

/-- A class is found where `addClass` says, and no class goes. -/
theorem classes_addClass (bits : Finset ℤ) (c : Compiler) :
    c.program.classes <+: (addClass bits c).2.program.classes ∧
      (addClass bits c).2.program.classes[(addClass bits c).1]? = some bits := by
  rw [addClass]
  cases hfind : c.program.classes.findIdx? (· == bits) with
  | some i =>
    obtain ⟨hlt, hbits, -⟩ := List.findIdx?_eq_some_iff_getElem.mp hfind
    exact ⟨List.prefix_rfl, by rw [List.getElem?_eq_getElem hlt, eq_of_beq hbits]⟩
  | none => exact ⟨List.prefix_append _ _, List.getElem?_concat_length⟩

/-- Nothing but the classes changes. -/
theorem same_addClass (bits : Finset ℤ) (c : Compiler) : (addClass bits c).2.program.code = c.program.code ∧
    (addClass bits c).2.program.slotCapture = c.program.slotCapture ∧ (addClass bits c).2.octetMemo = c.octetMemo := by
  rw [addClass]
  split
  · exact ⟨rfl, rfl, rfl⟩
  · exact ⟨rfl, rfl, rfl⟩

/-- **A class takes one of its octets.** -/
theorem part_emitClass (bits : Finset ℤ) (c : Compiler) : Part (.symbol bits) c.program (emitClass bits c).program := by
  obtain ⟨hclasses, hfound⟩ := classes_addClass bits c
  obtain ⟨hcode, hslots, -⟩ := same_addClass bits c
  refine ⟨?_, hclasses, ?_, fun {P} hP => ?_⟩
  · rw [← hcode]
    exact List.prefix_append _ _
  · rw [← hslots]
    exact .nil _
  have hlen : (emitClass bits c).program.code.length = c.program.code.length + 1 := by
    rw [emitClass]
    simp [emit, hcode]
  have hshows : Shows P (addClass bits c).2.program (emitClass bits c).program :=
    ⟨fun i hi => hP.code i (by rwa [← hcode]), hP.classes⟩
  have hins := Program.instr_eq hshows.last
  have hclass : P.classes[(addClass bits c).1]? = some bits := by
    rw [← hfound]
    exact getElem?_of_begins hP.classes (List.getElem?_eq_some_iff.mp hfound).1
  rw [hcode] at hins
  rw [hlen]
  refine .symbol (hins.trans (congrArg Machine.Instr.symbol (funext fun x => ?_)))
  rw [Program.inClass, List.getD_eq_getElem?_getD, hclass, Option.getD_some, inBits]

/-! ### What is patched in the end -/

/-- A way of giving an instruction the position the program has come to. -/
structure Patches (patch : ℕ → Compiler → Compiler) (f : ℕ → Instruction → Instruction) : Prop where
  code : ∀ position c, (patch position c).program.code = c.program.code.modify position (f c.program.code.length)
  classes : ∀ position c, (patch position c).program.classes = c.program.classes
  slots : ∀ position c, (patch position c).program.slotCapture = c.program.slotCapture
  memo : ∀ position c, (patch position c).octetMemo = c.octetMemo
  again : ∀ n ins, f n (f n ins) = f n ins

theorem patches_patchX : Patches patchX fun n ins => { ins with x := n } :=
  ⟨fun _ _ => rfl, fun _ _ => rfl, fun _ _ => rfl, fun _ _ => rfl, fun _ _ => rfl⟩

theorem patches_patchY : Patches patchY fun n ins => { ins with y := n } :=
  ⟨fun _ _ => rfl, fun _ _ => rfl, fun _ _ => rfl, fun _ _ => rfl, fun _ _ => rfl⟩

/-- All these are patched. -/
def patchAll (patch : ℕ → Compiler → Compiler) (positions : List ℕ) (c : Compiler) : Compiler :=
  positions.foldl (fun c position => patch position c) c

variable {patch : ℕ → Compiler → Compiler} {f : ℕ → Instruction → Instruction} {positions : List ℕ}

theorem Patches.all_classes (h : Patches patch f) (positions : List ℕ) (c : Compiler) :
    (patchAll patch positions c).program.classes = c.program.classes := by
  induction positions generalizing c with
  | nil => rfl
  | cons position positions ih => exact (ih _).trans (h.classes position c)

theorem Patches.all_slots (h : Patches patch f) (positions : List ℕ) (c : Compiler) :
    (patchAll patch positions c).program.slotCapture = c.program.slotCapture := by
  induction positions generalizing c with
  | nil => rfl
  | cons position positions ih => exact (ih _).trans (h.slots position c)

theorem Patches.all_memo (h : Patches patch f) (positions : List ℕ) (c : Compiler) :
    (patchAll patch positions c).octetMemo = c.octetMemo := by
  induction positions generalizing c with
  | nil => rfl
  | cons position positions ih => exact (ih _).trans (h.memo position c)

theorem Patches.all_length (h : Patches patch f) (positions : List ℕ) (c : Compiler) :
    (patchAll patch positions c).program.code.length = c.program.code.length := by
  induction positions generalizing c with
  | nil => rfl
  | cons position positions ih =>
    refine (ih _).trans ?_
    rw [h.code, List.length_modify]

theorem Patches.all_code (h : Patches patch f) (positions : List ℕ) (c : Compiler) (i : ℕ) :
    (patchAll patch positions c).program.code[i]? =
      if i ∈ positions then (c.program.code[i]?).map (f c.program.code.length) else c.program.code[i]? := by
  induction positions generalizing c with
  | nil => simp [patchAll]
  | cons position positions ih =>
    have hrest := ih (patch position c)
    rw [h.code, List.length_modify] at hrest
    refine hrest.trans ?_
    by_cases hi : position = i
    · subst hi
      have hagain : ∀ ins, f c.program.code.length (f c.program.code.length ins) = f c.program.code.length ins := h.again _
      simp [List.getElem?_modify_eq, Function.comp_def, hagain]
    · simp [List.getElem?_modify_ne _ _ hi, List.mem_cons, Ne.symm hi]

/-- What is written is a part once these instructions are patched. -/
structure Pending (patch : ℕ → Compiler → Compiler) (a : Pattern (Finset ℤ) (ℤ × ℕ)) (positions : List ℕ) (c c' : Compiler) :
    Prop where
  code : c.program.code <+: c'.program.code
  inside : ∀ j ∈ positions, c.program.code.length ≤ j
  part : Part a c.program (patchAll patch positions c').program

/-- Nothing is left to be patched. -/
theorem Pending.of_part (h : Part a c.program c'.program) : Pending patch a [] c c' :=
  ⟨h.code, fun _ hj => absurd hj List.not_mem_nil, h⟩

theorem modify_append_singleton {α : Type} (l : List α) (a : α) (f : α → α) :
    (l ++ [a]).modify l.length f = l ++ [f a] := by
  induction l with
  | nil => rfl
  | cons b l ih => simpa using ih

/-- A split leads on to what is written next. -/
theorem code_split (c : Compiler) (y : ℕ) : (patchX (emit .split 0 y c).1 (emit .split 0 y c).2).program.code =
    c.program.code ++ [⟨.split, c.program.code.length + 1, y⟩] := by
  simp [patchX, emit, modify_append_singleton]

/-- What comes behind a branch: a jump that leads nowhere yet, and the split before the branch leads
behind it. -/
def closeBranch (split : ℕ) (c : Compiler) : Compiler := patchY split (emit .jump 0 0 c).2

theorem length_closeBranch (split : ℕ) (c : Compiler) :
    (closeBranch split c).program.code.length = c.program.code.length + 1 := by
  simp [closeBranch, patchY, emit]

theorem code_closeBranch {split i : ℕ} {c : Compiler} (hne : split ≠ i) (hi : i < c.program.code.length) :
    (closeBranch split c).program.code[i]? = c.program.code[i]? := by
  simp [closeBranch, patchY, emit, hne, List.getElem?_append_left hi]

theorem jump_closeBranch {split : ℕ} {c : Compiler} (hsplit : split < c.program.code.length) :
    (closeBranch split c).program.code[c.program.code.length]? = some ⟨.jump, 0, 0⟩ := by
  simp [closeBranch, patchY, emit, hsplit.ne]

theorem split_closeBranch {split x : ℕ} {c : Compiler} (h : c.program.code[split]? = some ⟨.split, x, 0⟩) :
    (closeBranch split c).program.code[split]? = some ⟨.split, x, c.program.code.length + 1⟩ := by
  have hlt := (List.getElem?_eq_some_iff.mp h).1
  simp [closeBranch, patchY, emit, List.getElem?_append_left hlt, h]

/-- **A branch, and those that follow.** -/
theorem Pending.branch {c₂ : Compiler}
    (h₁ : Part a (patchX (emit .split 0 0 c).1 (emit .split 0 0 c).2).program c₂.program)
    (h₂ : Pending patchX b positions (closeBranch c.program.code.length c₂) c') :
    Pending patchX (.alt a b) (c₂.program.code.length :: positions) c c' := by
  have hstart := h₁.code
  rw [code_split] at hstart
  have hlen₁ := hstart.length_le
  rw [List.length_append, List.length_singleton] at hlen₁
  have hsplit : c₂.program.code[c.program.code.length]? = some ⟨.split, c.program.code.length + 1, 0⟩ := by
    rw [getElem?_of_begins hstart (by simp)]
    exact List.getElem?_concat_length
  have hclosed := h₂.code
  have hlen₂ := hclosed.length_le
  rw [length_closeBranch] at hlen₂
  have hinside : ∀ j ∈ positions, c₂.program.code.length + 1 ≤ j := fun j hj => by
    rw [← length_closeBranch]
    exact h₂.inside j hj
  -- what the program shows before the branches that follow
  have hbefore : ∀ i < c₂.program.code.length, (patchAll patchX (c₂.program.code.length :: positions) c').program.code[i]? =
      (closeBranch c.program.code.length c₂).program.code[i]? := fun i hi => by
    rw [patches_patchX.all_code, if_neg, getElem?_of_begins hclosed (by rw [length_closeBranch]; omega)]
    intro hmem
    rcases List.mem_cons.mp hmem with rfl | hmem
    · exact lt_irrefl _ hi
    · exact absurd (hinside i hmem) (by omega)
  have hlast : (patchAll patchX (c₂.program.code.length :: positions) c').program.code.length = c'.program.code.length :=
    patches_patchX.all_length _ _
  have hlast' : (patchAll patchX positions c').program.code.length = c'.program.code.length := patches_patchX.all_length _ _
  have hold : ∀ i < c.program.code.length, (closeBranch c.program.code.length c₂).program.code[i]? = c.program.code[i]? :=
    fun i hi => by
      rw [code_closeBranch hi.ne' (by omega), getElem?_of_begins hstart (by simp; omega), List.getElem?_append_left hi]
  have hclasses : c.program.classes <+: c'.program.classes := by
    have hmore := h₂.part.classes
    rw [patches_patchX.all_classes] at hmore
    exact h₁.classes.trans hmore
  have hslots : Slots (Pattern.alt a b).labels c.program.slotCapture c'.program.slotCapture := by
    have hmore := h₂.part.slots
    rw [patches_patchX.all_slots] at hmore
    exact h₁.slots.append hmore
  refine ⟨?_, ?_, ?_, ?_, ?_, fun {P} hP => ?_⟩
  · refine begins_of_getElem? fun i hi => ?_
    rw [← hold i hi, getElem?_of_begins hclosed (by rw [length_closeBranch]; omega)]
  · intro j hj
    rcases List.mem_cons.mp hj with rfl | hj
    · omega
    · exact le_trans (by omega) (hinside j hj)
  · refine begins_of_getElem? fun i hi => ?_
    rw [hbefore i (by omega), hold i hi]
  · rwa [patches_patchX.all_classes]
  · rwa [patches_patchX.all_slots]
  have hP₁ : Shows P (patchX (emit .split 0 0 c).1 (emit .split 0 0 c).2).program c₂.program := by
    refine ⟨fun i hi hi' => ?_, ?_⟩
    · rw [code_split, List.length_append, List.length_singleton] at hi
      rw [hP.code i (by omega) (by omega), hbefore i hi', code_closeBranch (by omega) hi']
    · have hmore := h₂.part.classes
      have hshown := hP.classes
      rw [patches_patchX.all_classes] at hmore hshown
      exact hmore.trans hshown
  have hP₂ : Shows P (closeBranch c.program.code.length c₂).program (patchAll patchX positions c').program := by
    refine ⟨fun i hi hi' => ?_, ?_⟩
    · rw [length_closeBranch] at hi
      have hmem : i ∈ c₂.program.code.length :: positions ↔ i ∈ positions :=
        List.mem_cons.trans (or_iff_right (by omega))
      rw [hP.code i (by omega) (by omega), patches_patchX.all_code, patches_patchX.all_code]
      exact if_congr hmem rfl rfl
    · have hshown := hP.classes
      rwa [patches_patchX.all_classes] at hshown ⊢
  have hsplits : P.code[c.program.code.length]? =
      some ⟨.split, c.program.code.length + 1, c₂.program.code.length + 1⟩ := by
    rw [hP.code _ le_rfl (by omega), hbefore _ (by omega), split_closeBranch hsplit]
  have hjumps : P.code[c₂.program.code.length]? = some ⟨.jump, c'.program.code.length, 0⟩ := by
    rw [hP.code _ (by omega) (by omega), patches_patchX.all_code, if_pos List.mem_cons_self,
      getElem?_of_begins hclosed (by rw [length_closeBranch]; omega), jump_closeBranch (by omega)]
    rfl
  have hbranch := h₁.laid hP₁
  have hothers := h₂.part.laid hP₂
  rw [code_split, List.length_append, List.length_singleton] at hbranch
  rw [length_closeBranch, hlast'] at hothers
  rw [hlast]
  refine .branch ?_ hbranch ?_ hothers
  · rw [Program.instr_eq hsplits]
    rfl
  · rw [Program.instr_eq hjumps]
    rfl

/-- **A body, and those that may follow**, where all of it may be left out. -/
theorem Pending.optional {c₂ : Compiler}
    (h₁ : Part a (patchX (emit .split 0 0 c).1 (emit .split 0 0 c).2).program c₂.program)
    (h₂ : Pending patchY b positions c₂ c') :
    Pending patchY (.alt (.seq a b) .empty) (c.program.code.length :: positions) c c' := by
  have hstart := h₁.code
  rw [code_split] at hstart
  have hlen₁ := hstart.length_le
  rw [List.length_append, List.length_singleton] at hlen₁
  have hlen₂ := h₂.code.length_le
  have hlast : (patchAll patchY (c.program.code.length :: positions) c').program.code.length = c'.program.code.length :=
    patches_patchY.all_length _ _
  have hlast' : (patchAll patchY positions c').program.code.length = c'.program.code.length := patches_patchY.all_length _ _
  have hsplit : c'.program.code[c.program.code.length]? = some ⟨.split, c.program.code.length + 1, 0⟩ := by
    rw [getElem?_of_begins h₂.code (by omega), getElem?_of_begins hstart (by simp)]
    exact List.getElem?_concat_length
  -- the split is patched, what follows it is what is patched of the bodies that follow
  have hrest : ∀ i, i ≠ c.program.code.length → (patchAll patchY (c.program.code.length :: positions) c').program.code[i]? =
      (patchAll patchY positions c').program.code[i]? := fun i hi => by
    have hmem : i ∈ c.program.code.length :: positions ↔ i ∈ positions := List.mem_cons.trans (or_iff_right hi)
    rw [patches_patchY.all_code, patches_patchY.all_code]
    exact if_congr hmem rfl rfl
  have hkept : ∀ i < c₂.program.code.length, (patchAll patchY positions c').program.code[i]? = c₂.program.code[i]? :=
    fun i hi => getElem?_of_begins h₂.part.code hi
  have hclasses : c.program.classes <+: c'.program.classes := by
    have hmore := h₂.part.classes
    rw [patches_patchY.all_classes] at hmore
    exact h₁.classes.trans hmore
  have hslots : Slots (Pattern.alt (.seq a b) .empty).labels c.program.slotCapture c'.program.slotCapture := by
    have hmore := h₂.part.slots
    rw [patches_patchY.all_slots] at hmore
    exact (h₁.slots.append hmore).append (.nil _)
  refine ⟨?_, ?_, ?_, ?_, ?_, fun {P} hP => ?_⟩
  · exact (List.prefix_append _ _).trans (hstart.trans h₂.code)
  · intro j hj
    rcases List.mem_cons.mp hj with rfl | hj
    · exact le_rfl
    · exact le_trans (by omega) (h₂.inside j hj)
  · refine begins_of_getElem? fun i hi => ?_
    rw [hrest i hi.ne, hkept i (by omega), getElem?_of_begins hstart (by simp; omega), List.getElem?_append_left hi]
  · rwa [patches_patchY.all_classes]
  · rwa [patches_patchY.all_slots]
  have hP₂ : Shows P c₂.program (patchAll patchY positions c').program := by
    refine ⟨fun i hi hi' => ?_, ?_⟩
    · rw [hP.code i (by omega) (by omega), hrest i (by omega)]
    · have hshown := hP.classes
      rwa [patches_patchY.all_classes] at hshown ⊢
  have hP₁ : Shows P (patchX (emit .split 0 0 c).1 (emit .split 0 0 c).2).program c₂.program := by
    refine ⟨fun i hi hi' => ?_, h₂.part.classes.trans hP₂.classes⟩
    rw [code_split, List.length_append, List.length_singleton] at hi
    rw [hP.code i (by omega) (by omega), hrest i (by omega), hkept i hi']
  have hsplits : P.code[c.program.code.length]? = some ⟨.split, c.program.code.length + 1, c'.program.code.length⟩ := by
    rw [hP.code _ le_rfl (by omega), patches_patchY.all_code, if_pos List.mem_cons_self, hsplit]
    rfl
  have hbody := h₁.laid hP₁
  have hothers := h₂.part.laid hP₂
  rw [code_split, List.length_append, List.length_singleton] at hbody
  rw [hlast'] at hothers
  rw [hlast]
  refine .optional ?_ (.seq hbody hothers)
  rw [Program.instr_eq hsplits]
  rfl

/-- **A body that is led back to its start.** -/
theorem Part.loop {c₂ : Compiler}
    (h : Part a (patchX (emit .split 0 0 c).1 (emit .split 0 0 c).2).program c₂.program) :
    Part (.rep 0 none a) c.program (patchY c.program.code.length (emit .jump c.program.code.length 0 c₂).2).program := by
  have hstart := h.code
  rw [code_split] at hstart
  have hlen := hstart.length_le
  rw [List.length_append, List.length_singleton] at hlen
  have hlast : (patchY c.program.code.length (emit .jump c.program.code.length 0 c₂).2).program.code.length =
      c₂.program.code.length + 1 := by
    simp [patchY, emit]
  have hsplit : (patchY c.program.code.length (emit .jump c.program.code.length 0 c₂).2).program.code[c.program.code.length]? =
      some ⟨.split, c.program.code.length + 1, c₂.program.code.length + 1⟩ := by
    have hwritten : c₂.program.code[c.program.code.length]? = some ⟨.split, c.program.code.length + 1, 0⟩ := by
      rw [getElem?_of_begins hstart (by simp)]
      exact List.getElem?_concat_length
    simp [patchY, emit, List.getElem?_append_left (show c.program.code.length < c₂.program.code.length by omega), hwritten]
  have hjump : (patchY c.program.code.length (emit .jump c.program.code.length 0 c₂).2).program.code[c₂.program.code.length]? =
      some ⟨.jump, c.program.code.length, 0⟩ := by
    simp [patchY, emit, (show c.program.code.length ≠ c₂.program.code.length by omega)]
  have hkept : ∀ i, i ≠ c.program.code.length → i < c₂.program.code.length →
      (patchY c.program.code.length (emit .jump c.program.code.length 0 c₂).2).program.code[i]? = c₂.program.code[i]? :=
    fun i hi hi' => by simp [patchY, emit, hi.symm, List.getElem?_append_left hi']
  refine ⟨?_, h.classes, h.slots, fun {P} hP => ?_⟩
  · refine begins_of_getElem? fun i hi => ?_
    rw [hkept i hi.ne (by omega), getElem?_of_begins hstart (by simp; omega), List.getElem?_append_left hi]
  have hP₁ : Shows P (patchX (emit .split 0 0 c).1 (emit .split 0 0 c).2).program c₂.program := by
    refine ⟨fun i hi hi' => ?_, hP.classes⟩
    rw [code_split, List.length_append, List.length_singleton] at hi
    rw [hP.code i (by omega) (by omega), hkept i (by omega) hi']
  have hbody := h.laid hP₁
  rw [code_split, List.length_append, List.length_singleton] at hbody
  rw [hlast]
  refine .loop ?_ hbody ?_
  · rw [Program.instr_eq ((hP.code _ le_rfl (by omega)).trans hsplit)]
    rfl
  · rw [Program.instr_eq ((hP.code _ (by omega) (by omega)).trans hjump)]
    rfl

/-! ### Classes -/

variable {g : Grammar} {i k : ℕ}

theorem mem_language_letter {c x : Octet} (hkind : (g.node i).kind = .literal) (htext : g.literal (g.node i).literal = [c]) :
    [x] ∈ g.language i ↔ foldOctet x = foldOctet c := by
  rw [Grammar.mem_language_literal hkind, htext]
  simp [asciiFold]

/-- The bits that were added for some nodes are those of the octets derived from them, and the nodes have patterns. -/
structure Adds (g : Grammar) (k : ℕ) (children : List ℕ) (bits bits' : Finset ℤ) : Prop where
  bits : ∀ x : Octet, (x.toNat : ℤ) ∈ bits' ↔ (x.toNat : ℤ) ∈ bits ∨ ∃ child ∈ children, [x] ∈ g.language child
  patterns : ∃ as, Grammar.patterns (g.pattern k) children = some as

/-- **A class has the bits of what is derived from its node**, which has a pattern. -/
theorem adds_buildClass {bits : Finset ℤ} {built : Bool × Finset ℤ} (h : buildClass g k i bits = some built) (hbuilt : built.1 = true) :
    (∀ x : Octet, (x.toNat : ℤ) ∈ built.2 ↔ (x.toNat : ℤ) ∈ bits ∨ [x] ∈ g.language i) ∧ ∃ a, g.pattern k i = some a := by
  induction k generalizing i bits built with
  | zero => cases h
  | succ k ih =>
    rw [buildClass] at h
    simp only [Grammar.pattern]
    rcases hkind : (g.node i).kind <;> simp only [hkind] at h ⊢
    case reference =>
      split_ifs at h with hroot
      · obtain rfl := Option.some.inj h
        cases hbuilt
      · obtain ⟨hbits, a, ha⟩ := ih h hbuilt
        rw [Grammar.language_reference hkind hroot, if_neg hroot, ha]
        exact ⟨hbits, _, rfl⟩
    case literal =>
      refine ⟨fun x => ?_, _, rfl⟩
      split at h
      · next c htext =>
        obtain rfl := Option.some.inj h
        rw [mem_language_letter hkind htext, Finset.mem_insert, Finset.mem_union, mem_caseBits, Nat.cast_inj, UInt8.toNat_inj]
        constructor
        · rintro (rfl | hx | hx)
          · exact .inr rfl
          · exact .inl hx
          · exact .inr hx
        · rintro (hx | hx)
          · exact .inr (.inl hx)
          · exact .inr (.inr hx)
      · obtain rfl := Option.some.inj h
        cases hbuilt
    case octetRange =>
      obtain rfl := Option.some.inj h
      refine ⟨fun x => ?_, _, rfl⟩
      rw [Finset.mem_union, mem_rangeBits, Grammar.mem_language_octetRange hkind]
      simp
    case alternation =>
      obtain ⟨found, hfound, rfl⟩ := Option.map_eq_some_iff.mp h
      have hloop : ∀ (children : List ℕ) (bits : Finset ℤ), firstOf (fun c bits => (buildClass g k c bits).map fun r => (!r.1, r.2))
          (fun r => r.1) children bits = some found → Adds g k children bits found.2 := by
        intro children
        induction children with
        | nil =>
          intro bits hrun
          obtain rfl := Option.some.inj hrun
          exact ⟨by simp, [], rfl⟩
        | cons child children ihc =>
          intro bits hrun
          obtain ⟨first, hfirst, hrun⟩ := Option.bind_eq_some_iff.mp hrun
          obtain ⟨one, hone, rfl⟩ := Option.map_eq_some_iff.mp hfirst
          cases hyes : one.1 with
          | false =>
            -- the loop has ended with no
            rw [hyes] at hrun
            obtain rfl := Option.some.inj hrun
            cases hbuilt
          | true =>
            rw [hyes] at hrun
            obtain ⟨hbits, as, has⟩ := ihc _ hrun
            obtain ⟨hchild, a, ha⟩ := ih hone hyes
            refine ⟨fun x => ?_, a :: as, ?_⟩
            · rw [hbits x, hchild x, List.exists_mem_cons_iff, or_assoc]
            · rw [Grammar.patterns, ha, Option.bind_some, has, Option.map_some]
      obtain ⟨hbits, as, has⟩ := hloop _ _ hfound
      refine ⟨fun x => ?_, _, by rw [has, Option.map_some]⟩
      rw [Grammar.mem_language_alternation hkind]
      exact hbits x
    case sequence =>
      obtain rfl := Option.some.inj h
      cases hbuilt
    case repetition =>
      obtain rfl := Option.some.inj h
      cases hbuilt

/-! ### Nodes -/

/-- What is remembered of single octets is right. -/
def Right (g : Grammar) (c : Compiler) : Prop := g.MemoRight (fun _ => False) c.octetMemo

theorem Right.same (h : Right g c) (hmemo : c'.octetMemo = c.octetMemo) : Right g c' := by
  rw [Right, hmemo]
  exact h

theorem Right.split (h : Right g c) : Right g (patchX (emit .split 0 0 c).1 (emit .split 0 0 c).2) := h

theorem Right.closeBranch (h : Right g c) (split : ℕ) : Right g (closeBranch split c) := h

/-- **What a node may be written out as.** -/
def Written (g : Grammar) (k i : ℕ) (q : Pattern (Finset ℤ) (ℤ × ℕ)) : Prop :=
  ∃ a, g.pattern k i = some a ∧ a.Unrolls inBits Prod.fst q

/-- **A literal takes its text**, in upper or lower case. -/
theorem part_emitLiteral (text : Str) (c : Compiler) :
    Part (Grammar.word text) c.program (emitLiteral text c).program ∧ (emitLiteral text c).octetMemo = c.octetMemo := by
  induction text generalizing c with
  | nil => exact ⟨.nil _, rfl⟩
  | cons octet text ih =>
    obtain ⟨hrest, hmemo⟩ := ih (emitClass (caseBits octet) c)
    have hfirst := part_emitClass (caseBits octet) c
    refine ⟨?_, hmemo.trans (same_addClass _ _).2.2⟩
    rcases text with _ | ⟨d, text⟩
    · exact hfirst
    · exact hfirst.append hrest

theorem unrolls_word (text : Str) :
    (Grammar.word text : Pattern (Finset ℤ) ℤ).Unrolls inBits Prod.fst (Grammar.word text : Pattern (Finset ℤ) (ℤ × ℕ)) := by
  induction text with
  | nil => exact .empty
  | cons c text ih =>
    rcases text with _ | ⟨d, text⟩
    · exact .symbol _
    · exact .seq (.symbol _) ih

section Loops

variable {asks : ℕ → Option Bool}

/-- What is emitted one after the other. -/
theorem part_emitAll {α : Type} {step : α → Compiler → Option (Except Str Compiler)} {R : α → Pattern (Finset ℤ) (ℤ × ℕ) → Prop}
    {as : List α} (hstep : ∀ a c c', Right g c → step a c = some (.ok c') → Right g c' ∧ ∃ q, R a q ∧ Part q c.program c'.program)
    (hc : Right g c) (h : emitAll step as c = some (.ok c')) :
    Right g c' ∧ ∃ qs, List.Forall₂ R as qs ∧ Part (Pattern.seqs qs) c.program c'.program := by
  induction as generalizing c with
  | nil =>
    obtain rfl := Except.ok.inj (Option.some.inj h)
    exact ⟨hc, [], .nil, .nil _⟩
  | cons a as ih =>
    obtain ⟨c₁, ha, hrest⟩ := andThen_eq_ok.mp h
    obtain ⟨hc₁, q, hq, hpart⟩ := hstep a c c₁ hc ha
    obtain ⟨hc', qs, hqs, hparts⟩ := ih hc₁ hrest
    exact ⟨hc', q :: qs, .cons hq hqs, hpart.append hparts⟩

variable {step : ℕ → Compiler → Option (Except Str Compiler)} {R : Pattern (Finset ℤ) (ℤ × ℕ) → Prop}

/-- The optional part of a repetition. -/
theorem pending_emitOptionals {child times : ℕ}
    (hstep : ∀ c c', Right g c → step child c = some (.ok c') → Right g c' ∧ ∃ q, R q ∧ Part q c.program c'.program)
    (hc : Right g c) {s : List ℕ × Compiler} (h : emitOptionals step child times c = some (.ok s)) :
    Right g s.2 ∧ ∃ qs, qs.length = times ∧ (∀ q ∈ qs, R q) ∧ Pending patchY (Pattern.optionals qs) s.1 c s.2 := by
  induction times generalizing c s with
  | zero =>
    obtain rfl := Except.ok.inj (Option.some.inj h)
    exact ⟨hc, [], rfl, fun q hq => absurd hq List.not_mem_nil, .of_part (.nil _)⟩
  | succ times ih =>
    rw [emitOptionals, Option.bind_eq_some_iff] at h
    obtain ⟨_ | c₁, hbody, h⟩ := h
    · cases h
    obtain ⟨_ | s₁, hrest, h⟩ := Option.map_eq_some_iff.mp h
    · cases h
    obtain rfl := Except.ok.inj h
    obtain ⟨hc₁, q, hq, hpart⟩ := hstep _ c₁ hc.split hbody
    obtain ⟨hs, qs, hlen, hqs, hpending⟩ := ih hc₁ hrest
    exact ⟨hs, q :: qs, by rw [List.length_cons, hlen], List.forall_mem_cons.mpr ⟨hq, hqs⟩, .optional hpart hpending⟩

/-- The branches of an alternation that has some. -/
theorem pending_emitBranches {R : ℕ → Pattern (Finset ℤ) (ℤ × ℕ) → Prop} {children : List ℕ} (hsome : children ≠ [])
    (hstep : ∀ child c c', Right g c → step child c = some (.ok c') → Right g c' ∧ ∃ q, R child q ∧ Part q c.program c'.program)
    (hc : Right g c) {s : List ℕ × Compiler} (h : emitBranches step children c = some (.ok s)) :
    Right g s.2 ∧ ∃ qs, List.Forall₂ R children qs ∧ Pending patchX (Pattern.alts qs) s.1 c s.2 := by
  induction children generalizing c s with
  | nil => exact absurd rfl hsome
  | cons child rest ih =>
    rcases rest with _ | ⟨next, rest⟩
    · obtain ⟨_ | c₁, hbody, h⟩ := Option.map_eq_some_iff.mp h
      · cases h
      obtain rfl := Except.ok.inj h
      obtain ⟨hc₁, q, hq, hpart⟩ := hstep child c c₁ hc hbody
      exact ⟨hc₁, [q], .cons hq .nil, .of_part hpart⟩
    · obtain ⟨_ | c₁, hbody, h⟩ := Option.bind_eq_some_iff.mp h
      · cases h
      obtain ⟨_ | s₁, hrest, h⟩ := Option.map_eq_some_iff.mp h
      · cases h
      obtain rfl := Except.ok.inj h
      obtain ⟨hc₁, q, hq, hpart⟩ := hstep child _ c₁ hc.split hbody
      obtain ⟨hs, qs, hqs, hpending⟩ := ih (List.cons_ne_nil _ _) (hc₁.closeBranch _) hrest
      refine ⟨hs, q :: qs, .cons hq hqs, ?_⟩
      cases hqs with
      | cons _ _ => exact .branch hpart hpending

/-- What may follow the bodies that must be there: a loop of what captures nothing, or so many bodies more. -/
def More (R : Pattern (Finset ℤ) (ℤ × ℕ) → Prop) (asked : Option Bool) (hi least : ℤ) (c c' : Compiler) : Prop :=
  if hi = kUnbounded then asked = some false ∧ ∃ q, R q ∧ Part (.rep 0 none q) c.program c'.program
  else least ≤ hi ∧ ∃ qs, qs.length = (hi - least).toNat ∧ (∀ q ∈ qs, R q) ∧ Part (Pattern.optionals qs) c.program c'.program

theorem part_emitRest {n : GrammarNode} {least : ℤ}
    (hstep : ∀ c c', Right g c → step (g.child n.first) c = some (.ok c') → Right g c' ∧ ∃ q, R q ∧ Part q c.program c'.program)
    (hc : Right g c) (h : emitRest g step asks n least c = some (.ok c')) :
    Right g c' ∧ More R (asks (g.child n.first)) n.hi least c c' := by
  rw [emitRest] at h
  dsimp only at h
  rw [More]
  split_ifs at h ⊢ with hun hback hmany
  · obtain ⟨captures, hasked, h⟩ := Option.bind_eq_some_iff.mp h
    cases captures with
    | true => cases h
    | false =>
      obtain ⟨c₁, hbody, h⟩ := andThen_eq_ok.mp h
      obtain rfl := Except.ok.inj (Option.some.inj h)
      obtain ⟨hc₁, q, hq, hpart⟩ := hstep _ c₁ hc.split hbody
      exact ⟨hc₁.same rfl, hasked, q, hq, .loop hpart⟩
  · cases h
  · cases h
  · obtain ⟨_ | s, hoptional, h⟩ := Option.map_eq_some_iff.mp h
    · cases h
    obtain rfl := Except.ok.inj h
    obtain ⟨hs, qs, hlen, hqs, hpending⟩ := pending_emitOptionals hstep hc hoptional
    exact ⟨hs.same (patches_patchY.all_memo _ _), by omega, qs, hlen, hqs, hpending.part⟩

/-- What is written out of a node is of one pattern. -/
theorem Written.unrolls {child : ℕ} {q : Pattern (Finset ℤ) (ℤ × ℕ)} {a : Pattern (Finset ℤ) ℤ} (h : Written g k child q)
    (ha : g.pattern k child = some a) : a.Unrolls inBits Prod.fst q := by
  obtain ⟨b, hb, hunrolls⟩ := h
  obtain rfl := Option.some.inj (ha.symm.trans hb)
  exact hunrolls

theorem forall_of_forall₂ {α β : Type} {R : β → Prop} {as : List α} {bs : List β} (h : List.Forall₂ (fun _ b => R b) as bs) :
    ∀ b ∈ bs, R b := by
  induction h with
  | nil => simp
  | cons hb _ ih => exact List.forall_mem_cons.mpr ⟨hb, ih⟩

/-- Where a node is emitted with less fuel, it is written out. -/
def Emits (g : Grammar) (k : ℕ) : Prop :=
  ∀ i c c', Right g c → emitNode g k i c = some (.ok c') → Right g c' ∧ ∃ q, Written g k i q ∧ Part q c.program c'.program

/-- **A repetition is written out**: the bodies that must be there, and what may follow. -/
theorem part_emitRepetition (hg : g.Ordered) (hk : Emits g k) (hkind : (g.node i).kind = .repetition) (hc : Right g c)
    (h : emitRepetition g (emitNode g k) (hasCapture g k) (g.node i) c = some (.ok c')) :
    Right g c' ∧ ∃ q, Written g (k + 1) i q ∧ Part q c.program c'.program := by
  obtain ⟨c₁, hbodies, h⟩ := andThen_eq_ok.mp (emitRepetition_eq ▸ h)
  obtain ⟨hc₁, ps, hps, hmust⟩ := part_emitAll (fun _ : ℕ => hk (g.child (g.node i).first)) hc hbodies
  obtain ⟨hc', hmore⟩ := part_emitRest (hk (g.child (g.node i).first)) hc₁ h
  have hlen := hps.length_eq
  have hwritten := forall_of_forall₂ hps
  have hleast : (if (g.node i).lo < 0 then 0 else (g.node i).lo).toNat = (g.node i).lo.toNat := by
    split_ifs <;> omega
  rw [List.length_range, hleast] at hlen
  refine ⟨hc', ?_⟩
  simp only [Written, Grammar.pattern, hkind]
  rw [More] at hmore
  by_cases hun : (g.node i).hi = kUnbounded
  · rw [if_pos hun] at hmore
    obtain ⟨hasked, q, hq, hloop⟩ := hmore
    obtain ⟨a, ha, hunrolls⟩ := id hq
    have hlabels : a.labels = [] := Grammar.Shape.labels_nil hg ⟨k, ha⟩ ⟨k, hasked⟩
    have hnone : ¬ ((g.node i).lo ≤ 0 ∧ kUnbounded = 0) := fun h => absurd h.2 (by decide)
    refine ⟨_, ⟨_, ?_, .unlimited hlabels hlen.symm (fun p hp => (hwritten p hp).unrolls ha) hunrolls⟩, hmust.append hloop⟩
    rw [hun, if_neg (lt_irrefl _), if_neg hnone, ha, if_pos rfl]
    rfl
  · rw [if_neg hun] at hmore
    obtain ⟨hle, qs, hqlen, hqs, hmay⟩ := hmore
    have hhi : 0 ≤ (g.node i).hi := le_trans (by split_ifs <;> omega) hle
    have hlow : ¬ (g.node i).hi < kUnbounded := by
      rw [kUnbounded]
      omega
    have hqlen' : qs.length = (g.node i).hi.toNat - (g.node i).lo.toNat := by
      rw [hqlen]
      split_ifs at hle ⊢ <;> omega
    have hbounds : (g.node i).lo.toNat ≤ (g.node i).hi.toNat := by
      split_ifs at hle <;> omega
    rw [if_neg hlow]
    by_cases hnone : (g.node i).lo ≤ 0 ∧ (g.node i).hi = 0
    · -- no body is written out at all
      have hps₀ : ps = [] := List.length_eq_zero_iff.mp (by omega)
      have hqs₀ : qs = [] := List.length_eq_zero_iff.mp (by omega)
      subst hps₀ hqs₀
      rw [if_pos hnone]
      exact ⟨_, ⟨_, rfl, .empty⟩, hmust.of_empty hmay⟩
    · obtain ⟨q, hq⟩ : ∃ q, q ∈ ps ∨ q ∈ qs := by
        by_cases hps₀ : ps = []
        · obtain ⟨q, hq⟩ := List.exists_mem_of_length_pos (l := qs) (by
            rw [hps₀, List.length_nil] at hlen
            omega)
          exact ⟨q, .inr hq⟩
        · obtain ⟨q, hq⟩ := List.exists_mem_of_ne_nil ps hps₀
          exact ⟨q, .inl hq⟩
      obtain ⟨a, ha, -⟩ := hq.elim (hwritten q) (hqs q)
      rw [if_neg hnone, ha, if_neg hun]
      exact ⟨_, ⟨_, rfl, .bounded hbounds hlen.symm hqlen' (fun p hp => (hwritten p hp).unrolls ha)
        fun q hq => (hqs q hq).unrolls ha⟩, hmust.append hmay⟩

/-- The patterns of several nodes that are written out. -/
theorem patterns_of_written {children : List ℕ} {qs : List (Pattern (Finset ℤ) (ℤ × ℕ))} (h : List.Forall₂ (Written g k) children qs) :
    ∃ as, Grammar.patterns (g.pattern k) children = some as ∧ List.Forall₂ (Pattern.Unrolls inBits Prod.fst) as qs := by
  induction h with
  | nil => exact ⟨[], rfl, .nil⟩
  | cons hq _ ih =>
    obtain ⟨a, ha, hunrolls⟩ := hq
    obtain ⟨as, has, hall⟩ := ih
    exact ⟨a :: as, by rw [Grammar.patterns, ha, Option.bind_some, has, Option.map_some], .cons hunrolls hall⟩

theorem unrolls_seqs {as : List (Pattern (Finset ℤ) ℤ)} {qs : List (Pattern (Finset ℤ) (ℤ × ℕ))}
    (h : List.Forall₂ (Pattern.Unrolls inBits Prod.fst) as qs) : (Pattern.seqs as).Unrolls inBits Prod.fst (Pattern.seqs qs) := by
  induction h with
  | nil => exact .empty
  | cons hq _ ih => exact .seq hq ih

theorem unrolls_alts {as : List (Pattern (Finset ℤ) ℤ)} {qs : List (Pattern (Finset ℤ) (ℤ × ℕ))} (hsome : as ≠ [])
    (h : List.Forall₂ (Pattern.Unrolls inBits Prod.fst) as qs) : (Pattern.alts as).Unrolls inBits Prod.fst (Pattern.alts qs) := by
  induction h with
  | nil => exact absurd rfl hsome
  | cons hq hrest ih =>
    cases hrest with
    | nil => exact hq
    | cons hq' hrest => exact .alt hq (ih (List.cons_ne_nil _ _))

/-- The cases of a node. -/
theorem part_emitCases (hg : g.Ordered) (hbranched : (g.node i).Branched) (hk : Emits g k) (hc : Right g c)
    (h : emitCases g (emitNode g k) (hasCapture g k) i c = some (.ok c')) :
    Right g c' ∧ ∃ q, Written g (k + 1) i q ∧ Part q c.program c'.program := by
  rw [emitCases] at h
  rcases hkind : (g.node i).kind <;> simp only [hkind] at h
  case reference =>
    simp only [Written, Grammar.pattern, hkind]
    split_ifs at h with hroot hbusy hcapture
    · cases h
    · cases h
    · obtain ⟨c₂, hbody, h⟩ := andThen_eq_ok.mp h
      obtain rfl := Except.ok.inj (Option.some.inj h)
      obtain ⟨hc₂, q, ⟨a, ha, hunrolls⟩, hpart⟩ := hk _ _ _ (hc.same rfl : Right g (enter _ c)) hbody
      refine ⟨hc₂.same rfl, q, ⟨a, ?_, hunrolls⟩, hpart⟩
      rw [if_neg hroot, ha, Option.map_some, if_pos hcapture]
    · obtain ⟨c₂, hbody, h⟩ := andThen_eq_ok.mp h
      obtain rfl := Except.ok.inj (Option.some.inj h)
      obtain ⟨hc₂, q, ⟨a, ha, hunrolls⟩, hpart⟩ := hk _ _ _ (hc.same rfl : Right g (enter _ (openSlot _ c))) hbody
      have hcaptured : Part (.capture ((g.node i).capture, c.program.slotCapture.length) q) c.program
          (closeSlot c.program.slotCapture.length (leave (g.node i).lo c₂)).program := Part.capture hpart
      refine ⟨hc₂.same rfl, _, ⟨_, ?_, .capture hunrolls⟩, hcaptured⟩
      rw [if_neg hroot, ha, Option.map_some, if_neg hcapture]
  case literal =>
    obtain rfl := Except.ok.inj (Option.some.inj h)
    obtain ⟨hpart, hmemo⟩ := part_emitLiteral (g.literal (g.node i).literal) c
    refine ⟨hc.same hmemo, _, ⟨_, ?_, unrolls_word _⟩, hpart⟩
    simp only [Grammar.pattern, hkind]
  case octetRange =>
    obtain rfl := Except.ok.inj (Option.some.inj h)
    refine ⟨hc.same (same_addClass _ _).2.2, _, ⟨_, ?_, .symbol _⟩, part_emitClass _ c⟩
    simp only [Grammar.pattern, hkind]
  case sequence =>
    obtain ⟨hc', qs, hqs, hpart⟩ := part_emitAll hk hc h
    obtain ⟨as, has, hunrolls⟩ := patterns_of_written hqs
    refine ⟨hc', _, ⟨_, ?_, unrolls_seqs hunrolls⟩, hpart⟩
    simp only [Grammar.pattern, hkind, has, Option.map_some]
  case alternation =>
    obtain ⟨_ | s, hbranches, h⟩ := Option.map_eq_some_iff.mp h
    · cases h
    obtain rfl := Except.ok.inj h
    have hlen : (g.childrenOf (g.node i)).length ≠ 0 := by
      rw [Grammar.childrenOf, List.length_map, List.length_range]
      exact (hbranched hkind).ne'
    obtain ⟨hs, qs, hqs, hpending⟩ := pending_emitBranches (fun hnil => hlen (by rw [hnil, List.length_nil])) hk hc hbranches
    obtain ⟨as, has, hunrolls⟩ := patterns_of_written hqs
    refine ⟨hs.same (patches_patchX.all_memo _ _), _, ⟨_, ?_, unrolls_alts ?_ hunrolls⟩, hpending.part⟩
    · simp only [Grammar.pattern, hkind, has, Option.map_some]
    · rintro rfl
      rw [hqs.length_eq, ← hunrolls.length_eq] at hlen
      exact hlen rfl
  case repetition => exact part_emitRepetition hg hk hkind hc h

end Loops

/-- **A node is written out as its pattern.** -/
theorem part_emitNode (hg : g.Accepted) (hbranched : g.Branched) (k : ℕ) : Emits g k := by
  induction k with
  | zero =>
    intro i c c' _ h
    cases h
  | succ k ih =>
    intro i c c' hc h
    rw [emitNode, Option.bind_eq_some_iff] at h
    obtain ⟨single, hsingle, h⟩ := h
    obtain ⟨hright, hmemo⟩ := Grammar.isSingleOctet_spec (hg.acc_left i) not_false (fun _ _ => not_false) hc hsingle
    dsimp only at h
    have hsame : Right g { c with octetMemo := single.2 } := hmemo
    have hcases : emitCases g (emitNode g k) (hasCapture g k) i { c with octetMemo := single.2 } = some (.ok c') →
        Right g c' ∧ ∃ q, Written g (k + 1) i q ∧ Part q c.program c'.program := by
      intro h
      obtain ⟨hc', q, hq, hpart⟩ := part_emitCases hg.ordered (hbranched.node i) ih hsame h
      exact ⟨hc', q, hq, hpart⟩
    split_ifs at h with hyes
    · obtain ⟨built, hbuilt, h⟩ := Option.bind_eq_some_iff.mp h
      split_ifs at h with hclass
      · obtain rfl := Except.ok.inj (Option.some.inj h)
        obtain ⟨hbits, a, ha⟩ := adds_buildClass hbuilt hclass
        have hsymbol := hright.mp hyes
        have hshape : g.Shape i a := ⟨k, ha⟩
        refine ⟨hsame.same (same_addClass _ _).2.2, .symbol built.2, ⟨a, (g.steady_pattern i).eq_some ha (Nat.le_succ k), ?_⟩, ?_⟩
        · refine .choice (hshape.isSymbol hsymbol) fun x => Bool.eq_iff_iff.mpr ?_
          have htaken : [x] ∈ a.language inBits ↔ a.accepts inBits x = true := by
            rw [Pattern.mem_language_of_isSymbol (hshape.isSymbol hsymbol)]
            simp
          rw [← htaken, hshape.language_eq, inBits, decide_eq_true_eq, hbits x]
          simp
        · have hpart := part_emitClass built.2 { c with octetMemo := single.2 }
          exact hpart
      · exact hcases h
    · exact hcases h

/-- **A program is the pattern of its rule laid out**, and ends behind it. -/
theorem laid_compile {rule : ℤ} {p : Program} (hg : g.Accepted) (hbranched : g.Branched) (h : compile g k rule = some (.ok p)) :
    ∃ a q last, g.Shape (g.ruleRoot rule).toNat a ∧ a.Unrolls inBits Prod.fst q ∧ Slots q.labels [] p.slotCapture ∧
      Machine.Laid p.instr inBits Prod.snd q 0 last ∧ p.instr last = .accept ∧ p.code.length = last + 1 := by
  rw [compile] at h
  split_ifs at h
  · cases h
  obtain ⟨_ | c, hemit, h⟩ := Option.map_eq_some_iff.mp h
  · cases h
  obtain rfl := Except.ok.inj h
  have hnew : Right g {} := fun i known hlookup => absurd hlookup (by simp)
  obtain ⟨-, q, ⟨a, ha, hunrolls⟩, hpart⟩ := part_emitNode hg hbranched k _ _ _ hnew hemit
  refine ⟨a, q, c.program.code.length, ⟨k, ha⟩, hunrolls, hpart.slots, ?_, ?_, ?_⟩
  · exact hpart.laid ⟨fun i _ hi => getElem?_of_begins (List.prefix_append _ _) hi, List.prefix_rfl⟩
  · have hlast : (emit .accept 0 0 c).2.program.code[c.program.code.length]? = some ⟨.accept, 0, 0⟩ := List.getElem?_concat_length
    rw [Program.instr_eq hlast]
    rfl
  · exact List.length_append

/-- **A program accepts what is derived from its rule.** -/
theorem search_compile {rule : ℤ} {p : Program} (hg : g.Accepted) (hbranched : g.Branched) (h : compile g k rule = some (.ok p))
    {line : Str} : (Machine.search p.instr p.code.length line).isSome = true ↔ line ∈ g.language (g.ruleRoot rule).toNat := by
  obtain ⟨a, q, last, hshape, hunrolls, -, hlaid, hend, -⟩ := laid_compile hg hbranched h
  rw [hlaid.search_isSome_iff hend (Program.within_instr p), hunrolls.language_eq, hshape.language_eq]

end ProgramCompiler

end Abnf

end FtIrc
