import FtIrc.Server.Listing
import FtIrc.Server.Resending

/-!
# Mode lines, read back

The lines `renderModeLines` writes for a list of changes are read as `MODE` lines are: behind
the head stands a mode string, signs with letters behind each (`FtIrc.IsModeString`), and
behind that, separated by spaces, the parameters. **Nothing is lost**
(`FtIrc.renderModeLines_lossless`): the letters read off all lines are the changes in their
order, every line has the parameters of its own letters, and a line is longer than the wire
allows only if it carries a single change.
-/

namespace FtIrc

variable {head line w : Str} {cs group : List ModeChange} {b : Bool}

/-- **A mode string**: signs, each with letters behind it. -/
def IsModeString (w : Str) : Prop :=
  ∃ blocks : List (Octet × Str), blocks ≠ [] ∧
    (∀ b ∈ blocks, (b.1 = 43 ∨ b.1 = 45) ∧ b.2 ≠ [] ∧ ∀ c ∈ b.2, isAlphaOctet c = true) ∧
      w = blocks.flatMap fun b => b.1 :: b.2

/-- What is read off a line behind its head: the letters with their signs, and the parameters. -/
def readLine (head line : Str) : List (Bool × Octet) × List Str :=
  let ws := words (line.drop head.length)
  (modeLetters true (ws.headD []), ws.tail)

/-- **A line carries some changes.** -/
structure CarriesModes (head line : Str) (group : List ModeChange) : Prop where
  begins : head <+: line
  modes : IsModeString ((words (line.drop head.length)).headD [])
  read : readLine head line = (group.map fun mc => (mc.adding, mc.letter), written group)
  short : line.length ≤ MAX_MSGLEN - 2 ∨ group.length = 1

/-- Behind a sign there are letters, and then more signs with letters. -/
theorem modesOf_blocks (hletters : ∀ mc ∈ cs, isAlphaOctet mc.letter = true) (b : Bool) :
    ∃ (letters : Str) (blocks : List (Octet × Str)), (∀ c ∈ letters, isAlphaOctet c = true) ∧
      (∀ b ∈ blocks, (b.1 = 43 ∨ b.1 = 45) ∧ b.2 ≠ [] ∧ ∀ c ∈ b.2, isAlphaOctet c = true) ∧
        modesOf (some b) cs = letters ++ blocks.flatMap fun b => b.1 :: b.2 := by
  induction cs generalizing b with
  | nil => exact ⟨[], [], by simp, by simp, rfl⟩
  | cons mc cs ih =>
    obtain ⟨letters, blocks, hpre, hblocks, htext⟩ :=
      ih (fun mc hmc => hletters mc (List.mem_cons_of_mem _ hmc)) mc.adding
    have hone := hletters mc List.mem_cons_self
    have hmore : ∀ c ∈ mc.letter :: letters, isAlphaOctet c = true := List.forall_mem_cons.mpr ⟨hone, hpre⟩
    rw [modesOf, htext]
    by_cases hsame : some b = some mc.adding
    · rw [if_neg (not_not.mpr hsame), List.nil_append]
      exact ⟨mc.letter :: letters, blocks, hmore, hblocks, rfl⟩
    · rw [if_pos hsame]
      rcases mc.adding
      · exact ⟨[], (45, mc.letter :: letters) :: blocks, by simp,
          List.forall_mem_cons.mpr ⟨⟨Or.inr rfl, by simp, hmore⟩, hblocks⟩, rfl⟩
      · exact ⟨[], (43, mc.letter :: letters) :: blocks, by simp,
          List.forall_mem_cons.mpr ⟨⟨Or.inl rfl, by simp, hmore⟩, hblocks⟩, rfl⟩

/-- **The letters of a group** make a mode string. -/
theorem isModeString_modesOf (hletters : ∀ mc ∈ cs, isAlphaOctet mc.letter = true) (hne : cs ≠ []) :
    IsModeString (modesOf none cs) := by
  obtain ⟨mc, cs, rfl⟩ := List.exists_cons_of_ne_nil hne
  obtain ⟨hone, hrest⟩ := List.forall_mem_cons.mp hletters
  obtain ⟨letters, blocks, hpre, hblocks, htext⟩ := modesOf_blocks hrest mc.adding
  have hmore : ∀ c ∈ mc.letter :: letters, isAlphaOctet c = true := List.forall_mem_cons.mpr ⟨hone, hpre⟩
  rw [modesOf, htext, if_pos (by simp)]
  rcases mc.adding
  · exact ⟨(45, mc.letter :: letters) :: blocks, by simp,
      List.forall_mem_cons.mpr ⟨⟨Or.inr rfl, by simp, hmore⟩, hblocks⟩, rfl⟩
  · exact ⟨(43, mc.letter :: letters) :: blocks, by simp,
      List.forall_mem_cons.mpr ⟨⟨Or.inl rfl, by simp, hmore⟩, hblocks⟩, rfl⟩

/-- A mode string is a word. -/
theorem IsModeString.isWord (h : IsModeString w) : IsWord w := by
  obtain ⟨blocks, -, hblocks, rfl⟩ := h
  intro c hc hspace
  obtain ⟨b, hb, hc⟩ := List.mem_flatMap.mp hc
  obtain ⟨hsign, -, hletters⟩ := hblocks b hb
  subst hspace
  rcases List.mem_cons.mp hc with hc | hc
  · rcases hsign with h | h <;> exact absurd (hc.trans h) (by decide)
  · exact absurd (hletters _ hc) (by decide)

/-- **The line of a group carries it.** -/
theorem carries_groupText (hletters : ∀ mc ∈ group, isAlphaOctet mc.letter = true)
    (hparams : ∀ mc ∈ group, SPACE ∉ mc.param)
    (hshort : group.length = 1 ∨ (group ≠ [] ∧ (groupText head group).length ≤ MAX_MSGLEN - 2)) :
    CarriesModes head (groupText head group) group := by
  have hne : group ≠ [] := by
    rcases hshort with hone | h
    · rintro rfl
      exact absurd hone (by simp)
    · exact h.1
  have hmodes := isModeString_modesOf hletters hne
  have hdrop : (groupText head group).drop head.length = modesOf none group ++ paramsText group := by
    rw [groupText, List.append_assoc, List.drop_left]
  have hwords : words ((groupText head group).drop head.length) =
      modesOf none group :: written group := by
    rw [hdrop, paramsText_eq]
    refine words_spaced hmodes.isWord fun t ht => ?_
    obtain ⟨mc, hmc, rfl⟩ := List.mem_map.mp (List.mem_of_mem_filter ht)
    exact fun c hc hspace => hparams mc hmc (hspace ▸ hc)
  have hread : modeLetters true (modesOf none group) = group.map fun mc => (mc.adding, mc.letter) := by
    refine modeLetters_modesOf (fun mc hmc => ⟨?_, ?_⟩) (Or.inl rfl)
    all_goals
      intro heq
      have halpha := hletters mc hmc
      rw [heq] at halpha
      exact absurd halpha (by decide)
  refine ⟨?_, ?_, ?_, ?_⟩
  · rw [groupText, List.append_assoc]
    exact List.prefix_append _ _
  · rw [hwords]
    exact hmodes
  · rw [readLine, hwords]
    exact Prod.ext hread rfl
  · exact hshort.symm.imp_left And.right

/-- The parameters written of groups are those of the changes in them. -/
theorem written_flatten {groups : List (List ModeChange)} :
    written groups.flatten = groups.flatMap written := by
  induction groups with
  | nil => rfl
  | cons group groups ih =>
    rw [List.flatten_cons, List.flatMap_cons, ← ih, written, List.map_append, List.filter_append]
    rfl

/-- **Mode lines are packed without loss.** For every head and every list of changes with letters
for letters and parameters without spaces, the lines carry the changes group by group, in their
order; so what is read off all of them is the list. -/
theorem renderModeLines_lossless (head : Str) (hletters : ∀ mc ∈ cs, isAlphaOctet mc.letter = true)
    (hparams : ∀ mc ∈ cs, SPACE ∉ mc.param) :
    (∃ groups : List (List ModeChange), groups.flatten = cs ∧
      List.Forall₂ (CarriesModes head) (renderModeLines head cs) groups) ∧
    (renderModeLines head cs).flatMap (fun line => (readLine head line).1) =
        cs.map (fun mc => (mc.adding, mc.letter)) ∧
      (renderModeLines head cs).flatMap (fun line => (readLine head line).2) =
        written cs := by
  have hcarry : ∀ group ∈ modeGroups head cs, CarriesModes head (groupText head group) group := by
    intro group hgroup
    have hsub := sublist_of_mem_pack hgroup
    exact carries_groupText (fun mc hmc => hletters mc (hsub.subset hmc))
      (fun mc hmc => hparams mc (hsub.subset hmc)) (fits_of_mem_pack hgroup)
  have hflat : (modeGroups head cs).flatten = cs := flatten_pack
  refine ⟨⟨modeGroups head cs, hflat, ?_⟩, ?_, ?_⟩
  · rw [renderModeLines_eq, List.forall₂_map_left_iff, List.forall₂_same]
    exact hcarry
  · calc (renderModeLines head cs).flatMap (fun line => (readLine head line).1)
      _ = (modeGroups head cs).flatMap fun group => (readLine head (groupText head group)).1 := by
        rw [renderModeLines_eq, List.flatMap_map]
      _ = (modeGroups head cs).flatMap (List.map fun mc => (mc.adding, mc.letter)) :=
        List.flatMap_congr fun group hgroup => congrArg Prod.fst (hcarry group hgroup).read
      _ = (modeGroups head cs).flatten.map fun mc => (mc.adding, mc.letter) := by
        rw [List.map_flatten, List.flatMap_def]
      _ = cs.map fun mc => (mc.adding, mc.letter) := by rw [hflat]
  · calc (renderModeLines head cs).flatMap (fun line => (readLine head line).2)
      _ = (modeGroups head cs).flatMap fun group => (readLine head (groupText head group)).2 := by
        rw [renderModeLines_eq, List.flatMap_map]
      _ = (modeGroups head cs).flatMap written :=
        List.flatMap_congr fun group hgroup => congrArg Prod.snd (hcarry group hgroup).read
      _ = written (modeGroups head cs).flatten := written_flatten.symm
      _ = written cs := by rw [hflat]

/-- A key set and a topic opened, read off the line that says so. -/
theorem renderModeLines_lossless_opened :
    (renderModeLines (str ":a!b@c MODE #d ") [⟨true, 107, str "x"⟩, ⟨false, 116, []⟩]).flatMap
        (fun line => (readLine (str ":a!b@c MODE #d ") line).1) = [(true, 107), (false, 116)] ∧
      (renderModeLines (str ":a!b@c MODE #d ") [⟨true, 107, str "x"⟩, ⟨false, 116, []⟩]).flatMap
        (fun line => (readLine (str ":a!b@c MODE #d ") line).2) = [str "x"] :=
  (@renderModeLines_lossless [⟨true, 107, str "x"⟩, ⟨false, 116, []⟩] (str ":a!b@c MODE #d ")
    (List.forall_mem_cons.mpr ⟨rfl, List.forall_mem_singleton.mpr rfl⟩)
    (List.forall_mem_cons.mpr ⟨by decide, List.forall_mem_singleton.mpr (by decide)⟩)).2

end FtIrc
