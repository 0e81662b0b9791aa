import FtIrc.Grammar.Steps

/-!
# What the interpreter does not look at

Without limits, the interpreter looks neither at the steps and the depth of a walk nor at what its
tables happen to hold: walks that capture the same come to the same
(`FtIrc.Abnf.TreeMatcher.within_way`). And what fails leaves the captures as they were
(`FtIrc.Abnf.TreeMatcher.restores_way`).
-/

namespace FtIrc

namespace Abnf

open Fuel Ways

/-- **Two walks are alike** if they have captured the same. -/
structure Walk.Alike (g : Grammar) (walk walk' : Walk) : Prop where
  left : walk.Fit g
  right : walk'.Fit g
  captures : walk.captures = walk'.captures

variable {g : Grammar} {walk walk' : Walk}

theorem Walk.Alike.symm (h : walk.Alike g walk') : walk'.Alike g walk := ⟨h.right, h.left, h.captures.symm⟩

theorem Walk.Alike.trans {walk'' : Walk} (h : walk.Alike g walk') (h' : walk'.Alike g walk'') : walk.Alike g walk'' :=
  ⟨h.left, h'.right, h.captures.trans h'.captures⟩

theorem Walk.Alike.push (h : walk.Alike g walk') (slot : ℕ) (text : Str) :
    (walk.push slot text).Alike g (walk'.push slot text) := by
  obtain ⟨hvalues, hrest⟩ := Prod.mk.inj h.captures
  obtain ⟨hsequence, howners⟩ := Prod.mk.inj hrest
  refine ⟨h.left.push slot text, h.right.push slot text, ?_⟩
  simp only [Walk.captures, Walk.push, hvalues, hsequence, howners]

theorem Walk.Alike.takeBack {after after' : Walk} (hafter : after.Alike g after') (h : walk.Alike g walk') (slot : ℕ) :
    (after.takeBack slot walk).Alike g (after'.takeBack slot walk') := by
  obtain ⟨hvalues, hrest⟩ := Prod.mk.inj h.captures
  obtain ⟨hsequence, -⟩ := Prod.mk.inj hrest
  obtain ⟨hvalues', hrest'⟩ := Prod.mk.inj hafter.captures
  obtain ⟨hsequence', howners'⟩ := Prod.mk.inj hrest'
  refine ⟨⟨hafter.left.going, hafter.left.tables⟩, ⟨hafter.right.going, hafter.right.tables⟩, ?_⟩
  simp only [Walk.captures, Walk.takeBack, hvalues, hsequence, hvalues', hsequence', howners']

/-- As many texts as owners are captured. -/
def Walk.Even (walk : Walk) : Prop := walk.owners.length = walk.sequence.length

theorem Walk.Even.congr (h : walk.Even) (hcaptures : walk'.captures = walk.captures) : walk'.Even := by
  obtain ⟨-, hrest⟩ := Prod.mk.inj hcaptures
  obtain ⟨hsequence, howners⟩ := Prod.mk.inj hrest
  rw [Walk.Even, hsequence, howners]
  exact h

theorem Walk.Even.push (h : walk.Even) (slot : ℕ) (text : Str) : (walk.push slot text).Even := by
  rw [Walk.Even] at h ⊢
  simp [Walk.push, h]

/-- What was put behind a list is gone when the list is as long as before. -/
theorem resized_append {α : Type} (l : List α) (a fill : α) : resized (l ++ [a]) l.length fill = l := by
  simp [resized]

/-- What was captured since is taken back. -/
theorem Walk.Even.takeBack (h : walk.Even) {slot : ℕ} {text : Str} {after : Walk}
    (hafter : after.captures = (walk.push slot text).captures) : (after.takeBack slot walk).captures = walk.captures := by
  obtain ⟨hvalues, hrest⟩ := Prod.mk.inj hafter
  obtain ⟨hsequence, howners⟩ := Prod.mk.inj hrest
  have hback : (walk.values.modify slot (· ++ [text])).modify slot
      (fun list => resized list (walk.values.getD slot []).length []) = walk.values := by
    refine List.ext_getElem? fun i => ?_
    rw [List.getElem?_modify, List.getElem?_modify]
    by_cases hi : slot = i
    · subst hi
      rcases hget : walk.values[slot]? with _ | list
      · simp
      · simp [List.getD_eq_getElem?_getD, hget, resized_append]
    · simp [hi]
  rw [Walk.captures, Walk.captures, Walk.takeBack]
  dsimp only
  rw [hvalues, hsequence, howners, Walk.push]
  dsimp only
  rw [hback, resized_append, ← h, resized_append]

namespace TreeMatcher

variable {line : Str} {last : ℕ → Walk → Option Outcome} {node count start pos : ℕ} {next : List Frame}

/-! ### Walks that are alike -/

/-- What is done where no frame is left looks at what was captured only. -/
abbrev LooksAtCaptures (g : Grammar) (last : ℕ → Walk → Option Outcome) : Prop :=
  ∀ pos, Within (Walk.Alike g) (fun walk r => last pos walk = some r) fun walk r => last pos walk = some r

variable (hg : g.Accepted)
include hg

/-- The question for single octets is answered alike, whatever was asked before. -/
theorem asksSingleOctet_alike (h : walk.Alike g walk') {child : ℕ} {asked : Bool × Walk}
    (hasked : Gives (fun k => asksSingleOctet g k child count walk) asked) :
    ∃ asked', Gives (fun k => asksSingleOctet g k child count walk') asked' ∧ asked.1 = asked'.1 ∧
      asked.2.Alike g asked'.2 := by
  obtain ⟨asked', k, hk⟩ : ∃ asked', Gives (fun k => asksSingleOctet g k child count walk') asked' := by
    simp only [asksSingleOctet]
    split_ifs
    · obtain ⟨k, answer, hanswer⟩ := Grammar.ends_isSingleOctet (hg.acc_left child) walk'.tables.single
      exact ⟨_, gives_map_iff.mpr ⟨answer, ⟨k, hanswer⟩, rfl⟩⟩
    · exact ⟨_, gives_pure_iff.mpr rfl⟩
  obtain ⟨hright, hfit, hcaptures⟩ := asksSingleOctet_spec hg h.left hasked
  obtain ⟨hright', hfit', hcaptures'⟩ := asksSingleOctet_spec hg h.right ⟨k, hk⟩
  refine ⟨asked', ⟨k, hk⟩, Bool.eq_iff_iff.mpr (hright.trans hright'.symm), hfit, hfit', ?_⟩
  rw [hcaptures, hcaptures', h.captures]

/-- So is the question for a bitmap. -/
theorem octetBitmap_alike (h : walk.Alike g walk') {child : ℕ} {bitmap : List Octet × Grammar.OctetTables}
    (hbitmap : Gives (fun k => g.octetBitmap k child walk.tables) bitmap) :
    ∃ bitmap', Gives (fun k => g.octetBitmap k child walk'.tables) bitmap' ∧ bitmap.1 = bitmap'.1 ∧
      g.TablesRight bitmap.2 ∧ g.TablesRight bitmap'.2 := by
  obtain ⟨k, hk⟩ := hbitmap
  obtain ⟨k', bitmap', hk'⟩ := Grammar.ends_octetBitmap (hg.acc_left child) walk'.tables
  obtain ⟨⟨m, hm⟩, htables⟩ := h.left.tables.looked hk
  obtain ⟨⟨m', hm'⟩, htables'⟩ := h.right.tables.looked hk'
  exact ⟨bitmap', ⟨k', hk'⟩, (g.steady_matchedOctets child _).unique hm hm', htables, htables'⟩

variable {go go' : Call → Way Walk}

omit hg in
theorem within_first_map {α : Type} {calls : α → Call} (h : ∀ call, Within (Walk.Alike g) (go call) (go' call))
    (as : List α) : Within (Walk.Alike g) (first (as.map fun a => go (calls a))) (first (as.map fun a => go' (calls a))) :=
  within_first (List.forall₂_map_left_iff.mpr (List.forall₂_map_right_iff.mpr
    (List.forall₂_same.mpr fun a _ => h (calls a))))

theorem within_bitmapStep (h : ∀ call, Within (Walk.Alike g) (go call) (go' call)) :
    Within (Walk.Alike g) (bitmapStep g line go node pos next) (bitmapStep g line go' node pos next) := by
  rintro walk walk' r halike ⟨bitmap, hbitmap, hfirst⟩
  obtain ⟨bitmap', hbitmap', hbits, htables, htables'⟩ := octetBitmap_alike hg halike hbitmap
  have hscanned : (walk.scanned bitmap.2 (takenFrom line bitmap.1 (g.node node).hi pos)).Alike g
      (walk'.scanned bitmap'.2 (takenFrom line bitmap'.1 (g.node node).hi pos)) :=
    ⟨halike.left.scanned htables _, halike.right.scanned htables' _, halike.captures⟩
  obtain ⟨r', hfirst', hsame⟩ := (within_first_map h _).go hscanned hfirst
  rw [hbits] at hfirst'
  exact ⟨r', ⟨bitmap', hbitmap', hfirst'⟩, hsame⟩

omit hg in
theorem within_generalWays (h : ∀ call, Within (Walk.Alike g) (go call) (go' call)) :
    Within (Walk.Alike g) (first (generalWays g go node count start pos next))
      (first (generalWays g go' node count start pos next)) := by
  refine within_first ?_
  rw [generalWays, generalWays]
  split_ifs
  · exact .cons (h _) (.cons (h _) .nil)
  · exact .cons (h _) .nil
  · exact .cons (h _) .nil
  · exact .nil

omit hg in
theorem within_fails : Within (Walk.Alike g) fails fails := by
  rintro walk walk' r halike rfl
  exact ⟨_, rfl, rfl, halike⟩

omit hg in
theorem within_insideStep (h : ∀ call, Within (Walk.Alike g) (go call) (go' call)) :
    Within (Walk.Alike g) (insideStep g line go node pos next) (insideStep g line go' node pos next) := by
  rw [insideStep, insideStep]
  rcases (g.node node).kind <;> dsimp only
  · split_ifs
    · exact within_fails
    · exact h _
    · exact h _
  · split_ifs
    · exact h _
    · exact within_fails
  · split_ifs
    · exact h _
    · exact within_fails
  · exact h _
  · exact within_first_map h _
  · exact h _

/-- **A step is alike on walks that are alike**, if the calls it makes are. -/
theorem within_step (h : ∀ call, Within (Walk.Alike g) (go call) (go' call))
    (hlast : LooksAtCaptures g last) (call : Call) : Within (Walk.Alike g) (step g line last go call) (step g line last go' call) := by
  cases call with
  | continuation frames pos =>
    rcases frames with _ | ⟨frame, next⟩
    · exact hlast pos
    cases frame with
    | node node => exact h _
    | sequence node childNo => exact h _
    | repetition node count start => exact h _
    | closeCapture slot start =>
      rintro walk walk' _ halike ⟨r₁, hgo, rfl⟩
      obtain ⟨r₁', hgo', hbool, hsame⟩ := (h _).go (halike.push slot _) hgo
      refine ⟨_, ⟨r₁', hgo', rfl⟩, ?_⟩
      rw [← hbool]
      split_ifs
      · exact ⟨hbool, hsame⟩
      · exact ⟨rfl, hsame.takeBack halike slot⟩
  | sequence node childNo pos next =>
    rw [step, step]
    split_ifs
    · exact h _
    · exact h _
  | repetition node count start pos next =>
    rintro walk walk' r halike ⟨asked, hasked, hbranch⟩
    obtain ⟨asked', hasked', hbool, hsame⟩ := asksSingleOctet_alike hg halike hasked
    by_cases hsingle : asked.1 = true
    · rw [if_pos hsingle] at hbranch
      obtain ⟨r', hbranch', hr⟩ := (within_bitmapStep hg h).go hsame hbranch
      refine ⟨r', ⟨asked', hasked', ?_⟩, hr⟩
      rw [if_pos (hbool ▸ hsingle)]
      exact hbranch'
    · rw [if_neg hsingle] at hbranch
      obtain ⟨r', hbranch', hr⟩ := (within_generalWays h).go hsame hbranch
      refine ⟨r', ⟨asked', hasked', ?_⟩, hr⟩
      rw [if_neg (hbool ▸ hsingle)]
      exact hbranch'
  | node node pos next =>
    rintro walk walk' _ halike ⟨r₁, hinside, rfl⟩
    have hentered : walk.entered.Alike g walk'.entered := ⟨halike.left.entered, halike.right.entered, halike.captures⟩
    obtain ⟨r₁', hinside', hbool, hsame⟩ := (within_insideStep h).go hentered hinside
    refine ⟨_, ⟨r₁', hinside', rfl⟩, hbool, ?_⟩
    exact ⟨⟨hsame.left.going, hsame.left.tables⟩, ⟨hsame.right.going, hsame.right.tables⟩, hsame.captures⟩

omit hg in
/-- What is alike keeps walks fit. -/
theorem keepsFit_of_within {W W' : Way Walk} (h : Within (Walk.Alike g) W W') : KeepsFit g W := by
  intro walk r hfit hgo
  obtain ⟨r', -, -, hsame⟩ := h.go ⟨hfit, hfit, rfl⟩ hgo
  exact hsame.left

section Calls

variable (hlast : LooksAtCaptures g last)
include hlast

/-- **The interpreter looks at what was captured only.** -/
theorem within_way (call : Call) : Within (Walk.Alike g) (way g line last call) (way g line last call) := by
  have hkeeps : ∀ pos, KeepsFit g fun walk r => last pos walk = some r := fun pos => keepsFit_of_within (hlast pos)
  have hfuel : ∀ k call, Within (Walk.Alike g) (fun walk r => perform .unlimited g line last k call walk = some r)
      (way g line last call) := by
    intro k
    induction k with
    | zero =>
      rintro (_ | _ | _ | _) walk walk' r _ h <;>
        simp [perform, matchContinuation, matchSequence, matchRepetition, matchNode] at h
    | succ k ih =>
      intro call walk walk' r halike h
      have hstep := step_of_perform hg (fun call => keepsFit_of_within (ih call)) halike.left (fun _ _ _ h => h) h
      obtain ⟨r', hstep', hsame⟩ := (within_step hg ih hlast call).go halike hstep
      exact ⟨r', way_of_step hg hkeeps halike.right hstep', hsame⟩
  rintro walk walk' r halike ⟨k, h⟩
  exact (hfuel k call).go halike h

/-- **A call is a step of calls**, and the other way round. -/
theorem equal_step (call : Call) : Equal (Walk.Alike g) (way g line last call)
    (step g line last (way g line last) call) := by
  have hkeeps : ∀ pos, KeepsFit g fun walk r => last pos walk = some r := fun pos => keepsFit_of_within (hlast pos)
  constructor
  · rintro walk walk' r halike ⟨k, h⟩
    have h' : perform .unlimited g line last (k + 1) call walk = some r := (steady_perform call walk).eq_some h (Nat.le_succ k)
    have hstep := step_of_perform hg (fun call => keepsFit_way hg hkeeps call) halike.left (fun _ _ _ h => ⟨k, h⟩) h'
    exact (within_step hg (within_way hg hlast) hlast call).go halike hstep
  · intro walk walk' r halike h
    exact (within_way hg hlast call).go halike (way_of_step hg hkeeps halike.left h)

end Calls

/-! ### What fails leaves no captures -/

omit hg in
/-- **What fails leaves the captures as they were.** -/
def Restores (g : Grammar) (W : Way Walk) : Prop :=
  ∀ walk r, walk.Fit g → walk.Even → W walk r → r.1 = false → r.2.captures = walk.captures

omit hg in
theorem restores_first {ways : List (Way Walk)} (hkeeps : ∀ W ∈ ways, KeepsFit g W)
    (h : ∀ W ∈ ways, Restores g W) : Restores g (first ways) := by
  intro walk r hfit heven hfirst hr
  induction hfirst with
  | none => rfl
  | hit _ htrue => exact absurd hr (by simp [htrue])
  | @miss W Ws walk r₁ r' hgo hfalse _ ih =>
    have hback := h W List.mem_cons_self walk r₁ hfit heven hgo hfalse
    have hrest := ih (fun V hV => hkeeps V (List.mem_cons_of_mem W hV)) (fun V hV => h V (List.mem_cons_of_mem W hV))
      (hkeeps W List.mem_cons_self hfit hgo) (heven.congr hback) hr
    exact hrest.trans hback

omit hg in
theorem restores_insideStep (hkeeps : ∀ call, KeepsFit g (go call)) (h : ∀ call, Restores g (go call)) :
    Restores g (insideStep g line go node pos next) := by
  have hfails : Restores g fails := by
    rintro walk _ - - rfl -
    rfl
  rw [insideStep]
  rcases (g.node node).kind <;> dsimp only
  · split_ifs
    · exact hfails
    · exact h _
    · exact h _
  · split_ifs
    · exact h _
    · exact hfails
  · split_ifs
    · exact h _
    · exact hfails
  · exact h _
  · refine restores_first (fun W hW => ?_) fun W hW => ?_
    · obtain ⟨child, -, rfl⟩ := List.mem_map.mp hW
      exact hkeeps _
    · obtain ⟨child, -, rfl⟩ := List.mem_map.mp hW
      exact h _
  · exact h _

/-- **A step that fails leaves the captures as they were**, if the calls it makes do. -/
theorem restores_step (hkeeps : ∀ call, KeepsFit g (go call)) (h : ∀ call, Restores g (go call))
    (hlast : ∀ pos, Restores g fun walk r => last pos walk = some r) (call : Call) :
    Restores g (step g line last go call) := by
  cases call with
  | continuation frames pos =>
    rcases frames with _ | ⟨frame, next⟩
    · exact hlast pos
    cases frame with
    | node node => exact h _
    | sequence node childNo => exact h _
    | repetition node count start => exact h _
    | closeCapture slot start =>
      rintro walk _ hfit heven ⟨r₁, hgo, rfl⟩ hr
      have hpushed := h _ _ r₁ (hfit.push slot _) (heven.push slot _) hgo
      split_ifs at hr ⊢ with hbool
      · exact absurd hr (by simp [hbool])
      · exact heven.takeBack (hpushed (by simpa using hbool))
  | sequence node childNo pos next =>
    rw [step]
    split_ifs
    · exact h _
    · exact h _
  | repetition node count start pos next =>
    rintro walk r hfit heven ⟨asked, hasked, hbranch⟩ hr
    obtain ⟨-, hfit', hcaptures⟩ := asksSingleOctet_spec hg hfit hasked
    rw [← hcaptures]
    have heven' := heven.congr hcaptures
    split_ifs at hbranch
    · obtain ⟨bitmap, ⟨k, hbitmap⟩, hfirst⟩ := hbranch
      obtain ⟨-, htables⟩ := hfit'.tables.looked hbitmap
      have hways : ∀ W ∈ (countdown (takenFrom line bitmap.1 (g.node node).hi pos) (g.node node).lo.toNat).map
          fun take => go (.continuation next (pos + take)), KeepsFit g W ∧ Restores g W := by
        intro W hW
        obtain ⟨take, -, rfl⟩ := List.mem_map.mp hW
        exact ⟨hkeeps _, h _⟩
      have hback := restores_first (fun W hW => (hways W hW).1) (fun W hW => (hways W hW).2)
        (asked.2.scanned bitmap.2 (takenFrom line bitmap.1 (g.node node).hi pos)) r
        (hfit'.scanned htables _) heven' hfirst hr
      exact hback
    · refine restores_first (fun W hW => ?_) (fun W hW => ?_) asked.2 r hfit' heven' hbranch hr
      · obtain ⟨call, rfl⟩ := mem_generalWays hW
        exact hkeeps call
      · obtain ⟨call, rfl⟩ := mem_generalWays hW
        exact h call
  | node node pos next =>
    rintro walk _ hfit heven ⟨r₁, hinside, rfl⟩ hr
    exact restores_insideStep hkeeps h walk.entered r₁ hfit.entered heven hinside hr

/-- **A call that fails leaves the captures as they were.** -/
theorem restores_way (hkeeps : ∀ pos, KeepsFit g fun walk r => last pos walk = some r)
    (hlast : ∀ pos, Restores g fun walk r => last pos walk = some r) (call : Call) :
    Restores g (way g line last call) := by
  have hfuel : ∀ k call, Restores g fun walk r => perform .unlimited g line last k call walk = some r := by
    intro k
    induction k with
    | zero =>
      rintro (_ | _ | _ | _) walk r _ _ h <;>
        simp [perform, matchContinuation, matchSequence, matchRepetition, matchNode] at h
    | succ k ih =>
      intro call walk r hfit heven h
      have hfitK : ∀ call, KeepsFit g fun walk r => perform .unlimited g line last k call walk = some r :=
        fun call {walk r} hfit h => keepsFit_way hg hkeeps call hfit ⟨k, h⟩
      exact restores_step hg hfitK ih hlast call walk r hfit heven
        (step_of_perform hg hfitK hfit (fun _ _ _ h => h) h)
  rintro walk r hfit heven ⟨k, h⟩
  exact hfuel k call walk r hfit heven h

end TreeMatcher

end Abnf

end FtIrc
