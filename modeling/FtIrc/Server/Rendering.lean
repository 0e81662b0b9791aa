import FtIrc.Library.Packing
import FtIrc.Server.Modes

/-!
# How mode changes are written

`renderModeLines` packs a list of changes into groups, as many changes to a group as fit in
a line (`FtIrc.modeGroups`), and writes each group on a line of its own: the letters, with
a sign where it changes (`FtIrc.modesOf`), and behind them the parameters there are
(`FtIrc.paramsText`). What is read off such a line is the group it was written from
(`FtIrc.modeLetters_modesOf`).
-/

namespace FtIrc

/-- The letters of some changes, with a sign where it is not the one in force. -/
def modesOf : Option Bool → List ModeChange → Str
  | _, [] => []
  | sign, mc :: cs =>
    (if sign ≠ some mc.adding then (if mc.adding then str "+" else str "-") else []) ++
      mc.letter :: modesOf (some mc.adding) cs

/-- The parameters of some changes, each with a space before it; an empty one is not
written. -/
def paramsText (cs : List ModeChange) : Str :=
  cs.flatMap fun mc => if mc.param ≠ [] then SPACE :: mc.param else []

/-- The line of a group of changes. -/
def groupText (head : Str) (cs : List ModeChange) : Str := head ++ modesOf none cs ++ paramsText cs

/-- The groups some changes are packed into, a line each. -/
def modeGroups (head : Str) (cs : List ModeChange) : List (List ModeChange) :=
  pack (fun g => (groupText head g).length ≤ MAX_MSGLEN - 2) cs

variable {head : Str} {group cs : List ModeChange} {mc : ModeChange} {sign : Option Bool}

/-- The changes on a line under construction. -/
structure ModeLine.Holds (line : ModeLine) (cs : List ModeChange) : Prop where
  modes : line.modes = modesOf none cs
  params : (if line.params ≠ [] then str " " ++ line.params else []) = paramsText cs
  sign : line.sign = (cs.getLast?).map ModeChange.adding

/-- The letters of some changes and one more. -/
theorem modesOf_concat :
    modesOf sign (cs ++ [mc]) = modesOf sign cs ++
      ((if ((cs.getLast?).map ModeChange.adding).or sign ≠ some mc.adding then
        (if mc.adding then str "+" else str "-") else []) ++ [mc.letter]) := by
  induction cs generalizing sign with
  | nil => rfl
  | cons c cs ih =>
    have hlast : (((c :: cs).getLast?).map ModeChange.adding).or sign =
        ((cs.getLast?).map ModeChange.adding).or (some c.adding) := by
      rcases cs with _ | ⟨d, cs⟩
      · rfl
      · rw [List.getLast?_cons_cons]
        rcases hl : (d :: cs).getLast? with _ | e
        · simp at hl
        · rfl
    rw [List.cons_append, modesOf, modesOf, ih, hlast, List.append_assoc, List.cons_append]

theorem paramsText_append (cs cs' : List ModeChange) :
    paramsText (cs ++ cs') = paramsText cs ++ paramsText cs' := List.flatMap_append ..

namespace ModeLine.Holds

variable {line : ModeLine}

theorem empty : ModeLine.Holds {} [] := ⟨rfl, rfl, rfl⟩

/-- One more change on the line. -/
theorem extend (h : line.Holds cs) (mc : ModeChange) : (line.extend mc).Holds (cs ++ [mc]) where
  modes := by
    rw [modesOf_concat, Option.or_none, ModeLine.extend, h.modes, h.sign, List.append_assoc]
  params := by
    have hone : paramsText [mc] = if mc.param ≠ [] then SPACE :: mc.param else [] := List.append_nil _
    rw [paramsText_append, ← h.params, hone, ModeLine.extend]
    by_cases hparam : mc.param = []
    · simp [hparam]
    · by_cases hparams : line.params = []
      · simp [hparam, hparams, show str " " = [SPACE] from rfl]
      · simp [hparam, hparams, show str " " = [SPACE] from rfl]
  sign := by simp [ModeLine.extend]

theorem text_eq (h : line.Holds cs) : line.text head = groupText head cs := by
  rw [ModeLine.text, h.modes, h.params, groupText]

theorem length_eq (h : line.Holds cs) : line.length head = (groupText head cs).length := by
  rw [ModeLine.length, h.modes, groupText, List.length_append, List.length_append, ← h.params]
  split_ifs
  · rw [List.length_append]
    rfl
  · rfl

/-- The lines of the rest of the changes are the lines of their groups. -/
theorem renderFrom_eq (h : line.Holds group) :
    renderFrom head line cs =
      (packFrom (fun g => (groupText head g).length ≤ MAX_MSGLEN - 2) group cs).map (groupText head) := by
  induction cs generalizing line group with
  | nil => rw [renderFrom, packFrom, h.text_eq, List.map_singleton]
  | cons mc cs ih =>
    rw [renderFrom, packFrom, (h.extend mc).length_eq]
    by_cases hlong : (groupText head (group ++ [mc])).length > MAX_MSGLEN - 2
    · rw [if_pos hlong, if_neg (Nat.not_le.mpr hlong), List.map_cons, h.text_eq,
        ih (ModeLine.Holds.empty.extend mc)]
      rfl
    · rw [if_neg hlong, if_pos (Nat.not_lt.mp hlong)]
      exact ih (h.extend mc)

end ModeLine.Holds

/-- **The lines of some changes** are the lines of their groups. -/
theorem renderModeLines_eq : renderModeLines head cs = (modeGroups head cs).map (groupText head) := by
  rcases cs with _ | ⟨mc, cs⟩
  · rfl
  · exact (ModeLine.Holds.empty.extend mc).renderFrom_eq

end FtIrc
