import FtIrc.Grammar.FastPath
import FtIrc.Grammar.Genuine
import FtIrc.Grammar.Shapes
import FtIrc.Library.Layout

/-!
# The interpreter as a search

What the interpreter does with a node is a backtracking search through the pattern of the node, and
what it does with a list of frames is one through their patterns, one behind the other
(`FtIrc.Abnf.TreeMatcher.Means`). A call that succeeds captures just what that search finds first, and
one that fails without having been given up says that the search finds nothing
(`FtIrc.Abnf.TreeMatcher.Answers`). So a rule is matched as its pattern is searched
(`FtIrc.Abnf.TreeMatcher.answers_run`), whatever the limits are.
-/

namespace FtIrc

namespace Abnf

open Fuel Grammar Pattern ProgramCompiler TreeMatcher

/-- Captures are noted where they close. -/
def treeNotes : Notes Octet ℤ (List Captured) where
  opened _ _ caps := caps
  closed k w rest caps := (k.toNat, w.take (w.length - rest.length)) :: caps

/-- How often a body may be matched. -/
def GrammarNode.most (n : GrammarNode) : Option ℕ := if n.hi = kUnbounded then none else some n.hi.toNat

theorem GrammarNode.forall_most_iff {n : GrammarNode} {count : ℕ} :
    (∀ most ∈ n.most, count < most) ↔ n.hi = kUnbounded ∨ count < n.hi := by
  rw [most]
  split_ifs with hun
  · simp [hun]
  · simp only [Option.mem_some_iff, forall_eq', hun, false_or]
    omega

/-! ### Loops of the search -/

section Search

variable {S K C : Type} {mem : S → Octet → Bool} {N : Notes Octet K C} {κ : Str → Option C} {w : Str}

theorem findSome_cons {α : Type} {f : α → Option C} {a : α} {as : List α} :
    (a :: as).findSome? f = (f a).or (as.findSome? f) := by
  rw [List.findSome?_cons]
  cases f a <;> rfl

/-- A choice finds what the first of its branches finds that finds something. -/
theorem eval_alts (as : List (Pattern S K)) : (alts as).eval mem N κ w = as.findSome? fun a => a.eval mem N κ w := by
  induction as with
  | nil => rfl
  | cons a as ih =>
    rw [findSome_cons, ← ih]
    rcases as with _ | ⟨b, as⟩
    · exact (Option.or_none).symm
    · rfl

/-- A text is found where it is, in upper or lower case. -/
theorem eval_word {N : Notes Octet K C} (text : Str) : (word text).eval inBits N κ w =
    if asciiFold (w.take text.length) = asciiFold text then κ (w.drop text.length) else none := by
  have hcons : ∀ (c : Octet) (text w : Str), (word (c :: text)).eval inBits N κ w =
      (Pattern.symbol (caseBits c)).eval inBits N ((word text).eval inBits N κ) w := fun c text w => by
    rcases text with _ | ⟨d, text⟩
    · rfl
    · rfl
  induction text generalizing w with
  | nil => rfl
  | cons c text ih =>
    rw [hcons]
    rcases w with _ | ⟨x, w⟩
    · exact (if_neg (by simp [asciiFold])).symm
    have hfold : asciiFold (x :: w.take text.length) = asciiFold (c :: text) ↔
        foldOctet x = foldOctet c ∧ asciiFold (w.take text.length) = asciiFold text := List.cons_eq_cons
    rw [eval, ih, List.length_cons, List.take_succ_cons, List.drop_succ_cons]
    by_cases hx : foldOctet x = foldOctet c
    · have hbits : inBits (caseBits c) x = true := decide_eq_true (mem_caseBits.mpr hx)
      rw [if_pos hbits]
      simp only [hfold, hx, true_and]
    · have hbits : ¬ inBits (caseBits c) x = true := fun h => hx (mem_caseBits.mp (of_decide_eq_true h))
      rw [if_neg hbits, if_neg fun h => hx (hfold.mp h).1]

/-- **A repetition of single octets** goes on where it may end, at the last such position first. -/
theorem turns_of_isSymbol {a : Pattern S K} (ha : a.isSymbol = true) {bits : List Octet}
    (hbits : ∀ c, c ∈ bits ↔ a.accepts mem c = true) {n : GrammarNode} {line : Str} {count pos : ℕ} :
    turns mem N a n.lo.toNat n.most κ count (line.drop pos) =
      (endings line bits n count pos).findSome? fun p => κ (line.drop p) := by
  have hstop : ∀ count pos : ℕ, (if n.lo.toNat ≤ count then κ (line.drop pos) else none) =
      (if n.lo ≤ count then [pos] else []).findSome? fun p => κ (line.drop p) := by
    intro count pos
    by_cases hlo : n.lo ≤ count
    · rw [if_pos (Int.toNat_le.mpr hlo), if_pos hlo, findSome_cons]
      exact Option.or_none.symm
    · rw [if_neg (fun h => hlo (Int.toNat_le.mp h)), if_neg hlo]
      rfl
  -- by induction on what is left of the line
  induction hleft : line.length - pos using Nat.strong_induction_on generalizing count pos with
  | _ left ih =>
    rw [turns_of_steady (.inl (nullable_of_isSymbol ha)), hstop]
    by_cases hgoes : (n.hi = kUnbounded ∨ count < n.hi) ∧ ∃ c, (line)[pos]? = some c ∧ c ∈ bits
    · obtain ⟨hmore, c, hget, hc⟩ := hgoes
      obtain ⟨hlt, hget'⟩ := List.getElem?_eq_some_iff.mp hget
      rw [if_pos (GrammarNode.forall_most_iff.mpr hmore), List.drop_eq_getElem_cons hlt, hget', eval_cons_of_isSymbol ha,
        if_pos ((hbits c).mp hc), endings_cons hmore hget hc, List.findSome?_append,
        ih (line.length - (pos + 1)) (by omega) rfl]
    · have hnone : (if ∀ most ∈ n.most, count < most then
          a.eval mem N (turns mem N a n.lo.toNat n.most κ (count + 1)) (line.drop pos) else none) = none := by
        by_cases hmore : n.hi = kUnbounded ∨ count < n.hi
        swap
        · exact if_neg fun h => hmore (GrammarNode.forall_most_iff.mp h)
        rw [if_pos (GrammarNode.forall_most_iff.mpr hmore)]
        rcases hdrop : line.drop pos with _ | ⟨c, rest⟩
        · exact eval_nil_of_isSymbol ha _
        · rw [eval_cons_of_isSymbol ha, if_neg]
          intro hc
          have hget : (line)[pos]? = some c := by
            rw [← Nat.add_zero pos, ← List.getElem?_drop, hdrop]
            rfl
          exact hgoes ⟨hmore, c, hget, (hbits c).mpr hc⟩
      have htaken : takenAtMost line bits (mostMore line n.hi count pos) pos = 0 := by
        by_cases hmore : n.hi = kUnbounded ∨ count < n.hi
        · exact takenAtMost_none fun h => hgoes ⟨hmore, h⟩
        · have hzero : mostMore line n.hi count pos = 0 := by
            rw [mostMore, if_neg fun h => hmore (.inl h)]
            omega
          rw [hzero, takenAtMost, List.take_zero]
          rfl
      rw [hnone, endings_none htaken, Option.none_or]

end Search

namespace TreeMatcher

variable {limits : Limits} {g : Grammar} {line : Str} {walk walk' : Walk} {r r' : Outcome} {k node count start pos : ℕ}
  {next frames : List Frame} {x y : Option (List Captured)} {κ : Str → Option (List Captured)}

/-! ### What frames mean -/

/-- What a repetition finds that has matched its body so often, the last time from `start` on. -/
def resume (n : GrammarNode) (body : Pattern (Finset ℤ) ℤ) (line : Str) (count start : ℕ) (κ : Str → Option (List Captured))
    (rest : Str) : Option (List Captured) :=
  if 0 < count ∧ rest.length = line.length - start then if n.lo.toNat ≤ count then κ rest else none
  else turns inBits treeNotes body n.lo.toNat n.most κ count rest

theorem resume_zero {n : GrammarNode} {body : Pattern (Finset ℤ) ℤ} {rest : Str} :
    resume n body line 0 start κ rest = turns inBits treeNotes body n.lo.toNat n.most κ 0 rest :=
  if_neg fun h => absurd h.1 (lt_irrefl 0)

/-- **What frames look for** in the rest of a line. -/
inductive Means (g : Grammar) (line : Str) : List Frame → (Str → Option (List Captured)) → Prop
  | nil : Means g line [] (Machine.whenDone [])
  | node {i : ℕ} {a : Pattern (Finset ℤ) ℤ} {next : List Frame} {κ : Str → Option (List Captured)} :
      g.Shape i a → Means g line next κ → Means g line (.node i :: next) (a.eval inBits treeNotes κ)
  | sequence {i childNo : ℕ} {as : List (Pattern (Finset ℤ) ℤ)} {next : List Frame} {κ : Str → Option (List Captured)} :
      List.Forall₂ g.Shape ((g.childrenOf (g.node i)).drop childNo) as → Means g line next κ →
      Means g line (.sequence i childNo :: next) ((seqs as).eval inBits treeNotes κ)
  | nothing {i start : ℕ} {next : List Frame} {κ : Str → Option (List Captured)} :
      (g.node i).kind = .repetition → (g.node i).lo ≤ 0 → (g.node i).hi = 0 → Means g line next κ →
      Means g line (.repetition i 0 start :: next) κ
  | repetition {i count start : ℕ} {body : Pattern (Finset ℤ) ℤ} {next : List Frame} {κ : Str → Option (List Captured)} :
      (g.node i).kind = .repetition → g.Shape (g.child (g.node i).first) body → start ≤ line.length → Means g line next κ →
      Means g line (.repetition i count start :: next) (resume (g.node i) body line count start κ)
  | closeCapture {slot start : ℕ} {next : List Frame} {κ : Str → Option (List Captured)} : Means g line next κ →
      Means g line (.closeCapture slot start :: next) fun rest =>
        (κ rest).map ((slot, piece line start (line.length - rest.length)) :: ·)

/-- What a call looks for from its position on. -/
def LooksFor (g : Grammar) (line : Str) (frames : List Frame) (pos : ℕ) (x : Option (List Captured)) : Prop :=
  pos ≤ line.length ∧ ∃ κ, Means g line frames κ ∧ x = κ (line.drop pos)

def Call.LooksFor (g : Grammar) (line : Str) : Call → Option (List Captured) → Prop
  | .continuation frames pos => TreeMatcher.LooksFor g line frames pos
  | .sequence node childNo pos next => TreeMatcher.LooksFor g line (.sequence node childNo :: next) pos
  | .repetition node count start pos next => TreeMatcher.LooksFor g line (.repetition node count start :: next) pos
  | .node node pos next => TreeMatcher.LooksFor g line (.node node :: next) pos

/-! ### Answers -/

/-- **A call answers what is found**: it captures that where it succeeds, and where it fails there is
nothing, unless the walk was given up. -/
structure Answers (g : Grammar) (x : Option (List Captured)) (walk : Walk) (r : Outcome) : Prop where
  genuine : Genuine g (fun caps => x = some caps) walk r
  complete : r.1 = false → r.2.exhausted = false → x = none

theorem Answers.failed (h : g.TablesRight r.2.tables) (hr : r.1 = false) (hcaptures : r.2.captures = walk.captures) :
    Answers g none walk r := ⟨.failed h hr hcaptures, fun _ _ => rfl⟩

theorem Answers.givenUp (h : g.TablesRight r.2.tables) (hr : r.1 = false) (hcaptures : r.2.captures = walk.captures)
    (hexhausted : r.2.exhausted = true) : Answers g x walk r :=
  ⟨.failed h hr hcaptures, fun _ hgoing => absurd (hgoing.symm.trans hexhausted) Bool.false_ne_true⟩

theorem Answers.from (h : Answers g x walk r) (hcaptures : walk.captures = walk'.captures) : Answers g x walk' r :=
  ⟨h.genuine.from hcaptures, h.complete⟩

theorem Answers.ready (h : Answers g x walk r) (hr : r.1 = false) (hready : walk.Ready g) : r.2.Ready g :=
  h.genuine.ready hr hready

/-- One way, and another one if that is not final. -/
theorem Answers.or (h : Answers g x walk r) (hrest : if r.final then r' = r else Answers g y r.2 r') :
    Answers g (x.or y) walk r' := by
  cases hfinal : r.final with
  | true =>
    rw [if_pos hfinal] at hrest
    subst hrest
    refine ⟨h.genuine.mono fun caps hcaps => ?_, fun hfalse hgoing => ?_⟩
    · rw [hcaps]
      rfl
    · rw [Outcome.final, hfalse, hgoing] at hfinal
      cases hfinal
  | false =>
    rw [hfinal, if_neg Bool.false_ne_true] at hrest
    obtain ⟨hfalse, hgoing⟩ := Bool.or_eq_false_iff.mp hfinal
    rw [h.complete hfalse hgoing, Option.none_or]
    exact hrest.from (h.genuine.back hfalse)

/-- A capture that is closed in front of what is captured later. -/
theorem Answers.closed {slot : ℕ} {text : Str} (hready : walk.Ready g) (h : Answers g x (walk.push slot text) r) :
    Answers g (x.map ((slot, text) :: ·)) walk (if r.1 then r else (false, r.2.takeBack slot walk)) := by
  split_ifs with hfound
  · obtain ⟨caps, rfl, hcaptures⟩ := h.genuine.found hfound
    refine ⟨⟨h.genuine.tables, fun hfalse => ?_, fun _ => ⟨_, rfl, ?_⟩⟩, fun hfalse => ?_⟩
    · exact absurd (hfalse.symm.trans hfound) Bool.false_ne_true
    · rw [hcaptures, Walk.captures_push, ← Captures.add_append]
      rfl
    · exact absurd (hfalse.symm.trans hfound) Bool.false_ne_true
  · have hfalse : r.1 = false := by simpa using hfound
    refine ⟨.failed h.genuine.tables rfl (hready.even.takeBack (h.genuine.back hfalse)), fun _ hgoing => ?_⟩
    rw [h.complete hfalse hgoing]
    rfl

/-- **A loop answers what the first of its ways finds that finds something.** -/
theorem answers_firstOf {α β : Type} {body : α → Walk → Option Outcome} {f : β → Option (List Captured)} {as : List α} {bs : List β}
    (hbody : List.Forall₂ (fun a b => ∀ walk r, walk.Ready g → body a walk = some r → Answers g (f b) walk r) as bs)
    (hready : walk.Ready g) (h : firstOf body Outcome.final as walk = some r) : Answers g (bs.findSome? f) walk r := by
  induction hbody generalizing walk with
  | nil =>
    obtain rfl := Option.some.inj h
    exact .failed hready.tables rfl rfl
  | cons hab _ ih =>
    obtain ⟨r₁, hr₁, h⟩ := Option.bind_eq_some_iff.mp h
    have hanswers := hab walk r₁ hready hr₁
    rw [findSome_cons]
    refine hanswers.or ?_
    split_ifs at h ⊢ with hfinal
    · exact (Option.some.inj h).symm
    · refine ih (hanswers.ready ?_ hready) h
      exact (Bool.or_eq_false_iff.mp (Bool.eq_false_iff.mpr hfinal)).1

/-- Calls with less fuel answer. -/
def AnswerCalls (limits : Limits) (g : Grammar) (line : Str) (k : ℕ) : Prop :=
  ∀ call walk r x, walk.Ready g → call.LooksFor g line x → perform limits g line (atEnd line) k call walk = some r →
    Answers g x walk r

/-- The branch through the body tries it once more, and then what is to come. -/
theorem answers_generalBranch {body : Pattern (Finset ℤ) ℤ} (hk : AnswerCalls limits g line k) (hready : walk.Ready g)
    (hkind : (g.node node).kind = .repetition) (hbody : g.Shape (g.child (g.node node).first) body) (hpos : pos ≤ line.length) (hstart : start ≤ line.length)
    (hnext : Means g line next κ)
    (h : generalBranch limits g line (atEnd line) k node count start pos next walk = some r) :
    Answers g (resume (g.node node) body line count start κ (line.drop pos)) walk r := by
  have hstop : ∀ walk r, walk.Ready g → (if (g.node node).lo ≤ count then
      matchContinuation limits g line (atEnd line) k next pos walk else some (false, walk)) = some r →
      Answers g (if (g.node node).lo.toNat ≤ count then κ (line.drop pos) else none) walk r := by
    intro walk r hready h
    by_cases hlo : (g.node node).lo ≤ count
    · rw [if_pos hlo] at h
      rw [if_pos (Int.toNat_le.mpr hlo)]
      exact hk (.continuation next pos) walk r _ hready ⟨hpos, κ, hnext, rfl⟩ h
    · rw [if_neg hlo] at h
      rw [if_neg fun h => hlo (Int.toNat_le.mp h)]
      obtain rfl := Option.some.inj h
      exact .failed hready.tables rfl rfl
  have hwhere : (line.drop pos).length = line.length - start ↔ pos = start := by
    rw [List.length_drop]
    omega
  rw [resume]
  by_cases hstuck : 0 < count ∧ pos = start
  · rw [if_pos ⟨hstuck.1, hwhere.mpr hstuck.2⟩]
    exact hstop walk r hready ((if_neg fun h => h.2 hstuck).symm.trans h)
  rw [if_neg fun h => hstuck ⟨h.1, hwhere.mp h.2⟩, turns_eq]
  by_cases hmore : (g.node node).hi = kUnbounded ∨ count < (g.node node).hi
  swap
  · rw [if_neg fun h => hmore (GrammarNode.forall_most_iff.mp h), Option.none_or]
    exact hstop walk r hready ((if_neg fun h => hmore h.1).symm.trans h)
  rw [if_pos (GrammarNode.forall_most_iff.mpr hmore)]
  obtain ⟨r₁, hr₁, h⟩ := Option.bind_eq_some_iff.mp ((if_pos ⟨hmore, hstuck⟩).symm.trans h)
  have hagain : Means g line (.repetition node (count + 1) pos :: next) _ := .repetition hkind hbody hpos hnext
  have hanswers := hk (.node _ pos _) walk r₁ _ hready ⟨hpos, _, .node hbody hagain, rfl⟩ hr₁
  have hresume : resume (g.node node) body line (count + 1) pos κ = fun rest =>
      if rest.length = (line.drop pos).length then if (g.node node).lo.toNat ≤ count + 1 then κ rest else none
      else turns inBits treeNotes body (g.node node).lo.toNat (g.node node).most κ (count + 1) rest := by
    funext rest
    rw [resume, List.length_drop]
    simp only [Nat.succ_pos, true_and]
  rw [hresume] at hanswers
  refine hanswers.or ?_
  by_cases hfinal : r₁.final = true
  · rw [if_pos hfinal]
    exact (Option.some.inj ((if_pos hfinal).symm.trans h)).symm
  · rw [if_neg hfinal]
    refine hstop r₁.2 r (hanswers.ready ?_ hready) ((if_neg hfinal).symm.trans h)
    exact (Bool.or_eq_false_iff.mp (Bool.eq_false_iff.mpr hfinal)).1

/-- The branch by a bitmap tries what is to come where octets of the bitmap may end. -/
theorem answers_bitmapBranch (hk : AnswerCalls limits g line k) (hready : walk.Ready g) (hpos : pos ≤ line.length)
    (hnext : Means g line next κ) (h : bitmapBranch limits g line (atEnd line) k node pos next walk = some r)
    (hlow : kUnbounded ≤ (g.node node).hi) (hhigh : (g.node node).hi < 2 ^ 64) :
    ∃ bits : List Octet, (∀ c, c ∈ bits ↔ g.Takes c (g.child (g.node node).first)) ∧
      Answers g ((endings line bits (g.node node) 0 pos).findSome? fun p => κ (line.drop p)) walk r := by
  obtain ⟨bitmap, hbitmap, h⟩ := Option.bind_eq_some_iff.mp h
  obtain ⟨⟨m, hm⟩, htables⟩ := hready.tables.looked hbitmap
  have hbits : ∀ c, c ∈ bitmap.1 ↔ g.Takes c (g.child (g.node node).first) := fun c =>
    (Grammar.mem_matchedOctets hm).trans ⟨fun h => h.2, fun h => ⟨Grammar.mem_allOctets c, h⟩⟩
  refine ⟨bitmap.1, hbits, ?_⟩
  dsimp only at h
  split_ifs at h
  · obtain rfl := Option.some.inj h
    exact .givenUp htables rfl rfl rfl
  rw [takenFrom_eq hlow hhigh fun c => Iff.rfl] at h
  have hready' : (walk.scanned bitmap.2 (takenAtMost line bitmap.1 (mostMore line (g.node node).hi 0 pos) pos)).Ready g :=
    ⟨hready.even, htables⟩
  have hways : List.Forall₂ (fun take p => ∀ walk r, walk.Ready g →
      matchContinuation limits g line (atEnd line) k next (pos + take) walk = some r → Answers g (κ (line.drop p)) walk r)
      (countdown (takenAtMost line bitmap.1 (mostMore line (g.node node).hi 0 pos) pos) (g.node node).lo.toNat)
      (endings line bitmap.1 (g.node node) 0 pos) := by
    rw [endings, Nat.cast_zero, sub_zero, List.forall₂_map_right_iff, List.forall₂_same]
    intro take htake walk r hready h
    have hinside : pos + take ≤ line.length := by
      have hle := (mem_countdown.mp htake).2
      have hlen := (List.takeWhile_prefix (fun c => decide (c ∈ bitmap.1))
        (l := (line.drop pos).take (mostMore line (g.node node).hi 0 pos))).length_le.trans (List.length_take_le' _ _)
      rw [takenAtMost] at hle
      rw [List.length_drop] at hlen
      omega
    exact hk (.continuation next (pos + take)) walk r _ hready ⟨hinside, κ, hnext, rfl⟩ h
  exact (answers_firstOf hways hready' h).from rfl

/-- A node is answered as its pattern is searched. -/
theorem answers_inside (hk : AnswerCalls limits g line k) (hready : walk.Ready g)
    (hlooks : LooksFor g line (.node node :: next) pos x)
    (h : inside limits g line (atEnd line) k node pos next walk = some r) : Answers g x walk r := by
  obtain ⟨hpos, κ, hmeans, rfl⟩ := hlooks
  cases hmeans with
  | @node _ a _ κ hshape hnext =>
    have hfailed : some (false, walk) = some r → Answers g none walk r := by
      intro h
      obtain rfl := Option.some.inj h
      exact .failed hready.tables rfl rfl
    rw [inside] at h
    rcases hkind : (g.node node).kind <;> simp only [hkind] at h
    case reference =>
      obtain ⟨hroot, b, hrule, rfl⟩ := hshape.reference hkind
      rw [if_neg hroot] at h
      by_cases hcapture : (g.node node).capture = kNoCapture
      · rw [if_pos hcapture] at h ⊢
        exact hk (.node _ pos next) walk r _ hready ⟨hpos, _, .node hrule hnext, rfl⟩ h
      · rw [if_neg hcapture] at h ⊢
        have hanswers := hk (.node _ pos _) walk r _ hready ⟨hpos, _, .node hrule (.closeCapture hnext), rfl⟩ h
        have hpiece : ∀ rest : Str, piece line pos (line.length - rest.length) =
            (line.drop pos).take ((line.drop pos).length - rest.length) := by
          intro rest
          rw [piece, List.length_drop, Nat.sub_right_comm]
        simp only [hpiece] at hanswers
        rw [eval]
        change Answers g (Option.map id _) walk r
        rw [Option.map_id]
        exact hanswers
    case literal =>
      obtain rfl := hshape.literal hkind
      rw [eval_word]
      by_cases htext : asciiFold ((line.drop pos).take (g.literal (g.node node).literal).length) =
          asciiFold (g.literal (g.node node).literal)
      · have hlen : pos + (g.literal (g.node node).literal).length ≤ line.length := by
          have hlen := congrArg List.length htext
          rw [asciiFold, asciiFold, List.length_map, List.length_map, List.length_take, List.length_drop] at hlen
          omega
        rw [if_pos ⟨hlen, htext⟩] at h
        rw [if_pos htext, List.drop_drop]
        exact hk (.continuation next _) walk r _ hready ⟨hlen, κ, hnext, rfl⟩ h
      · rw [if_neg fun h => htext h.2] at h
        rw [if_neg htext]
        exact hfailed h
    case octetRange =>
      obtain rfl := hshape.octetRange hkind
      rcases hget : (line)[pos]? with _ | c
      · rw [hget, Option.any_none, if_neg Bool.false_ne_true] at h
        rw [List.drop_eq_nil_of_le (List.getElem?_eq_none_iff.mp hget)]
        exact hfailed h
      obtain ⟨hlt, hc⟩ := List.getElem?_eq_some_iff.mp hget
      rw [hget, Option.any_some] at h
      rw [List.drop_eq_getElem_cons hlt, hc, eval]
      have hin : inBits (rangeBits (g.node node).lo (g.node node).hi) c = true ↔
          (g.node node).lo ≤ c.toNat ∧ (c.toNat : ℤ) ≤ (g.node node).hi := decide_eq_true_iff.trans mem_rangeBits
      by_cases hrange : (g.node node).lo ≤ c.toNat ∧ (c.toNat : ℤ) ≤ (g.node node).hi
      · rw [if_pos (decide_eq_true hrange)] at h
        rw [if_pos (hin.mpr hrange)]
        exact hk (.continuation next _) walk r _ hready ⟨hlt, κ, hnext, rfl⟩ h
      · rw [if_neg (by simpa using hrange)] at h
        rw [if_neg fun hbits => hrange (hin.mp hbits)]
        exact hfailed h
    case sequence =>
      obtain ⟨as, has, rfl⟩ := hshape.sequence hkind
      exact hk (.sequence node 0 pos next) walk r _ hready ⟨hpos, _, .sequence has hnext, rfl⟩ h
    case alternation =>
      obtain ⟨as, has, rfl⟩ := hshape.alternation hkind
      rw [eval_alts]
      refine answers_firstOf (has.imp fun child a hchild walk r hready h => ?_) hready h
      exact hk (.node child pos next) walk r _ hready ⟨hpos, _, .node hchild hnext, rfl⟩ h
    case repetition =>
      refine hk (.repetition node 0 pos pos next) walk r _ hready ⟨hpos, ?_⟩ h
      obtain ⟨-, ⟨hlo, hhi, rfl⟩ | ⟨b, hchild, rfl⟩⟩ := hshape.repetition hkind
      · exact ⟨κ, .nothing hkind hlo hhi hnext, rfl⟩
      · refine ⟨_, .repetition hkind hchild hpos hnext, ?_⟩
        rw [resume_zero]
        rfl

/-- A node is answered from inside of it. -/
theorem answers_node (hk : AnswerCalls limits g line k) (hready : walk.Ready g)
    (hlooks : LooksFor g line (.node node :: next) pos x)
    (h : matchNode limits g line (atEnd line) (k + 1) node pos next walk = some r) : Answers g x walk r := by
  rw [matchNode] at h
  by_cases hexhausted : walk.exhausted = true
  · obtain rfl := Option.some.inj ((if_pos hexhausted).symm.trans h)
    exact .givenUp hready.tables rfl rfl hexhausted
  rw [if_neg hexhausted] at h
  by_cases hover : (limits.stepsOver (walk.steps + 1) || limits.tooDeep walk.depth) = true
  · obtain rfl := Option.some.inj ((if_pos hover).symm.trans h)
    exact .givenUp hready.tables rfl rfl rfl
  · obtain ⟨r', hinside, rfl⟩ := Option.map_eq_some_iff.mp ((if_neg hover).symm.trans h)
    have hentered : walk.entered.Ready g := ⟨hready.even, hready.tables⟩
    have hr' := answers_inside hk hentered hlooks hinside
    exact ⟨⟨hr'.genuine.tables, hr'.genuine.back, hr'.genuine.found⟩, hr'.complete⟩

/-- A sequence goes on with its next child. -/
theorem answers_sequence {childNo : ℕ} (hk : AnswerCalls limits g line k) (hready : walk.Ready g)
    (hlooks : LooksFor g line (.sequence node childNo :: next) pos x)
    (h : matchSequence limits g line (atEnd line) (k + 1) node childNo pos next walk = some r) : Answers g x walk r := by
  obtain ⟨hpos, κ, hmeans, rfl⟩ := hlooks
  have hlen : (g.childrenOf (g.node node)).length = (g.node node).count := by
    rw [childrenOf, List.length_map, List.length_range]
  rw [matchSequence] at h
  cases hmeans with
  | @sequence _ _ as _ κ has hnext =>
    by_cases hdone : (g.node node).count ≤ childNo
    · rw [List.drop_eq_nil_of_le (hlen.trans_le hdone), List.forall₂_nil_left_iff] at has
      subst has
      exact hk (.continuation next pos) walk r _ hready ⟨hpos, κ, hnext, rfl⟩ ((if_pos hdone).symm.trans h)
    · have hlt : childNo < (g.childrenOf (g.node node)).length := by omega
      have hget : (g.childrenOf (g.node node))[childNo] = g.child ((g.node node).first + childNo) := by
        simp [childrenOf]
      rw [List.drop_eq_getElem_cons hlt, hget] at has
      cases has with
      | cons ha has =>
        have hrest : Means g line (.sequence node (childNo + 1) :: next) _ := .sequence has hnext
        exact hk (.node _ pos _) walk r _ hready ⟨hpos, _, .node ha hrest, rfl⟩ ((if_neg hdone).symm.trans h)

section Calls

variable (hg : g.Accepted) (hb : g.EveryNode GrammarNode.BoundsFine)
  (hsize : ∀ i, (g.node i).kind = .repetition → (g.node i).hi < 2 ^ 64)
include hg hb hsize

/-- A repetition goes on in one of its branches. -/
theorem answers_repetition (hk : AnswerCalls limits g line k) (hready : walk.Ready g)
    (hlooks : LooksFor g line (.repetition node count start :: next) pos x)
    (h : matchRepetition limits g line (atEnd line) (k + 1) node count start pos next walk = some r) : Answers g x walk r := by
  rw [matchRepetition_succ] at h
  split_ifs at h with hexhausted
  · obtain rfl := Option.some.inj h
    exact .givenUp hready.tables rfl rfl hexhausted
  obtain ⟨asked, hasked, hbranch⟩ := Option.bind_eq_some_iff.mp h
  obtain ⟨hright, hfit, hcaptures⟩ := asksSingleOctet_spec hg ⟨by simpa using hexhausted, hready.tables⟩ ⟨k, hasked⟩
  have hready' : asked.2.Ready g := ⟨hready.even.congr hcaptures, hfit.tables⟩
  refine Answers.from ?_ hcaptures
  obtain ⟨hpos, κ, hmeans, rfl⟩ := hlooks
  cases hmeans with
  | nothing hkind hlo hhi hnext =>
    split_ifs at hbranch
    · obtain ⟨bits, -, hanswers⟩ := answers_bitmapBranch hk hready' hpos hnext hbranch (by rw [hhi]; decide) (hsize _ hkind)
      have hnone : takenAtMost line bits (mostMore line (g.node node).hi 0 pos) pos = 0 := by
        rw [hhi]
        rfl
      rw [endings_none hnone, if_pos (by simpa using hlo), findSome_cons] at hanswers
      rwa [List.findSome?_nil, Option.or_none] at hanswers
    · have hstop : ¬ Repeats g node 0 start pos := by
        rintro ⟨hmore, -⟩
        rw [hhi] at hmore
        revert hmore
        decide
      have hgoes := (if_neg hstop).symm.trans hbranch
      rw [Nat.cast_zero, if_pos hlo] at hgoes
      exact hk (.continuation next pos) asked.2 r _ hready' ⟨hpos, _, hnext, rfl⟩ hgoes
  | @repetition _ _ _ body _ κ hkind hbody hstart hnext =>
    split_ifs at hbranch with hsingle
    · obtain ⟨rfl, hchild⟩ := hright.mp hsingle
      have hlow : kUnbounded ≤ (g.node node).hi := by
        obtain ⟨hlo, hhi⟩ := boundsFine_node hb node hkind
        rw [kUnbounded] at hhi ⊢
        omega
      obtain ⟨bits, hbits, hanswers⟩ := answers_bitmapBranch hk hready' hpos hnext hbranch hlow (hsize _ hkind)
      rw [resume_zero, turns_of_isSymbol (hbody.isSymbol hchild)]
      · exact hanswers
      · exact fun c => (hbits c).trans (hbody.accepts_iff hchild c).symm
    · exact answers_generalBranch hk hready' hkind hbody hpos hstart hnext hbranch

/-- **Calls answer** what they look for, whatever the limits. -/
theorem answers_perform (k : ℕ) : AnswerCalls limits g line k := by
  induction k with
  | zero =>
    rintro (_ | _ | _ | _) walk r x - - h <;> simp [perform, matchContinuation, matchSequence, matchRepetition, matchNode] at h
  | succ k ih =>
    intro call walk r x hready hlooks h
    cases call with
    | continuation frames pos =>
      obtain ⟨hpos, κ, hmeans, rfl⟩ := hlooks
      by_cases hexhausted : walk.exhausted = true
      · have hgiven : matchContinuation limits g line (atEnd line) (k + 1) frames pos walk = some (false, walk) := by
          rcases frames with _ | ⟨_ | _ | _ | _, next⟩ <;> rw [matchContinuation, if_pos hexhausted]
        obtain rfl := Option.some.inj (hgiven.symm.trans h)
        exact .givenUp hready.tables rfl rfl hexhausted
      rcases frames with _ | ⟨frame, next⟩
      · rw [perform, matchContinuation, if_neg hexhausted] at h
        obtain rfl := Option.some.inj h
        cases hmeans
        by_cases hend : pos = line.length
        · have hfound : Machine.whenDone [] (line.drop pos) = some ([] : List Captured) := by
            rw [hend, List.drop_length]
            rfl
          refine ⟨⟨hready.tables, fun _ => rfl, fun _ => ⟨[], hfound, rfl⟩⟩, fun hfalse => ?_⟩
          exact absurd hend (of_decide_eq_false hfalse)
        · have hnone : Machine.whenDone [] (line.drop pos) = (none : Option (List Captured)) := by
            rw [List.drop_eq_getElem_cons (lt_of_le_of_ne hpos hend)]
            rfl
          rw [hnone]
          exact .failed hready.tables (decide_eq_false hend) rfl
      cases frame with
      | node node =>
        rw [perform, matchContinuation, if_neg hexhausted] at h
        exact ih (.node node pos next) walk r _ hready ⟨hpos, κ, hmeans, rfl⟩ h
      | sequence node childNo =>
        rw [perform, matchContinuation, if_neg hexhausted] at h
        exact ih (.sequence node childNo pos next) walk r _ hready ⟨hpos, κ, hmeans, rfl⟩ h
      | repetition node count start =>
        rw [perform, matchContinuation, if_neg hexhausted] at h
        exact ih (.repetition node count start pos next) walk r _ hready ⟨hpos, κ, hmeans, rfl⟩ h
      | closeCapture slot start =>
        rw [perform, matchContinuation, if_neg hexhausted] at h
        obtain ⟨r', hrest, rfl⟩ := Option.map_eq_some_iff.mp h
        cases hmeans with
        | @closeCapture _ _ _ κ hnext =>
          have hpushed : (walk.push slot (piece line start pos)).Ready g := ⟨hready.even.push slot _, hready.tables⟩
          have hr' := ih (.continuation next pos) _ r' _ hpushed ⟨hpos, κ, hnext, rfl⟩ hrest
          have hwhere : line.length - (line.drop pos).length = pos := by
            rw [List.length_drop]
            omega
          change Answers g ((κ (line.drop pos)).map ((slot, piece line start (line.length - (line.drop pos).length)) :: ·)) walk _
          rw [hwhere]
          exact hr'.closed hready
    | sequence node childNo pos next => exact answers_sequence ih hready hlooks h
    | repetition node count start pos next => exact answers_repetition hg hb hsize ih hready hlooks h
    | node node pos next => exact answers_node ih hready hlooks h

end Calls

/-! ### What is reported -/

end TreeMatcher

/-- The result that reports what was captured. -/
def Grammar.reported (g : Grammar) (caps : List Captured) : MatchResult where
  names := g.captureNames
  values := (List.range g.captureCount).map (textsOf caps)
  sequence := caps.map Prod.snd
  owners := caps.map fun cap => (cap.1 : ℤ)

theorem Grammar.captures_reported (g : Grammar) (caps : List Captured) :
    Captures.add (g.captureNames.map fun _ => [], [], []) caps =
      ((g.reported caps).values, (g.reported caps).sequence, (g.reported caps).owners) := by
  refine Prod.ext (List.ext_getElem? fun slot => ?_) (Prod.ext ?_ ?_)
  · rw [Captures.values_add]
    rcases Nat.lt_or_ge slot g.captureNames.length with hslot | hslot
    · simp [reported, captureCount, hslot]
    · simp [reported, captureCount, hslot]
  · rw [Captures.sequence_add, List.nil_append]
    rfl
  · rw [Captures.owners_add, List.nil_append]
    rfl

/-- **A rule is matched as its pattern is searched**, if it is matched or the walk was not given up. -/
theorem TreeMatcher.answers_run {limits : Limits} {g : Grammar} {line : Str} {k : ℕ} {rule : ℤ} {tables tables' : OctetTables}
    {result : Option MatchResult} {exhausted : Bool} {a : Pattern (Finset ℤ) ℤ} (hg : g.Accepted)
    (hb : g.EveryNode GrammarNode.BoundsFine) (hsize : ∀ i, (g.node i).kind = .repetition → (g.node i).hi < 2 ^ 64)
    (htables : g.Filled tables) (hroot : g.ruleRoot rule ≠ kNoRule) (hshape : g.Shape (g.ruleRoot rule).toNat a)
    (h : run limits g line k rule tables = some (result, exhausted, tables')) (hgoing : result.isSome = true ∨ exhausted = false) :
    result = (a.eval inBits treeNotes (Machine.whenDone []) line).map g.reported := by
  rw [run, if_neg hroot] at h
  obtain ⟨r, hr, hresult⟩ := Option.map_eq_some_iff.mp h
  obtain ⟨hresult, hexhausted⟩ := Prod.mk.inj hresult
  obtain ⟨hexhausted, -⟩ := Prod.mk.inj hexhausted
  have hready : ({ values := g.captureNames.map fun _ => [], tables := tables } : Walk).Ready g := ⟨rfl, htables.right hg⟩
  have hlooks : LooksFor g line [.node (g.ruleRoot rule).toNat] 0 (a.eval inBits treeNotes (Machine.whenDone []) line) :=
    ⟨Nat.zero_le _, _, .node hshape .nil, rfl⟩
  have hanswers := answers_perform hg hb hsize k (.node _ 0 []) _ r _ hready hlooks hr
  split_ifs at hresult with hfound
  · obtain ⟨caps, hcaps, hcaptures⟩ := hanswers.genuine.found hfound
    have hreported := hcaptures.trans (g.captures_reported caps)
    rw [← hresult, hcaps, Option.map_some]
    refine congrArg some ?_
    rw [Grammar.reported, MatchResult.mk.injEq]
    exact ⟨rfl, congrArg Prod.fst hreported, congrArg (·.2.1) hreported, congrArg (·.2.2) hreported⟩
  · subst hresult
    rw [hanswers.complete (by simpa using hfound) (hexhausted.trans (hgoing.resolve_left (by simp)))]
    rfl

end Abnf

end FtIrc
