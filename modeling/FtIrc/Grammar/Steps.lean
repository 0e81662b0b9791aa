import FtIrc.Grammar.OctetTables
import FtIrc.Library.Ways

/-!
# The steps of the interpreter

The interpreter without limits, its fuel forgotten: what a call comes to
(`FtIrc.Abnf.TreeMatcher.way`) is one step of what the calls it makes come to
(`FtIrc.Abnf.TreeMatcher.step`), in both directions (`FtIrc.Abnf.TreeMatcher.step_of_perform`,
`FtIrc.Abnf.TreeMatcher.way_of_step`). Walks whose tables are right and that are not given up stay so
(`FtIrc.Abnf.TreeMatcher.keepsFit_way`).
-/

namespace FtIrc

namespace Abnf

open Fuel Ways

/-- What was captured so far. -/
abbrev Captures := List (List Str) × List Str × List ℤ

/-- What a walk has captured so far. -/
def Walk.captures (walk : Walk) : Captures := (walk.values, walk.sequence, walk.owners)

/-- A walk that goes on, with tables that are right. -/
structure Walk.Fit (g : Grammar) (walk : Walk) : Prop where
  going : walk.exhausted = false
  tables : g.TablesRight walk.tables

/-- A walk inside of a node. -/
def Walk.entered (walk : Walk) : Walk := { walk with steps := walk.steps + 1, depth := walk.depth + 1 }

/-- A result outside of a node again. -/
def Outcome.returned (r : Outcome) : Outcome := (r.1, { r.2 with depth := r.2.depth - 1 })

/-- A walk with other tables, after so many octets were taken at once. -/
def Walk.scanned (walk : Walk) (tables : Grammar.OctetTables) (taken : ℕ) : Walk :=
  { walk with tables := tables, steps := walk.steps + taken }

variable {g : Grammar} {walk : Walk}

theorem Walk.Fit.scanned (h : walk.Fit g) {tables : Grammar.OctetTables} (htables : g.TablesRight tables) (taken : ℕ) :
    (walk.scanned tables taken).Fit g := ⟨h.going, htables⟩

theorem Walk.Fit.push (h : walk.Fit g) (slot : ℕ) (text : Str) : (walk.push slot text).Fit g := ⟨h.going, h.tables⟩

theorem Walk.Fit.entered (h : walk.Fit g) : walk.entered.Fit g := ⟨h.going, h.tables⟩

namespace TreeMatcher

variable {limits : Limits} {line : Str} {last : ℕ → Walk → Option Outcome} {k : ℕ}
  {node childNo count start pos : ℕ} {next frames : List Frame} {r : Outcome}

/-! ### The branches of a repetition and the cases of a node -/

/-- The branch of `matchRepetition` that takes octets by a bitmap. -/
def bitmapBranch (limits : Limits) (g : Grammar) (line : Str) (last : ℕ → Walk → Option Outcome) (k node pos : ℕ)
    (next : List Frame) (walk : Walk) : Option Outcome :=
  let n := g.node node
  (g.octetBitmap k (g.child n.first) walk.tables).bind fun bitmap =>
    let taken := takenFrom line bitmap.1 n.hi pos
    let walk := { walk with tables := bitmap.2, steps := walk.steps + taken }
    if limits.stepsOver walk.steps then some (false, { walk with exhausted := true })
    else
      firstOf (fun take walk => matchContinuation limits g line last k next (pos + take) walk) Outcome.final
        (countdown taken n.lo.toNat) walk

/-- The branch of `matchRepetition` that goes through its body. -/
def generalBranch (limits : Limits) (g : Grammar) (line : Str) (last : ℕ → Walk → Option Outcome)
    (k node count start pos : ℕ) (next : List Frame) (walk : Walk) : Option Outcome :=
  let n := g.node node
  let stop (walk : Walk) : Option Outcome :=
    if n.lo ≤ count then matchContinuation limits g line last k next pos walk else some (false, walk)
  if (n.hi = kUnbounded ∨ count < n.hi) ∧ ¬ (0 < count ∧ pos = start) then
    (matchNode limits g line last k (g.child n.first) pos (.repetition node (count + 1) pos :: next) walk).bind fun r =>
      if r.final then some r else stop r.2
  else stop walk

/-- `matchRepetition` asks for one of its branches. -/
theorem matchRepetition_succ : matchRepetition limits g line last (k + 1) node count start pos next walk =
    if walk.exhausted then some (false, walk)
    else
      (asksSingleOctet g k (g.child (g.node node).first) count walk).bind fun asked =>
        if asked.1 then bitmapBranch limits g line last k node pos next asked.2
        else generalBranch limits g line last k node count start pos next asked.2 := by
  rw [matchRepetition]
  rfl

/-- What `matchNode` does with a node. -/
def inside (limits : Limits) (g : Grammar) (line : Str) (last : ℕ → Walk → Option Outcome) (k node pos : ℕ)
    (next : List Frame) (walk : Walk) : Option Outcome :=
  let n := g.node node
  match n.kind with
  | .literal =>
    let text := g.literal n.literal
    if pos + text.length ≤ line.length ∧
        asciiFold ((line.drop pos).take text.length) = asciiFold text then
      matchContinuation limits g line last k next (pos + text.length) walk
    else some (false, walk)
  | .octetRange =>
    if (line)[pos]?.any fun c => decide (n.lo ≤ c.toNat ∧ (c.toNat : ℤ) ≤ n.hi) then
      matchContinuation limits g line last k next (pos + 1) walk
    else some (false, walk)
  | .reference =>
    let root := g.ruleRoot n.lo
    if root = kNoRule then some (false, walk)
    else if n.capture = kNoCapture then matchNode limits g line last k root.toNat pos next walk
    else matchNode limits g line last k root.toNat pos (.closeCapture n.capture.toNat pos :: next) walk
  | .sequence => matchSequence limits g line last k node 0 pos next walk
  | .alternation =>
    firstOf (fun child walk => matchNode limits g line last k child pos next walk) Outcome.final (g.childrenOf n) walk
  | .repetition => matchRepetition limits g line last k node 0 pos pos next walk

/-- Without limits, `matchNode` is what it does with the node. -/
theorem matchNode_succ (hgoing : walk.exhausted = false) :
    matchNode .unlimited g line last (k + 1) node pos next walk =
      (inside .unlimited g line last k node pos next walk.entered).map Outcome.returned := by
  rw [matchNode, if_neg (by simp [hgoing])]
  rfl

/-! ### Steadiness -/

theorem steady_bitmapBranch : Steady fun k => bitmapBranch limits g line last k node pos next walk := by
  intro k
  refine (g.steady_octetBitmap _ walk.tables k).bind fun bitmap => .ite (.refl _) ?_
  exact Refines.firstOf (fun take walk => steady_perform (.continuation next (pos + take)) walk k) _ _

theorem steady_generalBranch : Steady fun k => generalBranch limits g line last k node count start pos next walk := by
  intro k
  have hstop : ∀ walk, Refines
      (if (g.node node).lo ≤ count then matchContinuation limits g line last k next pos walk else some (false, walk))
      (if (g.node node).lo ≤ count then matchContinuation limits g line last (k + 1) next pos walk
        else some (false, walk)) :=
    fun walk => .ite (steady_perform (.continuation next pos) walk k) (.refl _)
  refine .ite ((steady_perform (.node _ pos (.repetition node (count + 1) pos :: next)) walk k).bind fun r => ?_) (hstop walk)
  exact .ite (.refl _) (hstop r.2)

theorem steady_inside : Steady fun k => inside limits g line last k node pos next walk := by
  intro k
  change Refines (inside limits g line last k node pos next walk) (inside limits g line last (k + 1) node pos next walk)
  rw [inside, inside]
  rcases (g.node node).kind
  · exact .ite (.refl _) (.ite (steady_perform (.node _ pos next) walk k) (steady_perform (.node _ pos _) walk k))
  · exact .ite (steady_perform (.continuation next _) walk k) (.refl _)
  · exact .ite (steady_perform (.continuation next _) walk k) (.refl _)
  · exact steady_perform (.sequence node 0 pos next) walk k
  · exact Refines.firstOf (fun child walk => steady_perform (.node child pos next) walk k) _ _
  · exact steady_perform (.repetition node 0 pos pos next) walk k

/-! ### The equations of the interpreter -/

/-- What fails at once. -/
def fails : Way Walk := fun walk r => r = (false, walk)

/-- What the branch that takes octets by a bitmap comes to, by what calls come to. -/
def bitmapStep (g : Grammar) (line : Str) (go : Call → Way Walk) (node pos : ℕ) (next : List Frame) : Way Walk :=
  fun walk r => ∃ bitmap, Gives (fun k => g.octetBitmap k (g.child (g.node node).first) walk.tables) bitmap ∧
    first ((countdown (takenFrom line bitmap.1 (g.node node).hi pos) (g.node node).lo.toNat).map fun take =>
      go (.continuation next (pos + take)))
      (walk.scanned bitmap.2 (takenFrom line bitmap.1 (g.node node).hi pos)) r

/-- Whether a body may be matched once more. -/
abbrev Repeats (g : Grammar) (node count start pos : ℕ) : Prop :=
  ((g.node node).hi = kUnbounded ∨ count < (g.node node).hi) ∧ ¬ (0 < count ∧ pos = start)

/-- The ways of the branch that goes through a body. -/
def generalWays (g : Grammar) (go : Call → Way Walk) (node count start pos : ℕ) (next : List Frame) : List (Way Walk) :=
  (if Repeats g node count start pos then
    [go (.node (g.child (g.node node).first) pos (.repetition node (count + 1) pos :: next))] else []) ++
  if (g.node node).lo ≤ count then [go (.continuation next pos)] else []

/-- What is done with a node, by what calls come to. -/
def insideStep (g : Grammar) (line : Str) (go : Call → Way Walk) (node pos : ℕ) (next : List Frame) : Way Walk :=
  let n := g.node node
  match n.kind with
  | .literal =>
    let text := g.literal n.literal
    if pos + text.length ≤ line.length ∧
        asciiFold ((line.drop pos).take text.length) = asciiFold text then
      go (.continuation next (pos + text.length))
    else fails
  | .octetRange =>
    if (line)[pos]?.any fun c => decide (n.lo ≤ c.toNat ∧ (c.toNat : ℤ) ≤ n.hi) then
      go (.continuation next (pos + 1))
    else fails
  | .reference =>
    let root := g.ruleRoot n.lo
    if root = kNoRule then fails
    else if n.capture = kNoCapture then go (.node root.toNat pos next)
    else go (.node root.toNat pos (.closeCapture n.capture.toNat pos :: next))
  | .sequence => go (.sequence node 0 pos next)
  | .alternation => first ((g.childrenOf n).map fun child => go (.node child pos next))
  | .repetition => go (.repetition node 0 pos pos next)

/-- **What a call comes to**, by what the calls it makes come to. -/
def step (g : Grammar) (line : Str) (last : ℕ → Walk → Option Outcome) (go : Call → Way Walk) : Call → Way Walk
  | .continuation [] pos => fun walk r => last pos walk = some r
  | .continuation (.node node :: next) pos => go (.node node pos next)
  | .continuation (.sequence node childNo :: next) pos => go (.sequence node childNo pos next)
  | .continuation (.repetition node count start :: next) pos => go (.repetition node count start pos next)
  | .continuation (.closeCapture slot start :: next) pos => fun walk r =>
    ∃ r', go (.continuation next pos) (walk.push slot ((line.drop start).take (pos - start))) r' ∧
      r = if r'.1 then r' else (false, r'.2.takeBack slot walk)
  | .sequence node childNo pos next =>
    if (g.node node).count ≤ childNo then go (.continuation next pos)
    else go (.node (g.child ((g.node node).first + childNo)) pos (.sequence node (childNo + 1) :: next))
  | .repetition node count start pos next => fun walk r =>
    ∃ asked, Gives (fun k => asksSingleOctet g k (g.child (g.node node).first) count walk) asked ∧
      if asked.1 then bitmapStep g line go node pos next asked.2 r
      else first (generalWays g go node count start pos next) asked.2 r
  | .node node pos next => fun walk r => ∃ r', insideStep g line go node pos next walk.entered r' ∧ r = Outcome.returned r'

/-- What a call comes to without limits. -/
def way (g : Grammar) (line : Str) (last : ℕ → Walk → Option Outcome) (call : Call) : Way Walk :=
  fun walk r => Gives (fun k => perform .unlimited g line last k call walk) r

/-! ### Walks that stay fit -/

/-- What is done at the end keeps walks fit. -/
def KeepsFit (g : Grammar) (go : Way Walk) : Prop := ∀ {walk r}, walk.Fit g → go walk r → r.2.Fit g

theorem keepsFit_first {ways : List (Way Walk)} (h : ∀ W ∈ ways, KeepsFit g W) : KeepsFit g (first ways) := by
  intro walk r hfit hfirst
  induction hfirst with
  | none => exact hfit
  | hit hgo _ => exact h _ List.mem_cons_self hfit hgo
  | miss hgo _ _ ih => exact ih (fun W hW => h W (List.mem_cons_of_mem _ hW)) (h _ List.mem_cons_self hfit hgo)

theorem keepsFit_fails : KeepsFit g fails := by
  rintro walk _ hfit rfl
  exact hfit

/-- The question for single octets keeps a walk fit, and its answer is right. -/
theorem asksSingleOctet_spec (hg : g.Accepted) (hfit : walk.Fit g) {child : ℕ} {asked : Bool × Walk}
    (h : Gives (fun k => asksSingleOctet g k child count walk) asked) :
    (asked.1 = true ↔ count = 0 ∧ g.Single child) ∧ asked.2.Fit g ∧ asked.2.captures = walk.captures := by
  obtain ⟨k, h⟩ := h
  change asksSingleOctet g k child count walk = some asked at h
  rw [asksSingleOctet] at h
  split_ifs at h with hcount
  · obtain ⟨answer, hanswer, rfl⟩ := Option.map_eq_some_iff.mp h
    obtain ⟨hright, htables⟩ := hfit.tables.asked hg hanswer
    exact ⟨by simp [hcount, hright], ⟨hfit.going, htables⟩, rfl⟩
  · obtain rfl := Option.some.inj h
    exact ⟨by simp [hcount], hfit, rfl⟩

theorem keepsFit_bitmapStep {go : Call → Way Walk} (hgo : ∀ call, KeepsFit g (go call)) :
    KeepsFit g (bitmapStep g line go node pos next) := by
  rintro walk r hfit ⟨bitmap, ⟨k, hbitmap⟩, hfirst⟩
  obtain ⟨-, htables⟩ := hfit.tables.looked hbitmap
  refine keepsFit_first (fun W hW => ?_) (hfit.scanned htables _) hfirst
  obtain ⟨take, -, rfl⟩ := List.mem_map.mp hW
  exact hgo _

theorem mem_generalWays {go : Call → Way Walk} {W : Way Walk} (hW : W ∈ generalWays g go node count start pos next) :
    ∃ call, W = go call := by
  rw [generalWays] at hW
  split_ifs at hW <;> simp only [List.cons_append, List.nil_append, List.mem_cons, List.not_mem_nil, or_false] at hW
  · rcases hW with rfl | rfl
    · exact ⟨_, rfl⟩
    · exact ⟨_, rfl⟩
  · exact ⟨_, hW⟩
  · exact ⟨_, hW⟩

theorem keepsFit_insideStep {go : Call → Way Walk} (hgo : ∀ call, KeepsFit g (go call)) :
    KeepsFit g (insideStep g line go node pos next) := by
  intro walk r hfit hinside
  rw [insideStep] at hinside
  rcases hkind : (g.node node).kind <;> simp only [hkind] at hinside
  · split_ifs at hinside
    · exact keepsFit_fails hfit hinside
    · exact hgo _ hfit hinside
    · exact hgo _ hfit hinside
  · split_ifs at hinside
    · exact hgo _ hfit hinside
    · exact keepsFit_fails hfit hinside
  · split_ifs at hinside
    · exact hgo _ hfit hinside
    · exact keepsFit_fails hfit hinside
  · exact hgo _ hfit hinside
  · refine keepsFit_first (fun W hW => ?_) hfit hinside
    obtain ⟨child, -, rfl⟩ := List.mem_map.mp hW
    exact hgo _
  · exact hgo _ hfit hinside

variable (hg : g.Accepted)
include hg

/-- **A step keeps walks fit**, if the calls it makes do. -/
theorem keepsFit_step {go : Call → Way Walk} (hgo : ∀ call, KeepsFit g (go call))
    (hlast : ∀ pos, KeepsFit g fun walk r => last pos walk = some r) (call : Call) :
    KeepsFit g (step g line last go call) := by
  intro walk r hfit hstep
  cases call with
  | continuation frames pos =>
    rcases frames with _ | ⟨frame, next⟩
    · exact hlast pos hfit hstep
    cases frame with
    | node node => exact hgo _ hfit hstep
    | sequence node childNo => exact hgo _ hfit hstep
    | repetition node count start => exact hgo _ hfit hstep
    | closeCapture slot start =>
      obtain ⟨r', hgo', rfl⟩ := hstep
      have hfit' := hgo _ (hfit.push slot _) hgo'
      split_ifs
      · exact hfit'
      · exact ⟨hfit'.going, hfit'.tables⟩
  | sequence node childNo pos next =>
    rw [step] at hstep
    split_ifs at hstep
    · exact hgo _ hfit hstep
    · exact hgo _ hfit hstep
  | repetition node count start pos next =>
    obtain ⟨asked, hasked, hbranch⟩ := hstep
    obtain ⟨-, hfit', -⟩ := asksSingleOctet_spec hg hfit hasked
    split_ifs at hbranch
    · exact keepsFit_bitmapStep hgo hfit' hbranch
    · refine keepsFit_first (fun W hW => ?_) hfit' hbranch
      obtain ⟨call, rfl⟩ := mem_generalWays hW
      exact hgo call
  | node node pos next =>
    obtain ⟨r', hinside, rfl⟩ := hstep
    have hfit' := keepsFit_insideStep hgo hfit.entered hinside
    exact ⟨hfit'.going, hfit'.tables⟩

omit hg in
theorem final_of_fit {r : Outcome} (h : r.2.Fit g) : r.final = r.1 := by
  rw [Outcome.final, h.going, Bool.or_false]

omit hg in
/-- A loop over calls tries them one after the other. -/
theorem first_of_loop {go : Call → Way Walk} (hgo : ∀ call, KeepsFit g (go call)) (hfit : walk.Fit g)
    (hk : ∀ call walk r, perform .unlimited g line last k call walk = some r → go call walk r)
    {α : Type} {calls : α → Call} {as : List α}
    (h : firstOf (fun a walk => perform .unlimited g line last k (calls a) walk) Outcome.final as walk = some r) :
    first (as.map fun a => go (calls a)) walk r :=
  first_of_firstOf (fun _ => final_of_fit) (fun a walk r hbody => hk (calls a) walk r hbody)
    (fun a _ _ hfit hbody => hgo (calls a) hfit hbody) hfit h

omit hg in
/-- The branch that takes octets by a bitmap tries what is to come after so many of them. -/
theorem bitmapStep_of_bitmapBranch {go : Call → Way Walk} (hgo : ∀ call, KeepsFit g (go call)) (hfit : walk.Fit g)
    (hk : ∀ call walk r, perform .unlimited g line last k call walk = some r → go call walk r)
    (h : bitmapBranch .unlimited g line last k node pos next walk = some r) :
    bitmapStep g line go node pos next walk r := by
  obtain ⟨bitmap, hbitmap, h⟩ := Option.bind_eq_some_iff.mp h
  obtain ⟨-, htables⟩ := hfit.tables.looked hbitmap
  exact ⟨bitmap, ⟨k, hbitmap⟩, first_of_loop hgo (hfit.scanned htables _) hk h⟩

omit hg in
/-- The branch through the body tries its ways one after the other. -/
theorem first_of_generalBranch {go : Call → Way Walk} (hgo : ∀ call, KeepsFit g (go call)) (hfit : walk.Fit g)
    (hk : ∀ call walk r, perform .unlimited g line last k call walk = some r → go call walk r)
    (h : generalBranch .unlimited g line last k node count start pos next walk = some r) :
    first (generalWays g go node count start pos next) walk r := by
  have hstop : ∀ {walk r}, (if (g.node node).lo ≤ count then
      matchContinuation .unlimited g line last k next pos walk else some (false, walk)) = some r →
      first (if (g.node node).lo ≤ count then [go (.continuation next pos)] else []) walk r := by
    intro walk r h
    split_ifs at h ⊢
    · rw [first_singleton]
      exact hk (.continuation next pos) walk r h
    · obtain rfl := Option.some.inj h
      exact .none
  rw [generalWays]
  by_cases hrepeats : Repeats g node count start pos
  · obtain ⟨r₁, hbody, h⟩ := Option.bind_eq_some_iff.mp ((if_pos hrepeats).symm.trans h)
    have hbody : go (.node _ pos (.repetition node (count + 1) pos :: next)) walk r₁ := hk (.node _ pos _) walk r₁ hbody
    rw [final_of_fit (hgo _ hfit hbody)] at h
    rw [if_pos hrepeats]
    cases hr : r₁.1 with
    | true =>
      rw [hr, if_pos rfl] at h
      obtain rfl := Option.some.inj h
      exact .hit hbody hr
    | false =>
      rw [hr, if_neg Bool.false_ne_true] at h
      exact .miss hbody hr (hstop h)
  · rw [if_neg hrepeats]
    exact hstop ((if_neg hrepeats).symm.trans h)

/-- **A call with fuel is a step** of calls with less. -/
theorem step_of_perform {go : Call → Way Walk} (hgo : ∀ call, KeepsFit g (go call)) (hfit : walk.Fit g)
    (hk : ∀ call walk r, perform .unlimited g line last k call walk = some r → go call walk r) {call : Call}
    (h : perform .unlimited g line last (k + 1) call walk = some r) : step g line last go call walk r := by
  cases call with
  | continuation frames pos =>
    rcases frames with _ | ⟨frame, next⟩
    · rw [perform, matchContinuation, hfit.going, if_neg Bool.false_ne_true] at h
      exact h
    cases frame with
    | node node =>
      rw [perform, matchContinuation, hfit.going, if_neg Bool.false_ne_true] at h
      exact hk (.node node pos next) walk r h
    | sequence node childNo =>
      rw [perform, matchContinuation, hfit.going, if_neg Bool.false_ne_true] at h
      exact hk (.sequence node childNo pos next) walk r h
    | repetition node count start =>
      rw [perform, matchContinuation, hfit.going, if_neg Bool.false_ne_true] at h
      exact hk (.repetition node count start pos next) walk r h
    | closeCapture slot start =>
      rw [perform, matchContinuation, hfit.going, if_neg Bool.false_ne_true] at h
      obtain ⟨r', hrest, rfl⟩ := Option.map_eq_some_iff.mp h
      exact ⟨r', hk (.continuation next pos) _ r' hrest, rfl⟩
  | sequence node childNo pos next =>
    rw [perform, matchSequence] at h
    rw [step]
    split_ifs at h ⊢
    · exact hk (.continuation next pos) walk r h
    · exact hk (.node _ pos _) walk r h
  | repetition node count start pos next =>
    rw [perform, matchRepetition_succ, hfit.going, if_neg Bool.false_ne_true] at h
    obtain ⟨asked, hasked, h⟩ := Option.bind_eq_some_iff.mp h
    obtain ⟨-, hfit', -⟩ := asksSingleOctet_spec hg hfit ⟨k, hasked⟩
    refine ⟨asked, ⟨k, hasked⟩, ?_⟩
    split_ifs at h ⊢
    · exact bitmapStep_of_bitmapBranch hgo hfit' hk h
    · exact first_of_generalBranch hgo hfit' hk h
  | node node pos next =>
    rw [perform, matchNode_succ hfit.going] at h
    obtain ⟨r', hinside, rfl⟩ := Option.map_eq_some_iff.mp h
    clear h
    refine ⟨r', ?_, rfl⟩
    rw [inside] at hinside
    rw [insideStep]
    rcases hkind : (g.node node).kind <;> simp only [hkind] at hinside ⊢
    · split_ifs at hinside ⊢
      · exact (Option.some.inj hinside).symm
      · exact hk (.node _ pos next) _ r' hinside
      · exact hk (.node _ pos _) _ r' hinside
    · split_ifs at hinside ⊢
      · exact hk (.continuation next _) _ r' hinside
      · exact (Option.some.inj hinside).symm
    · split_ifs at hinside ⊢
      · exact hk (.continuation next _) _ r' hinside
      · exact (Option.some.inj hinside).symm
    · exact hk (.sequence node 0 pos next) _ r' hinside
    · exact first_of_loop hgo hfit.entered hk hinside
    · exact hk (.repetition node 0 pos pos next) _ r' hinside

/-- **A call with fuel keeps walks fit.** -/
theorem keepsFit_way (hlast : ∀ pos, KeepsFit g fun walk r => last pos walk = some r) (call : Call) :
    KeepsFit g (way g line last call) := by
  have hfuel : ∀ k call, KeepsFit g fun walk r => perform .unlimited g line last k call walk = some r := by
    intro k
    induction k with
    | zero =>
      rintro (_ | _ | _ | _) walk r _ h <;> simp [perform, matchContinuation, matchSequence, matchRepetition, matchNode] at h
    | succ k ih =>
      intro call walk r hfit h
      exact keepsFit_step hg ih hlast call hfit (step_of_perform hg ih hfit (fun _ _ _ h => h) h)
  rintro walk r hfit ⟨k, h⟩
  exact hfuel k call hfit h

/-- The branch that takes octets by a bitmap tries what is to come after so many octets. -/
theorem gives_bitmapBranch (hlast : ∀ pos, KeepsFit g fun walk r => last pos walk = some r) (hfit : walk.Fit g)
    (h : bitmapStep g line (way g line last) node pos next walk r) :
    Gives (fun k => bitmapBranch .unlimited g line last k node pos next walk) r := by
  obtain ⟨bitmap, hbitmap, hfirst⟩ := h
  obtain ⟨k, hk⟩ := hbitmap
  obtain ⟨-, htables⟩ := hfit.tables.looked hk
  refine (gives_bind_iff (g.steady_octetBitmap _ walk.tables) fun bitmap k => ?_).mpr ⟨bitmap, ⟨k, hk⟩, ?_⟩
  · refine .ite (.refl _) (Refines.firstOf (fun take walk => ?_) _ _)
    exact steady_perform (.continuation next (pos + take)) walk k
  · exact gives_firstOf (fun _ => final_of_fit) (fun take walk => steady_perform (.continuation next (pos + take)) walk)
      (fun take walk r hfit hbody => keepsFit_way hg hlast _ hfit hbody) (hfit.scanned htables _) hfirst

/-- The branch through the body tries its ways. -/
theorem gives_generalBranch (hlast : ∀ pos, KeepsFit g fun walk r => last pos walk = some r) (hfit : walk.Fit g)
    (h : first (generalWays g (way g line last) node count start pos next) walk r) :
    Gives (fun k => generalBranch .unlimited g line last k node count start pos next walk) r := by
  have hstop : ∀ {walk r}, first (if (g.node node).lo ≤ count then [way g line last (.continuation next pos)] else []) walk r →
      Gives (fun k => if (g.node node).lo ≤ count then matchContinuation .unlimited g line last k next pos walk
        else some (false, walk)) r := by
    intro walk r h
    split_ifs at h ⊢
    · rwa [first_singleton] at h
    · cases h
      exact gives_pure_iff.mpr rfl
  have hsteady : ∀ walk, Steady fun k => if (g.node node).lo ≤ count then
      matchContinuation .unlimited g line last k next pos walk else some (false, walk) :=
    fun walk k => .ite (steady_perform (.continuation next pos) walk k) (.refl _)
  rw [generalWays] at h
  by_cases hrepeats : Repeats g node count start pos
  · rw [if_pos hrepeats] at h
    have hbranch : ∀ k, generalBranch .unlimited g line last k node count start pos next walk =
        (matchNode .unlimited g line last k (g.child (g.node node).first) pos
          (.repetition node (count + 1) pos :: next) walk).bind fun r : Outcome => if r.final then some r else
            if (g.node node).lo ≤ count then matchContinuation .unlimited g line last k next pos r.2
              else some (false, r.2) := fun k => by
      rw [generalBranch]
      exact if_pos hrepeats
    have hnext : ∀ r₁ : Outcome, Steady fun k => if r₁.final then some r₁ else
        if (g.node node).lo ≤ count then matchContinuation .unlimited g line last k next pos r₁.2 else some (false, r₁.2) :=
      fun r₁ k => .ite (.refl _) (hsteady r₁.2 k)
    simp only [hbranch]
    refine (gives_bind_iff (steady_perform (.node _ pos _) walk) hnext).mpr ?_
    cases h with
    | hit hbody hr =>
      refine ⟨r, hbody, ?_⟩
      simp only [final_of_fit (keepsFit_way hg hlast _ hfit hbody), hr, if_true]
      exact gives_pure_iff.mpr rfl
    | @miss _ _ _ r₁ _ hbody hr hrest =>
      refine ⟨r₁, hbody, ?_⟩
      simp only [final_of_fit (keepsFit_way hg hlast _ hfit hbody), hr, Bool.false_eq_true, if_false]
      exact hstop hrest
  · rw [if_neg hrepeats] at h
    have hbranch : ∀ k, generalBranch .unlimited g line last k node count start pos next walk =
        if (g.node node).lo ≤ count then matchContinuation .unlimited g line last k next pos walk
          else some (false, walk) := fun k => by
      rw [generalBranch]
      exact if_neg hrepeats
    simp only [hbranch]
    exact hstop h

/-- **A step of calls is a call.** -/
theorem way_of_step (hlast : ∀ pos, KeepsFit g fun walk r => last pos walk = some r) (hfit : walk.Fit g) {call : Call}
    (h : step g line last (way g line last) call walk r) : way g line last call walk r := by
  have hkeeps : ∀ call, KeepsFit g (way g line last call) := keepsFit_way hg hlast
  have hfirst : ∀ {α : Type} {calls : α → Call} {as : List α} {walk : Walk} {r : Outcome}, walk.Fit g →
      first (as.map fun a => way g line last (calls a)) walk r →
      Gives (fun k => firstOf (fun a walk => perform .unlimited g line last k (calls a) walk) Outcome.final as walk) r := by
    intro α calls as walk r hfit h
    exact gives_firstOf (fun _ => final_of_fit) (fun a walk => steady_perform (calls a) walk)
      (fun a walk r hfit hbody => hkeeps (calls a) hfit hbody) hfit h
  refine (gives_succ_iff (steady_perform call walk)).mp ?_
  cases call with
  | continuation frames pos =>
    rcases frames with _ | ⟨frame, next⟩
    · simp only [perform, matchContinuation, hfit.going, Bool.false_eq_true, if_false]
      exact ⟨0, h⟩
    cases frame with
    | node node =>
      simp only [perform, matchContinuation, hfit.going, Bool.false_eq_true, if_false]
      exact h
    | sequence node childNo =>
      simp only [perform, matchContinuation, hfit.going, Bool.false_eq_true, if_false]
      exact h
    | repetition node count start =>
      simp only [perform, matchContinuation, hfit.going, Bool.false_eq_true, if_false]
      exact h
    | closeCapture slot start =>
      simp only [perform, matchContinuation, hfit.going, Bool.false_eq_true, if_false]
      obtain ⟨r', hgo, rfl⟩ := h
      exact gives_map_iff.mpr ⟨r', hgo, rfl⟩
  | sequence node childNo pos next =>
    simp only [perform, matchSequence]
    rw [step] at h
    split_ifs at h ⊢
    · exact h
    · exact h
  | repetition node count start pos next =>
    simp only [perform, matchRepetition_succ, hfit.going, Bool.false_eq_true, if_false]
    obtain ⟨asked, hasked, h⟩ := h
    obtain ⟨-, hfit', -⟩ := asksSingleOctet_spec hg hfit hasked
    refine (gives_bind_iff (steady_asksSingleOctet g _ count walk) fun asked k => ?_).mpr ⟨asked, hasked, ?_⟩
    · exact .ite (steady_bitmapBranch k) (steady_generalBranch k)
    · by_cases hsingle : asked.1 = true
      · simp only [hsingle, if_true] at h ⊢
        exact gives_bitmapBranch hg hlast hfit' h
      · simp only [hsingle] at h ⊢
        exact gives_generalBranch hg hlast hfit' h
  | node node pos next =>
    simp only [perform, matchNode_succ hfit.going]
    obtain ⟨r', h, rfl⟩ := h
    refine gives_map_iff.mpr ⟨r', ?_, rfl⟩
    rw [insideStep] at h
    simp only [inside]
    rcases hkind : (g.node node).kind <;> simp only [hkind] at h ⊢
    · split_ifs at h ⊢
      · exact gives_pure_iff.mpr h.symm
      · exact h
      · exact h
    · split_ifs at h ⊢
      · exact h
      · exact gives_pure_iff.mpr h.symm
    · split_ifs at h ⊢
      · exact h
      · exact gives_pure_iff.mpr h.symm
    · exact h
    · exact hfirst hfit.entered h
    · exact h

end TreeMatcher

end Abnf

end FtIrc
