import FtIrc.Grammar.Derivation
import FtIrc.Grammar.SameWalk
import FtIrc.Grammar.Stored

/-!
# What the interpreter reports

With any limits, a call of the interpreter that succeeds has derived the rest of the line from what was
still to come, and captured just what that derivation captures; one that fails has captured nothing
(`FtIrc.Abnf.TreeMatcher.Genuine`). This goes by induction on the fuel, one function of the
interpreter after the other (`FtIrc.Abnf.TreeMatcher.genuine_perform`). So a text whose numbers are
stored as they are written has only genuine parses (`FtIrc.Abnf.onlyGenuine_of_small`).
-/

namespace FtIrc

namespace Abnf

open Fuel Grammar

/-- What is captured besides. -/
def Captures.add (captures : Captures) (caps : List Captured) : Captures :=
  caps.foldl (fun c cap => (c.1.modify cap.1 (· ++ [cap.2]), c.2.1 ++ [cap.2], c.2.2 ++ [(cap.1 : ℤ)])) captures

theorem Captures.add_append (captures : Captures) (caps caps' : List Captured) :
    captures.add (caps ++ caps') = (captures.add caps).add caps' := List.foldl_append

@[simp]
theorem Captures.sequence_add (captures : Captures) (caps : List Captured) :
    (captures.add caps).2.1 = captures.2.1 ++ caps.map Prod.snd := by
  induction caps generalizing captures with
  | nil => exact (List.append_nil _).symm
  | cons cap caps ih =>
    rw [add, List.foldl_cons, ← add, ih, List.map_cons, List.append_assoc]
    rfl

@[simp]
theorem Captures.owners_add (captures : Captures) (caps : List Captured) :
    (captures.add caps).2.2 = captures.2.2 ++ caps.map fun cap => (cap.1 : ℤ) := by
  induction caps generalizing captures with
  | nil => exact (List.append_nil _).symm
  | cons cap caps ih =>
    rw [add, List.foldl_cons, ← add, ih, List.map_cons, List.append_assoc]
    rfl

/-- The texts captured in a slot, in their order. -/
def textsOf (caps : List Captured) (slot : ℕ) : List Str := (caps.filter fun cap => cap.1 = slot).map Prod.snd

theorem Captures.values_add (captures : Captures) (caps : List Captured) (slot : ℕ) :
    (captures.add caps).1[slot]? = captures.1[slot]?.map (· ++ textsOf caps slot) := by
  induction caps generalizing captures with
  | nil => simp [add, textsOf]
  | cons cap caps ih =>
    rw [add, List.foldl_cons, ← add, ih, List.getElem?_modify, Option.map_eq_map, Option.map_map]
    refine congrArg (Option.map · captures.1[slot]?) (funext fun texts => ?_)
    by_cases hcap : cap.1 = slot <;> simp [textsOf, hcap]

theorem Walk.captures_push (walk : Walk) (slot : ℕ) (text : Str) :
    (walk.push slot text).captures = walk.captures.add [(slot, text)] := rfl

/-- A walk with as many texts as owners, and tables that are right. -/
structure Walk.Ready (g : Grammar) (walk : Walk) : Prop where
  even : walk.Even
  tables : g.TablesRight walk.tables

namespace TreeMatcher

variable {limits : Limits} {g : Grammar} {line : Str} {walk walk' : Walk} {r : Outcome} {k node count start pos : ℕ}
  {next : List Frame} {P P' : List Captured → Prop}

/-- **What a call comes to is genuine**: where it succeeds, just what a derivation captures was captured
besides, and nothing where it fails. -/
structure Genuine (g : Grammar) (P : List Captured → Prop) (walk : Walk) (r : Outcome) : Prop where
  tables : g.TablesRight r.2.tables
  back : r.1 = false → r.2.captures = walk.captures
  found : r.1 = true → ∃ caps, P caps ∧ r.2.captures = walk.captures.add caps

theorem Genuine.mono (h : Genuine g P walk r) (hP : ∀ caps, P caps → P' caps) : Genuine g P' walk r := by
  refine ⟨h.tables, h.back, fun hr => ?_⟩
  obtain ⟨caps, hcaps, hcaptures⟩ := h.found hr
  exact ⟨caps, hP caps hcaps, hcaptures⟩

theorem Genuine.failed (h : g.TablesRight r.2.tables) (hr : r.1 = false) (hcaptures : r.2.captures = walk.captures) :
    Genuine g P walk r := ⟨h, fun _ => hcaptures, fun htrue => absurd (hr.symm.trans htrue) Bool.false_ne_true⟩

/-- From a walk that has captured the same. -/
theorem Genuine.from (h : Genuine g P walk r) (hcaptures : walk.captures = walk'.captures) : Genuine g P walk' r :=
  ⟨h.tables, fun hr => (h.back hr).trans hcaptures, fun hr => by rw [← hcaptures]; exact h.found hr⟩

theorem Genuine.ready (h : Genuine g P walk r) (hr : r.1 = false) (hready : walk.Ready g) : r.2.Ready g :=
  ⟨hready.even.congr (h.back hr), h.tables⟩

/-- A loop over several ways is genuine if its body is. -/
theorem genuine_firstOf {α : Type} {body : α → Walk → Option Outcome} {as : List α}
    (hbody : ∀ a ∈ as, ∀ walk r, walk.Ready g → body a walk = some r → Genuine g P walk r) (hready : walk.Ready g)
    (h : firstOf body Outcome.final as walk = some r) : Genuine g P walk r := by
  induction as generalizing walk with
  | nil =>
    obtain rfl := Option.some.inj h
    exact .failed hready.tables rfl rfl
  | cons a as ih =>
    obtain ⟨r₁, ha, h⟩ := Option.bind_eq_some_iff.mp h
    have hr₁ := hbody a List.mem_cons_self walk r₁ hready ha
    split_ifs at h with hfinal
    · obtain rfl := Option.some.inj h
      exact hr₁
    · have hfalse : r₁.1 = false := by
        rw [Outcome.final, Bool.or_eq_true, not_or] at hfinal
        exact Bool.eq_false_iff.mpr hfinal.1
      have hrest := ih (fun a' ha' => hbody a' (List.mem_cons_of_mem a ha')) (hr₁.ready hfalse hready) h
      exact hrest.from (hr₁.back hfalse)

/-- What a call derives where it succeeds. -/
def Call.Derived (g : Grammar) (line : Str) : Call → List Captured → Prop
  | .continuation frames pos => g.Rest line frames pos
  | .sequence node childNo pos next => g.Rest line (.sequence node childNo :: next) pos
  | .repetition node count start pos next => g.Rest line (.repetition node count start :: next) pos
  | .node node pos next => g.Rest line (.node node :: next) pos

/-- Calls with less fuel are genuine. -/
def GenuineCalls (limits : Limits) (g : Grammar) (line : Str) (k : ℕ) : Prop :=
  ∀ call walk r, walk.Ready g → perform limits g line (atEnd line) k call walk = some r →
    Genuine g (call.Derived g line) walk r

theorem genuine_generalBranch (hk : GenuineCalls limits g line k) (hready : walk.Ready g)
    (h : generalBranch limits g line (atEnd line) k node count start pos next walk = some r) :
    Genuine g (g.Rest line (.repetition node count start :: next) pos) walk r := by
  have hstop : ∀ walk r, walk.Ready g → (if (g.node node).lo ≤ count then
      matchContinuation limits g line (atEnd line) k next pos walk else some (false, walk)) = some r →
      Genuine g (g.Rest line (.repetition node count start :: next) pos) walk r := by
    intro walk r hready h
    split_ifs at h with hlo
    · exact (hk (.continuation next pos) walk r hready h).mono fun caps => Rest.repetition_done hlo
    · obtain rfl := Option.some.inj h
      exact .failed hready.tables rfl rfl
  by_cases hrepeats : Repeats g node count start pos
  · obtain ⟨r₁, hbody, h⟩ := Option.bind_eq_some_iff.mp ((if_pos hrepeats).symm.trans h)
    have hr₁ : Genuine g (g.Rest line (.repetition node count start :: next) pos) walk r₁ :=
      (hk (.node _ pos _) walk r₁ hready hbody).mono fun caps => Rest.repetition_cons hrepeats.1
    by_cases hfinal : r₁.final = true
    · obtain rfl := Option.some.inj ((if_pos hfinal).symm.trans h)
      exact hr₁
    · have hfalse : r₁.1 = false := by
        rw [Outcome.final, Bool.or_eq_true, not_or] at hfinal
        exact Bool.eq_false_iff.mpr hfinal.1
      exact (hstop r₁.2 r (hr₁.ready hfalse hready) ((if_neg hfinal).symm.trans h)).from (hr₁.back hfalse)
  · exact hstop walk r hready ((if_neg hrepeats).symm.trans h)

/-- Octets that a node matches are derived from so many of it. -/
theorem derivesAll_octets {child : ℕ} (hsingle : g.Single child) {s : Str} (hs : ∀ c ∈ s, g.Takes c child) :
    g.DerivesAll (List.replicate s.length child) s [] := by
  induction s with
  | nil => exact .nil
  | cons c s ih =>
    rw [List.length_cons, List.replicate_succ]
    exact .cons (hsingle.derives (hs c List.mem_cons_self)) (ih fun c' hc' => hs c' (List.mem_cons_of_mem c hc'))

/-- So many octets of a table are bodies of a repetition. -/
theorem derivesAll_taken {child : ℕ} (hsingle : g.Single child) {bits : List Octet} (hbits : ∀ c ∈ bits, g.Takes c child)
    {hi : ℤ} {take : ℕ} (htake : take ≤ takenFrom line bits hi pos) :
    g.DerivesAll (List.replicate take child) (piece line pos (pos + take)) [] := by
  obtain ⟨run, hrun, hle, rest, hrest⟩ : ∃ run : Str, (∀ c ∈ run, c ∈ bits) ∧ take ≤ run.length ∧ run <+: line.drop pos := by
    refine ⟨_, fun c hc => ?_, htake, (List.takeWhile_prefix _).trans (List.take_prefix _ _)⟩
    exact of_decide_eq_true (List.mem_takeWhile_imp (p := fun c => decide (c ∈ bits)) hc)
  have htext : piece line pos (pos + take) = run.take take := by
    rw [piece, Nat.add_sub_cancel_left, ← hrest, List.take_append_of_le_length hle]
  have hderives := derivesAll_octets hsingle (fun c hc => hbits c (hrun c (List.mem_of_mem_take hc)) : ∀ c ∈ run.take take, _)
  rwa [List.length_take_of_le hle, ← htext] at hderives

theorem genuine_bitmapBranch (hk : GenuineCalls limits g line k) (hsingle : g.Single (g.child (g.node node).first))
    (hbounds : (g.node node).kind = .repetition → (g.node node).hi = kUnbounded ∨ 0 ≤ (g.node node).hi)
    (hready : walk.Ready g) (h : bitmapBranch limits g line (atEnd line) k node pos next walk = some r) :
    Genuine g (g.Rest line (.repetition node 0 start :: next) pos) walk r := by
  obtain ⟨bitmap, hbitmap, h⟩ := Option.bind_eq_some_iff.mp h
  obtain ⟨⟨m, hm⟩, htables⟩ := hready.tables.looked hbitmap
  dsimp only at h
  split_ifs at h
  · obtain rfl := Option.some.inj h
    exact .failed htables rfl rfl
  have hready' : (walk.scanned bitmap.2 (takenFrom line bitmap.1 (g.node node).hi pos)).Ready g := ⟨hready.even, htables⟩
  have hloop : Genuine g (g.Rest line (.repetition node 0 start :: next) pos)
      (walk.scanned bitmap.2 (takenFrom line bitmap.1 (g.node node).hi pos)) r := by
    refine genuine_firstOf (fun take htake walk r hready h => ?_) hready' h
    obtain ⟨hleast, hmost⟩ := mem_countdown.mp htake
    refine (hk (.continuation next (pos + take)) walk r hready h).mono fun caps hrest => ?_
    have hbodies := derivesAll_taken hsingle (fun c hc => ((Grammar.mem_matchedOctets hm).mp hc).2) hmost
    refine .repetition (Nat.le_add_right pos take) (by omega) (fun hkind => ?_) hbodies hrest
    · refine .inr ((hbounds hkind).imp id fun hhi => ?_)
      have hne : (g.node node).hi ≠ kUnbounded := by
        rw [kUnbounded]
        omega
      rw [takenFrom, if_neg hne] at hmost
      have hlen := (List.takeWhile_prefix (fun c => decide (c ∈ bitmap.1)) (l :=
        (line.drop pos).take ((g.node node).hi % 2 ^ 64).toNat)).length_le.trans (List.length_take_le _ _)
      omega
  exact hloop.from rfl

theorem genuine_inside (hbounds : (g.node node).kind = .repetition → (g.node node).hi = kUnbounded ∨ 0 ≤ (g.node node).hi)
    (hk : GenuineCalls limits g line k) (hready : walk.Ready g)
    (h : inside limits g line (atEnd line) k node pos next walk = some r) :
    Genuine g (g.Rest line (.node node :: next) pos) walk r := by
  have hfailed : some (false, walk) = some r → Genuine g (g.Rest line (.node node :: next) pos) walk r := by
    intro h
    obtain rfl := Option.some.inj h
    exact .failed hready.tables rfl rfl
  rw [inside] at h
  rcases hkind : (g.node node).kind <;> simp only [hkind] at h
  · split_ifs at h with hroot hcapture
    · exact hfailed h
    · exact (hk (.node _ pos next) walk r hready h).mono fun caps => Rest.of_reference hkind hroot hcapture
    · exact (hk (.node _ pos _) walk r hready h).mono fun caps => Rest.of_captured hkind hroot hcapture
  · split_ifs at h with htext
    · refine (hk (.continuation next _) walk r hready h).mono fun caps hrest => ?_
      have hderives : g.Derives node (piece line pos (pos + (g.literal (g.node node).literal).length)) [] := by
        refine .literal hkind ?_
        rw [piece, Nat.add_sub_cancel_left]
        exact htext.2
      exact .node (Nat.le_add_right _ _) hderives hrest
    · exact hfailed h
  · split_ifs at h with hoctet
    · refine (hk (.continuation next _) walk r hready h).mono fun caps hrest => ?_
      have hderives : g.Derives node (piece line pos (pos + 1)) [] := by
        rcases hc : (line)[pos]? with _ | c
        · simp [hc] at hoctet
        · rw [piece_succ hc]
          exact .octetRange hkind (by simpa [hc] using hoctet)
      exact .node (Nat.le_add_right _ _) hderives hrest
    · exact hfailed h
  · exact (hk (.sequence node 0 pos next) walk r hready h).mono fun caps => Rest.of_sequence hkind
  · refine genuine_firstOf (fun child hchild walk r hready h => ?_) hready h
    exact (hk (.node child pos next) walk r hready h).mono fun caps => Rest.of_alternation hkind hchild
  · exact (hk (.repetition node 0 pos pos next) walk r hready h).mono fun caps => Rest.of_repetition hkind (hbounds hkind)

theorem genuine_node (hbounds : (g.node node).kind = .repetition → (g.node node).hi = kUnbounded ∨ 0 ≤ (g.node node).hi)
    (hk : GenuineCalls limits g line k) (hready : walk.Ready g)
    (h : matchNode limits g line (atEnd line) (k + 1) node pos next walk = some r) :
    Genuine g (g.Rest line (.node node :: next) pos) walk r := by
  rw [matchNode] at h
  by_cases hexhausted : walk.exhausted = true
  · obtain rfl := Option.some.inj ((if_pos hexhausted).symm.trans h)
    exact .failed hready.tables rfl rfl
  rw [if_neg hexhausted] at h
  by_cases hover : (limits.stepsOver (walk.steps + 1) || limits.tooDeep walk.depth) = true
  · obtain rfl := Option.some.inj ((if_pos hover).symm.trans h)
    exact .failed hready.tables rfl rfl
  · obtain ⟨r', hinside, rfl⟩ := Option.map_eq_some_iff.mp ((if_neg hover).symm.trans h)
    have hentered : walk.entered.Ready g := ⟨hready.even, hready.tables⟩
    have hr' := genuine_inside hbounds hk hentered hinside
    exact ⟨hr'.tables, hr'.back, hr'.found⟩

theorem genuine_repetition (hg : g.Accepted)
    (hbounds : (g.node node).kind = .repetition → (g.node node).hi = kUnbounded ∨ 0 ≤ (g.node node).hi)
    (hk : GenuineCalls limits g line k) (hready : walk.Ready g)
    (h : matchRepetition limits g line (atEnd line) (k + 1) node count start pos next walk = some r) :
    Genuine g (g.Rest line (.repetition node count start :: next) pos) walk r := by
  rw [matchRepetition_succ] at h
  split_ifs at h with hexhausted
  · obtain rfl := Option.some.inj h
    exact .failed hready.tables rfl rfl
  obtain ⟨asked, hasked, hbranch⟩ := Option.bind_eq_some_iff.mp h
  obtain ⟨hright, hfit, hcaptures⟩ := asksSingleOctet_spec hg ⟨by simpa using hexhausted, hready.tables⟩ ⟨k, hasked⟩
  have hready' : asked.2.Ready g := ⟨hready.even.congr hcaptures, hfit.tables⟩
  split_ifs at hbranch with hsingle
  · obtain ⟨rfl, hchild⟩ := hright.mp hsingle
    exact (genuine_bitmapBranch hk hchild hbounds hready' hbranch).from hcaptures
  · exact (genuine_generalBranch hk hready' hbranch).from hcaptures

/-- **Calls are genuine**, whatever the limits. -/
theorem genuine_perform (hg : g.Accepted) (hb : g.EveryNode GrammarNode.BoundsFine) (k : ℕ) : GenuineCalls limits g line k := by
  have hbounds : ∀ node, (g.node node).kind = .repetition → (g.node node).hi = kUnbounded ∨ 0 ≤ (g.node node).hi := by
    intro node hkind
    by_cases hnode : node < g.nodes.length
    · obtain ⟨hlo, hhi⟩ := hb _ (Grammar.node_mem hnode) hkind
      exact hhi.imp id fun hle => hlo.trans hle
    · rw [Grammar.node, List.getD_eq_default _ _ (not_lt.mp hnode)] at hkind
      cases hkind
  induction k with
  | zero =>
    rintro (_ | _ | _ | _) walk r - h <;> simp [perform, matchContinuation, matchSequence, matchRepetition, matchNode] at h
  | succ k ih =>
    intro call walk r hready h
    cases call with
    | continuation frames pos =>
      by_cases hexhausted : walk.exhausted = true
      · have hgiven : matchContinuation limits g line (atEnd line) (k + 1) frames pos walk = some (false, walk) := by
          rcases frames with _ | ⟨_ | _ | _ | _, next⟩ <;> rw [matchContinuation, if_pos hexhausted]
        obtain rfl := Option.some.inj (hgiven.symm.trans h)
        exact .failed hready.tables rfl rfl
      rcases frames with _ | ⟨frame, next⟩
      · rw [perform, matchContinuation, if_neg hexhausted] at h
        obtain rfl := Option.some.inj h
        refine ⟨hready.tables, fun _ => rfl, fun hend => ⟨[], ?_, rfl⟩⟩
        obtain rfl := of_decide_eq_true hend
        exact .nil
      cases frame with
      | node node =>
        rw [perform, matchContinuation, if_neg hexhausted] at h
        exact ih (.node node pos next) walk r hready h
      | sequence node childNo =>
        rw [perform, matchContinuation, if_neg hexhausted] at h
        exact ih (.sequence node childNo pos next) walk r hready h
      | repetition node count start =>
        rw [perform, matchContinuation, if_neg hexhausted] at h
        exact ih (.repetition node count start pos next) walk r hready h
      | closeCapture slot start =>
        rw [perform, matchContinuation, if_neg hexhausted] at h
        obtain ⟨r', hrest, rfl⟩ := Option.map_eq_some_iff.mp h
        have hpushed : (walk.push slot (piece line start pos)).Ready g := ⟨hready.even.push slot _, hready.tables⟩
        have hr' := ih (.continuation next pos) _ r' hpushed hrest
        split_ifs with hfound
        · obtain ⟨caps, hcaps, hcaptures⟩ := hr'.found hfound
          refine ⟨hr'.tables, fun hfalse => absurd (hfalse.symm.trans hfound) Bool.false_ne_true, fun _ => ?_⟩
          refine ⟨(slot, piece line start pos) :: caps, .closeCapture hcaps, ?_⟩
          rw [hcaptures, Walk.captures_push, ← Captures.add_append]
          rfl
        · exact .failed hr'.tables rfl (hready.even.takeBack (hr'.back (by simpa using hfound)))
    | sequence node childNo pos next =>
      rw [perform, matchSequence] at h
      split_ifs at h with hdone
      · exact (ih (.continuation next pos) walk r hready h).mono fun caps => Rest.sequence_done hdone
      · exact (ih (.node _ pos _) walk r hready h).mono fun caps => Rest.sequence_cons (not_le.mp hdone)
    | repetition node count start pos next => exact genuine_repetition hg (hbounds node) ih hready h
    | node node pos next => exact genuine_node (hbounds node) ih hready h

/-! ### What is reported -/

end TreeMatcher

/-- **What a result reports** is captured by one derivation of the line from a rule, all of it and in
its order. -/
def Grammar.Reports (g : Grammar) (rule : ℤ) (line : Str) (result : MatchResult) : Prop :=
  ∃ caps, g.Derives (g.ruleRoot rule).toNat line caps ∧ result.sequence = caps.map Prod.snd ∧
    result.owners = caps.map (fun cap => (cap.1 : ℤ)) ∧ result.names = g.captureNames ∧
    result.values = (List.range g.captureCount).map (textsOf caps)

/-- **A result of the interpreter is reported from a derivation.** -/
theorem TreeMatcher.reports_run {limits : Limits} {g : Grammar} {line : Str} {k : ℕ} {rule : ℤ} {tables tables' : OctetTables}
    {result : MatchResult} {exhausted : Bool} (hg : g.Accepted) (hb : g.EveryNode GrammarNode.BoundsFine)
    (htables : g.Filled tables) (h : run limits g line k rule tables = some (some result, exhausted, tables')) :
    g.Reports rule line result := by
  rw [run] at h
  split_ifs at h with hroot
  · cases h
  obtain ⟨r, hr, hresult⟩ := Option.map_eq_some_iff.mp h
  obtain ⟨hsome, -⟩ := Prod.mk.inj hresult
  split_ifs at hsome with hfound
  obtain rfl := Option.some.inj hsome
  have hready : ({ values := g.captureNames.map fun _ => [], tables := tables } : Walk).Ready g := ⟨rfl, htables.right hg⟩
  obtain ⟨caps, hrest, hcaptures⟩ := (genuine_perform hg hb k (.node _ 0 []) _ r hready hr).found hfound
  obtain ⟨pos', caps₁, caps₂, -, rfl, hderives, hend⟩ := Rest.node_inv hrest
  cases hend
  rw [piece_all] at hderives
  rw [List.append_nil] at hcaptures
  obtain ⟨hvalues, hsequence, howners⟩ : r.2.values = _ ∧ r.2.sequence = _ ∧ r.2.owners = _ :=
    ⟨congrArg Prod.fst hcaptures, congrArg (·.2.1) hcaptures, congrArg (·.2.2) hcaptures⟩
  refine ⟨caps₁, hderives, ?_, ?_, rfl, ?_⟩
  · exact hsequence.trans (Captures.sequence_add _ _)
  · exact howners.trans (Captures.owners_add _ _)
  · refine hvalues.trans (List.ext_getElem? fun slot => ?_)
    rw [Captures.values_add]
    rcases Nat.lt_or_ge slot g.captureNames.length with hslot | hslot
    · simp [Walk.captures, captureCount, hslot]
    · simp [Walk.captures, captureCount, hslot]

/-- A text with numbers that fit into an `int` is stored as it is written. -/
theorem compile_written {text : Str} {g : Grammar} (h : compile .machine text = .ok g)
    (hcounts : ∀ digits ∈ countsIn text, valueIn 10 digits ≤ INT_MAX)
    (hoctets : ∀ digits ∈ octetNumbersIn text, valueIn 16 digits ≤ INT_MAX) : compile .written text = .ok g := by
  obtain ⟨rules, hspell, hwrite, hvalid⟩ := compile_eq_ok_iff.mp h
  have hagree : ∀ r ∈ rules, Agree .written .machine r.body.counts r.body.octetNumbers := fun r hr =>
    ⟨fun d hd => (strtolInt_small (hcounts d ((mem_countsIn hspell).mpr ⟨r, hr, hd⟩))).symm,
      fun d hd => (strtolInt_small (hoctets d ((mem_octetNumbersIn hspell).mpr ⟨r, hr, hd⟩))).symm⟩
  exact compile_eq_ok_iff.mpr ⟨rules, hspell, (writeRules_congr hagree {}).trans hwrite, hvalid⟩

/-- **The interpreter only reports genuine parses** of a text: those of the grammar with the numbers that
are written in it, whichever limits there are and whatever the tables of earlier lines hold. -/
def OnlyGenuine (text : Str) : Prop :=
  ∀ g, compile .machine text = .ok g → ∃ written, compile .written text = .ok written ∧
    ∀ limits rule line k tables result exhausted tables', g.Filled tables →
      TreeMatcher.run limits g line k rule tables = some (some result, exhausted, tables') → written.Reports rule line result

/-- **If the numbers in a text fit into an `int`**, only genuine parses are reported. -/
theorem onlyGenuine_of_small {text : Str} (hcounts : ∀ digits ∈ countsIn text, valueIn 10 digits ≤ INT_MAX)
    (hoctets : ∀ digits ∈ octetNumbersIn text, valueIn 16 digits ≤ INT_MAX) : OnlyGenuine text := by
  intro g h
  obtain ⟨rules, hspell, hwrite, -⟩ := compile_eq_ok_iff.mp h
  have hbounds : g.EveryNode GrammarNode.BoundsFine := boundsFine_writeRules hwrite fun r hr d hd =>
    strtolInt_nonneg (hcounts d ((mem_countsIn hspell).mpr ⟨r, hr, hd⟩))
  refine ⟨g, compile_written h hcounts hoctets, ?_⟩
  intro limits rule line k tables result exhausted tables' htables hrun
  exact TreeMatcher.reports_run (accepted_compile h) hbounds htables hrun

/-- The grammar of `a=1*2$b / %x41-5A` and `b="x"`. -/
def capturing : Grammar where
  nodes := [{ kind := .reference, lo := 1, capture := 0 }, { kind := .repetition, lo := 1, hi := 2, first := 0, count := 1 },
    { kind := .octetRange, lo := 65, hi := 90 }, { kind := .alternation, first := 1, count := 2 },
    { kind := .literal, literal := 0 }]
  children := [0, 1, 2]
  literals := [str "x"]
  captureNames := [str "b"]
  ruleNames := [str "a", str "b"]
  ruleRoots := [3, 4]

set_option maxRecDepth 4000 in
theorem onlyGenuine_capturing : ∃ g, compile .machine (str "a=1*2$b / %x41-5A\nb=\"x\"") = .ok g ∧
    capturing.Reports 0 (str "xX") ⟨[str "b"], [[str "x", str "X"]], [str "x", str "X"], [0, 0]⟩ := by
  have hcompiled : compile .machine (str "a=1*2$b / %x41-5A\nb=\"x\"") = .ok capturing := rfl
  have hwritten : compile .written (str "a=1*2$b / %x41-5A\nb=\"x\"") = .ok capturing := rfl
  have hrun : (TreeMatcher.run .server capturing (str "xX") 40 0 {}).map (·.1) =
      some (some ⟨[str "b"], [[str "x", str "X"]], [str "x", str "X"], [0, 0]⟩) := by decide +kernel
  obtain ⟨⟨result, exhausted, tables'⟩, hrun, rfl⟩ := Option.map_eq_some_iff.mp hrun
  obtain ⟨written, hwritten', hreports⟩ := onlyGenuine_of_small (by decide) (by decide) capturing hcompiled
  obtain rfl := Except.ok.inj (hwritten.symm.trans hwritten')
  exact ⟨_, hcompiled, hreports _ _ _ _ _ _ _ _ .empty hrun⟩

/-- What a literal derives is as long as its text. -/
theorem Grammar.Derives.length_literal {g : Grammar} {i : ℕ} {s : Str} {caps : List Captured}
    (hkind : (g.node i).kind = .literal) (h : g.Derives i s caps) : s.length = (g.literal (g.node i).literal).length := by
  cases h with
  | literal _ hfold => simpa [asciiFold] using congrArg List.length hfold
  | _ => simp_all

theorem Grammar.Derives.repetition_inv {g : Grammar} {i : ℕ} {s : Str} {caps : List Captured}
    (hkind : (g.node i).kind = .repetition) (h : g.Derives i s caps) : ∃ times : ℕ, (g.node i).lo ≤ times ∧
      g.DerivesAll (List.replicate times (g.child (g.node i).first)) s caps := by
  cases h with
  | repetition _ hlo _ hbodies => exact ⟨_, hlo, hbodies⟩
  | _ => simp_all

/-- How long so many texts of a literal are. -/
theorem Grammar.DerivesAll.length_replicate {g : Grammar} {i times : ℕ} {s : Str} {caps : List Captured}
    (hkind : (g.node i).kind = .literal) (h : g.DerivesAll (List.replicate times i) s caps) :
    s.length = times * (g.literal (g.node i).literal).length := by
  induction times generalizing s caps with
  | zero =>
    cases h
    simp
  | succ times ih =>
    cases h with
    | cons hfirst hrest => rw [List.length_append, hfirst.length_literal hkind, ih hrest, Nat.succ_mul, Nat.add_comm]

/-- What is stored of `a=4294967290*4294967291"x"`. -/
def narrowed : Grammar where
  nodes := [{ kind := .literal, literal := 0 }, { kind := .repetition, lo := -6, hi := -5, first := 0, count := 1 }]
  children := [0]
  literals := [str "x"]
  ruleNames := [str "a"]
  ruleRoots := [1]

set_option maxRecDepth 4000 in
/-- Numbers that do not fit may let the empty line pass. -/
theorem not_onlyGenuine_narrowed : ¬ OnlyGenuine (str "a=4294967290*4294967291\"x\"") := by
  intro hgenuine
  obtain ⟨written, hwritten, hreports⟩ := hgenuine narrowed rfl
  have hstored : compile .written (str "a=4294967290*4294967291\"x\"") = .ok
      { narrowed with nodes := [{ kind := .literal, literal := 0 },
        { kind := .repetition, lo := 4294967290, hi := 4294967291, first := 0, count := 1 }] } := rfl
  obtain rfl := Except.ok.inj (hwritten.symm.trans hstored)
  have hrun : (TreeMatcher.run .server narrowed [] 40 0 {}).map (·.1) = some (some {}) := by decide +kernel
  obtain ⟨⟨result, exhausted, tables'⟩, hrun, rfl⟩ := Option.map_eq_some_iff.mp hrun
  obtain ⟨caps, hderives, -⟩ := hreports _ _ _ _ _ _ _ _ .empty hrun
  obtain ⟨times, hlo, hbodies⟩ := hderives.repetition_inv rfl
  have hlen := hbodies.length_replicate rfl
  have hnone : times = 0 := (Nat.mul_one times).symm.trans hlen.symm
  subst hnone
  revert hlo
  decide

end Abnf

end FtIrc
