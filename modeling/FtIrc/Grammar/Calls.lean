import FtIrc.Grammar.LeftEdges
import FtIrc.Grammar.TreeMatcher

/-!
# The calls of the interpreter

The functions of `TreeMatcher` call each other; which calls a call may make is
`FtIrc.Abnf.TreeMatcher.Calls`. A call without limits ends if those it makes do
(`FtIrc.Abnf.TreeMatcher.ends_of_calls`), so that the interpreter ends wherever there is no
infinite chain of calls.
-/

namespace FtIrc

namespace Abnf

open Fuel

namespace Grammar

variable {g : Grammar} {i : ℕ}

/-- The search for single octets ends where left edges do. -/
theorem ends_isSingleOctet (h : Acc (fun c p => g.LeftEdge p c) i) (memo : Memo) :
    Ends fun k => g.isSingleOctet k i memo := by
  induction h generalizing memo with
  | intro i _ ih =>
    refine Ends.of_succ ?_
    rcases hlookup : memo.lookup i with _ | known
    swap
    · exact (Ends.pure (known, memo)).congr fun k => by rw [isSingleOctet, hlookup]
    have hlooks : Ends fun k => g.looksSingle (g.isSingleOctet k) (g.node i) ((i, false) :: memo) := by
      simp only [looksSingle]
      rcases hkind : (g.node i).kind <;> dsimp only
      · by_cases hroot : (g.node i).capture = kNoCapture ∧ g.ruleRoot (g.node i).lo ≠ kNoRule
        · simp only [if_pos hroot]
          exact ih _ (.reference hkind hroot.2) _
        · simp only [if_neg hroot]
          exact .pure _
      · exact .pure _
      · exact .pure _
      · exact .pure _
      · refine Ends.map (Ends.firstOf (fun c memo => ?_) (fun c hc memo => ?_) _)
        · exact fun k => (steady_isSingleOctet g c memo k).map
        · exact (ih c (.alternation hkind hc) memo).map
      · exact .pure _
    exact hlooks.map.congr fun k => by rw [isSingleOctet, hlookup]

/-- So does the question which octets a node matches. -/
theorem ends_octetMatches (h : Acc (fun c p => g.LeftEdge p c) i) (c : Octet) :
    Ends fun k => g.octetMatches k i c := by
  induction h with
  | intro i _ ih =>
    refine Ends.of_succ ?_
    simp only [octetMatches]
    rcases hkind : (g.node i).kind <;> dsimp only
    · by_cases hroot : g.ruleRoot (g.node i).lo = kNoRule
      · simp only [if_pos hroot]
        exact .pure _
      · simp only [if_neg hroot]
        exact ih _ (.reference hkind hroot)
    · exact .pure _
    · exact .pure _
    · exact .pure _
    · refine Ends.map (Ends.firstOf (fun child _ => ?_) (fun child hchild _ => ?_) _)
      · exact fun k => (steady_octetMatches g child c k).map
      · exact (ih child (.alternation hkind hchild)).map
    · exact .pure _

theorem ends_octetBitmap (h : Acc (fun c p => g.LeftEdge p c) i) (tables : OctetTables) :
    Ends fun k => g.octetBitmap k i tables := by
  simp only [octetBitmap]
  rcases tables.bitmaps.lookup i with _ | bits
  swap
  · exact .pure _
  have hall : ∀ cs : List Octet, Ends fun k => g.matchedOctets k i cs := by
    intro cs
    induction cs with
    | nil => exact .pure _
    | cons c cs ih =>
      exact Ends.bind (steady_octetMatches g i c) (fun _ k => (steady_matchedOctets g i cs k).map)
        (ends_octetMatches h c) fun _ _ => ih.map
  exact (hall allOctets).map

end Grammar

namespace TreeMatcher

variable {limits : Limits} {g : Grammar} {line : Str} {last : ℕ → Walk → Option Outcome}

/-! ### The functions as one -/

/-- A call of one of the functions of `TreeMatcher`. -/
inductive Call
  | continuation (frames : List Frame) (pos : ℕ)
  | sequence (node childNo pos : ℕ) (next : List Frame)
  | repetition (node count start pos : ℕ) (next : List Frame)
  | node (node pos : ℕ) (next : List Frame)

/-- Where a call is in the line. -/
def Call.pos : Call → ℕ
  | .continuation _ pos => pos
  | .sequence _ _ pos _ => pos
  | .repetition _ _ _ pos _ => pos
  | .node _ pos _ => pos

/-- What is to come behind a call. -/
def Call.frames : Call → List Frame
  | .continuation frames _ => frames
  | .sequence _ _ _ next => next
  | .repetition _ _ _ _ next => next
  | .node _ _ next => next

/-- What a call returns. -/
def perform (limits : Limits) (g : Grammar) (line : Str) (last : ℕ → Walk → Option Outcome) (k : ℕ) : Call → Walk → Option Outcome
  | .continuation frames pos => matchContinuation limits g line last k frames pos
  | .sequence node childNo pos next => matchSequence limits g line last k node childNo pos next
  | .repetition node count start pos next => matchRepetition limits g line last k node count start pos next
  | .node node pos next => matchNode limits g line last k node pos next

theorem steady_asksSingleOctet (g : Grammar) (child count : ℕ) (walk : Walk) :
    Steady fun k => asksSingleOctet g k child count walk := by
  intro k
  exact .ite (g.steady_isSingleOctet child walk.tables.single k).map (.refl _)

/-- **More fuel changes nothing.** -/
theorem steady_perform (call : Call) (walk : Walk) : Steady fun k => perform limits g line last k call walk := by
  intro k
  induction k generalizing call walk with
  | zero =>
    cases call with
    | continuation frames pos => simp only [perform, matchContinuation]; exact .none _
    | sequence node childNo pos next => simp only [perform, matchSequence]; exact .none _
    | repetition node count start pos next => simp only [perform, matchRepetition]; exact .none _
    | node node pos next => simp only [perform, matchNode]; exact .none _
  | succ k ih =>
    have hcont : ∀ frames pos walk, Refines (matchContinuation limits g line last k frames pos walk)
        (matchContinuation limits g line last (k + 1) frames pos walk) :=
      fun frames pos walk => ih (.continuation frames pos) walk
    have hseq : ∀ node childNo pos next walk, Refines (matchSequence limits g line last k node childNo pos next walk)
        (matchSequence limits g line last (k + 1) node childNo pos next walk) :=
      fun node childNo pos next walk => ih (.sequence node childNo pos next) walk
    have hrep : ∀ node count start pos next walk,
        Refines (matchRepetition limits g line last k node count start pos next walk)
          (matchRepetition limits g line last (k + 1) node count start pos next walk) :=
      fun node count start pos next walk => ih (.repetition node count start pos next) walk
    have hnode : ∀ node pos next walk, Refines (matchNode limits g line last k node pos next walk)
        (matchNode limits g line last (k + 1) node pos next walk) :=
      fun node pos next walk => ih (.node node pos next) walk
    cases call with
    | continuation frames pos =>
      simp only [perform]
      rcases frames with _ | ⟨frame, next⟩
      · rw [matchContinuation, matchContinuation]
        exact .refl _
      · cases frame <;> rw [matchContinuation, matchContinuation] <;> refine .ite (.refl _) ?_
        · exact hnode _ _ _ _
        · exact hseq _ _ _ _ _
        · exact hrep _ _ _ _ _ _
        · exact (hcont _ _ _).map
    | sequence node childNo pos next =>
      change Refines (matchSequence limits g line last (k + 1) node childNo pos next walk)
        (matchSequence limits g line last (k + 1 + 1) node childNo pos next walk)
      rw [matchSequence, matchSequence]
      exact .ite (hcont _ _ _) (hnode _ _ _ _)
    | repetition node count start pos next =>
      change Refines (matchRepetition limits g line last (k + 1) node count start pos next walk)
        (matchRepetition limits g line last (k + 1 + 1) node count start pos next walk)
      rw [matchRepetition, matchRepetition]
      refine .ite (.refl _) ((steady_asksSingleOctet g _ count walk k).bind fun asked => .ite ?_ ?_)
      · refine (g.steady_octetBitmap _ asked.2.tables k).bind fun bitmap => .ite (.refl _) ?_
        exact Refines.firstOf (fun take walk => hcont _ _ _) _ _
      · refine .ite ((hnode _ _ _ _).bind fun r => .ite (.refl _) ?_) ?_
        · exact .ite (hcont _ _ _) (.refl _)
        · exact .ite (hcont _ _ _) (.refl _)
    | node node pos next =>
      change Refines (matchNode limits g line last (k + 1) node pos next walk)
        (matchNode limits g line last (k + 1 + 1) node pos next walk)
      rw [matchNode, matchNode]
      refine .ite (.refl _) (.ite (.refl _) (Refines.map ?_))
      rcases (g.node node).kind
      · exact .ite (.refl _) (.ite (hnode _ _ _ _) (hnode _ _ _ _))
      · exact .ite (hcont _ _ _) (.refl _)
      · exact .ite (hcont _ _ _) (.refl _)
      · exact hseq _ _ _ _ _
      · exact Refines.firstOf (fun child walk => hnode _ _ _ _) _ _
      · exact hrep _ _ _ _ _ _

/-! ### Which calls a call makes -/

/-- **A call may make another**, whatever the walk. -/
inductive Calls (g : Grammar) (line : Str) : Call → Call → Prop
  | resumeNode {node pos : ℕ} {next : List Frame} :
      Calls g line (.continuation (.node node :: next) pos) (.node node pos next)
  | resumeSequence {node childNo pos : ℕ} {next : List Frame} :
      Calls g line (.continuation (.sequence node childNo :: next) pos) (.sequence node childNo pos next)
  | resumeRepetition {node count start pos : ℕ} {next : List Frame} :
      Calls g line (.continuation (.repetition node count start :: next) pos) (.repetition node count start pos next)
  | resumeCapture {slot start pos : ℕ} {next : List Frame} :
      Calls g line (.continuation (.closeCapture slot start :: next) pos) (.continuation next pos)
  | sequenceDone {node childNo pos : ℕ} {next : List Frame} : (g.node node).count ≤ childNo →
      Calls g line (.sequence node childNo pos next) (.continuation next pos)
  | sequencePart {node childNo pos : ℕ} {next : List Frame} : childNo < (g.node node).count →
      Calls g line (.sequence node childNo pos next)
        (.node (g.child ((g.node node).first + childNo)) pos (.sequence node (childNo + 1) :: next))
  /-- So many octets are taken at once. -/
  | scan {node start pos take : ℕ} {next : List Frame} : (g.node node).lo ≤ take → take ≤ line.length - pos →
      Calls g line (.repetition node 0 start pos next) (.continuation next (pos + take))
  | body {node count start pos : ℕ} {next : List Frame} : ¬ (0 < count ∧ pos = start) →
      Calls g line (.repetition node count start pos next)
        (.node (g.child (g.node node).first) pos (.repetition node (count + 1) pos :: next))
  | repetitionDone {node count start pos : ℕ} {next : List Frame} : (g.node node).lo ≤ count →
      Calls g line (.repetition node count start pos next) (.continuation next pos)
  | literal {node pos : ℕ} {next : List Frame} : (g.node node).kind = .literal →
      pos + (g.literal (g.node node).literal).length ≤ line.length →
      Calls g line (.node node pos next) (.continuation next (pos + (g.literal (g.node node).literal).length))
  | octet {node pos : ℕ} {next : List Frame} : (g.node node).kind = .octetRange → pos < line.length →
      Calls g line (.node node pos next) (.continuation next (pos + 1))
  | reference {node pos : ℕ} {next : List Frame} : (g.node node).kind = .reference →
      g.ruleRoot (g.node node).lo ≠ kNoRule →
      Calls g line (.node node pos next) (.node (g.ruleRoot (g.node node).lo).toNat pos next)
  | capture {node pos : ℕ} {next : List Frame} : (g.node node).kind = .reference →
      g.ruleRoot (g.node node).lo ≠ kNoRule →
      Calls g line (.node node pos next) (.node (g.ruleRoot (g.node node).lo).toNat pos
        (.closeCapture (g.node node).capture.toNat pos :: next))
  | sequence {node pos : ℕ} {next : List Frame} : (g.node node).kind = .sequence →
      Calls g line (.node node pos next) (.sequence node 0 pos next)
  | alternation {node child pos : ℕ} {next : List Frame} : (g.node node).kind = .alternation →
      child ∈ g.childrenOf (g.node node) → Calls g line (.node node pos next) (.node child pos next)
  | repetition {node pos : ℕ} {next : List Frame} : (g.node node).kind = .repetition →
      Calls g line (.node node pos next) (.repetition node 0 pos pos next)

/-- Without limits, a call ends whatever the walk. -/
def Halts (g : Grammar) (line : Str) (call : Call) : Prop :=
  ∀ walk, Ends fun k => perform .unlimited g line (atEnd line) k call walk

theorem takenFrom_le (line : Str) (bits : List Octet) (hi : ℤ) (pos : ℕ) :
    takenFrom line bits hi pos ≤ line.length - pos := by
  rw [takenFrom]
  refine (List.takeWhile_prefix _).length_le.trans ?_
  rw [List.length_take, List.length_drop]
  exact min_le_right _ _

theorem mem_countdown {most least take : ℕ} : take ∈ countdown most least ↔ least ≤ take ∧ take ≤ most := by
  simp only [countdown, List.mem_reverse, List.mem_drop_iff_getElem, List.getElem_range, List.length_range]
  constructor
  · rintro ⟨i, hi, rfl⟩
    omega
  · rintro ⟨hle, hge⟩
    exact ⟨take - least, by omega, by omega⟩

variable {node childNo count start pos : ℕ} {next : List Frame}

theorem halts_continuation {frames : List Frame}
    (h : ∀ call, Calls g line (.continuation frames pos) call → Halts g line call) :
    Halts g line (.continuation frames pos) := by
  intro walk
  refine Ends.of_succ ?_
  simp only [perform]
  rcases frames with _ | ⟨frame, next⟩
  · simp only [matchContinuation]
    split <;> exact .pure _
  · cases frame <;> simp only [matchContinuation] <;> by_cases hexhausted : walk.exhausted = true <;>
      simp only [hexhausted, if_true, Bool.false_eq_true, if_false] <;> try exact .pure _
    · exact h _ .resumeNode walk
    · exact h _ .resumeSequence walk
    · exact h _ .resumeRepetition walk
    · exact (h _ .resumeCapture _).map

theorem halts_sequence (h : ∀ call, Calls g line (.sequence node childNo pos next) call → Halts g line call) :
    Halts g line (.sequence node childNo pos next) := by
  intro walk
  refine Ends.of_succ ?_
  simp only [perform, matchSequence]
  by_cases hdone : (g.node node).count ≤ childNo
  · simp only [if_pos hdone]
    exact h _ (.sequenceDone hdone) walk
  · simp only [if_neg hdone]
    exact h _ (.sequencePart (Nat.lt_of_not_le hdone)) walk

/-- Where octets are taken at once, what is behind them may be tried wherever they end. -/
theorem ends_scan (h : ∀ call, Calls g line (.repetition node 0 start pos next) call → Halts g line call)
    (bits : List Octet) (walk : Walk) :
    Ends fun k => firstOf (fun take walk => matchContinuation .unlimited g line (atEnd line) k next (pos + take) walk)
      Outcome.final (countdown (takenFrom line bits (g.node node).hi pos) (g.node node).lo.toNat) walk := by
  refine Ends.firstOf (fun take walk k => steady_perform (.continuation next (pos + take)) walk k)
    (fun take htake walk => ?_) walk
  obtain ⟨hleast, hmost⟩ := mem_countdown.mp htake
  exact h _ (.scan (Int.toNat_le.mp hleast) (hmost.trans (takenFrom_le line bits _ pos))) walk

theorem halts_repetition (hchild : Acc (fun c p => g.LeftEdge p c) (g.child (g.node node).first))
    (h : ∀ call, Calls g line (.repetition node count start pos next) call → Halts g line call) :
    Halts g line (.repetition node count start pos next) := by
  intro walk
  refine Ends.of_succ ?_
  simp only [perform, matchRepetition]
  by_cases hexhausted : walk.exhausted = true
  · simp only [if_pos hexhausted]
    exact .pure _
  simp only [if_neg hexhausted]
  have hcont : ∀ pos walk, Steady fun k => matchContinuation .unlimited g line (atEnd line) k next pos walk :=
    fun pos walk => steady_perform (.continuation next pos) walk
  have hbody : ∀ walk, Steady fun k => matchNode .unlimited g line (atEnd line) k (g.child (g.node node).first) pos
      (.repetition node (count + 1) pos :: next) walk := fun walk => steady_perform (.node _ _ _) walk
  have hdone : ∀ walk, Ends fun k => if (g.node node).lo ≤ count then
      matchContinuation .unlimited g line (atEnd line) k next pos walk else some (false, walk) := by
    intro walk
    by_cases hlo : (g.node node).lo ≤ count
    · simp only [if_pos hlo]
      exact h _ (.repetitionDone hlo) walk
    · simp only [if_neg hlo]
      exact .pure _
  refine Ends.bind (steady_asksSingleOctet g _ count walk) (fun asked k => .ite ?_ (.ite ?_ ?_)) ?_ ?_
  · refine (g.steady_octetBitmap _ asked.2.tables k).bind fun bitmap => .ite (.refl _) ?_
    exact Refines.firstOf (fun take walk => hcont _ walk k) _ _
  · exact (hbody asked.2 k).bind fun r => .ite (.refl _) (.ite (hcont _ _ k) (.refl _))
  · exact .ite (hcont _ _ k) (.refl _)
  · simp only [asksSingleOctet]
    by_cases hcount : count = 0
    · simp only [if_pos hcount]
      exact (Grammar.ends_isSingleOctet hchild _).map
    · simp only [if_neg hcount]
      exact .pure _
  · intro asked hasked
    by_cases hsingle : asked.1 = true
    · simp only [if_pos hsingle]
      have hcount : count = 0 := by
        obtain ⟨k, hk⟩ := hasked
        by_contra hne
        rw [asksSingleOctet, if_neg hne] at hk
        obtain rfl := Option.some.inj hk
        exact Bool.false_ne_true hsingle
      subst hcount
      refine Ends.bind (g.steady_octetBitmap _ _) (fun bitmap k => .ite (.refl _) ?_) (Grammar.ends_octetBitmap hchild _)
        fun bitmap _ => ?_
      · exact Refines.firstOf (fun take walk => hcont _ walk k) _ _
      · exact ends_scan h bitmap.1 _
    · simp only [if_neg hsingle]
      by_cases hrepeat : ((g.node node).hi = kUnbounded ∨ (count : ℤ) < (g.node node).hi) ∧
          ¬ (0 < count ∧ pos = start)
      · simp only [if_pos hrepeat]
        refine Ends.bind (hbody asked.2) (fun r k => .ite (.refl _) (.ite (hcont _ _ k) (.refl _)))
          (h _ (.body hrepeat.2) asked.2) fun r _ => ?_
        by_cases hfinal : r.final = true
        · simp only [if_pos hfinal]
          exact .pure _
        · simp only [if_neg hfinal]
          exact hdone r.2
      · simp only [if_neg hrepeat]
        exact hdone asked.2

theorem halts_node (h : ∀ call, Calls g line (.node node pos next) call → Halts g line call) :
    Halts g line (.node node pos next) := by
  intro walk
  refine Ends.of_succ ?_
  simp only [perform, matchNode]
  by_cases hexhausted : walk.exhausted = true
  · simp only [if_pos hexhausted]
    exact .pure _
  simp only [if_neg hexhausted]
  generalize { walk with steps := walk.steps + 1 } = walk
  split
  · exact .pure _
  refine Ends.map ?_
  rcases hkind : (g.node node).kind <;> dsimp only
  · by_cases hroot : g.ruleRoot (g.node node).lo = kNoRule
    · simp only [if_pos hroot]
      exact .pure _
    simp only [if_neg hroot]
    by_cases hcapture : (g.node node).capture = kNoCapture
    · simp only [if_pos hcapture]
      exact h _ (.reference hkind hroot) _
    · simp only [if_neg hcapture]
      exact h _ (.capture hkind hroot) _
  · split
    · next hmatch => exact h _ (.literal hkind hmatch.1) _
    · exact .pure _
  · split
    · next hmatch =>
      refine h _ (.octet hkind ?_) _
      by_contra hge
      rw [List.getElem?_eq_none (Nat.not_lt.mp hge)] at hmatch
      exact Bool.false_ne_true hmatch
    · exact .pure _
  · exact h _ (.sequence hkind) _
  · refine Ends.firstOf (fun child walk => steady_perform (.node child pos next) walk) (fun child hchild walk => ?_) _
    exact h _ (.alternation hkind hchild) walk
  · exact h _ (.repetition hkind) _

end TreeMatcher

end Abnf

end FtIrc
