import FtIrc.Grammar.Calls

/-!
# The interpreter ends

On a grammar that is accepted and whose numbers fit into an `int`
(`FtIrc.Abnf.Grammar.Sized`), the interpreter ends without its limits: where an octet was consumed
less of the line is left, and where none was the call goes along a left edge
(`FtIrc.Abnf.TreeMatcher.halts_node_at`). No rule is entered again while it is being matched,
unless an octet was consumed (`FtIrc.Abnf.TreeMatcher.not_reentered`).
-/

namespace FtIrc

namespace Abnf

open Fuel

/-- **The numbers of a grammar fit into an `int`**, so that no repetition is stored with a negative
lower bound. -/
def Grammar.Sized (g : Grammar) : Prop := ∀ n ∈ g.nodes, n.kind = .repetition → 0 ≤ n.lo

theorem Grammar.node_mem {g : Grammar} {i : ℕ} (hi : i < g.nodes.length) : g.node i ∈ g.nodes := by
  rw [Grammar.node, List.getD_eq_getElem _ _ hi]
  exact List.getElem_mem hi

namespace TreeMatcher

variable {g : Grammar} {line : Str} {node childNo count start pos pos' : ℕ} {next : List Frame}

/-- What is to come ends wherever it begins behind here. -/
def HaltsBeyond (g : Grammar) (line : Str) (next : List Frame) (pos : ℕ) : Prop :=
  ∀ pos', pos < pos' → pos' ≤ line.length → Halts g line (.continuation next pos')

/-- Nodes end here, if what is to come does behind them. -/
def NodesHalt (g : Grammar) (line : Str) (pos : ℕ) : Prop :=
  ∀ node < g.nodes.length, ∀ next, HaltsBeyond g line next pos →
    (g.Nullable node → Halts g line (.continuation next pos)) → Halts g line (.node node pos next)

theorem HaltsBeyond.mono (h : HaltsBeyond g line next pos) (hle : pos ≤ pos') : HaltsBeyond g line next pos' :=
  fun pos'' hlt hend => h pos'' (hle.trans_lt hlt) hend

/-- A child of a node is one of its children. -/
theorem child_mem (h : childNo < (g.node node).count) :
    g.child ((g.node node).first + childNo) ∈ g.childrenOf (g.node node) :=
  List.mem_map.mpr ⟨childNo, List.mem_range.mpr h, rfl⟩

/-- The children before one of them. -/
theorem childrenOf_split (h : childNo < (g.node node).count) :
    g.childrenOf (g.node node) = ((List.range childNo).map fun k => g.child ((g.node node).first + k)) ++
      g.child ((g.node node).first + childNo) ::
        ((List.range ((g.node node).count - childNo - 1)).map fun k =>
          g.child ((g.node node).first + (childNo + 1 + k))) := by
  have hcount : (g.node node).count = childNo + 1 + ((g.node node).count - childNo - 1) := by omega
  rw [Grammar.childrenOf, hcount, List.range_add, List.range_succ, List.map_append, List.map_append,
    List.map_map, List.append_assoc]
  simp only [Nat.add_sub_cancel_left, List.map_cons, List.map_nil, List.singleton_append, Nat.sub_sub]
  rfl

variable (hg : g.Accepted)
include hg

/-! ### Sequences -/

/-- The rest of a sequence ends, once something was consumed. -/
theorem halts_sequence_beyond (hlater : ∀ pos', pos < pos' → pos' ≤ line.length → NodesHalt g line pos')
    (hnode : node < g.nodes.length) (hlt : pos < pos') (hend : pos' ≤ line.length)
    (hbeyond : HaltsBeyond g line next pos) : Halts g line (.sequence node childNo pos' next) := by
  induction hm : (g.node node).count - childNo generalizing childNo pos' with
  | zero =>
    refine halts_sequence fun call hcall => ?_
    cases hcall with
    | sequenceDone _ => exact hbeyond pos' hlt hend
    | sequencePart h => omega
  | succ m ih =>
    have hrest : ∀ pos'', pos' ≤ pos'' → pos'' ≤ line.length →
        Halts g line (.continuation (.sequence node (childNo + 1) :: next) pos'') := by
      intro pos'' hle hend'
      refine halts_continuation fun call hcall => ?_
      cases hcall with
      | resumeSequence => exact ih (hlt.trans_le hle) hend' (by omega)
    refine halts_sequence fun call hcall => ?_
    cases hcall with
    | sequenceDone _ => exact hbeyond pos' hlt hend
    | sequencePart h =>
      have hchild := hg.ordered.child_lt hnode (child_mem h)
      exact hlater pos' hlt hend _ (hchild.trans hnode) _ (fun pos'' hlt' hend' => hrest pos'' hlt'.le hend')
        fun _ => hrest pos' le_rfl hend

/-- A sequence ends if its left edges do. -/
theorem halts_sequence_at (hlater : ∀ pos', pos < pos' → pos' ≤ line.length → NodesHalt g line pos')
    (hnode : node < g.nodes.length) (hkind : (g.node node).kind = .sequence)
    (hedge : ∀ c, g.LeftEdge node c → ∀ next, HaltsBeyond g line next pos →
      (g.Nullable c → Halts g line (.continuation next pos)) → Halts g line (.node c pos next))
    (hbeyond : HaltsBeyond g line next pos) (hnull : g.Nullable node → Halts g line (.continuation next pos))
    (hbefore : ∀ k < childNo, g.Nullable (g.child ((g.node node).first + k))) :
    Halts g line (.sequence node childNo pos next) := by
  induction hm : (g.node node).count - childNo generalizing childNo with
  | zero =>
    refine halts_sequence fun call hcall => ?_
    cases hcall with
    | sequencePart h => omega
    | sequenceDone h =>
      refine hnull (.sequence hkind fun c hc => ?_)
      obtain ⟨k, hk, rfl⟩ := List.mem_map.mp hc
      exact hbefore k ((List.mem_range.mp hk).trans_le h)
  | succ m ih =>
    refine halts_sequence fun call hcall => ?_
    cases hcall with
    | sequenceDone h => omega
    | sequencePart h =>
      refine hedge _ (.sequence hkind (childrenOf_split h) fun b hb => ?_) _ (fun pos' hlt hend => ?_) fun hchild => ?_
      · obtain ⟨k, hk, rfl⟩ := List.mem_map.mp hb
        exact hbefore k (List.mem_range.mp hk)
      · refine halts_continuation fun call hcall => ?_
        cases hcall with
        | resumeSequence => exact halts_sequence_beyond hg hlater hnode hlt hend hbeyond
      · refine halts_continuation fun call hcall => ?_
        cases hcall with
        | resumeSequence =>
          refine ih (fun k hk => ?_) (by omega)
          rcases Nat.lt_succ_iff_lt_or_eq.mp hk with hk | rfl
          · exact hbefore k hk
          · exact hchild

/-! ### Repetitions -/

/-- A repetition ends, once something was consumed: each time a body matches, more of the line is
consumed, or the repetition is over. -/
theorem halts_repetition_beyond (hlater : ∀ pos', pos < pos' → pos' ≤ line.length → NodesHalt g line pos')
    (hnode : node < g.nodes.length) (hkind : (g.node node).kind = .repetition) (hcount : 0 < count)
    (hlt : pos < pos') (hend : pos' ≤ line.length) (hbeyond : HaltsBeyond g line next pos) :
    Halts g line (.repetition node count start pos' next) := by
  have hbody := hg.ordered.body_lt hnode hkind
  induction hm : line.length - pos' using Nat.strong_induction_on generalizing pos' count start with
  | _ m ih =>
    refine halts_repetition (hg.acc_leftEdge (hbody.trans hnode)) fun call hcall => ?_
    cases hcall with
    | scan _ _ => exact absurd hcount (Nat.lt_irrefl 0)
    | repetitionDone _ => exact hbeyond pos' hlt hend
    | body _ =>
      refine hlater pos' hlt hend _ (hbody.trans hnode) _ (fun pos'' hlt' hend' => ?_) fun _ => ?_
      · refine halts_continuation fun call hcall => ?_
        cases hcall with
        | resumeRepetition =>
          exact ih (line.length - pos'') (by omega) (Nat.succ_pos count) (hlt.trans hlt') hend' rfl
      · refine halts_continuation fun call hcall => ?_
        cases hcall with
        | resumeRepetition =>
          refine halts_repetition (hg.acc_leftEdge (hbody.trans hnode)) fun call hcall => ?_
          cases hcall with
          | repetitionDone _ => exact hbeyond pos' hlt hend
          | body hnot => exact absurd ⟨Nat.succ_pos count, rfl⟩ hnot

/-- A repetition ends if its body does. -/
theorem halts_repetition_at (hs : g.Sized) (hlater : ∀ pos', pos < pos' → pos' ≤ line.length → NodesHalt g line pos')
    (hnode : node < g.nodes.length) (hkind : (g.node node).kind = .repetition)
    (hedge : ∀ c, g.LeftEdge node c → ∀ next, HaltsBeyond g line next pos →
      (g.Nullable c → Halts g line (.continuation next pos)) → Halts g line (.node c pos next))
    (hbeyond : HaltsBeyond g line next pos) (hnull : g.Nullable node → Halts g line (.continuation next pos)) :
    Halts g line (.repetition node 0 pos pos next) := by
  have hbody := hg.ordered.body_lt hnode hkind
  have hacc := hg.acc_leftEdge (hbody.trans hnode)
  have hzero : (g.node node).lo ≤ 0 → g.Nullable node := fun hle =>
    .repetition hkind (.inl (le_antisymm hle (hs _ (Grammar.node_mem hnode) hkind)))
  refine halts_repetition hacc fun call hcall => ?_
  cases hcall with
  | @scan _ _ _ take _ hleast hmost =>
    rcases Nat.eq_zero_or_pos take with rfl | hpos
    · exact hnull (hzero hleast)
    · exact hbeyond (pos + take) (by omega) (by omega)
  | repetitionDone hleast => exact hnull (hzero hleast)
  | body _ =>
    refine hedge _ (.repetition hkind) _ (fun pos' hlt hend => ?_) fun hchild => ?_
    · refine halts_continuation fun call hcall => ?_
      cases hcall with
      | resumeRepetition => exact halts_repetition_beyond hg hlater hnode hkind Nat.one_pos hlt hend hbeyond
    · refine halts_continuation fun call hcall => ?_
      cases hcall with
      | resumeRepetition =>
        refine halts_repetition hacc fun call hcall => ?_
        cases hcall with
        | repetitionDone _ => exact hnull (.repetition hkind (.inr hchild))
        | body hnot => exact absurd ⟨Nat.one_pos, rfl⟩ hnot

/-! ### Nodes -/

/-- **Nodes end**, wherever they stand and whatever ends behind them. -/
theorem halts_node_at (hs : g.Sized) (pos : ℕ) : NodesHalt g line pos := by
  induction hm : line.length - pos using Nat.strong_induction_on generalizing pos with
  | _ m ih =>
    have hlater : ∀ pos', pos < pos' → pos' ≤ line.length → NodesHalt g line pos' :=
      fun pos' hlt hend => ih (line.length - pos') (by omega) pos' rfl
    intro node hnode next hbeyond hnull
    have hacc := hg.acc_leftEdge hnode
    induction hacc generalizing next with
    | intro node _ ihedge =>
      have hedge : ∀ c, g.LeftEdge node c → ∀ next, HaltsBeyond g line next pos →
          (g.Nullable c → Halts g line (.continuation next pos)) → Halts g line (.node c pos next) :=
        fun c hc next hbeyond hnull => ihedge c hc (hg.ordered.leftEdge_lt hnode hc) next hbeyond hnull
      refine halts_node fun call hcall => ?_
      cases hcall with
      | literal hkind hend =>
        rcases Nat.eq_zero_or_pos (g.literal (g.node node).literal).length with hzero | hpos
        · rw [hzero]
          exact hnull (.literal hkind (List.eq_nil_of_length_eq_zero hzero))
        · exact hbeyond _ (by omega) hend
      | octet _ hlt => exact hbeyond _ (Nat.lt_succ_self pos) hlt
      | reference hkind hroot =>
        exact hedge _ (.reference hkind hroot) next hbeyond fun h => hnull (.reference hkind hroot h)
      | capture hkind hroot =>
        refine hedge _ (.reference hkind hroot) _ (fun pos' hlt hend => ?_) fun h => ?_
        · refine halts_continuation fun call hcall => ?_
          cases hcall with
          | resumeCapture => exact hbeyond pos' hlt hend
        · refine halts_continuation fun call hcall => ?_
          cases hcall with
          | resumeCapture => exact hnull (.reference hkind hroot h)
      | sequence hkind =>
        exact halts_sequence_at hg hlater hnode hkind hedge hbeyond hnull fun k hk => absurd hk (Nat.not_lt_zero k)
      | alternation hkind hc =>
        exact hedge _ (.alternation hkind hc) next hbeyond fun h => hnull (.alternation hkind hc h)
      | repetition hkind => exact halts_repetition_at hg hs hlater hnode hkind hedge hbeyond hnull

omit hg

/-! ### No rule is entered again -/

/-- One node comes to another along left edges. -/
abbrev LeftOf (g : Grammar) : ℕ → ℕ → Prop := Relation.ReflTransGen g.LeftEdge

/-- Frames that were put in place since a node was entered here, and nothing was consumed. -/
def FramesHere (g : Grammar) (entered pos : ℕ) : List Frame → Prop
  | [] => True
  | .node _ :: _ => False
  | .sequence node childNo :: frames =>
    (LeftOf g entered node ∧ (g.node node).kind = .sequence ∧
      ∀ k < childNo, g.Nullable (g.child ((g.node node).first + k))) ∧
      (g.Nullable node → FramesHere g entered pos frames)
  | .repetition node count start :: frames =>
    (LeftOf g entered node ∧ (g.node node).kind = .repetition ∧ 0 < count ∧ start = pos ∧
      g.Nullable (g.child (g.node node).first)) ∧
      (g.Nullable node → FramesHere g entered pos frames)
  | .closeCapture _ _ :: frames => FramesHere g entered pos frames

/-- Such frames in front of those that were there, if the node in front of them matches nothing. -/
def Since (g : Grammar) (entered pos : ℕ) (next : List Frame) (node : ℕ) (frames : List Frame) : Prop :=
  ∃ since, frames = since ++ next ∧ (g.Nullable node → FramesHere g entered pos since)

/-- A call that is made here since a node was entered, and nothing was consumed. -/
def CallHere (g : Grammar) (entered pos : ℕ) (next : List Frame) : Call → Prop
  | .continuation frames _ => ∃ since, frames = since ++ next ∧ FramesHere g entered pos since
  | .sequence node childNo _ frames =>
    (LeftOf g entered node ∧ (g.node node).kind = .sequence ∧
      ∀ k < childNo, g.Nullable (g.child ((g.node node).first + k))) ∧ Since g entered pos next node frames
  | .repetition node count start _ frames =>
    (LeftOf g entered node ∧ (g.node node).kind = .repetition ∧
      (0 < count → start = pos ∧ g.Nullable (g.child (g.node node).first))) ∧ Since g entered pos next node frames
  | .node node _ frames => Relation.TransGen g.LeftEdge entered node ∧ Since g entered pos next node frames

/-- A call behind here, or here with nothing consumed. -/
def CallSince (g : Grammar) (entered pos : ℕ) (next : List Frame) (call : Call) : Prop :=
  pos < call.pos ∨ call.pos = pos ∧ CallHere g entered pos next call

variable {entered : ℕ} {call call' : Call} {frames : List Frame}

/-- A call is nowhere before the one that makes it. -/
theorem Calls.pos_le (h : Calls g line call call') : call.pos ≤ call'.pos := by
  cases h <;> simp only [Call.pos] <;> omega

/-- What a node calls, if it is on the left of what was entered. -/
theorem callSince_of_node (hleft : LeftOf g entered node)
    (hsince : Since g entered pos next node frames) (h : Calls g line (.node node pos frames) call) :
    CallSince g entered pos next call := by
  obtain ⟨since, hframes, hnull⟩ := hsince
  cases h with
  | literal hkind _ =>
    rcases Nat.eq_zero_or_pos (g.literal (g.node node).literal).length with hzero | hpos
    · refine .inr ⟨by simp [Call.pos, hzero], since, hframes, hnull ?_⟩
      exact .literal hkind (List.eq_nil_of_length_eq_zero hzero)
    · exact .inl (by simp only [Call.pos]; omega)
  | octet _ _ => exact .inl (Nat.lt_succ_self pos)
  | reference hkind hroot =>
    exact .inr ⟨rfl, .tail' hleft (.reference hkind hroot), since, hframes,
      fun h => hnull (.reference hkind hroot h)⟩
  | capture hkind hroot =>
    refine .inr ⟨rfl, .tail' hleft (.reference hkind hroot), _ :: since, congrArg (_ :: ·) hframes, ?_⟩
    exact fun h => hnull (.reference hkind hroot h)
  | sequence hkind =>
    exact .inr ⟨rfl, ⟨hleft, hkind, fun k hk => absurd hk (Nat.not_lt_zero k)⟩, since, hframes, hnull⟩
  | alternation hkind hc =>
    exact .inr ⟨rfl, .tail' hleft (.alternation hkind hc), since, hframes, fun h => hnull (.alternation hkind hc h)⟩
  | repetition hkind =>
    exact .inr ⟨rfl, ⟨hleft, hkind, fun h => absurd h (Nat.lt_irrefl 0)⟩, since, hframes, hnull⟩

/-- What a call here calls, as long as what was there at first stays. -/
theorem callSince_of_here (hg : g.Ordered) (hs : g.Sized) (hentered : entered < g.nodes.length)
    (h : CallHere g entered pos next call) (hpos : call.pos = pos) (hcall : Calls g line call call')
    (hstay : next <:+ call'.frames) : CallSince g entered pos next call' := by
  -- what is on the left of a node is a node
  have hbound : ∀ {m}, LeftOf g entered m → m < g.nodes.length := by
    intro m hm
    induction hm with
    | refl => exact hentered
    | tail _ hedge ih => exact hg.leftEdge_lt ih hedge
  -- nothing that was there at first is taken up
  have hnot : ∀ {frame : Frame} {rest : List Frame}, next = frame :: rest → ¬ next <:+ rest := by
    rintro frame rest rfl hsuffix
    have hlen := hsuffix.length_le
    rw [List.length_cons] at hlen
    omega
  cases call with
  | continuation frames p =>
    obtain rfl : p = pos := hpos
    obtain ⟨since, rfl, hhere⟩ := h
    rcases since with _ | ⟨frame, since⟩
    · exfalso
      rw [List.nil_append] at hcall
      cases hcall <;> exact hnot rfl hstay
    · cases frame with
      | node _ => exact hhere.elim
      | sequence node childNo =>
        cases hcall with
        | resumeSequence => exact .inr ⟨rfl, hhere.1, since, rfl, hhere.2⟩
      | repetition node count start =>
        obtain ⟨⟨hleft, hkind, hcount, hstart, hchild⟩, hrest⟩ := hhere
        cases hcall with
        | resumeRepetition => exact .inr ⟨rfl, ⟨hleft, hkind, fun _ => ⟨hstart, hchild⟩⟩, since, rfl, hrest⟩
      | closeCapture slot start =>
        cases hcall with
        | resumeCapture => exact .inr ⟨rfl, since, rfl, hhere⟩
  | sequence node childNo p frames =>
    obtain rfl : p = pos := hpos
    obtain ⟨⟨hleft, hkind, hbefore⟩, since, rfl, hnull⟩ := h
    cases hcall with
    | sequenceDone hdone =>
      refine .inr ⟨rfl, since, rfl, hnull (.sequence hkind fun c hc => ?_)⟩
      obtain ⟨k, hk, rfl⟩ := List.mem_map.mp hc
      exact hbefore k ((List.mem_range.mp hk).trans_le hdone)
    | sequencePart hpart =>
      have hedge : g.LeftEdge node (g.child ((g.node node).first + childNo)) :=
        .sequence hkind (childrenOf_split hpart) fun b hb => by
          obtain ⟨k, hk, rfl⟩ := List.mem_map.mp hb
          exact hbefore k (List.mem_range.mp hk)
      refine .inr ⟨rfl, .tail' hleft hedge, .sequence node (childNo + 1) :: since, rfl, fun hchild => ?_⟩
      refine ⟨⟨hleft, hkind, fun k hk => ?_⟩, hnull⟩
      rcases Nat.lt_succ_iff_lt_or_eq.mp hk with hk | rfl
      · exact hbefore k hk
      · exact hchild
  | repetition node count start p frames =>
    obtain rfl : p = pos := hpos
    obtain ⟨⟨hleft, hkind, hagain⟩, since, rfl, hnull⟩ := h
    have hzero : (g.node node).lo ≤ 0 → g.Nullable node := fun hle =>
      .repetition hkind (.inl (le_antisymm hle (hs _ (Grammar.node_mem (hbound hleft)) hkind)))
    cases hcall with
    | @scan _ _ _ take _ hleast _ =>
      rcases Nat.eq_zero_or_pos take with rfl | htake
      · exact .inr ⟨rfl, since, rfl, hnull (hzero hleast)⟩
      · exact .inl (by simp only [Call.pos]; omega)
    | body hnot' =>
      have hcount : count = 0 := by
        by_contra hne
        exact hnot' ⟨Nat.pos_of_ne_zero hne, (hagain (Nat.pos_of_ne_zero hne)).1.symm⟩
      refine .inr ⟨rfl, .tail' hleft (.repetition hkind), .repetition node (count + 1) p :: since, rfl, fun hchild => ?_⟩
      exact ⟨⟨hleft, hkind, Nat.succ_pos count, rfl, hchild⟩, hnull⟩
    | repetitionDone hdone =>
      refine .inr ⟨rfl, since, rfl, hnull ?_⟩
      rcases Nat.eq_zero_or_pos count with rfl | hcount
      · exact hzero hdone
      · exact .repetition hkind (.inr (hagain hcount).2)
  | node node p frames =>
    obtain rfl : p = pos := hpos
    exact callSince_of_node h.1.to_reflTransGen h.2 hcall

/-- A call is made while what was to come at first stays. -/
def CallsWithin (g : Grammar) (line : Str) (next : List Frame) (call call' : Call) : Prop :=
  Calls g line call call' ∧ next <:+ call'.frames

/-- **A node is not entered again while it is being matched**, unless an octet was consumed. -/
theorem not_reentered (hg : g.Accepted) (hs : g.Sized) (hnode : node < g.nodes.length) (frames : List Frame) :
    ¬ Relation.TransGen (CallsWithin g line next) (.node node pos next) (.node node pos (frames ++ next)) := by
  intro hpath
  have hsince : ∀ call, Relation.TransGen (CallsWithin g line next) (.node node pos next) call →
      CallSince g node pos next call := by
    intro call hcall
    induction hcall with
    | single hstep =>
      exact callSince_of_node .refl ⟨[], rfl, fun _ => trivial⟩ hstep.1
    | tail _ hstep ih =>
      rcases ih with hlt | ⟨heq, hhere⟩
      · exact .inl (hlt.trans_le hstep.1.pos_le)
      · exact callSince_of_here hg.ordered hs hnode hhere heq hstep.1 hstep.2
  rcases hsince _ hpath with hlt | ⟨-, hleft, -⟩
  · exact Nat.lt_irrefl pos hlt
  · exact hg.not_left_self hnode hleft

/-- **The interpreter ends without its limits.** -/
theorem ends_run (hg : g.Accepted) (hs : g.Sized) (line : Str) (rule : ℤ) (tables : Grammar.OctetTables) :
    Ends fun k => run .unlimited g line k rule tables := by
  have hend : ∀ pos, Halts g line (.continuation [] pos) := fun pos =>
    halts_continuation fun call hcall => by cases hcall
  by_cases hroot : g.ruleRoot rule = kNoRule
  · simp only [run, if_pos hroot]
    exact .pure _
  · simp only [run, if_neg hroot]
    exact (halts_node_at hg hs 0 _ (hg.ordered.root_lt hroot) [] (fun pos' _ _ => hend pos') (fun _ => hend 0) _).map

end TreeMatcher

end Abnf

end FtIrc
