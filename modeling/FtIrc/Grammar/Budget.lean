import FtIrc.Grammar.Shapes
import FtIrc.Grammar.Steps
import FtIrc.Library.Cost

/-!
# What the interpreter costs

A bound on the steps and the depth of the interpreter at a node, computed from a bound on what is to come
behind it (`FtIrc.Abnf.Grammar.cost`). Behind a rule nothing is to come but the end of the line, so that the
bound of a rule says for which lines the walk is not given up (`FtIrc.Abnf.TreeMatcher.not_exhausted`).

Bounds are for lines of some octets only (`plain`): a repetition that takes them all goes to the end
of the line at once, and needs not go back.
-/

namespace FtIrc

namespace Abnf

open Fuel

/-! ### Sets of octets as numbers -/

/-- The octets of a range. -/
def rangeMask (lo hi : ℤ) : ℕ := if hi < 0 then 0 else (2 ^ (hi.toNat + 1 - lo.toNat) - 1) <<< lo.toNat

theorem testBit_rangeMask {lo hi : ℤ} {n : ℕ} : (rangeMask lo hi).testBit n = true ↔ lo ≤ n ∧ (n : ℤ) ≤ hi := by
  rw [rangeMask]
  split_ifs with hneg
  · rw [Nat.zero_testBit]
    constructor
    · intro h
      cases h
    · rintro ⟨-, hle⟩
      omega
  · rw [Nat.testBit_shiftLeft, Nat.testBit_two_pow_sub_one, Bool.and_eq_true, decide_eq_true_iff, decide_eq_true_iff]
    omega

/-- An octet in both cases. -/
def caseMask (c : Octet) : ℕ := 2 ^ (foldOctet c).toNat ||| 2 ^ (raiseOctet (foldOctet c)).toNat

theorem testBit_caseMask {c x : Octet} : (caseMask c).testBit x.toNat = true ↔ foldOctet x = foldOctet c := by
  rw [caseMask, Nat.testBit_or, Nat.testBit_two_pow, Nat.testBit_two_pow, Bool.or_eq_true, decide_eq_true_iff, decide_eq_true_iff,
    ← mem_caseBits, ProgramCompiler.caseBits, Finset.mem_insert, Finset.mem_singleton, Nat.cast_inj, Nat.cast_inj]
  exact or_congr eq_comm eq_comm

namespace Grammar

variable {g : Grammar} {i k : ℕ} {c : Octet}

/-- The octets a node for single octets takes. -/
def octetMask (g : Grammar) : ℕ → ℕ → Option ℕ
  | 0, _ => none
  | k + 1, i =>
    let n := g.node i
    match n.kind with
    | .literal =>
      match g.literal n.literal with
      | [c] => some (caseMask c)
      | _ => none
    | .octetRange => some (rangeMask n.lo n.hi)
    | .reference => if g.ruleRoot n.lo = kNoRule then none else g.octetMask k (g.ruleRoot n.lo).toNat
    | .alternation => (patterns (g.octetMask k) (g.childrenOf n)).map fun masks => masks.foldr (· ||| ·) 0
    | .sequence => none
    | .repetition => none

theorem testBit_foldr_or {masks : List ℕ} {n : ℕ} : (masks.foldr (· ||| ·) 0).testBit n = true ↔ ∃ mask ∈ masks, mask.testBit n = true := by
  induction masks with
  | nil =>
    rw [List.foldr_nil, Nat.zero_testBit]
    simp
  | cons mask masks ih => rw [List.foldr_cons, Nat.testBit_or, Bool.or_eq_true, ih, List.exists_mem_cons_iff]

theorem testBit_octetMask {mask : ℕ} (h : g.octetMask k i = some mask) : mask.testBit c.toNat = true ↔ g.Takes c i := by
  induction k generalizing i mask with
  | zero => cases h
  | succ k ih =>
    simp only [octetMask] at h
    rcases hkind : (g.node i).kind <;> simp only [hkind] at h
    case literal =>
      rw [takes_literal_iff hkind]
      split at h
      · next d htext =>
        obtain rfl := Option.some.inj h
        rw [htext, testBit_caseMask]
        exact ⟨fun h => congrArg (fun x => [x]) h.symm, fun h => (List.singleton_inj.mp h).symm⟩
      · cases h
    case octetRange =>
      obtain rfl := Option.some.inj h
      rw [takes_octetRange_iff hkind, testBit_rangeMask]
    case reference =>
      split_ifs at h with hroot
      rw [takes_reference_iff hkind, ih h]
      exact ⟨fun h => ⟨hroot, h⟩, fun h => h.2⟩
    case alternation =>
      obtain ⟨masks, hmasks, rfl⟩ := Option.map_eq_some_iff.mp h
      rw [takes_alternation_iff hkind, testBit_foldr_or]
      have hall := patterns_eq_some.mp hmasks
      clear hmasks h hkind
      generalize g.childrenOf (g.node i) = is at hall
      induction hall with
      | nil => simp
      | cons hmask _ ihs =>
        rw [List.exists_mem_cons_iff, List.exists_mem_cons_iff, ih hmask]
        exact or_congr_right ihs
    case sequence | repetition => cases h

/-! ### The bound of a node -/

/-- One node after the other. -/
def rowCost (step : ℕ → Cost → Option Cost) (κ : Cost) : List ℕ → Option Cost
  | [] => some κ
  | i :: is => (rowCost step κ is).bind (step i)

/-- What may come behind so many turns of a repetition. -/
def stopCost (n : GrammarNode) (κ : Cost) (count : ℕ) : Cost := if n.lo ≤ count then κ else {}

/-- A repetition that may have so many turns more, of `most`. -/
def turnsCost (step : Cost → Option Cost) (n : GrammarNode) (κ : Cost) (most : ℕ) : ℕ → Option Cost
  | 0 => some (stopCost n κ most)
  | left + 1 => ((turnsCost step n κ most left).bind step).map fun b =>
      let stop := stopCost n κ (most - (left + 1))
      -- the turn is not taken where the one before has matched nothing
      { b.or stop with sure := stop.sure, sureAtEnd := stop.sureAtEnd }

/-- A repetition of single octets. -/
def scanCost (plain mask : ℕ) (n : GrammarNode) (κ : Cost) : Option Cost :=
  if κ.sureAtEnd = true ∧ mask &&& plain = plain ∧ n.lo ≤ 0 ∧ n.hi = kUnbounded then some (κ.scanAll mask)
  else if κ.sure = true ∨ mask &&& κ.opens = 0 then some (κ.scan mask (decide (n.lo ≤ 0)))
  else none

/-- **A bound on what the interpreter costs at a node**, from one on what is to come. -/
def cost (g : Grammar) (plain : ℕ) : ℕ → ℕ → Cost → Option Cost
  | 0, _, _ => none
  | k + 1, i, κ =>
    let n := g.node i
    Option.map Cost.enter <|
      match n.kind with
      | .literal =>
        match g.literal n.literal with
        | [] => none
        | c :: _ => some (κ.behind (caseMask c))
      | .octetRange => some (κ.behind (rangeMask n.lo n.hi))
      | .reference => if g.ruleRoot n.lo = kNoRule then none else g.cost plain k (g.ruleRoot n.lo).toNat κ
      | .sequence => rowCost (g.cost plain k) κ (g.childrenOf n)
      | .alternation => (patterns (fun c => g.cost plain k c κ) (g.childrenOf n)).map fun bs => bs.foldr Cost.or {}
      | .repetition =>
        (g.isSingleOctet k (g.child n.first) []).bind fun single =>
          if single.1 then (g.octetMask k (g.child n.first)).bind fun mask => scanCost plain mask n κ
          else if n.hi < 0 then none
          else turnsCost (g.cost plain k (g.child n.first)) n κ n.hi.toNat n.hi.toNat

end Grammar

/-! ### Walks within their limits -/

/-- From one walk to another one, in so many steps. -/
structure Walk.Advances (g : Grammar) (walk walk' : Walk) (cost : ℕ) : Prop where
  fit : walk'.Fit g
  steps : walk'.steps ≤ walk.steps + cost
  depth : walk'.depth = walk.depth

section Walks

variable {g : Grammar} {walk walk' walk'' : Walk} {cost cost' : ℕ}

theorem Walk.Fit.stays (h : walk.Fit g) (cost : ℕ) : walk.Advances g walk cost := ⟨h, Nat.le_add_right _ _, rfl⟩

theorem Walk.Advances.mono (h : walk.Advances g walk' cost) (hle : cost ≤ cost') : walk.Advances g walk' cost' :=
  ⟨h.fit, h.steps.trans (Nat.add_le_add_left hle _), h.depth⟩

theorem Walk.Advances.trans (h : walk.Advances g walk' cost) (h' : walk'.Advances g walk'' cost') :
    walk.Advances g walk'' (cost + cost') := by
  refine ⟨h'.fit, ?_, h'.depth.trans h.depth⟩
  have hfirst := h.steps
  have hsecond := h'.steps
  omega

end Walks

namespace TreeMatcher

/-- **What a computation costs at most.** Where that is within the limits, the limits change nothing about it, and
where it is sure it succeeds. -/
def Costs (g : Grammar) (most deepest : ℕ) (F : Limits → Walk → Option Outcome) (cost depth : ℕ) (sure : Prop) : Prop :=
  ∀ walk, walk.Fit g → walk.steps + cost ≤ most → walk.depth + depth ≤ deepest →
    F ⟨some most, some deepest⟩ walk = F .unlimited walk ∧
      ∀ r, F ⟨some most, some deepest⟩ walk = some r → walk.Advances g r.2 cost ∧ (sure → r.1 = true)

section Costs

variable {g : Grammar} {most deepest : ℕ} {walk : Walk} {cost cost' depth depth' : ℕ} {sure sure' : Prop}
  {F F' : Limits → Walk → Option Outcome}

theorem Costs.mono (h : Costs g most deepest F cost depth sure) (hcost : cost ≤ cost') (hdepth : depth ≤ depth')
    (hsure : sure' → sure) : Costs g most deepest F cost' depth' sure' := by
  intro walk hfit hsteps hdeep
  obtain ⟨heq, hgoes⟩ := h walk hfit (by omega) (by omega)
  refine ⟨heq, fun r hr => ?_⟩
  obtain ⟨hadvances, hfound⟩ := hgoes r hr
  exact ⟨hadvances.mono hcost, fun h => hfound (hsure h)⟩

theorem Costs.fails (hnot : ¬ sure) : Costs g most deepest (fun _ walk => some (false, walk)) cost depth sure := by
  intro walk hfit _ _
  refine ⟨rfl, fun r hr => ?_⟩
  obtain rfl := Option.some.inj hr
  exact ⟨hfit.stays cost, fun hsure => absurd hsure hnot⟩

/-- One way, and another one if that is not final. -/
theorem Costs.orElse (h : Costs g most deepest F cost depth sure) (h' : Costs g most deepest F' cost' depth' sure') :
    Costs g most deepest (fun limits walk => (F limits walk).bind fun r => if r.final then some r else F' limits r.2)
      (cost + cost') (max depth depth') (sure ∨ sure') := by
  intro walk hfit hsteps hdeep
  obtain ⟨heq, hgoes⟩ := h walk hfit (by omega) ((Nat.add_le_add_left (le_max_left _ _) _).trans hdeep)
  have hnext : ∀ r : Outcome, F ⟨some most, some deepest⟩ walk = some r → r.2.steps + cost' ≤ most ∧ r.2.depth + depth' ≤ deepest := by
    intro r hr
    obtain ⟨-, hadvanced, hlevel⟩ := (hgoes r hr).1
    have hle := le_max_right depth depth'
    exact ⟨by omega, by omega⟩
  constructor
  · dsimp only
    rw [← heq]
    refine Option.bind_congr fun r hr => ?_
    split_ifs
    · rfl
    · exact (h' r.2 (hgoes r hr).1.fit (hnext r hr).1 (hnext r hr).2).1
  · intro r' hr'
    obtain ⟨r, hr, hr'⟩ := Option.bind_eq_some_iff.mp hr'
    obtain ⟨hadvances, hfound⟩ := hgoes r hr
    split_ifs at hr' with hfinal
    · obtain rfl := Option.some.inj hr'
      have hyes : r.1 = true := by
        rw [Outcome.final, hadvances.fit.going, Bool.or_false] at hfinal
        exact hfinal
      exact ⟨hadvances.mono (Nat.le_add_right _ _), fun _ => hyes⟩
    · have hno : r.1 = false := by
        rw [Outcome.final, hadvances.fit.going, Bool.or_false] at hfinal
        exact Bool.eq_false_iff.mpr hfinal
      obtain ⟨hadvances', hfound'⟩ := (h' r.2 hadvances.fit (hnext r hr).1 (hnext r hr).2).2 r' hr'
      refine ⟨hadvances.trans hadvances', fun hsure => hfound' (hsure.resolve_left fun hsure => ?_)⟩
      exact Bool.false_ne_true (hno.symm.trans (hfound hsure))

/-- A loop over ways that cost so much each. -/
theorem Costs.firstOf {α : Type} {body : Limits → α → Walk → Option Outcome} {as : List α}
    (h : ∀ a ∈ as, Costs g most deepest (fun limits => body limits a) cost depth False) :
    Costs g most deepest (fun limits => firstOf (body limits) Outcome.final as) (as.length * cost) depth False := by
  induction as with
  | nil => exact .fails not_false
  | cons a as ih =>
    obtain ⟨ha, has⟩ := List.forall_mem_cons.mp h
    refine (ha.orElse (ih has)).mono ?_ (max_self depth).le fun h => h.elim
    rw [List.length_cons, Nat.succ_mul, Nat.add_comm]

/-- A loop the first way of which succeeds. -/
theorem Costs.firstOf_sure {α : Type} {body : Limits → α → Walk → Option Outcome} {a : α} {as : List α}
    (h : Costs g most deepest (fun limits => body limits a) cost depth True) :
    Costs g most deepest (fun limits => Fuel.firstOf (body limits) Outcome.final (a :: as)) cost depth True := by
  intro walk hfit hsteps hdeep
  obtain ⟨heq, hgoes⟩ := h walk hfit hsteps hdeep
  have hfirst : ∀ limits, (∀ r, body limits a walk = some r → r.1 = true) →
      Fuel.firstOf (body limits) Outcome.final (a :: as) walk = body limits a walk := by
    intro limits hyes
    rw [Fuel.firstOf]
    rcases hbody : body limits a walk with _ | r
    · rfl
    · rw [Option.bind_some, if_pos]
      rw [Outcome.final, hyes r hbody, Bool.true_or]
  have hyes : ∀ r, body ⟨some most, some deepest⟩ a walk = some r → r.1 = true := fun r hr => (hgoes r hr).2 trivial
  have hyes' : ∀ r, body .unlimited a walk = some r → r.1 = true := fun r hr => hyes r (heq.trans hr)
  constructor
  · exact (hfirst _ hyes).trans (heq.trans (hfirst _ hyes').symm)
  · intro r hr
    exact hgoes r ((hfirst _ hyes).symm.trans hr)

/-- A loop over ways that cost what is said of each. -/
theorem Costs.firstOf_or {α : Type} {body : Limits → α → Walk → Option Outcome} {as : List α} {bs : List Cost} {rest : Str}
    (h : List.Forall₂ (fun a b => Costs g most deepest (fun limits => body limits a) (b.on UInt8.toNat rest) b.depth (b.SureOn rest)) as bs) :
    Costs g most deepest (fun limits => Fuel.firstOf (body limits) Outcome.final as) ((bs.foldr Cost.or {}).on UInt8.toNat rest)
      (bs.foldr Cost.or {}).depth ((bs.foldr Cost.or {}).SureOn rest) := by
  induction h with
  | nil =>
    refine .fails ?_
    rintro (h | ⟨h, -⟩) <;> cases h
  | cons ha _ ih => exact (ha.orElse ih).mono (Cost.add_le_or_on _ _ _) le_rfl Cost.SureOn.of_or

end Costs

/-! ### Calls within their limits -/

section Calls

variable {g : Grammar} {line : Str} {most deepest : ℕ}

theorem Costs.none {cost depth : ℕ} {sure : Prop} : Costs g most deepest (fun _ _ => none) cost depth sure :=
  fun _ _ _ _ => ⟨rfl, fun _ h => by cases h⟩

theorem Costs.congr {F F' : Limits → Walk → Option Outcome} {cost depth : ℕ} {sure : Prop}
    (h : Costs g most deepest F' cost depth sure) (heq : ∀ limits walk, walk.Fit g → F limits walk = F' limits walk) :
    Costs g most deepest F cost depth sure := by
  intro walk hfit hsteps hdeep
  rw [heq _ _ hfit, heq _ _ hfit]
  exact h walk hfit hsteps hdeep

/-- **A call costs this at most**, wherever in the line it is made. -/
def CallCosts (g : Grammar) (line : Str) (most deepest : ℕ) (call : ℕ → Call) (b : Cost) : Prop :=
  ∀ k pos, pos ≤ line.length → Costs g most deepest (fun limits => perform limits g line (atEnd line) k (call pos))
    (b.on UInt8.toNat (line.drop pos)) b.depth (b.SureOn (line.drop pos))

variable {κ b : Cost} {next : List Frame} {i : ℕ}

/-- Nothing is to come but the end of the line. -/
theorem callCosts_nil : CallCosts g line most deepest (.continuation []) { sureAtEnd := true } := by
  intro k pos hpos
  cases k with
  | zero => exact .none
  | succ k =>
    have hend : ∀ limits walk, walk.Fit g → perform limits g line (atEnd line) (k + 1) (.continuation [] pos) walk =
        some (decide (pos = line.length), walk) := by
      intro limits walk hfit
      rw [perform, matchContinuation, if_neg (by simp [hfit.going])]
      rfl
    intro walk hfit _ _
    refine ⟨(hend _ _ hfit).trans (hend _ _ hfit).symm, fun r hr => ?_⟩
    obtain rfl := Option.some.inj ((hend _ _ hfit).symm.trans hr)
    refine ⟨hfit.stays _, fun hsure => decide_eq_true ?_⟩
    rcases hsure with hsure | ⟨-, hnil⟩
    · cases hsure
    · exact le_antisymm hpos (List.drop_eq_nil_iff.mp hnil)

theorem callCosts_closeCapture {slot start : ℕ} (h : CallCosts g line most deepest (.continuation next) κ) :
    CallCosts g line most deepest (.continuation (.closeCapture slot start :: next)) κ := by
  intro k pos hpos
  cases k with
  | zero => exact .none
  | succ k =>
    intro walk hfit hsteps hdeep
    have hstep : ∀ limits, perform limits g line (atEnd line) (k + 1) (.continuation (.closeCapture slot start :: next) pos) walk =
        (perform limits g line (atEnd line) k (.continuation next pos) (walk.push slot ((line.drop start).take (pos - start)))).map
          fun r => if r.1 then r else (false, r.2.takeBack slot walk) := by
      intro limits
      rw [perform, matchContinuation, if_neg (by simp [hfit.going])]
      rfl
    dsimp only
    rw [hstep, hstep]
    obtain ⟨heq, hgoes⟩ := h k pos hpos _ (hfit.push slot _) hsteps hdeep
    refine ⟨congrArg _ heq, fun r hr => ?_⟩
    obtain ⟨r', hr', rfl⟩ := Option.map_eq_some_iff.mp hr
    obtain ⟨hadvances, hfound⟩ := hgoes r' hr'
    split_ifs with hyes
    · exact ⟨⟨hadvances.fit, hadvances.steps, hadvances.depth⟩, fun _ => hyes⟩
    · exact ⟨⟨⟨hadvances.fit.going, hadvances.fit.tables⟩, hadvances.steps, hadvances.depth⟩, fun hsure => absurd (hfound hsure) hyes⟩

/-- A frame is done by the call it asks for. -/
theorem callCosts_continuation {frame : Frame} {call : ℕ → Call} (h : CallCosts g line most deepest call κ)
    (hstep : ∀ limits k pos walk, walk.Fit g →
      perform limits g line (atEnd line) (k + 1) (.continuation (frame :: next) pos) walk = perform limits g line (atEnd line) k (call pos) walk) :
    CallCosts g line most deepest (.continuation (frame :: next)) κ := by
  intro k pos hpos
  cases k with
  | zero => exact .none
  | succ k => exact (h k pos hpos).congr fun limits walk hfit => hstep limits k pos walk hfit

/-- **A node costs one step and one level more** than what is inside of it. -/
theorem callCosts_node (h : ∀ k pos, pos ≤ line.length →
      Costs g most deepest (fun limits => inside limits g line (atEnd line) k i pos next) (b.on UInt8.toNat (line.drop pos)) b.depth
        (b.SureOn (line.drop pos))) :
    CallCosts g line most deepest (fun pos => .node i pos next) b.enter := by
  intro k pos hpos
  cases k with
  | zero => exact .none
  | succ k =>
    intro walk hfit hsteps hdeep
    rw [Cost.enter_on] at hsteps
    have hstep : ∀ limits : Limits, (limits.stepsOver (walk.steps + 1) || limits.tooDeep walk.depth) = false →
        perform limits g line (atEnd line) (k + 1) (.node i pos next) walk =
          (inside limits g line (atEnd line) k i pos next walk.entered).map Outcome.returned := by
      intro limits hwithin
      rw [perform, matchNode, if_neg (by simp [hfit.going])]
      exact if_neg (by simp [hwithin])
    have hwithin : ((⟨some most, some deepest⟩ : Limits).stepsOver (walk.steps + 1) ||
        (⟨some most, some deepest⟩ : Limits).tooDeep walk.depth) = false := by
      change (decide (most < walk.steps + 1) || decide (deepest ≤ walk.depth)) = false
      have hdeep' : walk.depth + (b.depth + 1) ≤ deepest := hdeep
      rw [Bool.or_eq_false_iff, decide_eq_false_iff_not, decide_eq_false_iff_not]
      omega
    dsimp only
    rw [hstep _ hwithin, hstep .unlimited rfl]
    have hsteps' : walk.entered.steps + b.on UInt8.toNat (line.drop pos) ≤ most := by
      change walk.steps + 1 + _ ≤ _
      omega
    have hdeep' : walk.entered.depth + b.depth ≤ deepest := by
      change walk.depth + (b.depth + 1) ≤ deepest at hdeep
      change walk.depth + 1 + b.depth ≤ deepest
      omega
    obtain ⟨heq, hgoes⟩ := h k pos hpos _ hfit.entered hsteps' hdeep'
    refine ⟨congrArg _ heq, fun r hr => ?_⟩
    obtain ⟨r', hr', rfl⟩ := Option.map_eq_some_iff.mp hr
    obtain ⟨⟨hfit', hcost, hlevel⟩, hfound⟩ := hgoes r' hr'
    refine ⟨⟨⟨hfit'.going, hfit'.tables⟩, ?_, ?_⟩, hfound⟩
    · change r'.2.steps ≤ walk.steps + 1 + _ at hcost
      change r'.2.steps ≤ _
      rw [Cost.enter_on]
      omega
    · change r'.2.depth = walk.depth + 1 at hlevel
      change r'.2.depth - 1 = walk.depth
      omega

end Calls

/-! ### Repetitions of single octets -/

section Scan

variable {g : Grammar} {line : Str} {most deepest : ℕ} {κ b : Cost} {next : List Frame} {node : ℕ}

theorem countdown_eq_nil {taken least : ℕ} (h : taken < least) : countdown taken least = [] := by
  refine List.eq_nil_iff_forall_not_mem.mpr fun take htake => ?_
  have hbounds := mem_countdown.mp htake
  omega

theorem countdown_eq_cons {taken least : ℕ} (h : least ≤ taken) :
    ∃ takes, countdown taken least = taken :: takes ∧ (∀ take ∈ takes, take < taken) ∧ takes.length ≤ taken := by
  refine ⟨((List.range taken).drop least).reverse, ?_, fun take htake => ?_, ?_⟩
  · rw [countdown, List.range_succ, List.drop_append_of_le_length (by simpa using h), List.reverse_append]
    rfl
  · exact List.mem_range.mp (List.mem_of_mem_drop (List.mem_reverse.mp htake))
  · rw [List.length_reverse, List.length_drop, List.length_range]
    exact Nat.sub_le _ _

/-- Wherever the run is left but at its end, what is to come is refused. -/
theorem costs_countdown {body : Limits → ℕ → Walk → Option Outcome} {rest : Str} {taken least : ℕ}
    (h : ∀ take ≤ taken, Costs g most deepest (fun limits => body limits take) (κ.on UInt8.toNat (rest.drop take)) κ.depth
      (κ.SureOn (rest.drop take)))
    (hrefused : ∀ take < taken, κ.on UInt8.toNat (rest.drop take) ≤ κ.refused) (hle : least ≤ taken) :
    Costs g most deepest (fun limits => firstOf (body limits) Outcome.final (countdown taken least))
      (taken * κ.refused + κ.on UInt8.toNat (rest.drop taken)) κ.depth False := by
  obtain ⟨takes, htakes, hlt, hlen⟩ := countdown_eq_cons hle
  rw [htakes]
  have hothers : Costs g most deepest (fun limits => firstOf (body limits) Outcome.final takes) (takes.length * κ.refused) κ.depth False :=
    .firstOf fun take htake => (h take (hlt take htake).le).mono (hrefused take (hlt take htake)) le_rfl fun h => h.elim
  refine ((h taken le_rfl).orElse hothers).mono ?_ (max_self _).le fun h => h.elim
  have := Nat.mul_le_mul_right κ.refused hlen
  omega

/-- What a run of octets costs, whose end was found. -/
theorem costs_run {plain mask : ℕ} {n : GrammarNode} {body : Limits → ℕ → Walk → Option Outcome} {rest : Str} {taken : ℕ}
    (hcost : Grammar.scanCost plain mask n κ = some b) (hplain : ∀ c ∈ rest, plain.testBit c.toNat = true)
    (htaken : taken ≤ rest.length) (hrun : ∀ c ∈ rest.take taken, mask.testBit c.toNat = true)
    (hall : n.hi = kUnbounded → (∀ c ∈ rest, mask.testBit c.toNat = true) → taken = rest.length)
    (h : ∀ take ≤ taken, Costs g most deepest (fun limits => body limits take) (κ.on UInt8.toNat (rest.drop take)) κ.depth
      (κ.SureOn (rest.drop take))) :
    ∃ cost, taken + cost ≤ b.on UInt8.toNat rest ∧
      Costs g most deepest (fun limits => firstOf (body limits) Outcome.final (countdown taken n.lo.toNat)) cost b.depth (b.SureOn rest) := by
  have hsure : n.lo.toNat ≤ taken → κ.SureOn (rest.drop taken) →
      Costs g most deepest (fun limits => firstOf (body limits) Outcome.final (countdown taken n.lo.toNat))
        (κ.on UInt8.toNat (rest.drop taken)) κ.depth True := by
    intro hle hsure
    obtain ⟨takes, htakes, -, -⟩ := countdown_eq_cons hle
    rw [htakes]
    exact .firstOf_sure ((h taken le_rfl).mono le_rfl le_rfl fun _ => hsure)
  rw [Grammar.scanCost] at hcost
  split_ifs at hcost with hend hrefuses
  · obtain rfl := Option.some.inj hcost
    obtain ⟨hκ, hsubset, hlo, hhi⟩ := hend
    have hmask : ∀ c ∈ rest, mask.testBit c.toNat = true := by
      intro c hc
      have hboth := hplain c hc
      rw [← hsubset, Nat.testBit_and, Bool.and_eq_true] at hboth
      exact hboth.1
    have hlen := hall hhi hmask
    have hnil : rest.drop taken = [] := List.drop_eq_nil_of_le hlen.ge
    refine ⟨κ.ended, ?_, ?_⟩
    · rw [Cost.scanAll_on hmask, hlen]
    · have hcosts := hsure ((Int.toNat_eq_zero.mpr hlo).trans_le (Nat.zero_le _)) (.inr ⟨hκ, hnil⟩)
      rw [hnil] at hcosts
      exact hcosts.mono le_rfl le_rfl fun _ => trivial
  · obtain rfl := Option.some.inj hcost
    rw [Cost.scan_depth]
    have hoptional : decide (n.lo ≤ 0) = true ↔ n.lo.toNat = 0 := decide_eq_true_iff.trans Int.toNat_eq_zero.symm
    have hbound : decide (n.lo ≤ 0) = true ∨ 0 < taken → taken * (1 + κ.refused) + κ.on UInt8.toNat (rest.drop taken) ≤
        (κ.scan mask (decide (n.lo ≤ 0))).on UInt8.toNat rest := Cost.le_scan_on htaken hrun
    rw [Nat.mul_add, Nat.mul_one] at hbound
    by_cases hfew : taken < n.lo.toNat
    · refine ⟨0, ?_, ?_⟩
      · rcases Nat.eq_zero_or_pos taken with rfl | hpos
        · exact Nat.zero_le _
        · have := hbound (.inr hpos)
          omega
      · rw [countdown_eq_nil hfew]
        refine .fails fun hb => ?_
        have := hoptional.mp hb.of_scan.1
        omega
    have hle : n.lo.toNat ≤ taken := not_lt.mp hfew
    have henough : decide (n.lo ≤ 0) = true ∨ 0 < taken := by
      rcases Nat.eq_zero_or_pos taken with rfl | hpos
      · exact .inl (hoptional.mpr (Nat.le_zero.mp hle))
      · exact .inr hpos
    have hbound := hbound henough
    by_cases hκ : κ.SureOn (rest.drop taken)
    · refine ⟨κ.on UInt8.toNat (rest.drop taken), by omega, ?_⟩
      exact (hsure hle hκ).mono le_rfl le_rfl fun _ => trivial
    · have hdisjoint : mask &&& κ.opens = 0 := hrefuses.resolve_left fun h => hκ (.inl h)
      refine ⟨taken * κ.refused + κ.on UInt8.toNat (rest.drop taken), by omega, ?_⟩
      refine (costs_countdown h (fun take htake => ?_) hle).mono le_rfl le_rfl fun hb => hκ ?_
      · have hlt : take < rest.length := htake.trans_le htaken
        rw [List.drop_eq_getElem_cons hlt, Cost.on]
        have hin := hrun _ (List.mem_take_iff_getElem.mpr ⟨take, lt_min htake hlt, rfl⟩)
        have hout : κ.opens.testBit (rest[take]).toNat = false := by
          have hboth := congrArg (fun x => x.testBit (rest[take]).toNat) hdisjoint
          simp only [Nat.testBit_and, Nat.zero_testBit, hin, Bool.true_and] at hboth
          exact hboth
        rw [hout, if_neg Bool.false_ne_true]
      · rcases hb.of_scan.2 with hκ | ⟨hκ, hnil⟩
        · exact .inl hκ
        · exact .inr ⟨hκ, by rw [hnil, List.drop_nil]⟩

/-- **The branch by a bitmap.** -/
theorem costs_bitmapBranch {plain mask k pos : ℕ} (hcost : Grammar.scanCost plain mask (g.node node) κ = some b)
    (hmask : ∀ c : Octet, mask.testBit c.toNat = true ↔ g.Takes c (g.child (g.node node).first))
    (hplain : ∀ c ∈ line, plain.testBit c.toNat = true) (hnext : CallCosts g line most deepest (.continuation next) κ)
    (hpos : pos ≤ line.length) :
    Costs g most deepest (fun limits => bitmapBranch limits g line (atEnd line) k node pos next)
      (b.on UInt8.toNat (line.drop pos)) b.depth (b.SureOn (line.drop pos)) := by
  intro walk hfit hsteps hdeep
  rcases hbitmap : g.octetBitmap k (g.child (g.node node).first) walk.tables with _ | bitmap
  · have hnone : ∀ limits, bitmapBranch limits g line (atEnd line) k node pos next walk = none := by
      intro limits
      rw [bitmapBranch, hbitmap]
      rfl
    exact ⟨(hnone _).trans (hnone _).symm, fun r hr => by cases (hnone _).symm.trans hr⟩
  obtain ⟨⟨m, hm⟩, htables⟩ := hfit.tables.looked hbitmap
  have hbits : ∀ c, c ∈ bitmap.1 ↔ mask.testBit c.toNat = true := fun c =>
    ((Grammar.mem_matchedOctets hm).trans ⟨fun h => h.2, fun h => ⟨Grammar.mem_allOctets c, h⟩⟩).trans (hmask c).symm
  have hbranch : ∀ limits, bitmapBranch limits g line (atEnd line) k node pos next walk =
      if limits.stepsOver (walk.steps + takenFrom line bitmap.1 (g.node node).hi pos) then
        some (false, { walk.scanned bitmap.2 (takenFrom line bitmap.1 (g.node node).hi pos) with exhausted := true })
      else firstOf (fun take walk => perform limits g line (atEnd line) k (.continuation next (pos + take)) walk) Outcome.final
        (countdown (takenFrom line bitmap.1 (g.node node).hi pos) (g.node node).lo.toNat)
        (walk.scanned bitmap.2 (takenFrom line bitmap.1 (g.node node).hi pos)) := by
    intro limits
    rw [bitmapBranch, hbitmap]
    rfl
  -- the run is what the loop of the source has counted
  obtain ⟨most', htaken⟩ : ∃ most', takenFrom line bitmap.1 (g.node node).hi pos =
      (((line.drop pos).take most').takeWhile fun c => decide (c ∈ bitmap.1)).length ∧
        ((g.node node).hi = kUnbounded → most' = line.length) := by
    refine ⟨_, rfl, fun hhi => ?_⟩
    rw [if_pos hhi]
  generalize takenFrom line bitmap.1 (g.node node).hi pos = taken at hbranch htaken
  obtain ⟨rfl, hunbounded⟩ := htaken
  have hrun : (line.drop pos).take (((line.drop pos).take most').takeWhile fun c => decide (c ∈ bitmap.1)).length =
      ((line.drop pos).take most').takeWhile fun c => decide (c ∈ bitmap.1) :=
    (List.prefix_iff_eq_take.mp ((List.takeWhile_prefix _).trans (List.take_prefix _ _))).symm
  have hbehind : ∀ take ≤ (((line.drop pos).take most').takeWhile fun c => decide (c ∈ bitmap.1)).length,
      Costs g most deepest (fun limits => perform limits g line (atEnd line) k (.continuation next (pos + take)))
        (κ.on UInt8.toNat ((line.drop pos).drop take)) κ.depth (κ.SureOn ((line.drop pos).drop take)) := by
    intro take htake
    have hlen := htake.trans ((List.takeWhile_prefix _).length_le.trans (List.length_take_le' _ _))
    rw [List.length_drop] at hlen
    rw [List.drop_drop]
    exact hnext k (pos + take) (by omega)
  obtain ⟨cost, hle, hloop⟩ := costs_run hcost (fun c hc => hplain c (List.mem_of_mem_drop hc))
    ((List.takeWhile_prefix _).length_le.trans (List.length_take_le' _ _))
    (fun c hc => (hbits c).mp (by
      rw [hrun] at hc
      have hin := List.mem_takeWhile_imp hc
      exact of_decide_eq_true hin))
    (fun hhi hin => by
      rw [hunbounded hhi, List.take_of_length_le (by rw [List.length_drop]; omega), List.takeWhile_eq_self_iff.mpr]
      exact fun c hc => decide_eq_true ((hbits c).mpr (hin c hc)))
    hbehind
  generalize (((line.drop pos).take most').takeWhile fun c => decide (c ∈ bitmap.1)).length = taken at hbranch hle hloop
  have hscanned : (walk.scanned bitmap.2 taken).steps + cost ≤ most := by
    change walk.steps + taken + cost ≤ most
    omega
  have hwithin : ¬ (⟨some most, some deepest⟩ : Limits).stepsOver (walk.steps + taken) = true := by
    change ¬ decide (most < walk.steps + taken) = true
    rw [decide_eq_true_iff]
    omega
  obtain ⟨heq, hgoes⟩ := hloop _ (hfit.scanned htables taken) hscanned hdeep
  have hlimited := (hbranch ⟨some most, some deepest⟩).trans (if_neg hwithin)
  refine ⟨hlimited.trans (heq.trans (hbranch .unlimited).symm), fun r hr => ?_⟩
  obtain ⟨hadvances, hfound⟩ := hgoes r (hlimited.symm.trans hr)
  refine ⟨⟨hadvances.fit, ?_, hadvances.depth⟩, hfound⟩
  have hmore : r.2.steps ≤ walk.steps + taken + cost := hadvances.steps
  omega

end Scan

/-! ### Nodes -/

section Nodes

variable {g : Grammar} {line : Str} {most deepest plain : ℕ} {κ b : Cost} {next : List Frame}

/-- Nodes with a bound cost that. -/
def NodesCost (g : Grammar) (line : Str) (most deepest : ℕ) (step : ℕ → Cost → Option Cost) : Prop :=
  ∀ i next κ b, step i κ = some b → CallCosts g line most deepest (.continuation next) κ →
    CallCosts g line most deepest (fun pos => .node i pos next) b

/-- The rest of a sequence. -/
theorem callCosts_sequence {step : ℕ → Cost → Option Cost} (hstep : NodesCost g line most deepest step)
    (hnext : CallCosts g line most deepest (.continuation next) κ) {node childNo : ℕ}
    (hcost : Grammar.rowCost step κ ((g.childrenOf (g.node node)).drop childNo) = some b) :
    CallCosts g line most deepest (fun pos => .sequence node childNo pos next) b := by
  have hlen : (g.childrenOf (g.node node)).length = (g.node node).count := by
    rw [Grammar.childrenOf, List.length_map, List.length_range]
  generalize his : (g.childrenOf (g.node node)).drop childNo = is at hcost
  induction is generalizing childNo b with
  | nil =>
    have hdone : (g.node node).count ≤ childNo := hlen ▸ List.drop_eq_nil_iff.mp his
    obtain rfl := Option.some.inj hcost
    intro k pos hpos
    cases k with
    | zero => exact .none
    | succ k =>
      refine (hnext k pos hpos).congr fun limits walk _ => ?_
      change matchSequence limits g line (atEnd line) (k + 1) node childNo pos next walk = _
      rw [matchSequence]
      exact if_pos hdone
  | cons i is ih =>
    obtain ⟨b', hrest, hcost⟩ := Option.bind_eq_some_iff.mp hcost
    have hlt : childNo < (g.childrenOf (g.node node)).length := by
      by_contra hge
      rw [List.drop_eq_nil_of_le (not_lt.mp hge)] at his
      cases his
    rw [List.drop_eq_getElem_cons hlt] at his
    obtain ⟨hi, his⟩ := List.cons.inj his
    have hget : (g.childrenOf (g.node node))[childNo] = g.child ((g.node node).first + childNo) := by
      simp [Grammar.childrenOf]
    have hahead : CallCosts g line most deepest (.continuation (.sequence node (childNo + 1) :: next)) b' := by
      refine callCosts_continuation (ih his hrest) fun limits k pos walk hfit => ?_
      rw [perform, matchContinuation, if_neg (by simp [hfit.going])]
      rfl
    intro k pos hpos
    cases k with
    | zero => exact .none
    | succ k =>
      refine (hstep i _ _ _ hcost hahead k pos hpos).congr fun limits walk _ => ?_
      change matchSequence limits g line (atEnd line) (k + 1) node childNo pos next walk = _
      rw [matchSequence, ← hi, hget]
      exact if_neg (by omega)

/-- A repetition asks which of its branches it goes through. -/
theorem Costs.asks {F F' : Limits → Walk → Option Outcome} {k child count cost depth : ℕ} {sure : Prop} (hg : g.Accepted)
    (h : count = 0 ∧ g.Single child → Costs g most deepest F cost depth sure)
    (h' : ¬ (count = 0 ∧ g.Single child) → Costs g most deepest F' cost depth sure) :
    Costs g most deepest (fun limits walk => (asksSingleOctet g k child count walk).bind fun asked =>
      if asked.1 then F limits asked.2 else F' limits asked.2) cost depth sure := by
  intro walk hfit hsteps hdeep
  dsimp only
  rcases hasked : asksSingleOctet g k child count walk with _ | asked
  · exact ⟨rfl, fun r hr => by cases hr⟩
  obtain ⟨hright, hfit', -⟩ := asksSingleOctet_spec hg hfit ⟨k, hasked⟩
  have hsame : asked.2.steps = walk.steps ∧ asked.2.depth = walk.depth := by
    rw [asksSingleOctet] at hasked
    split_ifs at hasked
    · obtain ⟨r, -, rfl⟩ := Option.map_eq_some_iff.mp hasked
      exact ⟨rfl, rfl⟩
    · obtain rfl := Option.some.inj hasked
      exact ⟨rfl, rfl⟩
  simp only [Option.bind_some]
  have hcosts : Costs g most deepest (fun limits walk => if asked.1 then F limits walk else F' limits walk) cost depth sure := by
    cases hyes : asked.1 with
    | true => exact h (hright.mp hyes)
    | false => exact h' fun hsingle => Bool.false_ne_true (hyes.symm.trans (hright.mpr hsingle))
  obtain ⟨heq, hgoes⟩ := hcosts asked.2 hfit' (hsame.1 ▸ hsteps) (hsame.2 ▸ hdeep)
  refine ⟨heq, fun r hr => ?_⟩
  obtain ⟨⟨hfit'', hmore, hlevel⟩, hfound⟩ := hgoes r hr
  exact ⟨⟨hfit'', hsame.1 ▸ hmore, hsame.2 ▸ hlevel⟩, hfound⟩

theorem costs_matchRepetition {node count start pos cost depth : ℕ} {sure : Prop} (hg : g.Accepted)
    (h : count = 0 ∧ g.Single (g.child (g.node node).first) → ∀ k, Costs g most deepest
      (fun limits => bitmapBranch limits g line (atEnd line) k node pos next) cost depth sure)
    (h' : ¬ (count = 0 ∧ g.Single (g.child (g.node node).first)) → ∀ k, Costs g most deepest
      (fun limits => generalBranch limits g line (atEnd line) k node count start pos next) cost depth sure) (k : ℕ) :
    Costs g most deepest (fun limits => matchRepetition limits g line (atEnd line) k node count start pos next) cost depth sure := by
  cases k with
  | zero => exact Costs.none.congr fun limits walk _ => by rw [matchRepetition]
  | succ k =>
    refine (Costs.asks (k := k) hg (fun hsingle => h hsingle k) (fun hnot => h' hnot k)).congr fun limits walk hfit => ?_
    rw [matchRepetition_succ, if_neg (by simp [hfit.going])]

/-- What comes behind so many turns. -/
theorem costs_stop {n : GrammarNode} {count k pos : ℕ} (hnext : CallCosts g line most deepest (.continuation next) κ)
    (hpos : pos ≤ line.length) :
    Costs g most deepest (fun limits walk =>
        if n.lo ≤ count then matchContinuation limits g line (atEnd line) k next pos walk else some (false, walk))
      ((Grammar.stopCost n κ count).on UInt8.toNat (line.drop pos)) (Grammar.stopCost n κ count).depth
      ((Grammar.stopCost n κ count).SureOn (line.drop pos)) := by
  by_cases hlo : n.lo ≤ count
  · simp only [Grammar.stopCost, if_pos hlo]
    exact hnext k pos hpos
  · simp only [Grammar.stopCost, if_neg hlo]
    refine .fails ?_
    rintro (h | ⟨h, -⟩) <;> cases h

/-- **A repetition that goes through its body**, with so many turns left. -/
theorem callCosts_repetition {step : ℕ → Cost → Option Cost} (hg : g.Accepted) (hstep : NodesCost g line most deepest step)
    (hnext : CallCosts g line most deepest (.continuation next) κ) {node left : ℕ} (hhi : 0 ≤ (g.node node).hi)
    (hnot : ¬ g.Single (g.child (g.node node).first)) (hleft : left ≤ (g.node node).hi.toNat)
    (hcost : Grammar.turnsCost (step (g.child (g.node node).first)) (g.node node) κ (g.node node).hi.toNat left = some b)
    (start : ℕ → ℕ) :
    CallCosts g line most deepest (fun pos => .repetition node ((g.node node).hi.toNat - left) (start pos) pos next) b := by
  have hbranches : ∀ {left : ℕ} {b : Cost} {start : ℕ → ℕ}, (∀ k pos, pos ≤ line.length → Costs g most deepest (fun limits =>
        generalBranch limits g line (atEnd line) k node ((g.node node).hi.toNat - left) (start pos) pos next)
      (b.on UInt8.toNat (line.drop pos)) b.depth (b.SureOn (line.drop pos))) →
      CallCosts g line most deepest (fun pos => .repetition node ((g.node node).hi.toNat - left) (start pos) pos next) b := by
    intro left b start h k pos hpos
    exact costs_matchRepetition hg (fun h => absurd h.2 hnot) (fun _ k => h k pos hpos) k
  have hbounded : (g.node node).hi ≠ kUnbounded := by
    rw [kUnbounded]
    omega
  induction left generalizing b start with
  | zero =>
    obtain rfl := Option.some.inj hcost
    refine hbranches fun k pos hpos => (costs_stop (k := k) hnext hpos).congr fun limits walk _ => ?_
    rw [generalBranch]
    refine if_neg ?_
    rintro ⟨hmore | hmore, -⟩
    · exact hbounded hmore
    · omega
  | succ left ih =>
    obtain ⟨b', hturn, rfl⟩ := Option.map_eq_some_iff.mp hcost
    obtain ⟨b'', hrest, hbody⟩ := Option.bind_eq_some_iff.mp hturn
    refine hbranches fun k pos hpos => ?_
    have hahead : CallCosts g line most deepest
        (.continuation (.repetition node ((g.node node).hi.toNat - (left + 1) + 1) pos :: next)) b'' := by
      have hcount : (g.node node).hi.toNat - (left + 1) + 1 = (g.node node).hi.toNat - left := by omega
      rw [hcount]
      refine callCosts_continuation (ih (by omega) hrest fun _ => pos) fun limits k pos walk hfit => ?_
      rw [perform, matchContinuation, if_neg (by simp [hfit.going])]
      rfl
    have hagain := hstep _ _ _ _ hbody hahead k pos hpos
    have hstop : Costs g most deepest (fun limits walk =>
        if (g.node node).lo ≤ ((g.node node).hi.toNat - (left + 1) : ℕ) then
          matchContinuation limits g line (atEnd line) k next pos walk else some (false, walk)) _ _ _ := costs_stop hnext hpos
    by_cases hstuck : 0 < (g.node node).hi.toNat - (left + 1) ∧ pos = start pos
    · refine (hstop.mono ((Nat.le_add_left _ _).trans (Cost.add_le_or_on b' _ _)) (le_max_right _ _) id).congr fun limits walk _ => ?_
      rw [generalBranch]
      exact if_neg fun h => h.2 hstuck
    · refine ((hagain.orElse hstop).mono (Cost.add_le_or_on b' _ _) le_rfl .inr).congr fun limits walk _ => ?_
      rw [generalBranch]
      exact if_pos ⟨.inr (by omega), hstuck⟩

end Nodes

/-- **A node costs what was computed.** -/
theorem nodesCost_cost {g : Grammar} {line : Str} {most deepest plain : ℕ} (hg : g.Accepted)
    (hplain : ∀ c ∈ line, plain.testBit c.toNat = true) (k : ℕ) : NodesCost g line most deepest (g.cost plain k) := by
  induction k with
  | zero =>
    intro i next κ b hcost
    cases hcost
  | succ k ih =>
    intro i next κ b hcost hnext
    obtain ⟨b, hinside, rfl⟩ := Option.map_eq_some_iff.mp hcost
    refine callCosts_node fun m pos hpos => ?_
    have hrefuses : ∀ {mask cost depth}, Costs g most deepest (fun _ walk => some (false, walk)) cost depth
        ((κ.behind mask).SureOn (line.drop pos)) := by
      intro mask cost depth
      refine .fails ?_
      rintro (h | ⟨h, -⟩) <;> cases h
    rcases hkind : (g.node i).kind <;> simp only [hkind] at hinside
    case literal =>
      split at hinside
      · cases hinside
      next c text htext =>
      obtain rfl := Option.some.inj hinside
      by_cases hmatches : pos + (g.literal (g.node i).literal).length ≤ line.length ∧
          asciiFold ((line.drop pos).take (g.literal (g.node i).literal).length) = asciiFold (g.literal (g.node i).literal)
      · have hlt : pos < line.length := by
          have hlen := hmatches.1
          rw [htext, List.length_cons] at hlen
          omega
        have hfirst : foldOctet (line)[pos] = foldOctet c := by
          have hfold := hmatches.2
          rw [htext, List.length_cons, List.drop_eq_getElem_cons hlt, List.take_succ_cons] at hfold
          exact (List.cons.inj hfold).1
        have hle : κ.on UInt8.toNat (line.drop (pos + (g.literal (g.node i).literal).length)) ≤
            (κ.behind (caseMask c)).on UInt8.toNat (line.drop pos) := by
          rw [List.drop_eq_getElem_cons hlt]
          refine Cost.le_behind_on (testBit_caseMask.mpr hfirst) ?_
          rw [htext]
          simp only [List.length_drop, List.length_cons]
          omega
        refine ((hnext m _ hmatches.1).mono hle le_rfl ?_).congr fun limits walk _ => ?_
        · rintro (h | ⟨h, -⟩) <;> cases h
        · simp only [inside, hkind, if_pos hmatches]
          rfl
      · refine hrefuses.congr fun limits walk _ => ?_
        simp only [inside, hkind, if_neg hmatches]
    case octetRange =>
      obtain rfl := Option.some.inj hinside
      by_cases hin : (line)[pos]?.any (fun c => decide ((g.node i).lo ≤ c.toNat ∧ (c.toNat : ℤ) ≤ (g.node i).hi)) = true
      · obtain ⟨c, hget, hrange⟩ := (Option.any_eq_true _ _).mp hin
        obtain ⟨hlt, rfl⟩ := List.getElem?_eq_some_iff.mp hget
        have hle : κ.on UInt8.toNat (line.drop (pos + 1)) ≤
            (κ.behind (rangeMask (g.node i).lo (g.node i).hi)).on UInt8.toNat (line.drop pos) := by
          rw [List.drop_eq_getElem_cons hlt]
          exact Cost.le_behind_on (testBit_rangeMask.mpr (of_decide_eq_true hrange)) le_rfl
        refine ((hnext m _ hlt).mono hle le_rfl ?_).congr fun limits walk _ => ?_
        · rintro (h | ⟨h, -⟩) <;> cases h
        · simp only [inside, hkind, if_pos hin]
          rfl
      · refine hrefuses.congr fun limits walk _ => ?_
        simp only [inside, hkind, if_neg hin]
    case reference =>
      split_ifs at hinside with hroot
      by_cases hcapture : (g.node i).capture = kNoCapture
      · refine (ih _ _ _ _ hinside hnext m pos hpos).congr fun limits walk _ => ?_
        simp only [inside, hkind, if_neg hroot, if_pos hcapture]
        rfl
      · have hclose : CallCosts g line most deepest (.continuation (.closeCapture (g.node i).capture.toNat pos :: next)) κ :=
          callCosts_closeCapture hnext
        refine (ih _ _ _ _ hinside hclose m pos hpos).congr fun limits walk _ => ?_
        simp only [inside, hkind, if_neg hroot, if_neg hcapture]
        rfl
    case sequence =>
      rw [← List.drop_zero (l := g.childrenOf (g.node i))] at hinside
      refine (callCosts_sequence ih hnext hinside m pos hpos).congr fun limits walk _ => ?_
      simp only [inside, hkind]
      rfl
    case alternation =>
      obtain ⟨bs, hbs, rfl⟩ := Option.map_eq_some_iff.mp hinside
      refine (Costs.firstOf_or ((Grammar.patterns_eq_some.mp hbs).imp fun child b hb =>
        ih child next κ b hb hnext m pos hpos)).congr fun limits walk _ => ?_
      simp only [inside, hkind]
      rfl
    case repetition =>
      obtain ⟨single, hsingle, hinside⟩ := Option.bind_eq_some_iff.mp hinside
      obtain ⟨hright, -⟩ := Grammar.Filled.empty.right hg |>.asked hg hsingle
      split_ifs at hinside with hyes hneg
      · obtain ⟨mask, hmask, hscan⟩ := Option.bind_eq_some_iff.mp hinside
        have hbitmap := fun k => costs_bitmapBranch (k := k) hscan (fun c => Grammar.testBit_octetMask hmask) hplain hnext hpos
        have hcosts : Costs g most deepest (fun limits => matchRepetition limits g line (atEnd line) m i 0 pos pos next) _ _ _ :=
          costs_matchRepetition hg (fun _ => hbitmap) (fun h => absurd ⟨rfl, hright.mp hyes⟩ h) m
        refine hcosts.congr fun limits walk _ => ?_
        simp only [inside, hkind]
      · have hcosts := callCosts_repetition hg ih hnext (not_lt.mp hneg) (fun h => hyes (hright.mpr h)) le_rfl hinside id m pos hpos
        rw [Nat.sub_self] at hcosts
        refine hcosts.congr fun limits walk _ => ?_
        simp only [inside, hkind]
        rfl

/-- **A walk within its limits** is the one without limits, and it is not given up. -/
theorem run_eq_unlimited {g : Grammar} {line : Str} {most deepest plain k k' : ℕ} {rule : ℤ} {b : Cost} {tables : Grammar.OctetTables}
    (hg : g.Accepted) (hplain : ∀ c ∈ line, plain.testBit c.toNat = true)
    (hcost : g.cost plain k (g.ruleRoot rule).toNat { sureAtEnd := true } = some b)
    (hsteps : b.most + b.rate * line.length ≤ most) (hdepth : b.depth ≤ deepest) (htables : g.Filled tables) :
    run ⟨some most, some deepest⟩ g line k' rule tables = run .unlimited g line k' rule tables ∧
      ∀ r, run ⟨some most, some deepest⟩ g line k' rule tables = some r → r.2.1 = false := by
  rw [run, run]
  by_cases hroot : g.ruleRoot rule = kNoRule
  · rw [if_pos hroot, if_pos hroot]
    refine ⟨rfl, fun r hr => ?_⟩
    obtain rfl := Option.some.inj hr
    rfl
  rw [if_neg hroot, if_neg hroot]
  have hfit : ({ values := g.captureNames.map fun _ => [], tables := tables } : Walk).Fit g := ⟨rfl, htables.right hg⟩
  have hwithin : b.on UInt8.toNat (line.drop 0) ≤ most := (b.on_le _).trans (by rwa [List.drop_zero])
  obtain ⟨heq, hgoes⟩ := nodesCost_cost hg hplain k _ [] _ b hcost callCosts_nil k' 0 (Nat.zero_le _) _ hfit
    ((Nat.zero_add _).trans_le hwithin) ((Nat.zero_add _).trans_le hdepth)
  refine ⟨congrArg _ heq, fun r hr => ?_⟩
  obtain ⟨r', hr', rfl⟩ := Option.map_eq_some_iff.mp hr
  exact (hgoes r' hr').1.fit.going

end TreeMatcher

end Abnf

end FtIrc
