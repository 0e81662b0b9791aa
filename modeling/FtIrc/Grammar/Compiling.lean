import FtIrc.Grammar.OctetTables
import FtIrc.Grammar.Stored

/-!
# The end of compilation

A rule that is being written out is marked, so that the compiler comes to an end although it writes
rules out where they are referred to. What a node leads to is `FtIrc.Abnf.Grammar.Edge`; a rule that
leads to itself is refused wherever the compiler meets it, since what is written out without an error
leads to no rule again (`FtIrc.Abnf.ProgramCompiler.acc_of_emitNode`).

Two things are not marked: the search for captures, which is made before the body of a loop is written
out, and the body of what is repeated zero times, which is not written out at all. Where neither
matters, compilation ends, and refuses every rule that leads to a recursive one
(`FtIrc.Abnf.program_compile_endsWell`).
-/

namespace FtIrc

namespace Abnf

open Fuel

namespace Grammar

variable {g : Grammar} {i j c : ℕ}

/-! ### What a node leads to -/

/-- **A node leads to another.** -/
inductive Edge (g : Grammar) (i : ℕ) : ℕ → Prop
  | reference : (g.node i).kind = .reference → g.ruleRoot (g.node i).lo ≠ kNoRule →
      Edge g i (g.ruleRoot (g.node i).lo).toNat
  | child {c : ℕ} : (g.node i).kind ≠ .reference → c ∈ g.childrenOf (g.node i) → Edge g i c

/-- **A node leads to a recursive rule**, one that leads to itself. -/
def ReachesRecursion (g : Grammar) (i : ℕ) : Prop :=
  ∃ r ∈ g.rules, Relation.ReflTransGen g.Edge i (g.ruleRoot r).toNat ∧
    Relation.TransGen g.Edge (g.ruleRoot r).toNat (g.ruleRoot r).toNat

theorem Ordered.edge_lt (hg : g.Ordered) (hi : i < g.nodes.length) (h : g.Edge i c) : c < g.nodes.length := by
  cases h with
  | reference _ hroot => exact hg.root_lt hroot
  | child _ hc => exact (hg.child_lt hi hc).trans hi

theorem Ordered.reach_lt (hg : g.Ordered) (hi : i < g.nodes.length) (h : Relation.ReflTransGen g.Edge i j) :
    j < g.nodes.length := by
  induction h with
  | refl => exact hi
  | tail _ hedge ih => exact hg.edge_lt ih hedge

/-- A way goes down, or through a rule. -/
theorem Ordered.lt_or_rule (hg : g.Ordered) (hi : i < g.nodes.length) (h : Relation.TransGen g.Edge i j) :
    j < i ∨ ∃ r ∈ g.rules, Relation.ReflTransGen g.Edge i (g.ruleRoot r).toNat ∧
      Relation.ReflTransGen g.Edge (g.ruleRoot r).toNat j := by
  induction h with
  | single hedge =>
    cases hedge with
    | reference hkind hroot => exact .inr ⟨_, hg.rule_mem hi hkind, .single (.reference hkind hroot), .refl⟩
    | child _ hc => exact .inl (hg.child_lt hi hc)
  | @tail m _ hway hedge ih =>
    have hm := hg.reach_lt hi hway.to_reflTransGen
    cases hedge with
    | reference hkind hroot =>
      exact .inr ⟨_, hg.rule_mem hm hkind, hway.to_reflTransGen.tail (.reference hkind hroot), .refl⟩
    | child hkind hc =>
      rcases ih with hlt | ⟨r, hr, hto, hfrom⟩
      · exact .inl ((hg.child_lt hm hc).trans hlt)
      · exact .inr ⟨r, hr, hto, hfrom.tail (.child hkind hc)⟩

/-- **What does not lead to a recursive rule comes to an end.** -/
theorem Ordered.acc_edge (hg : g.Ordered) (hi : i < g.nodes.length) (h : ¬ g.ReachesRecursion i) :
    Acc (fun c p => g.Edge p c) i := by
  -- the nodes it leads to are finitely many, and none of them leads to itself
  let before (a b : {j // Relation.ReflTransGen g.Edge i j}) : Prop := Relation.TransGen g.Edge b.1 a.1
  have htrans : IsTrans _ before := ⟨fun a b c hab hbc => hbc.trans hab⟩
  have hirrefl : Std.Irrefl before := by
    refine ⟨fun a hcycle => ?_⟩
    rcases hg.lt_or_rule (hg.reach_lt hi a.2) hcycle with hlt | ⟨r, hr, hto, hfrom⟩
    · exact lt_irrefl _ hlt
    · exact h ⟨r, hr, a.2.trans hto, (Relation.TransGen.trans_right hfrom hcycle).trans_left hto⟩
  have hfinite : Finite {j // Relation.ReflTransGen g.Edge i j} :=
    ((Set.finite_lt_nat g.nodes.length).subset fun j hj => hg.reach_lt hi hj).to_subtype
  have hwf : WellFounded before := Finite.wellFounded_of_trans_of_irrefl before
  have hacc : ∀ a : {j // Relation.ReflTransGen g.Edge i j}, Acc (fun c p => g.Edge p c) a.1 := by
    intro a
    induction a using hwf.induction with
    | _ a ih => exact ⟨a.1, fun c hedge => ih ⟨c, a.2.tail hedge⟩ (.single hedge)⟩
  exact hacc ⟨i, .refl⟩

theorem acc_of_reach (h : Acc (fun c p => g.Edge p c) i) (hj : Relation.ReflTransGen g.Edge i j) :
    Acc (fun c p => g.Edge p c) j := by
  induction hj with
  | refl => exact h
  | tail _ hedge ih => exact ih.inv hedge

/-- What comes to an end leads to no recursive rule. -/
theorem not_reachesRecursion (h : Acc (fun c p => g.Edge p c) i) : ¬ g.ReachesRecursion i := by
  rintro ⟨r, -, hto, hcycle⟩
  exact not_transGen_self (acc_of_reach h hto) (Relation.transGen_swap.mpr hcycle)

/-- What has no parts has no children. -/
theorem Ordered.childrenOf_leaf (hg : g.Ordered)
    (hkind : (g.node i).kind = .literal ∨ (g.node i).kind = .octetRange ∨ (g.node i).kind = .reference) :
    g.childrenOf (g.node i) = [] := by
  have hi : i < g.nodes.length := by
    by_contra hout
    rw [node, List.getD_eq_default _ _ (not_lt.mp hout)] at hkind
    rcases hkind with hkind | hkind | hkind <;> cases hkind
  rw [childrenOf, (hg.inTables hi).leaf hkind]
  rfl

/-- A node that matches a single octet comes to an end. -/
theorem Single.acc (hg : g.Ordered) (h : g.Single i) : Acc (fun c p => g.Edge p c) i := by
  induction h with
  | @octetRange i hkind =>
    refine ⟨i, fun c hedge => ?_⟩
    cases hedge with
    | reference hk => exact absurd hk (by simp [hkind])
    | child _ hc => simp [hg.childrenOf_leaf (.inr (.inl hkind))] at hc
  | @literal i hkind _ =>
    refine ⟨i, fun c hedge => ?_⟩
    cases hedge with
    | reference hk => exact absurd hk (by simp [hkind])
    | child _ hc => simp [hg.childrenOf_leaf (.inl hkind)] at hc
  | @reference i hkind _ _ _ ih =>
    refine ⟨i, fun c hedge => ?_⟩
    cases hedge with
    | reference => exact ih
    | child hk => exact absurd hkind hk
  | @alternation i hkind _ _ ih =>
    refine ⟨i, fun c hedge => ?_⟩
    cases hedge with
    | reference hk => exact absurd hk (by simp [hkind])
    | child _ hc => exact ih c hc

end Grammar

namespace ProgramCompiler

variable {g : Grammar} {i k : ℕ}

/-! ### More fuel changes nothing -/

theorem steady_buildClass (i : ℕ) (bits : Finset ℤ) : Steady fun k => buildClass g k i bits := by
  intro k
  induction k generalizing i bits with
  | zero => exact .none _
  | succ k ih =>
    change Refines (buildClass g (k + 1) i bits) (buildClass g (k + 1 + 1) i bits)
    rw [buildClass, buildClass]
    rcases (g.node i).kind
    · exact .ite (.refl _) (ih _ _)
    · exact .refl _
    · exact .refl _
    · exact .refl _
    · exact (Refines.firstOf (fun c bits => (ih c bits).map) _ _).map
    · exact .refl _

theorem steady_hasCapture (i : ℕ) : Steady fun k => hasCapture g k i := by
  intro k
  induction k generalizing i with
  | zero => exact .none _
  | succ k ih =>
    change Refines (hasCapture g (k + 1) i) (hasCapture g (k + 1 + 1) i)
    rw [hasCapture, hasCapture]
    exact .ite (.ite (.refl _) (.ite (.refl _) (ih _))) (Refines.firstOf (fun c _ => (ih c).map) _ _).map

/-- What a repetition is written out as behind the bodies that must be there. -/
def emitRest (g : Grammar) (step : ℕ → Compiler → Option (Except Str Compiler)) (asks : ℕ → Option Bool)
    (n : GrammarNode) (least : ℤ) (c : Compiler) : Option (Except Str Compiler) :=
  let child := g.child n.first
  if n.hi = kUnbounded then
    (asks child).bind fun captures =>
      if captures then
        fail (str "a capture inside an unbounded repetition cannot be compiled: the loop reuses one slot pair, so only the last match would survive. Give the repetition an upper bound so it can be unrolled.")
      else
        let loop := emit .split 0 0 c
        andThen (step child (patchX loop.1 loop.2)) fun c => some (.ok (patchY loop.1 (emit .jump loop.1 0 c).2))
  else
    let optional := n.hi - least
    if optional < 0 then fail (str "repetition range runs backwards")
    else if kUnrollLimit < optional then fail (str "bounded repetition too large to unroll")
    else
      (emitOptionals step child optional.toNat c).map fun r =>
        r.map fun s => s.1.foldl (fun c position => patchY position c) s.2

theorem emitRepetition_eq {step : ℕ → Compiler → Option (Except Str Compiler)} {asks : ℕ → Option Bool}
    {n : GrammarNode} {c : Compiler} : emitRepetition g step asks n c =
      andThen (emitAll (fun _ c => step (g.child n.first) c) (List.range (if n.lo < 0 then 0 else n.lo).toNat) c)
        (emitRest g step asks n (if n.lo < 0 then 0 else n.lo)) := rfl

section Refines

variable {step step' : ℕ → Compiler → Option (Except Str Compiler)}

theorem refines_andThen {r r' : Option (Except Str Compiler)} {next next' : Compiler → Option (Except Str Compiler)}
    (h : Refines r r') (hnext : ∀ c, Refines (next c) (next' c)) : Refines (andThen r next) (andThen r' next') := by
  refine h.bind fun made => ?_
  rcases made with e | c
  · exact .refl _
  · exact hnext c

theorem refines_emitAll {α : Type} {step step' : α → Compiler → Option (Except Str Compiler)}
    (h : ∀ a c, Refines (step a c) (step' a c)) (as : List α) (c : Compiler) :
    Refines (emitAll step as c) (emitAll step' as c) := by
  induction as generalizing c with
  | nil => exact .refl _
  | cons a as ih => exact refines_andThen (h a c) ih

theorem refines_emitOptionals (h : ∀ i c, Refines (step i c) (step' i c)) (child times : ℕ) (c : Compiler) :
    Refines (emitOptionals step child times c) (emitOptionals step' child times c) := by
  induction times generalizing c with
  | zero => exact .refl _
  | succ times ih =>
    refine (h child _).bind fun made => ?_
    rcases made with e | c
    · exact .refl _
    · exact (ih c).map

theorem refines_emitBranches (h : ∀ i c, Refines (step i c) (step' i c)) (children : List ℕ) (c : Compiler) :
    Refines (emitBranches step children c) (emitBranches step' children c) := by
  induction children generalizing c with
  | nil => exact .refl _
  | cons child rest ih =>
    rcases rest with _ | ⟨next, rest⟩
    · exact (h child c).map
    · refine (h child _).bind fun made => ?_
      rcases made with e | c
      · exact .refl _
      · exact (ih _).map

theorem refines_emitRest {asks asks' : ℕ → Option Bool} (h : ∀ i c, Refines (step i c) (step' i c))
    (hasks : ∀ i, Refines (asks i) (asks' i)) (n : GrammarNode) (least : ℤ) (c : Compiler) :
    Refines (emitRest g step asks n least c) (emitRest g step' asks' n least c) := by
  refine .ite ((hasks _).bind fun captures => .ite (.refl _) ?_) (.ite (.refl _) (.ite (.refl _) ?_))
  · exact refines_andThen (h _ _) fun c => .refl _
  · exact (refines_emitOptionals h _ _ _).map

theorem refines_emitRepetition {asks asks' : ℕ → Option Bool} (h : ∀ i c, Refines (step i c) (step' i c))
    (hasks : ∀ i, Refines (asks i) (asks' i)) (n : GrammarNode) (c : Compiler) :
    Refines (emitRepetition g step asks n c) (emitRepetition g step' asks' n c) :=
  refines_andThen (refines_emitAll (fun _ c => h _ c) _ _) fun c => refines_emitRest h hasks n _ c

theorem refines_emitCases {asks asks' : ℕ → Option Bool} (h : ∀ i c, Refines (step i c) (step' i c))
    (hasks : ∀ i, Refines (asks i) (asks' i)) (i : ℕ) (c : Compiler) :
    Refines (emitCases g step asks i c) (emitCases g step' asks' i c) := by
  rw [emitCases, emitCases]
  rcases (g.node i).kind
  · refine .ite (.refl _) (.ite (.refl _) (.ite ?_ ?_))
    · exact refines_andThen (h _ _) fun c => .refl _
    · exact refines_andThen (h _ _) fun c => .refl _
  · exact .refl _
  · exact .refl _
  · exact refines_emitAll h _ _
  · exact (refines_emitBranches h _ _).map
  · exact refines_emitRepetition h hasks _ _

end Refines

theorem steady_emitNode (i : ℕ) (c : Compiler) : Steady fun k => emitNode g k i c := by
  intro k
  induction k generalizing i c with
  | zero => exact .none _
  | succ k ih =>
    change Refines (emitNode g (k + 1) i c) (emitNode g (k + 1 + 1) i c)
    rw [emitNode, emitNode]
    have hcases : ∀ c, Refines (emitCases g (emitNode g k) (hasCapture g k) i c)
        (emitCases g (emitNode g (k + 1)) (hasCapture g (k + 1)) i c) :=
      refines_emitCases ih (fun i => steady_hasCapture i k) i
    refine (Grammar.steady_isSingleOctet g i c.octetMemo k).bind fun single => .ite ?_ (hcases _)
    exact (steady_buildClass i ∅ k).bind fun built => .ite (.refl _) (hcases _)

/-! ### What is written out leads to no rule again -/

/-- A compiler that writes out these rules, and remembers what is right. -/
structure Sound (g : Grammar) (busy : Finset ℤ) (c : Compiler) : Prop where
  compiling : c.compiling = busy
  memo : g.MemoRight (fun _ => False) c.octetMemo

variable {busy : Finset ℤ} {c c' : Compiler}

theorem Sound.emit (h : Sound g busy c) (op : Op) (x y : ℕ) : Sound g busy (emit op x y c).2 := ⟨h.compiling, h.memo⟩

theorem Sound.patchX (h : Sound g busy c) (position : ℕ) : Sound g busy (patchX position c) := ⟨h.compiling, h.memo⟩

theorem Sound.patchY (h : Sound g busy c) (position : ℕ) : Sound g busy (patchY position c) := ⟨h.compiling, h.memo⟩

theorem Sound.newSlot (h : Sound g busy c) (capture : ℤ) : Sound g busy (newSlot capture c) := ⟨h.compiling, h.memo⟩

theorem Sound.enter (h : Sound g busy c) (rule : ℤ) : Sound g (insert rule busy) (enter rule c) :=
  ⟨congrArg (insert rule) h.compiling, h.memo⟩

theorem Sound.leave {rule : ℤ} (h : Sound g (insert rule busy) c) (hrule : rule ∉ busy) : Sound g busy (leave rule c) := by
  refine ⟨?_, h.memo⟩
  rw [ProgramCompiler.leave, h.compiling, Finset.erase_insert hrule]

theorem Sound.emitClass (h : Sound g busy c) (bits : Finset ℤ) : Sound g busy (emitClass bits c) := by
  have hadd : Sound g busy (addClass bits c).2 := by
    rw [addClass]
    split
    · exact h
    · exact ⟨h.compiling, h.memo⟩
  exact hadd.emit _ _ _

theorem Sound.emitLiteral (h : Sound g busy c) (text : Str) : Sound g busy (emitLiteral text c) := by
  rw [ProgramCompiler.emitLiteral]
  induction text generalizing c with
  | nil => exact h
  | cons octet text ih => exact ih (h.emitClass _)

theorem Sound.patchAll (h : Sound g busy c) {patch : ℕ → Compiler → Compiler}
    (hpatch : ∀ position {c}, Sound g busy c → Sound g busy (patch position c)) (positions : List ℕ) :
    Sound g busy (positions.foldl (fun c position => patch position c) c) := by
  induction positions generalizing c with
  | nil => exact h
  | cons position positions ih => exact ih (hpatch position h)

theorem andThen_eq_ok {r : Option (Except Str Compiler)} {next : Compiler → Option (Except Str Compiler)} :
    andThen r next = some (.ok c') ↔ ∃ c, r = some (.ok c) ∧ next c = some (.ok c') := by
  rw [andThen, Option.bind_eq_some_iff]
  constructor
  · rintro ⟨_ | c, hr, h⟩
    · cases h
    · exact ⟨c, hr, h⟩
  · rintro ⟨c, hr, h⟩
    exact ⟨.ok c, hr, h⟩

section Loops

variable {step : ℕ → Compiler → Option (Except Str Compiler)} {Q : ℕ → Prop}

theorem sound_emitAll {α : Type} {step : α → Compiler → Option (Except Str Compiler)} {Q : α → Prop} {as : List α}
    (hstep : ∀ a ∈ as, ∀ c c', Sound g busy c → step a c = some (.ok c') → Sound g busy c' ∧ Q a)
    (hc : Sound g busy c) (h : emitAll step as c = some (.ok c')) : Sound g busy c' ∧ ∀ a ∈ as, Q a := by
  induction as generalizing c with
  | nil =>
    obtain rfl := Except.ok.inj (Option.some.inj h)
    exact ⟨hc, fun a ha => absurd ha List.not_mem_nil⟩
  | cons a as ih =>
    obtain ⟨c₁, ha, hrest⟩ := andThen_eq_ok.mp h
    obtain ⟨hc₁, hQ⟩ := hstep a List.mem_cons_self c c₁ hc ha
    obtain ⟨hc', hall⟩ := ih (fun a' ha' => hstep a' (List.mem_cons_of_mem a ha')) hc₁ hrest
    exact ⟨hc', List.forall_mem_cons.mpr ⟨hQ, hall⟩⟩

theorem sound_emitOptionals {child times : ℕ}
    (hstep : ∀ c c', Sound g busy c → step child c = some (.ok c') → Sound g busy c' ∧ Q child)
    (hc : Sound g busy c) {s : List ℕ × Compiler} (h : emitOptionals step child times c = some (.ok s)) :
    Sound g busy s.2 ∧ (0 < times → Q child) := by
  induction times generalizing c s with
  | zero =>
    obtain rfl := Except.ok.inj (Option.some.inj h)
    exact ⟨hc, fun h0 => absurd h0 (lt_irrefl 0)⟩
  | succ times ih =>
    rw [emitOptionals, Option.bind_eq_some_iff] at h
    obtain ⟨_ | c₁, hbody, h⟩ := h
    · cases h
    obtain ⟨hc₁, hQ⟩ := hstep _ c₁ ((hc.emit _ _ _).patchX _) hbody
    obtain ⟨_ | s₁, hrest, h⟩ := Option.map_eq_some_iff.mp h
    · cases h
    obtain rfl := Except.ok.inj h
    exact ⟨(ih hc₁ hrest).1, fun _ => hQ⟩

theorem sound_emitBranches {children : List ℕ}
    (hstep : ∀ child ∈ children, ∀ c c', Sound g busy c → step child c = some (.ok c') → Sound g busy c' ∧ Q child)
    (hc : Sound g busy c) {s : List ℕ × Compiler} (h : emitBranches step children c = some (.ok s)) :
    Sound g busy s.2 ∧ ∀ child ∈ children, Q child := by
  induction children generalizing c s with
  | nil =>
    obtain rfl := Except.ok.inj (Option.some.inj h)
    exact ⟨hc, fun a ha => absurd ha List.not_mem_nil⟩
  | cons child rest ih =>
    rcases rest with _ | ⟨next, rest⟩
    · obtain ⟨_ | c₁, hbody, h⟩ := Option.map_eq_some_iff.mp h
      · cases h
      obtain rfl := Except.ok.inj h
      obtain ⟨hc₁, hQ⟩ := hstep child List.mem_cons_self c c₁ hc hbody
      exact ⟨hc₁, List.forall_mem_cons.mpr ⟨hQ, fun a ha => absurd ha List.not_mem_nil⟩⟩
    · obtain ⟨_ | c₁, hbody, h⟩ := Option.bind_eq_some_iff.mp h
      · cases h
      obtain ⟨hc₁, hQ⟩ := hstep child List.mem_cons_self _ c₁ ((hc.emit _ _ _).patchX _) hbody
      obtain ⟨_ | s₁, hrest, h⟩ := Option.map_eq_some_iff.mp h
      · cases h
      obtain rfl := Except.ok.inj h
      obtain ⟨hs, hall⟩ := ih (fun d hd => hstep d (List.mem_cons_of_mem child hd)) ((hc₁.emit _ _ _).patchY _) hrest
      exact ⟨hs, List.forall_mem_cons.mpr ⟨hQ, hall⟩⟩

end Loops

/-- What is repeated zero times. -/
def Skips (n : GrammarNode) : Prop := n.kind = .repetition ∧ n.lo ≤ 0 ∧ n.hi = 0

section Cases

variable {step : ℕ → Compiler → Option (Except Str Compiler)} {asks : ℕ → Option Bool} {Q : ℕ → Prop}

theorem sound_emitRest {n : GrammarNode} {least : ℤ}
    (hstep : ∀ c c', Sound g busy c → step (g.child n.first) c = some (.ok c') → Sound g busy c' ∧ Q (g.child n.first))
    (hc : Sound g busy c) (h : emitRest g step asks n least c = some (.ok c')) :
    Sound g busy c' ∧ (n.hi ≠ least → Q (g.child n.first)) := by
  rw [emitRest] at h
  dsimp only at h
  split_ifs at h with hbound hbackwards
  · obtain ⟨captures, -, h⟩ := Option.bind_eq_some_iff.mp h
    split_ifs at h
    · cases h
    obtain ⟨c₁, hbody, h⟩ := andThen_eq_ok.mp h
    obtain rfl := Except.ok.inj (Option.some.inj h)
    obtain ⟨hc₁, hQ⟩ := hstep _ c₁ ((hc.emit _ _ _).patchX _) hbody
    exact ⟨(hc₁.emit _ _ _).patchY _, fun _ => hQ⟩
  · cases h
  · cases h
  · obtain ⟨_ | s, hoptional, h⟩ := Option.map_eq_some_iff.mp h
    · cases h
    obtain rfl := Except.ok.inj h
    obtain ⟨hs, hQ⟩ := sound_emitOptionals hstep hc hoptional
    exact ⟨hs.patchAll (fun position _ hc => hc.patchY position) s.1, fun hne => hQ (by omega)⟩

theorem sound_emitRepetition {n : GrammarNode} (hkind : n.kind = .repetition)
    (hstep : ∀ c c', Sound g busy c → step (g.child n.first) c = some (.ok c') → Sound g busy c' ∧ Q (g.child n.first))
    (hc : Sound g busy c) (h : emitRepetition g step asks n c = some (.ok c')) :
    Sound g busy c' ∧ (Q (g.child n.first) ∨ Skips n) := by
  obtain ⟨c₁, hbodies, h⟩ := andThen_eq_ok.mp (emitRepetition_eq ▸ h)
  obtain ⟨hc₁, hall⟩ := sound_emitAll (Q := fun _ => Q (g.child n.first)) (fun _ _ => hstep) hc hbodies
  obtain ⟨hc', hQ⟩ := sound_emitRest hstep hc₁ h
  refine ⟨hc', ?_⟩
  by_cases hlo : 0 < n.lo
  · rw [if_neg (by omega)] at hall
    exact .inl (hall 0 (List.mem_range.mpr (by omega)))
  · have hzero : (if n.lo < 0 then 0 else n.lo) = 0 := by split_ifs <;> omega
    rw [hzero] at hQ
    by_cases hhi : n.hi = 0
    · exact .inr ⟨hkind, not_lt.mp hlo, hhi⟩
    · exact .inl (hQ hhi)

/-- **What is written out without an error** leads to what was written out, but for what is repeated
zero times. -/
theorem sound_emitCases (hg : g.Ordered) (hi : i < g.nodes.length)
    (hstep : ∀ d, g.Edge i d → ∀ busy c c', Sound g busy c → step d c = some (.ok c') → Sound g busy c' ∧ Q d)
    (hc : Sound g busy c) (h : emitCases g step asks i c = some (.ok c')) :
    Sound g busy c' ∧ ∀ d, g.Edge i d → Q d ∨ Skips (g.node i) := by
  have hparts : (g.node i).kind ≠ .reference → (∀ d ∈ g.childrenOf (g.node i), Q d ∨ Skips (g.node i)) →
      ∀ d, g.Edge i d → Q d ∨ Skips (g.node i) := by
    intro hkind hall d hedge
    cases hedge with
    | reference hk => exact absurd hk hkind
    | child _ hd => exact hall d hd
  rw [emitCases] at h
  rcases hkind : (g.node i).kind <;> simp only [hkind] at h
  · have hrule : ∀ {c₁}, Sound g busy c₁ → ∀ {c₂}, step (g.ruleRoot (g.node i).lo).toNat (enter (g.node i).lo c₁) = some (.ok c₂) →
        g.ruleRoot (g.node i).lo ≠ kNoRule → (g.node i).lo ∉ busy →
        Sound g busy (leave (g.node i).lo c₂) ∧ ∀ d, g.Edge i d → Q d ∨ Skips (g.node i) := by
      intro c₁ hc₁ c₂ hbody hroot hbusy
      obtain ⟨hc₂, hQ⟩ := hstep _ (.reference hkind hroot) _ _ _ (hc₁.enter _) hbody
      refine ⟨hc₂.leave hbusy, fun d hedge => .inl ?_⟩
      cases hedge with
      | reference => exact hQ
      | child hk => exact absurd hkind hk
    split_ifs at h with hroot hbusy hcapture
    · cases h
    · cases h
    · obtain ⟨c₂, hbody, h⟩ := andThen_eq_ok.mp h
      obtain rfl := Except.ok.inj (Option.some.inj h)
      exact hrule hc hbody hroot (hc.compiling ▸ hbusy)
    · obtain ⟨c₂, hbody, h⟩ := andThen_eq_ok.mp h
      obtain rfl := Except.ok.inj (Option.some.inj h)
      obtain ⟨hc', hall⟩ := hrule ((hc.newSlot _).emit _ _ _) hbody hroot (hc.compiling ▸ hbusy)
      exact ⟨hc'.emit _ _ _, hall⟩
  · obtain rfl := Except.ok.inj (Option.some.inj h)
    refine ⟨hc.emitLiteral _, hparts (by simp [hkind]) fun d hd => ?_⟩
    simp [hg.childrenOf_leaf (.inl hkind)] at hd
  · obtain rfl := Except.ok.inj (Option.some.inj h)
    refine ⟨hc.emitClass _, hparts (by simp [hkind]) fun d hd => ?_⟩
    simp [hg.childrenOf_leaf (.inr (.inl hkind))] at hd
  · have hne : (g.node i).kind ≠ .reference := by simp [hkind]
    obtain ⟨hc', hall⟩ := sound_emitAll (fun d hd => hstep d (.child hne hd) busy) hc h
    exact ⟨hc', hparts hne fun d hd => .inl (hall d hd)⟩
  · have hne : (g.node i).kind ≠ .reference := by simp [hkind]
    obtain ⟨_ | s, hbranches, h⟩ := Option.map_eq_some_iff.mp h
    · cases h
    obtain rfl := Except.ok.inj h
    obtain ⟨hs, hall⟩ := sound_emitBranches (fun d hd => hstep d (.child hne hd) busy) hc hbranches
    exact ⟨hs.patchAll (fun position _ hc => hc.patchX position) s.1, hparts hne fun d hd => .inl (hall d hd)⟩
  · have hne : (g.node i).kind ≠ .reference := by simp [hkind]
    have hchildren := hg.childrenOf_repetition hi hkind
    obtain ⟨hc', hQ⟩ := sound_emitRepetition (Q := Q) hkind
      (fun c c' => hstep _ (.child hne (by simp [hchildren])) busy c c') hc h
    refine ⟨hc', hparts hne fun d hd => ?_⟩
    rw [hchildren, List.mem_singleton] at hd
    exact hd ▸ hQ

end Cases

/-- **Nothing is hidden from the compiler at a node**: the search for captures comes back from the body
of a loop, and what is repeated zero times leads to no recursive rule. -/
structure Open (g : Grammar) (j : ℕ) : Prop where
  searched : (g.node j).kind = .repetition → (g.node j).hi = kUnbounded → (g.node j).lo ≤ 0 →
    Ends fun k => hasCapture g k (g.child (g.node j).first)
  skipped : Skips (g.node j) → ¬ g.ReachesRecursion (g.child (g.node j).first)

theorem Sound.asked (hg : g.Accepted) (hc : Sound g busy c) {single : Bool × Memo}
    (h : g.isSingleOctet k i c.octetMemo = some single) :
    (single.1 = true ↔ g.Single i) ∧ Sound g busy { c with octetMemo := single.2 } := by
  obtain ⟨hright, hmemo⟩ := Grammar.isSingleOctet_spec (hg.acc_left i) not_false (fun _ _ => not_false) hc.memo h
  exact ⟨hright, hc.compiling, hmemo⟩

/-- **What is written out without an error comes to an end.** -/
theorem acc_of_emitNode (hg : g.Accepted) (hi : i < g.nodes.length)
    (hopen : ∀ j, Relation.ReflTransGen g.Edge i j → Open g j) (hc : Sound g busy c)
    (h : emitNode g k i c = some (.ok c')) : Sound g busy c' ∧ Acc (fun c p => g.Edge p c) i := by
  induction k generalizing i busy c c' with
  | zero => cases h
  | succ k ih =>
    obtain ⟨single, hsingle, h⟩ := Option.bind_eq_some_iff.mp h
    obtain ⟨hright, hc⟩ := hc.asked hg hsingle
    have hcases : emitCases g (emitNode g k) (hasCapture g k) i { c with octetMemo := single.2 } = some (.ok c') →
        Sound g busy c' ∧ Acc (fun c p => g.Edge p c) i := by
      intro h
      obtain ⟨hc', hall⟩ := sound_emitCases (Q := Acc fun c p => g.Edge p c) hg.ordered hi
        (fun d hedge busy c c' hc h => ih (hg.ordered.edge_lt hi hedge) (fun j hj => hopen j (.head hedge hj)) hc h) hc h
      refine ⟨hc', i, fun d hedge => (hall d hedge).elim id fun hskip => ?_⟩
      -- what is not written out leads to no recursive rule
      cases hedge with
      | reference hk => exact absurd (hk.symm.trans hskip.1) (by simp)
      | child _ hd =>
        rw [hg.ordered.childrenOf_repetition hi hskip.1, List.mem_singleton] at hd
        subst hd
        exact hg.ordered.acc_edge ((hg.ordered.body_lt hi hskip.1).trans hi) ((hopen i .refl).skipped hskip)
    dsimp only at h
    split_ifs at h with hyes
    · obtain ⟨built, -, h⟩ := Option.bind_eq_some_iff.mp h
      split_ifs at h
      · obtain rfl := Except.ok.inj (Option.some.inj h)
        exact ⟨hc.emitClass _, (hright.mp hyes).acc hg.ordered⟩
      · exact hcases h
    · exact hcases h

/-! ### Compilation ends -/

theorem ends_buildClass (h : Acc (fun c p => g.LeftEdge p c) i) (bits : Finset ℤ) : Ends fun k => buildClass g k i bits := by
  induction h generalizing bits with
  | intro i _ ih =>
    refine Ends.of_succ ?_
    simp only [buildClass]
    rcases hkind : (g.node i).kind <;> dsimp only
    · by_cases hroot : g.ruleRoot (g.node i).lo = kNoRule
      · simp only [if_pos hroot]
        exact .pure _
      · simp only [if_neg hroot]
        exact ih _ (.reference hkind hroot) bits
    · split
      · exact .pure _
      · exact .pure _
    · exact .pure _
    · exact .pure _
    · refine Ends.map (Ends.firstOf (fun child bits => ?_) (fun child hchild bits => ?_) _)
      · exact fun k => (steady_buildClass child bits k).map
      · exact (ih child (.alternation hkind hchild) bits).map
    · exact .pure _

/-- The search for captures ends where what a node leads to does. -/
theorem ends_hasCapture (h : Acc (fun c p => g.Edge p c) i) : Ends fun k => hasCapture g k i := by
  induction h with
  | intro i _ ih =>
    refine Ends.of_succ ?_
    simp only [hasCapture]
    by_cases hkind : (g.node i).kind = .reference
    · simp only [if_pos hkind]
      split_ifs with hcapture hroot
      · exact .pure _
      · exact .pure _
      · exact ih _ (.reference hkind hroot)
    · simp only [if_neg hkind]
      refine Ends.map (Ends.firstOf (fun child _ => ?_) (fun child hchild _ => ?_) _)
      · exact fun k => (steady_hasCapture child k).map
      · exact (ih child (.child hkind hchild)).map

section Loops

variable {f : ℕ → Option (Except Str Compiler)}

/-- What goes on where nothing failed. -/
theorem ends_andThen {β : Type} {next : ℕ → Compiler → Option (Except Str β)} (hf : Steady f)
    (hnext : ∀ c, Steady fun k => next k c) (h : Ends f) (hgo : ∀ c k, f k = some (.ok c) → Ends fun k => next k c) :
    Ends fun k => (f k).bind fun
      | .ok c => next k c
      | .error e => some (.error e) := by
  refine Ends.bind (g := fun made k => match made with
    | .ok c => next k c
    | .error e => some (.error e)) hf (fun made k => ?_) h fun made hmade => ?_
  · rcases made with e | c
    · exact .refl _
    · exact hnext c k
  · rcases made with e | c
    · exact .pure _
    · obtain ⟨k, hk⟩ := hmade
      exact hgo c k hk

theorem ends_emitAll {α : Type} {step : ℕ → α → Compiler → Option (Except Str Compiler)} {P : Compiler → Prop}
    (hsteady : ∀ a c, Steady fun k => step k a c) {as : List α}
    (hstep : ∀ a ∈ as, ∀ c, P c → Ends fun k => step k a c)
    (hkeep : ∀ a ∈ as, ∀ c, P c → ∀ k c', step k a c = some (.ok c') → P c') (hc : P c) :
    Ends fun k => emitAll (step k) as c := by
  induction as generalizing c with
  | nil => exact .pure _
  | cons a as ih =>
    refine ends_andThen (hsteady a c) (fun c k => refines_emitAll (fun a c => hsteady a c k) as c)
      (hstep a List.mem_cons_self c hc) fun c' k hk => ?_
    exact ih (fun a' ha' => hstep a' (List.mem_cons_of_mem a ha')) (fun a' ha' => hkeep a' (List.mem_cons_of_mem a ha'))
      (hkeep a List.mem_cons_self c hc k c' hk)

variable {step : ℕ → ℕ → Compiler → Option (Except Str Compiler)} {asks : ℕ → ℕ → Option Bool}
  (hsteady : ∀ i c, Steady fun k => step k i c)
include hsteady

theorem ends_emitOptionals {child times : ℕ} (hstep : ∀ c, Sound g busy c → Ends fun k => step k child c)
    (hkeep : ∀ c, Sound g busy c → ∀ k c', step k child c = some (.ok c') → Sound g busy c') (hc : Sound g busy c) :
    Ends fun k => emitOptionals (step k) child times c := by
  induction times generalizing c with
  | zero => exact .pure _
  | succ times ih =>
    have hc₁ := (hc.emit .split 0 0).patchX c.program.code.length
    have hnext : ∀ c', Steady fun k => (emitOptionals (step k) child times c').map fun r =>
        r.map fun s => (c.program.code.length :: s.1, s.2) :=
      fun c' k => (refines_emitOptionals (fun i c => hsteady i c k) child times c').map
    refine (ends_andThen (hsteady child _) hnext (hstep _ hc₁) fun c' k hk => (ih (hkeep _ hc₁ k c' hk)).map).congr fun k => ?_
    rw [emitOptionals]
    refine congrArg _ (funext fun made => ?_)
    rcases made with e | c' <;> rfl

theorem ends_emitBranches {children : List ℕ}
    (hstep : ∀ child ∈ children, ∀ c, Sound g busy c → Ends fun k => step k child c)
    (hkeep : ∀ child ∈ children, ∀ c, Sound g busy c → ∀ k c', step k child c = some (.ok c') → Sound g busy c')
    (hc : Sound g busy c) : Ends fun k => emitBranches (step k) children c := by
  induction children generalizing c with
  | nil => exact .pure _
  | cons child rest ih =>
    rcases rest with _ | ⟨next, rest⟩
    · exact (hstep child List.mem_cons_self c hc).map
    have hc₁ := (hc.emit .split 0 0).patchX c.program.code.length
    have hnext : ∀ c', Steady fun k =>
        (emitBranches (step k) (next :: rest) (patchY c.program.code.length (emit .jump 0 0 c').2)).map fun r =>
          r.map fun s => ((emit .jump 0 0 c').1 :: s.1, s.2) :=
      fun c' k => (refines_emitBranches (fun i c => hsteady i c k) _ _).map
    refine (ends_andThen (hsteady child _) hnext (hstep child List.mem_cons_self _ hc₁) fun c' k hk => ?_).congr fun k => ?_
    · have hc' := hkeep child List.mem_cons_self _ hc₁ k c' hk
      exact (ih (fun d hd => hstep d (List.mem_cons_of_mem child hd)) (fun d hd => hkeep d (List.mem_cons_of_mem child hd))
        ((hc'.emit _ _ _).patchY _)).map
    · rw [emitBranches]
      · refine congrArg _ (funext fun made => ?_)
        rcases made with e | c' <;> rfl
      · exact List.cons_ne_nil next rest

theorem ends_emitRest (hasks : ∀ i, Steady fun k => asks k i) {n : GrammarNode} {least : ℤ}
    (hstep : ∀ c, Sound g busy c → Ends fun k => step k (g.child n.first) c)
    (hkeep : ∀ c, Sound g busy c → ∀ k c', step k (g.child n.first) c = some (.ok c') → Sound g busy c')
    (hloop : n.hi = kUnbounded → Ends fun k => asks k (g.child n.first)) (hc : Sound g busy c) :
    Ends fun k => emitRest g (step k) (asks k) n least c := by
  simp only [emitRest]
  split_ifs with hbound
  · have hbody : Ends fun k => andThen (step k (g.child n.first) (patchX (emit .split 0 0 c).1 (emit .split 0 0 c).2))
        fun c' => some (.ok (patchY (emit .split 0 0 c).1 (emit .jump (emit .split 0 0 c).1 0 c').2)) :=
      ends_andThen (hsteady _ _) (fun _ _ => .refl _) (hstep _ ((hc.emit _ _ _).patchX _)) fun _ _ _ => .pure _
    refine Ends.bind (hasks _) (fun captures k => .ite (.refl _) ?_) (hloop hbound) fun captures _ => ?_
    · exact refines_andThen (hsteady _ _ k) fun c => .refl _
    · split_ifs
      · exact .pure _
      · exact hbody
  · exact .pure _
  · exact .pure _
  · exact (ends_emitOptionals hsteady hstep hkeep hc).map

theorem ends_emitRepetition (hasks : ∀ i, Steady fun k => asks k i) {n : GrammarNode}
    (hstep : ∀ c, Sound g busy c → Ends fun k => step k (g.child n.first) c)
    (hkeep : ∀ c, Sound g busy c → ∀ k c', step k (g.child n.first) c = some (.ok c') → Sound g busy c')
    (hloop : n.hi = kUnbounded → (0 < n.lo → ∃ k c c', Sound g busy c ∧ step k (g.child n.first) c = some (.ok c')) →
      Ends fun k => asks k (g.child n.first))
    (hc : Sound g busy c) : Ends fun k => emitRepetition g (step k) (asks k) n c := by
  refine (ends_andThen (fun k => ?_) (fun c k => ?_) ?_ fun c' k hk => ?_).congr fun k => emitRepetition_eq.symm
  · exact refines_emitAll (fun _ c => hsteady _ c k) _ c
  · exact refines_emitRest (fun i c => hsteady i c k) (fun i => hasks i k) n _ c
  · exact ends_emitAll (fun _ c => hsteady _ c) (fun _ _ => hstep) (fun _ _ => hkeep) hc
  · obtain ⟨hc', hall⟩ := sound_emitAll (Q := fun _ => True) (fun _ _ c c' hc h => ⟨hkeep c hc k c' h, trivial⟩) hc hk
    refine ends_emitRest hsteady hasks hstep hkeep (fun hbound => hloop hbound fun hlo => ?_) hc'
    -- where a body must be there, it was written out before captures are looked for
    obtain ⟨times, htimes⟩ : ∃ times, (if n.lo < 0 then 0 else n.lo).toNat = times + 1 :=
      ⟨n.lo.toNat - 1, by rw [if_neg (by omega)]; omega⟩
    rw [htimes, List.range_succ_eq_map] at hk
    obtain ⟨c₁, hfirst, -⟩ := andThen_eq_ok.mp hk
    exact ⟨k, c, c₁, hc, hfirst⟩

/-- The cases of a node end if what the node leads to does, with the rules that are written out then. -/
theorem ends_emitCases (hg : g.Ordered) (hi : i < g.nodes.length) (hasks : ∀ i, Steady fun k => asks k i)
    (hstep : ∀ d, g.Edge i d → ∀ busy' c, g.fuelAt busy' d < g.fuelAt busy i → Sound g busy' c → Ends fun k => step k d c)
    (hkeep : ∀ d, g.Edge i d → ∀ busy' c, Sound g busy' c → ∀ k c', step k d c = some (.ok c') → Sound g busy' c')
    (hloop : (g.node i).kind = .repetition → (g.node i).hi = kUnbounded →
      (0 < (g.node i).lo → ∃ k c c', Sound g busy c ∧ step k (g.child (g.node i).first) c = some (.ok c')) →
        Ends fun k => asks k (g.child (g.node i).first))
    (hc : Sound g busy c) : Ends fun k => emitCases g (step k) (asks k) i c := by
  have hpart : (g.node i).kind ≠ .reference → ∀ d ∈ g.childrenOf (g.node i), ∀ c, Sound g busy c →
      Ends fun k => step k d c :=
    fun hkind d hd c hc => hstep d (.child hkind hd) busy c (Grammar.fuelAt_child (hg.child_lt hi hd)) hc
  simp only [emitCases]
  rcases hkind : (g.node i).kind <;> dsimp only
  · have hrule : ∀ c, Sound g busy c → (g.node i).lo ∉ busy → g.ruleRoot (g.node i).lo ≠ kNoRule →
        Ends fun k => step k (g.ruleRoot (g.node i).lo).toNat (enter (g.node i).lo c) := by
      intro c hc hbusy hroot
      have hlt := Grammar.fuelAt_rule (i := i) (hg.rule_mem hi hkind) hbusy (hg.root_lt hroot)
      exact hstep _ (.reference hkind hroot) _ _ hlt (hc.enter _)
    split_ifs with hroot hbusy hcapture
    · exact .pure _
    · exact .pure _
    · exact ends_andThen (hsteady _ _) (fun _ _ => .refl _) (hrule c hc (hc.compiling ▸ hbusy) hroot) fun _ _ _ => .pure _
    · exact ends_andThen (hsteady _ _) (fun _ _ => .refl _)
        (hrule _ ((hc.newSlot _).emit _ _ _) (hc.compiling ▸ hbusy) hroot) fun _ _ _ => .pure _
  · exact .pure _
  · exact .pure _
  · have hne : (g.node i).kind ≠ .reference := by simp [hkind]
    exact ends_emitAll hsteady (hpart hne) (fun d hd => hkeep d (.child hne hd) busy) hc
  · have hne : (g.node i).kind ≠ .reference := by simp [hkind]
    exact (ends_emitBranches hsteady (hpart hne) (fun d hd => hkeep d (.child hne hd) busy) hc).map
  · have hne : (g.node i).kind ≠ .reference := by simp [hkind]
    have hbody : g.child (g.node i).first ∈ g.childrenOf (g.node i) := by
      rw [hg.childrenOf_repetition hi hkind]
      exact List.mem_singleton_self _
    exact ends_emitRepetition hsteady hasks (hpart hne _ hbody) (hkeep _ (.child hne hbody) busy) (hloop hkind) hc

end Loops

/-- **What is written out comes to an end**, where nothing is hidden. -/
theorem ends_emitNode (hg : g.Accepted) (hi : i < g.nodes.length)
    (hopen : ∀ j, Relation.ReflTransGen g.Edge i j → Open g j) (hc : Sound g busy c) :
    Ends fun k => emitNode g k i c := by
  induction hn : g.fuelAt busy i using Nat.strong_induction_on generalizing i busy c with
  | _ n ih =>
    have hbelow : ∀ {d}, g.Edge i d → ∀ j, Relation.ReflTransGen g.Edge d j → Open g j :=
      fun hedge j hj => hopen j (.head hedge hj)
    have hkeep : ∀ d, g.Edge i d → ∀ busy' c, Sound g busy' c → ∀ k c', emitNode g k d c = some (.ok c') →
        Sound g busy' c' := fun d hedge busy' c hc k c' h =>
      (acc_of_emitNode hg (hg.ordered.edge_lt hi hedge) (hbelow hedge) hc h).1
    have hloop : (g.node i).kind = .repetition → (g.node i).hi = kUnbounded →
        (0 < (g.node i).lo → ∃ k c c', Sound g busy c ∧ emitNode g k (g.child (g.node i).first) c = some (.ok c')) →
          Ends fun k => hasCapture g k (g.child (g.node i).first) := by
      intro hkind hbound hbody
      by_cases hlo : 0 < (g.node i).lo
      · obtain ⟨k, c, c', hc, h⟩ := hbody hlo
        have hedge : g.Edge i (g.child (g.node i).first) :=
          .child (by simp [hkind]) (by rw [hg.ordered.childrenOf_repetition hi hkind]; exact List.mem_singleton_self _)
        exact ends_hasCapture (acc_of_emitNode hg (hg.ordered.edge_lt hi hedge) (hbelow hedge) hc h).2
      · exact (hopen i .refl).searched hkind hbound (not_lt.mp hlo)
    have hcases : ∀ c, Sound g busy c → Ends fun k => emitCases g (emitNode g k) (hasCapture g k) i c := by
      intro c hc
      refine ends_emitCases (fun i c => steady_emitNode i c) hg.ordered hi (fun i => steady_hasCapture i)
        (fun d hedge busy' c hlt hc => ?_) hkeep hloop hc
      exact ih _ (hn ▸ hlt) (hg.ordered.edge_lt hi hedge) (hbelow hedge) hc rfl
    have hsteady : ∀ c, Steady fun k => emitCases g (emitNode g k) (hasCapture g k) i c :=
      fun c k => refines_emitCases (fun i c => steady_emitNode i c k) (fun i => steady_hasCapture i k) i c
    refine Ends.of_succ ?_
    simp only [emitNode]
    refine Ends.bind (Grammar.steady_isSingleOctet g i c.octetMemo) (fun single k => .ite ?_ (hsteady _ k))
      (Grammar.ends_isSingleOctet (hg.acc_left i) _) fun single hsingle => ?_
    · exact (steady_buildClass i ∅ k).bind fun built => .ite (.refl _) (hsteady _ k)
    · obtain ⟨k, hk⟩ := hsingle
      have hc' := (hc.asked hg hk).2
      split_ifs
      · refine Ends.bind (steady_buildClass i ∅) (fun built k => .ite (.refl _) (hsteady _ k))
          (ends_buildClass (hg.acc_left i) ∅) fun built _ => ?_
        split_ifs
        · exact .pure _
        · exact hcases _ hc'
      · exact hcases _ hc'

end ProgramCompiler

open ProgramCompiler

/-- Nothing is hidden at a node that comes to an end. -/
theorem open_of_acc {g : Grammar} (hg : g.Ordered) {j : ℕ} (hj : j < g.nodes.length) (h : Acc (fun c p => g.Edge p c) j) :
    Open g j := by
  have hbody : (g.node j).kind = .repetition → Acc (fun c p => g.Edge p c) (g.child (g.node j).first) := by
    intro hkind
    refine h.inv (.child (by simp [hkind]) ?_)
    rw [hg.childrenOf_repetition hj hkind]
    exact List.mem_singleton_self _
  exact ⟨fun hkind _ _ => ends_hasCapture (hbody hkind), fun hskip => Grammar.not_reachesRecursion (hbody hskip.1)⟩

end Abnf

end FtIrc
