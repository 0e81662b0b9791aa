import FtIrc.Grammar.Emitted

/-!
# What the compiler refuses

Compilation to a program fails at a rule that is being written out, at a capture in a loop without a
limit, and at a limit that is too far off. A rule that leads to none of these is compiled
(`FtIrc.Abnf.exists_program`).
-/

namespace FtIrc

namespace Abnf

open Fuel Grammar ProgramCompiler

/-- **What can be written out**: captures are in no loop without a limit, and no limit is too far off. -/
structure Grammar.Unrollable (g : Grammar) : Prop where
  loops : ∀ i, (g.node i).kind = .repetition → (g.node i).hi = kUnbounded →
    ∃ k, hasCapture g k (g.child (g.node i).first) = some false
  limits : ∀ i, (g.node i).kind = .repetition → (g.node i).hi - (g.node i).lo ≤ kUnrollLimit

namespace ProgramCompiler

variable {g : Grammar} {busy : Finset ℤ} {c c' : Compiler} {i k : ℕ}

/-- Something was written out, without an error. -/
def Made {α : Type} (P : α → Prop) (r : Except Str α) : Prop := ∃ a, r = .ok a ∧ P a

theorem Made.ok {α : Type} {P : α → Prop} {a : α} (h : P a) : Made P (.ok a) := ⟨a, rfl, h⟩

theorem Made.map {α β : Type} {P : α → Prop} {Q : β → Prop} {f : α → β} {r : Except Str α} (h : Made P r) (hf : ∀ a, P a → Q (f a)) :
    Made Q (r.map f) := by
  obtain ⟨a, rfl, ha⟩ := h
  exact .ok (hf a ha)

section Steps

variable {step : ℕ → Compiler → Option (Except Str Compiler)}

theorem made_andThen {busy' : Finset ℤ} {f : Option (Except Str Compiler)} {next : Compiler → Option (Except Str Compiler)}
    {r : Except Str Compiler} (hf : ∀ r, f = some r → Made (Sound g busy') r)
    (hnext : ∀ c r, Sound g busy' c → next c = some r → Made (Sound g busy) r) (h : andThen f next = some r) :
    Made (Sound g busy) r := by
  obtain ⟨r₁, hr₁, h⟩ := Option.bind_eq_some_iff.mp h
  obtain ⟨c₁, rfl, hc₁⟩ := hf r₁ hr₁
  exact hnext c₁ r hc₁ h

theorem made_emitAll {α : Type} {step : α → Compiler → Option (Except Str Compiler)} {as : List α} {r : Except Str Compiler}
    (hstep : ∀ a ∈ as, ∀ c r, Sound g busy c → step a c = some r → Made (Sound g busy) r) (hc : Sound g busy c)
    (h : emitAll step as c = some r) : Made (Sound g busy) r := by
  induction as generalizing c r with
  | nil =>
    obtain rfl := Option.some.inj h
    exact .ok hc
  | cons a as ih =>
    obtain ⟨hstep, hlater⟩ := List.forall_mem_cons.mp hstep
    exact made_andThen (fun r => hstep c r hc) (fun c r hc h => ih hlater hc h) h

theorem made_emitOptionals {child times : ℕ} {r : Except Str (List ℕ × Compiler)}
    (hstep : ∀ c r, Sound g busy c → step child c = some r → Made (Sound g busy) r) (hc : Sound g busy c)
    (h : emitOptionals step child times c = some r) : Made (fun s => Sound g busy s.2) r := by
  induction times generalizing c r with
  | zero =>
    obtain rfl := Option.some.inj h
    exact .ok hc
  | succ times ih =>
    rw [emitOptionals, Option.bind_eq_some_iff] at h
    obtain ⟨r₁, hbody, h⟩ := h
    obtain ⟨c₁, rfl, hc₁⟩ := hstep _ r₁ ((hc.emit _ _ _).patchX _) hbody
    obtain ⟨r₂, hrest, rfl⟩ := Option.map_eq_some_iff.mp h
    exact (ih hc₁ hrest).map fun _ hs => hs

theorem made_emitBranches {children : List ℕ} {r : Except Str (List ℕ × Compiler)}
    (hstep : ∀ child ∈ children, ∀ c r, Sound g busy c → step child c = some r → Made (Sound g busy) r) (hc : Sound g busy c)
    (h : emitBranches step children c = some r) : Made (fun s => Sound g busy s.2) r := by
  induction children generalizing c r with
  | nil =>
    obtain rfl := Option.some.inj h
    exact .ok hc
  | cons child rest ih =>
    obtain ⟨hchild, hlater⟩ := List.forall_mem_cons.mp hstep
    rcases rest with _ | ⟨next, rest⟩
    · obtain ⟨r₁, hbody, rfl⟩ := Option.map_eq_some_iff.mp h
      exact (hchild c r₁ hc hbody).map fun _ hc => hc
    · obtain ⟨r₁, hbody, h⟩ := Option.bind_eq_some_iff.mp h
      obtain ⟨c₁, rfl, hc₁⟩ := hchild _ r₁ ((hc.emit _ _ _).patchX _) hbody
      obtain ⟨r₂, hrest, rfl⟩ := Option.map_eq_some_iff.mp h
      exact (ih hlater ((hc₁.emit _ _ _).patchY _) hrest).map fun _ hs => hs

/-- A repetition is written out, if its body is. -/
theorem made_emitRepetition {asks : ℕ → Option Bool} {n : GrammarNode} {r : Except Str Compiler}
    (hstep : ∀ c r, Sound g busy c → step (g.child n.first) c = some r → Made (Sound g busy) r) (hlo : 0 ≤ n.lo)
    (hhi : n.hi = kUnbounded ∨ n.lo ≤ n.hi) (hlimit : n.hi - n.lo ≤ kUnrollLimit)
    (hasks : n.hi = kUnbounded → asks (g.child n.first) ≠ some true) (hc : Sound g busy c)
    (h : emitRepetition g step asks n c = some r) : Made (Sound g busy) r := by
  rw [emitRepetition_eq, if_neg (not_lt.mpr hlo)] at h
  refine made_andThen (fun r h => made_emitAll (fun _ _ => hstep) hc h) (fun c r hc h => ?_) h
  rw [emitRest] at h
  dsimp only at h
  split_ifs at h with hbound hbackwards hfar
  · obtain ⟨captures, hcaptures, h⟩ := Option.bind_eq_some_iff.mp h
    split_ifs at h with hyes
    · rw [hyes] at hcaptures
      exact absurd hcaptures (hasks hbound)
    · refine made_andThen (fun r => hstep _ r ((hc.emit _ _ _).patchX _)) (fun c r hc h => ?_) h
      obtain rfl := Option.some.inj h
      exact .ok ((hc.emit _ _ _).patchY _)
  · omega
  · omega
  · obtain ⟨r₁, hoptional, rfl⟩ := Option.map_eq_some_iff.mp h
    exact (made_emitOptionals hstep hc hoptional).map fun s hs => hs.patchAll (fun position _ hc => hc.patchY position) s.1

end Steps

/-- **A node that leads to no recursive rule is written out**, if the rest can be. -/
theorem made_emitNode (hg : g.Accepted) (hb : g.EveryNode GrammarNode.BoundsFine) (hunrollable : g.Unrollable)
    (hi : i < g.nodes.length) (hacc : Acc (fun c p => g.Edge p c) i)
    (hbusy : ∀ rule ∈ busy, Relation.ReflTransGen g.Edge (g.ruleRoot rule).toNat i) (hc : Sound g busy c)
    {r : Except Str Compiler} (h : emitNode g k i c = some r) : Made (Sound g busy) r := by
  induction k generalizing i busy c r with
  | zero => cases h
  | succ k ih =>
    obtain ⟨single, hsingle, h⟩ := Option.bind_eq_some_iff.mp h
    have hc := (hc.asked hg hsingle).2
    -- what the node leads to, with the rules that are written out then
    have hstep : ∀ d, g.Edge i d → ∀ c r, Sound g busy c → emitNode g k d c = some r → Made (Sound g busy) r :=
      fun d hedge c r hc h => ih (hg.ordered.edge_lt hi hedge) (hacc.inv hedge) (fun rule hrule => (hbusy rule hrule).tail hedge) hc h
    have hcases : ∀ c, Sound g busy c → emitCases g (emitNode g k) (hasCapture g k) i c = some r → Made (Sound g busy) r := by
      intro c hc h
      rw [emitCases] at h
      rcases hkind : (g.node i).kind <;> simp only [hkind] at h
      case reference =>
        have hroot := hg.root_ne (hg.ordered.rule_mem hi hkind)
        have hedge : g.Edge i (g.ruleRoot (g.node i).lo).toNat := .reference hkind hroot
        have hfree : (g.node i).lo ∉ busy := fun hrule =>
          not_transGen_self hacc (Relation.transGen_swap.mpr (.head' hedge (hbusy _ hrule)))
        have hrule : ∀ c r, Sound g busy c → emitNode g k (g.ruleRoot (g.node i).lo).toNat (enter (g.node i).lo c) = some r →
            Made (Sound g (insert (g.node i).lo busy)) r := fun c r hc h => by
          refine ih (hg.ordered.edge_lt hi hedge) (hacc.inv hedge) (fun rule hrule => ?_) (hc.enter _) h
          rcases Finset.mem_insert.mp hrule with rfl | hrule
          · exact .refl
          · exact (hbusy rule hrule).tail hedge
        rw [if_neg hroot, if_neg (hc.compiling ▸ hfree)] at h
        split_ifs at h
        · refine made_andThen (fun r => hrule c r hc) (fun c r hc h => ?_) h
          obtain rfl := Option.some.inj h
          exact .ok (hc.leave hfree)
        · refine made_andThen (fun r => hrule _ r ((hc.newSlot _).emit _ _ _)) (fun c r hc h => ?_) h
          obtain rfl := Option.some.inj h
          exact .ok ((hc.leave hfree).emit _ _ _)
      case literal =>
        obtain rfl := Option.some.inj h
        exact .ok (hc.emitLiteral _)
      case octetRange =>
        obtain rfl := Option.some.inj h
        exact .ok (hc.emitClass _)
      case sequence => exact made_emitAll (fun d hd => hstep d (.child (by simp [hkind]) hd)) hc h
      case alternation =>
        obtain ⟨r₁, hbranches, rfl⟩ := Option.map_eq_some_iff.mp h
        have hmade := made_emitBranches (fun d hd => hstep d (.child (by simp [hkind]) hd)) hc hbranches
        exact hmade.map fun s hs => hs.patchAll (fun position _ hc => hc.patchX position) s.1
      case repetition =>
        obtain ⟨hlo, hhi⟩ := boundsFine_node hb i hkind
        have hbody : g.Edge i (g.child (g.node i).first) :=
          .child (by simp [hkind]) (by rw [hg.ordered.childrenOf_repetition hi hkind]; exact List.mem_singleton_self _)
        refine made_emitRepetition (hstep _ hbody) hlo hhi (hunrollable.limits i hkind) (fun hbound hyes => ?_) hc h
        obtain ⟨k', hno⟩ := hunrollable.loops i hkind hbound
        exact Bool.false_ne_true ((steady_hasCapture _).unique hno hyes)
    dsimp only at h
    split_ifs at h
    · obtain ⟨built, -, h⟩ := Option.bind_eq_some_iff.mp h
      split_ifs at h
      · obtain rfl := Option.some.inj h
        exact .ok (hc.emitClass _)
      · exact hcases _ hc h
    · exact hcases _ hc h

end ProgramCompiler

/-- **A rule that leads to no recursive rule is compiled**, if what it leads to can be written out. -/
theorem exists_program {g : Grammar} {rule : ℤ} (hg : g.Accepted) (hb : g.EveryNode GrammarNode.BoundsFine)
    (hunrollable : g.Unrollable) (hrule : rule ∈ g.rules) (hends : ¬ g.ReachesRecursion (g.ruleRoot rule).toNat) :
    ∃ k p, ProgramCompiler.compile g k rule = some (.ok p) := by
  have hroot := hg.root_ne hrule
  have hi := hg.ordered.root_lt hroot
  have hacc := hg.ordered.acc_edge hi hends
  have hc : Sound g ∅ {} := ⟨rfl, fun _ _ hlookup => by cases hlookup⟩
  have hopen : ∀ j, Relation.ReflTransGen g.Edge (g.ruleRoot rule).toNat j → Open g j := fun j hj =>
    open_of_acc hg.ordered (hg.ordered.reach_lt hi hj) (acc_of_reach hacc hj)
  obtain ⟨k, r, hr⟩ := ends_emitNode hg hi hopen hc
  obtain ⟨c, rfl, -⟩ := made_emitNode hg hb hunrollable hi hacc (fun rule hrule => absurd hrule (Finset.notMem_empty rule)) hc hr
  refine ⟨k, (emit .accept 0 0 c).2.program, ?_⟩
  rw [ProgramCompiler.compile, if_neg hroot]
  exact congrArg (Option.map _) hr

end Abnf

end FtIrc
