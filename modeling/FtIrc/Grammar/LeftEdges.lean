import FtIrc.Grammar.Tables
import Mathlib.Data.Finset.Card
import Mathlib.Data.Finset.Image
import Mathlib.Order.RelClasses
import Mathlib.Data.Fintype.Card
import Mathlib.Data.Set.Finite.Basic

/-!
# No rule begins with itself

What a node may come to before an octet is consumed are its left edges
(`FtIrc.Abnf.Grammar.LeftEdge`): the parts of a sequence up to the first that cannot match nothing
(`FtIrc.Abnf.Grammar.Nullable`), and all parts of what is not a sequence. A grammar that
`FtIrc.Abnf.Grammar.validate` accepts has no cycle of them
(`FtIrc.Abnf.Grammar.Accepted.acc_leftEdge`).

Both walks of the check are complete, though they look at no rule twice: what matches nothing does
so without going through a rule within itself (`FtIrc.Abnf.Grammar.isNullable_of_nullWithin`), and
the rules seen are closed under left edges when a walk is over
(`FtIrc.Abnf.Grammar.collected_collectLeftReachable`).
-/

namespace FtIrc

namespace Abnf

namespace Grammar

/-! ### What matches nothing -/

/-- A node matches nothing, by going no deeper than so far. -/
def NullWithin (g : Grammar) : ℕ → ℕ → Prop
  | 0, _ => False
  | h + 1, i =>
    match (g.node i).kind with
    | .literal => g.literal (g.node i).literal = []
    | .octetRange => False
    | .reference =>
      g.ruleRoot (g.node i).lo ≠ kNoRule ∧ NullWithin g h (g.ruleRoot (g.node i).lo).toNat
    | .sequence => ∀ c ∈ g.childrenOf (g.node i), NullWithin g h c
    | .alternation => ∃ c ∈ g.childrenOf (g.node i), NullWithin g h c
    | .repetition => (g.node i).lo = 0 ∨ NullWithin g h (g.child (g.node i).first)

/-- **A node may match nothing.** -/
def Nullable (g : Grammar) (i : ℕ) : Prop := ∃ h, g.NullWithin h i

/-- **A node comes to another before an octet is consumed.** -/
inductive LeftEdge (g : Grammar) (i : ℕ) : ℕ → Prop
  | reference : (g.node i).kind = .reference → g.ruleRoot (g.node i).lo ≠ kNoRule →
      LeftEdge g i (g.ruleRoot (g.node i).lo).toNat
  | sequence {before after : List ℕ} {c : ℕ} : (g.node i).kind = .sequence →
      g.childrenOf (g.node i) = before ++ c :: after → (∀ b ∈ before, g.Nullable b) → LeftEdge g i c
  | alternation {c : ℕ} : (g.node i).kind = .alternation → c ∈ g.childrenOf (g.node i) → LeftEdge g i c
  | repetition : (g.node i).kind = .repetition → LeftEdge g i (g.child (g.node i).first)

/-- A node comes to a rule before an octet is consumed, and to no rule before it. -/
inductive LeftRule (g : Grammar) : ℕ → ℤ → Prop
  | here {i : ℕ} : (g.node i).kind = .reference → LeftRule g i (g.node i).lo
  | inside {i c : ℕ} {r : ℤ} : (g.node i).kind ≠ .reference → g.LeftEdge i c → LeftRule g c r → LeftRule g i r

variable {g : Grammar} {i c k h : ℕ} {r : ℤ} {busy seen : Finset ℤ}

theorem NullWithin.mono (hi : g.NullWithin h i) {h' : ℕ} (hh : h ≤ h') : g.NullWithin h' i := by
  induction h generalizing i h' with
  | zero => exact hi.elim
  | succ h ih =>
    obtain ⟨h', rfl⟩ : ∃ m, h' = m + 1 := ⟨h' - 1, by omega⟩
    have hh : h ≤ h' := by omega
    rw [NullWithin] at hi ⊢
    rcases hkind : (g.node i).kind <;> rw [hkind] at hi
    · exact ⟨hi.1, ih hi.2 hh⟩
    · exact hi
    · exact hi
    · exact fun c hc => ih (hi c hc) hh
    · obtain ⟨c, hc, hnull⟩ := hi
      exact ⟨c, hc, ih hnull hh⟩
    · exact hi.imp_right fun hnull => ih hnull hh

theorem Nullable.reference (hkind : (g.node i).kind = .reference) (hroot : g.ruleRoot (g.node i).lo ≠ kNoRule)
    (hnull : g.Nullable (g.ruleRoot (g.node i).lo).toNat) : g.Nullable i := by
  obtain ⟨h, hnull⟩ := hnull
  refine ⟨h + 1, ?_⟩
  rw [NullWithin, hkind]
  exact ⟨hroot, hnull⟩

theorem Nullable.literal (hkind : (g.node i).kind = .literal) (htext : g.literal (g.node i).literal = []) :
    g.Nullable i := by
  refine ⟨1, ?_⟩
  rw [NullWithin, hkind]
  exact htext

theorem Nullable.sequence (hkind : (g.node i).kind = .sequence)
    (hnull : ∀ c ∈ g.childrenOf (g.node i), g.Nullable c) : g.Nullable i := by
  -- the deepest of the parts says how deep the sequence is
  have hall : ∀ cs : List ℕ, (∀ c ∈ cs, g.Nullable c) → ∃ h, ∀ c ∈ cs, g.NullWithin h c := by
    intro cs
    induction cs with
    | nil => exact fun _ => ⟨0, fun c hc => absurd hc List.not_mem_nil⟩
    | cons c cs ih =>
      intro hcs
      obtain ⟨h, hc⟩ := hcs c List.mem_cons_self
      obtain ⟨h', hcs⟩ := ih fun b hb => hcs b (List.mem_cons_of_mem c hb)
      refine ⟨max h h', fun b hb => ?_⟩
      rcases List.mem_cons.mp hb with rfl | hb
      · exact hc.mono (le_max_left h h')
      · exact (hcs b hb).mono (le_max_right h h')
  obtain ⟨h, hall⟩ := hall _ hnull
  refine ⟨h + 1, ?_⟩
  rw [NullWithin, hkind]
  exact hall

theorem Nullable.alternation (hkind : (g.node i).kind = .alternation) (hc : c ∈ g.childrenOf (g.node i))
    (hnull : g.Nullable c) : g.Nullable i := by
  obtain ⟨h, hnull⟩ := hnull
  refine ⟨h + 1, ?_⟩
  rw [NullWithin, hkind]
  exact ⟨c, hc, hnull⟩

theorem Nullable.repetition (hkind : (g.node i).kind = .repetition)
    (hnull : (g.node i).lo = 0 ∨ g.Nullable (g.child (g.node i).first)) : g.Nullable i := by
  rcases hnull with hlo | ⟨h, hnull⟩
  · refine ⟨1, ?_⟩
    rw [NullWithin, hkind]
    exact .inl hlo
  · refine ⟨h + 1, ?_⟩
    rw [NullWithin, hkind]
    exact .inr hnull

/-! ### Nodes of a grammar in order -/

theorem getElem?_node (hi : i < g.nodes.length) : g.nodes[i]? = some (g.node i) := by
  rw [node, List.getD_eq_getElem _ _ hi, List.getElem?_eq_getElem hi]

theorem Ordered.inTables (hg : g.Ordered) (hi : i < g.nodes.length) : g.NodeInTables i (g.node i) :=
  hg.nodes (getElem?_node hi)

/-- Children stand before their parent. -/
theorem Ordered.child_lt (hg : g.Ordered) (hi : i < g.nodes.length) (hc : c ∈ g.childrenOf (g.node i)) : c < i := by
  obtain ⟨k, hk, rfl⟩ := List.mem_map.mp hc
  obtain ⟨c, hlt, hget⟩ := (hg.inTables hi).children k (List.mem_range.mp hk)
  rwa [child, List.getD_eq_getElem?_getD, hget]

/-- A repetition has one child. -/
theorem Ordered.childrenOf_repetition (hg : g.Ordered) (hi : i < g.nodes.length)
    (hkind : (g.node i).kind = .repetition) : g.childrenOf (g.node i) = [g.child (g.node i).first] := by
  rw [childrenOf, (hg.inTables hi).single hkind]
  rfl

theorem Ordered.body_lt (hg : g.Ordered) (hi : i < g.nodes.length) (hkind : (g.node i).kind = .repetition) :
    g.child (g.node i).first < i :=
  hg.child_lt hi (by rw [hg.childrenOf_repetition hi hkind]; exact List.mem_singleton_self _)

/-- The root of a rule is a node. -/
theorem Ordered.root_lt (hg : g.Ordered) (hroot : g.ruleRoot r ≠ kNoRule) :
    (g.ruleRoot r).toNat < g.nodes.length := by
  obtain ⟨j, hj, h⟩ := (hg.ruleRoot_cases r).resolve_left hroot
  rwa [h, Int.toNat_natCast]

/-- The rules of a grammar. -/
def rules (g : Grammar) : Finset ℤ := (Finset.range g.ruleCount).image fun j : ℕ => (j : ℤ)

theorem Ordered.rule_mem (hg : g.Ordered) (hi : i < g.nodes.length) (hkind : (g.node i).kind = .reference) :
    (g.node i).lo ∈ g.rules := by
  obtain ⟨j, hj, h⟩ := (hg.inTables hi).rule hkind
  exact Finset.mem_image.mpr ⟨j, Finset.mem_range.mpr hj, h.symm⟩

/-- Left edges stay among the nodes. -/
theorem Ordered.leftEdge_lt (hg : g.Ordered) (hi : i < g.nodes.length) (h : g.LeftEdge i c) : c < g.nodes.length := by
  cases h with
  | reference _ hroot => exact hg.root_lt hroot
  | sequence _ hsplit _ => exact (hg.child_lt hi (by rw [hsplit]; simp)).trans hi
  | alternation _ hc => exact (hg.child_lt hi hc).trans hi
  | repetition hkind => exact (hg.body_lt hi hkind).trans hi

/-! ### The walks have enough fuel -/

/-- Fuel for a walk that is at a node, and has these rules behind it. -/
def fuelAt (g : Grammar) (busy : Finset ℤ) (i : ℕ) : ℕ := (g.rules \ busy).card * (g.nodes.length + 1) + i + 1

theorem fuelAt_child (hc : c < i) : g.fuelAt busy c < g.fuelAt busy i := by
  rw [fuelAt, fuelAt]
  omega

theorem fuelAt_subset (h : busy ⊆ seen) (i : ℕ) : g.fuelAt seen i ≤ g.fuelAt busy i := by
  have hcard := Finset.card_le_card (Finset.sdiff_subset_sdiff (le_refl g.rules) h)
  have hmul := Nat.mul_le_mul_right (g.nodes.length + 1) hcard
  rw [fuelAt, fuelAt]
  omega

/-- Going on to a rule costs no more than the rule is worth. -/
theorem fuelAt_rule (hr : r ∈ g.rules) (hbusy : r ∉ busy) (hc : c < g.nodes.length) :
    g.fuelAt (insert r busy) c < g.fuelAt busy i := by
  have hcard : (g.rules \ insert r busy).card + 1 = (g.rules \ busy).card := by
    rw [Finset.sdiff_insert]
    exact Finset.card_erase_add_one (Finset.mem_sdiff.mpr ⟨hr, hbusy⟩)
  rw [fuelAt, fuelAt, ← hcard, Nat.add_mul]
  omega

theorem fuelAt_empty_le (hi : i < g.nodes.length) : g.fuelAt ∅ i ≤ g.walkFuel := by
  have hcard : (g.rules \ ∅).card ≤ g.ruleCount := by
    rw [Finset.sdiff_empty]
    exact Finset.card_image_le.trans (Finset.card_range _).le
  have hmul := Nat.mul_le_mul_right (g.nodes.length + 1) hcard
  rw [fuelAt, walkFuel, Nat.add_mul]
  omega

/-! ### The first walk is complete -/

/-- **What matches nothing is found to do so**, if the rules being looked at do not match nothing
by going less deep. -/
theorem isNullable_of_nullWithin (hg : g.Ordered) (hi : i < g.nodes.length) (hk : g.fuelAt busy i ≤ k)
    (hbusy : ∀ r ∈ busy, ∀ d, g.NullWithin d (g.ruleRoot r).toNat → h ≤ d) (hnull : g.NullWithin h i) :
    g.isNullable k i busy = true := by
  induction k generalizing h i busy with
  | zero =>
    rw [fuelAt] at hk
    omega
  | succ k ih =>
    obtain ⟨h, rfl⟩ : ∃ m, h = m + 1 := ⟨h - 1, by
      rcases h with _ | h
      · exact hnull.elim
      · rfl⟩
    have hchild : ∀ c < i, g.NullWithin h c → g.isNullable k c busy = true := by
      intro c hc hnullc
      have hfuel : g.fuelAt busy c < g.fuelAt busy i := fuelAt_child hc
      exact ih (hc.trans hi) (by omega) (fun r hr d hd => (Nat.le_succ h).trans (hbusy r hr d hd)) hnullc
    rw [NullWithin] at hnull
    rw [isNullable]
    rcases hkind : (g.node i).kind <;> rw [hkind] at hnull <;> dsimp only
    · obtain ⟨hroot, hnull⟩ := hnull
      have hnot : (g.node i).lo ∉ busy := fun hmem => by
        have hle := hbusy _ hmem _ hnull
        omega
      rw [if_neg hnot, Bool.or_eq_true]
      refine .inr ?_
      -- the rule is looked at where it matches nothing by going least deep
      classical
      have hex : ∃ d, g.NullWithin d (g.ruleRoot (g.node i).lo).toNat := ⟨h, hnull⟩
      have hfuel := fuelAt_rule (i := i) (hg.rule_mem hi hkind) hnot (hg.root_lt hroot)
      refine ih (hg.root_lt hroot) (by omega) (fun r hr d hd => ?_) (Nat.find_spec hex)
      rcases Finset.mem_insert.mp hr with rfl | hr
      · exact Nat.find_min' hex hd
      · exact (Nat.find_min' hex hnull).trans ((Nat.le_succ h).trans (hbusy r hr d hd))
    · rw [hnull]
      rfl
    · exact hnull.elim
    · rw [List.all_eq_true]
      exact fun c hc => hchild c (hg.child_lt hi hc) (hnull c hc)
    · obtain ⟨c, hc, hnull⟩ := hnull
      exact List.any_eq_true.mpr ⟨c, hc, hchild c (hg.child_lt hi hc) hnull⟩
    · rw [Bool.or_eq_true, decide_eq_true_eq]
      exact hnull.imp_right fun hnull => hchild _ (hg.body_lt hi hkind) hnull

theorem Ordered.isNullable (hg : g.Ordered) (hi : i < g.nodes.length) (h : g.Nullable i) :
    g.isNullable g.walkFuel i ∅ = true := by
  obtain ⟨d, hnull⟩ := h
  exact isNullable_of_nullWithin hg hi (fuelAt_empty_le hi) (fun r hr => absurd hr (Finset.notMem_empty r)) hnull

/-! ### The second walk is complete -/

/-- Rules are seen: those there already, those that were looked for, and what the new ones come to. -/
structure Collected (g : Grammar) (wanted : ℤ → Prop) (seen seen' : Finset ℤ) : Prop where
  subset : seen ⊆ seen'
  found : ∀ r, wanted r → r ∈ seen'
  closed : ∀ r ∈ seen', r ∉ seen → g.ruleRoot r ≠ kNoRule → ∀ r', g.LeftRule (g.ruleRoot r).toNat r' → r' ∈ seen'

theorem Collected.trans {wanted wanted' : ℤ → Prop} {seen' seen'' : Finset ℤ} (h : g.Collected wanted seen seen')
    (h' : g.Collected wanted' seen' seen'') : g.Collected (fun r => wanted r ∨ wanted' r) seen seen'' where
  subset := h.subset.trans h'.subset
  found r hr := hr.elim (fun hr => h'.subset (h.found r hr)) (h'.found r)
  closed r hr hnew hroot r' hr' := by
    by_cases hmem : r ∈ seen'
    · exact h'.subset (h.closed r hmem hnew hroot r' hr')
    · exact h'.closed r hr hmem hroot r' hr'

theorem Collected.mono {wanted wanted' : ℤ → Prop} {seen' : Finset ℤ} (h : g.Collected wanted seen seen')
    (hw : ∀ r, wanted' r → wanted r) : g.Collected wanted' seen seen' :=
  ⟨h.subset, fun r hr => h.found r (hw r hr), h.closed⟩

theorem Collected.refl {wanted : ℤ → Prop} (seen : Finset ℤ) (h : ∀ r, ¬ wanted r) :
    g.Collected wanted seen seen :=
  ⟨Finset.Subset.refl _, fun r hr => absurd hr (h r), fun _ hr hnew => absurd hr hnew⟩

/-- Several nodes are walked through, one after the other. -/
theorem Collected.foldl {walk : Finset ℤ → ℕ → Finset ℤ} {cs : List ℕ}
    (h : ∀ c ∈ cs, ∀ seen', seen ⊆ seen' → g.Collected (g.LeftRule c) seen' (walk seen' c)) :
    g.Collected (fun r => ∃ c ∈ cs, g.LeftRule c r) seen (cs.foldl walk seen) := by
  induction cs generalizing seen with
  | nil => exact .refl seen fun r ⟨c, hc, _⟩ => absurd hc List.not_mem_nil
  | cons c cs ih =>
    have hfirst := h c List.mem_cons_self seen (Finset.Subset.refl _)
    have hrest : g.Collected (fun r => ∃ c ∈ cs, g.LeftRule c r) (walk seen c) (cs.foldl walk (walk seen c)) :=
      ih fun c' hc' seen' hs => h c' (List.mem_cons_of_mem c hc') seen' (hfirst.subset.trans hs)
    refine (hfirst.trans hrest).mono ?_
    rintro r ⟨c', hc', hr⟩
    rcases List.mem_cons.mp hc' with rfl | hc'
    · exact .inl hr
    · exact .inr ⟨c', hc', hr⟩

/-- A part of a sequence is at its left edge if those before it match nothing. -/
theorem mem_leftEdge {nullable : ℕ → Bool} {before after : List ℕ}
    (h : ∀ b ∈ before, nullable b = true) : c ∈ leftEdge nullable (before ++ c :: after) := by
  induction before with
  | nil => exact List.mem_cons_self
  | cons b before ih =>
    rw [List.cons_append, leftEdge, if_pos (h b List.mem_cons_self)]
    exact List.mem_cons_of_mem b (ih fun b' hb' => h b' (List.mem_cons_of_mem b hb'))

theorem mem_of_mem_leftEdge {nullable : ℕ → Bool} {cs : List ℕ} (h : c ∈ leftEdge nullable cs) : c ∈ cs := by
  induction cs with
  | nil => exact h
  | cons b cs ih =>
    rw [leftEdge] at h
    rcases List.mem_cons.mp h with rfl | h
    · exact List.mem_cons_self
    · split at h
      · exact List.mem_cons_of_mem b (ih h)
      · exact absurd h List.not_mem_nil

/-- **Every rule a node comes to is seen**, and what the rules seen on the way come to. -/
theorem collected_collectLeftReachable (hg : g.Ordered) (hi : i < g.nodes.length) (hk : g.fuelAt seen i ≤ k) :
    g.Collected (g.LeftRule i) seen (g.collectLeftReachable k i seen) := by
  induction k generalizing i seen with
  | zero =>
    rw [fuelAt] at hk
    omega
  | succ k ih =>
    have hchild : ∀ c < i, ∀ seen', seen ⊆ seen' →
        g.Collected (g.LeftRule c) seen' (g.collectLeftReachable k c seen') := by
      intro c hc seen' hs
      have hfuel : g.fuelAt seen' c < g.fuelAt seen' i := fuelAt_child hc
      have hsub : g.fuelAt seen' i ≤ g.fuelAt seen i := fuelAt_subset hs i
      exact ih (hc.trans hi) (by omega)
    rw [collectLeftReachable]
    rcases hkind : (g.node i).kind <;> dsimp only
    · have hwanted : ∀ r, g.LeftRule i r → r = (g.node i).lo := by
        intro r hr
        cases hr with
        | here => rfl
        | inside hne => exact absurd hkind hne
      by_cases hmem : (g.node i).lo ∈ seen
      · rw [if_pos hmem]
        exact ⟨Finset.Subset.refl _, fun r hr => hwanted r hr ▸ hmem, fun _ hr hnew => absurd hr hnew⟩
      rw [if_neg hmem]
      by_cases hroot : g.ruleRoot (g.node i).lo = kNoRule
      · rw [if_pos hroot]
        have hlo : (g.node i).lo ∈ insert (g.node i).lo seen := Finset.mem_insert_self _ _
        refine ⟨Finset.subset_insert _ _, fun r hr => hwanted r hr ▸ hlo, fun r hr hnew hne => ?_⟩
        rcases Finset.mem_insert.mp hr with rfl | hr
        · exact absurd hroot hne
        · exact absurd hr hnew
      · rw [if_neg hroot]
        have hfuel : g.fuelAt (insert (g.node i).lo seen) (g.ruleRoot (g.node i).lo).toNat < g.fuelAt seen i :=
          fuelAt_rule (hg.rule_mem hi hkind) hmem (hg.root_lt hroot)
        have hrule := ih (hg.root_lt hroot) (Nat.le_of_lt_succ (hfuel.trans_le hk))
        have hlo : (g.node i).lo ∈ g.collectLeftReachable k (g.ruleRoot (g.node i).lo).toNat
            (insert (g.node i).lo seen) := hrule.subset (Finset.mem_insert_self _ _)
        refine ⟨(Finset.subset_insert _ _).trans hrule.subset, fun r hr => hwanted r hr ▸ hlo, ?_⟩
        intro r hr hnew hne r' hr'
        by_cases heq : r = (g.node i).lo
        · subst heq
          exact hrule.found r' hr'
        · exact hrule.closed r hr (by simp [heq, hnew]) hne r' hr'
    · exact .refl seen fun r hr => by cases hr with
        | here hk => simp [hkind] at hk
        | inside _ hedge => cases hedge <;> simp_all
    · exact .refl seen fun r hr => by cases hr with
        | here hk => simp [hkind] at hk
        | inside _ hedge => cases hedge <;> simp_all
    · refine (Collected.foldl fun c hc => hchild c (hg.child_lt hi (mem_of_mem_leftEdge hc))).mono ?_
      intro r hr
      cases hr with
      | here hk => simp [hkind] at hk
      | inside _ hedge hr =>
        cases hedge with
        | sequence _ hsplit hnull =>
          refine ⟨_, ?_, hr⟩
          rw [hsplit]
          refine mem_leftEdge fun b hb => hg.isNullable ?_ (hnull b hb)
          exact (hg.child_lt hi (by rw [hsplit]; exact List.mem_append_left _ hb)).trans hi
        | reference hk => simp [hkind] at hk
        | alternation hk => simp [hkind] at hk
        | repetition hk => simp [hkind] at hk
    · refine (Collected.foldl fun c hc => hchild c (hg.child_lt hi hc)).mono ?_
      intro r hr
      cases hr with
      | here hk => simp [hkind] at hk
      | inside _ hedge hr =>
        cases hedge with
        | alternation _ hc => exact ⟨_, hc, hr⟩
        | reference hk => simp [hkind] at hk
        | sequence hk => simp [hkind] at hk
        | repetition hk => simp [hkind] at hk
    · refine (hchild _ (hg.body_lt hi hkind) seen (Finset.Subset.refl _)).mono ?_
      intro r hr
      cases hr with
      | here hk => simp [hkind] at hk
      | inside _ hedge hr =>
        cases hedge with
        | repetition _ => exact hr
        | reference hk => simp [hkind] at hk
        | sequence hk => simp [hkind] at hk
        | alternation hk => simp [hkind] at hk

/-! ### No cycles -/

/-- **A grammar that is accepted**: it is in order, all its rules have roots, and the checks of
`FtIrc.Abnf.Grammar.validate` find nothing. -/
structure Accepted (g : Grammar) : Prop where
  ordered : g.Ordered
  validated : g.validate = .ok ()

theorem Accepted.checks (h : g.Accepted) :
    g.checkAllRulesDefined = .ok () ∧ g.checkNoLeftRecursion = .ok () := by
  have hv := h.validated
  rw [validate] at hv
  obtain ⟨⟨⟩, hdefined, hrec⟩ := bind_eq_ok.mp hv
  exact ⟨hdefined, hrec⟩

/-- Every rule has a root. -/
theorem Accepted.root_ne (h : g.Accepted) (hr : r ∈ g.rules) : g.ruleRoot r ≠ kNoRule := by
  obtain ⟨j, hj, rfl⟩ := Finset.mem_image.mp hr
  have hdefined := h.checks.1
  rw [checkAllRulesDefined] at hdefined
  split at hdefined
  · exact nomatch hdefined
  · next hfind => simpa using List.find?_eq_none.mp hfind j (List.mem_range.mpr (Finset.mem_range.mp hj))

/-- A rule comes to another before an octet is consumed. -/
def LeftRules (g : Grammar) (r r' : ℤ) : Prop := r ∈ g.rules ∧ g.LeftRule (g.ruleRoot r).toNat r'

theorem Ordered.leftRule_mem (hg : g.Ordered) (hi : i < g.nodes.length) (h : g.LeftRule i r) : r ∈ g.rules := by
  induction h with
  | here hkind => exact hg.rule_mem hi hkind
  | inside _ hedge _ ih => exact ih (hg.leftEdge_lt hi hedge)

/-- **No rule begins with itself.** -/
theorem Accepted.not_leftRules (h : g.Accepted) : ¬ Relation.TransGen g.LeftRules r r := by
  intro hcycle
  have hmem : r ∈ g.rules := by
    obtain ⟨r', hstep, -⟩ := Relation.TransGen.head'_iff.mp hcycle
    exact hstep.1
  have hroot := h.ordered.root_lt (h.root_ne hmem)
  have hseen := collected_collectLeftReachable h.ordered hroot (fuelAt_empty_le hroot)
  -- all rules on the cycle are seen on the walk from its first
  have hall : ∀ r', Relation.TransGen g.LeftRules r r' →
      r' ∈ g.collectLeftReachable g.walkFuel (g.ruleRoot r).toNat ∅ := by
    intro r' hr'
    induction hr' with
    | single hstep => exact hseen.found _ hstep.2
    | tail _ hstep ih =>
      exact hseen.closed _ ih (Finset.notMem_empty _) (h.root_ne hstep.1) _ hstep.2
  obtain ⟨j, hj, rfl⟩ := Finset.mem_image.mp hmem
  have hrec := h.checks.2
  rw [checkNoLeftRecursion] at hrec
  split at hrec
  · exact nomatch hrec
  · next hfind =>
    refine List.find?_eq_none.mp hfind j (List.mem_range.mpr (Finset.mem_range.mp hj)) ?_
    rw [Bool.and_eq_true, decide_eq_true_eq, decide_eq_true_eq]
    exact ⟨h.root_ne hmem, hall _ hcycle⟩

/-- Going from rule to rule comes to an end. -/
theorem Accepted.acc_leftRules (h : g.Accepted) (r : ℤ) : Acc (fun r' r => g.LeftRules r r') r := by
  by_cases hmem : r ∈ g.rules
  swap
  · exact ⟨r, fun r' hstep => absurd hstep.1 hmem⟩
  -- the rules are finitely many, and there is no cycle
  let before (a b : {r // r ∈ g.rules}) : Prop := Relation.TransGen g.LeftRules b.1 a.1
  have htrans : IsTrans _ before := ⟨fun a b c hab hbc => hbc.trans hab⟩
  have hirrefl : Std.Irrefl before := ⟨fun a hcycle => h.not_leftRules hcycle⟩
  have hfinite : Finite {r // r ∈ g.rules} := Finite.of_fintype _
  have hwf : WellFounded before := Finite.wellFounded_of_trans_of_irrefl before
  have hacc : ∀ a : {r // r ∈ g.rules}, Acc (fun r' r => g.LeftRules r r') a.1 := by
    intro a
    induction a using hwf.induction with
    | _ a ih =>
      refine ⟨a.1, fun r' hstep => ?_⟩
      have hr' := h.ordered.leftRule_mem (h.ordered.root_lt (h.root_ne a.2)) hstep.2
      exact ih ⟨r', hr'⟩ (.single hstep)
  exact hacc ⟨r, hmem⟩

/-- Left edges come to an end at a node if they do at the rules it comes to. -/
theorem Accepted.acc_leftEdge_of_rules (h : g.Accepted) (hi : i < g.nodes.length)
    (hrules : ∀ r, g.LeftRule i r → Acc (fun c p => g.LeftEdge p c) (g.ruleRoot r).toNat) :
    Acc (fun c p => g.LeftEdge p c) i := by
  induction i using Nat.strong_induction_on with
  | _ i ih =>
    refine ⟨i, fun c hedge => ?_⟩
    by_cases hkind : (g.node i).kind = .reference
    · cases hedge with
      | reference _ _ => exact hrules _ (.here hkind)
      | sequence hk => simp [hkind] at hk
      | alternation hk => simp [hkind] at hk
      | repetition hk => simp [hkind] at hk
    · have hlt : c < i := by
        cases hedge with
        | reference hk => exact absurd hk hkind
        | sequence _ hsplit _ => exact h.ordered.child_lt hi (by rw [hsplit]; simp)
        | alternation _ hc => exact h.ordered.child_lt hi hc
        | repetition hk => exact h.ordered.body_lt hi hk
      exact ih c hlt (hlt.trans hi) fun r hr => hrules r (.inside hkind hedge hr)

/-- **There is no cycle of left edges.** -/
theorem Accepted.acc_leftEdge (h : g.Accepted) (hi : i < g.nodes.length) :
    Acc (fun c p => g.LeftEdge p c) i := by
  have hrule : ∀ r ∈ g.rules, Acc (fun c p => g.LeftEdge p c) (g.ruleRoot r).toNat := by
    intro r
    induction h.acc_leftRules r with
    | intro r _ ih =>
      intro hr
      have hroot := h.ordered.root_lt (h.root_ne hr)
      exact h.acc_leftEdge_of_rules hroot fun r' hr' => ih r' ⟨hr, hr'⟩ (h.ordered.leftRule_mem hroot hr')
  exact h.acc_leftEdge_of_rules hi fun r hr => hrule r (h.ordered.leftRule_mem hi hr)

/-- No node is on the left of itself. -/
theorem Accepted.not_left_self (h : g.Accepted) (hi : i < g.nodes.length) : ¬ Relation.TransGen g.LeftEdge i i := by
  intro hcycle
  have hself : ∀ {s : ℕ → ℕ → Prop} {j : ℕ}, Acc s j → ¬ s j j := by
    intro s j hacc
    induction hacc with
    | intro j _ ih => exact fun hjj => ih j hjj hjj
  exact hself (h.acc_leftEdge hi).transGen (Relation.transGen_swap.mpr hcycle)

end Grammar

end Abnf

end FtIrc
