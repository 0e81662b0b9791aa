import FtIrc.Grammar.Deciding
import FtIrc.Grammar.Interpreting
import FtIrc.Library.Searching

/-!
# The two matchers agree

The interpreter decides the grammar where it does not give up (`FtIrc.Abnf.TreeMatcher.decides_run`), as
long as no repetition must have a body twice that may match nothing.

What a program answers is what the search through the pattern of its rule finds first
(`FtIrc.Abnf.ProgramMatcher.run_iff_eval`), and so is what the interpreter answers. So both report the
same (`FtIrc.Abnf.same_result`): where bodies that may match nothing are not repeated, and no capture is
inside of another. The pattern as it is written out for the program captures everything once, so what
a thread has saved can be read off the way the search went (`FtIrc.Abnf.ProgramMatcher.result_spans`).
-/

namespace FtIrc

namespace Abnf

open Fuel Grammar Pattern ProgramCompiler

/-! ### What was saved -/

namespace ProgramMatcher

variable {g : Grammar} {p : Program} {line : Str} {size : ℕ} {saves : Machine.Saves}

theorem length_saved : (saved size saves).length = size := by
  induction saves using List.reverseRecOn with
  | nil => exact List.length_replicate
  | append_singleton saves save ih => rw [saved_snoc, List.length_set, ih]

/-- What is saved in a register once is there. -/
theorem saved_of_mem (hnodup : (saves.map Prod.fst).Nodup) {save : ℕ × ℕ} (hsave : save ∈ saves) (hlt : save.1 < size) :
    (saved size saves)[save.1]? = some (toInt save.2) := by
  induction saves using List.reverseRecOn with
  | nil => cases hsave
  | append_singleton saves last ih =>
    rw [List.map_append, List.nodup_append] at hnodup
    obtain ⟨hnodup, -, hlast⟩ := hnodup
    rw [saved_snoc]
    rcases List.mem_append.mp hsave with hsave | hsave
    · have hne : last.1 ≠ save.1 := fun heq => hlast _ (List.mem_map_of_mem hsave) _ List.mem_cons_self heq.symm
      rw [List.getElem?_set_ne hne]
      exact ih hnodup hsave
    · obtain rfl := List.mem_singleton.mp hsave
      exact List.getElem?_set_self (by rwa [length_saved])

theorem saved_of_notMem {register : ℕ} (hnot : register ∉ saves.map Prod.fst) (hlt : register < size) :
    (saved size saves)[register]? = some (-1) := by
  induction saves using List.reverseRecOn with
  | nil => exact List.getElem?_replicate_of_lt hlt
  | append_singleton saves last ih =>
    rw [List.map_append, List.mem_append, not_or] at hnot
    rw [saved_snoc, List.getElem?_set_ne fun heq => hnot.2 (List.mem_singleton.mpr heq.symm)]
    exact ih hnot.1

/-- What a matcher notes of a slot. -/
def noteSlot (p : Program) (line : Str) (slots : List ℤ) (r : MatchResult) (slot : ℕ) : MatchResult :=
  let start := slots.getD (slot * 2) 0
  let last := slots.getD (slot * 2 + 1) 0
  if start < 0 ∨ last < 0 ∨ last < start then r
  else
    let text := (line.drop start.toNat).take (last - start).toNat
    { r with
      values := r.values.modify (p.captureOfSlot slot).toNat (· ++ [text])
      sequence := r.sequence ++ [text]
      owners := r.owners ++ [p.captureOfSlot slot] }

theorem result_eq (slots : List ℤ) :
    result g p line slots = (List.range p.slotCapture.length).foldl (noteSlot p line slots) (MatchResult.reset g) := rfl

/-- A result with what is captured besides. -/
def add (r : MatchResult) (caps : List Captured) : MatchResult :=
  let captures := Captures.add (r.values, r.sequence, r.owners) caps
  { r with values := captures.1, sequence := captures.2.1, owners := captures.2.2 }

/-- What a matcher takes down of a captured text. -/
def spanned (s : Span Octet (ℤ × ℕ)) : Captured := (s.label.1.toNat, s.start.take (s.start.length - s.stop.length))

theorem noteSlot_eq {slots : List ℤ} {s : Span Octet (ℤ × ℕ)} (hnonneg : 0 ≤ s.label.1) (hslot : p.captureOfSlot s.label.2 = s.label.1)
    (hstop : s.stop <:+ s.start) (hstart : s.start <:+ line)
    (hfirst : slots.getD (s.label.2 * 2) 0 = (line.length - s.start.length : ℕ))
    (hlast : slots.getD (s.label.2 * 2 + 1) 0 = (line.length - s.stop.length : ℕ)) (r : MatchResult) :
    noteSlot p line slots r s.label.2 = add r [spanned s] := by
  have hle := hstop.length_le
  have hle' := hstart.length_le
  have htext : (line.drop (line.length - s.start.length)).take (s.start.length - s.stop.length) = (spanned s).2 := by
    rw [← List.suffix_iff_eq_drop.mp hstart]
    rfl
  have hnat : ((line.length - s.stop.length : ℕ) - (line.length - s.start.length : ℕ) : ℤ).toNat = s.start.length - s.stop.length := by
    omega
  rw [noteSlot, hfirst, hlast, hslot]
  dsimp only
  rw [if_neg (by omega), Int.toNat_natCast, hnat, htext, add, Captures.add]
  have howner : ((spanned s).1 : ℤ) = s.label.1 := Int.toNat_of_nonneg hnonneg
  rw [List.foldl_cons, List.foldl_nil, howner]
  rfl

/-- **The slots of the captures are gone through in their order**, and what they hold is captured. -/
theorem foldl_noteSlot {slots : List ℤ} {l : List (Span Octet (ℤ × ℕ))} {ks : List ℤ} {i : ℕ} (hks : p.slotCapture.drop i = ks)
    (hnonneg : ∀ k ∈ ks, 0 ≤ k) (hl : (l.map Span.label).Sublist (ks.zipIdx i))
    (hspans : ∀ s ∈ l, s.stop <:+ s.start ∧ s.start <:+ line)
    (hin : ∀ s ∈ l, slots.getD (s.label.2 * 2) 0 = (line.length - s.start.length : ℕ) ∧
      slots.getD (s.label.2 * 2 + 1) 0 = (line.length - s.stop.length : ℕ))
    (hout : ∀ j, i ≤ j → j < i + ks.length → (∀ s ∈ l, s.label.2 ≠ j) → slots.getD (j * 2) 0 < 0) (r : MatchResult) :
    (List.range' i ks.length).foldl (noteSlot p line slots) r = add r (l.map spanned) := by
  induction ks generalizing i l r with
  | nil =>
    obtain rfl := List.map_eq_nil_iff.mp (List.sublist_nil.mp hl)
    rfl
  | cons k ks ih =>
    have hlt : i < p.slotCapture.length := by
      by_contra hge
      rw [List.drop_eq_nil_of_le (not_lt.mp hge)] at hks
      cases hks
    rw [List.drop_eq_getElem_cons hlt] at hks
    obtain ⟨hk, hks⟩ := List.cons.inj hks
    have hcapture : p.captureOfSlot i = k := by rw [Program.captureOfSlot, List.getD_eq_getElem _ _ hlt, hk]
    obtain ⟨hnonneg, hnonneg'⟩ := List.forall_mem_cons.mp hnonneg
    have hlater : ∀ {l : List (Span Octet (ℤ × ℕ))}, (l.map Span.label).Sublist (ks.zipIdx (i + 1)) → ∀ s ∈ l, i < s.label.2 :=
      fun hl s hs => by
        have hmem := hl.subset (List.mem_map_of_mem hs)
        exact (List.mem_zipIdx hmem).1
    rw [List.length_cons, List.range'_succ, List.foldl_cons]
    rw [List.zipIdx_cons, List.sublist_cons_iff] at hl
    rcases hl with hl | ⟨labels, heq, hlabels⟩
    · -- nothing is saved in this slot
      have hskip : noteSlot p line slots r i = r := by
        refine if_pos (.inl (hout i le_rfl ?_ fun s hs => (hlater hl s hs).ne'))
        rw [List.length_cons]
        omega
      rw [hskip]
      refine ih hks hnonneg' hl hspans hin (fun j hj hj' => hout j (by omega) ?_) r
      rw [List.length_cons]
      omega
    · obtain ⟨s, l, rfl, hlabel, rfl⟩ := List.map_eq_cons_iff.mp heq
      obtain ⟨⟨hstop, hstart⟩, hspans⟩ := List.forall_mem_cons.mp hspans
      obtain ⟨⟨hfirst, hlast⟩, hin⟩ := List.forall_mem_cons.mp hin
      rw [hlabel] at hfirst hlast
      have hadd : noteSlot p line slots r i = add r [spanned s] := by
        obtain ⟨⟨k', i'⟩, start, stop⟩ := s
        obtain ⟨rfl, rfl⟩ := Prod.mk.inj hlabel
        exact noteSlot_eq hnonneg hcapture hstop hstart hfirst hlast r
      rw [hadd, ih hks hnonneg' hlabels hspans hin (fun j hj hj' hnot => ?_)]
      · rfl
      · refine hout j (by omega) (by rw [List.length_cons]; omega) (List.forall_mem_cons.mpr ⟨?_, hnot⟩)
        rw [hlabel]
        exact fun h => absurd h (by omega)

theorem toInt_small {n : ℕ} (h : n < 2 ^ 31) : toInt n = n := Int.bmod_eq_of_le (by omega) (by omega)

theorem saves_spans (n : ℕ) (l : List (Span Octet (ℤ × ℕ))) : (Machine.saving Prod.snd n).spans l [] =
    l.flatMap fun s => [(s.label.2 * 2, n - s.start.length), (s.label.2 * 2 + 1, n - s.stop.length)] := by
  induction l with
  | nil => rfl
  | cons s l ih =>
    rw [List.flatMap_cons, ← ih]
    rfl

/-- No register is saved twice. -/
theorem nodup_spans {n : ℕ} {l : List (Span Octet (ℤ × ℕ))} (h : (l.map fun s => s.label.2).Nodup) :
    (((Machine.saving Prod.snd n).spans l []).map Prod.fst).Nodup := by
  rw [saves_spans, List.map_flatMap, List.nodup_flatMap]
  refine ⟨fun s _ => ?_, (List.pairwise_map.mp h).imp fun {s s'} hne => ?_⟩
  · simp
  · refine List.disjoint_left.mpr ?_
    intro register hs hs'
    simp only [List.map_cons, List.map_nil, List.mem_cons, List.not_mem_nil, or_false] at hs hs'
    omega

/-- **What a thread has saved is reported** as the search takes it down. -/
theorem result_spans {labels : List (ℤ × ℕ)} {l : List (Span Octet (ℤ × ℕ))} (hslots : Slots labels [] p.slotCapture)
    (hnonneg : ∀ k ∈ p.slotCapture, 0 ≤ k) (hl : (l.map Span.label).Sublist labels)
    (hspans : ∀ s ∈ l, s.stop <:+ s.start ∧ s.start <:+ line) (hshort : line.length < 2 ^ 31) :
    result g p line (saved (p.slotCapture.length * 2) ((Machine.saving Prod.snd line.length).spans l [])) =
      g.reported (l.map spanned) := by
  have hlabels : labels = p.slotCapture.zipIdx := by
    have hadded := hslots.added
    rw [List.nil_append] at hadded
    rw [hadded]
    exact hslots.numbered
  rw [hlabels] at hl
  have hnodup : (((Machine.saving Prod.snd line.length).spans l []).map Prod.fst).Nodup := by
    refine nodup_spans ?_
    have hsub : ((l.map Span.label).map Prod.snd).Sublist (p.slotCapture.zipIdx.map Prod.snd) := hl.map Prod.snd
    rw [List.map_map, List.zipIdx_map_snd] at hsub
    exact hsub.nodup List.nodup_range'
  have hsaved : ∀ register value, (register, value) ∈ (Machine.saving Prod.snd line.length).spans l [] → value ≤ line.length →
      register < p.slotCapture.length * 2 →
      (saved (p.slotCapture.length * 2) ((Machine.saving Prod.snd line.length).spans l [])).getD register 0 = (value : ℕ) := by
    intro register value hmem hle hlt
    have hget := saved_of_mem hnodup hmem hlt
    rw [List.getD_eq_getElem?_getD, hget, Option.getD_some, toInt_small (by omega)]
  rw [result_eq, List.range_eq_range', foldl_noteSlot List.drop_zero hnonneg hl hspans (fun s hs => ?_) (fun j _ hj hnot => ?_)]
  · rw [MatchResult.reset, add, captures_reported]
    rfl
  · have hlt : s.label.2 < 0 + p.slotCapture.length := (List.mem_zipIdx (hl.subset (List.mem_map_of_mem hs))).2.1
    rw [Nat.zero_add] at hlt
    refine ⟨hsaved _ _ ?_ (Nat.sub_le _ _) (by omega), hsaved _ _ ?_ (Nat.sub_le _ _) (by omega)⟩
    · rw [saves_spans, List.mem_flatMap]
      exact ⟨s, hs, List.mem_cons_self⟩
    · rw [saves_spans, List.mem_flatMap]
      exact ⟨s, hs, List.mem_cons_of_mem _ List.mem_cons_self⟩
  · have hunsaved : j * 2 ∉ ((Machine.saving Prod.snd line.length).spans l []).map Prod.fst := by
      rw [saves_spans, List.map_flatMap, List.mem_flatMap]
      rintro ⟨s, hs, hj⟩
      have hne := hnot s hs
      simp only [List.map_cons, List.map_nil, List.mem_cons, List.not_mem_nil, or_false] at hj
      omega
    have hget := saved_of_notMem hunsaved (show j * 2 < p.slotCapture.length * 2 by omega)
    rw [List.getD_eq_getElem?_getD, hget]
    decide

end ProgramMatcher

/-! ### Conditions that can be looked up -/

namespace Grammar

theorem progresses_of_isNullable {g : Grammar} (hg : g.Ordered)
    (h : ∀ i < g.nodes.length, (g.node i).kind = .repetition → (g.node i).hi ≠ 0 → (g.node i).hi ≠ 1 →
      g.isNullable g.walkFuel (g.child (g.node i).first) ∅ = false) : g.Progresses := by
  intro i hkind hzero hone hnull
  have hi := lt_of_repetition hkind
  have hyes := hg.isNullable ((hg.body_lt hi hkind).trans hi) hnull
  exact Bool.false_ne_true ((h i hi hkind hzero hone).symm.trans hyes)

theorem Ordered.mem_rules {g : Grammar} {rule : ℤ} (hg : g.Ordered) (h : g.ruleRoot rule ≠ kNoRule) : rule ∈ g.rules := by
  rw [ruleRoot] at h
  split_ifs at h with hneg
  · exact absurd rfl h
  refine Finset.mem_image.mpr ⟨rule.toNat, Finset.mem_range.mpr ?_, Int.toNat_of_nonneg (not_lt.mp hneg)⟩
  by_contra hge
  have hlen := hg.aligned
  rw [ruleCount] at hge
  exact h (List.getD_eq_default _ _ (by omega))

/-- Rules that are only referred to behind their own nodes lead to no recursive rule. -/
theorem not_reachesRecursion_of_lt {g : Grammar} {i : ℕ} (hg : g.Ordered)
    (h : ∀ i < g.nodes.length, (g.node i).kind = .reference → (g.ruleRoot (g.node i).lo).toNat < i) (hi : i < g.nodes.length) :
    ¬ g.ReachesRecursion i := by
  refine not_reachesRecursion ?_
  induction i using Nat.strong_induction_on with
  | _ i ih =>
    refine ⟨i, fun c hedge => ih c ?_ (hg.edge_lt hi hedge)⟩
    cases hedge with
    | reference hkind _ => exact h i hi hkind
    | child _ hc => exact hg.child_lt hi hc

theorem flatCaptures_of_hasCapture {g : Grammar} {k : ℕ}
    (h : ∀ i < g.nodes.length, (g.node i).kind = .reference → (g.node i).capture ≠ kNoCapture →
      hasCapture g k (g.ruleRoot (g.node i).lo).toNat = some false) : g.FlatCaptures :=
  fun i hkind hcapture => ⟨k, h i (lt_of_reference hcapture) hkind hcapture⟩

/-! ### What is captured -/

/-- Captured texts stand inside of what is derived. -/
theorem Derives.infix_of_mem {g : Grammar} {i : ℕ} {s : Str} {caps : List Captured} (h : g.Derives i s caps) :
    ∀ cap ∈ caps, cap.2 <:+: s := by
  refine @Derives.rec g (fun _ s caps _ => ∀ cap ∈ caps, cap.2 <:+: s) (fun _ s caps _ => ∀ cap ∈ caps, cap.2 <:+: s)
    ?_ ?_ ?_ ?_ ?_ ?_ ?_ ?_ ?_ i s caps h
  · exact fun _ _ _ hcap => absurd hcap List.not_mem_nil
  · exact fun _ _ _ hcap => absurd hcap List.not_mem_nil
  · exact fun _ _ _ _ ih => ih
  · intro i s caps _ _ _ _ ih cap hcap
    rcases List.mem_append.mp hcap with hcap | hcap
    · exact ih cap hcap
    · obtain rfl := List.mem_singleton.mp hcap
      exact List.infix_refl s
  · exact fun _ _ ih => ih
  · exact fun _ _ _ ih => ih
  · exact fun _ _ _ _ ih => ih
  · exact fun _ hcap => absurd hcap List.not_mem_nil
  · intro i is s s' caps caps' _ _ ih ih' cap hcap
    rcases List.mem_append.mp hcap with hcap | hcap
    · exact (ih cap hcap).trans (List.prefix_append s s').isInfix
    · exact (ih' cap hcap).trans (List.suffix_append s s').isInfix

theorem Reports.infixOf {g : Grammar} {rule : ℤ} {line : Str} {r : MatchResult} (h : g.Reports rule line r) : r.InfixOf line := by
  obtain ⟨caps, hderives, hsequence, -, -, hvalues⟩ := h
  constructor
  · intro text htext
    rw [hsequence] at htext
    obtain ⟨cap, hcap, rfl⟩ := List.mem_map.mp htext
    exact hderives.infix_of_mem cap hcap
  · intro texts htexts text htext
    rw [hvalues] at htexts
    obtain ⟨slot, -, rfl⟩ := List.mem_map.mp htexts
    obtain ⟨cap, hcap, rfl⟩ := List.mem_map.mp htext
    exact hderives.infix_of_mem cap (List.mem_of_mem_filter hcap)

end Grammar

/-! ### Rules that lead to no rule again -/

namespace Grammar

variable {g : Grammar} {i : ℕ}

theorem gives_patterns {is : List ℕ} {as : List (Pattern (Finset ℤ) ℤ)} (h : List.Forall₂ g.Shape is as) :
    Gives (fun k => patterns (g.pattern k) is) as := by
  induction h with
  | nil => exact ⟨0, rfl⟩
  | cons ha _ ih =>
    refine (gives_bind_iff (g.steady_pattern _) fun a k => ?_).mpr ⟨_, ha, gives_map_iff.mpr ⟨_, ih, rfl⟩⟩
    exact (refines_patterns (fun i => g.steady_pattern i k) _).map

theorem exists_patterns {is : List ℕ} (h : ∀ i ∈ is, ∃ a, g.Shape i a) : ∃ as, List.Forall₂ g.Shape is as := by
  induction is with
  | nil => exact ⟨[], .nil⟩
  | cons i is ih =>
    obtain ⟨⟨a, ha⟩, his⟩ := List.forall_mem_cons.mp h
    obtain ⟨as, has⟩ := ih his
    exact ⟨a :: as, .cons ha has⟩

/-- **A node that leads to no recursive rule has a pattern.** -/
theorem exists_shape (hg : g.Accepted) (hb : g.EveryNode GrammarNode.BoundsFine) (hi : i < g.nodes.length)
    (h : ¬ g.ReachesRecursion i) : ∃ a, g.Shape i a := by
  have hacc := hg.ordered.acc_edge hi h
  clear h
  induction hacc with
  | intro i _ ih =>
    have hchildren : (g.node i).kind ≠ .reference → ∃ as, List.Forall₂ g.Shape (g.childrenOf (g.node i)) as :=
      fun hkind => exists_patterns fun c hc => ih c (.child hkind hc) (hg.ordered.edge_lt hi (.child hkind hc))
    suffices hsucc : ∃ a, Gives (fun k => g.pattern (k + 1) i) a by
      obtain ⟨a, k, h⟩ := hsucc
      exact ⟨a, k + 1, h⟩
    simp only [pattern]
    rcases hkind : (g.node i).kind
    case reference =>
      have hroot := hg.root_ne (hg.ordered.rule_mem hi hkind)
      obtain ⟨b, hshape⟩ := ih _ (.reference hkind hroot) (hg.ordered.edge_lt hi (.reference hkind hroot))
      simp only [if_neg hroot]
      exact ⟨_, gives_map_iff.mpr ⟨b, hshape, rfl⟩⟩
    case literal => exact ⟨_, 0, rfl⟩
    case octetRange => exact ⟨_, 0, rfl⟩
    case sequence | alternation =>
      obtain ⟨as, has⟩ := hchildren (by simp [hkind])
      exact ⟨_, gives_map_iff.mpr ⟨as, gives_patterns has, rfl⟩⟩
    case repetition =>
      have hlow : ¬ (g.node i).hi < kUnbounded := by
        obtain ⟨hlo, hhi⟩ := boundsFine_node hb i hkind
        rw [kUnbounded] at hhi ⊢
        omega
      simp only [if_neg hlow]
      by_cases hnone : (g.node i).lo ≤ 0 ∧ (g.node i).hi = 0
      · simp only [if_pos hnone]
        exact ⟨_, 0, rfl⟩
      · have hmem : g.child (g.node i).first ∈ g.childrenOf (g.node i) := by
          rw [hg.ordered.childrenOf_repetition hi hkind]
          exact List.mem_singleton.mpr rfl
        have hedge : g.Edge i (g.child (g.node i).first) := .child (by simp [hkind]) hmem
        obtain ⟨b, hshape⟩ := ih _ hedge (hg.ordered.edge_lt hi hedge)
        simp only [if_neg hnone]
        exact ⟨_, gives_map_iff.mpr ⟨b, hshape, rfl⟩⟩

end Grammar

/-! ### Both matchers -/

section Compiled

variable {text line : Str} {g : Grammar} {rule : ℤ} {limits : Limits} {tables tables' : Grammar.OctetTables} {k k' k'' : ℕ}
  {r r' : Option MatchResult} {p : Program} {m m' : ProgramMatcher}

theorem boundsFine_compile (h : compile .machine text = .ok g) (hcounts : ∀ digits ∈ countsIn text, valueIn 10 digits ≤ INT_MAX) :
    g.EveryNode GrammarNode.BoundsFine := by
  obtain ⟨rules, hspell, hwrite, -⟩ := compile_eq_ok_iff.mp h
  exact boundsFine_writeRules hwrite fun r hr d hd => strtolInt_nonneg (hcounts d ((mem_countsIn hspell).mpr ⟨r, hr, hd⟩))

/-- **Without limits the interpreter answers what the search through the pattern finds first**, and is not
given up. -/
theorem TreeMatcher.run_unlimited_iff {a : Pattern (Finset ℤ) ℤ} (hg : g.Accepted) (hb : g.EveryNode GrammarNode.BoundsFine)
    (hsize : ∀ i, (g.node i).kind = .repetition → (g.node i).hi < 2 ^ 64) (htables : g.Filled tables)
    (hroot : g.ruleRoot rule ≠ kNoRule) (hshape : g.Shape (g.ruleRoot rule).toNat a) {exhausted : Bool} :
    (∃ k tables', run .unlimited g line k rule tables = some (r, exhausted, tables')) ↔
      r = (a.eval inBits treeNotes (Machine.whenDone []) line).map g.reported ∧ exhausted = false := by
  have hgoing : ∀ {k r}, run .unlimited g line k rule tables = some r → r.2.1 = false := by
    intro k r hr
    rw [run, if_neg hroot] at hr
    obtain ⟨r', hr', rfl⟩ := Option.map_eq_some_iff.mp hr
    have hend : ∀ pos, KeepsFit g fun walk r => atEnd line pos walk = some r := by
      rintro pos walk r hfit hr
      obtain rfl := Option.some.inj hr
      exact hfit
    have hfit : ({ values := g.captureNames.map fun _ => [], tables := tables } : Walk).Fit g := ⟨rfl, htables.right hg⟩
    exact (keepsFit_way hg hend (.node _ 0 []) hfit ⟨k, hr'⟩).going
  have hanswers : ∀ {k r tables'}, run .unlimited g line k rule tables = some (r, false, tables') →
      r = (a.eval inBits treeNotes (Machine.whenDone []) line).map g.reported :=
    fun hr => answers_run hg hb hsize htables hroot hshape hr (.inr rfl)
  constructor
  · rintro ⟨k, tables', hr⟩
    obtain rfl : exhausted = false := hgoing hr
    exact ⟨hanswers hr, rfl⟩
  · rintro ⟨rfl, rfl⟩
    obtain ⟨k, ⟨r, exhausted, tables'⟩, hr⟩ := ends_run hg (fun n hn hkind => (hb n hn hkind).1) line rule tables
    obtain rfl : exhausted = false := hgoing hr
    obtain rfl := hanswers hr
    exact ⟨k, tables', hr⟩

/-- **The interpreter decides the grammar** that the text writes down, where it does not give up: a line is
matched if and only if it is derived from the rule. -/
theorem TreeMatcher.decides_run (h : compile .machine text = .ok g)
    (hcounts : ∀ digits ∈ countsIn text, valueIn 10 digits ≤ INT_MAX)
    (hoctets : ∀ digits ∈ octetNumbersIn text, valueIn 16 digits ≤ INT_MAX) (hunhindered : g.Unhindered) (hrule : rule ∈ g.rules)
    (hends : ¬ g.ReachesRecursion (g.ruleRoot rule).toNat) (htables : g.Filled tables)
    (hrun : run limits g line k rule tables = some (r, false, tables')) :
    compile .written text = .ok g ∧ (r.isSome = true ↔ ∃ caps, g.Derives (g.ruleRoot rule).toNat line caps) := by
  have hg := accepted_compile h
  have hb := boundsFine_compile h hcounts
  have hroot := hg.root_ne hrule
  obtain ⟨a, hshape⟩ := exists_shape hg hb (hg.ordered.root_lt hroot) hends
  have hanswer := answers_run hg hb (fun i => hi_lt_of_compile h) htables hroot hshape hrun (.inr rfl)
  refine ⟨compile_written h hcounts hoctets, ?_⟩
  have hfound : line ∈ found (a.eval inBits treeNotes (Machine.whenDone [])) ↔ line ∈ g.language (g.ruleRoot rule).toNat := by
    have hdone : found (Machine.whenDone ([] : List Captured)) = (1 : Language Octet) := by
      ext w
      rw [mem_found, Language.mem_one]
      rcases w with _ | ⟨c, w⟩
      · simp [Machine.whenDone]
      · simp [Machine.whenDone]
    rw [found_eval (hshape.unhindered hb hunhindered), hdone, mul_one, hshape.language_eq]
  rw [hanswer, Option.isSome_map]
  exact hfound

theorem treeNotes_spans (l : List (Span Octet (ℤ × ℕ))) : (treeNotes.comap Prod.fst).spans l [] = l.map ProgramMatcher.spanned := by
  induction l with
  | nil => rfl
  | cons s l ih =>
    rw [List.map_cons, ← ih]
    rfl

theorem eq_of_whenDone {C : Type} {x y : C} {rest : Str} (h : Machine.whenDone x rest = some y) : y = x := by
  rcases rest with _ | ⟨c, rest⟩
  · exact (Option.some.inj h).symm
  · cases h

/-- **What a program answers is what the search through the pattern of its rule finds first**, with the
same captures. -/
theorem ProgramMatcher.run_iff_eval {a : Pattern (Finset ℤ) ℤ} (hg : g.Accepted) (hbranched : g.Branched)
    (hb : g.EveryNode GrammarNode.BoundsFine) (hprogresses : g.Progresses) (hflat : g.FlatCaptures)
    (hshape : g.Shape (g.ruleRoot rule).toNat a) (hp : ProgramCompiler.compile g k rule = some (.ok p)) (hm : Used g m)
    (hlt : m.generation.toNat + line.length + 1 < 2 ^ 32) (hshort : line.length < 2 ^ 31) :
    (∃ k m', run g k rule line m = some (r, m')) ↔
      r = (a.eval inBits treeNotes (Machine.whenDone []) line).map g.reported := by
  obtain ⟨a', q, last, hshape', hunrolls, hslots, hlaid, hend, hlen⟩ := laid_compile hg hbranched hp
  obtain rfl := hshape.unique hshape'
  have hsteady := hshape.allSteady hb hprogresses
  -- the search that notes captures where they close, and the one that saves positions, go the same way
  have hsame : Option.Rel (Traced (treeNotes.comap Prod.fst) (Machine.saving Prod.snd line.length) q.labels
      (Machine.whenDone []) (Machine.whenDone []) line)
      (q.eval inBits (treeNotes.comap Prod.fst) (Machine.whenDone []) line)
      (q.eval inBits (Machine.saving Prod.snd line.length) (Machine.whenDone []) line) :=
    eval_traced q (hunrolls.once (hshape.flat hg.ordered hflat)) fun rest => by cases rest <;> rfl
  rw [run_compile_iff hg hp hm hlt, hlen,
    hlaid.search_eq (hunrolls.allSteady hsteady) hend (hlen ▸ Program.within_instr p), ← hunrolls.eval_eq hsteady]
  generalize (q.eval inBits (treeNotes.comap Prod.fst) (Machine.whenDone []) line) = caps at hsame ⊢
  generalize (q.eval inBits (Machine.saving Prod.snd line.length) (Machine.whenDone []) line) = saves at hsame ⊢
  cases hsame with
  | none => rfl
  | some hsame =>
    obtain ⟨l, rest, x, y, -, hx, hy, rfl, rfl, hsub, hl⟩ := hsame
    obtain rfl := eq_of_whenDone hx
    obtain rfl := eq_of_whenDone hy
    have hnonneg : ∀ k ∈ p.slotCapture, 0 ≤ k := by
      intro k hk
      rw [hslots.added, List.nil_append, List.mem_map] at hk
      obtain ⟨l, hl, rfl⟩ := hk
      obtain ⟨j, -, hj⟩ := hshape.label_mem hg.ordered _ (hunrolls.mem_labels hl)
      omega
    rw [Option.map_some, Option.map_some, treeNotes_spans, result_spans hslots hnonneg hsub hl hshort]

/-- **Both matchers report the same**: the same answer, and the same captures in the same order. -/
theorem same_result (h : compile .machine text = .ok g) (hcounts : ∀ digits ∈ countsIn text, valueIn 10 digits ≤ INT_MAX)
    (hprogresses : g.Progresses) (hflat : g.FlatCaptures) (hp : ProgramCompiler.compile g k rule = some (.ok p))
    (htables : g.Filled tables) (hrun : TreeMatcher.run limits g line k' rule tables = some (r, false, tables'))
    (hm : ProgramMatcher.Used g m) (hlt : m.generation.toNat + line.length + 1 < 2 ^ 32) (hshort : line.length < 2 ^ 31) :
    (∃ k m', ProgramMatcher.run g k rule line m = some (r', m')) ↔ r' = r := by
  have hg := accepted_compile h
  have hb := boundsFine_compile h hcounts
  obtain ⟨a, -, -, hshape, -⟩ := laid_compile hg (branched_compile h) hp
  have hroot : g.ruleRoot rule ≠ kNoRule := by
    intro hnone
    rw [ProgramCompiler.compile, if_pos hnone] at hp
    cases hp
  rw [TreeMatcher.answers_run hg hb (fun i => hi_lt_of_compile h) htables hroot hshape hrun (.inr rfl)]
  exact ProgramMatcher.run_iff_eval hg (branched_compile h) hb hprogresses hflat hshape hp hm hlt hshort

end Compiled

/-- The grammar of `b="x"` and `a=1*2b / %x41-5A`. -/
def refusing : Grammar where
  nodes := [{ kind := .literal, literal := 0 }, { kind := .reference, lo := 0 },
    { kind := .repetition, lo := 1, hi := 2, first := 0, count := 1 }, { kind := .octetRange, lo := 65, hi := 90 },
    { kind := .alternation, first := 1, count := 2 }]
  children := [1, 2, 3]
  literals := [str "x"]
  ruleNames := [str "b", str "a"]
  ruleRoots := [0, 4]

set_option maxRecDepth 4000 in
theorem decides_run_refusing : compile .written (str "b=\"x\"\na=1*2b / %x41-5A") = .ok refusing ∧
    ¬ ∃ caps, refusing.Derives 4 (str "xxx") caps := by
  have hcompiled : compile .machine (str "b=\"x\"\na=1*2b / %x41-5A") = .ok refusing := rfl
  have hunhindered : refusing.Unhindered := fun i hkind hlo => by
    have hone : ∀ i < refusing.nodes.length, (refusing.node i).kind = .repetition → (refusing.node i).lo ≤ 1 := by decide
    exact absurd hlo (not_lt.mpr (hone i (Grammar.lt_of_repetition hkind) hkind))
  have hends : ¬ refusing.ReachesRecursion (refusing.ruleRoot 1).toNat :=
    Grammar.not_reachesRecursion_of_lt (accepted_compile hcompiled).ordered (by decide) (by decide)
  have hrun : (TreeMatcher.run .server refusing (str "xxx") 40 1 {}).map (fun r => (r.1, r.2.1)) = some (none, false) := by
    decide +kernel
  obtain ⟨⟨found, exhausted, tables'⟩, hrun, heq⟩ := Option.map_eq_some_iff.mp hrun
  obtain ⟨rfl, rfl⟩ := Prod.mk.inj heq
  obtain ⟨hwritten, hdecides⟩ := TreeMatcher.decides_run hcompiled (by decide) (by decide) hunhindered (by decide) hends .empty hrun
  exact ⟨hwritten, fun hderives => Bool.false_ne_true (hdecides.mpr hderives)⟩

set_option maxRecDepth 4000 in
theorem same_result_capturing : ∃ k m', ProgramMatcher.run capturing k 0 (str "xX") (.new capturing) =
    some (some ⟨[str "b"], [[str "x", str "X"]], [str "x", str "X"], [0, 0]⟩, m') := by
  have hcompiled : compile .machine (str "a=1*2$b / %x41-5A\nb=\"x\"") = .ok capturing := rfl
  have hg := (accepted_compile hcompiled).ordered
  obtain ⟨p, hp⟩ : ∃ p, ProgramCompiler.compile capturing 40 0 = some (.ok p) := ⟨_, rfl⟩
  have hrun : (TreeMatcher.run .server capturing (str "xX") 40 0 {}).map (fun r => (r.1, r.2.1)) =
      some (some ⟨[str "b"], [[str "x", str "X"]], [str "x", str "X"], [0, 0]⟩, false) := by decide +kernel
  obtain ⟨⟨found, exhausted, tables'⟩, hrun, heq⟩ := Option.map_eq_some_iff.mp hrun
  obtain ⟨rfl, rfl⟩ := Prod.mk.inj heq
  refine (same_result hcompiled (by decide) (Grammar.progresses_of_isNullable hg (by decide +kernel))
    (Grammar.flatCaptures_of_hasCapture (k := 40) (by decide +kernel)) hp .empty hrun .new (by decide) (by decide)).mpr rfl

end Abnf

end FtIrc
