import FtIrc.Grammar.Calls

/-!
# The tables of single octets

What a `TreeMatcher` remembers of earlier questions changes no answer: whether a node matches a
single octet (`FtIrc.Abnf.Grammar.Single`) and which octets it matches
(`FtIrc.Abnf.Grammar.Takes`) can be said without any table, and tables that questions have filled
hold just that (`FtIrc.Abnf.Grammar.Filled.right`). The mark of a node that is being looked at is
never met, since a grammar that is accepted has no cycle of left edges.
-/

namespace FtIrc

namespace Abnf

open Fuel

namespace Grammar

/-- **A node matches a single octet**, and captures nothing. -/
inductive Single (g : Grammar) : ℕ → Prop
  | octetRange {i : ℕ} : (g.node i).kind = .octetRange → Single g i
  | literal {i : ℕ} : (g.node i).kind = .literal → (g.literal (g.node i).literal).length = 1 → Single g i
  | reference {i : ℕ} : (g.node i).kind = .reference → (g.node i).capture = kNoCapture →
      g.ruleRoot (g.node i).lo ≠ kNoRule → Single g (g.ruleRoot (g.node i).lo).toNat → Single g i
  | alternation {i : ℕ} : (g.node i).kind = .alternation → (g.node i).count ≠ 0 →
      (∀ c ∈ g.childrenOf (g.node i), Single g c) → Single g i

/-- **A node matches an octet.** -/
inductive Takes (g : Grammar) (c : Octet) : ℕ → Prop
  | octetRange {i : ℕ} : (g.node i).kind = .octetRange →
      (g.node i).lo ≤ c.toNat ∧ (c.toNat : ℤ) ≤ (g.node i).hi → Takes g c i
  | literal {i : ℕ} : (g.node i).kind = .literal →
      asciiFold (g.literal (g.node i).literal) = [foldOctet c] → Takes g c i
  | reference {i : ℕ} : (g.node i).kind = .reference → g.ruleRoot (g.node i).lo ≠ kNoRule →
      Takes g c (g.ruleRoot (g.node i).lo).toNat → Takes g c i
  | alternation {i child : ℕ} : (g.node i).kind = .alternation → child ∈ g.childrenOf (g.node i) →
      Takes g c child → Takes g c i

/-- What is remembered of nodes is right, but for those that are being looked at. -/
def MemoRight (g : Grammar) (busy : ℕ → Prop) (memo : Memo) : Prop :=
  ∀ i known, memo.lookup i = some known → ¬ busy i → (known = true ↔ g.Single i)

variable {g : Grammar} {i k : ℕ} {c : Octet} {memo : Memo} {busy : ℕ → Prop}

theorem takes_octetRange_iff (hkind : (g.node i).kind = .octetRange) :
    g.Takes c i ↔ (g.node i).lo ≤ c.toNat ∧ (c.toNat : ℤ) ≤ (g.node i).hi := by
  refine ⟨fun hi => ?_, .octetRange hkind⟩
  cases hi with
  | octetRange _ hrange => exact hrange
  | literal hk => exact absurd hk (by simp [hkind])
  | reference hk => exact absurd hk (by simp [hkind])
  | alternation hk => exact absurd hk (by simp [hkind])

theorem takes_literal_iff (hkind : (g.node i).kind = .literal) :
    g.Takes c i ↔ asciiFold (g.literal (g.node i).literal) = [foldOctet c] := by
  refine ⟨fun hi => ?_, .literal hkind⟩
  cases hi with
  | literal _ htext => exact htext
  | octetRange hk => exact absurd hk (by simp [hkind])
  | reference hk => exact absurd hk (by simp [hkind])
  | alternation hk => exact absurd hk (by simp [hkind])

theorem takes_reference_iff (hkind : (g.node i).kind = .reference) :
    g.Takes c i ↔ g.ruleRoot (g.node i).lo ≠ kNoRule ∧ g.Takes c (g.ruleRoot (g.node i).lo).toNat := by
  refine ⟨fun hi => ?_, fun h => .reference hkind h.1 h.2⟩
  cases hi with
  | reference _ hroot htakes => exact ⟨hroot, htakes⟩
  | octetRange hk => exact absurd hk (by simp [hkind])
  | literal hk => exact absurd hk (by simp [hkind])
  | alternation hk => exact absurd hk (by simp [hkind])

theorem takes_alternation_iff (hkind : (g.node i).kind = .alternation) :
    g.Takes c i ↔ ∃ child ∈ g.childrenOf (g.node i), g.Takes c child := by
  refine ⟨fun hi => ?_, fun ⟨_, hchild, htakes⟩ => .alternation hkind hchild htakes⟩
  cases hi with
  | alternation _ hchild htakes => exact ⟨_, hchild, htakes⟩
  | octetRange hk => exact absurd hk (by simp [hkind])
  | literal hk => exact absurd hk (by simp [hkind])
  | reference hk => exact absurd hk (by simp [hkind])

/-! ### Single octets -/

/-- A node that is not there has no left edges. -/
theorem Accepted.acc_left (hg : g.Accepted) (i : ℕ) : Acc (fun c p => g.LeftEdge p c) i := by
  by_cases hi : i < g.nodes.length
  · exact hg.acc_leftEdge hi
  have hnode : g.node i = default := List.getD_eq_default _ _ (not_lt.mp hi)
  refine ⟨i, fun c hedge => ?_⟩
  have hkind : (g.node i).kind = .sequence := by rw [hnode]; rfl
  have hchildren : g.childrenOf (g.node i) = [] := by rw [hnode]; rfl
  cases hedge with
  | reference hk => exact absurd hk (by simp [hkind])
  | sequence _ hsplit _ => exact absurd hsplit (by simp [hchildren])
  | alternation hk => exact absurd hk (by simp [hkind])
  | repetition hk => exact absurd hk (by simp [hkind])

theorem not_transGen_self {α : Type} {s : α → α → Prop} {a : α} (h : Acc s a) : ¬ Relation.TransGen s a a := by
  have hself : ∀ {b : α}, Acc (Relation.TransGen s) b → ¬ Relation.TransGen s b b := by
    intro b hb
    induction hb with
    | intro b _ ih => exact fun hbb => ih b hbb hbb
  exact hself h.transGen

/-- The loop through the children of an alternation asks all of them, as long as the answer is yes. -/
theorem firstOf_single {ask : ℕ → Memo → Option (Bool × Memo)} {cs : List ℕ}
    (hask : ∀ c ∈ cs, ∀ memo r, g.MemoRight busy memo → ask c memo = some r →
      (r.1 = true ↔ g.Single c) ∧ g.MemoRight busy r.2)
    (hmemo : g.MemoRight busy memo) {r : Bool × Memo}
    (h : firstOf (fun c memo => (ask c memo).map fun r => (!r.1, r.2)) (fun r => r.1) cs memo = some r) :
    (r.1 = false ↔ ∀ c ∈ cs, g.Single c) ∧ g.MemoRight busy r.2 := by
  induction cs generalizing memo with
  | nil =>
    obtain rfl := Option.some.inj h
    exact ⟨⟨fun _ _ hc => absurd hc List.not_mem_nil, fun _ => rfl⟩, hmemo⟩
  | cons c cs ih =>
    obtain ⟨r₁, hr₁, h⟩ := Option.bind_eq_some_iff.mp h
    obtain ⟨answer, hanswer, rfl⟩ := Option.map_eq_some_iff.mp hr₁
    obtain ⟨hright, hkept⟩ := hask c List.mem_cons_self memo answer hmemo hanswer
    dsimp only at h
    cases hyes : answer.1 with
    | false =>
      rw [hyes, Bool.not_false, if_pos rfl] at h
      obtain rfl := Option.some.inj h
      refine ⟨⟨fun hr => absurd hr.symm Bool.false_ne_true, fun hall => ?_⟩, hkept⟩
      exact absurd (hright.mpr (hall c List.mem_cons_self)) (by simp [hyes])
    | true =>
      rw [hyes, Bool.not_true, if_neg Bool.false_ne_true] at h
      obtain ⟨hrest, hkept'⟩ := ih (fun c' hc' => hask c' (List.mem_cons_of_mem c hc')) hkept h
      refine ⟨hrest.trans ?_, hkept'⟩
      rw [List.forall_mem_cons]
      exact ⟨fun hall => ⟨hright.mp hyes, hall⟩, fun hall => hall.2⟩

/-- The cases of the question answer right if the questions about children do. -/
theorem looksSingle_spec {ask : ℕ → Memo → Option (Bool × Memo)}
    (hask : ∀ c, g.LeftEdge i c → ∀ memo r, g.MemoRight busy memo → ask c memo = some r →
      (r.1 = true ↔ g.Single c) ∧ g.MemoRight busy r.2)
    (hmemo : g.MemoRight busy memo) {r : Bool × Memo} (h : g.looksSingle ask (g.node i) memo = some r) :
    (r.1 = true ↔ g.Single i) ∧ g.MemoRight busy r.2 := by
  rw [looksSingle] at h
  rcases hkind : (g.node i).kind <;> simp only [hkind] at h
  · split_ifs at h with hplain
    · obtain ⟨hright, hkept⟩ := hask _ (.reference hkind hplain.2) memo r hmemo h
      refine ⟨hright.trans ⟨.reference hkind hplain.1 hplain.2, fun hi => ?_⟩, hkept⟩
      cases hi with
      | reference _ _ _ hroot => exact hroot
      | octetRange hk => exact absurd hk (by simp [hkind])
      | literal hk => exact absurd hk (by simp [hkind])
      | alternation hk => exact absurd hk (by simp [hkind])
    · obtain rfl := Option.some.inj h
      refine ⟨⟨fun hr => absurd hr Bool.false_ne_true, fun hi => ?_⟩, hmemo⟩
      cases hi with
      | reference _ hcapture hroot => exact absurd ⟨hcapture, hroot⟩ hplain
      | octetRange hk => exact absurd hk (by simp [hkind])
      | literal hk => exact absurd hk (by simp [hkind])
      | alternation hk => exact absurd hk (by simp [hkind])
  · obtain rfl := Option.some.inj h
    refine ⟨decide_eq_true_iff.trans ⟨.literal hkind, fun hi => ?_⟩, hmemo⟩
    cases hi with
    | literal _ hlen => exact hlen
    | octetRange hk => exact absurd hk (by simp [hkind])
    | reference hk => exact absurd hk (by simp [hkind])
    | alternation hk => exact absurd hk (by simp [hkind])
  · obtain rfl := Option.some.inj h
    exact ⟨⟨fun _ => .octetRange hkind, fun _ => rfl⟩, hmemo⟩
  · obtain rfl := Option.some.inj h
    refine ⟨⟨fun hr => absurd hr Bool.false_ne_true, fun hi => ?_⟩, hmemo⟩
    cases hi <;> simp_all
  · obtain ⟨found, hfound, rfl⟩ := Option.map_eq_some_iff.mp h
    obtain ⟨hall, hkept⟩ := firstOf_single (fun c hc memo r => hask c (.alternation hkind hc) memo r) hmemo hfound
    refine ⟨?_, hkept⟩
    rw [Bool.and_eq_true, decide_eq_true_eq, Bool.not_eq_true', hall]
    refine ⟨fun hall => .alternation hkind hall.1 hall.2, fun hi => ?_⟩
    cases hi with
    | alternation _ hcount hcs => exact ⟨hcount, hcs⟩
    | octetRange hk => exact absurd hk (by simp [hkind])
    | literal hk => exact absurd hk (by simp [hkind])
    | reference hk => exact absurd hk (by simp [hkind])
  · obtain rfl := Option.some.inj h
    refine ⟨⟨fun hr => absurd hr Bool.false_ne_true, fun hi => ?_⟩, hmemo⟩
    cases hi <;> simp_all

/-- **`isSingleOctet` answers right**, and remembers what is right. -/
theorem isSingleOctet_spec (hacc : Acc (fun c p => g.LeftEdge p c) i) (hi : ¬ busy i)
    (hbelow : ∀ d, Relation.TransGen g.LeftEdge i d → ¬ busy d) (hmemo : g.MemoRight busy memo)
    {r : Bool × Memo} (h : g.isSingleOctet k i memo = some r) :
    (r.1 = true ↔ g.Single i) ∧ g.MemoRight busy r.2 := by
  induction hacc generalizing k busy memo r with
  | intro i hbefore ih =>
    rcases k with _ | k
    · exact nomatch h
    rw [isSingleOctet] at h
    rcases hlookup : memo.lookup i with _ | known
    swap
    · rw [hlookup] at h
      obtain rfl := Option.some.inj h
      exact ⟨hmemo i known hlookup hi, hmemo⟩
    rw [hlookup] at h
    obtain ⟨found, hfound, rfl⟩ := Option.map_eq_some_iff.mp h
    -- the node itself is being looked at, and nothing below it comes back to it
    have hself : ¬ Relation.TransGen g.LeftEdge i i := fun hcycle =>
      not_transGen_self ⟨i, hbefore⟩ (Relation.transGen_swap.mpr hcycle)
    have hmarked : g.MemoRight (fun j => busy j ∨ j = i) ((i, false) :: memo) := by
      intro j known hj hnot
      rw [List.lookup_cons, beq_eq_false_iff_ne.mpr fun hji => hnot (.inr hji)] at hj
      exact hmemo j known hj fun hb => hnot (.inl hb)
    obtain ⟨hright, hkept⟩ := by
      refine looksSingle_spec (fun c hedge memo r hmemo hask => ?_) hmarked hfound
      refine ih c hedge ?_ (fun d hd => ?_) hmemo hask
      · rintro (hb | rfl)
        · exact hbelow c (.single hedge) hb
        · exact hself (.single hedge)
      · rintro (hb | rfl)
        · exact hbelow d (.head hedge hd) hb
        · exact hself (.head hedge hd)
    refine ⟨hright, fun j known hj hnot => ?_⟩
    rw [List.lookup_cons] at hj
    by_cases hji : j = i
    · subst hji
      rw [beq_self_eq_true] at hj
      obtain rfl := Option.some.inj hj
      exact hright
    · rw [beq_eq_false_iff_ne.mpr hji] at hj
      refine hkept j known hj ?_
      rintro (hb | rfl)
      · exact hnot hb
      · exact hji rfl

/-! ### The octets of a node -/

theorem anyOf_spec {f : ℕ → Option Bool} {Q : ℕ → Prop} {cs : List ℕ}
    (hf : ∀ c ∈ cs, ∀ yes, f c = some yes → (yes = true ↔ Q c)) {yes : Bool} (h : anyOf f cs = some yes) :
    yes = true ↔ ∃ c ∈ cs, Q c := by
  rw [anyOf] at h
  obtain ⟨r, hr, rfl⟩ := Option.map_eq_some_iff.mp h
  clear h
  induction cs with
  | nil =>
    obtain rfl := Option.some.inj hr
    exact ⟨fun h => (nomatch h), fun ⟨_, hc, _⟩ => absurd hc List.not_mem_nil⟩
  | cons c cs ih =>
    obtain ⟨r₁, hr₁, hr⟩ := Option.bind_eq_some_iff.mp hr
    obtain ⟨yes, hyes, rfl⟩ := Option.map_eq_some_iff.mp hr₁
    have hc := hf c List.mem_cons_self yes hyes
    rw [List.exists_mem_cons_iff]
    cases yes with
    | true =>
      obtain rfl := Option.some.inj hr
      exact ⟨fun _ => .inl (hc.mp rfl), fun _ => rfl⟩
    | false =>
      refine (ih (fun c' hc' => hf c' (List.mem_cons_of_mem c hc')) hr).trans ⟨.inr, ?_⟩
      rintro (hQ | hex)
      · exact nomatch hc.mpr hQ
      · exact hex

/-- **`octetMatches` answers right.** -/
theorem octetMatches_spec {yes : Bool} (h : g.octetMatches k i c = some yes) : yes = true ↔ g.Takes c i := by
  induction k generalizing i yes with
  | zero => exact nomatch h
  | succ k ih =>
    rw [octetMatches] at h
    -- sequences and repetitions match no octet
    have hno : (g.node i).kind = .sequence ∨ (g.node i).kind = .repetition → ¬ g.Takes c i := by
      rintro hk hi
      cases hi <;> simp_all
    rcases hkind : (g.node i).kind <;> simp only [hkind] at h
    · rw [takes_reference_iff hkind]
      split_ifs at h with hroot
      · obtain rfl := Option.some.inj h
        exact ⟨fun hr => absurd hr Bool.false_ne_true, fun hi => absurd hroot hi.1⟩
      · exact (ih h).trans ⟨fun htakes => ⟨hroot, htakes⟩, fun hi => hi.2⟩
    · obtain rfl := Option.some.inj h
      exact decide_eq_true_iff.trans (takes_literal_iff hkind).symm
    · obtain rfl := Option.some.inj h
      exact decide_eq_true_iff.trans (takes_octetRange_iff hkind).symm
    · obtain rfl := Option.some.inj h
      exact ⟨fun hr => absurd hr Bool.false_ne_true, fun hi => absurd hi (hno (.inl hkind))⟩
    · exact (anyOf_spec (fun child _ yes hyes => ih hyes) h).trans (takes_alternation_iff hkind).symm
    · obtain rfl := Option.some.inj h
      exact ⟨fun hr => absurd hr Bool.false_ne_true, fun hi => absurd hi (hno (.inr hkind))⟩

theorem mem_matchedOctets {cs bits : List Octet} (h : g.matchedOctets k i cs = some bits) :
    c ∈ bits ↔ c ∈ cs ∧ g.Takes c i := by
  induction cs generalizing bits with
  | nil =>
    obtain rfl := Option.some.inj h
    simp
  | cons c' cs ih =>
    obtain ⟨yes, hyes, h⟩ := Option.bind_eq_some_iff.mp h
    obtain ⟨more, hmore, rfl⟩ := Option.map_eq_some_iff.mp h
    have hc' := octetMatches_spec hyes
    cases yes with
    | true =>
      rw [if_pos rfl, List.mem_cons, List.mem_cons, ih hmore]
      constructor
      · rintro (rfl | ⟨hc, htakes⟩)
        · exact ⟨.inl rfl, hc'.mp rfl⟩
        · exact ⟨.inr hc, htakes⟩
      · rintro ⟨rfl | hc, htakes⟩
        · exact .inl rfl
        · exact .inr ⟨hc, htakes⟩
    | false =>
      rw [if_neg Bool.false_ne_true, ih hmore, List.mem_cons]
      constructor
      · exact fun ⟨hc, htakes⟩ => ⟨.inr hc, htakes⟩
      · rintro ⟨rfl | hc, htakes⟩
        · exact absurd (hc'.mpr htakes) Bool.false_ne_true
        · exact ⟨hc, htakes⟩

theorem mem_allOctets (c : Octet) : c ∈ allOctets :=
  List.mem_map.mpr ⟨c.toNat, List.mem_range.mpr c.toNat_lt, UInt8.ofNat_toNat⟩

/-! ### Tables that questions have filled -/

/-- **The tables after any questions.** -/
inductive Filled (g : Grammar) : OctetTables → Prop
  | empty : Filled g {}
  | asked {tables : OctetTables} {k node : ℕ} {r : Bool × Memo} : Filled g tables →
      g.isSingleOctet k node tables.single = some r → Filled g { tables with single := r.2 }
  | looked {tables : OctetTables} {k node : ℕ} {r : List Octet × OctetTables} : Filled g tables →
      g.octetBitmap k node tables = some r → Filled g r.2

/-- What tables hold is right. -/
structure TablesRight (g : Grammar) (tables : OctetTables) : Prop where
  single : g.MemoRight (fun _ => False) tables.single
  bitmaps : ∀ {i bits}, tables.bitmaps.lookup i = some bits → ∃ k, g.matchedOctets k i allOctets = some bits

variable {tables tables' : OctetTables}

theorem TablesRight.asked (h : g.TablesRight tables) (hg : g.Accepted) {r : Bool × Memo}
    (hask : g.isSingleOctet k i tables.single = some r) :
    (r.1 = true ↔ g.Single i) ∧ g.TablesRight { tables with single := r.2 } := by
  obtain ⟨hright, hmemo⟩ := isSingleOctet_spec (hg.acc_left i) not_false (fun _ _ => not_false) h.single hask
  exact ⟨hright, hmemo, h.bitmaps⟩

theorem TablesRight.looked (h : g.TablesRight tables) {r : List Octet × OctetTables}
    (hlook : g.octetBitmap k i tables = some r) :
    (∃ k, g.matchedOctets k i allOctets = some r.1) ∧ g.TablesRight r.2 := by
  rw [octetBitmap] at hlook
  rcases hlookup : tables.bitmaps.lookup i with _ | bits
  · rw [hlookup] at hlook
    obtain ⟨bits, hbits, rfl⟩ := Option.map_eq_some_iff.mp hlook
    refine ⟨⟨k, hbits⟩, h.single, fun {j bits'} hj => ?_⟩
    rw [List.lookup_cons] at hj
    by_cases hji : j = i
    · subst hji
      rw [beq_self_eq_true] at hj
      obtain rfl := Option.some.inj hj
      exact ⟨k, hbits⟩
    · rw [beq_eq_false_iff_ne.mpr hji] at hj
      exact h.bitmaps hj
  · rw [hlookup] at hlook
    obtain rfl := Option.some.inj hlook
    exact ⟨h.bitmaps hlookup, h⟩

/-- **Tables that questions have filled are right.** -/
theorem Filled.right (h : g.Filled tables) (hg : g.Accepted) : g.TablesRight tables := by
  induction h with
  | empty => exact ⟨fun _ _ hlookup => (nomatch hlookup), fun hlookup => (nomatch hlookup)⟩
  | asked _ hask ih => exact (ih.asked hg hask).2
  | looked _ hlook ih => exact (ih.looked hlook).2

end Grammar

end Abnf

end FtIrc
