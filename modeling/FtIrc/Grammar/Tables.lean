import FtIrc.Grammar.Syntax

/-!
# The tables of a grammar

Whatever tree is written, every index in the nodes stays within its table, and the children of a
node stand before it (`FtIrc.Abnf.Grammar.Ordered`); what was in the tables before stays where it
is (`FtIrc.Abnf.Grammar.Extends`). Both hold after each rule of a text
(`FtIrc.Abnf.ordered_writeRules`).
-/

namespace FtIrc

namespace Abnf

namespace Grammar

/-- **The indices of a node** are within their tables, and its children stand before it. -/
structure NodeInTables (g : Grammar) (i : ℕ) (n : GrammarNode) : Prop where
  children : ∀ k < n.count, ∃ c < i, g.children[n.first + k]? = some c
  literal : n.kind = .literal → ∃ j < g.literals.length, n.literal = (j : ℕ)
  rule : n.kind = .reference → ∃ j < g.ruleNames.length, n.lo = (j : ℕ)
  capture : n.capture = kNoCapture ∨ ∃ j < g.captureNames.length, n.capture = (j : ℕ)
  /-- A repetition has one child. -/
  single : n.kind = .repetition → n.count = 1
  /-- What has no parts has no children. -/
  leaf : n.kind = .literal ∨ n.kind = .octetRange ∨ n.kind = .reference → n.count = 0

/-- **A grammar in order**: so are its nodes, and its rules have a root among them or none. -/
structure Ordered (g : Grammar) : Prop where
  nodes : ∀ {i n}, g.nodes[i]? = some n → g.NodeInTables i n
  aligned : g.ruleRoots.length = g.ruleNames.length
  roots : ∀ r ∈ g.ruleRoots, r = kNoRule ∨ ∃ i < g.nodes.length, r = (i : ℕ)

/-- The tables of a grammar begin with those of another. -/
structure Extends (g g' : Grammar) : Prop where
  nodes : g.nodes <+: g'.nodes
  children : g.children <+: g'.children
  literals : g.literals <+: g'.literals
  captureNames : g.captureNames <+: g'.captureNames
  ruleNames : g.ruleNames <+: g'.ruleNames

variable {g g' g'' : Grammar} {n : GrammarNode} {i : ℕ} {ids : List ℕ}

theorem Extends.refl (g : Grammar) : g.Extends g :=
  ⟨List.prefix_rfl, List.prefix_rfl, List.prefix_rfl, List.prefix_rfl, List.prefix_rfl⟩

theorem Extends.trans (h : g.Extends g') (h' : g'.Extends g'') : g.Extends g'' :=
  ⟨h.nodes.trans h'.nodes, h.children.trans h'.children, h.literals.trans h'.literals,
    h.captureNames.trans h'.captureNames, h.ruleNames.trans h'.ruleNames⟩

/-- What is at a position of a list is there in a longer one. -/
theorem getElem?_of_extends {α : Type} {l l' : List α} {a : α} (h : l <+: l') (ha : l[i]? = some a) :
    l'[i]? = some a := by
  obtain ⟨t, rfl⟩ := h
  rw [List.getElem?_append_left (List.getElem?_eq_some_iff.mp ha).choose, ha]

theorem NodeInTables.extend (h : g.NodeInTables i n) (hext : g.Extends g') : g'.NodeInTables i n where
  children k hk := by
    obtain ⟨c, hc, hget⟩ := h.children k hk
    exact ⟨c, hc, getElem?_of_extends hext.children hget⟩
  literal hkind := by
    obtain ⟨j, hj, hn⟩ := h.literal hkind
    exact ⟨j, hj.trans_le hext.literals.length_le, hn⟩
  rule hkind := by
    obtain ⟨j, hj, hn⟩ := h.rule hkind
    exact ⟨j, hj.trans_le hext.ruleNames.length_le, hn⟩
  capture := by
    rcases h.capture with hn | ⟨j, hj, hn⟩
    · exact .inl hn
    · exact .inr ⟨j, hj.trans_le hext.captureNames.length_le, hn⟩
  single := h.single
  leaf := h.leaf

theorem extends_addNode (g : Grammar) (n : GrammarNode) : g.Extends (g.addNode n).2 :=
  ⟨List.prefix_append _ _, List.prefix_rfl, List.prefix_rfl, List.prefix_rfl, List.prefix_rfl⟩

theorem extends_addChildren (g : Grammar) (ids : List ℕ) : g.Extends (g.addChildren ids).2 :=
  ⟨List.prefix_rfl, List.prefix_append _ _, List.prefix_rfl, List.prefix_rfl, List.prefix_rfl⟩

theorem extends_addParent (g : Grammar) (n : GrammarNode) (ids : List ℕ) : g.Extends (g.addParent n ids).2 :=
  (g.extends_addChildren ids).trans (extends_addNode _ _)

/-- A node in order is added. -/
theorem Ordered.addNode (hg : g.Ordered) (hn : g.NodeInTables g.nodes.length n) : (g.addNode n).2.Ordered where
  nodes := by
    intro i m hm
    have hcases : g.nodes[i]? = some m ∨ i = g.nodes.length ∧ m = n := by
      rcases lt_trichotomy i g.nodes.length with hlt | rfl | hgt
      · exact .inl (by simpa [Grammar.addNode, List.getElem?_append_left hlt] using hm)
      · exact .inr ⟨rfl, by simpa [Grammar.addNode, eq_comm] using hm⟩
      · rw [Grammar.addNode, List.getElem?_eq_none (by simp; omega)] at hm
        cases hm
    rcases hcases with hold | ⟨rfl, rfl⟩
    · exact (hg.nodes hold).extend (g.extends_addNode n)
    · exact hn.extend (g.extends_addNode m)
  aligned := hg.aligned
  roots r hr := by
    rcases hg.roots r hr with hnone | ⟨j, hj, hroot⟩
    · exact .inl hnone
    · exact .inr ⟨j, hj.trans_le (g.extends_addNode n).nodes.length_le, hroot⟩

/-- Other tables may grow: no node is added, and no rule without a root. -/
theorem Ordered.extend (hg : g.Ordered) (hext : g.Extends g') (hnodes : g'.nodes = g.nodes)
    (haligned : g'.ruleRoots.length = g'.ruleNames.length)
    (hroots : ∀ r ∈ g'.ruleRoots, r ∈ g.ruleRoots ∨ r = kNoRule) : g'.Ordered where
  nodes := by
    intro i n hn
    rw [hnodes] at hn
    exact (hg.nodes hn).extend hext
  aligned := haligned
  roots r hr := by
    rw [hnodes]
    rcases hroots r hr with hold | hnone
    · exact hg.roots r hold
    · exact .inl hnone

/-- A node with children is added. -/
theorem Ordered.addParent (hg : g.Ordered) (hids : ∀ id ∈ ids, id < g.nodes.length)
    (hkind : n.kind = .sequence ∨ n.kind = .alternation ∨ n.kind = .repetition ∧ ids.length = 1)
    (hcapture : n.capture = kNoCapture) : (g.addParent n ids).2.Ordered := by
  have hchildren : (g.addChildren ids).2.Ordered :=
    hg.extend (g.extends_addChildren ids) rfl hg.aligned fun r hr => .inl hr
  refine hchildren.addNode ⟨?_, ?_, ?_, .inl hcapture, ?_, ?_⟩
  · intro k hk
    have hk : k < ids.length := hk
    exact ⟨ids[k], hids _ (List.getElem_mem hk), by simp [addChildren, hk]⟩
  · intro h
    rcases hkind with hk | hk | ⟨hk, -⟩ <;> simp [hk] at h
  · intro h
    rcases hkind with hk | hk | ⟨hk, -⟩ <;> simp [hk] at h
  · intro h
    rcases hkind with hk | hk | ⟨hk, hlen⟩
    · simp [hk] at h
    · simp [hk] at h
    · exact hlen
  · intro h
    rcases hkind with hk | hk | ⟨hk, -⟩ <;> simp [hk] at h

theorem extends_internRule (g : Grammar) (name : Str) : g.Extends (g.internRule name).2 := by
  rw [internRule]
  split
  · exact .refl g
  · exact ⟨List.prefix_rfl, List.prefix_rfl, List.prefix_rfl, List.prefix_rfl, List.prefix_append _ _⟩

theorem extends_internCapture (g : Grammar) (name : Str) : g.Extends (g.internCapture name).2 := by
  rw [internCapture]
  split
  · exact .refl g
  · exact ⟨List.prefix_rfl, List.prefix_rfl, List.prefix_rfl, List.prefix_append _ _, List.prefix_rfl⟩

/-- The rule a name is interned as is in the table. -/
theorem internRule_lt (g : Grammar) (name : Str) :
    ∃ j < (g.internRule name).2.ruleNames.length, (g.internRule name).1 = (j : ℕ) := by
  rw [internRule]
  rcases hfind : g.ruleNames.findIdx? (· == asciiFold name) with _ | j
  · exact ⟨g.ruleNames.length, by simp, rfl⟩
  · exact ⟨j, (List.findIdx?_eq_some_iff_findIdx_eq.mp hfind).1, rfl⟩

theorem internCapture_lt (g : Grammar) (name : Str) :
    ∃ j < (g.internCapture name).2.captureNames.length, (g.internCapture name).1 = (j : ℕ) := by
  rw [internCapture]
  rcases hfind : g.captureNames.findIdx? (· == name) with _ | j
  · exact ⟨g.captureNames.length, by simp, rfl⟩
  · exact ⟨j, (List.findIdx?_eq_some_iff_findIdx_eq.mp hfind).1, rfl⟩

theorem Ordered.internRule (hg : g.Ordered) (name : Str) : (g.internRule name).2.Ordered := by
  refine hg.extend (g.extends_internRule name) ?_ ?_ ?_ <;> rw [Grammar.internRule] <;> split
  · rfl
  · rfl
  · exact hg.aligned
  · simp [hg.aligned]
  · exact fun r hr => .inl hr
  · intro r hr
    rcases List.mem_append.mp hr with hold | hnew
    · exact .inl hold
    · exact .inr (List.mem_singleton.mp hnew)

theorem Ordered.internCapture (hg : g.Ordered) (name : Str) : (g.internCapture name).2.Ordered := by
  refine hg.extend (g.extends_internCapture name) ?_ ?_ ?_ <;> rw [Grammar.internCapture] <;> split
  · rfl
  · rfl
  · exact hg.aligned
  · exact hg.aligned
  · exact fun r hr => .inl hr
  · exact fun r hr => .inl hr

/-- What an operation that adds a node does to a grammar in order. -/
structure Adds (g : Grammar) (made : ℕ × Grammar) : Prop where
  ordered : made.2.Ordered
  tables : g.Extends made.2
  lt : made.1 < made.2.nodes.length
  /-- No rule gets a root. -/
  roots : g.ruleRoots <+: made.2.ruleRoots

theorem addNode_lt (g : Grammar) (n : GrammarNode) : (g.addNode n).1 < (g.addNode n).2.nodes.length := by
  simp [addNode]

/-- The same for several nodes. -/
structure AddsAll (g : Grammar) (all : List ℕ × Grammar) : Prop where
  ordered : all.2.Ordered
  tables : g.Extends all.2
  lt : ∀ id ∈ all.1, id < all.2.nodes.length
  roots : g.ruleRoots <+: all.2.ruleRoots

theorem Adds.all {made : ℕ × Grammar} (h : g.Adds made) : g.AddsAll ([made.1], made.2) :=
  ⟨h.ordered, h.tables, by simpa using h.lt, h.roots⟩

/-- Nodes are added, and one for them. -/
theorem AddsAll.parent {all : List ℕ × Grammar} (h : g.AddsAll all)
    (hkind : n.kind = .sequence ∨ n.kind = .alternation ∨ n.kind = .repetition ∧ all.1.length = 1)
    (hcapture : n.capture = kNoCapture) : g.Adds (all.2.addParent n all.1) :=
  ⟨h.ordered.addParent h.lt hkind hcapture, h.tables.trans (all.2.extends_addParent n all.1), addNode_lt _ _,
    h.roots⟩

theorem Ordered.adds_octet (hg : g.Ordered) (low high : ℤ) : g.Adds (g.addNode (octetNode low high)) :=
  ⟨hg.addNode ⟨fun _ hk => absurd hk (Nat.not_lt_zero _), fun h => (nomatch h), fun h => (nomatch h), .inl rfl,
    fun h => (nomatch h), fun _ => rfl⟩, g.extends_addNode _, addNode_lt _ _, List.prefix_rfl⟩

theorem Ordered.adds_literal (hg : g.Ordered) (text : Str) : g.Adds (g.addLiteral text) := by
  have hext : g.Extends { g with literals := g.literals ++ [text] } :=
    ⟨List.prefix_rfl, List.prefix_rfl, List.prefix_append _ _, List.prefix_rfl, List.prefix_rfl⟩
  have hliterals : ({ g with literals := g.literals ++ [text] } : Grammar).Ordered :=
    hg.extend hext rfl hg.aligned fun r hr => .inl hr
  refine ⟨hliterals.addNode ⟨fun _ hk => absurd hk (Nat.not_lt_zero _), fun _ => ?_, fun h => (nomatch h), .inl rfl,
    fun h => (nomatch h), fun _ => rfl⟩, hext.trans (extends_addNode _ _), addNode_lt _ _, List.prefix_rfl⟩
  exact ⟨g.literals.length, by simp, rfl⟩

theorem roots_internRule (g : Grammar) (name : Str) : g.ruleRoots <+: (g.internRule name).2.ruleRoots := by
  rw [internRule]
  split
  · exact List.prefix_rfl
  · exact List.prefix_append _ _

theorem roots_internCapture (g : Grammar) (name : Str) :
    (g.internCapture name).2.ruleRoots = g.ruleRoots := by
  rw [internCapture]
  split <;> rfl

theorem Ordered.adds_reference (hg : g.Ordered) (captured : Bool) (name : Str) :
    g.Adds (g.addReference captured name) := by
  obtain ⟨j, hj, hrule⟩ := g.internRule_lt name
  have hnode : ∀ g' : Grammar, (g.internRule name).2.Extends g' → ∀ slot : ℤ,
      (slot = kNoCapture ∨ ∃ i < g'.captureNames.length, slot = (i : ℕ)) →
      g'.NodeInTables g'.nodes.length { kind := .reference, lo := (g.internRule name).1, capture := slot } :=
    fun g' hext slot hslot => ⟨fun _ hk => absurd hk (Nat.not_lt_zero _), fun h => (nomatch h),
      fun _ => ⟨j, hj.trans_le hext.ruleNames.length_le, hrule⟩, hslot, fun h => (nomatch h), fun _ => rfl⟩
  cases captured with
  | false =>
    exact ⟨(hg.internRule name).addNode (hnode _ (.refl _) _ (.inl rfl)),
      (g.extends_internRule name).trans (extends_addNode _ _), addNode_lt _ _, g.roots_internRule name⟩
  | true =>
    obtain ⟨i, hi, hslot⟩ := (g.internRule name).2.internCapture_lt name
    have hext := (g.internRule name).2.extends_internCapture name
    refine ⟨((hg.internRule name).internCapture name).addNode (hnode _ hext _ (.inr ⟨i, hi, hslot⟩)),
      ((g.extends_internRule name).trans hext).trans (extends_addNode _ _), addNode_lt _ _, ?_⟩
    refine (g.roots_internRule name).trans ?_
    rw [← (g.internRule name).2.roots_internCapture name]
    exact List.prefix_rfl

end Grammar

open Grammar

variable {num : Numbers} {g g' : Grammar} {b : Body} {bs : List Body} {made : ℕ × Grammar}

/-- Trees are written one after the other, if each of them is. -/
theorem addsAll_writeAll (hbs : ∀ b ∈ bs, ∀ g made, g.Ordered → b.write num g = some made → g.Adds made)
    (hg : g.Ordered) {all : List ℕ × Grammar} (h : writeAll num bs g = some all) : g.AddsAll all := by
  induction bs generalizing g all with
  | nil =>
    rw [writeAll] at h
    obtain rfl := Option.some.inj h
    exact ⟨hg, .refl g, fun _ hid => absurd hid List.not_mem_nil, List.prefix_rfl⟩
  | cons b bs ih =>
    obtain ⟨first, more, hfirst, hmore, rfl⟩ := writeAll_eq_some_cons.mp h
    have hadds := hbs b List.mem_cons_self g first hg hfirst
    have hrest := ih (fun b hb => hbs b (List.mem_cons_of_mem _ hb)) hadds.ordered hmore
    refine ⟨hrest.ordered, hadds.tables.trans hrest.tables, fun id hid => ?_, hadds.roots.trans hrest.roots⟩
    rcases List.mem_cons.mp hid with rfl | hid
    · exact hadds.lt.trans_le hrest.tables.nodes.length_le
    · exact hrest.lt id hid

/-- **A tree is written** to a grammar in order. -/
theorem adds_write (hg : g.Ordered) (h : b.write num g = some made) : g.Adds made := by
  induction b using Body.induction_parts generalizing g made with
  | reference captured name =>
    rw [Body.write] at h
    obtain rfl := Option.some.inj h
    exact hg.adds_reference captured name
  | literal text =>
    rw [Body.write] at h
    obtain rfl := Option.some.inj h
    exact hg.adds_literal text
  | octets low high =>
    obtain ⟨-, rfl⟩ := write_octets.mp h
    exact hg.adds_octet _ _
  | sequence parts ih =>
    rw [Body.write] at h
    obtain ⟨all, hparts, h⟩ := Option.bind_eq_some_iff.mp h
    obtain rfl := Option.some.inj h
    exact (addsAll_writeAll (fun b hb _ _ => ih b hb) hg hparts).parent (.inl rfl) rfl
  | alternation branches ih =>
    rw [Body.write] at h
    obtain ⟨all, hparts, h⟩ := Option.bind_eq_some_iff.mp h
    obtain rfl := Option.some.inj h
    exact (addsAll_writeAll (fun b hb _ _ => ih b hb) hg hparts).parent (.inr (.inl rfl)) rfl
  | option body ih =>
    rw [Body.write] at h
    obtain ⟨inner, hinner, h⟩ := Option.bind_eq_some_iff.mp h
    obtain rfl := Option.some.inj h
    exact (ih hg hinner).all.parent (.inr (.inr ⟨rfl, rfl⟩)) rfl
  | repetition bounds body ih =>
    rw [Body.write] at h
    obtain ⟨read, hread, h⟩ := Option.bind_eq_some_iff.mp h
    obtain ⟨inner, hinner, h⟩ := Option.bind_eq_some_iff.mp h
    obtain rfl := Option.some.inj h
    exact (ih hg hinner).all.parent (.inr (.inr ⟨rfl, rfl⟩)) rfl

/-- The root of a rule is a node, or the rule has none. -/
theorem Grammar.Ordered.ruleRoot_cases (hg : g.Ordered) (rule : ℤ) :
    g.ruleRoot rule = kNoRule ∨ ∃ i < g.nodes.length, g.ruleRoot rule = (i : ℕ) := by
  rw [ruleRoot]
  split_ifs
  · exact .inl rfl
  · exact getD_of_forall (P := fun r => r = kNoRule ∨ ∃ i < g.nodes.length, r = (i : ℕ)) (.inl rfl) hg.roots _

/-- A rule gets a root. -/
theorem Grammar.Ordered.setRoot (hg : g.Ordered) (rule : ℕ) {root : ℕ} (hroot : root < g.nodes.length) :
    ({ g with ruleRoots := g.ruleRoots.set rule root } : Grammar).Ordered where
  nodes hn := (hg.nodes hn).extend ⟨List.prefix_rfl, List.prefix_rfl, List.prefix_rfl, List.prefix_rfl, List.prefix_rfl⟩
  aligned := by simpa using hg.aligned
  roots r hr := by
    rcases List.mem_or_eq_of_mem_set hr with hold | rfl
    · exact hg.roots r hold
    · exact .inr ⟨root, hroot, rfl⟩

/-- A definition takes effect on a grammar in order. -/
theorem ordered_define (hg : g.Ordered) {rule : ℤ} {name : Str} {incremental : Bool} {body : ℕ}
    (hbody : body < g.nodes.length) (h : g.define rule name incremental body = .ok g') :
    g'.Ordered ∧ g.Extends g' := by
  rw [define] at h
  dsimp only at h
  split_ifs at h with hinc hnone
  · obtain rfl := Except.ok.inj h
    obtain ⟨i, hi, hroot⟩ := (hg.ruleRoot_cases rule).resolve_left hnone
    have hids : ∀ id ∈ [(g.ruleRoot rule).toNat, body], id < g.nodes.length := by
      intro id hid
      rcases List.mem_cons.mp hid with rfl | hid
      · rwa [hroot, Int.toNat_natCast]
      · exact List.mem_singleton.mp hid ▸ hbody
    have hall : g.AddsAll ([(g.ruleRoot rule).toNat, body], g) := ⟨hg, .refl g, hids, List.prefix_rfl⟩
    have hadds : g.Adds (g.addParent { kind := .alternation } [(g.ruleRoot rule).toNat, body]) :=
      hall.parent (.inr (.inl rfl)) rfl
    exact ⟨hadds.ordered.setRoot rule.toNat hadds.lt, hadds.tables.trans
      ⟨List.prefix_rfl, List.prefix_rfl, List.prefix_rfl, List.prefix_rfl, List.prefix_rfl⟩⟩
  · obtain rfl := Except.ok.inj h
    exact ⟨hg.setRoot rule.toNat hbody,
      ⟨List.prefix_rfl, List.prefix_rfl, List.prefix_rfl, List.prefix_rfl, List.prefix_rfl⟩⟩

/-- A rule is written to a grammar in order. -/
theorem ordered_rule (hg : g.Ordered) {r : RuleText} (h : r.write num g = some g') : g'.Ordered ∧ g.Extends g' := by
  obtain ⟨made, hbody, hdefine⟩ := Option.bind_eq_some_iff.mp h
  have hadds := adds_write (hg.internRule r.name) hbody
  obtain ⟨hordered, hext⟩ := ordered_define hadds.ordered hadds.lt (toOption_eq_some.mp hdefine)
  exact ⟨hordered, ((g.extends_internRule r.name).trans hadds.tables).trans hext⟩

/-- **Rules are written** to a grammar in order. -/
theorem ordered_writeRules {rules : List RuleText} (hg : g.Ordered) (h : writeRules num rules g = some g') :
    g'.Ordered ∧ g.Extends g' := by
  induction rules generalizing g with
  | nil =>
    obtain rfl := Option.some.inj h
    exact ⟨hg, .refl g⟩
  | cons r rules ih =>
    obtain ⟨g₁, hrule, hmore⟩ := Option.bind_eq_some_iff.mp h
    obtain ⟨hordered, hext⟩ := ordered_rule hg hrule
    obtain ⟨hordered', hext'⟩ := ih hordered hmore
    exact ⟨hordered', hext.trans hext'⟩

theorem ordered_empty : ({} : Grammar).Ordered := ⟨fun h => (nomatch h), rfl, fun _ hr => absurd hr List.not_mem_nil⟩

/-- **What compiles is in order.** -/
theorem ordered_compile {text : Str} (h : compile num text = .ok g) : g.Ordered := by
  obtain ⟨rules, -, hwrite, -⟩ := compile_eq_ok_iff.mp h
  exact (ordered_writeRules ordered_empty hwrite).1

end Abnf

end FtIrc
