import FtIrc.Grammar.Stored

/-!
# Alternations have branches

Whatever text is parsed, every alternation that is stored has a branch
(`FtIrc.Abnf.branched_compile`). The compiler of a grammar relies on that: what it writes out for an
alternation without branches would match the empty text, which is not derived from it.
-/

namespace FtIrc

namespace Abnf

variable {num : Numbers} {k : ℕ} {s : Str} {g g' : Grammar}

/-- An alternation has branches. -/
def GrammarNode.Branched (n : GrammarNode) : Prop := n.kind = .alternation → 0 < n.count

/-- All alternations of a grammar have branches. -/
def Grammar.Branched (g : Grammar) : Prop := g.EveryNode GrammarNode.Branched

namespace Grammar

theorem Branched.same (h : g.Branched) (hnodes : g'.nodes = g.nodes) : g'.Branched := fun n hn => h n (hnodes ▸ hn)

theorem Branched.node (h : g.Branched) (i : ℕ) : (g.node i).Branched := by
  rw [Grammar.node, List.getD_eq_getElem?_getD]
  cases hi : g.nodes[i]? with
  | none =>
    intro hkind
    cases hkind
  | some n => exact h n (List.mem_of_getElem? hi)

/-- A node of another kind is added. -/
theorem Branched.addNode (h : g.Branched) {n : GrammarNode} (hn : n.kind ≠ .alternation) : (g.addNode n).2.Branched :=
  EveryNode.addNode h fun hkind => absurd hkind hn

theorem Branched.addParent (h : g.Branched) {n : GrammarNode} {ids : List ℕ} (hn : n.kind = .alternation → ids ≠ []) :
    (g.addParent n ids).2.Branched :=
  EveryNode.addParent h fun hkind => List.length_pos_of_ne_nil (hn hkind)

theorem Branched.bundle (h : g.Branched) {kind : Kind} {ids : List ℕ} (hids : kind = .alternation → ids ≠ []) :
    (g.bundle kind ids).2.Branched := by
  unfold Grammar.bundle
  split
  · exact h
  · exact h.addParent hids

theorem Branched.addReference (h : g.Branched) (captured : Bool) (name : Str) : (g.addReference captured name).2.Branched := by
  have hrule := h.same (g.nodes_internRule name)
  cases captured with
  | false => exact hrule.addNode (by simp)
  | true => exact (hrule.same ((g.internRule name).2.nodes_internCapture name)).addNode (by simp)

theorem Branched.define (h : g.Branched) {rule : ℤ} {name : Str} {incremental : Bool} {body : ℕ}
    (hdefine : g.define rule name incremental body = .ok g') : g'.Branched := by
  rw [Grammar.define] at hdefine
  dsimp only at hdefine
  split_ifs at hdefine
  · obtain rfl := Except.ok.inj hdefine
    exact h.addParent fun _ => by simp
  · obtain rfl := Except.ok.inj hdefine
    exact h

end Grammar

theorem branched_parsePieces {ids : List ℕ} {made : Parsed (List ℕ)} (hg : g.Branched)
    (h : parsePieces num k s g ids = .ok made) : made.2.2.Branched := by
  induction k generalizing s g ids with
  | zero => cases h
  | succ k ih =>
    rw [parsePieces] at h
    dsimp only at h
    split_ifs at h with hnone
    obtain ⟨upper, -, h⟩ := bind_eq_ok.mp h
    have hmade := hg.addNode (n := { kind := .octetRange, lo := num.octet (s.takeWhile isHexDigit), hi := upper.1 }) (by simp)
    split_ifs at h
    · exact ih hmade h
    · obtain rfl := Except.ok.inj h
      exact hmade

/-- The parsers of all levels keep the branches. -/
structure KeepsBranches (num : Numbers) (k : ℕ) : Prop where
  element : ∀ {s g made}, g.Branched → parseElement num k s g = .ok made → made.2.2.Branched
  repetition : ∀ {s g made}, g.Branched → parseRepetition num k s g = .ok made → made.2.2.Branched
  concatenation : ∀ {s g ids made}, g.Branched → parseConcatenation num k s g ids = .ok made → made.2.2.Branched
  alternation : ∀ {s g ids made}, g.Branched → parseAlternation num k s g ids = .ok made → made.2.2.Branched

theorem KeepsBranches.element_succ (ih : KeepsBranches num k) {made : Parsed ℕ} (hg : g.Branched)
    (h : parseElement num (k + 1) s g = .ok made) : made.2.2.Branched := by
  rw [parseElement] at h
  rcases hs : skipBlanks s with _ | ⟨c, rest⟩
  · rw [hs] at h
    cases h
  rw [hs] at h
  dsimp only at h
  split_ifs at h
  · obtain ⟨⟨inner, s₁, g₁⟩, hinner, h⟩ := bind_eq_ok.mp h
    obtain ⟨_, -, h⟩ := bind_eq_ok.mp h
    obtain rfl := Except.ok.inj h
    have hone := ih.alternation hg hinner
    exact hone
  · obtain ⟨⟨inner, s₁, g₁⟩, hinner, h⟩ := bind_eq_ok.mp h
    obtain ⟨_, -, h⟩ := bind_eq_ok.mp h
    obtain rfl := Except.ok.inj h
    exact (ih.alternation hg hinner).addParent (by simp)
  · rcases hrest : rest.dropWhile (· != QUOTE) with _ | ⟨q, s₁⟩
    · rw [hrest] at h
      cases h
    · rw [hrest] at h
      obtain rfl := Except.ok.inj h
      exact Grammar.Branched.addNode (g := { g with literals := g.literals ++ [_] }) hg (by simp)
  · rw [parseNumericValue] at h
    split_ifs at h
    obtain ⟨pieces, hpieces, h⟩ := bind_eq_ok.mp h
    obtain rfl := Except.ok.inj h
    exact (branched_parsePieces hg hpieces).bundle (by simp)
  · obtain rfl := Except.ok.inj h
    exact hg.addReference true _
  · obtain rfl := Except.ok.inj h
    exact hg.addReference false _

theorem KeepsBranches.repetition_succ (ih : KeepsBranches num k) {made : Parsed ℕ} (hg : g.Branched)
    (h : parseRepetition num (k + 1) s g = .ok made) : made.2.2.Branched := by
  rw [parseRepetition] at h
  obtain ⟨⟨bounds, s₁⟩, -, h⟩ := bind_eq_ok.mp h
  obtain ⟨child, hchild, h⟩ := bind_eq_ok.mp h
  have hbody := ih.element hg hchild
  cases bounds with
  | none =>
    obtain rfl := Except.ok.inj h
    exact hbody
  | some bounds =>
    obtain rfl := Except.ok.inj h
    exact hbody.addParent (by simp)

theorem KeepsBranches.concatenation_succ (ih : KeepsBranches num k) {ids : List ℕ} {made : Parsed ℕ} (hg : g.Branched)
    (h : parseConcatenation num (k + 1) s g ids = .ok made) : made.2.2.Branched := by
  rw [parseConcatenation] at h
  dsimp only at h
  split_ifs at h
  · obtain rfl := Except.ok.inj h
    exact hg.bundle (by simp)
  · obtain ⟨part, hpart, h⟩ := bind_eq_ok.mp h
    exact ih.concatenation (ih.repetition hg hpart) h

/-- The branch that was read last is there. -/
theorem KeepsBranches.alternation_succ (ih : KeepsBranches num k) {ids : List ℕ} {made : Parsed ℕ} (hg : g.Branched)
    (h : parseAlternation num (k + 1) s g ids = .ok made) : made.2.2.Branched := by
  rw [parseAlternation] at h
  obtain ⟨branch, hbranch, h⟩ := bind_eq_ok.mp h
  have hone := ih.concatenation hg hbranch
  dsimp only at h
  split_ifs at h
  · exact ih.alternation hone h
  · obtain rfl := Except.ok.inj h
    exact hone.bundle fun _ => by simp

theorem keepsBranches (num : Numbers) (k : ℕ) : KeepsBranches num k := by
  induction k with
  | zero => exact ⟨fun _ h => (nomatch h), fun _ h => (nomatch h), fun _ h => (nomatch h), fun _ h => (nomatch h)⟩
  | succ k ih => exact ⟨ih.element_succ, ih.repetition_succ, ih.concatenation_succ, ih.alternation_succ⟩

theorem branched_parseRule {line : Str} (hg : g.Branched) (h : parseRule num g line = .ok g') : g'.Branched := by
  rw [parseRule] at h
  dsimp only at h
  generalize decide ((skipBlanks ((skipBlanks line).dropWhile isRuleChar)).tail.head? = some SLASH) = incremental at h
  generalize (if incremental = true then _ else _ : Str) = rest at h
  split_ifs at h
  · obtain rfl := Except.ok.inj h
    exact hg
  · obtain ⟨body, hbody, h⟩ := bind_eq_ok.mp h
    split_ifs at h
    exact ((keepsBranches num _).alternation (hg.same (g.nodes_internRule _)) hbody).define h

/-- **Every alternation of a grammar that is accepted has a branch.** -/
theorem branched_compile {text : Str} (h : compile num text = .ok g) : g.Branched := by
  rw [compile] at h
  obtain ⟨lines, -, h⟩ := bind_eq_ok.mp h
  obtain ⟨g₁, hrules, h⟩ := bind_eq_ok.mp h
  obtain ⟨_, -, h⟩ := bind_eq_ok.mp h
  obtain rfl := Except.ok.inj h
  have hall : ∀ (lines : List Line) (g g' : Grammar), g.Branched →
      lines.foldlM (fun g line => located line.number (parseRule num g line.text)) g = .ok g' → g'.Branched := by
    intro lines
    induction lines with
    | nil =>
      intro g g' hg h
      obtain rfl := Except.ok.inj h
      exact hg
    | cons line lines ih =>
      intro g g' hg h
      rw [List.foldlM_cons] at h
      obtain ⟨g₂, hline, h⟩ := bind_eq_ok.mp h
      exact ih g₂ g' (branched_parseRule hg (mapError_eq_ok.mp hline)) h
  exact hall lines {} g₁ (fun n hn => absurd hn List.not_mem_nil) hrules

end Abnf

end FtIrc
