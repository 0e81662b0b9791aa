import FtIrc.Grammar.OctetTables

/-!
# Derivations

What a grammar means: a text is derived from a node, with the texts that were captured on the way, in
the order in which they are complete (`FtIrc.Abnf.Grammar.Derives`). Letters are matched without
regard to case, a repetition is as many derivations of its body as its bounds allow.

What is still to come behind a node, the frames of the interpreter, is derived from the rest of a
line (`FtIrc.Abnf.Grammar.Rest`).
-/

namespace FtIrc

namespace Abnf

/-- What was captured: in which slot, and which text. -/
abbrev Captured := ℕ × Str

namespace Grammar

mutual

/-- **A text is derived from a node**, and these texts are captured. -/
inductive Derives (g : Grammar) : ℕ → Str → List Captured → Prop
  | literal {i : ℕ} {s : Str} : (g.node i).kind = .literal →
      asciiFold s = asciiFold (g.literal (g.node i).literal) → Derives g i s []
  | octetRange {i : ℕ} {c : Octet} : (g.node i).kind = .octetRange →
      (g.node i).lo ≤ c.toNat ∧ (c.toNat : ℤ) ≤ (g.node i).hi → Derives g i [c] []
  | reference {i : ℕ} {s : Str} {caps : List Captured} : (g.node i).kind = .reference →
      g.ruleRoot (g.node i).lo ≠ kNoRule → (g.node i).capture = kNoCapture →
      Derives g (g.ruleRoot (g.node i).lo).toNat s caps → Derives g i s caps
  | captured {i : ℕ} {s : Str} {caps : List Captured} : (g.node i).kind = .reference →
      g.ruleRoot (g.node i).lo ≠ kNoRule → (g.node i).capture ≠ kNoCapture →
      Derives g (g.ruleRoot (g.node i).lo).toNat s caps → Derives g i s (caps ++ [((g.node i).capture.toNat, s)])
  | sequence {i : ℕ} {s : Str} {caps : List Captured} : (g.node i).kind = .sequence →
      DerivesAll g (g.childrenOf (g.node i)) s caps → Derives g i s caps
  | alternation {i child : ℕ} {s : Str} {caps : List Captured} : (g.node i).kind = .alternation →
      child ∈ g.childrenOf (g.node i) → Derives g child s caps → Derives g i s caps
  | repetition {i times : ℕ} {s : Str} {caps : List Captured} : (g.node i).kind = .repetition →
      (g.node i).lo ≤ times → (g.node i).hi = kUnbounded ∨ (times : ℤ) ≤ (g.node i).hi →
      DerivesAll g (List.replicate times (g.child (g.node i).first)) s caps → Derives g i s caps

/-- Texts are derived from nodes, one after the other. -/
inductive DerivesAll (g : Grammar) : List ℕ → Str → List Captured → Prop
  | nil : DerivesAll g [] [] []
  | cons {i : ℕ} {is : List ℕ} {s s' : Str} {caps caps' : List Captured} :
      Derives g i s caps → DerivesAll g is s' caps' → DerivesAll g (i :: is) (s ++ s') (caps ++ caps')

end

variable {g : Grammar} {line : Str} {i node childNo count start pos pos' : ℕ} {next : List Frame}
  {caps caps' : List Captured}

/-! ### Pieces of a line -/

/-- What stands between two positions. -/
def piece (line : Str) (pos pos' : ℕ) : Str := (line.drop pos).take (pos' - pos)

theorem piece_self (line : Str) (pos : ℕ) : piece line pos pos = [] := by
  rw [piece, Nat.sub_self, List.take_zero]

theorem piece_append {last : ℕ} (h : pos ≤ pos') (h' : pos' ≤ last) :
    piece line pos pos' ++ piece line pos' last = piece line pos last := by
  have hdrop : line.drop pos' = (line.drop pos).drop (pos' - pos) := by
    rw [List.drop_drop]
    congr 1
    omega
  rw [piece, piece, piece, hdrop, ← List.take_add]
  congr 1
  omega

theorem piece_succ {c : Octet} (h : (line)[pos]? = some c) : piece line pos (pos + 1) = [c] := by
  obtain ⟨hlt, hc⟩ := List.getElem?_eq_some_iff.mp h
  rw [piece, List.drop_eq_getElem_cons hlt, hc, Nat.add_sub_cancel_left, List.take_succ_cons, List.take_zero]

theorem piece_all (line : Str) : piece line 0 line.length = line := by
  rw [piece, List.drop_zero, Nat.sub_zero, List.take_length]

/-! ### Single octets -/

/-- **What matches a single octet derives it**, and captures nothing. -/
theorem Single.derives {c : Octet} (h : g.Single i) (hc : g.Takes c i) : g.Derives i [c] [] := by
  induction h with
  | octetRange hkind => exact .octetRange hkind ((takes_octetRange_iff hkind).mp hc)
  | literal hkind _ =>
    refine .literal hkind ?_
    rw [(takes_literal_iff hkind).mp hc]
    rfl
  | reference hkind hcapture hroot _ ih => exact .reference hkind hroot hcapture (ih ((takes_reference_iff hkind).mp hc).2)
  | alternation hkind _ _ ih =>
    obtain ⟨child, hchild, htakes⟩ := (takes_alternation_iff hkind).mp hc
    exact .alternation hkind hchild (ih child hchild htakes)

/-! ### What is still to come -/

/-- **The rest of a line is derived from what is still to come.** -/
inductive Rest (g : Grammar) (line : Str) : List Frame → ℕ → List Captured → Prop
  | nil : Rest g line [] line.length []
  | node {node pos pos' : ℕ} {next : List Frame} {caps caps' : List Captured} : pos ≤ pos' →
      g.Derives node (piece line pos pos') caps → Rest g line next pos' caps' →
      Rest g line (.node node :: next) pos (caps ++ caps')
  | sequence {node childNo pos pos' : ℕ} {next : List Frame} {caps caps' : List Captured} : pos ≤ pos' →
      g.DerivesAll ((g.childrenOf (g.node node)).drop childNo) (piece line pos pos') caps → Rest g line next pos' caps' →
      Rest g line (.sequence node childNo :: next) pos (caps ++ caps')
  /-- So many bodies were derived already, and some more follow. -/
  | repetition {node count start times pos pos' : ℕ} {next : List Frame} {caps caps' : List Captured} : pos ≤ pos' →
      (g.node node).lo ≤ count + times →
      ((g.node node).kind = .repetition → times = 0 ∨ (g.node node).hi = kUnbounded ∨ (count + times : ℤ) ≤ (g.node node).hi) →
      g.DerivesAll (List.replicate times (g.child (g.node node).first)) (piece line pos pos') caps →
      Rest g line next pos' caps' → Rest g line (.repetition node count start :: next) pos (caps ++ caps')
  | closeCapture {slot start pos : ℕ} {next : List Frame} {caps : List Captured} : Rest g line next pos caps →
      Rest g line (.closeCapture slot start :: next) pos ((slot, piece line start pos) :: caps)

theorem Rest.node_inv (h : g.Rest line (.node node :: next) pos caps) : ∃ pos' caps₁ caps₂, pos ≤ pos' ∧
    caps = caps₁ ++ caps₂ ∧ g.Derives node (piece line pos pos') caps₁ ∧ g.Rest line next pos' caps₂ := by
  cases h with
  | node hle hderives hrest => exact ⟨_, _, _, hle, rfl, hderives, hrest⟩

/-- A sequence is derived from its children. -/
theorem Rest.of_sequence (hkind : (g.node i).kind = .sequence) (h : g.Rest line (.sequence i 0 :: next) pos caps) :
    g.Rest line (.node i :: next) pos caps := by
  cases h with
  | sequence hle hderives hrest => exact .node hle (.sequence hkind (by rwa [List.drop_zero] at hderives)) hrest

theorem Rest.sequence_done (hdone : (g.node node).count ≤ childNo) (h : g.Rest line next pos caps) :
    g.Rest line (.sequence node childNo :: next) pos caps := by
  have hnone : (g.childrenOf (g.node node)).drop childNo = [] := by
    rw [List.drop_eq_nil_iff, childrenOf, List.length_map, List.length_range]
    exact hdone
  have hderives : g.DerivesAll ((g.childrenOf (g.node node)).drop childNo) (piece line pos pos) [] := by
    rw [hnone, piece_self]
    exact .nil
  exact .sequence le_rfl hderives h

theorem Rest.sequence_cons (hmore : childNo < (g.node node).count)
    (h : g.Rest line (.node (g.child ((g.node node).first + childNo)) :: .sequence node (childNo + 1) :: next) pos caps) :
    g.Rest line (.sequence node childNo :: next) pos caps := by
  obtain ⟨pos', caps₁, caps₂, hle, rfl, hchild, hrest⟩ := h.node_inv
  cases hrest with
  | @sequence _ _ _ last _ caps₃ caps₄ hle' hchildren hrest =>
    rw [← List.append_assoc]
    refine .sequence (hle.trans hle') ?_ hrest
    have hlen : childNo < (g.childrenOf (g.node node)).length := by
      rw [childrenOf, List.length_map, List.length_range]
      exact hmore
    have hget : (g.childrenOf (g.node node))[childNo] = g.child ((g.node node).first + childNo) := by
      simp [childrenOf]
    rw [List.drop_eq_getElem_cons hlen, hget, ← piece_append hle hle']
    exact .cons hchild hchildren

/-- No body more. -/
theorem Rest.repetition_done (hlo : (g.node node).lo ≤ count) (h : g.Rest line next pos caps) :
    g.Rest line (.repetition node count start :: next) pos caps := by
  have hderives : g.DerivesAll (List.replicate 0 (g.child (g.node node).first)) (piece line pos pos) [] := by
    rw [piece_self]
    exact .nil
  exact .repetition le_rfl (by omega) (fun _ => .inl rfl) hderives h

/-- One body more. -/
theorem Rest.repetition_cons (hmore : (g.node node).hi = kUnbounded ∨ count < (g.node node).hi)
    (h : g.Rest line (.node (g.child (g.node node).first) :: .repetition node (count + 1) pos :: next) pos caps) :
    g.Rest line (.repetition node count start :: next) pos caps := by
  obtain ⟨pos', caps₁, caps₂, hle, rfl, hbody, hrest⟩ := h.node_inv
  cases hrest with
  | @repetition _ _ _ times _ last _ caps₃ caps₄ hle' hlo hhi hbodies hrest =>
    rw [← List.append_assoc]
    have hall : g.DerivesAll (List.replicate (times + 1) (g.child (g.node node).first)) (piece line pos last)
        (caps₁ ++ caps₃) := by
      rw [List.replicate_succ, ← piece_append hle hle']
      exact .cons hbody hbodies
    refine .repetition (hle.trans hle') (by push_cast at hlo ⊢; omega) (fun hkind => ?_) hall hrest
    rcases hhi hkind with rfl | hbound | hhi
    · rcases hmore with hbound | hlt
      · exact .inr (.inl hbound)
      · exact .inr (.inr (by push_cast; omega))
    · exact .inr (.inl hbound)
    · exact .inr (.inr (by push_cast at hhi ⊢; omega))

/-- A repetition is derived from its bodies, if it may be derived from none. -/
theorem Rest.of_repetition (hkind : (g.node i).kind = .repetition)
    (hbound : (g.node i).hi = kUnbounded ∨ 0 ≤ (g.node i).hi) (h : g.Rest line (.repetition i 0 start :: next) pos caps) :
    g.Rest line (.node i :: next) pos caps := by
  cases h with
  | @repetition _ _ _ times _ pos' _ caps₁ caps₂ hle hlo hhi hbodies hrest =>
    refine .node hle (.repetition hkind (by simpa using hlo) ?_ hbodies) hrest
    rcases hhi hkind with rfl | hun | hhi
    · exact hbound
    · exact .inl hun
    · exact .inr (by simpa using hhi)

/-- A reference is derived from the root of its rule. -/
theorem Rest.of_reference (hkind : (g.node i).kind = .reference) (hroot : g.ruleRoot (g.node i).lo ≠ kNoRule)
    (hcapture : (g.node i).capture = kNoCapture)
    (h : g.Rest line (.node (g.ruleRoot (g.node i).lo).toNat :: next) pos caps) :
    g.Rest line (.node i :: next) pos caps := by
  obtain ⟨pos', caps₁, caps₂, hle, rfl, hderives, hrest⟩ := h.node_inv
  exact .node hle (.reference hkind hroot hcapture hderives) hrest

theorem Rest.of_captured (hkind : (g.node i).kind = .reference) (hroot : g.ruleRoot (g.node i).lo ≠ kNoRule)
    (hcapture : (g.node i).capture ≠ kNoCapture)
    (h : g.Rest line (.node (g.ruleRoot (g.node i).lo).toNat :: .closeCapture (g.node i).capture.toNat pos :: next) pos caps) :
    g.Rest line (.node i :: next) pos caps := by
  obtain ⟨pos', caps₁, caps₂, hle, rfl, hderives, hrest⟩ := h.node_inv
  cases hrest with
  | closeCapture hrest =>
    rw [List.append_cons]
    exact .node hle (.captured hkind hroot hcapture hderives) hrest

/-- An alternation is derived from one of its branches. -/
theorem Rest.of_alternation {child : ℕ} (hkind : (g.node i).kind = .alternation) (hchild : child ∈ g.childrenOf (g.node i))
    (h : g.Rest line (.node child :: next) pos caps) : g.Rest line (.node i :: next) pos caps := by
  obtain ⟨pos', caps₁, caps₂, hle, rfl, hderives, hrest⟩ := h.node_inv
  exact .node hle (.alternation hkind hchild hderives) hrest

end Grammar

end Abnf

end FtIrc
