import Mathlib.Data.List.Infix

/-!
# Patterns and backtracking search

Patterns over classes of symbols (`FtIrc.Pattern`), and the first success of a backtracking search
through them, in continuation-passing style (`FtIrc.Pattern.eval`). What is noted where a capture
opens and where it closes is a parameter (`FtIrc.Notes`); the theorem that carries all comparisons is
`FtIrc.Pattern.eval_rel`: two searches through the same pattern stay related when what they do at the
rests of the input is.

An iteration of a repetition that has matched nothing is the last one. That the body of a repetition
cannot match nothing enters through `FtIrc.Pattern.Reaches`, and makes a repetition the same as its
body written out, as often as it must be there and then as often as it may
(`FtIrc.Pattern.eval_written`).
-/

namespace FtIrc

/-- **A pattern** over classes of symbols `S`, with captures labelled by `K`. -/
inductive Pattern (S K : Type)
  /-- Matches nothing but the empty text. -/
  | empty
  /-- Matches no text. -/
  | never
  /-- One symbol of a class. -/
  | symbol (s : S)
  /-- One after the other. -/
  | seq (a b : Pattern S K)
  /-- The first one, or else the second. -/
  | alt (a b : Pattern S K)
  /-- At least `least` and at most `most` times, as often as possible first. -/
  | rep (least : ℕ) (most : Option ℕ) (a : Pattern S K)
  /-- The body, its text captured. -/
  | capture (k : K) (a : Pattern S K)

/-- **What is noted** where a capture opens and where it closes, in front of what is noted later: the
captured text begins where `w` is to go, and ends where `rest` is. -/
structure Notes (α K C : Type) where
  opened : K → List α → C → C
  closed : K → List α → List α → C → C

/-- Captures by another name. -/
def Notes.comap {α K L C : Type} (f : L → K) (N : Notes α K C) : Notes α L C where
  opened k := N.opened (f k)
  closed k := N.closed (f k)

/-- What was captured: its label, and what was to go where it began and where it ended. -/
structure Span (α K : Type) where
  label : K
  start : List α
  stop : List α

/-- Captures are noted one behind the other, in front of what is noted later. -/
def Notes.spans {α K C : Type} (N : Notes α K C) (l : List (Span α K)) (x : C) : C :=
  l.foldr (fun s x => N.opened s.label s.start (N.closed s.label s.start s.stop x)) x

theorem Notes.spans_append {α K C : Type} (N : Notes α K C) (l l' : List (Span α K)) (x : C) :
    N.spans (l ++ l') x = N.spans l (N.spans l' x) := List.foldr_append

namespace Pattern

variable {α S K L C D : Type}

/-! ### Shapes of patterns -/

/-- Whether a pattern can match the empty text. -/
def nullable : Pattern S K → Bool
  | empty => true
  | never => false
  | symbol _ => false
  | seq a b => a.nullable && b.nullable
  | alt a b => a.nullable || b.nullable
  | rep least _ a => decide (least = 0) || a.nullable
  | capture _ a => a.nullable

/-- Whether a pattern is a choice of single symbols. -/
def isSymbol : Pattern S K → Bool
  | symbol _ => true
  | alt a b => a.isSymbol && b.isSymbol
  | _ => false

/-- The symbols a choice of single symbols takes. -/
def accepts (mem : S → α → Bool) : Pattern S K → α → Bool
  | symbol s, c => mem s c
  | alt a b, c => a.accepts mem c || b.accepts mem c
  | _, _ => false

/-- The labels of the captures of a pattern. -/
def labels : Pattern S K → List K
  | seq a b => a.labels ++ b.labels
  | alt a b => a.labels ++ b.labels
  | rep _ _ a => a.labels
  | capture k a => k :: a.labels
  | _ => []

theorem nullable_of_isSymbol {p : Pattern S K} (h : p.isSymbol = true) : p.nullable = false := by
  induction p with
  | symbol s => rfl
  | alt a b iha ihb =>
    rw [isSymbol, Bool.and_eq_true] at h
    rw [nullable, iha h.1, ihb h.2]
    rfl
  | empty | never | seq a b | rep l m a | capture k a => exact absurd h (by simp [isSymbol])

/-- **Every repetition and every capture inside** is like this. -/
def Every (P : Pattern S K → Prop) : Pattern S K → Prop
  | seq a b => a.Every P ∧ b.Every P
  | alt a b => a.Every P ∧ b.Every P
  | rep least most a => P (rep least most a) ∧ a.Every P
  | capture k a => P (capture k a) ∧ a.Every P
  | _ => True

/-- Patterns one after the other. -/
def seqs : List (Pattern S K) → Pattern S K
  | [] => empty
  | p :: ps => seq p (seqs ps)

/-- Patterns tried one after the other. -/
def alts : List (Pattern S K) → Pattern S K
  | [] => never
  | [p] => p
  | p :: q :: ps => alt p (alts (q :: ps))

/-- Each of the patterns behind the one before, all of it left out or nothing. -/
def optionals : List (Pattern S K) → Pattern S K
  | [] => empty
  | p :: ps => alt (seq p (optionals ps)) empty

variable {P : Pattern S K → Prop} {ps : List (Pattern S K)}

theorem every_seqs (h : ∀ p ∈ ps, p.Every P) : (seqs ps).Every P := by
  induction ps with
  | nil => trivial
  | cons p ps ih =>
    obtain ⟨hp, hps⟩ := List.forall_mem_cons.mp h
    exact ⟨hp, ih hps⟩

theorem every_alts (h : ∀ p ∈ ps, p.Every P) : (alts ps).Every P := by
  induction ps with
  | nil => trivial
  | cons p ps ih =>
    obtain ⟨hp, hps⟩ := List.forall_mem_cons.mp h
    rcases ps with _ | ⟨q, ps⟩
    · exact hp
    · exact ⟨hp, ih hps⟩

theorem every_optionals (h : ∀ p ∈ ps, p.Every P) : (optionals ps).Every P := by
  induction ps with
  | nil => trivial
  | cons p ps ih =>
    obtain ⟨hp, hps⟩ := List.forall_mem_cons.mp h
    exact ⟨⟨hp, ih hps⟩, trivial⟩

theorem mem_labels_seqs {k : K} (h : k ∈ (seqs ps).labels) : ∃ p ∈ ps, k ∈ p.labels := by
  induction ps with
  | nil => cases h
  | cons p ps ih =>
    rw [List.exists_mem_cons_iff]
    exact (List.mem_append.mp h).imp id ih

theorem mem_labels_alts {k : K} (h : k ∈ (alts ps).labels) : ∃ p ∈ ps, k ∈ p.labels := by
  induction ps with
  | nil => cases h
  | cons p ps ih =>
    rw [List.exists_mem_cons_iff]
    rcases ps with _ | ⟨q, ps⟩
    · exact .inl h
    · exact (List.mem_append.mp h).imp id ih

theorem mem_labels_optionals {k : K} (h : k ∈ (optionals ps).labels) : ∃ p ∈ ps, k ∈ p.labels := by
  induction ps with
  | nil => cases h
  | cons p ps ih =>
    rw [List.exists_mem_cons_iff]
    rcases List.mem_append.mp h with h | h
    · exact (List.mem_append.mp h).imp id ih
    · cases h

/-- **A repetition whose iterations cannot stop it early**: its body takes at least
one symbol, or there is at most one iteration. -/
def Steady (least : ℕ) (most : Option ℕ) (a : Pattern S K) : Prop :=
  a.nullable = false ∨ ∃ n ∈ most, n ≤ 1 ∧ least ≤ n

theorem Steady.pred {least : ℕ} {most : Option ℕ} {a : Pattern S K} (h : Steady least most a) :
    Steady (least - 1) (most.map (· - 1)) a := by
  rcases h with h | ⟨n, rfl, hn, hle⟩
  · exact .inl h
  · exact .inr ⟨n - 1, rfl, by omega, by omega⟩

/-! ### The search -/

section Eval

variable (mem : S → α → Bool) (N : Notes α K C)

/-- A repetition that has matched its body `count` times: once more, or on. An
iteration that matched nothing is the last one. -/
def iterate (body : (List α → Option C) → List α → Option C) (least : ℕ) (most : Option ℕ)
    (κ : List α → Option C) : ℕ → ℕ → List α → Option C
  | 0, _, _ => none
  | fuel + 1, count, w =>
    (if ∀ n ∈ most, count < n then
      body (fun rest =>
        if rest.length = w.length then if least ≤ count + 1 then κ rest else none
        else iterate body least most κ fuel (count + 1) rest) w
    else none).or (if least ≤ count then κ w else none)

/-- **The first success of the search through a pattern** from `w`, with `κ` for what follows. -/
def eval : Pattern S K → (List α → Option C) → List α → Option C
  | empty, κ, w => κ w
  | never, _, _ => none
  | symbol _, _, [] => none
  | symbol s, κ, c :: w => if mem s c then κ w else none
  | seq a b, κ, w => a.eval (b.eval κ) w
  | alt a b, κ, w => (a.eval κ w).or (b.eval κ w)
  | rep least most a, κ, w => iterate a.eval least most κ (w.length + 1) 0 w
  | capture k a, κ, w =>
    (a.eval (fun rest => (κ rest).map (N.closed k w rest)) w).map (N.opened k w)

end Eval

variable {mem : S → α → Bool} {N : Notes α K C} {N' : Notes α K D}

/-! ### Comparing two searches -/

/-- What a pattern can leave of the input `w`: a suffix, a shorter one unless the
pattern can match the empty text. -/
def Reaches (p : Pattern S K) (w rest : List α) : Prop :=
  rest <:+ w ∧ (p.nullable = false → rest.length < w.length)

/-- **Two ways of noting things go together** up to a relation between what is noted. -/
structure NotesRel (N : Notes α K C) (N' : Notes α K D) (Q : C → D → Prop) : Prop where
  closed : ∀ (k : K) (w rest : List α) (x : C) (y : D), Q x y → Q (N.closed k w rest x) (N'.closed k w rest y)
  opened : ∀ (k : K) (w : List α) (x : C) (y : D), Q x y → Q (N.opened k w x) (N'.opened k w y)

theorem rel_or {Q : C → D → Prop} {x x' : Option C} {y y' : Option D} (h : Option.Rel Q x y) (h' : Option.Rel Q x' y') :
    Option.Rel Q (x.or x') (y.or y') := by
  cases h with
  | none => exact h'
  | some h => exact .some h

theorem rel_ite {Q : C → D → Prop} {c : Prop} [Decidable c] {x : Option C} {y : Option D} (h : c → Option.Rel Q x y) :
    Option.Rel Q (if c then x else none) (if c then y else none) := by
  split_ifs with hc
  · exact h hc
  · exact .none

theorem rel_map {C' D' : Type} {Q : C → D → Prop} {Q' : C' → D' → Prop} {f : C → C'} {f' : D → D'} {x : Option C} {y : Option D}
    (h : Option.Rel Q x y) (hf : ∀ x y, Q x y → Q' (f x) (f' y)) : Option.Rel Q' (x.map f) (y.map f') := by
  cases h with
  | none => exact .none
  | some h => exact .some (hf _ _ h)

/-- **Two searches through one pattern stay related**, when what they do with the
rests the pattern can leave is. -/
theorem eval_rel {Q : C → D → Prop} (p : Pattern S K) (h : NotesRel N N' Q) {κ : List α → Option C}
    {κ' : List α → Option D} {w : List α} (hκ : ∀ rest, p.Reaches w rest → Option.Rel Q (κ rest) (κ' rest)) :
    Option.Rel Q (p.eval mem N κ w) (p.eval mem N' κ' w) := by
  induction p generalizing κ κ' w with
  | empty => exact hκ w ⟨List.suffix_refl w, fun hn => absurd hn (by simp [nullable])⟩
  | never => exact .none
  | symbol s =>
    rcases w with _ | ⟨c, w⟩
    · exact .none
    · exact rel_ite fun _ => hκ w ⟨List.suffix_cons c w, fun _ => by simp⟩
  | seq a b iha ihb =>
    refine iha fun rest hrest => ihb fun last hlast => hκ last ?_
    refine ⟨hlast.1.trans hrest.1, fun hn => ?_⟩
    have hlen := hrest.1.length_le
    have hlen' := hlast.1.length_le
    rcases Bool.and_eq_false_iff.mp hn with hn | hn
    · exact lt_of_le_of_lt hlen' (hrest.2 hn)
    · exact lt_of_lt_of_le (hlast.2 hn) hlen
  | alt a b iha ihb =>
    refine rel_or (iha fun rest hrest => hκ rest ?_) (ihb fun rest hrest => hκ rest ?_)
    · exact ⟨hrest.1, fun hn => hrest.2 (Bool.or_eq_false_iff.mp hn).1⟩
    · exact ⟨hrest.1, fun hn => hrest.2 (Bool.or_eq_false_iff.mp hn).2⟩
  | rep least most a ih =>
    -- the invariant of the loop: what may follow depends on the iterations made
    have hloop : ∀ fuel count w, (∀ rest, rest <:+ w →
        (least ≤ count ∨ a.nullable = true ∨ rest.length < w.length) → Option.Rel Q (κ rest) (κ' rest)) →
        Option.Rel Q (iterate (a.eval mem N) least most κ fuel count w)
          (iterate (a.eval mem N') least most κ' fuel count w) := by
      intro fuel
      induction fuel with
      | zero => exact fun _ _ _ => .none
      | succ fuel ihf =>
        intro count w hκ
        refine rel_or (rel_ite fun _ => ih fun rest hrest => ?_)
          (rel_ite fun hle => hκ w (List.suffix_refl w) (.inl hle))
        by_cases hlen : rest.length = w.length
        · rw [if_pos hlen, if_pos hlen]
          refine rel_ite fun _ => hκ rest hrest.1 (.inr (.inl ?_))
          by_contra hnull
          exact absurd (hrest.2 (by simpa using hnull)) (by omega)
        · rw [if_neg hlen, if_neg hlen]
          refine ihf _ _ fun last hlast _ => hκ last (hlast.trans hrest.1) (.inr (.inr ?_))
          have := hrest.1.length_le
          have := hlast.length_le
          omega
    refine hloop _ _ _ fun rest hrest hcase => hκ rest ⟨hrest, fun hnull => ?_⟩
    obtain ⟨hleast, hnull⟩ := Bool.or_eq_false_iff.mp hnull
    rcases hcase with hle | hn | hlt
    · exact absurd hle (by have := of_decide_eq_false hleast; omega)
    · exact absurd hn (by simp [hnull])
    · exact hlt
  | capture k a ih =>
    refine rel_map (ih fun rest hrest => ?_) (h.opened k w)
    exact rel_map (hκ rest hrest) (h.closed k w rest)

theorem rel_eq_iff {x y : Option C} : Option.Rel (fun x y => x = y) x y ↔ x = y := by
  constructor
  · intro h
    cases h with
    | none => rfl
    | some h => rw [h]
  · rintro rfl
    cases x with
    | none => exact .none
    | some x => exact .some rfl

/-- A search depends on what it does with the rests the pattern can leave. -/
theorem eval_congr (p : Pattern S K) {κ κ' : List α → Option C} {w : List α}
    (hκ : ∀ rest, p.Reaches w rest → κ rest = κ' rest) : p.eval mem N κ w = p.eval mem N κ' w := by
  have hsame : NotesRel N N (fun x y : C => x = y) := ⟨fun k w rest x y hxy => by rw [hxy], fun k w x y hxy => by rw [hxy]⟩
  exact rel_eq_iff.mp (eval_rel p hsame fun rest hrest => rel_eq_iff.mpr (hκ rest hrest))

/-! ### Repetitions, one turn at a time -/

section Turns

variable {a : Pattern S K} {least count : ℕ} {most : Option ℕ} {κ : List α → Option C} {w : List α}

/-- How much fuel there is does not matter, as long as there is some for every symbol. -/
theorem iterate_fuel {fuel fuel' : ℕ} (h : w.length < fuel) (h' : w.length < fuel') :
    iterate (a.eval mem N) least most κ fuel count w = iterate (a.eval mem N) least most κ fuel' count w := by
  induction fuel generalizing fuel' count w with
  | zero => exact absurd h (Nat.not_lt_zero _)
  | succ fuel ih =>
    obtain ⟨fuel', rfl⟩ : ∃ n, fuel' = n + 1 := ⟨fuel' - 1, by omega⟩
    rw [iterate, iterate]
    have hbody : a.eval mem N (fun rest => if rest.length = w.length then if least ≤ count + 1 then κ rest else none
          else iterate (a.eval mem N) least most κ fuel (count + 1) rest) w =
        a.eval mem N (fun rest => if rest.length = w.length then if least ≤ count + 1 then κ rest else none
          else iterate (a.eval mem N) least most κ fuel' (count + 1) rest) w := by
      refine eval_congr a fun rest hrest => ?_
      have hle := hrest.1.length_le
      split_ifs
      · rfl
      · rfl
      · exact ih (by omega) (by omega)
    rw [hbody]

variable (mem N a least most κ) in
/-- **What a repetition finds** that has matched its body `count` times. -/
def turns (count : ℕ) (w : List α) : Option C := iterate (a.eval mem N) least most κ (w.length + 1) count w

theorem eval_rep : (rep least most a).eval mem N κ w = turns mem N a least most κ 0 w := rfl

/-- One turn of a repetition. -/
theorem turns_eq : turns mem N a least most κ count w =
    (if ∀ n ∈ most, count < n then
      a.eval mem N (fun rest =>
        if rest.length = w.length then if least ≤ count + 1 then κ rest else none
        else turns mem N a least most κ (count + 1) rest) w
    else none).or (if least ≤ count then κ w else none) := by
  have hbody : a.eval mem N (fun rest => if rest.length = w.length then if least ≤ count + 1 then κ rest else none
        else iterate (a.eval mem N) least most κ w.length (count + 1) rest) w =
      a.eval mem N (fun rest => if rest.length = w.length then if least ≤ count + 1 then κ rest else none
        else turns mem N a least most κ (count + 1) rest) w := by
    refine eval_congr a fun rest hrest => ?_
    have hle := hrest.1.length_le
    split_ifs
    · rfl
    · rfl
    · exact iterate_fuel (by omega) (by omega)
  rw [turns, iterate, hbody]

/-- **One turn of a steady repetition**: no iteration is the last one because it has matched nothing. -/
theorem turns_of_steady (hsteady : Steady least most a) : turns mem N a least most κ count w =
    (if ∀ n ∈ most, count < n then a.eval mem N (turns mem N a least most κ (count + 1)) w else none).or
      (if least ≤ count then κ w else none) := by
  rw [turns_eq]
  by_cases hmore : ∀ n ∈ most, count < n
  swap
  · rw [if_neg hmore, if_neg hmore]
  have hbody : a.eval mem N (fun rest => if rest.length = w.length then if least ≤ count + 1 then κ rest else none
        else turns mem N a least most κ (count + 1) rest) w = a.eval mem N (turns mem N a least most κ (count + 1)) w := by
    refine eval_congr a fun rest hrest => ?_
    by_cases hlen : rest.length = w.length
    swap
    · rw [if_neg hlen]
    rw [if_pos hlen]
    rcases hsteady with hnull | ⟨n, hn, hone, hle⟩
    · exact absurd (hrest.2 hnull) (by omega)
    · -- there is no turn but this one
      have hlast : ¬ ∀ m ∈ most, count + 1 < m := fun h => absurd (h n hn) (by omega)
      rw [turns_eq, if_neg hlast, Option.none_or]
  rw [hbody]

/-- The turns of a repetition without limit are all the same, once its body has matched as often as it must. -/
theorem turns_unlimited {least' count' : ℕ} (hnull : a.nullable = false) (hcount : least ≤ count) (hcount' : least' ≤ count') :
    turns mem N a least none κ count w = turns mem N a least' none κ count' w := by
  induction hlen : w.length using Nat.strong_induction_on generalizing count count' w with
  | _ len ih =>
    rw [turns_of_steady (.inl hnull), turns_of_steady (.inl hnull), if_pos hcount, if_pos hcount', if_pos (by simp), if_pos (by simp)]
    have hbody : a.eval mem N (turns mem N a least none κ (count + 1)) w =
        a.eval mem N (turns mem N a least' none κ (count' + 1)) w := by
      refine eval_congr a fun rest hrest => ?_
      have hlt := hrest.2 hnull
      exact ih rest.length (by omega) (by omega) (by omega) rfl
    rw [hbody]

end Turns

/-! ### A choice of single symbols -/

/-- **A choice of single symbols** takes one of them, and no way of it is another than the first. -/
theorem eval_cons_of_isSymbol {p : Pattern S K} (h : p.isSymbol = true) (κ : List α → Option C) (c : α) (w : List α) :
    p.eval mem N κ (c :: w) = if p.accepts mem c then κ w else none := by
  induction p with
  | symbol s => rfl
  | alt a b iha ihb =>
    rw [isSymbol, Bool.and_eq_true] at h
    rw [eval, iha h.1, ihb h.2, accepts]
    cases a.accepts mem c with
    | true => cases κ w <;> cases b.accepts mem c <;> rfl
    | false => rw [Bool.false_or, if_neg Bool.false_ne_true, Option.none_or]
  | empty | never | seq a b | rep l m a | capture k a => exact absurd h (by simp [isSymbol])

theorem eval_nil_of_isSymbol {p : Pattern S K} (h : p.isSymbol = true) (κ : List α → Option C) :
    p.eval mem N κ [] = none := by
  induction p with
  | symbol s => rfl
  | alt a b iha ihb =>
    rw [isSymbol, Bool.and_eq_true] at h
    rw [eval, iha h.1, ihb h.2]
    rfl
  | empty | never | seq a b | rep l m a | capture k a => exact absurd h (by simp [isSymbol])

theorem labels_of_isSymbol {p : Pattern S K} (h : p.isSymbol = true) : p.labels = [] := by
  induction p with
  | symbol s => rfl
  | alt a b iha ihb =>
    rw [isSymbol, Bool.and_eq_true] at h
    rw [labels, iha h.1, ihb h.2]
    rfl
  | empty | never | seq a b | rep l m a | capture k a => exact absurd h (by simp [isSymbol])

/-! ### What is noted -/

/-- No capture is inside of another, or inside of a repetition. -/
def Once (p : Pattern S K) : Prop := p.Every fun
  | rep _ _ a => a.labels = []
  | capture _ a => a.labels = []
  | _ => True

/-- **Two searches have gone the same way**: they have noted the same captures, in the order of their
labels, and what they found behind them. -/
def Traced (N : Notes α K C) (N' : Notes α K D) (ks : List K) (κ : List α → Option C) (κ' : List α → Option D)
    (w : List α) (x : C) (y : D) : Prop :=
  ∃ l rest x' y', rest <:+ w ∧ κ rest = some x' ∧ κ' rest = some y' ∧ x = N.spans l x' ∧ y = N'.spans l y' ∧
    (l.map Span.label).Sublist ks ∧ ∀ s ∈ l, s.stop <:+ s.start ∧ s.start <:+ w

variable {ks ls : List K} {κ κ₁ : List α → Option C} {κ' κ₁' : List α → Option D} {w rest : List α} {x : C} {y : D}

theorem Traced.nil (hx : κ w = some x) (hy : κ' w = some y) : Traced N N' ks κ κ' w x y :=
  ⟨[], w, x, y, List.suffix_refl w, hx, hy, rfl, rfl, List.nil_sublist _, fun _ hs => absurd hs List.not_mem_nil⟩

theorem Traced.mono (h : Traced N N' ks κ κ' w x y) (hks : ks.Sublist ls) : Traced N N' ls κ κ' w x y := by
  obtain ⟨l, rest, x', y', hrest, hx, hy, rfl, rfl, hsub, hl⟩ := h
  exact ⟨l, rest, x', y', hrest, hx, hy, rfl, rfl, hsub.trans hks, hl⟩

/-- First one way, and then another. -/
theorem Traced.append (h : Traced N N' ks κ₁ κ₁' w x y)
    (hmore : ∀ rest, rest <:+ w → Option.Rel (Traced N N' ls κ κ' rest) (κ₁ rest) (κ₁' rest)) :
    Traced N N' (ks ++ ls) κ κ' w x y := by
  obtain ⟨l, rest, x₁, y₁, hrest, hx, hy, rfl, rfl, hsub, hl⟩ := h
  have hboth := hmore rest hrest
  rw [hx, hy] at hboth
  cases hboth with
  | some hboth =>
    obtain ⟨l', rest', x', y', hrest', hx', hy', rfl, rfl, hsub', hl'⟩ := hboth
    refine ⟨l ++ l', rest', x', y', hrest'.trans hrest, hx', hy', ?_, ?_, ?_, fun s hs => ?_⟩
    · rw [Notes.spans_append]
    · rw [Notes.spans_append]
    · rw [List.map_append]
      exact hsub.append hsub'
    · rcases List.mem_append.mp hs with hs | hs
      · exact hl s hs
      · exact ⟨(hl' s hs).1, (hl' s hs).2.trans hrest⟩

theorem Traced.of_suffix (h : Traced N N' ks κ κ' rest x y) (hrest : rest <:+ w) : Traced N N' ks κ κ' w x y := by
  obtain ⟨l, last, x', y', hlast, hx, hy, rfl, rfl, hsub, hl⟩ := h
  exact ⟨l, last, x', y', hlast.trans hrest, hx, hy, rfl, rfl, hsub, fun s hs => ⟨(hl s hs).1, (hl s hs).2.trans hrest⟩⟩

theorem isSome_of_rel {R : C → D → Prop} {x : Option C} {y : Option D} (h : Option.Rel R x y) : x.isSome = y.isSome := by
  cases h <;> rfl

theorem rel_nil (h : (κ w).isSome = (κ' w).isSome) : Option.Rel (Traced N N' ks κ κ' w) (κ w) (κ' w) := by
  cases hx : κ w with
  | none =>
    rw [hx, Option.isSome_none, eq_comm, Option.isSome_eq_false_iff, Option.isNone_iff_eq_none] at h
    rw [h]
    exact .none
  | some x =>
    rw [hx, Option.isSome_some, eq_comm, Option.isSome_iff_exists] at h
    obtain ⟨y, hy⟩ := h
    rw [hy]
    exact .some (.nil hx hy)

theorem rel_mono {R R' : C → D → Prop} {x : Option C} {y : Option D} (h : Option.Rel R x y) (hR : ∀ x y, R x y → R' x y) :
    Option.Rel R' x y := by
  cases h with
  | none => exact .none
  | some h => exact .some (hR _ _ h)

/-- **Two searches through a pattern go the same way**, whatever they note, if captures are neither
nested nor repeated. -/
theorem eval_traced (p : Pattern S K) (honce : p.Once) (hκ : ∀ rest, (κ rest).isSome = (κ' rest).isSome) :
    Option.Rel (Traced N N' p.labels κ κ' w) (p.eval mem N κ w) (p.eval mem N' κ' w) := by
  induction p generalizing κ κ' w with
  | empty => exact rel_nil (hκ w)
  | never => exact .none
  | symbol s =>
    rcases w with _ | ⟨c, w⟩
    · exact .none
    · have hhere : Option.Rel (Traced N N' [] κ κ' w) (κ w) (κ' w) := rel_nil (hκ w)
      exact rel_ite fun _ => rel_mono hhere fun x y h => h.of_suffix (List.suffix_cons c w)
  | seq a b iha ihb =>
    refine rel_mono (iha honce.1 fun rest => isSome_of_rel (ihb honce.2 hκ)) fun x y h => ?_
    exact h.append fun rest _ => ihb honce.2 hκ
  | alt a b iha ihb =>
    refine rel_or (rel_mono (iha honce.1 hκ) fun x y h => ?_) (rel_mono (ihb honce.2 hκ) fun x y h => ?_)
    · exact h.mono (List.sublist_append_left _ _)
    · exact h.mono (List.sublist_append_right _ _)
  | rep least most a ih =>
    obtain ⟨hlabels, honce⟩ : a.labels = [] ∧ a.Once := honce
    have hloop : ∀ fuel count w, Option.Rel (Traced N N' [] κ κ' w) (iterate (a.eval mem N) least most κ fuel count w)
        (iterate (a.eval mem N') least most κ' fuel count w) := by
      intro fuel
      induction fuel with
      | zero => exact fun _ _ => .none
      | succ fuel ihf =>
        intro count w
        refine rel_or (rel_ite fun _ => ?_) (rel_ite fun _ => rel_nil (hκ w))
        -- what may follow the body
        have hnext : ∀ rest, Option.Rel (Traced N N' [] κ κ' rest)
            (if rest.length = w.length then if least ≤ count + 1 then κ rest else none
              else iterate (a.eval mem N) least most κ fuel (count + 1) rest)
            (if rest.length = w.length then if least ≤ count + 1 then κ' rest else none
              else iterate (a.eval mem N') least most κ' fuel (count + 1) rest) := by
          intro rest
          split_ifs
          · exact rel_nil (hκ rest)
          · exact .none
          · exact ihf _ _
        refine rel_mono (ih honce fun rest => isSome_of_rel (hnext rest)) fun x y h => ?_
        have happend := h.append fun rest _ => hnext rest
        rwa [hlabels] at happend
    have hall := hloop (w.length + 1) 0 w
    exact rel_mono hall fun x y h => h.mono (List.nil_sublist _)
  | capture k a ih =>
    obtain ⟨hlabels, honce⟩ : a.labels = [] ∧ a.Once := honce
    refine rel_map (ih honce fun rest => ?_) fun x y h => ?_
    · rw [Option.isSome_map, Option.isSome_map]
      exact hκ rest
    · obtain ⟨l, rest, x₁, y₁, hrest, hx, hy, rfl, rfl, hsub, -⟩ := h
      obtain ⟨x', hx', rfl⟩ := Option.map_eq_some_iff.mp hx
      obtain ⟨y', hy', rfl⟩ := Option.map_eq_some_iff.mp hy
      rw [hlabels, List.sublist_nil, List.map_eq_nil_iff] at hsub
      subst hsub
      refine ⟨[⟨k, w, rest⟩], rest, x', y', hrest, hx', hy', rfl, rfl, ?_, ?_⟩
      · exact List.singleton_sublist.mpr List.mem_cons_self
      · rintro s hs
        obtain rfl := List.mem_singleton.mp hs
        exact ⟨hrest, List.suffix_refl w⟩

end Pattern

end FtIrc
