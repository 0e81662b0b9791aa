import FtIrc.Grammar.Syntax

/-!
# The fuel of the parsers

A parser that is given four times as much fuel as there are octets, and a little more, does not
run out of it (`FtIrc.Abnf.parseAlternation_fuel`): between two calls at the same place it goes
down through at most the four levels, and whatever is read makes the text shorter
(`FtIrc.Abnf.shortens`).
-/

namespace FtIrc

namespace Abnf

variable {num : Numbers} {k : ℕ} {s s' : Str} {g g' : Grammar} {out : ℕ}

theorem bind_ne_error {α β : Type} {x : Except Str α} {f : α → Except Str β} (hx : x ≠ .error [])
    (hf : ∀ a, x = .ok a → f a ≠ .error []) : (x >>= f) ≠ .error [] := by
  cases x with
  | error e => exact fun h => hx (congrArg Except.error (Except.error.inj h))
  | ok a => exact hf a rfl

theorem error_ne {α : Type} {message : Str} (h : message ≠ []) : (Except.error message : Except Str α) ≠ .error [] :=
  fun he => h (Except.error.inj he)

theorem ok_ne {α : Type} {a : α} : (Except.ok a : Except Str α) ≠ .error [] := by simp

theorem parseClose_fuel {close : Octet} {message : String} (h : str message ≠ []) :
    parseClose close message s ≠ .error [] := by
  rw [parseClose]
  split_ifs
  · exact ok_ne
  · exact error_ne h

theorem parseUpper_fuel {low : ℤ} : parseUpper num low s ≠ .error [] := by
  rw [parseUpper]
  dsimp only
  split_ifs <;> first | exact error_ne (by decide) | exact ok_ne

theorem parseBounds_fuel : parseBounds num s ≠ .error [] := by
  rw [parseBounds]
  dsimp only
  split_ifs <;> first | exact error_ne (by decide) | exact ok_ne

theorem parsePieces_fuel {ids : List ℕ} (hk : s.length < k) : parsePieces num k s g ids ≠ .error [] := by
  induction k generalizing s g ids with
  | zero => omega
  | succ k ih =>
    rw [parsePieces]
    dsimp only
    split_ifs with hnone
    · exact error_ne (by decide)
    · refine bind_ne_error parseUpper_fuel fun read hupper => ?_
      obtain ⟨high, rest⟩ := read
      obtain ⟨upper, hspell, -⟩ := parseUpper_eq_ok_iff.mp hupper
      have hlt := length_lt_of_takeWhile hnone
      have hle := length_spellUpper_le hspell
      dsimp only
      split_ifs with hdot
      · refine ih ?_
        rw [List.length_tail]
        omega
      · exact ok_ne

theorem parseNumericValue_fuel : parseNumericValue num s g ≠ .error [] := by
  rw [parseNumericValue]
  split_ifs
  · refine bind_ne_error (parsePieces_fuel ?_) fun _ _ => ok_ne
    rw [List.length_tail]
    omega
  · exact error_ne (by decide)

/-- The parsers of all levels do not run out of so much fuel. -/
structure Fueled (num : Numbers) (k : ℕ) : Prop where
  element : ∀ {s g}, 4 * s.length + 1 ≤ k → parseElement num k s g ≠ .error []
  repetition : ∀ {s g}, 4 * s.length + 2 ≤ k → parseRepetition num k s g ≠ .error []
  concatenation : ∀ {s g ids}, 4 * s.length + 3 ≤ k → parseConcatenation num k s g ids ≠ .error []
  alternation : ∀ {s g ids}, 4 * s.length + 4 ≤ k → parseAlternation num k s g ids ≠ .error []

theorem Fueled.element_succ (ih : Fueled num k) (hk : 4 * s.length + 1 ≤ k + 1) :
    parseElement num (k + 1) s g ≠ .error [] := by
  have hskip := length_skipBlanks_le s
  rw [parseElement]
  rcases hs : skipBlanks s with _ | ⟨c, rest⟩
  · exact error_ne (by decide)
  rw [hs, List.length_cons] at hskip
  have hinner : parseAlternation num k rest g [] ≠ .error [] := ih.alternation (by omega)
  dsimp only
  split_ifs
  · exact bind_ne_error hinner fun _ _ => bind_ne_error (parseClose_fuel (by decide)) fun _ _ => ok_ne
  · exact bind_ne_error hinner fun _ _ => bind_ne_error (parseClose_fuel (by decide)) fun _ _ => ok_ne
  · rcases rest.dropWhile (· != QUOTE) with _ | ⟨q, s₁⟩
    · exact error_ne (by decide)
    · exact ok_ne
  · exact parseNumericValue_fuel
  · exact ok_ne
  · exact error_ne (by decide)
  · exact ok_ne
  · exact error_ne (by simp [str])

theorem Fueled.repetition_succ (ih : Fueled num k) (hk : 4 * s.length + 2 ≤ k + 1) :
    parseRepetition num (k + 1) s g ≠ .error [] := by
  have hskip := length_skipBlanks_le s
  have hle := length_spellBounds_le (skipBlanks s)
  rw [parseRepetition]
  refine bind_ne_error parseBounds_fuel fun read hbounds => ?_
  obtain ⟨bounds, s₁⟩ := read
  obtain ⟨rfl, -⟩ := parseBounds_eq_ok_iff.mp hbounds
  refine bind_ne_error (ih.element (by omega)) fun _ _ => ?_
  cases bounds with
  | none => exact ok_ne
  | some bounds => exact ok_ne

theorem Fueled.concatenation_succ (ih : Fueled num k) {ids : List ℕ} (hk : 4 * s.length + 3 ≤ k + 1) :
    parseConcatenation num (k + 1) s g ids ≠ .error [] := by
  have hskip := length_skipBlanks_le s
  rw [parseConcatenation]
  dsimp only
  split_ifs
  · exact error_ne (by decide)
  · exact ok_ne
  · refine bind_ne_error (ih.repetition (by omega)) fun parsed hpart => ?_
    obtain ⟨part, s₁, g₁⟩ := parsed
    obtain ⟨b, hspell, -⟩ := (parsesTrees num k).repetition.mp hpart
    have hlt := (shortens k).repetition hspell
    exact ih.concatenation (show 4 * s₁.length + 3 ≤ k by omega)

theorem Fueled.alternation_succ (ih : Fueled num k) {ids : List ℕ} (hk : 4 * s.length + 4 ≤ k + 1) :
    parseAlternation num (k + 1) s g ids ≠ .error [] := by
  rw [parseAlternation]
  refine bind_ne_error (ih.concatenation (by omega)) fun parsed hbranch => ?_
  obtain ⟨branch, s₁, g₁⟩ := parsed
  obtain ⟨bs, made, hspell, hmade, hne, -⟩ := (parsesTrees num k).concatenation.mp hbranch
  have hparts : bs ≠ [] := by
    rintro rfl
    rw [writeAll] at hmade
    obtain rfl := Option.some.inj hmade
    exact hne rfl
  have hlt := ((shortens k).concatenation hspell).2 hparts
  have hskip := length_skipBlanks_le s₁
  dsimp only
  split_ifs
  · refine ih.alternation ?_
    rw [List.length_tail]
    omega
  · exact ok_ne

theorem fueled (num : Numbers) (k : ℕ) : Fueled num k := by
  induction k with
  | zero => exact ⟨fun h => by omega, fun h => by omega, fun h => by omega, fun h => by omega⟩
  | succ k ih => exact ⟨ih.element_succ, ih.repetition_succ, ih.concatenation_succ, ih.alternation_succ⟩

/-- **The fuel of a rule body does not run out.** -/
theorem parseAlternation_fuel {ids : List ℕ} : parseAlternation num (parseFuel s) s g ids ≠ .error [] :=
  (fueled num _).alternation (by rw [parseFuel]; omega)

end Abnf

end FtIrc
