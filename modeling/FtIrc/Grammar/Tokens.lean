import FtIrc.Octets
import Mathlib.Data.List.TakeWhile

/-!
# The tokens of a line

What a line says behind its command, by the protocol (`FtIrc.tokens`): words with spaces
between them, however many, and behind a colon the rest of the line, spaces and all. Only
so many words are middle parameters; what is behind them is one more parameter, whether
there is a colon or not.

All parameters but the last are middle ones (`FtIrc.isMiddle_of_mem_tokens`), and middle
parameters written with a space before each are read back (`FtIrc.tokens_spaced`).
-/

namespace FtIrc

/-- **A middle parameter**: a word that does not begin with a colon. -/
structure IsMiddle (w : Str) : Prop where
  ne_nil : w ≠ []
  word : IsWord w
  head : w.head? ≠ some COLON

instance : DecidablePred IsMiddle := fun w =>
  decidable_of_iff (w ≠ [] ∧ IsWord w ∧ w.head? ≠ some COLON)
    ⟨fun h => ⟨h.1, h.2.1, h.2.2⟩, fun h => ⟨h.1, h.2, h.3⟩⟩

/-- What is left of a text behind the spaces it begins with. -/
def skipSpaces (text : Str) : Str := text.dropWhile (· == SPACE)

/-- **The parameters of a line**, of which so many may be middle ones. -/
def tokens : ℕ → Str → List Str
  | 0, text =>
    match skipSpaces text with
    | [] => []
    | c :: rest => [if c = COLON then rest else c :: rest]
  | n + 1, text =>
    match skipSpaces text with
    | [] => []
    | c :: rest =>
      if c = COLON then [rest]
      else (c :: rest).takeWhile (· != SPACE) :: tokens n ((c :: rest).dropWhile (· != SPACE))

/-- Words with a space before each. -/
def spaced (ws : List Str) : Str := ws.flatMap fun w => SPACE :: w

variable {n : ℕ} {text w : Str} {ws : List Str}

@[simp] theorem spaced_nil : spaced [] = [] := rfl

@[simp] theorem spaced_cons : spaced (w :: ws) = SPACE :: (w ++ spaced ws) := rfl

theorem skipSpaces_space : skipSpaces (SPACE :: text) = skipSpaces text :=
  List.dropWhile_cons_of_pos (by decide)

theorem IsMiddle.skipSpaces (h : IsMiddle w) (text : Str) : skipSpaces (w ++ text) = w ++ text := by
  obtain ⟨c, w, rfl⟩ := List.exists_cons_of_ne_nil h.ne_nil
  rw [FtIrc.skipSpaces, List.cons_append, List.dropWhile_cons_of_neg]
  simpa using h.word c List.mem_cons_self

/-- Behind the spaces something else comes. -/
theorem ne_space_of_skipSpaces {c : Octet} {rest : Str} (h : skipSpaces text = c :: rest) :
    c ≠ SPACE := by
  have hhead := List.head?_dropWhile_not (· == SPACE) text
  rw [← skipSpaces, h] at hhead
  simpa using hhead

/-- There is at most one parameter more than there are middle ones. -/
theorem length_tokens_le : (tokens n text).length ≤ n + 1 := by
  induction n generalizing text with
  | zero =>
    rw [tokens]
    rcases skipSpaces text with _ | ⟨c, rest⟩ <;> simp
  | succ n ih =>
    rw [tokens]
    rcases skipSpaces text with _ | ⟨c, rest⟩
    · simp
    · dsimp only
      split_ifs
      · simp
      · exact Nat.succ_le_succ ih

/-- **All parameters but the last are middle ones.** -/
theorem isMiddle_of_mem_tokens (h : w ∈ (tokens n text).dropLast) : IsMiddle w := by
  induction n generalizing text with
  | zero =>
    rw [tokens] at h
    rcases hskip : skipSpaces text with _ | ⟨c, rest⟩ <;> rw [hskip] at h
    · exact absurd h List.not_mem_nil
    · exact absurd h List.not_mem_nil
  | succ n ih =>
    rw [tokens] at h
    rcases hskip : skipSpaces text with _ | ⟨c, rest⟩ <;> rw [hskip] at h
    · exact absurd h List.not_mem_nil
    dsimp only at h
    have hspace := ne_space_of_skipSpaces hskip
    split_ifs at h with hcolon
    · exact absurd h List.not_mem_nil
    · rcases hmore : tokens n ((c :: rest).dropWhile (· != SPACE)) with _ | ⟨v, more⟩
      · rw [hmore] at h
        exact absurd h List.not_mem_nil
      rw [hmore, List.dropLast_cons_of_ne_nil (List.cons_ne_nil _ _), ← hmore] at h
      rcases List.mem_cons.mp h with rfl | h
      · have hcons : (c :: rest).takeWhile (· != SPACE) = c :: rest.takeWhile (· != SPACE) :=
          List.takeWhile_cons_of_pos (by simpa using hspace)
        refine ⟨by simp [hcons], fun d hd => ?_, by simp [hcons, hcolon]⟩
        simpa using List.mem_takeWhile_imp hd
      · exact ih h

/-- A middle parameter is read behind a space, and up to the next. -/
theorem tokens_middle (h : IsMiddle w) (htext : text.head? ∈ [none, some SPACE]) :
    tokens (n + 1) (SPACE :: (w ++ text)) = w :: tokens n text := by
  obtain ⟨c, v, rfl⟩ := List.exists_cons_of_ne_nil h.ne_nil
  have hcolon : c ≠ COLON := fun hc => h.head (by rw [hc]; rfl)
  have hall : ∀ d ∈ c :: v, (d != SPACE) = true := fun d hd => by simpa using h.word d hd
  have hstop : text.takeWhile (· != SPACE) = [] ∧ text.dropWhile (· != SPACE) = text := by
    rcases text with _ | ⟨d, text⟩
    · exact ⟨rfl, rfl⟩
    · obtain rfl : d = SPACE := by simpa using htext
      exact ⟨rfl, rfl⟩
  rw [tokens, skipSpaces_space, h.skipSpaces text, List.cons_append]
  dsimp only
  rw [if_neg hcolon, ← List.cons_append, List.takeWhile_append_of_pos hall, hstop.1, List.append_nil,
    List.dropWhile_append_of_pos hall, hstop.2]

/-- Where no more middle parameters are allowed, the rest is read as one. -/
theorem tokens_zero_middle (h : IsMiddle w) : tokens 0 (SPACE :: w) = [w] := by
  obtain ⟨c, v, rfl⟩ := List.exists_cons_of_ne_nil h.ne_nil
  have hcolon : c ≠ COLON := fun hc => h.head (by rw [hc]; rfl)
  have hskip := h.skipSpaces []
  rw [List.append_nil] at hskip
  rw [tokens, skipSpaces_space, hskip]
  dsimp only
  rw [if_neg hcolon]

/-- **Middle parameters written with a space before each** are read back, and what is
behind them is read on. -/
theorem tokens_spaced_append (text : Str) (h : ∀ w ∈ ws, IsMiddle w) (hlen : ws.length ≤ n)
    (htext : text.head? ∈ [none, some SPACE]) :
    tokens n (spaced ws ++ text) = ws ++ tokens (n - ws.length) text := by
  induction ws generalizing n with
  | nil => rfl
  | cons w ws ih =>
    obtain ⟨n, rfl⟩ : ∃ m, n = m + 1 := ⟨n - 1, by simp at hlen; omega⟩
    have hrest : (spaced ws ++ text).head? ∈ [none, some SPACE] := by
      rcases ws with _ | ⟨v, ws⟩
      · exact htext
      · simp
    rw [spaced_cons, List.cons_append, List.append_assoc, tokens_middle (h w List.mem_cons_self) hrest,
      ih (fun v hv => h v (List.mem_cons_of_mem w hv)) (by simp at hlen; omega), List.length_cons,
      Nat.add_sub_add_right, List.cons_append]

theorem tokens_nil : tokens n [] = [] := by cases n <;> rfl

/-- Middle parameters are read back also if there is one more of them. -/
theorem tokens_spaced (h : ∀ w ∈ ws, IsMiddle w) (hlen : ws.length ≤ n + 1) :
    tokens n (spaced ws) = ws := by
  by_cases hle : ws.length ≤ n
  · have hread := tokens_spaced_append [] h hle (by simp)
    rwa [List.append_nil, tokens_nil, List.append_nil] at hread
  · have hne : ws ≠ [] := by
      rintro rfl
      exact hle (Nat.zero_le n)
    obtain ⟨init, w, rfl⟩ : ∃ init w, ws = init ++ [w] :=
      ⟨ws.dropLast, ws.getLast hne, (List.dropLast_append_getLast hne).symm⟩
    rw [List.length_append, List.length_singleton] at hlen hle
    obtain rfl : n = init.length := by omega
    have hread := tokens_spaced_append (SPACE :: w)
      (fun v hv => h v (List.mem_append_left _ hv)) le_rfl (by simp)
    have hspaced : spaced (init ++ [w]) = spaced init ++ SPACE :: w := by simp [spaced]
    rw [Nat.sub_self, tokens_zero_middle (h w (by simp))] at hread
    rw [hspaced, hread]

end FtIrc
