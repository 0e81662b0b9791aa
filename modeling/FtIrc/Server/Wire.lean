import FtIrc.Server.FileTransfer
import Mathlib.Data.List.TakeWhile

/-!
# Reading what was sent

What a client makes of the lines it gets. It splits them at the spaces
(`FtIrc.words`), the first word being who speaks and the second what is said
(`FtIrc.Says`), and finds among them the announcements of the FILE extension
(`FtIrc.readFile`).

A message is cut to the length of a line before it is sent (`FtIrc.wire`). Who
speaks and what is said survive the cut, since the names of clients are short.
-/

namespace FtIrc

variable [Libcpp]

/-! ### Words -/

/-- The words of a line. -/
def words (w : Str) : List Str := w.splitOn SPACE

variable {s t w source verb : Str}

omit [Libcpp] in
/-- A word at the front of a line is its first. -/
theorem words_cons (h : IsWord s) : words (s ++ SPACE :: t) = s :: words t :=
  List.splitOn_append_cons_self_of_not_mem (fun hc => h _ hc rfl) t

omit [Libcpp] in
/-- A single word. -/
theorem words_single (h : IsWord s) : words s = [s] := by
  rw [words, List.splitOn]
  exact List.splitOnP_eq_singleton fun c hc => by simpa using h c hc

/-- **Who speaks, and what is said.** -/
structure Says (source verb w : Str) : Prop where
  speaker : IsWord source
  spoken : IsWord verb
  short : source.length + verb.length + 2 ≤ MAX_MSGLEN - 2
  rest : ∃ rest, w = source ++ SPACE :: (verb ++ SPACE :: rest)

namespace Says

omit [Libcpp] in
/-- More may be said. -/
theorem append (h : Says source verb w) : Says source verb (w ++ t) := by
  obtain ⟨rest, rfl⟩ := h.rest
  exact { h with rest := ⟨rest ++ t, by simp⟩ }

omit [Libcpp] in
/-- The cut leaves who speaks and what is said. -/
theorem wire (h : Says source verb w) : Says source verb (wire w) := by
  obtain ⟨rest, rfl⟩ := h.rest
  rw [FtIrc.wire]
  split_ifs
  · refine { h with rest := ⟨rest.take (MAX_MSGLEN - 2 - (source.length + verb.length + 2)), ?_⟩ }
    have hshort := h.short
    obtain ⟨k, hk⟩ := Nat.exists_eq_add_of_le hshort
    rw [hk, show source.length + verb.length + 2 + k - (source.length + verb.length + 2) = k by omega,
      show source.length + verb.length + 2 + k = source.length + (verb.length + (k + 1) + 1) by omega,
      List.take_length_add_append, List.take_succ_cons, List.take_length_add_append,
      List.take_succ_cons]
  · exact h

omit [Libcpp] in
theorem words (h : Says source verb w) : ∃ rest, FtIrc.words w = source :: verb :: FtIrc.words rest := by
  obtain ⟨rest, rfl⟩ := h.rest
  exact ⟨rest, by rw [words_cons h.speaker, words_cons h.spoken]⟩

end Says

/-! ### Literals in a line -/

/-- The verb of a literal that stands between a name and what is said. -/
def verbOf (x : String) : Str := ((str x).drop 1).takeWhile fun c => decide (c ≠ SPACE)

/-- A literal that holds a verb, with a space before it and one behind. -/
def HasVerb (x : String) : Prop :=
  (verbOf x).length ≤ 8 ∧ SPACE :: (verbOf x ++ [SPACE]) <+: str x

instance : DecidablePred HasVerb := fun x =>
  inferInstanceAs (Decidable ((verbOf x).length ≤ 8 ∧ SPACE :: (verbOf x ++ [SPACE]) <+: str x))

omit [Libcpp] in
/-- A line with a name in front and a verb behind it. -/
theorem says_name {pre : Str} {x : String} (hpre : IsWord pre) (hlen : pre.length ≤ 40)
    (hx : HasVerb x) : Says (COLON :: pre) (verbOf x) (str ":" ++ pre ++ str x) where
  speaker := IsWord.cons_iff.mpr ⟨by decide, hpre⟩
  spoken c hc :=
    of_decide_eq_true (List.mem_takeWhile_imp (p := fun c => decide (c ≠ SPACE)) hc)
  short := by
    have := hx.1
    simp only [List.length_cons, MAX_MSGLEN]
    omega
  rest := by
    obtain ⟨rest, hrest⟩ := hx.2
    exact ⟨rest, by rw [← hrest, show str ":" = [COLON] from rfl]; simp⟩

/-! ### The announcements of the FILE extension -/

/-- What the parties of a transfer are told of it. -/
inductive FileWord
  | offer
  | ok
  | no
  | data
  | finish
  | abort
  deriving DecidableEq

/-- The words of `FILE` lines, with how much follows the identifier. -/
def fileWords : List (Str × FileWord × ℕ) :=
  [(str "OFFER", .offer, 2), (str "OK", .ok, 0), (str "NO", .no, 0), (str "DATA", .data, 1),
    (str "END", .finish, 1)]

/-- **A line read as an announcement about a transfer**, with the identifier it
names: a `FILE` line of a client, or a notice of the server that a transfer was
aborted. -/
def readFile (w : Str) : Option (FileWord × ℤ) :=
  match words w with
  | source :: verb :: kind :: rest =>
    if verb = str "FILE" then
      match fileWords.lookup kind, rest with
      | some (word, more), id :: rest =>
        if rest.length = more then (signedValue id).map fun id => (word, id) else none
      | _, _ => none
    else if source = str ":ft_irc" ∧ verb = str "NOTICE" then
      match rest with
      | file :: kind :: id :: _ :: _ =>
        if file = str ":FILE" ∧ kind = str "ABRT" then
          (signedValue id).map fun id => (.abort, id)
        else none
      | _ => none
    else none
  | _ => none

/-- A line of a client about a transfer. -/
def IsFileLine (w : Str) : Prop := ∃ source rest, words w = source :: str "FILE" :: rest

/-- A line about a transfer, from a client or from the server. -/
def announces (w : Str) : Bool :=
  decide ((words w)[1]? = some (str "FILE")) || (readFile w).isSome

/-- A message that announces nothing about a transfer. -/
def Quiet (msg : Str) : Prop := announces (wire msg) = false

instance : DecidablePred Quiet := fun msg => inferInstanceAs (Decidable (announces (wire msg) = false))

omit [Libcpp] in
/-- Nothing is announced but by a `FILE` line or a notice of the server. -/
theorem Says.quiet (h : Says source verb w) (hverb : verb ≠ str "FILE")
    (hnotice : verb = str "NOTICE" → source ≠ str ":ft_irc") : Quiet w := by
  obtain ⟨rest, hrest⟩ := h.wire.words
  have hread : readFile (FtIrc.wire w) = none := by
    rw [readFile, hrest]
    rcases FtIrc.words rest with _ | ⟨kind, rest⟩
    · rfl
    · dsimp only
      rw [if_neg hverb, if_neg fun hs => hnotice hs.2 hs.1]
  rw [Quiet, announces, hread, hrest]
  simp [hverb]

end FtIrc
