import FtIrc.Server.Ages

/-!
# What is announced of transfers

The lines about a transfer are the only ones a client takes for such
(`FtIrc.announces`), and each of them is read as what it was meant for, even when it was
cut (`FtIrc.Announces`). A step that says nothing of transfers and does nothing to them
leaves the table, the announcements and the parties as they are
(`FtIrc.Server.Quietly`).
-/

namespace FtIrc

variable [Libcpp]

variable {w x y pre nick text source kind : Str} {rest : List Str} {word : FileWord} {id : ℤ}

/-! ### Lines that were cut -/

section Cut

omit [Libcpp]

/-- **The cut falls behind what is short.** -/
theorem wire_append (h : w.length ≤ MAX_MSGLEN - 2) (x : Str) :
    wire (w ++ x) = w ++ x.take (MAX_MSGLEN - 2 - w.length) := by
  rw [wire]
  split_ifs with hlong
  · rw [List.take_append, List.take_of_length_le h]
  · rw [List.length_append] at hlong
    rw [List.take_of_length_le (show x.length ≤ MAX_MSGLEN - 2 - w.length by omega)]

/-- Cutting behind a word and a space. -/
theorem words_take_of_lt (h : IsWord w) {k : ℕ} (hk : w.length < k) :
    words ((w ++ SPACE :: x).take k) = w :: words (x.take (k - (w.length + 1))) := by
  obtain ⟨j, rfl⟩ := Nat.exists_eq_add_of_lt hk
  rw [show w.length + j + 1 - (w.length + 1) = j by omega,
    show w.length + j + 1 = w.length + (j + 1) by omega, List.take_length_add_append,
    List.take_succ_cons, words_cons h]

/-- Cutting behind a word and a space, or in the word. -/
theorem words_take (h : IsWord w) (x : Str) (k : ℕ) :
    words ((w ++ SPACE :: x).take k) = [w.take k] ∨
      words ((w ++ SPACE :: x).take k) = w :: words (x.take (k - (w.length + 1))) := by
  by_cases hk : k ≤ w.length
  · rw [List.take_append_of_le_length hk]
    exact Or.inl (words_single (h.of_subset (List.take_subset k w)))
  · exact Or.inr (words_take_of_lt h (not_le.mp hk))

/-- A word that is cut is one. -/
theorem words_take_single (h : IsWord w) (k : ℕ) : words (w.take k) = [w.take k] :=
  words_single (h.of_subset (List.take_subset k w))

theorem words_ne_nil (w : Str) : words w ≠ [] := List.splitOnP_ne_nil _ _

/-- A line begins with its first two words, each with a space behind it. -/
theorem prefix_of_words {a b c : Str} (h : words w = a :: b :: c :: rest) :
    a ++ SPACE :: (b ++ [SPACE]) <+: w := by
  have hjoin : [SPACE].intercalate (words w) = w := List.intercalate_splitOn SPACE
  refine ⟨[SPACE].intercalate (c :: rest), ?_⟩
  conv_rhs => rw [← hjoin, h]
  simp [List.intercalate_cons_of_ne_nil]

end Cut

/-! ### Reading an announcement -/

/-- **A line that tells this of the transfer, if it can be read at all**: what was cut too
short is read as nothing. -/
def Announces (w : Str) (word : FileWord) (id : ℤ) : Prop :=
  readFile w = none ∨ readFile w = some (word, id)

/-- A line that carries a chunk of a file. -/
def IsDataLine (w : Str) : Prop := ∃ source rest, words w = source :: str "FILE" :: str "DATA" :: rest

section Reading

omit [Libcpp]

variable {more : ℕ}

/-- A `FILE` line with too few words is not read. -/
theorem readFile_of_short (h : words w = source :: str "FILE" :: kind :: rest)
    (hkind : fileWords.lookup kind = some (word, more)) (hlen : rest.length ≤ more) :
    readFile w = none := by
  rw [readFile]
  simp only [h, if_true, hkind]
  rcases rest with _ | ⟨x, rest⟩
  · rfl
  · exact if_neg (by rw [List.length_cons] at hlen; omega)

/-- A `FILE` line with all its words is read. -/
theorem readFile_of_words (h : words w = source :: str "FILE" :: kind :: x :: rest)
    (hkind : fileWords.lookup kind = some (word, more)) (hlen : rest.length = more)
    (hid : signedValue x = some id) : readFile w = some (word, id) := by
  rw [readFile]
  simp only [h, if_true, hkind, hlen, hid]
  rfl

/-- A literal between the name of a client and what it announces. -/
def IsFileLiteral (x : String) (kind : Str) : Prop :=
  IsWord kind ∧ kind.length ≤ 6 ∧ str x = SPACE :: (str "FILE" ++ SPACE :: (kind ++ [SPACE]))

instance (x : String) (kind : Str) : Decidable (IsFileLiteral x kind) :=
  inferInstanceAs (Decidable (_ ∧ _))

variable {lit : String}

/-- A `FILE` line is cut behind its third word. -/
theorem words_fileLine (hlit : IsFileLiteral lit kind) (hpre : IsWord pre ∧ pre.length ≤ 36)
    (x : Str) : ∃ k, 455 ≤ k ∧
      words (wire (str ":" ++ pre ++ str lit ++ x)) =
        (COLON :: pre) :: str "FILE" :: kind :: words (x.take k) := by
  obtain ⟨hkind, hlen, hlit⟩ := hlit
  have hshort : (str ":" ++ pre ++ str lit).length ≤ MAX_MSGLEN - 2 - 455 := by
    have := hpre.2
    simp only [hlit, List.length_append, List.length_cons, List.length_nil, MAX_MSGLEN,
      show (str ":").length = 1 from rfl, show (str "FILE").length = 4 from rfl]
    omega
  refine ⟨MAX_MSGLEN - 2 - (str ":" ++ pre ++ str lit).length, ?_, ?_⟩
  · rw [MAX_MSGLEN] at hshort ⊢
    omega
  · rw [wire_append (hshort.trans (by decide)), hlit]
    have hwords : ∀ tail : Str, str ":" ++ pre ++ SPACE :: (str "FILE" ++ SPACE :: (kind ++ [SPACE])) ++ tail =
        (COLON :: pre) ++ SPACE :: (str "FILE" ++ SPACE :: (kind ++ SPACE :: tail)) := fun tail => by
      simp [show str ":" = [COLON] from rfl]
    have hsource : IsWord (COLON :: pre) := IsWord.cons_iff.mpr ⟨by decide, hpre.1⟩
    rw [hwords, words_cons hsource, words_cons (show IsWord (str "FILE") by decide), words_cons hkind]

/-- A line of another kind carries no chunk. -/
theorem not_isDataLine (h : words w = source :: str "FILE" :: kind :: rest)
    (hkind : kind ≠ str "DATA") : ¬IsDataLine w := by
  rintro ⟨source', rest', h'⟩
  rw [h] at h'
  simp only [List.cons.injEq] at h'
  exact hkind h'.2.2.1

end Reading

/-! ### The lines of the extension -/

section Lines

/-- A number is printed as a word, and read back. -/
theorem isWord_toDecimal (n : ℤ) : IsWord (Libcpp.toDecimal n) := by
  rw [Libcpp.toDecimal_eq]
  exact .signedDecimal n

theorem signedValue_toDecimal (h : 0 ≤ id) : signedValue (Libcpp.toDecimal id) = some id := by
  rw [Libcpp.toDecimal_eq]
  exact signedValue_signedDecimal h

/-- What fits into a `long` has nineteen digits at most. -/
theorem length_toDecimal_le {k : ℕ} (h : 0 ≤ id) (hk : id < 10 ^ (k + 1)) :
    (Libcpp.toDecimal id).length ≤ k + 1 := by
  have hnat : id.natAbs < 10 ^ (k + 1) := by
    rw [← Int.natAbs_of_nonneg h] at hk
    exact_mod_cast hk
  rw [Libcpp.toDecimal_eq, signedDecimal, if_neg (by omega)]
  exact length_decimal_le_of_lt hnat

variable (hpre : IsWord pre ∧ pre.length ≤ 36)

section File

include hpre

/-- **An offer**: who makes it, the identifier, the file and its size. -/
theorem announces_offer (hid : 0 ≤ id) {file : Str} (hfile : IsWord file) (size : ℤ) :
    Announces (wire (str ":" ++ pre ++ str " FILE OFFER " ++
      (Libcpp.toDecimal id ++ SPACE :: (file ++ SPACE :: Libcpp.toDecimal size)))) .offer id := by
  have hlit : IsFileLiteral " FILE OFFER " (str "OFFER") := by decide
  obtain ⟨k, -, hk⟩ := words_fileLine hlit hpre (Libcpp.toDecimal id ++ SPACE :: (file ++ SPACE :: Libcpp.toDecimal size))
  have hlookup : fileWords.lookup (str "OFFER") = some (.offer, 2) := by decide
  rcases words_take (isWord_toDecimal id) (file ++ SPACE :: Libcpp.toDecimal size) k with h | h <;>
    rw [h] at hk
  · exact Or.inl (readFile_of_short hk hlookup (by simp))
  rcases words_take hfile (Libcpp.toDecimal size) (k - ((Libcpp.toDecimal id).length + 1)) with h | h <;>
    rw [h] at hk
  · exact Or.inl (readFile_of_short hk hlookup (by simp))
  · rw [words_take_single (isWord_toDecimal size)] at hk
    exact Or.inr (readFile_of_words hk hlookup rfl (signedValue_toDecimal hid))

/-- An offer under a number that fits into a `long` is read. -/
theorem readFile_offer (hid : 0 ≤ id) (hle : id ≤ LONG_MAX) {file : Str}
    (hfile : IsWord file ∧ file.length ≤ MAX_FILENAME) (size : ℤ) :
    readFile (wire (str ":" ++ pre ++ str " FILE OFFER " ++
      (Libcpp.toDecimal id ++ SPACE :: (file ++ SPACE :: Libcpp.toDecimal size)))) =
        some (.offer, id) := by
  have hlit : IsFileLiteral " FILE OFFER " (str "OFFER") := by decide
  obtain ⟨k, hlong, hk⟩ := words_fileLine hlit hpre (Libcpp.toDecimal id ++ SPACE :: (file ++ SPACE :: Libcpp.toDecimal size))
  have hdigits := length_toDecimal_le (k := 18) hid (hle.trans_lt (by decide))
  have hname := hfile.2
  rw [MAX_FILENAME] at hname
  rw [words_take_of_lt (isWord_toDecimal id) (by omega), words_take_of_lt hfile.1 (by omega),
    words_take_single (isWord_toDecimal size)] at hk
  exact readFile_of_words hk (by decide : fileWords.lookup (str "OFFER") = some (.offer, 2)) rfl
    (signedValue_toDecimal hid)

/-- **An answer**: who gives it, and the identifier. -/
theorem readFile_answer (hlit : IsFileLiteral lit kind) (hlookup : fileWords.lookup kind = some (word, 0)) (hid : 0 ≤ id) (hle : id ≤ LONG_MAX) :
    readFile (wire (str ":" ++ pre ++ str lit ++ Libcpp.toDecimal id)) = some (word, id) := by
  obtain ⟨k, hlong, hk⟩ := words_fileLine hlit hpre (Libcpp.toDecimal id)
  have hdigits := length_toDecimal_le (k := 18) hid (hle.trans_lt (by decide))
  rw [List.take_of_length_le (by omega), words_single (isWord_toDecimal id)] at hk
  exact readFile_of_words hk hlookup rfl (signedValue_toDecimal hid)

omit [Libcpp] in
/-- **What is relayed**: who sends it, the identifier as it was given, and one word. -/
theorem announces_relay (hlit : IsFileLiteral lit kind) (hlookup : fileWords.lookup kind = some (word, 1)) (hx : signedValue x = some id)
    (hy : IsWord y) :
    Announces (wire (str ":" ++ pre ++ str lit ++ (x ++ SPACE :: y))) word id := by
  obtain ⟨k, -, hk⟩ := words_fileLine hlit hpre (x ++ SPACE :: y)
  rcases words_take (.of_signedValue hx) y k with h | h <;> rw [h] at hk
  · exact Or.inl (readFile_of_short hk hlookup (by simp))
  · rw [words_take_single hy] at hk
    exact Or.inr (readFile_of_words hk hlookup rfl hx)

omit [Libcpp] in
/-- No line but one kind carries a chunk. -/
theorem not_isDataLine_of_kind (hlit : IsFileLiteral lit kind) (hne : kind ≠ str "DATA") (x : Str) :
    ¬IsDataLine (wire (str ":" ++ pre ++ str lit ++ x)) := by
  obtain ⟨k, -, hk⟩ := words_fileLine hlit hpre x
  exact not_isDataLine hk hne

end File

/-! ### The notices of the extension -/

section Notice

variable (hnick : IsWord nick ∧ nick.length ≤ MAX_NICKLEN)

include hnick

omit [Libcpp] in
/-- A notice is cut in its text. -/
theorem words_notice (text : Str) : ∃ k, 400 ≤ k ∧
    words (wire (str ":" ++ SERVER_NAME ++ str " " ++ (str "NOTICE " ++ nick ++ str " :" ++ text))) =
      str ":ft_irc" :: str "NOTICE" :: nick :: words (COLON :: text.take k) := by
  have hlen := hnick.2
  rw [MAX_NICKLEN] at hlen
  have hshape : str ":" ++ SERVER_NAME ++ str " " ++ (str "NOTICE " ++ nick ++ str " :" ++ text) =
      (str ":ft_irc NOTICE " ++ nick ++ str " :") ++ text := by
    rw [show str ":ft_irc NOTICE " = str ":" ++ SERVER_NAME ++ str " " ++ str "NOTICE " from by decide]
    simp only [List.append_assoc]
  have hshort : (str ":ft_irc NOTICE " ++ nick ++ str " :").length ≤ 26 := by
    simp only [List.length_append, show (str ":ft_irc NOTICE ").length = 15 from rfl,
      show (str " :").length = 2 from rfl]
    omega
  refine ⟨MAX_MSGLEN - 2 - (str ":ft_irc NOTICE " ++ nick ++ str " :").length, ?_, ?_⟩
  · rw [MAX_MSGLEN]
    omega
  · rw [hshape, wire_append (hshort.trans (by decide))]
    have hwords : ∀ tail : Str, str ":ft_irc NOTICE " ++ nick ++ str " :" ++ tail =
        str ":ft_irc" ++ SPACE :: (str "NOTICE" ++ SPACE :: (nick ++ SPACE :: (COLON :: tail))) :=
      fun tail => by
        rw [show str ":ft_irc NOTICE " = str ":ft_irc" ++ SPACE :: (str "NOTICE" ++ [SPACE]) from by decide]
        simp [show str " :" = [SPACE, COLON] from rfl]
    rw [hwords, words_cons (show IsWord (str ":ft_irc") by decide),
      words_cons (show IsWord (str "NOTICE") by decide), words_cons hnick.1]

omit [Libcpp] in
/-- **A notice is quiet** unless it says that a transfer was aborted. -/
theorem quiet_notice (h : ¬str "FILE ABRT " <+: text) :
    Quiet (str ":" ++ SERVER_NAME ++ str " " ++ (str "NOTICE " ++ nick ++ str " :" ++ text)) := by
  obtain ⟨k, -, hk⟩ := words_notice hnick text
  have hread : readFile (wire (str ":" ++ SERVER_NAME ++ str " " ++
      (str "NOTICE " ++ nick ++ str " :" ++ text))) = none := by
    rw [readFile]
    simp only [hk, show str "NOTICE" ≠ str "FILE" by decide, if_false, and_self, if_true]
    rcases hrest : words (COLON :: text.take k) with _ | ⟨file, _ | ⟨abrt, _ | ⟨i, _ | ⟨z, rest⟩⟩⟩⟩ <;>
      try rfl
    refine if_neg fun hcon => h ?_
    rw [hcon.1, hcon.2] at hrest
    have hpref := prefix_of_words hrest
    rw [show str ":FILE" ++ SPACE :: (str "ABRT" ++ [SPACE]) = COLON :: str "FILE ABRT " by decide,
      List.cons_prefix_cons] at hpref
    exact hpref.2.trans (List.take_prefix k text)
  rw [Quiet, announces, hread, hk]
  rfl

/-- The words of the notice of an abort. -/
theorem words_abort (id : ℤ) (why : Str) : ∃ k, 390 ≤ k ∧
    words (wire (str ":" ++ SERVER_NAME ++ str " " ++ (str "NOTICE " ++ nick ++ str " :" ++
      (str "FILE ABRT " ++ (Libcpp.toDecimal id ++ SPACE :: (COLON :: why)))))) =
        str ":ft_irc" :: str "NOTICE" :: nick :: str ":FILE" :: str "ABRT" ::
          words ((Libcpp.toDecimal id ++ SPACE :: (COLON :: why)).take k) := by
  obtain ⟨k, hlong, hk⟩ := words_notice hnick
    (str "FILE ABRT " ++ (Libcpp.toDecimal id ++ SPACE :: (COLON :: why)))
  have hlit : (str "FILE ABRT ").length = 10 := rfl
  have hcut : COLON :: (str "FILE ABRT " ++ (Libcpp.toDecimal id ++ SPACE :: (COLON :: why))).take k =
      str ":FILE" ++ SPACE :: (str "ABRT" ++ SPACE ::
        (Libcpp.toDecimal id ++ SPACE :: (COLON :: why)).take (k - 10)) := by
    rw [List.take_append, List.take_of_length_le (by omega), hlit,
      show str "FILE ABRT " = str "FILE" ++ SPACE :: (str "ABRT" ++ [SPACE]) from by decide,
      show str ":FILE" = COLON :: str "FILE" from by decide]
    simp
  refine ⟨k - 10, by omega, ?_⟩
  rw [hk, hcut, words_cons (show IsWord (str ":FILE") by decide),
    words_cons (show IsWord (str "ABRT") by decide)]

omit hnick [Libcpp] in
/-- A notice of an abort with all its words is read. -/
theorem readFile_of_abort (h : words w = str ":ft_irc" :: str "NOTICE" :: nick :: str ":FILE" ::
      str "ABRT" :: x :: rest) (hrest : rest ≠ []) (hid : signedValue x = some id) :
    readFile w = some (.abort, id) := by
  obtain ⟨y, rest, rfl⟩ := List.exists_cons_of_ne_nil hrest
  rw [readFile]
  simp only [h, show str "NOTICE" ≠ str "FILE" by decide, if_false, and_self, if_true, hid]
  rfl

/-- **The notice of an abort**: the identifier, and why. -/
theorem announces_abort (hid : 0 ≤ id) (why : Str) :
    Announces (wire (str ":" ++ SERVER_NAME ++ str " " ++ (str "NOTICE " ++ nick ++ str " :" ++
      (str "FILE ABRT " ++ (Libcpp.toDecimal id ++ SPACE :: (COLON :: why)))))) .abort id := by
  obtain ⟨k, -, hk⟩ := words_abort hnick id why
  rcases words_take (isWord_toDecimal id) (COLON :: why) k with h | h <;> rw [h] at hk
  · refine Or.inl ?_
    rw [readFile]
    simp only [hk, show str "NOTICE" ≠ str "FILE" by decide, if_false, and_self, if_true]
  · exact Or.inr (readFile_of_abort hk (words_ne_nil _) (signedValue_toDecimal hid))

/-- An abort of a transfer whose number fits into a `long` is read. -/
theorem readFile_abort (hid : 0 ≤ id) (hle : id ≤ LONG_MAX) (why : Str) :
    readFile (wire (str ":" ++ SERVER_NAME ++ str " " ++ (str "NOTICE " ++ nick ++ str " :" ++
      (str "FILE ABRT " ++ (Libcpp.toDecimal id ++ SPACE :: (COLON :: why)))))) =
        some (.abort, id) := by
  obtain ⟨k, hlong, hk⟩ := words_abort hnick id why
  have hdigits := length_toDecimal_le (k := 18) hid (hle.trans_lt (by decide))
  rw [words_take_of_lt (isWord_toDecimal id) (by omega)] at hk
  exact readFile_of_abort hk (words_ne_nil _) (signedValue_toDecimal hid)

omit [Libcpp] in
/-- No notice carries a chunk. -/
theorem not_isDataLine_notice (text : Str) : ¬IsDataLine (wire (str ":" ++ SERVER_NAME ++ str " " ++
    (str "NOTICE " ++ nick ++ str " :" ++ text))) := by
  rintro ⟨source, rest, h⟩
  obtain ⟨k, -, hk⟩ := words_notice hnick text
  rw [hk] at h
  exact absurd (List.cons.inj (List.cons.inj h).2).1 (by decide)

end Notice

end Lines

/-! ### What was sent -/

/-- What an event says to a client. -/
def Event.spoken : Event → Option (ClientId × Str)
  | outbound q w => some (q, w)
  | _ => none

/-- Nothing is done to transfers, and nothing is said of them. -/
def Op.Silent : Op → Prop
  | send _ msg => Quiet msg
  | offer _ | progress _ _ | drop _ => False
  | _ => True

namespace Server

variable {M : Matcher} {s t u : Server} {p q a b : ClientId} {fd : Fd} {tr : Transfer}

/-- The lines that were sent to clients, newest first. -/
def spoken (s : Server) : List (ClientId × Str) := s.trace.filterMap Event.spoken

@[simp] theorem spoken_queueMessage (w : Str) :
    (s.queueMessage q w).spoken = (q, wire w) :: s.spoken := rfl

@[simp] theorem spoken_updateTransfers (f : OrdMap ℤ Transfer → OrdMap ℤ Transfer) :
    (s.updateTransfers f).spoken = s.spoken := rfl

/-- The clients a transfer is between. -/
structure Between (s : Server) (tr : Transfer) (a b : ClientId) : Prop where
  sender : s.clients.get? tr.senderFd = some a
  recipient : s.clients.get? tr.recipientFd = some b

/-- A transfer in the table is between two different clients. -/
theorem Inv.between (hi : s.Inv) (htr : s.files.transfers.get? id = some tr) :
    ∃ a b, s.Between tr a b ∧ a ≠ b := by
  obtain ⟨⟨a, ha⟩, b, hb⟩ := hi.authority.transfer id tr htr
  refine ⟨a, b, ⟨ha.1, hb.1⟩, ?_⟩
  rintro rfl
  exact (hi.transferTable.sound id tr htr).parties
    ((hi.table.fd_eq ha.1).symm.trans (hi.table.fd_eq hb.1))

/-- **Nothing happened to transfers**, and nothing was said of them. -/
structure Quietly (s t : Server) : Prop where
  files : t.files = s.files
  spoken : ∃ new, t.spoken = new ++ s.spoken ∧ ∀ e ∈ new, announces e.2 = false
  between : ∀ id tr a b, s.files.transfers.get? id = some tr → s.Between tr a b → t.Between tr a b

namespace Quietly

theorem refl (s : Server) : s.Quietly s := ⟨rfl, ⟨[], rfl, by simp⟩, fun _ _ _ _ _ => id⟩

theorem trans (h : s.Quietly t) (h' : t.Quietly u) : s.Quietly u where
  files := h'.files.trans h.files
  spoken := by
    obtain ⟨new, hnew, hquiet⟩ := h.spoken
    obtain ⟨new', hnew', hquiet'⟩ := h'.spoken
    refine ⟨new' ++ new, by rw [hnew', hnew, List.append_assoc], fun e he => ?_⟩
    rcases List.mem_append.mp he with he | he
    · exact hquiet' e he
    · exact hquiet e he
  between id tr a b htr hab := h'.between id tr a b (h.files ▸ htr) (h.between id tr a b htr hab)

end Quietly

/-- An operation that is silent about transfers leaves their table alone. -/
theorem files_run {op : Op} (hop : op.Silent) : (op.run s).files = s.files := by
  cases op with
  | offer tr => exact hop.elim
  | progress id f => exact hop.elim
  | drop id => exact hop.elim
  | leave fd ch =>
    rw [Op.run, dropMember]
    split_ifs <;> rfl
  | expel p fd =>
    rw [Op.run, finalizeDisconnect]
    split <;> rfl
  | finalize p fd =>
    rw [Op.run, finalizeDisconnect]
    split <;> rfl
  | accept fd hostname =>
    rw [Op.run, acceptClient]
    split_ifs <;> rfl
  | _ => rfl

/-- What an operation says. -/
theorem spoken_run (op : Op) : (op.run s).spoken = s.spoken ∨
    ∃ q msg, op = .send q msg ∧ (op.run s).spoken = (q, wire msg) :: s.spoken := by
  cases op with
  | send q msg => exact Or.inr ⟨q, msg, rfl, rfl⟩
  | leave fd ch =>
    rw [Op.run, dropMember]
    split_ifs <;> exact Or.inl rfl
  | expel p fd =>
    rw [Op.run, finalizeDisconnect]
    split <;> exact Or.inl rfl
  | finalize p fd =>
    rw [Op.run, finalizeDisconnect]
    split <;> exact Or.inl rfl
  | accept fd hostname =>
    rw [Op.run, acceptClient]
    split_ifs <;> exact Or.inl rfl
  | _ => exact Or.inl rfl

/-- While a descriptor has a client, before an operation and after it, it is the same. -/
theorem clients_of_run_both {op : Op} (ho : op.Allowed s) (hs : s.clients.get? fd = some p)
    (ht : (op.run s).clients.get? fd = some q) : q = p := by
  by_cases hop : op.Within fun _ => True
  · exact Option.some.inj ((clients_of_run hop ht).symm.trans hs)
  · have hev : op.evicts s ≠ some fd := by
      cases op <;> first | exact absurd trivial hop | simp [Op.evicts]
    exact Option.some.inj (ht.symm.trans (clients_run ho hs hev))

/-- **A silent operation.** -/
theorem quietly_run {o : Op} (hi : s.Inv) (ho : o.Allowed s) (hop : o.Silent) :
    s.Quietly (o.run s) where
  files := files_run hop
  spoken := by
    rcases spoken_run (s := s) o with h | ⟨q, msg, rfl, h⟩
    · exact ⟨[], h, by simp⟩
    · have hquiet : announces (wire msg) = false := hop
      exact ⟨[(q, wire msg)], h, by simpa using hquiet⟩
  between id tr a b htr hab := by
    obtain ⟨⟨a', ha⟩, b', hb⟩ := (hi.run ho).authority.transfer id tr
      ((congrArg (fun f => f.transfers.get? id) (files_run hop)).trans htr)
    obtain rfl := clients_of_run_both ho hab.sender ha.1
    obtain rfl := clients_of_run_both ho hab.recipient hb.1
    exact ⟨ha.1, hb.1⟩

/-- **A sequence of silent operations.** -/
theorem quietly_runs {P : Op → Prop} (hP : ∀ op, P op → op.Silent) (hi : s.Inv)
    (hrun : serverMachine.Runs P s t) : s.Quietly t :=
  hrun.relates (I := Inv) .refl (fun _ _ _ => .trans) (fun _ _ _ ho hu => hu.run ho)
    (fun _ _ hop ho hu => quietly_run hu ho (hP _ hop)) hi

end Server

end FtIrc
