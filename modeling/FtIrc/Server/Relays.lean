import FtIrc.Server.Transfers

/-!
# Chunks, octet by octet

A chunk that is counted is sent on, on a line of its own (`FtIrc.Server.Counts.relay`): who
sends it, the identifier the way the sender spelled it, and the chunk. The line is cut at
what a line can hold, and nothing bounds how an identifier is spelled. So the chunk arrives
whole, with an identifier of the same transfer, exactly if the line was not cut
(`FtIrc.Server.Counts.verbatim`). It was not if the identifier is not spelled with more than
sixty octets (`FtIrc.Server.Counts.length_dataText_le`), but a sender may spell it with more.
-/

namespace FtIrc

open Abnf

variable {pre x chunk w : Str} {id : ℤ}

/-- The line of a chunk, before it is cut. -/
def dataText (pre idText chunk : Str) : Str :=
  str ":" ++ pre ++ str " FILE DATA " ++ idText ++ str " " ++ chunk

/-- **The line carries the chunk**, all of it, with an identifier that denotes the transfer. -/
def CarriesChunk (w : Str) (id : ℤ) (chunk : Str) : Prop :=
  ∃ source idText, words w = [source, str "FILE", str "DATA", idText, chunk] ∧
    signedValue idText = some id

theorem length_dataText :
    (dataText pre x chunk).length = pre.length + x.length + chunk.length + 13 := by
  simp only [dataText, List.length_append, show (str ":").length = 1 from rfl,
    show (str " FILE DATA ").length = 11 from rfl, show (str " ").length = 1 from rfl]
  omega

theorem dataText_eq (pre x chunk : Str) :
    dataText pre x chunk = str ":" ++ pre ++ str " FILE DATA " ++ (x ++ SPACE :: chunk) := by
  simp [dataText, show str " " = [SPACE] from rfl]

section Words

variable (hpre : IsWord pre) (hx : IsWord x) (hchunk : IsWord chunk)

include hpre hx hchunk

theorem words_dataText :
    words (dataText pre x chunk) = [COLON :: pre, str "FILE", str "DATA", x, chunk] := by
  have hsource : IsWord (COLON :: pre) := IsWord.cons_iff.mpr ⟨by decide, hpre⟩
  have hshape : dataText pre x chunk = (COLON :: pre) ++ SPACE :: (str "FILE" ++ SPACE ::
      (str "DATA" ++ SPACE :: (x ++ SPACE :: chunk))) := by
    rw [dataText_eq, show str " FILE DATA " =
      SPACE :: (str "FILE" ++ SPACE :: (str "DATA" ++ [SPACE])) from by decide]
    simp [show str ":" = [COLON] from rfl]
  rw [hshape, words_cons hsource, words_cons (show IsWord (str "FILE") by decide),
    words_cons (show IsWord (str "DATA") by decide), words_cons hx, words_single hchunk]

variable [Libcpp] in
/-- **The chunk is whole exactly if the line was not cut.** -/
theorem carriesChunk_wire (hlen : pre.length ≤ 36) (hid : signedValue x = some id) :
    CarriesChunk (wire (dataText pre x chunk)) id chunk ↔
      (dataText pre x chunk).length ≤ MAX_MSGLEN - 2 := by
  constructor
  · rintro ⟨source, idText, hw, -⟩
    have hlit : IsFileLiteral " FILE DATA " (str "DATA") := by decide
    obtain ⟨k, -, hk⟩ := words_fileLine hlit ⟨hpre, hlen⟩ (x ++ SPACE :: chunk)
    rw [← dataText_eq, hw] at hk
    have hrest := (List.cons.inj (List.cons.inj (List.cons.inj hk).2).2).2
    -- with a chunk behind it the identifier was not cut, and the chunk is as long as before
    rcases words_take hx chunk k with h | h
    · rw [h] at hrest
      exact absurd (congrArg List.length hrest) (by simp)
    · rw [h, words_take_single hchunk] at hrest
      have hsame : words (wire (dataText pre x chunk)) = words (dataText pre x chunk) := by
        rw [hw, words_dataText hpre hx hchunk, (List.cons.inj hk).1, (List.cons.inj hrest).1]
      have hwhole : wire (dataText pre x chunk) = dataText pre x chunk := by
        calc wire (dataText pre x chunk)
          _ = [SPACE].intercalate (words (wire (dataText pre x chunk))) :=
            (List.intercalate_splitOn SPACE).symm
          _ = [SPACE].intercalate (words (dataText pre x chunk)) := by rw [hsame]
          _ = dataText pre x chunk := List.intercalate_splitOn SPACE
      exact hwhole ▸ length_wire_le _
  · intro hfits
    rw [wire, if_neg (Nat.not_lt.mpr hfits)]
    exact ⟨COLON :: pre, x, words_dataText hpre hx hchunk, hid⟩

end Words

variable [Libcpp]

namespace Server

variable {M : Matcher} {s t : Server} {p q : ClientId} {msg : Message} {tr : Transfer}

/-! ### What becomes of a chunk -/

/-- The chunk is taken into account, and sent on. -/
def relayChunk (s : Server) (p q : ClientId) (msg : Message) (id : ℤ) : Server :=
  (s.updateTransfers fun ts => ts.modify id fun t =>
      { t with relayedBytes := t.relayedBytes + decodedBytes (msg.param 2)
               lastActivity := s.clock }).queueMessage q
    (dataText (s.deref p).getPrefix (msg.param 1) (msg.param 2))

/-- **A line with a chunk** is refused, ends the transfer, or is sent on to the recipient. -/
theorem fileData_cases (hid : transferId msg 3 = some id) :
    (∃ text, s.fileData p msg = s.fileNotice p text) ∨
      (∃ why, s.fileData p msg = s.abortTransfer id why) ∨
      ∃ tr q, s.files.transfers.get? id = some tr ∧ s.clients.get? tr.recipientFd = some q ∧
        isBase64Chunk (msg.param 2) = true ∧ decodedBytes (msg.param 2) ≠ 0 ∧
          s.fileData p msg = s.relayChunk p q msg id := by
  rw [fileData, hid]
  dsimp only
  rcases htr : s.files.transfers.get? id with _ | tr
  · exact Or.inl ⟨_, rfl⟩
  dsimp only
  split
  · exact Or.inl ⟨_, rfl⟩
  split
  · exact Or.inl ⟨_, rfl⟩
  split
  · exact Or.inr (Or.inl ⟨_, rfl⟩)
  rename_i hchunk
  split
  · exact Or.inr (Or.inl ⟨_, rfl⟩)
  rename_i hdecoded
  split
  · exact Or.inr (Or.inl ⟨_, rfl⟩)
  rw [findClientByFd]
  rcases hq : s.clients.get? tr.recipientFd with _ | q
  · exact Or.inr (Or.inl ⟨_, rfl⟩)
  dsimp only
  split
  · exact Or.inl ⟨_, rfl⟩
  · refine Or.inr (Or.inr ⟨tr, q, rfl, hq, ?_, hdecoded, rfl⟩)
    simpa using hchunk

/-- **A `FILE` line** is refused with a reply, or is for the extension. -/
theorem LineStep.file (h : LineStep M s t p msg) (hcmd : msg.command = str "FILE") :
    ∃ raw, (s.deref p).registered = false ∧
        t = (s.record (.inbound p raw)).sendReply p "451" (str ":You have not registered") ∨
      (s.record (.inbound p raw)).fileOnCommand p msg = some t := by
  obtain ⟨-, raw, -, hmsg, rfl⟩ := h
  have hfind : findCommand msg.command = none := by
    rw [hcmd]
    rfl
  refine ⟨raw, ?_⟩
  rw [handleMessage, hmsg]
  dsimp only
  rw [dispatchCommand, hfind]
  dsimp only
  split_ifs with hreg
  · exact Or.inl ⟨(Bool.not_eq_true' _).mp hreg, rfl⟩
  rcases hfile : (s.record (.inbound p raw)).fileOnCommand p msg with _ | t
  · rw [fileOnCommand, if_neg (not_not.mpr hcmd)] at hfile
    dsimp only at hfile
    split_ifs at hfile
  · exact Or.inr rfl

/-- A line with a chunk is refused with a reply, or is handled as one. -/
theorem LineStep.data (h : LineStep M s t p msg) (hasks : Asks msg "DATA" 3 id) :
    ∃ raw, (s.deref p).registered = false ∧
        t = (s.record (.inbound p raw)).sendReply p "451" (str ":You have not registered") ∨
      t = (s.record (.inbound p raw)).fileData p msg := by
  obtain ⟨raw, hrefused | hfile⟩ := h.file hasks.command
  · exact ⟨raw, Or.inl hrefused⟩
  refine ⟨raw, Or.inr ?_⟩
  have hid := hasks.id
  rw [transferId] at hid
  split_ifs at hid with hshort
  rw [fileOnCommand, if_neg (not_not.mpr hasks.command), if_neg] at hfile
  · dsimp only at hfile
    rw [hasks.sub, if_neg (by decide), if_neg (by decide), if_neg (by decide), if_pos rfl] at hfile
    exact (Option.some.inj hfile).symm
  · intro hnil
    rw [hnil] at hshort
    exact hshort (by decide)

/-- What is relayed is counted, and queued to the recipient; the clients stay. -/
theorem transfers_relayChunk : (s.relayChunk p q msg id).files.transfers.get? id =
    (s.files.transfers.get? id).map fun t =>
      { t with relayedBytes := t.relayedBytes + decodedBytes (msg.param 2)
               lastActivity := s.clock } :=
  OrdMap.get?_modify_self _ _ _

/-- **The step counts a chunk**: it is a line with one, and there is more of the transfer than
before. -/
structure Counts (M : Matcher) (s t : Server) (p : ClientId) (msg : Message) (id : ℤ)
    (tr : Transfer) : Prop where
  line : LineStep M s t p msg
  asks : Asks msg "DATA" 3 id
  before : s.files.transfers.get? id = some tr
  after : ∃ tr', t.files.transfers.get? id = some tr' ∧ tr.relayedBytes < tr'.relayedBytes

/-- **A chunk that is counted is sent on.** -/
theorem Counts.relay (h : Counts M s t p msg id tr) :
    ∃ raw q, s.clients.get? tr.recipientFd = some q ∧ isBase64Chunk (msg.param 2) = true ∧
      t = (s.record (.inbound p raw)).relayChunk p q msg id := by
  obtain ⟨tr', htr', hgrows⟩ := h.after
  -- otherwise the transfer is as it was, or over
  have hsame : t.files.transfers.get? id = s.files.transfers.get? id → False := by
    intro heq
    obtain rfl := Option.some.inj (h.before.symm.trans (heq.symm.trans htr'))
    exact lt_irrefl _ hgrows
  obtain ⟨raw, ⟨-, ht⟩ | ht⟩ := h.line.data h.asks
  · exact (hsame (by rw [ht]; rfl)).elim
  rcases fileData_cases (s := s.record (.inbound p raw)) (p := p) h.asks.id with
    ⟨text, hdata⟩ | ⟨why, hdata⟩ | ⟨old, q, hold, hq, hchunk, -, hdata⟩
  · exact (hsame (by rw [ht, hdata]; rfl)).elim
  · have hgone : t.files.transfers.get? id = none := by
      rw [ht, hdata, abortTransfer]
      have hbefore : (s.record (.inbound p raw)).files.transfers.get? id = some tr := h.before
      rw [hbefore]
      exact OrdMap.get?_erase_self _ _
    exact absurd (hgone.symm.trans htr') (by simp)
  · obtain rfl : old = tr := Option.some.inj (hold.symm.trans h.before)
    exact ⟨raw, q, hq, hchunk, ht.trans hdata⟩

/-- The line of a chunk that is counted. -/
theorem Counts.spoken (h : Counts M s t p msg id tr) :
    ∃ q, s.clients.get? tr.recipientFd = some q ∧
      t.spoken = (q, wire (dataText (s.deref p).getPrefix (msg.param 1) (msg.param 2))) :: s.spoken := by
  obtain ⟨raw, q, hq, -, rfl⟩ := h.relay
  exact ⟨q, hq, rfl⟩

/-- **Whether the chunk is whole** in a line with it that was queued. -/
theorem Counts.carriesChunk (h : Counts M s t p msg id tr) (hs : Reachable M s) :
    CarriesChunk (wire (dataText (s.deref p).getPrefix (msg.param 1) (msg.param 2))) id (msg.param 2) ↔
      (s.deref p).getPrefix.length + (msg.param 1).length + (msg.param 2).length + 13 ≤
        MAX_MSGLEN - 2 := by
  obtain ⟨raw, q, -, hchunk, -⟩ := h.relay
  obtain ⟨hpre, hlen⟩ := hs.inv.isWord_getPrefix p
  have hid := (transferId_eq_some h.asks.id).1
  rw [← length_dataText]
  exact carriesChunk_wire hpre (.of_signedValue hid) (isWord_of_isBase64Chunk hchunk) hlen hid

/-- **A chunk is relayed verbatim exactly if its line is not cut.** In every reachable state the
line that is queued for a chunk that is counted carries the chunk, with an identifier of the same
transfer, if and only if what names the sender, the identifier as it was spelled, the chunk and
thirteen more octets fit in a line. -/
theorem Counts.verbatim (h : Counts M s t p msg id tr) (hs : Reachable M s) :
    ∃ q w, s.clients.get? tr.recipientFd = some q ∧ t.spoken = (q, w) :: s.spoken ∧
      (CarriesChunk w id (msg.param 2) ↔
        (s.deref p).getPrefix.length + (msg.param 1).length + (msg.param 2).length + 13 ≤
          MAX_MSGLEN - 2) := by
  obtain ⟨q, hq, hspoken⟩ := h.spoken
  exact ⟨q, _, hq, hspoken, h.carriesChunk hs⟩

/-- **An identifier that is not spelled with more than sixty octets** leaves room for the chunk. -/
theorem Counts.length_dataText_le (h : Counts M s t p msg id tr) (hs : Reachable M s)
    (hid : (msg.param 1).length ≤ 60) :
    (s.deref p).getPrefix.length + (msg.param 1).length + (msg.param 2).length + 13 ≤
      MAX_MSGLEN - 2 := by
  obtain ⟨raw, q, -, hchunk, -⟩ := h.relay
  have hlen := (hs.inv.isWord_getPrefix p).2
  simp only [isBase64Chunk, Bool.and_eq_true, decide_eq_true_eq] at hchunk
  have hshort : (msg.param 2).length ≤ 400 := hchunk.1.2
  rw [MAX_MSGLEN]
  omega

/-! ### A chunk that arrives, and one that does not -/

/-- A line with a chunk, as it is read. -/
def dataMessage (idText chunk : Str) : Message where
  command := str "FILE"
  params := [str "DATA", idText, chunk]

/-- Whether a line with a chunk is counted. -/
def countsTest (M : Matcher) (s : Server) (raw idText chunk : Str) : Bool :=
  decide (s.clients.get? (s.deref 0).fd = some 0 ∧ (s.deref 0).tearingDown = false ∧ OneLine raw) &&
    decide (transferId (dataMessage idText chunk) 3 = some 1) &&
      (s.files.transfers.get? 1).any fun tr =>
        ((s.handleMessage M 0 raw).files.transfers.get? 1).any fun tr' =>
          decide (tr.recipientFd = 5 ∧ tr.relayedBytes < tr'.relayedBytes)

theorem counts_of_test {raw : Str} (hmsg : M.buildMessage raw = some (dataMessage x chunk))
    (hsub : Libcpp.toUpper (str "DATA") = str "DATA") (htest : countsTest M s raw x chunk = true) :
    ∃ tr, tr.recipientFd = 5 ∧
      Counts M s (s.handleMessage M 0 raw) 0 (dataMessage x chunk) 1 tr := by
  simp only [countsTest, Bool.and_eq_true, Option.any_eq_true, decide_eq_true_eq] at htest
  obtain ⟨⟨⟨hclients, htd, hraw⟩, hid⟩, tr, htr, tr', htr', hfd, hlt⟩ := htest
  exact ⟨tr, hfd, ⟨⟨hclients, htd⟩, raw, hraw, hmsg, rfl⟩, ⟨rfl, hsub, hid⟩, htr, tr', htr', hlt⟩

section Rehearsed

omit [Libcpp]

/-- The rehearsed session, until a transfer was accepted. -/
def awaiting : letI := referenceLibcpp; Server :=
  letI := referenceLibcpp
  session rehearsalMatcher rehearsal [(0, str "FILE SEND bob f 3"), (1, str "FILE ACCEPT 1")]

theorem reachable_awaiting : letI := referenceLibcpp; Reachable rehearsalMatcher awaiting :=
  letI := referenceLibcpp
  reachable_rehearsal.session (by decide)

set_option maxRecDepth 4000 in
/-- A chunk of three octets arrives. -/
theorem verbatim_delivered : letI := referenceLibcpp
    ∃ q w, awaiting.clients.get? 5 = some q ∧
      (awaiting.handleMessage rehearsalMatcher 0 (str "FILE DATA 1 QUJD")).spoken =
        (q, w) :: awaiting.spoken ∧ CarriesChunk w 1 (str "QUJD") := by
  let _ := referenceLibcpp
  have hmsg : rehearsalMatcher.buildMessage (str "FILE DATA 1 QUJD") =
      some (dataMessage (str "1") (str "QUJD")) := rfl
  have htest : countsTest rehearsalMatcher awaiting (str "FILE DATA 1 QUJD") (str "1") (str "QUJD") =
      true := by decide
  obtain ⟨tr, hfd, hcounts⟩ := counts_of_test hmsg (by decide) htest
  obtain ⟨q, w, hq, hw, hcarries⟩ := hcounts.verbatim reachable_awaiting
  exact ⟨q, w, hfd ▸ hq, hw, hcarries.mpr (by decide)⟩

/-- A line with a chunk, as it is written. -/
def chunkLine (idText chunk : Str) : Str := str "FILE DATA " ++ idText ++ str " " ++ chunk

/-- The rehearsal's strategy, with one more line with a chunk. -/
def chunkMatcher (idText chunk : Str) : Matcher where
  grammar := rehearsalGrammar
  run rule line := (rehearsalMatcher.run rule line).or
    ((Matcher.ofTable rehearsalGrammar [(str "message", chunkLine idText chunk,
      (str "command", str "FILE") :: [(str "middle", str "DATA"), (str "middle", idText),
        (str "middle", chunk)])]).run rule line)
  infixOf h := by
    rcases Option.or_eq_some_iff.mp h with h | ⟨-, h⟩
    · exact rehearsalMatcher.infixOf h
    · exact Matcher.infixOf _ h

/-- What the two say until a transfer was accepted. -/
def consent : List (ClientId × Str) :=
  script ++ [(0, str "FILE SEND bob f 3"), (1, str "FILE ACCEPT 1")]

/-- An identifier with many zeros in front. -/
def paddedId : Str := List.replicate 494 48 ++ str "1"

/-- A line with a chunk, and that identifier. -/
def paddedLine : Str := chunkLine paddedId (str "QUJD")

/-- The strategy that can read that line. -/
def paddedMatcher : Matcher := chunkMatcher paddedId (str "QUJD")

/-- A transfer that was accepted, where that line can be read. -/
def padded : letI := referenceLibcpp; Server :=
  letI := referenceLibcpp
  session paddedMatcher doorway consent

theorem reachable_padded : letI := referenceLibcpp; Reachable paddedMatcher padded :=
  letI := referenceLibcpp
  (((Reachable.start (str "secret") 30 0 []).step (.accept _ 4 127 0 0 1 rfl)).step
    (.accept _ 5 127 0 0 1 rfl)).session (by decide)

set_option maxRecDepth 20000 in
theorem counts_padded : letI := referenceLibcpp
    ∃ tr, Counts paddedMatcher padded (padded.handleMessage paddedMatcher 0 paddedLine) 0
      (dataMessage paddedId (str "QUJD")) 1 tr := by
  let _ := referenceLibcpp
  have hmsg : paddedMatcher.buildMessage paddedLine = some (dataMessage paddedId (str "QUJD")) := rfl
  have htest : countsTest paddedMatcher padded paddedLine paddedId (str "QUJD") = true := by
    decide +kernel
  obtain ⟨tr, -, hcounts⟩ := counts_of_test hmsg (by decide) htest
  exact ⟨tr, hcounts⟩

set_option maxRecDepth 4000 in
/-- **Not every chunk that is counted is relayed**: behind an identifier with many zeros in front
there is no room for it. -/
theorem not_verbatim : letI := referenceLibcpp
    ¬∀ (M : Matcher) (s t : Server) (p : ClientId) (msg : Message) (id : ℤ) (tr : Transfer),
      Reachable M s → Counts M s t p msg id tr →
        ∃ q w, s.clients.get? tr.recipientFd = some q ∧ t.spoken = (q, w) :: s.spoken ∧
          CarriesChunk w id (msg.param 2) := by
  let _ := referenceLibcpp
  intro h
  obtain ⟨tr, hcounts⟩ := counts_padded
  obtain ⟨q, w, -, hw, hcarries⟩ := h _ _ _ _ _ _ _ reachable_padded hcounts
  obtain ⟨q', -, hspoken⟩ := hcounts.spoken
  have hline := (Prod.ext_iff.mp (List.cons.inj (hspoken.symm.trans hw)).1).2
  dsimp only at hline
  rw [← hline] at hcarries
  have hfits := (hcounts.carriesChunk reachable_padded).mp hcarries
  have hlong : (dataMessage paddedId (str "QUJD")).param 1 = paddedId := rfl
  have hshort : (dataMessage paddedId (str "QUJD")).param 2 = str "QUJD" := rfl
  rw [hlong, hshort, show paddedId.length = 495 from rfl, show (str "QUJD").length = 4 from rfl,
    MAX_MSGLEN] at hfits
  omega

end Rehearsed

end Server

end FtIrc
