import FtIrc.Server.Admission
import FtIrc.Server.Announcements

/-!
# The transfers

What a step does to the transfers is a chain of a few moves (`FtIrc.Server.FileMove`): an
offer, an answer, a chunk, an end, an abort, and what is quiet about them. A line moves
what it asks for and is allowed to (`FtIrc.FileAct.By`); whatever else happens to the
server is quiet or aborts transfers (`FtIrc.Server.Step.filing`). From this

* the table of transfers keeps to its bounds, a number is used once, and what is relayed
  was sent by the sender of a transfer that its recipient had accepted
  (`FtIrc.Server.Reachable.transfers`).
-/

namespace FtIrc

open Abnf Relation

variable [Libcpp]

/-! ### Moves -/

/-- What may be done to a transfer. -/
inductive FileAct
  | quiet
  | offer
  | accept (id : ℤ)
  | reject (id : ℤ)
  | data (id : ℤ)
  | finish (id : ℤ)
  | abort (id : ℤ)

/-- **A line that tells this of the transfer**: if it can be read it is read as this, it
can be read unless the identifier or the text in it was given by a client, and it carries
a chunk only if it is for that. -/
structure Carries (w : Str) (word : FileWord) (id : ℤ) : Prop where
  sound : Announces w word id
  read : word ≠ .data → word ≠ .finish → id ≤ LONG_MAX → readFile w = some (word, id)
  chunk : IsDataLine w → word = .data

namespace Server

variable {M : Matcher} {s t u : Server} {p q a b : ClientId} {fd : Fd} {tr : Transfer} {id : ℤ}
  {msg : Message} {text why : Str} {act : FileAct}

/-- **A move**: what becomes of the table of transfers, and who is told. -/
inductive FileMove (s t : Server) : FileAct → Prop
  | quiet : s.Quietly t → FileMove s t .quiet
  | offer {tr a b w} : tr.Fresh → s.Between tr a b → a ≠ b → t.clients = s.clients →
      t.files = (s.addTransfer tr).files → t.spoken = (b, w) :: s.spoken →
      Carries w .offer s.files.nextId → FileMove s t .offer
  | accept {id tr a b w f} : s.files.transfers.get? id = some tr → s.Between tr a b →
      t.clients = s.clients → t.files = (s.updateTransfers fun ts => ts.modify id f).files →
      tr.Advances (f tr) → (f tr).accepted = true → t.spoken = (a, w) :: s.spoken →
      Carries w .ok id → FileMove s t (.accept id)
  | reject {id tr a b w} : s.files.transfers.get? id = some tr → s.Between tr a b →
      t.clients = s.clients → t.files = (s.updateTransfers fun ts => ts.erase id).files →
      t.spoken = (a, w) :: s.spoken → Carries w .no id → FileMove s t (.reject id)
  | data {id tr a b w f} : s.files.transfers.get? id = some tr → s.Between tr a b →
      t.clients = s.clients → t.files = (s.updateTransfers fun ts => ts.modify id f).files →
      tr.Advances (f tr) → tr.accepted = true → t.spoken = (b, w) :: s.spoken →
      Carries w .data id → FileMove s t (.data id)
  | finish {id tr a b w} : s.files.transfers.get? id = some tr → s.Between tr a b →
      t.clients = s.clients → t.files = (s.updateTransfers fun ts => ts.erase id).files →
      t.spoken = (b, w) :: s.spoken → Carries w .finish id → FileMove s t (.finish id)
  | abort {id tr a b w w'} : s.files.transfers.get? id = some tr → s.Between tr a b →
      t.clients = s.clients → t.files = (s.updateTransfers fun ts => ts.erase id).files →
      t.spoken = (b, w') :: (a, w) :: s.spoken → Carries w .abort id → Carries w' .abort id →
      FileMove s t (.abort id)

/-! ### Notices -/

omit [Libcpp] in
/-- A text that begins with a literal other than the one for aborts. -/
theorem not_abort_of_literal {lit : String}
    (h : ¬str "FILE ABRT " <+: str lit ∧ 10 ≤ (str lit).length) (x : Str) :
    ¬str "FILE ABRT " <+: str lit ++ x := by
  intro hcon
  exact h.1 (List.prefix_of_prefix_length_le hcon (List.prefix_append _ _) h.2)

/-- A text that begins with a number. -/
theorem not_abort_number (hid : 0 ≤ id) (x : Str) :
    ¬str "FILE ABRT " <+: str "FILE " ++ Libcpp.toDecimal id ++ str " offered to " ++ x := by
  rw [show str "FILE ABRT " = str "FILE " ++ str "ABRT " by decide]
  simp only [List.append_assoc, List.prefix_append_right_inj]
  have hvalue := digitsValue_decimal id.natAbs
  rw [Libcpp.toDecimal_eq, signedDecimal, if_neg (by omega)]
  rcases hx : decimal id.natAbs with _ | ⟨c, cs⟩
  · rw [hx] at hvalue
    exact absurd hvalue (by simp [digitsValue])
  · intro hcon
    have hdigit := isDigitOctet_of_digitsValue hvalue c (hx ▸ List.mem_cons_self)
    rw [← (List.cons_prefix_cons.mp hcon).1] at hdigit
    exact absurd hdigit (by decide)

theorem Inv.shortNick (hi : s.Inv) (q : ClientId) :
    IsWord (s.deref q).nickname ∧ (s.deref q).nickname.length ≤ MAX_NICKLEN :=
  (hi.clientNames q).nickname

@[simp] theorem deref_addTransfer : (s.addTransfer tr).deref p = s.deref p := rfl

/-- A quiet message. -/
theorem quietly_queueMessage {w : Str} (h : Quiet w) : s.Quietly (s.queueMessage q w) where
  files := rfl
  spoken := ⟨[(q, wire w)], rfl, by
    have hquiet : announces (wire w) = false := h
    simpa using hquiet⟩
  between _ _ _ _ _ hab := ⟨hab.sender, hab.recipient⟩

/-- A notice that is not of an abort. -/
theorem Inv.quietly_fileNotice (hi : s.Inv) (h : ¬str "FILE ABRT " <+: text) :
    s.Quietly (s.fileNotice q text) :=
  quietly_queueMessage (quiet_notice (hi.shortNick q) h)

/-- A party that has its descriptor is told. -/
theorem noticeFd_of_clients (h : s.clients.get? fd = some q) :
    s.noticeFd fd text = s.fileNotice q text := by
  rw [noticeFd, findClientByFd, h]

@[simp] theorem nickname_queueMessage {w : Str} :
    ((s.queueMessage p w).deref q).nickname = (s.deref q).nickname :=
  deref_update_field Client.nickname (f := fun c => { c with io := Libcpp.queue c.io (wire w) })
    (fun _ => rfl) q

@[simp] theorem nickname_fileNotice : ((s.fileNotice p text).deref q).nickname = (s.deref q).nickname :=
  nickname_queueMessage

/-- **An abort**: both parties are told. -/
theorem Inv.move_abortTransfer (hi : s.Inv) (htr : s.files.transfers.get? id = some tr) (why : Str) :
    FileMove s (s.abortTransfer id why) (.abort id) := by
  obtain ⟨a, b, hab, -⟩ := hi.between htr
  have hid := (hi.transferTable.below id tr htr).1
  have hline : ∀ nick, IsWord nick ∧ nick.length ≤ MAX_NICKLEN → Carries (wire (str ":" ++
      SERVER_NAME ++ str " " ++ (str "NOTICE " ++ nick ++ str " :" ++ (str "FILE ABRT " ++
        (Libcpp.toDecimal id ++ SPACE :: (COLON :: why)))))) .abort id := fun nick hnick =>
    ⟨announces_abort hnick (by omega) why, fun _ _ hle => readFile_abort hnick (by omega) hle why,
      fun hdata => absurd hdata (not_isDataLine_notice hnick _)⟩
  have htext : str "FILE ABRT " ++ Libcpp.toDecimal id ++ str " :" ++ why =
      str "FILE ABRT " ++ (Libcpp.toDecimal id ++ SPACE :: (COLON :: why)) := by
    simp [show str " :" = [SPACE, COLON] from rfl]
  rw [abortTransfer, htr]
  dsimp only
  rw [htext, noticeFd_of_clients hab.sender, noticeFd_of_clients (s := s.fileNotice a _) (q := b) hab.recipient]
  exact .abort htr hab rfl rfl rfl (hline _ (hi.shortNick a))
    (hline _ (nickname_fileNotice (s := s) ▸ hi.shortNick b))

end Server

/-! ### What a line moves -/

/-- A `FILE` line with a subcommand, about the transfer with this identifier. -/
structure Asks (msg : Message) (sub : String) (least : ℕ) (id : ℤ) : Prop where
  command : msg.command = str "FILE"
  sub : Libcpp.toUpper (msg.param 0) = str sub
  id : transferId msg least = some id

/-- **Whose move it is**: an answer is its recipient's, a chunk and the end are its sender's,
and there is no chunk before it was accepted. -/
def FileAct.By (s : Server) (p : ClientId) (msg : Message) : FileAct → Prop
  | .accept id => Asks msg "ACCEPT" 2 id ∧
      ∃ tr, s.files.transfers.get? id = some tr ∧ tr.recipientFd = (s.deref p).fd
  | .reject id => Asks msg "REJECT" 2 id ∧
      ∃ tr, s.files.transfers.get? id = some tr ∧ tr.recipientFd = (s.deref p).fd
  | .data id => Asks msg "DATA" 3 id ∧
      ∃ tr, s.files.transfers.get? id = some tr ∧ tr.accepted = true ∧ tr.senderFd = (s.deref p).fd
  | .finish id => Asks msg "END" 2 id ∧
      ∃ tr, s.files.transfers.get? id = some tr ∧ tr.senderFd = (s.deref p).fd
  | _ => True

omit [Libcpp] in
/-- The name of a file is a word. -/
theorem isWord_of_isValidFilename {name : Str} (h : isValidFilename name = true) :
    IsWord name ∧ name.length ≤ MAX_FILENAME := by
  simp only [isValidFilename, Bool.and_eq_true, decide_eq_true_eq] at h
  refine ⟨?_, h.1.1.1.2⟩
  rintro c hc rfl
  exact absurd (List.all_eq_true.mp h.2 _ hc) (by decide)

omit [Libcpp] in
/-- A chunk is a word. -/
theorem isWord_of_isBase64Chunk {chunk : Str} (h : isBase64Chunk chunk = true) : IsWord chunk := by
  simp only [isBase64Chunk, Bool.and_eq_true] at h
  rintro c hc rfl
  exact absurd (List.all_eq_true.mp h.2 _ hc) (by decide)

/-- An identifier is the value of the text it is given as, and fits into a `long`. -/
theorem transferId_eq_some {msg : Message} {least : ℕ} {id : ℤ} (h : transferId msg least = some id) :
    signedValue (msg.param 1) = some id ∧ 1 ≤ id ∧ id ≤ LONG_MAX := by
  rw [transferId] at h
  split_ifs at h
  exact (Libcpp.parseLong_iff _ _ _ _).mp h

/-- A line that neither deals with transfers nor ends the session is silent about them. -/
theorem Op.Permitted.silent {s₀ : Server} {p : ClientId} {m : Manner} {op : Op}
    (h : op.Permitted s₀ p m) (hfiling : m ≠ .filing) (hleaving : m ≠ .leaving) : op.Silent := by
  cases op <;> simp_all [Op.Permitted, Op.Silent]

theorem Op.Idle.silent {op : Op} (h : op.Idle) : op.Silent := by
  cases op with
  | send q w =>
    have hping : Quiet (str ":" ++ SERVER_NAME ++ str " " ++ (str "PING :" ++ SERVER_NAME)) := by decide
    have hw : w = _ := h
    exact hw ▸ hping
  | _ => first | exact h.elim | trivial

theorem Op.Closing.silent {op : Op} (h : op.Closing) : op.Silent := by
  cases op <;> first | exact h.elim | trivial

namespace Server

variable {M : Matcher} {s t u : Server} {p q a b : ClientId} {fd : Fd} {tr : Transfer} {id : ℤ}
  {msg : Message} {text why reason : Str} {act : FileAct}

/-- **What a line about transfers comes to**: one move, of one who may make it, and
silence. -/
def MovesBy (s : Server) (p : ClientId) (msg : Message) (t : Server) : Prop :=
  ∃ act u, act.By s p msg ∧ FileMove s u act ∧ u.Quietly t

theorem MovesBy.quiet (h : s.Quietly t) : s.MovesBy p msg t :=
  ⟨.quiet, t, trivial, .quiet h, .refl t⟩

theorem MovesBy.move (act : FileAct) (hby : act.By s p msg) (h : FileMove s t act) : s.MovesBy p msg t :=
  ⟨act, t, hby, h, .refl t⟩

section Handlers

variable (hi : s.Inv)

include hi

/-- A notice to the client. -/
theorem Inv.movesBy_notice (h : ¬str "FILE ABRT " <+: text) :
    s.MovesBy p msg (s.fileNotice p text) :=
  .quiet (hi.quietly_fileNotice h)

/-- A notice with what was given. -/
theorem Inv.movesBy_unknown {lit : String}
    (h : ¬str "FILE ABRT " <+: str lit ∧ 10 ≤ (str lit).length) (x : Str) :
    s.MovesBy p msg (s.fileNotice p (str lit ++ x)) :=
  hi.movesBy_notice (not_abort_of_literal h x)

theorem movesBy_fileSend (hp : s.Live p) : s.MovesBy p msg (s.fileSend p msg) := by
  rw [fileSend]
  split
  · exact hi.movesBy_notice (by decide)
  dsimp only
  rcases hq : s.findClientByNick (msg.param 1) with _ | q
  · exact hi.movesBy_notice (not_abort_of_literal (by decide) _)
  have hent := hi.entitled_of_findClientByNick hq
  dsimp only
  split
  · exact hi.movesBy_notice (not_abort_of_literal (by decide) _)
  split
  · exact hi.movesBy_notice (by decide)
  rename_i hself
  split
  · exact hi.movesBy_notice (by decide)
  rename_i hfile
  rcases hparse : Libcpp.parseUlong (msg.param 3) 1 MAX_FILE_SIZE with _ | size
  · refine hi.movesBy_notice ?_
    rw [List.append_assoc]
    exact not_abort_of_literal (by decide) _
  dsimp only
  split
  · refine hi.movesBy_notice ?_
    rw [List.append_assoc]
    exact not_abort_of_literal (by decide) _
  obtain ⟨-, hpos, hle⟩ := (Libcpp.parseUlong_iff _ _ _ _).mp hparse
  have hparties : (s.deref p).fd ≠ (s.deref q).fd := fun hfd =>
    hself (Option.some.inj (hent.1.symm.trans (hfd ▸ hp.1)))
  have hname := isWord_of_isValidFilename (Bool.not_eq_false _ ▸ (Bool.not_eq_true' _ ▸ hfile))
  have hnext : 0 ≤ s.files.nextId := by
    have := hi.transferTable.next
    omega
  have hline : str ":" ++ (s.deref p).getPrefix ++ str " FILE OFFER " ++
      Libcpp.toDecimal s.files.nextId ++ str " " ++ msg.param 2 ++ str " " ++ Libcpp.toDecimal size =
        str ":" ++ (s.deref p).getPrefix ++ str " FILE OFFER " ++
          (Libcpp.toDecimal s.files.nextId ++ SPACE :: (msg.param 2 ++ SPACE :: Libcpp.toDecimal size)) := by
    simp [show str " " = [SPACE] from rfl]
  rw [deref_addTransfer, hline]
  refine ⟨.offer, (s.addTransfer _).queueMessage q _, trivial, .offer ⟨hparties, hpos, hle, rfl, rfl⟩ ⟨hp.1, hent.1⟩
    (fun hcon => hself hcon.symm) rfl rfl rfl ⟨?_, fun _ _ hlong => ?_, fun hdata => ?_⟩,
    quietly_queueMessage (quiet_notice ?_ ?_)⟩
  · exact announces_offer (hi.isWord_getPrefix p) hnext hname.1 _
  · exact readFile_offer (hi.isWord_getPrefix p) hnext hlong hname _
  · have hlit : IsFileLiteral " FILE OFFER " (str "OFFER") := by decide
    exact absurd hdata (not_isDataLine_of_kind (hi.isWord_getPrefix p) hlit (by decide) _)
  · exact (nickname_queueMessage (s := s.addTransfer _)).symm ▸ hi.shortNick p
  · exact not_abort_number hnext _

theorem movesBy_fileAnswer (hcmd : msg.command = str "FILE") (accept : Bool)
    (hsub : Libcpp.toUpper (msg.param 0) = str (if accept then "ACCEPT" else "REJECT")) :
    s.MovesBy p msg (s.fileAnswer p msg accept) := by
  rw [fileAnswer]
  rcases hid : transferId msg 2 with _ | id
  · exact hi.movesBy_notice (by decide)
  dsimp only
  rcases htr : s.files.transfers.get? id with _ | tr
  · exact hi.movesBy_unknown (by decide) _
  dsimp only
  split
  · exact hi.movesBy_unknown (by decide) _
  rename_i hrecipient
  obtain ⟨a, b, hab, -⟩ := hi.between htr
  obtain ⟨-, hpos, hle⟩ := transferId_eq_some hid
  have hpre := hi.isWord_getPrefix p
  rw [findClientByFd, hab.sender]
  dsimp only
  cases accept with
  | true =>
    have hlit : IsFileLiteral " FILE OK " (str "OK") := by decide
    have hlookup : fileWords.lookup (str "OK") = some (.ok, 0) := by decide
    have hread := readFile_answer hpre hlit hlookup (show 0 ≤ id by omega) hle
    refine .move (.accept id) ⟨⟨hcmd, hsub, hid⟩, tr, htr, not_not.mp hrecipient⟩
      (.accept htr hab rfl rfl ⟨rfl, rfl, rfl, rfl, fun _ => rfl, Or.inl rfl⟩ rfl rfl
        ⟨Or.inr hread, fun _ _ _ => hread, fun hdata => ?_⟩)
    exact absurd hdata (not_isDataLine_of_kind hpre hlit (by decide) _)
  | false =>
    have hlit : IsFileLiteral " FILE NO " (str "NO") := by decide
    have hlookup : fileWords.lookup (str "NO") = some (.no, 0) := by decide
    have hread := readFile_answer hpre hlit hlookup (show 0 ≤ id by omega) hle
    refine .move (.reject id) ⟨⟨hcmd, hsub, hid⟩, tr, htr, not_not.mp hrecipient⟩
      (.reject htr hab rfl ?_ rfl ⟨Or.inr hread, fun _ _ _ => hread, fun hdata => ?_⟩)
    · exact congrArg (fun ts => { s.files with transfers := ts }) (OrdMap.erase_modify _ _ _)
    · exact absurd hdata (not_isDataLine_of_kind hpre hlit (by decide) _)

theorem movesBy_fileData (hcmd : msg.command = str "FILE")
    (hsub : Libcpp.toUpper (msg.param 0) = str "DATA") : s.MovesBy p msg (s.fileData p msg) := by
  rw [fileData]
  rcases hid : transferId msg 3 with _ | id
  · exact hi.movesBy_notice (by decide)
  dsimp only
  rcases htr : s.files.transfers.get? id with _ | tr
  · exact hi.movesBy_unknown (by decide) _
  have habort : ∀ why, s.MovesBy p msg (s.abortTransfer id why) := fun why =>
    .move (.abort id) trivial (hi.move_abortTransfer htr why)
  dsimp only
  split
  · exact hi.movesBy_unknown (by decide) _
  rename_i hsender
  split
  · rw [List.append_assoc]
    exact hi.movesBy_unknown (by decide) _
  rename_i hacc
  split
  · exact habort _
  rename_i hchunk
  split
  · exact habort _
  split
  · exact habort _
  rename_i hroom
  obtain ⟨a, b, hab, -⟩ := hi.between htr
  rw [findClientByFd, hab.recipient]
  dsimp only
  split_ifs
  · exact hi.movesBy_unknown (by decide) _
  have hpre := hi.isWord_getPrefix p
  have hword := isWord_of_isBase64Chunk (Bool.not_eq_false _ ▸ (Bool.not_eq_true' _ ▸ hchunk))
  have hacc' : tr.accepted = true := by simpa using hacc
  have hlit : IsFileLiteral " FILE DATA " (str "DATA") := by decide
  have hlookup : fileWords.lookup (str "DATA") = some (.data, 1) := by decide
  have hline := announces_relay hpre hlit hlookup (transferId_eq_some hid).1 hword
  rw [List.append_assoc, List.append_assoc]
  exact .move (.data id) ⟨⟨hcmd, hsub, hid⟩, tr, htr, hacc', not_not.mp hsender⟩
    (.data htr hab rfl rfl ⟨rfl, rfl, rfl, rfl, fun h => h, Or.inr ⟨hacc', Nat.le_add_right _ _,
      not_lt.mp hroom⟩⟩ hacc' rfl ⟨hline, fun hne => absurd rfl hne, fun _ => rfl⟩)

theorem movesBy_fileEnd (hcmd : msg.command = str "FILE")
    (hsub : Libcpp.toUpper (msg.param 0) = str "END") : s.MovesBy p msg (s.fileEnd p msg) := by
  rw [fileEnd]
  rcases hid : transferId msg 2 with _ | id
  · exact hi.movesBy_notice (by decide)
  dsimp only
  rcases htr : s.files.transfers.get? id with _ | tr
  · exact hi.movesBy_unknown (by decide) _
  dsimp only
  split
  · exact hi.movesBy_unknown (by decide) _
  rename_i hsender
  obtain ⟨a, b, hab, -⟩ := hi.between htr
  rw [findClientByFd, hab.recipient]
  have hpre := hi.isWord_getPrefix p
  have hlit : IsFileLiteral " FILE END " (str "END") := by decide
  have hlookup : fileWords.lookup (str "END") = some (.finish, 1) := by decide
  have hline := announces_relay hpre hlit hlookup (transferId_eq_some hid).1
    (isWord_toDecimal tr.relayedBytes)
  dsimp only
  rw [List.append_assoc, List.append_assoc]
  refine .move (.finish id) ⟨⟨hcmd, hsub, hid⟩, tr, htr, not_not.mp hsender⟩
    (.finish htr hab rfl rfl rfl ⟨hline, fun _ hne => absurd rfl hne, fun hdata => ?_⟩)
  exact absurd hdata (not_isDataLine_of_kind hpre hlit (by decide) _)

theorem movesBy_fileAbort : s.MovesBy p msg (s.fileAbort p msg) := by
  rw [fileAbort]
  rcases hid : transferId msg 2 with _ | id
  · exact hi.movesBy_notice (by decide)
  dsimp only
  rcases htr : s.files.transfers.get? id with _ | tr
  · exact hi.movesBy_unknown (by decide) _
  dsimp only
  split
  · exact hi.movesBy_unknown (by decide) _
  · exact .move (.abort id) trivial (hi.move_abortTransfer htr _)

/-- **A `FILE` line** makes one move at most, and one its client may make. -/
theorem movesBy_fileOnCommand (hp : s.Live p) (ht : s.fileOnCommand p msg = some t) : s.MovesBy p msg t := by
  have hcmd := command_of_fileOnCommand ht
  rw [fileOnCommand] at ht
  dsimp only at ht
  split_ifs at ht with _ _ h h h h h <;> rw [Option.some.injEq] at ht <;> subst ht
  · exact hi.movesBy_notice (by decide)
  · exact movesBy_fileSend hi hp
  · exact movesBy_fileAnswer hi hcmd true h
  · exact movesBy_fileAnswer hi hcmd false h
  · exact movesBy_fileData hi hcmd h
  · exact movesBy_fileEnd hi hcmd h
  · exact movesBy_fileAbort hi
  · exact hi.movesBy_unknown (by decide) _

end Handlers

/-! ### What else happens to transfers -/

/-- **Transfers lapse**: some are aborted, and apart from that it is quiet about them. -/
abbrev Lapses : Server → Server → Prop :=
  ReflTransGen fun u v => u.Inv ∧ (u.Quietly v ∨ ∃ id, FileMove u v (.abort id))

/-- A silent operation lets nothing lapse. -/
theorem lapses_run {o : Op} (hi : s.Inv) (ho : o.Allowed s) (hop : o.Silent) :
    s.Lapses (o.run s) :=
  .single ⟨hi, Or.inl (quietly_run hi ho hop)⟩

/-- Nor does a sequence of them. -/
theorem lapses_runs {P : Op → Prop} (hP : ∀ op, P op → op.Silent) (hi : s.Inv)
    (hrun : serverMachine.Runs P s t) : s.Lapses t :=
  .single ⟨hi, Or.inl (quietly_runs hP hi hrun)⟩

section Lapses

variable (hi : s.Inv)

include hi

/-- Aborting a transfer keeps the invariants. -/
theorem Inv.abortTransfer (hwhy : OneLine why) (id : ℤ) : (s.abortTransfer id why).Inv := by
  rcases htr : s.files.transfers.get? id with _ | tr
  · rw [Server.abortTransfer, htr]
    exact hi
  · obtain ⟨⟨p, hp⟩, -⟩ := hi.authority.transfer id tr htr
    exact hi.runs ((Turn.start hi (hp.live hi.table)).abortTransfer hp.2.1 hwhy)

/-- A sweep over the transfers aborts some. -/
theorem Inv.lapses_abortWhere (hwhy : OneLine why) (test : Transfer → Bool) :
    s.Lapses (s.abortWhere test why) := by
  refine (List.foldlRecOn s.files.transfers.keys _ (motive := fun u => s.Lapses u ∧ u.Inv)
    ⟨.refl, hi⟩ fun u hu id _ => ?_).1
  rcases htr : u.files.transfers.get? id with _ | tr
  · exact hu
  dsimp only
  split_ifs
  · exact ⟨hu.1.tail ⟨hu.2, Or.inr ⟨id, hu.2.move_abortTransfer htr why⟩⟩, hu.2.abortTransfer hwhy id⟩
  · exact hu

/-- A teardown. -/
theorem lapses_clearAway (hp : s.Live p) (hreason : OneLine reason) :
    s.Lapses (s.clearAway p reason) := by
  by_cases hreg : (s.deref p).registered = true
  · obtain ⟨hrun, hturn⟩ := (Turn.start hi hp).leaveAll hreg hreason
    exact (lapses_runs (fun op hop => hop.silent (by decide) (by decide)) hi hrun).trans
      (hturn.inv.lapses_abortWhere (by decide) _)
  · rw [clearAway_of_unregistered hi hp hreg]

/-- A deferred disconnect. -/
theorem lapses_disconnectClient (hp : s.clients.get? fd = some p) (hreason : OneLine reason) :
    s.Lapses (s.disconnectClient fd reason) := by
  obtain rfl := hi.table.fd_eq hp
  rw [disconnectClient, nesting]
  rcases htd : (s.deref p).tearingDown
  · have hlive : s.Live p := ⟨hp, htd⟩
    have hclear := lapses_clearAway hi hlive hreason
    have hturn := (Turn.start hi hlive).runs (complies_clearAway hi hlive hreason) (by decide)
    rw [disconnectNested_live hi hlive hreason]
    refine hclear.trans ?_
    split_ifs with hpend
    · exact lapses_run (o := .expel p _) hturn.inv ⟨hturn.live, hturn.fd.symm, unlisted_clearAway,
        Or.inl hpend⟩ trivial
    · exact lapses_run (o := .defer p) hturn.inv ⟨hturn.live, hturn.fd ▸ unlisted_clearAway⟩ trivial
  · rw [disconnectNested_of_tearingDown _ hp htd]

/-- A disconnect at once. -/
theorem lapses_disconnectClientNow (hp : s.clients.get? fd = some p) (hreason : OneLine reason)
    (hdue : Libcpp.overflowed (s.deref p).io = true ∨ Event.hangup p ∈ s.trace) :
    s.Lapses (s.disconnectClientNow fd reason) := by
  obtain rfl := hi.table.fd_eq hp
  have hDue : s.Due p := hdue.elim (fun h => Or.inr (Or.inl h)) fun h =>
    Or.inr (Or.inr (Or.inr h))
  simp only [disconnectClientNow, hp]
  rcases hpc : (s.deref p).pendingClose
  · have htd : (s.deref p).tearingDown = false :=
      (hi.settled p _ (hi.table.get? hp)).symm.trans hpc
    have hlive : s.Live p := ⟨hp, htd⟩
    have hrun := complies_clearAway hi hlive hreason
    have hturn := (Turn.start hi hlive).runs hrun (by decide)
    have hdue' := due_runs (Turn.start hi hlive) hrun (by decide) hdue
    have hstate : teardownClientState disconnectClient s p reason =
        (s.clearAway p reason).markTornDown p := teardownClientState_eq hi hlive hreason nesting
    simp only [htd, Bool.false_eq_true, if_false, hstate]
    refine (lapses_clearAway hi hlive hreason).trans (lapses_run (o := .expel p (s.deref p).fd)
      hturn.inv ⟨hturn.live, hturn.fd.symm, unlisted_clearAway, ?_⟩ trivial)
    exact hdue'.elim (fun h => Or.inr (Or.inl h)) fun h => Or.inr (Or.inr (Or.inr h))
  · simp only [if_true]
    exact lapses_run (o := .finalize p (s.deref p).fd) hi ⟨hp, hpc, hDue⟩ trivial

theorem lapses_handleClientOutput (hp : s.clients.get? fd = some p) (sent : Option ℕ) :
    s.Lapses (s.handleClientOutput fd sent) := by
  simp only [handleClientOutput, hp]
  split_ifs with hpend
  · exact .refl
  rcases sent with _ | n
  · exact .refl
  have hallowed : (Op.transmit p n).Allowed s := hi.table.clients_fd hp
  have hi' : ((Op.transmit p n).run s).Inv := hi.run hallowed
  dsimp only
  refine (lapses_run hi hallowed trivial).trans ?_
  change Lapses ((Op.transmit p n).run s)
    (if (((Op.transmit p n).run s).deref p).pendingClose then _ else _)
  split_ifs with hpc hdone hov
  · refine lapses_run (o := .finalize p fd) hi' ⟨hp, hpc, ?_⟩ trivial
    simp only [Bool.or_eq_true, Bool.not_eq_true'] at hdone
    exact hdone.imp id Or.inl
  · exact .refl
  · exact lapses_disconnectClientNow hi' hp (by decide) (Or.inl hov)
  · exact .refl

theorem lapses_handleHangup (hp : s.clients.get? fd = some p) : s.Lapses (s.handleHangup fd) := by
  simp only [handleHangup, hp]
  have hallowed : (Op.hangup p).Allowed s := hi.table.clients_fd hp
  exact (lapses_run hi hallowed trivial).trans
    (lapses_disconnectClientNow (hi.run hallowed) hp (by decide) (Or.inr List.mem_cons_self))

theorem lapses_checkTimeouts : s.Lapses s.checkTimeouts := by
  rw [checkTimeouts]
  dsimp only
  split_ifs
  · exact .refl
  have hi' : ((Op.pingCheck s.clock).run s).Inv := hi.run trivial
  obtain ⟨hpings, hov⟩ := idle_checkTimeoutsOne hi' s.clock
  refine (lapses_run (o := .pingCheck s.clock) hi trivial trivial).trans
    ((lapses_runs (fun op => Op.Idle.silent) hi' hpings).trans ?_)
  exact closeAll_relates (hi'.runs hpings) (fun _ => .refl) (fun _ _ _ => .trans)
    (fun hu hp hov => lapses_disconnectClientNow hu hp (by decide) (Or.inl hov))
    (fun hu hp => lapses_disconnectClient hu hp (by decide)) hov _

/-- What an `Outcome` other than of a `FILE` line does to transfers. -/
theorem Outcome.lapses {m : Manner} (hp : s.Live p) (h : Outcome s p m s t) (hm : m ≠ .filing)
    (hm' : m ≠ .leaving) : s.Lapses t := by
  cases h with
  | stays hrun => exact lapses_runs (fun op hop => hop.silent hm hm') hi hrun
  | leaves hact hrun hop hq hreason ht =>
    have hturn := (Turn.start hi hp).runs hrun (by decide)
    rw [ht]
    exact (lapses_runs (fun op hop => hop.silent (by decide) (by decide)) hi hrun).trans
      (lapses_disconnectClient hturn.inv hq hreason)

end Lapses

/-- The line that is being handled is no part of what a move reads. -/
theorem MovesBy.unrecord {raw : Str} (h : (s.record (.inbound p raw)).MovesBy p msg t) :
    s.MovesBy p msg t := by
  obtain ⟨act, u, hby, hmove, hquiet⟩ := h
  refine ⟨act, u, ?_, ?_, hquiet⟩
  · cases act <;> exact hby
  · cases hmove with
    | quiet h => exact .quiet ⟨h.files, h.spoken, fun id tr a b htr hab =>
        h.between id tr a b htr ⟨hab.sender, hab.recipient⟩⟩
    | offer hfresh hab hne hc hf hs hw =>
      exact .offer hfresh ⟨hab.sender, hab.recipient⟩ hne hc hf hs hw
    | accept htr hab hc hf hadv hacc hs hw =>
      exact .accept htr ⟨hab.sender, hab.recipient⟩ hc hf hadv hacc hs hw
    | reject htr hab hc hf hs hw => exact .reject htr ⟨hab.sender, hab.recipient⟩ hc hf hs hw
    | data htr hab hc hf hadv hacc hs hw =>
      exact .data htr ⟨hab.sender, hab.recipient⟩ hc hf hadv hacc hs hw
    | finish htr hab hc hf hs hw => exact .finish htr ⟨hab.sender, hab.recipient⟩ hc hf hs hw
    | abort htr hab hc hf hs hw hw' =>
      exact .abort htr ⟨hab.sender, hab.recipient⟩ hc hf hs hw hw'

/-- A `FILE` line: of a client that is not registered it is refused. -/
theorem movesBy_handleMessage (hi : s.Inv) (hp : s.Live p) {raw : Str}
    (hmsg : M.buildMessage raw = some msg) (hcmd : msg.command = str "FILE") :
    s.MovesBy p msg (s.handleMessage M p raw) := by
  have hhear : (Op.hear p raw).Allowed s := hp
  have hheard : (s.record (.inbound p raw)).Inv := hi.run hhear
  have hturn := Turn.start hheard hp
  have hread : ∀ {t : Server}, (s.record (.inbound p raw)).MovesBy p msg t → s.MovesBy p msg t :=
    MovesBy.unrecord
  refine hread ?_
  have hfind : findCommand msg.command = none := by
    rw [hcmd]
    rfl
  rw [handleMessage, hmsg]
  dsimp only
  rw [dispatchCommand, hfind]
  dsimp only
  split_ifs
  · exact .quiet (quietly_runs (fun op hop => hop.silent (by decide) (by decide)) hheard
      (hturn.reply (m := .acting) (by decide)))
  rcases hfile : (s.record (.inbound p raw)).fileOnCommand p msg with _ | t
  · rw [fileOnCommand, if_neg (not_not.mpr hcmd)] at hfile
    dsimp only at hfile
    split_ifs at hfile
  · exact movesBy_fileOnCommand hheard hturn.live hfile

/-- **Every step**, as far as it concerns transfers: a move that a client asked for by a line,
or transfers lapse. -/
theorem Step.filing (h : Step M s t) (hi : s.Inv) :
    s.Lapses t ∨ ∃ p msg, LineStep M s t p msg ∧ s.MovesBy p msg t := by
  cases h with
  | client p hacts =>
    cases hacts with
    | receive data =>
      exact Or.inl (lapses_runs (fun op => Op.Idle.silent) hi (idle_receive data))
    | output fd sent hp => exact Or.inl (lapses_handleClientOutput hi hp sent)
    | disconnect fd reason hp hreason => exact Or.inl (lapses_disconnectClient hi hp hreason)
    | disconnectNow fd reason hp hreason hov =>
      exact Or.inl (lapses_disconnectClientNow hi hp hreason (Or.inl hov))
    | hangup fd hp => exact Or.inl (lapses_handleHangup hi hp)
    | line raw hp hraw =>
      obtain ⟨m, hm, hout, hfit⟩ := outcome_handleMessage M hi hp hraw
      by_cases hfiling : m = .filing
      · subst hfiling
        rcases hfit with hcon | ⟨msg, hmsg, hcmd⟩
        · exact absurd hcon (by decide)
        · exact Or.inr ⟨p, msg, ⟨hp, raw, hraw, hmsg, rfl⟩, movesBy_handleMessage hi hp hmsg hcmd⟩
      · exact Or.inl (Outcome.lapses hi hp hout hfiling hm)
  | accept fd a b c d hfd =>
    exact Or.inl (lapses_run (o := .accept fd _) hi
      ⟨hfd, oneLine_inetNtoa a b c d, isHost_inetNtoa a b c d, inetNtoa_ne_nil a b c d⟩ trivial)
  | clock now => exact Or.inl (lapses_run (o := .clock now) hi trivial trivial)
  | checkTimeouts => exact Or.inl (lapses_checkTimeouts hi)
  | checkPendingCloseTimeouts =>
    exact Or.inl (lapses_runs (fun op => Op.Closing.silent) hi
      (closing_checkPendingCloseTimeouts hi))
  | tick => exact Or.inl (hi.lapses_abortWhere (by decide) _)
  | updateInterests =>
    exact Or.inl (lapses_runs (fun op => Op.Idle.silent) hi idle_updateInterests)

/-! ### The table of transfers -/

omit [Libcpp] in
/-- Where nothing is announced there is no chunk. -/
theorem not_isDataLine_of_quiet {w : Str} (h : announces w = false) : ¬IsDataLine w := by
  rintro ⟨source, rest, hw⟩
  simp [announces, hw] at h

/-- What stands in the table after a move, and was not touched by it. -/
theorem get?_of_erase {k : ℤ} (hfiles : t.files = (s.updateTransfers fun ts => ts.erase k).files)
    (htr : t.files.transfers.get? id = some tr) : s.files.transfers.get? id = some tr ∧ id ≠ k := by
  rw [hfiles] at htr
  have htr' : (s.files.transfers.erase k).get? id = some tr := htr
  rw [OrdMap.get?_erase] at htr'
  split_ifs at htr' with hk
  exact ⟨htr', Ne.symm hk⟩

theorem get?_of_modify {k : ℤ} {f : Transfer → Transfer}
    (hfiles : t.files = (s.updateTransfers fun ts => ts.modify k f).files)
    (htr : t.files.transfers.get? id = some tr) :
    ∃ old, s.files.transfers.get? id = some old ∧ tr = if id = k then f old else old := by
  rw [hfiles] at htr
  have htr' : (s.files.transfers.modify k f).get? id = some tr := htr
  rw [OrdMap.get?_modify] at htr'
  obtain ⟨old, hold, rfl⟩ := Option.map_eq_some_iff.mp htr'
  exact ⟨old, hold, rfl⟩

theorem get?_of_addTransfer {new : Transfer} (hfiles : t.files = (s.addTransfer new).files)
    (htr : t.files.transfers.get? id = some tr) :
    s.files.transfers.get? id = some tr ∨ id = s.files.nextId ∧ tr = new := by
  rw [hfiles] at htr
  have htr' : (s.files.transfers.insert s.files.nextId new).get? id = some tr := htr
  rw [OrdMap.get?_insert] at htr'
  split_ifs at htr' with hk
  · exact Or.inr ⟨hk.symm, (Option.some.inj htr').symm⟩
  · exact Or.inl htr'

/-- **What a move leaves of a transfer**: it is still between the same clients, and it was
accepted before unless this is what was done. -/
theorem FileMove.stays (h : FileMove s t act) (hi : s.Inv) {old tr : Transfer}
    (hold : s.files.transfers.get? id = some old) (htr : t.files.transfers.get? id = some tr)
    (hab : s.Between old a b) :
    t.Between tr a b ∧ (tr.accepted = true → old.accepted = true ∨ act = .accept id) := by
  have hsame : t.clients = s.clients → s.files.transfers.get? id = some tr →
      t.Between tr a b ∧ (tr.accepted = true → old.accepted = true ∨ act = .accept id) := by
    intro hc htr'
    obtain rfl := Option.some.inj (hold.symm.trans htr')
    exact ⟨⟨hc ▸ hab.sender, hc ▸ hab.recipient⟩, Or.inl⟩
  have hadvanced : ∀ {new : Transfer}, old.Advances new → t.clients = s.clients → t.Between new a b :=
    fun hadv hc => ⟨by rw [hc, hadv.senderFd]; exact hab.sender,
      by rw [hc, hadv.recipientFd]; exact hab.recipient⟩
  cases h with
  | quiet h =>
    obtain rfl := Option.some.inj (hold.symm.trans (h.files ▸ htr))
    exact ⟨h.between id old a b hold hab, Or.inl⟩
  | offer hfresh _ _ hc hf _ _ =>
    rcases get?_of_addTransfer hf htr with htr' | ⟨rfl, rfl⟩
    · exact hsame hc htr'
    · exact absurd (hi.transferTable.below _ _ hold).2 (lt_irrefl _)
  | reject _ _ hc hf _ _ => exact hsame hc (get?_of_erase hf htr).1
  | finish _ _ hc hf _ _ => exact hsame hc (get?_of_erase hf htr).1
  | abort _ _ hc hf _ _ _ => exact hsame hc (get?_of_erase hf htr).1
  | accept htr₀ _ hc hf hadv _ _ _ =>
    obtain ⟨old', hold', rfl⟩ := get?_of_modify hf htr
    obtain rfl := Option.some.inj (hold.symm.trans hold')
    split_ifs with hk
    · subst hk
      obtain rfl := Option.some.inj (hold.symm.trans htr₀)
      exact ⟨hadvanced hadv hc, fun _ => Or.inr rfl⟩
    · rw [if_neg hk] at htr
      exact ⟨⟨hc ▸ hab.sender, hc ▸ hab.recipient⟩, Or.inl⟩
  | data htr₀ _ hc hf hadv hacc _ _ =>
    obtain ⟨old', hold', rfl⟩ := get?_of_modify hf htr
    obtain rfl := Option.some.inj (hold.symm.trans hold')
    split_ifs with hk
    · subst hk
      obtain rfl := Option.some.inj (hold.symm.trans htr₀)
      exact ⟨hadvanced hadv hc, fun _ => Or.inl hacc⟩
    · exact ⟨⟨hc ▸ hab.sender, hc ▸ hab.recipient⟩, Or.inl⟩

namespace Lapses

/-- A transfer that did not lapse is as it was. -/
theorem stays (h : s.Lapses t) (htr : t.files.transfers.get? id = some tr) :
    s.files.transfers.get? id = some tr ∧ (s.Between tr a b → t.Between tr a b) := by
  induction h with
  | refl => exact ⟨htr, fun hab => hab⟩
  | tail _ hmove ih =>
    rcases hmove with ⟨-, hquiet | ⟨k, hmove⟩⟩
    · have htr' := hquiet.files ▸ htr
      exact ⟨(ih htr').1, fun hab => hquiet.between id tr a b htr' ((ih htr').2 hab)⟩
    · cases hmove with
      | abort _ _ hc hf _ _ _ =>
        have htr' := (get?_of_erase hf htr).1
        refine ⟨(ih htr').1, fun hab => ?_⟩
        have hmid := (ih htr').2 hab
        exact ⟨hc ▸ hmid.sender, hc ▸ hmid.recipient⟩

/-- No chunk is sent while transfers lapse. -/
theorem no_data (h : s.Lapses t) :
    ∃ new, t.spoken = new ++ s.spoken ∧ ∀ e ∈ new, ¬IsDataLine e.2 := by
  induction h with
  | refl => exact ⟨[], rfl, by simp⟩
  | tail _ hmove ih =>
    obtain ⟨new, hnew, hnone⟩ := ih
    rcases hmove with ⟨-, hquiet | ⟨k, hmove⟩⟩
    · obtain ⟨more, hmore, hquiet⟩ := hquiet.spoken
      refine ⟨more ++ new, by rw [hmore, hnew, List.append_assoc], fun e he => ?_⟩
      rcases List.mem_append.mp he with he | he
      · exact not_isDataLine_of_quiet (hquiet e he)
      · exact hnone e he
    · cases hmove with
      | abort _ _ _ _ hs hw hw' =>
        refine ⟨_ :: _ :: new, by rw [hs, hnew]; rfl, fun e he => ?_⟩
        rcases List.mem_cons.mp he with rfl | he
        · exact fun hdata => absurd (hw'.chunk hdata) (by decide)
        rcases List.mem_cons.mp he with rfl | he
        · exact fun hdata => absurd (hw.chunk hdata) (by decide)
        · exact hnone e he

end Lapses

/-- **What a step leaves of a transfer**: it is between the same clients, and if it was not
accepted before, its recipient accepted it by this line. -/
theorem Step.stays (h : Step M s t) (hi : s.Inv) {old : Transfer}
    (hold : s.files.transfers.get? id = some old) (htr : t.files.transfers.get? id = some tr)
    (hab : s.Between old a b) :
    t.Between tr a b ∧ (tr.accepted = true → old.accepted = true ∨
      ∃ msg, LineStep M s t b msg ∧ Asks msg "ACCEPT" 2 id) := by
  rcases h.filing hi with hlapse | ⟨p, msg, hline, act, u, hby, hmove, hquiet⟩
  · obtain rfl := Option.some.inj (hold.symm.trans (hlapse.stays (a := a) (b := b) htr).1)
    exact ⟨(hlapse.stays htr).2 hab, Or.inl⟩
  · have htr' : u.files.transfers.get? id = some tr := hquiet.files ▸ htr
    obtain ⟨hmid, hacc⟩ := hmove.stays hi hold htr' hab
    refine ⟨hquiet.between id tr a b htr' hmid, fun h => (hacc h).imp_right fun hact => ?_⟩
    subst hact
    obtain ⟨hasks, tr', htr', hfd⟩ := hby
    obtain rfl := Option.some.inj (hold.symm.trans htr')
    obtain rfl : p = b := Option.some.inj (hline.live.1.symm.trans (hfd ▸ hab.recipient))
    exact ⟨msg, hline, hasks⟩

/-- A transfer that was not there before a step is not accepted after it. -/
theorem Step.offered (h : Step M s t) (hi : s.Inv) (hnone : s.files.transfers.get? id = none)
    (htr : t.files.transfers.get? id = some tr) : tr.accepted = false := by
  have hold : s.files.transfers.get? id ≠ some tr := by simp [hnone]
  rcases h.filing hi with hlapse | ⟨p, msg, hline, act, u, hby, hmove, hquiet⟩
  · exact absurd (hlapse.stays (a := 0) (b := 0) htr).1 hold
  have htr' : u.files.transfers.get? id = some tr := hquiet.files ▸ htr
  cases hmove with
  | quiet h => exact absurd (h.files ▸ htr') hold
  | offer hfresh _ _ _ hf _ _ =>
    rcases get?_of_addTransfer hf htr' with htr | ⟨-, rfl⟩
    · exact absurd htr hold
    · exact hfresh.pending
  | reject _ _ _ hf _ _ | finish _ _ _ hf _ _ | abort _ _ _ hf _ _ _ =>
    exact absurd (get?_of_erase hf htr').1 hold
  | accept _ _ _ hf _ _ _ _ | data _ _ _ hf _ _ _ _ =>
    obtain ⟨old, hold', -⟩ := get?_of_modify hf htr'
    exact absurd (hnone.symm.trans hold') (by simp)

/-- **Whoever accepted a transfer is its recipient**, and did so by a line. -/
theorem Reachable.accepted (h : Reachable M s) (htr : s.files.transfers.get? id = some tr)
    (hacc : tr.accepted = true) :
    ∃ u v b msg, Reachable M u ∧ LineStep M u v b msg ∧ Asks msg "ACCEPT" 2 id ∧ Steps M v s ∧
      s.clients.get? tr.recipientFd = some b := by
  induction h generalizing tr with
  | start password pendingCloseTimeout now reentrant =>
    exact absurd htr (by simp [started])
  | @step s t hreach hstep ih =>
    have hi := hreach.inv
    rcases hold : s.files.transfers.get? id with _ | old
    · exact absurd (hstep.offered hi hold htr) (by simp [hacc])
    obtain ⟨a, b, hab, -⟩ := hi.between hold
    obtain ⟨hab', hstays⟩ := hstep.stays hi hold htr hab
    rcases hstays hacc with hacc' | ⟨msg, hline, hasks⟩
    · obtain ⟨u, v, b', msg, hu, hline, hasks, hrun, hb'⟩ := ih hold hacc'
      obtain rfl : b' = b := Option.some.inj (hb'.symm.trans hab.recipient)
      exact ⟨u, v, b', msg, hu, hline, hasks, hrun.tail hstep, hab'.recipient⟩
    · exact ⟨s, t, b, msg, hreach, hline, hasks, .refl, hab'.recipient⟩

/-- Of the moves only one sends a chunk, to the recipient of a transfer that was accepted. -/
theorem FileMove.chunk (h : FileMove s t act) :
    ∃ new, t.spoken = new ++ s.spoken ∧ ∀ e ∈ new, IsDataLine e.2 → ∃ id tr, act = .data id ∧
      s.files.transfers.get? id = some tr ∧ s.clients.get? tr.recipientFd = some e.1 ∧
        ∃ tr', t.files.transfers.get? id = some tr' := by
  have hother : ∀ {word id w} {P : Prop}, Carries w word id → word ≠ .data → IsDataLine w → P :=
    fun hw hne hdata => absurd (hw.chunk hdata) hne
  cases h with
  | quiet h =>
    obtain ⟨new, hnew, hnone⟩ := h.spoken
    exact ⟨new, hnew, fun e he hdata => absurd hdata (not_isDataLine_of_quiet (hnone e he))⟩
  | offer _ _ _ _ _ hs hw | accept _ _ _ _ _ _ hs hw | reject _ _ _ _ hs hw
  | finish _ _ _ _ hs hw =>
    refine ⟨[_], hs, fun e he hdata => ?_⟩
    obtain rfl := List.mem_singleton.mp he
    exact hother hw (by decide) hdata
  | abort _ _ _ _ hs hw hw' =>
    refine ⟨[_, _], hs, fun e he hdata => ?_⟩
    rcases List.mem_pair.mp he with rfl | rfl
    · exact hother hw' (by decide) hdata
    · exact hother hw (by decide) hdata
  | data htr hab _ hf _ _ hs _ =>
    refine ⟨[_], hs, fun e he _ => ?_⟩
    obtain rfl := List.mem_singleton.mp he
    refine ⟨_, _, rfl, htr, hab.recipient, ?_⟩
    rw [hf]
    exact ⟨_, (OrdMap.get?_modify_self _ _ _).trans (congrArg (Option.map _) htr)⟩

/-- **A chunk is sent** by the sender of a transfer that was accepted, to its recipient. -/
theorem Step.data (h : Step M s t) (hi : s.Inv) :
    ∃ new, t.spoken = new ++ s.spoken ∧ ∀ q w, (q, w) ∈ new → IsDataLine w →
      ∃ p msg id tr, LineStep M s t p msg ∧ Asks msg "DATA" 3 id ∧
        s.files.transfers.get? id = some tr ∧ tr.accepted = true ∧
          s.clients.get? tr.senderFd = some p ∧ s.clients.get? tr.recipientFd = some q ∧
            ∃ tr', t.files.transfers.get? id = some tr' := by
  rcases h.filing hi with hlapse | ⟨p, msg, hline, act, u, hby, hmove, hquiet⟩
  · obtain ⟨new, hnew, hnone⟩ := hlapse.no_data
    exact ⟨new, hnew, fun q w hqw hdata => absurd hdata (hnone _ hqw)⟩
  obtain ⟨more, hmore, hnone⟩ := hquiet.spoken
  obtain ⟨new, hnew, hchunk⟩ := hmove.chunk
  refine ⟨more ++ new, by rw [hmore, hnew, List.append_assoc], fun q w hqw hdata => ?_⟩
  rcases List.mem_append.mp hqw with hqw | hqw
  · exact absurd hdata (not_isDataLine_of_quiet (hnone _ hqw))
  obtain ⟨id, tr, rfl, htr, hrecipient, tr', htr'⟩ := hchunk _ hqw hdata
  obtain ⟨hasks, tr₀, htr₀, hacc, hsender⟩ := hby
  obtain rfl := Option.some.inj (htr.symm.trans htr₀)
  exact ⟨p, msg, id, tr, hline, hasks, htr, hacc, hsender ▸ hline.live.1, hrecipient, tr',
    hquiet.files ▸ htr'⟩

/-- **The table of transfers.** In every reachable state a transfer has a number below the
next one, goes from one client to another, and no two go between the same two; its size is
within the bounds, no more of it than that was relayed, and nothing before its recipient
accepted it by a line. A number that was handed out stands for the transfer it was handed
out for, or for none. A chunk is sent by the sender of a transfer that was accepted and is
in the table, to its recipient. -/
theorem Reachable.transfers (h : Reachable M s) :
    (∀ id tr, s.files.transfers.get? id = some tr →
      id < s.files.nextId ∧ tr.senderFd ≠ tr.recipientFd ∧ 1 ≤ tr.declaredSize ∧
        tr.declaredSize ≤ MAX_FILE_SIZE ∧ tr.relayedBytes ≤ tr.declaredSize) ∧
    (∀ id id' tr tr', s.files.transfers.get? id = some tr →
      s.files.transfers.get? id' = some tr' → tr.senderFd = tr'.senderFd →
        tr.recipientFd = tr'.recipientFd → id = id') ∧
    (∀ t id tr, Steps M s t → id < s.files.nextId → t.files.transfers.get? id = some tr →
      ∃ old, s.files.transfers.get? id = some old ∧ old.Continues tr) ∧
    (∀ id tr, s.files.transfers.get? id = some tr → 0 < tr.relayedBytes → tr.accepted = true ∧
      ∃ u v b msg, Reachable M u ∧ LineStep M u v b msg ∧ Asks msg "ACCEPT" 2 id ∧ Steps M v s ∧
        s.clients.get? tr.recipientFd = some b) ∧
    (∀ t, Step M s t → ∃ new, t.spoken = new ++ s.spoken ∧ ∀ q w, (q, w) ∈ new → IsDataLine w →
      ∃ p msg id tr, LineStep M s t p msg ∧ Asks msg "DATA" 3 id ∧
        s.files.transfers.get? id = some tr ∧ tr.accepted = true ∧
          s.clients.get? tr.senderFd = some p ∧ s.clients.get? tr.recipientFd = some q ∧
            ∃ tr', t.files.transfers.get? id = some tr') := by
  have htable := h.inv.transferTable
  refine ⟨fun id tr htr => ?_, htable.unique, fun t id tr hrun hid htr => ?_,
    fun id tr htr hpos => ?_, fun t hstep => hstep.data h.inv⟩
  · have hsound := htable.sound id tr htr
    exact ⟨(htable.below id tr htr).2, hsound.parties, hsound.pos, hsound.le, hsound.relayed⟩
  · exact (hrun.ages h.inv).transfer id tr hid htr
  · have hacc := (htable.sound id tr htr).accepted hpos
    exact ⟨hacc, h.accepted htr hacc⟩

/-- A file is offered, accepted and sent, after the rehearsal. -/
def delivery : letI := referenceLibcpp; Server :=
  letI := referenceLibcpp
  session rehearsalMatcher rehearsal
    [(0, str "FILE SEND bob f 3"), (1, str "FILE ACCEPT 1"), (0, str "FILE DATA 1 QUJD")]

omit [Libcpp] in
theorem reachable_delivery : letI := referenceLibcpp; Reachable rehearsalMatcher delivery :=
  letI := referenceLibcpp
  reachable_rehearsal.session (by decide)

set_option maxRecDepth 4000 in
omit [Libcpp] in
/-- What was delivered was accepted by its recipient. -/
theorem transfers_delivered : letI := referenceLibcpp
    ∃ u v b msg, Reachable rehearsalMatcher u ∧ LineStep rehearsalMatcher u v b msg ∧
      Asks msg "ACCEPT" 2 1 ∧ Steps rehearsalMatcher v delivery ∧ delivery.clients.get? 5 = some b := by
  let _ := referenceLibcpp
  have hsent : (delivery.files.transfers.get? 1).any (fun tr =>
      decide (0 < tr.relayedBytes ∧ tr.recipientFd = 5)) = true := by decide
  obtain ⟨tr, htr, htest⟩ := (Option.any_eq_true _ _).mp hsent
  obtain ⟨hpos, hfd⟩ := of_decide_eq_true htest
  exact hfd ▸ ((Reachable.transfers reachable_delivery).2.2.2.1 1 tr htr hpos).2

end Server

end FtIrc
