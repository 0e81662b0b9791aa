import FtIrc.Server.Transfers

/-!
# The protocol of a transfer

What the two parties of a transfer are told of it, in order: an offer to the recipient,
an answer to the sender, chunks and an end to the recipient, or an abort to both
(`FtIrc.Phase`). `FtIrc.Server.fileLog` reads it off the lines that were sent.

The server tells them so **as long as nobody answers twice or ends what was not accepted**
(`FtIrc.Server.Orderly`): it looks up who sends a `FILE ACCEPT`, `REJECT` or `END`, but not
whether the transfer was accepted. Then every transfer is in a phase of the protocol in
every state a run leads to (`FtIrc.Server.OrderlySteps.protocol`).
-/

namespace FtIrc

open Abnf Relation

variable [Libcpp]

/-! ### Phases -/

/-- How far a transfer has come, from what its parties were told. -/
inductive Phase
  | fresh
  | offered
  | accepted
  /-- One party was told that it was aborted. -/
  | aborting
  | closed
  deriving DecidableEq

namespace Phase

variable {a b : ClientId} {ph ph' : Phase} {log : List (ClientId × FileWord)}

/-- **What may be told next**, to the sender `a` or to the recipient `b`. -/
def next (a b : ClientId) : Phase → ClientId × FileWord → Option Phase
  | fresh, (q, .offer) => if q = b then some offered else none
  | offered, (q, .ok) => if q = a then some accepted else none
  | offered, (q, .no) => if q = a then some closed else none
  | offered, (q, .abort) => if q = a then some aborting else none
  | accepted, (q, .data) => if q = b then some accepted else none
  | accepted, (q, .finish) => if q = b then some closed else none
  | accepted, (q, .abort) => if q = a then some aborting else none
  | aborting, (q, .abort) => if q = b then some closed else none
  | _, _ => none

/-- The phase after what was told, oldest first, if it was told in order. -/
def after (a b : ClientId) (log : List (ClientId × FileWord)) : Option Phase :=
  log.foldlM (next a b) fresh

omit [Libcpp] in
/-- One thing more is told. -/
theorem after_concat {e : ClientId × FileWord} (h : after a b log = some ph)
    (hnext : next a b ph e = some ph') : after a b (log ++ [e]) = some ph' := by
  rw [after, List.foldlM_append]
  change (after a b log).bind _ = _
  rw [h]
  simp [hnext]

end Phase

/-- A move in order: nobody answers twice, or ends what was not accepted. -/
def FileAct.InOrder (s : Server) : FileAct → Prop
  | .accept id | .reject id => ∀ tr, s.files.transfers.get? id = some tr → tr.accepted = false
  | .finish id => ∀ tr, s.files.transfers.get? id = some tr → tr.accepted = true
  | _ => True

namespace Server

variable {M : Matcher} {s t u : Server} {p q a b : ClientId} {fd : Fd} {tr : Transfer} {id : ℤ}
  {act : FileAct} {word : FileWord} {w : Str} {lines : List (ClientId × Str)}

/-! ### What was told -/

/-- What a line tells of the transfer. -/
def toldOf (id : ℤ) (e : ClientId × Str) : Option (ClientId × FileWord) :=
  (readFile e.2).bind fun r => if r.2 = id then some (e.1, r.1) else none

/-- What lines, the newest first, tell of the transfer, the oldest first. -/
def logOf (id : ℤ) (lines : List (ClientId × Str)) : List (ClientId × FileWord) :=
  (lines.filterMap (toldOf id)).reverse

/-- **What was told of a transfer**, and to whom, oldest first. -/
def fileLog (s : Server) (id : ℤ) : List (ClientId × FileWord) := logOf id s.spoken

section Log

omit [Libcpp]

/-- A line that is read as being of the transfer. -/
theorem logOf_read (h : readFile w = some (word, id)) :
    logOf id ((q, w) :: lines) = logOf id lines ++ [(q, word)] := by
  simp [logOf, toldOf, h]

/-- A line that is not read. -/
theorem logOf_unread (h : readFile w = none) : logOf id ((q, w) :: lines) = logOf id lines := by
  simp [logOf, toldOf, h]

/-- A line that is of another transfer. -/
theorem logOf_other {k : ℤ} (h : Announces w word k) (hne : id ≠ k) :
    logOf id ((q, w) :: lines) = logOf id lines := by
  rcases h with h | h
  · exact logOf_unread h
  · simp [logOf, toldOf, h, Ne.symm hne]

end Log

/-- Nothing was said of transfers. -/
theorem Quietly.fileLog (h : s.Quietly t) (id : ℤ) : t.fileLog id = s.fileLog id := by
  obtain ⟨new, hnew, hquiet⟩ := h.spoken
  have hnone : new.filterMap (toldOf id) = [] := by
    refine List.filterMap_eq_nil_iff.mpr fun e he => ?_
    have hread := hquiet e he
    rw [announces, Bool.or_eq_false_iff, Option.isSome_eq_false_iff, Option.isNone_iff_eq_none] at hread
    rw [toldOf, hread.2]
    rfl
  rw [Server.fileLog, logOf, hnew, List.filterMap_append, hnone]
  rfl

/-! ### The phase of a transfer -/

/-- **Where a transfer stands**, as the server sees it, and what its parties were told. -/
inductive Stage (s : Server) (id : ℤ) : Prop
  /-- The number was not handed out yet. -/
  | ahead : ¬(1 ≤ id ∧ id < s.files.nextId) → s.fileLog id = [] → Stage s id
  /-- The transfer is in the table. -/
  | current {tr : Transfer} {a b : ClientId} : s.files.transfers.get? id = some tr →
      s.Between tr a b → a ≠ b →
      Phase.after a b (s.fileLog id) = some (if tr.accepted then .accepted else .offered) →
      Stage s id
  /-- The transfer is over. -/
  | past {a b : ClientId} {ph : Phase} : 1 ≤ id → id < s.files.nextId →
      s.files.transfers.get? id = none → a ≠ b → Phase.after a b (s.fileLog id) = some ph →
      Stage s id

namespace Stage

/-- A transfer in the table, between the clients it is between. -/
theorem of_get? (h : s.Stage id) (hi : s.Inv) (htr : s.files.transfers.get? id = some tr)
    (hab : s.Between tr a b) : a ≠ b ∧
      Phase.after a b (s.fileLog id) = some (if tr.accepted then .accepted else .offered) := by
  cases h with
  | ahead hnot _ => exact absurd (hi.transferTable.below id tr htr) hnot
  | past _ _ hnone => exact absurd (hnone.symm.trans htr) (by simp)
  | current htr' hab' hne hlog =>
    obtain rfl := Option.some.inj (htr.symm.trans htr')
    obtain rfl := Option.some.inj (hab.sender.symm.trans hab'.sender)
    obtain rfl := Option.some.inj (hab.recipient.symm.trans hab'.recipient)
    exact ⟨hne, hlog⟩

/-- A transfer that nothing was done to. -/
theorem frame (h : s.Stage id) (hlog : t.fileLog id = s.fileLog id)
    (hnext : id < t.files.nextId ↔ id < s.files.nextId)
    (hget : t.files.transfers.get? id = s.files.transfers.get? id)
    (hbetween : ∀ tr a b, s.files.transfers.get? id = some tr → s.Between tr a b → t.Between tr a b) :
    t.Stage id := by
  cases h with
  | ahead hnot hnil => exact .ahead (by rw [hnext]; exact hnot) (hlog.trans hnil)
  | current htr hab hne hphase =>
    exact .current (hget.trans htr) (hbetween _ _ _ htr hab) hne (hlog ▸ hphase)
  | past hpos hlt hnone hne hphase =>
    exact .past hpos (hnext.mpr hlt) (hget.trans hnone) hne (hlog ▸ hphase)

/-- A transfer leaves the table, and its parties are told. -/
theorem close (h : s.Stage id) (hi : s.Inv) {k : ℤ}
    (htr : s.files.transfers.get? k = some tr) (hab : s.Between tr a b) (hc : t.clients = s.clients)
    (hf : t.files = (s.updateTransfers fun ts => ts.erase k).files)
    (hother : id ≠ k → t.fileLog id = s.fileLog id)
    (hself : id = k → a ≠ b → Phase.after a b (s.fileLog id) =
      some (if tr.accepted then .accepted else .offered) →
        ∃ ph, Phase.after a b (t.fileLog id) = some ph) : t.Stage id := by
  have hnext : t.files.nextId = s.files.nextId := (congrArg FileTransferExt.nextId hf).trans rfl
  have hget : ∀ j, t.files.transfers.get? j = (s.files.transfers.erase k).get? j := fun j =>
    congrArg (fun f => f.transfers.get? j) hf
  by_cases hk : id = k
  · subst hk
    obtain ⟨hne, hphase⟩ := h.of_get? hi htr hab
    obtain ⟨ph, hph⟩ := hself rfl hne hphase
    obtain ⟨hpos, hlt⟩ := hi.transferTable.below id tr htr
    exact .past hpos (hnext ▸ hlt) ((hget id).trans (OrdMap.get?_erase_self _ _)) hne hph
  · exact h.frame (hother hk) (by rw [hnext])
      ((hget id).trans (OrdMap.get?_erase_of_ne _ (Ne.symm hk)))
      fun tr a b _ hab => ⟨hc ▸ hab.sender, hc ▸ hab.recipient⟩

/-- A transfer stays in the table and goes on, and a party is told. -/
theorem goOn (h : s.Stage id) (hi : s.Inv) {k : ℤ} {f : Transfer → Transfer}
    (htr : s.files.transfers.get? k = some tr) (hab : s.Between tr a b) (hc : t.clients = s.clients)
    (hf : t.files = (s.updateTransfers fun ts => ts.modify k f).files) (hadv : tr.Advances (f tr))
    (hother : id ≠ k → t.fileLog id = s.fileLog id)
    (hself : id = k → Phase.after a b (s.fileLog id) =
      some (if tr.accepted then .accepted else .offered) →
        Phase.after a b (t.fileLog id) = some (if (f tr).accepted then .accepted else .offered)) :
    t.Stage id := by
  have hnext : t.files.nextId = s.files.nextId := (congrArg FileTransferExt.nextId hf).trans rfl
  have hget : ∀ j, t.files.transfers.get? j = (s.files.transfers.modify k f).get? j := fun j =>
    congrArg (fun f => f.transfers.get? j) hf
  by_cases hk : id = k
  · subst hk
    obtain ⟨hne, hphase⟩ := h.of_get? hi htr hab
    refine .current ((hget id).trans ?_) ⟨?_, ?_⟩ hne (hself rfl hphase)
    · rw [OrdMap.get?_modify_self, htr, Option.map_some]
    · rw [hc, hadv.senderFd]
      exact hab.sender
    · rw [hc, hadv.recipientFd]
      exact hab.recipient
  · exact h.frame (hother hk) (by rw [hnext]) ((hget id).trans (OrdMap.get?_modify_of_ne _ _ hk))
      fun tr a b _ hab => ⟨hc ▸ hab.sender, hc ▸ hab.recipient⟩

/-- A transfer is offered. -/
theorem offer (h : s.Stage id) (hi : s.Inv) (hfresh : tr.Fresh) (hab : s.Between tr a b)
    (hne : a ≠ b) (hc : t.clients = s.clients) (hf : t.files = (s.addTransfer tr).files)
    (hother : id ≠ s.files.nextId → t.fileLog id = s.fileLog id)
    (hself : id = s.files.nextId → t.fileLog id = s.fileLog id ++ [(b, .offer)]) : t.Stage id := by
  have hnext : t.files.nextId = s.files.nextId + 1 := congrArg FileTransferExt.nextId hf
  have hget : ∀ j, t.files.transfers.get? j = (s.files.transfers.insert s.files.nextId tr).get? j :=
    fun j => congrArg (fun f => f.transfers.get? j) hf
  by_cases hk : id = s.files.nextId
  · have hnil : s.fileLog id = [] := by
      cases h with
      | ahead _ hnil => exact hnil
      | current htr _ _ _ => exact absurd (hi.transferTable.below _ _ htr).2 (by omega)
      | past _ hlt _ _ _ => exact absurd hlt (by omega)
    refine .current ((hget id).trans (hk ▸ OrdMap.get?_insert_self _ _ _))
      ⟨hc ▸ hab.sender, hc ▸ hab.recipient⟩ hne ?_
    rw [hself hk, hnil, hfresh.pending]
    simp [Phase.after, Phase.next]
  · refine h.frame (hother hk) ?_ ((hget id).trans (OrdMap.get?_insert_of_ne _ _ (Ne.symm hk)))
      fun tr a b _ hab => ⟨hc ▸ hab.sender, hc ▸ hab.recipient⟩
    rw [hnext]
    omega

/-- **A move in order** leaves every transfer in a phase of the protocol. -/
theorem move (h : s.Stage id) (hmove : FileMove s t act) (hi : s.Inv) (hid : id ≤ LONG_MAX)
    (horder : act.InOrder s) : t.Stage id := by
  have hother : ∀ {k : ℤ} {e : ClientId × Str} {word : FileWord}, t.spoken = e :: s.spoken →
      Announces e.2 word k → id ≠ k → t.fileLog id = s.fileLog id := fun hs hw hk =>
    (congrArg (logOf id) hs).trans (logOf_other hw hk)
  have hsaid : ∀ {q : ClientId} {w : Str} {word : FileWord}, t.spoken = (q, w) :: s.spoken →
      readFile w = some (word, id) → t.fileLog id = s.fileLog id ++ [(q, word)] := fun hs hw =>
    (congrArg (logOf id) hs).trans (logOf_read hw)
  have hunread : ∀ {q : ClientId} {w : Str}, t.spoken = (q, w) :: s.spoken →
      readFile w = none → t.fileLog id = s.fileLog id := fun hs hw =>
    (congrArg (logOf id) hs).trans (logOf_unread hw)
  cases hmove with
  | quiet hquiet =>
    exact h.frame (hquiet.fileLog id) (by rw [hquiet.files]) (by rw [hquiet.files]) fun tr a b =>
      hquiet.between id tr a b
  | offer hfresh hab hne hc hf hs hw =>
    exact h.offer hi hfresh hab hne hc hf (hother hs hw.sound) fun hk =>
      hsaid hs (hk ▸ hw.read (by decide) (by decide) (hk ▸ hid))
  | accept htr hab hc hf hadv hacc hs hw =>
    refine h.goOn hi htr hab hc hf hadv (hother hs hw.sound) fun hk hphase => ?_
    subst hk
    rw [horder _ htr] at hphase
    rw [hsaid hs (hw.read (by decide) (by decide) hid), hacc]
    exact Phase.after_concat hphase (by simp [Phase.next])
  | reject htr hab hc hf hs hw =>
    refine h.close hi htr hab hc hf (hother hs hw.sound) fun hk _ hphase => ⟨.closed, ?_⟩
    subst hk
    rw [horder _ htr] at hphase
    rw [hsaid hs (hw.read (by decide) (by decide) hid)]
    exact Phase.after_concat hphase (by simp [Phase.next])
  | data htr hab hc hf hadv hacc hs hw =>
    refine h.goOn hi htr hab hc hf hadv (hother hs hw.sound) fun hk hphase => ?_
    subst hk
    rw [hadv.accepted hacc, if_pos rfl]
    rw [hacc, if_pos rfl] at hphase
    -- a chunk that was cut too short is not read
    rcases hw.sound with hread | hread
    · rw [hunread hs hread]
      exact hphase
    · rw [hsaid hs hread]
      exact Phase.after_concat hphase (by simp [Phase.next])
  | finish htr hab hc hf hs hw =>
    refine h.close hi htr hab hc hf (hother hs hw.sound) fun hk _ hphase => ?_
    subst hk
    rw [horder _ htr, if_pos rfl] at hphase
    rcases hw.sound with hread | hread
    · exact ⟨_, hunread hs hread ▸ hphase⟩
    · refine ⟨.closed, ?_⟩
      rw [hsaid hs hread]
      exact Phase.after_concat hphase (by simp [Phase.next])
  | @abort k tr a b w w' htr hab hc hf hs hw hw' =>
    refine h.close hi htr hab hc hf (fun hk => ?_) fun hk _ hphase => ⟨.closed, ?_⟩
    · exact ((congrArg (logOf id) hs).trans (logOf_other hw'.sound hk)).trans (logOf_other hw.sound hk)
    · subst hk
      have hlog : t.fileLog id = s.fileLog id ++ [(a, .abort)] ++ [(b, .abort)] := by
        refine (congrArg (logOf id) hs).trans ?_
        rw [logOf_read (hw'.read (by decide) (by decide) hid),
          logOf_read (hw.read (by decide) (by decide) hid)]
        rfl
      have htold : Phase.after a b (s.fileLog id ++ [(a, .abort)]) = some .aborting := by
        refine Phase.after_concat hphase ?_
        split_ifs <;> simp [Phase.next]
      rw [hlog]
      exact Phase.after_concat htold (by simp [Phase.next])

/-- Nothing happens to the transfer. -/
theorem quietly (h : s.Stage id) (hquiet : s.Quietly t) : t.Stage id :=
  h.frame (hquiet.fileLog id) (by rw [hquiet.files]) (by rw [hquiet.files]) fun tr a b =>
    hquiet.between id tr a b

/-- While transfers lapse nothing is out of order. -/
theorem lapses (h : s.Stage id) (hlapse : s.Lapses t) (hid : id ≤ LONG_MAX) : t.Stage id := by
  induction hlapse with
  | refl => exact h
  | tail _ hmove ih =>
    obtain ⟨hi, hquiet | ⟨k, hmove⟩⟩ := hmove
    · exact ih.quietly hquiet
    · exact ih.move hmove hi hid trivial

end Stage

/-! ### Runs in order -/

/-- **A step in order**: if it is a line, then it is neither an answer to a transfer by its
recipient after it was accepted, nor the end of one by its sender before. -/
def Orderly (M : Matcher) (s t : Server) : Prop :=
  ∀ p msg id tr, LineStep M s t p msg → s.files.transfers.get? id = some tr →
    (Asks msg "ACCEPT" 2 id ∨ Asks msg "REJECT" 2 id → tr.recipientFd = (s.deref p).fd →
      tr.accepted = false) ∧
    (Asks msg "END" 2 id → tr.senderFd = (s.deref p).fd → tr.accepted = true)

/-- Runs of steps in order. -/
abbrev OrderlySteps (M : Matcher) : Server → Server → Prop :=
  ReflTransGen fun s t => Step M s t ∧ Orderly M s t

theorem OrderlySteps.steps (h : OrderlySteps M s t) : Steps M s t :=
  ReflTransGen.mono (fun _ _ h => h.1) _ _ h

/-- What a client asked for by a line in order is a move in order. -/
theorem Orderly.inOrder {msg : Message} (h : Orderly M s t) (hline : LineStep M s t p msg)
    (hby : act.By s p msg) : act.InOrder s := by
  cases act with
  | accept id =>
    obtain ⟨hasks, tr, htr, hfd⟩ := hby
    intro tr' htr'
    obtain rfl := Option.some.inj (htr.symm.trans htr')
    exact (h p msg id tr hline htr).1 (Or.inl hasks) hfd
  | reject id =>
    obtain ⟨hasks, tr, htr, hfd⟩ := hby
    intro tr' htr'
    obtain rfl := Option.some.inj (htr.symm.trans htr')
    exact (h p msg id tr hline htr).1 (Or.inr hasks) hfd
  | finish id =>
    obtain ⟨hasks, tr, htr, hfd⟩ := hby
    intro tr' htr'
    obtain rfl := Option.some.inj (htr.symm.trans htr')
    exact (h p msg id tr hline htr).2 hasks hfd
  | _ => trivial

/-- **A step in order** leaves every transfer in a phase of the protocol. -/
theorem Stage.step (h : s.Stage id) (hstep : Step M s t) (horder : Orderly M s t) (hi : s.Inv)
    (hid : id ≤ LONG_MAX) : t.Stage id := by
  rcases hstep.filing hi with hlapse | ⟨p, msg, hline, act, u, hby, hmove, hquiet⟩
  · exact h.lapses hlapse hid
  · exact (h.move hmove hi hid (horder.inOrder hline hby)).quietly hquiet

/-- **A run in order** leaves every transfer in a phase of the protocol. -/
theorem Stage.steps (h : s.Stage id) (hrun : OrderlySteps M s t) (hi : s.Inv)
    (hid : id ≤ LONG_MAX) : t.Stage id := by
  induction hrun with
  | refl => exact h
  | tail hrun hstep ih => exact ih.step hstep.1 hstep.2 (Steps.inv (OrderlySteps.steps hrun) hi) hid

/-- **What the parties of a transfer are told is in order**: an offer to the recipient, at
most one answer to the sender, chunks and an end to the recipient after it was accepted, or
an abort to both, and nothing after that; in every state that a run leads to in which nobody
answers a transfer that was accepted or ends one that was not. -/
theorem OrderlySteps.protocol (password : Str) (pendingCloseTimeout now : Time)
    (reentrant : List Str) (h : OrderlySteps M (started password pendingCloseTimeout now reentrant) s) :
    ∀ id ≤ LONG_MAX, ∃ a b ph, a ≠ b ∧ Phase.after a b (s.fileLog id) = some ph ∧
      ∀ tr, s.files.transfers.get? id = some tr → s.Between tr a b := by
  intro id hid
  have hi := Inv.started password pendingCloseTimeout now reentrant
  have hstart : (started password pendingCloseTimeout now reentrant).Stage id := by
    refine .ahead ?_ rfl
    rintro ⟨hpos, hlt⟩
    have hnext : (started password pendingCloseTimeout now reentrant).files.nextId = 1 := rfl
    omega
  have hend := Steps.inv (OrderlySteps.steps h) hi
  cases hstart.steps h hi hid with
  | ahead hnot hnil =>
    refine ⟨0, 1, .fresh, by decide, by rw [hnil]; rfl, fun tr htr => ?_⟩
    exact absurd (hend.transferTable.below id tr htr) hnot
  | @current tr a b htr hab hne hphase =>
    refine ⟨a, b, _, hne, hphase, fun tr' htr' => ?_⟩
    exact Option.some.inj (htr.symm.trans htr') ▸ hab
  | @past a b ph _ _ hnone hne hphase =>
    exact ⟨a, b, ph, hne, hphase, fun tr htr => absurd (hnone.symm.trans htr) (by simp)⟩

/-! ### An offer, and an end without an answer -/

/-- Where there is no transfer every step is in order. -/
theorem Orderly.of_no_transfer (h : s.files.transfers.entries = []) : Orderly M s t := by
  intro p msg id tr _ htr
  have hmem := OrdMap.mem_entries.mpr htr
  rw [h] at hmem
  exact absurd hmem (by simp)

/-- Whether there is no transfer when any of the lines of a session arrives. -/
def sessionClear (M : Matcher) : Server → List (ClientId × Str) → Bool
  | _, [] => true
  | s, (p, raw) :: rest =>
    s.files.transfers.entries.isEmpty && sessionClear M (s.handleMessage M p raw) rest

/-- A session with no transfer until its last line is in order. -/
theorem orderlySteps_session {lines : List (ClientId × Str)} (hok : sessionOk M s lines = true)
    (hclear : sessionClear M s lines = true) : OrderlySteps M s (session M s lines) := by
  induction lines generalizing s with
  | nil => exact .refl
  | cons e lines ih =>
    obtain ⟨hline, hrest⟩ := (Bool.and_eq_true _ _).mp hok
    obtain ⟨hclients, htd, hraw⟩ := of_decide_eq_true hline
    obtain ⟨hnone, hclear⟩ := (Bool.and_eq_true _ _).mp hclear
    exact .head ⟨.client e.1 (.line s e.2 ⟨hclients, htd⟩ hraw),
      .of_no_transfer (List.isEmpty_iff.mp hnone)⟩ (ih hrest hclear)

/-- The lines of the rehearsal, and an offer. -/
def proposal : List (ClientId × Str) :=
  script ++ [(1, str "JOIN #a"), (0, str "FILE SEND bob f 3")]

omit [Libcpp] in
theorem orderlySteps_doorway : letI := referenceLibcpp
    OrderlySteps rehearsalMatcher (started (str "secret") 30 0 []) doorway :=
  letI := referenceLibcpp
  (ReflTransGen.single ⟨.accept _ 4 127 0 0 1 rfl, .of_no_transfer rfl⟩).tail
    ⟨.accept _ 5 127 0 0 1 rfl, .of_no_transfer rfl⟩

set_option maxRecDepth 4000 in
omit [Libcpp] in
theorem orderlySteps_proposal : letI := referenceLibcpp
    OrderlySteps rehearsalMatcher doorway (session rehearsalMatcher doorway proposal) :=
  letI := referenceLibcpp
  orderlySteps_session (by decide) (by decide)

omit [Libcpp] in
/-- The parties of a transfer that was just offered are told in order. -/
theorem protocol_proposed : letI := referenceLibcpp
    ∃ a b ph, a ≠ b ∧
      Phase.after a b ((session rehearsalMatcher doorway proposal).fileLog 1) = some ph ∧
        ∀ tr, (session rehearsalMatcher doorway proposal).files.transfers.get? 1 = some tr →
          (session rehearsalMatcher doorway proposal).Between tr a b :=
  letI := referenceLibcpp
  OrderlySteps.protocol (str "secret") 30 0 []
    (orderlySteps_doorway.trans orderlySteps_proposal) 1 (by decide)

/-- An offer of the rehearsed session is ended before it was answered. -/
def hasty : letI := referenceLibcpp; Server :=
  letI := referenceLibcpp
  session rehearsalMatcher rehearsal [(0, str "FILE SEND bob f 3"), (0, str "FILE END 1")]

set_option maxRecDepth 20000 in
omit [Libcpp] in
/-- **Its recipient is told of the end right after the offer.** -/
theorem hasty_fileLog : letI := referenceLibcpp
    hasty.fileLog 1 = [(1, .offer), (1, .finish)] :=
  letI := referenceLibcpp
  by decide

omit [Libcpp] in
/-- **The server does not keep to the protocol in every run**: the end of a transfer reaches
its recipient before any answer. -/
theorem not_protocol : letI := referenceLibcpp
    ¬∀ s, Reachable rehearsalMatcher s → ∀ id ≤ LONG_MAX,
      ∃ a b ph, a ≠ b ∧ Phase.after a b (s.fileLog id) = some ph := by
  let _ := referenceLibcpp
  intro h
  obtain ⟨a, b, ph, -, hphase⟩ := h hasty (reachable_rehearsal.session (by decide)) 1 (by decide)
  rw [hasty_fileLog] at hphase
  by_cases hb : 1 = b
  · simp [Phase.after, Phase.next, hb] at hphase
  · simp [Phase.after, Phase.next, hb] at hphase

end Server

end FtIrc
