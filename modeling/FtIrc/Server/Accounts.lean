import FtIrc.Library.Base64
import FtIrc.Server.Relays

/-!
# The bytes of a transfer

What the server takes for the length of a chunk is the number of octets it is read as, if the
chunk is in base64 (`FtIrc.decodedBytes_eq`); that it is, the server does not check: it looks at
the octets of a chunk one by one. What it keeps of a transfer is the sum over the chunks that
were sent on (`FtIrc.Server.Books.relayedBytes`), which is also what the recipient is told when
the transfer ends (`FtIrc.Server.Books.accounts`).
-/

namespace FtIrc

open Abnf

variable {chunk : Str}

/-- An octet of a text with padding, from the end. -/
theorem getD_padded {ds : Str} (h : Base64.pad ∉ ds) (k i : ℕ) (hi : i < (ds ++ List.replicate k Base64.pad).length) :
    (ds ++ List.replicate k Base64.pad).getD i 0 = 61 ↔ ds.length ≤ i := by
  constructor
  · intro heq
    by_contra hlt
    have hlt : i < ds.length := not_le.mp hlt
    have hmem : ds[i] ∈ ds := List.getElem_mem _
    rw [List.getD_eq_getElem _ _ hi, List.getElem_append_left hlt] at heq
    rw [heq] at hmem
    exact h hmem
  · intro hle
    rw [List.getD_eq_getElem _ _ hi, List.getElem_append_right hle, List.getElem_replicate]
    rfl

/-- **The length of a chunk in base64** is the number of octets it is read as. -/
theorem decodedBytes_eq (h : Base64.WellFormed chunk) :
    ∃ os, Base64.decode chunk = some os ∧ decodedBytes chunk = os.length := by
  obtain ⟨os, hos, hlen⟩ := h.decode
  refine ⟨os, hos, hlen ▸ ?_⟩
  obtain ⟨hshape, -, hrem, hpad⟩ := h
  set ds := Base64.digits chunk with hds
  set k := chunk.length - ds.length with hk
  have hno : Base64.pad ∉ ds := Base64.pad_notMem_digits
  have hle : ds.length ≤ chunk.length := by
    rw [hshape, List.length_append]
    exact Nat.le_add_right _ _
  have hget : ∀ i, i < chunk.length → (chunk.getD i 0 = 61 ↔ ds.length ≤ i) := fun i hi => by
    have hi' := hi
    rw [hshape] at hi' ⊢
    exact getD_padded hno k i hi'
  have hlast : chunk.getLast? = some 61 ↔ ds.length < chunk.length := by
    by_cases hnil : chunk = []
    · simp [hnil]
    have hpos : 0 < chunk.length := List.length_pos_of_ne_nil hnil
    rw [List.getLast?_eq_getElem?, List.getElem?_eq_getElem (by omega), Option.some_inj,
      ← List.getD_eq_getElem _ 0 (by omega), hget _ (by omega)]
    omega
  have hbefore : (chunk.length > 1 ∧ chunk.getD (chunk.length - 2) 0 = 61) ↔
      1 < chunk.length ∧ ds.length + 2 ≤ chunk.length := by
    constructor
    · rintro ⟨hlong, heq⟩
      have := (hget _ (by omega)).mp heq
      omega
    · rintro ⟨hlong, hmore⟩
      exact ⟨hlong, (hget _ (by omega)).mpr (by omega)⟩
  simp only [decodedBytes, hlast, hbefore]
  split_ifs <;> omega

variable [Libcpp]

namespace Server

variable {M : Matcher} {s t u : Server} {p q : ClientId} {msg : Message} {tr : Transfer} {id : ℤ}

/-! ### One step -/

/-- **The step relays a chunk**: it is a line with one, and a line with a chunk is queued. -/
structure Relays (M : Matcher) (s t : Server) (p : ClientId) (msg : Message) (id : ℤ) : Prop where
  line : LineStep M s t p msg
  asks : Asks msg "DATA" 3 id
  sent : ∃ q w, t.spoken = (q, w) :: s.spoken ∧ IsDataLine w

/-- The refusal of a client that is not registered is quiet. -/
theorem LineStep.quietly_refusal (h : LineStep M s t p msg) (hi : s.Inv) (raw : Str) :
    s.Quietly ((s.record (.inbound p raw)).sendReply p "451" (str ":You have not registered")) := by
  have hhear : (Op.hear p raw).Allowed s := h.live
  have hheard : (s.record (.inbound p raw)).Inv := hi.run hhear
  have hturn := Turn.start hheard h.live
  have hquiet := quietly_runs (fun op hop => hop.silent (by decide) (by decide)) hheard
    (hturn.reply (m := .acting) (n := "451") (a := str ":You have not registered") (by decide))
  exact ⟨hquiet.files, hquiet.spoken, fun id tr a b htr hab =>
    hquiet.between id tr a b htr ⟨hab.sender, hab.recipient⟩⟩

/-- **A chunk that is relayed** is one, and counted by its length. -/
theorem Relays.relay (h : Relays M s t p msg id) (hi : s.Inv) :
    ∃ raw q tr, s.files.transfers.get? id = some tr ∧ isBase64Chunk (msg.param 2) = true ∧
      decodedBytes (msg.param 2) ≠ 0 ∧ t = (s.record (.inbound p raw)).relayChunk p q msg id := by
  obtain ⟨q, w, hw, hdata⟩ := h.sent
  obtain ⟨raw, ⟨-, ht⟩ | ht⟩ := h.line.data h.asks
  · obtain ⟨new, hnew, hnone⟩ := (h.line.quietly_refusal hi raw).spoken
    rw [← ht] at hnew
    have hone : new = [(q, w)] := List.append_cancel_right (hnew.symm.trans hw)
    exact absurd hdata (not_isDataLine_of_quiet (hnone (q, w) (hone ▸ List.mem_cons_self)))
  have hhear : (Op.hear p raw).Allowed s := h.line.live
  have hheard : (s.record (.inbound p raw)).Inv := hi.run hhear
  rcases fileData_cases (s := s.record (.inbound p raw)) (p := p) h.asks.id with
    ⟨text, hcase⟩ | ⟨why, hcase⟩ | ⟨tr, q', htr, -, hchunk, hpos, hcase⟩
  · -- a notice is no line with a chunk
    have hnotice : t.spoken = (p, wire (str ":" ++ SERVER_NAME ++ str " " ++ (str "NOTICE " ++
        (s.deref p).nickname ++ str " :" ++ text))) :: s.spoken := by
      rw [ht, hcase]
      rfl
    have hline := (Prod.ext_iff.mp (List.cons.inj (hw.symm.trans hnotice)).1).2
    dsimp only at hline
    rw [hline] at hdata
    exact absurd hdata (not_isDataLine_notice (hi.shortNick p) text)
  · -- an abort is told to both, or to nobody
    rcases hget : s.files.transfers.get? id with _ | tr
    · have hsame : t.spoken = s.spoken := by
        have hget' : (s.record (.inbound p raw)).files.transfers.get? id = none := hget
        rw [ht, hcase, abortTransfer, hget']
        rfl
      exact absurd (congrArg List.length (hw.symm.trans hsame)) (by simp)
    · have hget' : (s.record (.inbound p raw)).files.transfers.get? id = some tr := hget
      have hmove := hheard.move_abortTransfer hget' why
      rw [← hcase, ← ht] at hmove
      cases hmove with
      | abort _ _ _ _ hs _ _ =>
        have hs' : t.spoken = _ :: _ :: s.spoken := hs
        exact absurd (congrArg List.length (hw.symm.trans hs')) (by simp)
  · exact ⟨raw, q', tr, htr, hchunk, hpos, ht.trans hcase⟩

/-- A write to a transfer that leaves what was sent on of it. -/
theorem get?_of_touched {k : ℤ} {f : Transfer → Transfer}
    (htr : (s.files.transfers.modify k f).get? id = some tr)
    (hf : ∀ tr, (f tr).relayedBytes = tr.relayedBytes) :
    ∃ old, s.files.transfers.get? id = some old ∧ tr.relayedBytes = old.relayedBytes := by
  rw [OrdMap.get?_modify] at htr
  obtain ⟨old, hold, rfl⟩ := Option.map_eq_some_iff.mp htr
  refine ⟨old, hold, ?_⟩
  split_ifs
  · exact hf old
  · rfl

/-- An answer leaves what was sent on of every transfer that is not over. -/
theorem relayedBytes_fileAnswer {accept : Bool}
    (htr : (s.fileAnswer p msg accept).files.transfers.get? id = some tr) :
    ∃ old, s.files.transfers.get? id = some old ∧ tr.relayedBytes = old.relayedBytes := by
  rw [fileAnswer] at htr
  dsimp only at htr
  split at htr
  · exact ⟨tr, htr, rfl⟩
  rename_i k hk
  split at htr
  · exact ⟨tr, htr, rfl⟩
  split_ifs at htr
  · exact ⟨tr, htr, rfl⟩
  · split at htr
    · exact ⟨tr, (get?_of_erase (k := k) rfl htr).1, rfl⟩
    · have hleft : (s.files.transfers.modify k fun t =>
          { t with lastActivity := s.clock, accepted := true }).get? id = some tr := htr
      exact get?_of_touched hleft fun _ => rfl
  · split at htr
    · exact ⟨tr, (get?_of_erase (k := k) rfl htr).1, rfl⟩
    · have hleft : ((s.files.transfers.modify k fun t =>
          { t with lastActivity := s.clock }).erase k).get? id = some tr := htr
      rw [OrdMap.get?_erase] at hleft
      split_ifs at hleft
      exact get?_of_touched hleft fun _ => rfl

theorem files_noticeFd {fd : Fd} {text : Str} : (s.noticeFd fd text).files = s.files := by
  rw [noticeFd]
  split <;> rfl

/-- An abort leaves the other transfers. -/
theorem get?_of_abortTransfer {k : ℤ} {why : Str}
    (htr : (s.abortTransfer k why).files.transfers.get? id = some tr) :
    s.files.transfers.get? id = some tr := by
  rw [abortTransfer] at htr
  split at htr
  · exact htr
  · refine (get?_of_erase (k := k) ?_ htr).1
    simp only [updateTransfers, files_noticeFd]

/-- The line of a chunk is a line with one, even if it is cut. -/
theorem Inv.isDataLine (hi : s.Inv) (x y : Str) :
    IsDataLine (wire (dataText (s.deref p).getPrefix x y)) := by
  have hlit : IsFileLiteral " FILE DATA " (str "DATA") := by decide
  obtain ⟨k, -, hk⟩ := words_fileLine hlit (hi.isWord_getPrefix p) (x ++ SPACE :: y)
  rw [← dataText_eq] at hk
  exact ⟨_, _, hk⟩

/-- A line with a chunk for one transfer leaves what was sent on of the others. -/
theorem LineStep.keeps_data {k : ℤ} (h : LineStep M s t p msg) (hasks : Asks msg "DATA" 3 k) (hi : s.Inv)
    (hno : ¬Relays M s t p msg id) (htr : t.files.transfers.get? id = some tr) :
    ∃ old, s.files.transfers.get? id = some old ∧ tr.relayedBytes = old.relayedBytes := by
  obtain ⟨raw, ⟨-, ht⟩ | ht⟩ := h.data hasks
  · exact ⟨tr, (h.quietly_refusal hi raw).files ▸ ht ▸ htr, rfl⟩
  rcases fileData_cases (s := s.record (.inbound p raw)) (p := p) hasks.id with
    ⟨text, hcase⟩ | ⟨why, hcase⟩ | ⟨old, q, -, -, -, -, hcase⟩
  · rw [ht, hcase] at htr
    exact ⟨tr, htr, rfl⟩
  · rw [ht, hcase] at htr
    exact ⟨tr, get?_of_abortTransfer (s := s.record _) htr, rfl⟩
  · by_cases hk : k = id
    · subst hk
      refine absurd ⟨h, hasks, q, _, ?_, hi.isDataLine (p := p) (msg.param 1) (msg.param 2)⟩ hno
      · rw [ht, hcase]
        rfl
    · rw [ht, hcase] at htr
      have hleft : (s.files.transfers.modify k fun t =>
          { t with relayedBytes := t.relayedBytes + decodedBytes (msg.param 2)
                   lastActivity := s.clock }).get? id = some tr := htr
      rw [OrdMap.get?_modify_of_ne _ _ (Ne.symm hk)] at hleft
      exact ⟨tr, hleft, rfl⟩

/-- So does a line with an answer. -/
theorem LineStep.keeps_accept {k : ℤ} (h : LineStep M s t p msg) (hasks : Asks msg "ACCEPT" 2 k)
    (hi : s.Inv) (htr : t.files.transfers.get? id = some tr) :
    ∃ old, s.files.transfers.get? id = some old ∧ tr.relayedBytes = old.relayedBytes := by
  obtain ⟨raw, ⟨-, ht⟩ | hfile⟩ := h.file hasks.command
  · exact ⟨tr, (h.quietly_refusal hi raw).files ▸ ht ▸ htr, rfl⟩
  have hid := hasks.id
  rw [transferId] at hid
  split_ifs at hid with hshort
  rw [fileOnCommand, if_neg (not_not.mpr hasks.command), if_neg] at hfile
  · dsimp only at hfile
    rw [hasks.sub, if_neg (by decide), if_pos rfl] at hfile
    rw [← Option.some.inj hfile] at htr
    exact relayedBytes_fileAnswer (s := s.record (.inbound p raw)) htr
  · intro hnil
    rw [hnil] at hshort
    exact hshort (by decide)

/-- **A step that relays no chunk** leaves what is kept of a transfer as it is; a transfer that was
not there before has a new number, and nothing of it was sent on. -/
theorem Step.keeps (h : Step M s t) (hi : s.Inv) (hno : ∀ p msg, ¬Relays M s t p msg id)
    (htr : t.files.transfers.get? id = some tr) :
    (∃ old, s.files.transfers.get? id = some old ∧ tr.relayedBytes = old.relayedBytes) ∨
      s.files.nextId ≤ id ∧ tr.relayedBytes = 0 := by
  rcases h.filing hi with hlapse | ⟨p, msg, hline, act, u, hby, hmove, hquiet⟩
  · exact Or.inl ⟨tr, (hlapse.stays (a := 0) (b := 0) htr).1, rfl⟩
  have htr' : u.files.transfers.get? id = some tr := hquiet.files ▸ htr
  cases hmove with
  | quiet h => exact Or.inl ⟨tr, h.files ▸ htr', rfl⟩
  | offer hfresh _ _ _ hf _ _ =>
    rcases get?_of_addTransfer hf htr' with htr | ⟨hid, rfl⟩
    · exact Or.inl ⟨tr, htr, rfl⟩
    · exact Or.inr ⟨hid.ge, hfresh.relayed⟩
  | reject _ _ _ hf _ _ | finish _ _ _ hf _ _ | abort _ _ _ hf _ _ _ =>
    exact Or.inl ⟨tr, (get?_of_erase hf htr').1, rfl⟩
  | accept _ _ _ _ _ _ _ _ => exact Or.inl (hline.keeps_accept hby.1 hi htr)
  | data _ _ _ _ _ _ _ _ => exact Or.inl (hline.keeps_data hby.1 hi (hno p msg) htr)

/-! ### A run -/

/-- **The books of a transfer**: a run, and the chunks that were relayed in it. -/
inductive Books (M : Matcher) (id : ℤ) (s : Server) : Server → List Str → Prop
  | opened : Books M id s s []
  | relay {t u : Server} {p : ClientId} {msg : Message} {chunks : List Str} : Books M id s t chunks →
      Step M t u → Relays M t u p msg id → Books M id s u (chunks ++ [msg.param 2])
  | other {t u : Server} {chunks : List Str} : Books M id s t chunks → Step M t u →
      (∀ p msg, ¬Relays M t u p msg id) → Books M id s u chunks

/-- The books are of a run. -/
theorem Books.steps {chunks : List Str} (h : Books M id s t chunks) : Steps M s t := by
  induction h with
  | opened => exact .refl
  | relay _ hstep _ ih | other _ hstep _ ih => exact ih.tail hstep

/-- Every run has its books. -/
theorem Steps.books (h : Steps M s t) (id : ℤ) : ∃ chunks, Books M id s t chunks := by
  induction h with
  | refl => exact ⟨[], .opened⟩
  | @tail t u _ hstep ih =>
    obtain ⟨chunks, hbooks⟩ := ih
    by_cases hrelay : ∃ p msg, Relays M t u p msg id
    · obtain ⟨p, msg, hrelay⟩ := hrelay
      exact ⟨_, hbooks.relay hstep hrelay⟩
    · exact ⟨chunks, hbooks.other hstep fun p msg h => hrelay ⟨p, msg, h⟩⟩

/-- What is said of a transfer by its books. -/
structure Balanced (t : Server) (id : ℤ) (chunks : List Str) : Prop where
  chunk : ∀ chunk ∈ chunks, isBase64Chunk chunk = true ∧ 0 < decodedBytes chunk
  total : ∀ tr, t.files.transfers.get? id = some tr → tr.relayedBytes = (chunks.map decodedBytes).sum
  ahead : t.files.nextId ≤ id → chunks = []

/-- **The books balance** all the time. -/
theorem Books.balanced {chunks : List Str} (h : Books M id s t chunks) (hi : s.Inv)
    (hnone : s.files.transfers.get? id = none) : t.Balanced id chunks := by
  induction h with
  | opened => exact ⟨by simp, fun tr htr => absurd (hnone.symm.trans htr) (by simp), fun _ => rfl⟩
  | @relay t u p msg chunks hbooks hstep hrelay ih =>
    have ht := Steps.inv hbooks.steps hi
    obtain ⟨raw, q, old, hold, hchunk, hpos, hu⟩ := hrelay.relay ht
    have hafter : u.files.transfers.get? id =
        some { old with relayedBytes := old.relayedBytes + decodedBytes (msg.param 2)
                        lastActivity := t.clock } := by
      have hbefore : (t.record (.inbound p raw)).files.transfers.get? id = some old := hold
      rw [hu, transfers_relayChunk, hbefore]
      rfl
    refine ⟨fun chunk hmem => ?_, fun tr htr => ?_, fun hahead => ?_⟩
    · rcases List.mem_append.mp hmem with hmem | hmem
      · exact ih.chunk chunk hmem
      · rw [List.mem_singleton.mp hmem]
        exact ⟨hchunk, Nat.pos_of_ne_zero hpos⟩
    · obtain rfl := Option.some.inj (hafter.symm.trans htr)
      simp [ih.total old hold]
    · have hmono := (Steps.ages (.single hstep) ht).nextId
      exact absurd (ht.transferTable.below id old hold).2 (by omega)
  | @other t u chunks hbooks hstep hno ih =>
    have ht := Steps.inv hbooks.steps hi
    have hmono := (Steps.ages (.single hstep) ht).nextId
    refine ⟨ih.chunk, fun tr htr => ?_, fun hahead => ih.ahead (hmono.trans hahead)⟩
    rcases hstep.keeps ht hno htr with ⟨old, hold, hsame⟩ | ⟨hnew, hzero⟩
    · exact hsame.trans (ih.total old hold)
    · rw [hzero, ih.ahead hnew]
      rfl

/-! ### The end of a transfer -/

/-- The line of the end of a transfer, before it is cut. -/
def endText (pre idText total : Str) : Str :=
  str ":" ++ pre ++ str " FILE END " ++ idText ++ str " " ++ total

/-- **The end of a transfer** by its sender: the recipient is told what was counted. -/
theorem LineStep.ends (h : LineStep M s t p msg) (hasks : Asks msg "END" 2 id) (hi : s.Inv)
    (htr : s.files.transfers.get? id = some tr) (hsender : tr.senderFd = (s.deref p).fd) :
    ∃ q, s.clients.get? tr.recipientFd = some q ∧ t.spoken = (q, wire (endText
      (s.deref p).getPrefix (msg.param 1) (Libcpp.toDecimal tr.relayedBytes))) :: s.spoken := by
  obtain ⟨⟨a, ha⟩, b, hb⟩ := hi.authority.transfer id tr htr
  obtain rfl : a = p := Option.some.inj (ha.1.symm.trans (hsender ▸ h.live.1))
  obtain ⟨raw, ⟨hreg, -⟩ | hfile⟩ := h.file hasks.command
  · exact absurd (hreg.symm.trans ha.2.1) (by decide)
  have hid := hasks.id
  have hhas : msg.params ≠ [] := by
    intro hnil
    rw [transferId, hnil, if_pos (by decide)] at hid
    exact absurd hid (by simp)
  rw [fileOnCommand, if_neg (not_not.mpr hasks.command), if_neg hhas] at hfile
  dsimp only at hfile
  rw [hasks.sub, if_neg (by decide), if_neg (by decide), if_neg (by decide), if_neg (by decide),
    if_pos rfl, Option.some.injEq] at hfile
  refine ⟨b, hb.1, ?_⟩
  have htr' : (s.record (.inbound a raw)).files.transfers.get? id = some tr := htr
  have hfd : ¬tr.senderFd ≠ ((s.record (.inbound a raw)).deref a).fd := not_not.mpr hsender
  have hb' : (s.record (.inbound a raw)).findClientByFd tr.recipientFd = some b := hb.1
  rw [← hfile, fileEnd, hid]
  dsimp only
  rw [htr']
  dsimp only
  rw [if_neg hfd, hb']
  rfl

/-- **The accounts of a transfer.** Every run from the start has books of a transfer; the chunks in
them are made of the octets of base64, and the length that is counted of one in base64 is the number
of octets it is read as; what is kept of the transfer is the sum of the lengths, and so is what its
recipient is told when the sender ends it. -/
theorem Books.accounts (M : Matcher) (password : Str) (pendingCloseTimeout now : Time)
    (reentrant : List Str) (id : ℤ) :
    (∀ t, Steps M (started password pendingCloseTimeout now reentrant) t →
      ∃ chunks, Books M id (started password pendingCloseTimeout now reentrant) t chunks) ∧
    ∀ t chunks, Books M id (started password pendingCloseTimeout now reentrant) t chunks →
      (∀ chunk ∈ chunks, isBase64Chunk chunk = true ∧ 0 < decodedBytes chunk ∧
        (Base64.WellFormed chunk →
          ∃ os, Base64.decode chunk = some os ∧ decodedBytes chunk = os.length)) ∧
      ∀ tr, t.files.transfers.get? id = some tr →
        tr.relayedBytes = (chunks.map decodedBytes).sum ∧
          ∀ u p msg, LineStep M t u p msg → Asks msg "END" 2 id → tr.senderFd = (t.deref p).fd →
            ∃ q, t.clients.get? tr.recipientFd = some q ∧
              u.spoken = (q, wire (endText (t.deref p).getPrefix (msg.param 1)
                (Libcpp.toDecimal (chunks.map decodedBytes).sum))) :: t.spoken := by
  have hi := Inv.started password pendingCloseTimeout now reentrant
  refine ⟨fun t hrun => hrun.books id, fun t chunks hbooks => ?_⟩
  have hbalanced := hbooks.balanced hi rfl
  refine ⟨fun chunk hmem => ?_, fun tr htr => ⟨hbalanced.total tr htr, fun u p msg hline hasks hsender => ?_⟩⟩
  · obtain ⟨hchunk, hpos⟩ := hbalanced.chunk chunk hmem
    exact ⟨hchunk, hpos, decodedBytes_eq⟩
  · rw [← hbalanced.total tr htr]
    exact hline.ends hasks (Steps.inv hbooks.steps hi) htr hsender

set_option maxRecDepth 4000 in
omit [Libcpp] in
/-- The books of a file of three octets that was delivered. -/
theorem accounts_delivered : letI := referenceLibcpp
    ∃ chunks, Books rehearsalMatcher 1 (started (str "secret") 30 0 []) delivery chunks ∧
      3 = (chunks.map decodedBytes).sum := by
  let _ := referenceLibcpp
  have hrun : Steps rehearsalMatcher (started (str "secret") 30 0 []) delivery := by
    have hdoor : Steps rehearsalMatcher (started (str "secret") 30 0 []) doorway :=
      (Relation.ReflTransGen.single (.accept _ 4 127 0 0 1 rfl)).tail (.accept _ 5 127 0 0 1 rfl)
    have hthreshold : Steps rehearsalMatcher doorway threshold := steps_session (by decide)
    have hlast : Steps rehearsalMatcher rehearsal delivery := steps_session (by decide)
    exact (hdoor.trans hthreshold).trans (.head step_rehearsal hlast)
  have hkept : (delivery.files.transfers.get? 1).any (fun tr => decide (tr.relayedBytes = 3)) = true := by
    decide
  obtain ⟨tr, htr, hthree⟩ := (Option.any_eq_true _ _).mp hkept
  have haccounts := Books.accounts rehearsalMatcher (str "secret") 30 0 [] 1
  obtain ⟨chunks, hbooks⟩ := haccounts.1 delivery hrun
  exact ⟨chunks, hbooks, (of_decide_eq_true hthree).symm.trans ((haccounts.2 _ _ hbooks).2 tr htr).1⟩

/-! ### A chunk that is not in base64 -/

/-- A chunk that is counted is relayed. -/
theorem Counts.relays (h : Counts M s t p msg id tr) (hi : s.Inv) : Relays M s t p msg id := by
  obtain ⟨q, -, hspoken⟩ := h.spoken
  exact ⟨h.line, h.asks, q, _, hspoken, hi.isDataLine _ _⟩

section Rehearsed

omit [Libcpp]

/-- The strategy that can read a line with padding inside its chunk. -/
def misfitMatcher : Matcher := chunkMatcher (str "1") (str "A=BC")

/-- A transfer that was accepted, where that line can be read. -/
def misfit : letI := referenceLibcpp; Server :=
  letI := referenceLibcpp
  session misfitMatcher doorway consent

theorem reachable_misfit : letI := referenceLibcpp; Reachable misfitMatcher misfit :=
  letI := referenceLibcpp
  (((Reachable.start (str "secret") 30 0 []).step (.accept _ 4 127 0 0 1 rfl)).step
    (.accept _ 5 127 0 0 1 rfl)).session (by decide)

set_option maxRecDepth 4000 in
/-- **Not every chunk that is relayed is in base64**: padding inside it is not noticed. -/
theorem not_wellFormed_relayed : letI := referenceLibcpp
    ¬∀ (M : Matcher) (s t : Server) (p : ClientId) (msg : Message) (id : ℤ), Reachable M s →
      Relays M s t p msg id → Base64.WellFormed (msg.param 2) ∧
        ∃ os, Base64.decode (msg.param 2) = some os ∧ decodedBytes (msg.param 2) = os.length := by
  let _ := referenceLibcpp
  intro h
  have hmsg : misfitMatcher.buildMessage (chunkLine (str "1") (str "A=BC")) =
      some (dataMessage (str "1") (str "A=BC")) := rfl
  have htest : countsTest misfitMatcher misfit (chunkLine (str "1") (str "A=BC")) (str "1")
      (str "A=BC") = true := by decide
  obtain ⟨tr, -, hcounts⟩ := counts_of_test hmsg (by decide) htest
  have hformed := (h _ _ _ _ _ _ reachable_misfit (hcounts.relays reachable_misfit.inv)).1
  have hnot : ¬Base64.WellFormed (str "A=BC") := by decide
  exact hnot hformed

end Rehearsed

end Server

end FtIrc
