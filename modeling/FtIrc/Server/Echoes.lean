import FtIrc.Server.MiddleParams

/-!
# What a reply repeats

An error names what it is about: the channel that does not exist, the nickname that is
taken, the limit that is no number. `FtIrc.Server.Echoes` says which values of a message
the server repeats in the replies to it. They come from the client, and an empty one, or
one with spaces at its ends, makes a hole in the reply.

**In a run whose lines have tidy values repeated only, no reply has a hole**
(`FtIrc.Server.TidySteps.noHoles`), whatever else happens in it. One line is enough to
make one: `NICK :` is answered with the empty nickname (`FtIrc.Server.not_wellSpaced`).
-/

namespace FtIrc

open Abnf Relation

variable [Libcpp]

namespace Server

variable {M : Matcher} {s t u : Server} {p q : ClientId} {fd : Fd} {raw : Str} {msg : Message}
  {v text why reason : Str} {id : ℤ}

/-- **What is repeated of a message**, in a reply to its sender. -/
inductive Echoes (s : Server) (p : ClientId) (msg : Message) : Str → Prop
  /-- The nickname that is asked for. -/
  | newnick : msg.command = str "NICK" → msg.params ≠ [] → Echoes s p msg (nickAsked msg)
  /-- A channel to be joined or left. -/
  | chanlist (v : Str) : msg.command = str "JOIN" ∨ msg.command = str "PART" →
      v ∈ msg.list "chanlist" COMMA → Echoes s p msg v
  /-- The channel somebody is to be kicked from. -/
  | kickchans : msg.command = str "KICK" → msg.matched = true → Echoes s p msg (msg.field "kickchans")
  /-- Who is to be kicked, by an operator. -/
  | kickusers (ch : ChannelRef) : msg.command = str "KICK" → s.findChannel (msg.field "kickchans") = some ch →
      s.isOperator ch p = true → Echoes s p msg (msg.field "kickusers")
  /-- The channel somebody is invited to. -/
  | invchan : msg.command = str "INVITE" → msg.matched = true → Echoes s p msg (msg.field "invchan")
  /-- Who is invited, by somebody who may. -/
  | invnick (ch : ChannelRef) : msg.command = str "INVITE" → s.findChannel (msg.field "invchan") = some ch →
      s.isMember ch p = true → ((s.channel ch).inviteOnly = true → s.isOperator ch p = true) →
        Echoes s p msg (msg.field "invnick")
  /-- The channel of a topic, or who is asked about. -/
  | target : msg.command = str "TOPIC" ∨ msg.command = str "WHO" → msg.param 0 ≠ [] →
      Echoes s p msg (msg.param 0)
  | whois : msg.command = str "WHOIS" → whoisNick msg ≠ [] → Echoes s p msg (whoisNick msg)
  /-- Whom a message is for. -/
  | msgtarget (v : Str) : msg.command = str "PRIVMSG" → HasText msg → v ∈ messageTargets msg →
      Echoes s p msg v
  /-- The channel whose modes are asked for or changed. -/
  | modeTarget : msg.command = str "MODE" → (msg.param 0).head? = some HASH → Echoes s p msg (msg.param 0)
  /-- A letter of the modes of a channel, changed by an operator. -/
  | modeLetter (ch : ChannelRef) (c : Octet) : msg.command = str "MODE" →
      s.findChannel (msg.param 0) = some ch → s.isMember ch p = true → s.isOperator ch p = true →
        Signed (msg.param 1) → c ∈ msg.param 1 → Echoes s p msg [c]
  /-- What a letter other than `k` took. -/
  | modeParam (ch : ChannelRef) (c : Octet) (v : Str) : msg.command = str "MODE" →
      s.findChannel (msg.param 0) = some ch → s.isMember ch p = true → s.isOperator ch p = true →
        Signed (msg.param 1) → (c, v) ∈ boundPairs (msg.param 1) (msg.params.drop 2) → c ≠ 107 →
          Echoes s p msg v
  /-- A letter of the modes of the client. -/
  | userModeLetter (c : Octet) : msg.command = str "MODE" → (msg.param 0).head? ≠ some HASH →
      Libcpp.eqAsciiNocase (msg.param 0) (s.deref p).nickname = true → Signed (msg.param 1) →
        c ∈ msg.param 1 → Echoes s p msg [c]
  /-- A command that is none. -/
  | command : findCommand msg.command = none → msg.command ≠ str "FILE" → Echoes s p msg msg.command

/-- **Only tidy values are repeated** of a message; of a client that is not registered
nothing is but the nickname it asks for. -/
def EchoesTidily (s : Server) (p : ClientId) (msg : Message) : Prop :=
  msg.command = str "NICK" ∨ (s.deref p).registered = true → ∀ v, Echoes s p msg v → Tidy v

/-! ### The FILE extension -/

/-- The end of a transfer. -/
theorem tidily_abortTransfer : Tidily s (s.abortTransfer id why) := utters_abortTransfer fun _ _ _ => Tidily.fileNotice

section Filing

variable (hi : s.Inv)

include hi

theorem tidily_fileSend : Tidily s (s.fileSend p msg) := by
  have hverb : HasVerb " FILE OFFER " := by decide
  have hset : ∀ tr, Tidily s (s.addTransfer tr) := fun tr => .of_eq rfl
  have hread : ∀ tr, (s.addTransfer tr).deref p = s.deref p := fun tr => rfl
  rw [fileSend]
  split
  · exact .fileNotice
  dsimp only
  rcases s.findClientByNick (msg.param 1) with _ | q
  · exact .fileNotice
  dsimp only
  split
  · exact .fileNotice
  split
  · exact .fileNotice
  split
  · exact .fileNotice
  rcases Libcpp.parseUlong (msg.param 3) 1 MAX_FILE_SIZE with _ | size
  · exact .fileNotice
  dsimp only
  split
  · exact .fileNotice
  · refine ((hset _).trans (Tidily.message (hi.wellSpaced p hverb ?_))).trans Tidily.fileNotice
    rw [hread]
    simp only [List.append_assoc]
    exact List.prefix_append_right_inj _ |>.mpr (List.prefix_append_right_inj _ |>.mpr
      (List.prefix_append _ _))

theorem tidily_fileAnswer (accept : Bool) : Tidily s (s.fileAnswer p msg accept) := by
  have hok : HasVerb " FILE OK " := by decide
  have hno : HasVerb " FILE NO " := by decide
  have hset : ∀ (u : Server) f, Tidily u (u.updateTransfers f) := fun u f => .of_eq rfl
  rw [fileAnswer]
  rcases transferId msg 2 with _ | id
  · exact .fileNotice
  dsimp only
  rcases s.files.transfers.get? id with _ | tr
  · exact .fileNotice
  dsimp only
  split
  · exact .fileNotice
  rcases s.findClientByFd tr.senderFd with _ | q
  · dsimp only
    exact (hset s _).trans Tidily.fileNotice
  dsimp only
  split_ifs
  · exact (hset s _).trans (Tidily.message (hi.wellSpaced p hok (List.prefix_append _ _)))
  · exact ((hset s _).trans (Tidily.message (hi.wellSpaced p hno (List.prefix_append _ _)))).trans (hset _ _)

theorem tidily_fileData : Tidily s (s.fileData p msg) := by
  have hverb : HasVerb " FILE DATA " := by decide
  have hset : ∀ f, Tidily s (s.updateTransfers f) := fun f => .of_eq rfl
  rw [fileData]
  rcases transferId msg 3 with _ | id
  · exact .fileNotice
  dsimp only
  rcases s.files.transfers.get? id with _ | tr
  · exact .fileNotice
  dsimp only
  split
  · exact .fileNotice
  split
  · exact .fileNotice
  split
  · exact tidily_abortTransfer
  split
  · exact tidily_abortTransfer
  split
  · exact tidily_abortTransfer
  rcases s.findClientByFd tr.recipientFd with _ | q
  · exact tidily_abortTransfer
  dsimp only
  split_ifs
  · exact .fileNotice
  · refine (hset _).trans (Tidily.message (hi.wellSpaced p hverb ?_))
    simp

theorem tidily_fileEnd : Tidily s (s.fileEnd p msg) := by
  have hverb : HasVerb " FILE END " := by decide
  have hset : ∀ (u : Server) f, Tidily u (u.updateTransfers f) := fun u f => .of_eq rfl
  rw [fileEnd]
  rcases transferId msg 2 with _ | id
  · exact .fileNotice
  dsimp only
  rcases s.files.transfers.get? id with _ | tr
  · exact .fileNotice
  dsimp only
  split
  · exact .fileNotice
  rcases s.findClientByFd tr.recipientFd with _ | q
  · exact hset s _
  · refine Utters.trans (Tidily.message (hi.wellSpaced p hverb ?_)) (hset _ _)
    simp

theorem tidily_fileOnCommand (ht : s.fileOnCommand p msg = some t) : Tidily s t := by
  rw [fileOnCommand] at ht
  dsimp only at ht
  split_ifs at ht <;> rw [Option.some.injEq] at ht <;> subst ht
  · exact .fileNotice
  · exact tidily_fileSend hi
  · exact tidily_fileAnswer hi true
  · exact tidily_fileAnswer hi false
  · exact tidily_fileData hi
  · exact tidily_fileEnd hi
  · rw [fileAbort]
    rcases transferId msg 2 with _ | id
    · exact .fileNotice
    dsimp only
    rcases s.files.transfers.get? id with _ | tr
    · exact .fileNotice
    dsimp only
    split
    · exact .fileNotice
    · exact tidily_abortTransfer
  · exact .fileNotice

end Filing

/-! ### Dispatch -/

/-- That the line was recorded makes no difference. -/
theorem Echoes.unrecord (h : (s.record (.inbound q raw)).Echoes p msg v) : s.Echoes p msg v := by
  cases h with
  | newnick hcmd hsome => exact .newnick hcmd hsome
  | chanlist _ hcmd hmem => exact .chanlist v hcmd hmem
  | kickchans hcmd hmatched => exact .kickchans hcmd hmatched
  | kickusers ch hcmd hfind hop => exact .kickusers ch hcmd hfind hop
  | invchan hcmd hmatched => exact .invchan hcmd hmatched
  | invnick ch hcmd hfind hmem hop => exact .invnick ch hcmd hfind hmem hop
  | target hcmd hne => exact .target hcmd hne
  | whois hcmd hne => exact .whois hcmd hne
  | msgtarget _ hcmd htext hmem => exact .msgtarget v hcmd htext hmem
  | modeTarget hcmd hhash => exact .modeTarget hcmd hhash
  | modeLetter ch c hcmd hfind hmem hop hsign hc => exact .modeLetter ch c hcmd hfind hmem hop hsign hc
  | modeParam ch c _ hcmd hfind hmem hop hsign hbound hc =>
    exact .modeParam ch c v hcmd hfind hmem hop hsign hbound hc
  | userModeLetter c hcmd hhash hown hsign hc => exact .userModeLetter c hcmd hhash hown hsign hc
  | command hnone hfile => exact .command hnone hfile

omit [Libcpp] in
/-- A letter that is tidy is no space. -/
theorem not_mem_of_tidy {modes : Str} (h : ∀ c ∈ modes, Tidy [c]) : SPACE ∉ modes := by
  intro hmem
  exact absurd (h SPACE hmem) (by decide)

/-- **Every handler** replies without holes, if what it repeats is tidy. -/
theorem tidily_handler (h : Turn s p s) (hs : s.Presented) (hmsg : msg.OneLine) {entry : CommandEntry}
    (hmem : entry ∈ kCommands) (hname : entry.name = msg.command)
    (hreg : entry.needsRegistration = true → (s.deref p).registered = true) (htidy : s.EchoesTidily p msg) :
    Tidily s (entry.handler s p msg) := by
  have hnick := hs.tidy_nickname h.inv p
  have hv : ∀ {v}, entry.needsRegistration = true → s.Echoes p msg v → Tidy v := fun hneeds =>
    htidy (Or.inr (hreg hneeds)) _
  simp only [kCommands, List.mem_cons, List.not_mem_nil, or_false] at hmem
  rcases hmem with rfl | rfl | rfl | rfl | rfl | rfl | rfl | rfl | rfl | rfl | rfl | rfl | rfl |
    rfl | rfl | rfl | rfl | rfl
  · exact tidily_cmdCap
  · exact tidily_cmdPass hnick
  · exact tidily_cmdNick h.inv hs h.live fun hsome => htidy (Or.inl hname.symm) _ (.newnick hname.symm hsome)
  · exact tidily_cmdUser h.inv hs h.live hmsg
  · exact tidily_cmdQuit h.inv h.live hmsg
  · exact .of_eq rfl
  · exact tidily_cmdPing hnick
  · exact tidily_cmdJoin hs h (hreg rfl) hmsg fun v hmem => hv rfl (.chanlist v (Or.inl hname.symm) hmem)
  · exact tidily_cmdPart hs h (hreg rfl) hmsg fun v hmem => hv rfl (.chanlist v (Or.inr hname.symm) hmem)
  · exact tidily_cmdPrivmsg hs h (hreg rfl) hmsg fun htext v hmem => hv rfl (.msgtarget v hname.symm htext hmem)
  · exact tidily_cmdNotice h (hreg rfl) hmsg
  · exact tidily_cmdKick h.inv hs (fun hmatched => hv rfl (.kickchans hname.symm hmatched))
      fun ch hfind hop => hv rfl (.kickusers ch hname.symm hfind hop)
  · exact tidily_cmdInvite h.inv hs (fun hmatched => hv rfl (.invchan hname.symm hmatched))
      fun ch hfind hmem hop => hv rfl (.invnick ch hname.symm hfind hmem hop)
  · exact tidily_cmdTopic h.inv hs fun hsome => hv rfl (.target (Or.inl hname.symm) (not_or.mp hsome).2)
  · exact tidily_cmdMode h.inv hs (fun _ hhash => hv rfl (.modeTarget hname.symm hhash))
      (fun ch _ hfind hmem hop _ hsign =>
        ⟨not_mem_of_tidy fun c hc => hv rfl (.modeLetter ch c hname.symm hfind hmem hop hsign hc),
          fun e he hne => hv rfl (.modeParam ch e.1 e.2 hname.symm hfind hmem hop hsign he hne)⟩)
      fun hhash hown hsign =>
        not_mem_of_tidy fun c hc => hv rfl (.userModeLetter c hname.symm hhash hown hsign hc)
  · exact tidily_cmdWho h.inv hs fun hsome => hv rfl (.target (Or.inr hname.symm) (not_or.mp hsome).2)
  · exact tidily_cmdWhois h.inv hs fun hne => hv rfl (.whois hname.symm hne)
  · exact tidily_cmdUserhost hnick

/-- **Every line** is answered without holes, if what is repeated of it is tidy. -/
theorem tidily_handleMessage (hi : s.Inv) (hs : s.Presented) (hp : s.Live p) (hraw : OneLine raw)
    (htidy : ∀ msg, M.buildMessage raw = some msg → s.EchoesTidily p msg) :
    Tidily s (s.handleMessage M p raw) := by
  have hallowed : (Op.hear p raw).Allowed s := hp
  have hheard : (s.record (.inbound p raw)).Inv := hi.run hallowed
  have hpres : (s.record (.inbound p raw)).Presented := hs.run hi.table hallowed
  have hturn : Turn _ p (s.record (.inbound p raw)) := Turn.start hheard hp
  have hnick := hpres.tidy_nickname hheard p
  have hrecord : Tidily s (s.record (.inbound p raw)) := .of_eq rfl
  rw [handleMessage]
  rcases hmsg : M.buildMessage raw with _ | msg
  · exact hrecord
  refine hrecord.trans ?_
  have htidy : (s.record (.inbound p raw)).EchoesTidily p msg := fun hwho v hv =>
    htidy msg hmsg hwho v hv.unrecord
  have hline := M.oneLine_buildMessage hraw hmsg
  generalize s.record (.inbound p raw) = u at hheard hpres hturn hnick htidy
  dsimp only
  rw [dispatchCommand]
  dsimp only
  rcases hentry : findCommand msg.command with _ | entry
  · dsimp only
    split_ifs with hreg
    · exact Tidily.reply hnick (by decide) (by decide)
    rcases hfile : u.fileOnCommand p msg with _ | t
    · refine Tidily.reply hnick (by decide) (Tidy.colon ?_ (by decide))
      refine htidy (Or.inr (by simpa using hreg)) _ (.command hentry fun hcmd => ?_)
      rw [fileOnCommand, if_neg (not_not.mpr hcmd)] at hfile
      dsimp only at hfile
      split_ifs at hfile
    · exact tidily_fileOnCommand hheard hfile
  have hmem : entry ∈ kCommands := List.mem_of_find?_eq_some hentry
  have hname : entry.name = msg.command := by simpa using List.find?_some hentry
  dsimp only
  split_ifs with hopen hreg
  · exact tidily_handler hturn hpres hline hmem hname (fun hneeds => by simp [hneeds] at hopen) htidy
  · exact Tidily.reply hnick (by decide) (by decide)
  · exact tidily_handler hturn hpres hline hmem hname (fun _ => by simpa using hreg) htidy

/-! ### Everything else that happens -/

/-- An operation says no more than its message. -/
theorem tidily_run {op : Op} (h : ∀ q w, op = .send q w → WellSpaced (wire w)) : Tidily s (op.run s) := by
  cases op with
  | send q w => exact .message (h q w rfl)
  | leave fd ch =>
    refine .of_eq ?_
    rw [Op.run, dropMember]
    split_ifs <;> rfl
  | accept fd hostname =>
    refine .of_eq ?_
    rw [Op.run, acceptClient]
    split_ifs <;> rfl
  | expel p fd => exact .of_eq spoken_finalizeDisconnect
  | finalize p fd => exact .of_eq spoken_finalizeDisconnect
  | _ => exact .of_eq rfl

/-- Operations say no more than their messages. -/
theorem tidily_runs {P : Op → Prop} (h : ∀ op, P op → ∀ q w, op = .send q w → WellSpaced (wire w))
    (hrun : serverMachine.Runs P s t) : Tidily s t := by
  induction hrun with
  | refl => exact .refl s
  | tail _ hP _ ih => exact ih.trans (tidily_run (h _ hP))

/-- What concerns sockets, times and interests says no more than pings. -/
theorem tidily_of_idle (hrun : serverMachine.Runs Op.Idle s t) : Tidily s t := by
  refine tidily_runs (fun op hop q w hsend => ?_) hrun
  subst hsend
  have hw : w = str ":" ++ SERVER_NAME ++ str " " ++ (str "PING :" ++ SERVER_NAME) := hop
  have hsays : Says (COLON :: SERVER_NAME) (str "PING") w :=
    ⟨by decide, by decide, by decide, COLON :: SERVER_NAME, hw⟩
  exact wellSpaced_of_source hsays fun _ => by decide

theorem tidily_of_closing (hrun : serverMachine.Runs Op.Closing s t) : Tidily s t := by
  refine tidily_runs (fun op hop q w hsend => ?_) hrun
  subst hsend
  exact hop.elim

/-- A session is ended in due order. -/
theorem tidily_disconnect (hi : s.Inv) (hp : s.clients.get? fd = some p) (hreason : OneLine reason) :
    Tidily s (s.disconnectClient fd reason) := by
  obtain rfl := hi.table.fd_eq hp
  rcases htd : (s.deref p).tearingDown
  · exact tidily_disconnectClient hi ⟨hp, htd⟩ hreason
  · rw [disconnectClient, disconnectNested_of_tearingDown _ hp htd]
    exact .refl s

/-- A session is ended at once. -/
theorem tidily_disconnectClientNow (hi : s.Inv) (hp : s.clients.get? fd = some p) (hreason : OneLine reason) :
    Tidily s (s.disconnectClientNow fd reason) := by
  have hverb : HasVerb " QUIT :" := by decide
  obtain rfl := hi.table.fd_eq hp
  simp only [disconnectClientNow, hp]
  rcases hpc : (s.deref p).pendingClose
  · have htd : (s.deref p).tearingDown = false :=
      (hi.settled p _ (hi.table.get? hp)).symm.trans hpc
    have hstate : teardownClientState disconnectClient s p reason =
        (s.clearAway p reason).markTornDown p := teardownClientState_eq hi ⟨hp, htd⟩ hreason nesting
    have hgone : Tidily s (s.clearAway p reason) := utters_clearAway (fun _ _ _ => Tidily.fileNotice)
      fun _ => hi.wellSpaced p hverb (List.prefix_append _ _)
    simp only [htd, Bool.false_eq_true, if_false, hstate]
    exact hgone.trans (.of_eq spoken_finalizeDisconnect)
  · simp only [if_true]
    exact .of_eq spoken_finalizeDisconnect

theorem tidily_handleClientOutput (hi : s.Inv) (hp : s.clients.get? fd = some p) (sent : Option ℕ) :
    Tidily s (s.handleClientOutput fd sent) := by
  simp only [handleClientOutput, hp]
  split_ifs with hpend
  · exact .refl s
  rcases sent with _ | n
  · exact .refl s
  have hallowed : (Op.transmit p n).Allowed s := hi.table.clients_fd hp
  have hi' : ((Op.transmit p n).run s).Inv := hi.run hallowed
  have hsent : Tidily s ((Op.transmit p n).run s) := .of_eq rfl
  dsimp only
  refine hsent.trans ?_
  change Tidily ((Op.transmit p n).run s)
    (if (((Op.transmit p n).run s).deref p).pendingClose then _ else _)
  split_ifs
  · exact .of_eq spoken_finalizeDisconnect
  · exact .refl _
  · exact tidily_disconnectClientNow hi' hp (by decide)
  · exact .refl _

theorem tidily_checkTimeouts (hi : s.Inv) : Tidily s s.checkTimeouts := by
  rw [checkTimeouts]
  dsimp only
  split_ifs
  · exact .refl s
  have hi' : ((Op.pingCheck s.clock).run s).Inv := hi.run trivial
  obtain ⟨hpings, hov⟩ := idle_checkTimeoutsOne hi' s.clock
  have hchecked : Tidily s ((Op.pingCheck s.clock).run s) := .of_eq rfl
  refine hchecked.trans ((tidily_of_idle hpings).trans ?_)
  exact closeAll_relates (hi'.runs hpings) (fun u => Utters.refl u) (fun _ _ _ => Utters.trans)
    (fun hu hp _ => tidily_disconnectClientNow hu hp (by decide))
    (fun hu hp => tidily_disconnect hu hp (by decide)) hov _

/-! ### Runs -/

/-- **Every step** of the server is without holes, if the line it is, where it is one, has tidy
values repeated. -/
theorem Step.tidily (h : Step M s t) (hi : s.Inv) (hs : s.Presented)
    (htidy : ∀ p msg, LineStep M s t p msg → s.EchoesTidily p msg) : Tidily s t := by
  cases h with
  | client p hacts =>
    cases hacts with
    | receive data => exact tidily_of_idle (idle_receive data)
    | output fd sent hp => exact tidily_handleClientOutput hi hp sent
    | disconnect fd reason hp hreason => exact tidily_disconnect hi hp hreason
    | disconnectNow fd reason hp hreason _ => exact tidily_disconnectClientNow hi hp hreason
    | hangup fd hp =>
      simp only [handleHangup, hp]
      have hallowed : (Op.hangup p).Allowed s := hi.table.clients_fd hp
      have hrecord : Tidily s (s.record (.hangup p)) := .of_eq rfl
      exact hrecord.trans (tidily_disconnectClientNow (hi.run hallowed) hp (by decide))
    | line raw hp hraw =>
      exact tidily_handleMessage hi hs hp hraw fun msg hmsg => htidy p msg ⟨hp, raw, hraw, hmsg, rfl⟩
  | accept fd a b c d hfd =>
    refine .of_eq ?_
    rw [acceptClient]
    split_ifs <;> rfl
  | clock now => exact .of_eq rfl
  | checkTimeouts => exact tidily_checkTimeouts hi
  | checkPendingCloseTimeouts => exact tidily_of_closing (closing_checkPendingCloseTimeouts hi)
  | tick => exact utters_abortWhere fun _ _ _ => Tidily.fileNotice
  | updateInterests => exact tidily_of_idle idle_updateInterests

/-- Runs of steps that have tidy values repeated only. -/
abbrev TidySteps (M : Matcher) : Server → Server → Prop :=
  ReflTransGen fun s t => Step M s t ∧ ∀ p msg, LineStep M s t p msg → s.EchoesTidily p msg

/-- **No reply has a hole.** In every run whose lines have tidy values repeated only, no numeric
reply that was queued has two adjacent spaces before its trailing parameter. -/
theorem TidySteps.noHoles (password : Str) (pendingCloseTimeout now : Time) (reentrant : List Str)
    (h : TidySteps M (started password pendingCloseTimeout now reentrant) s) :
    ∀ e ∈ s.spoken, IsReply e.2 → hasEmptyMiddleParam e.2 = false := by
  suffices hall : Reachable M s ∧ ∀ e ∈ s.spoken, WellSpaced e.2 from hall.2
  induction h with
  | refl => exact ⟨.start password pendingCloseTimeout now reentrant, fun e he => absurd he List.not_mem_nil⟩
  | tail _ hstep ih =>
    obtain ⟨hreach, hsaid⟩ := ih
    obtain ⟨new, hnew, hwell⟩ := hstep.1.tidily hreach.inv hreach.presented hstep.2
    refine ⟨.step hreach hstep.1, fun e he => ?_⟩
    rw [hnew] at he
    rcases List.mem_append.mp he with he | he
    · exact hwell e he
    · exact hsaid e he

/-! ### Two nicknames that are none -/

omit [Libcpp]

/-- A strategy that knows one line. -/
def oneLineMatcher (line : String) (captures : List (Str × Str)) : Matcher :=
  .ofTable rehearsalGrammar [(str "message", str line, captures)]

/-- Other lines are given up. -/
theorem buildMessage_oneLineMatcher {line : String} {captures : List (Str × Str)} (h : raw ≠ str line) :
    (oneLineMatcher line captures).buildMessage raw = none := by
  have hnone : ∀ rule, (oneLineMatcher line captures).run rule raw = none := fun rule => by
    simp [oneLineMatcher, Matcher.ofTable, h.symm]
  simp [Matcher.buildMessage, Matcher.commandMessage, Matcher.parseLine, hnone]

/-- A nickname that begins with a digit is asked for. -/
def misnomer : Matcher := oneLineMatcher "NICK 4lice" (middles "NICK" ["4lice"])

/-- An empty nickname is asked for. -/
def nameless : Matcher := oneLineMatcher "NICK :" [(str "command", str "NICK"), (str "trail", [])]

/-- Somebody has just connected. -/
def arrival : letI := referenceLibcpp; Server :=
  letI := referenceLibcpp
  (started (str "secret") 30 0 []).acceptClient 4 (inetNtoa 127 0 0 1)

/-- What `misnomer` reads has a tidy nickname repeated, and nothing else. -/
theorem echoesTidily_misnomer : letI := referenceLibcpp
    ∀ {s t : Server} {p msg}, LineStep misnomer s t p msg → s.EchoesTidily p msg := by
  let _ := referenceLibcpp
  rintro s t p msg ⟨-, raw, -, hmsg, -⟩ - v hv
  obtain rfl : raw = str "NICK 4lice" := by
    by_contra hne
    rw [misnomer, buildMessage_oneLineMatcher hne] at hmsg
    exact absurd hmsg (by simp)
  obtain rfl : { command := str "NICK", params := [str "4lice"] } = msg := Option.some.inj hmsg
  cases hv with
  | newnick => decide
  | chanlist _ hcmd => exact absurd hcmd (by decide)
  | target hcmd => exact absurd hcmd (by decide)
  | command hnone =>
    have hsome : findCommand (str "NICK") = some ⟨str "NICK", cmdNick, false⟩ := rfl
    exact absurd (hsome.symm.trans hnone) (by simp)
  | _ => exact absurd (by assumption : str "NICK" = _) (by decide)

/-- The refusal of a nickname that begins with a digit. -/
def refusalNamed : Str := str ":ft_irc 432 * 4lice :Erroneous nickname"

/-- What refuses a nickname is a reply. -/
theorem isReply_refusal {rest : List Str} {w : Str}
    (h : words w = (COLON :: SERVER_NAME) :: str "432" :: rest) : IsReply w := by
  have hnumeric : IsNumeric "432" := by decide
  exact ⟨str "432", rest, h, hnumeric⟩

/-- A nickname that is none, but not empty either, is refused without a hole. -/
theorem wellSpaced_misnomer : letI := referenceLibcpp
    (0, refusalNamed) ∈ (arrival.handleMessage misnomer 0 (str "NICK 4lice")).spoken ∧
      hasEmptyMiddleParam refusalNamed = false :=
  letI := referenceLibcpp
  have hsaid : (0, refusalNamed) ∈ (arrival.handleMessage misnomer 0 (str "NICK 4lice")).spoken := by decide
  have hwords : words refusalNamed = [COLON :: SERVER_NAME, str "432", str "*", str "4lice",
      str ":Erroneous", str "nickname"] := by decide
  ⟨hsaid, TidySteps.noHoles (str "secret") 30 0 []
    ((ReflTransGen.single ⟨.accept _ 4 127 0 0 1 rfl, fun _ _ => echoesTidily_misnomer⟩).tail
      ⟨.client 0 (.line arrival (str "NICK 4lice") ⟨by decide, by decide⟩ (by decide)),
        fun _ _ => echoesTidily_misnomer⟩) _ hsaid (isReply_refusal hwords)⟩

/-- The refusal of an empty nickname. -/
def refusal : Str := str ":ft_irc 432 *  :Erroneous nickname"

/-- **An empty nickname is refused with a hole** where the nickname should be. -/
theorem not_wellSpaced : letI := referenceLibcpp
    ¬∀ s, Reachable nameless s → ∀ e ∈ s.spoken, IsReply e.2 → hasEmptyMiddleParam e.2 = false := by
  let _ := referenceLibcpp
  intro hall
  have hreach : Reachable nameless (arrival.handleMessage nameless 0 (str "NICK :")) :=
    ((Reachable.start (str "secret") 30 0 []).step (.accept _ 4 127 0 0 1 rfl)).step
      (.client 0 (.line arrival (str "NICK :") ⟨by decide, by decide⟩ (by decide)))
  have hsaid : (0, refusal) ∈ (arrival.handleMessage nameless 0 (str "NICK :")).spoken := by decide
  have hwords : words refusal = [COLON :: SERVER_NAME, str "432", str "*", [], str ":Erroneous",
      str "nickname"] := by decide
  exact absurd (hall _ hreach _ hsaid (isReply_refusal hwords)) (by decide)

end Server

end FtIrc
