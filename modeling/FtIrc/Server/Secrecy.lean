import FtIrc.Server.Rehearsal
import FtIrc.Server.Talk

/-!
# The key of a channel is a secret

Whoever is not on a channel learns nothing of its key but that there is one. This is a
statement about two runs: two servers that differ in the key of a channel are told the
same line by somebody who is not on the channel; then they answer with the same lines,
and differ in nothing else afterwards (`FtIrc.Server.handleMessage_keySecret`).

The two servers are one server in two disguises (`FtIrc.Server.disguise`), and all that
the handlers do goes through a disguise: they read the same of the server, but for the
key itself, and what they write is written under the disguise. Three places read the
key: a `JOIN` of the channel, which is left out, the modes that are shown to a member,
and the bot, which tells everybody the letters of the modes but not their parameters.
-/

namespace FtIrc

open Abnf

variable [Libcpp]

namespace Server

variable {M : Matcher} {s t u : Server} {p q : ClientId} {fd : Fd} {raw name text reason : Str} {msg : Message}
  {ch ch' : ChannelRef} {k : Str} {past : List Event}

/-- **The same server in a disguise**: with another key on a channel, and more events before. -/
def disguise (ch : ChannelRef) (k : Str) (past : List Event) (s : Server) : Server :=
  { s with
    channels := s.channels.modify ch fun c => { c with key := k }
    trace := s.trace ++ past }

/-! ### What is read through a disguise -/

@[simp] theorem deref_disguise : (disguise ch k past s).deref p = s.deref p := by rfl

@[simp] theorem clock_disguise : (disguise ch k past s).clock = s.clock := by rfl

@[simp] theorem password_disguise : (disguise ch k past s).password = s.password := by rfl

@[simp] theorem clients_disguise : (disguise ch k past s).clients = s.clients := by rfl

@[simp] theorem files_disguise : (disguise ch k past s).files = s.files := by rfl

@[simp] theorem nextJoke_disguise : (disguise ch k past s).nextJoke = s.nextJoke := by rfl

@[simp] theorem reentrant_disguise : (disguise ch k past s).reentrant = s.reentrant := by rfl

@[simp] theorem keys_disguise : (disguise ch k past s).channels.keys = s.channels.keys :=
  OrdMap.keys_modify _ _ _

theorem channel_disguise_of_ne (h : ch' ≠ ch) : (disguise ch k past s).channel ch' = s.channel ch' := by
  rw [channel, disguise]
  exact congrArg (fun o : Option Channel => o.getD default) (OrdMap.get?_modify_of_ne _ _ h)

/-- All of a channel but the key is seen. -/
theorem seen_disguise {α : Type} (field : Channel → α) (hfield : ∀ c : Channel, field { c with key := k } = field c) :
    field ((disguise ch k past s).channel ch') = field (s.channel ch') := by
  rw [channel, channel, disguise]
  dsimp only
  rw [OrdMap.get?_modify]
  rcases s.channels.get? ch' with _ | c
  · rfl
  · rw [Option.map_some, Option.getD_some, Option.getD_some]
    split_ifs
    · exact hfield c
    · rfl

section Seen

variable (ch k past s ch')

@[simp] theorem name_disguise : ((disguise ch k past s).channel ch').name = (s.channel ch').name :=
  seen_disguise Channel.name fun _ => rfl

@[simp] theorem topic_disguise : ((disguise ch k past s).channel ch').topic = (s.channel ch').topic :=
  seen_disguise Channel.topic fun _ => rfl

@[simp] theorem topicSetter_disguise :
    ((disguise ch k past s).channel ch').topicSetter = (s.channel ch').topicSetter :=
  seen_disguise Channel.topicSetter fun _ => rfl

@[simp] theorem topicTime_disguise : ((disguise ch k past s).channel ch').topicTime = (s.channel ch').topicTime :=
  seen_disguise Channel.topicTime fun _ => rfl

@[simp] theorem inviteOnly_disguise : ((disguise ch k past s).channel ch').inviteOnly = (s.channel ch').inviteOnly :=
  seen_disguise Channel.inviteOnly fun _ => rfl

@[simp] theorem topicRestricted_disguise :
    ((disguise ch k past s).channel ch').topicRestricted = (s.channel ch').topicRestricted :=
  seen_disguise Channel.topicRestricted fun _ => rfl

@[simp] theorem members_disguise : ((disguise ch k past s).channel ch').members = (s.channel ch').members :=
  seen_disguise Channel.members fun _ => rfl

@[simp] theorem isMember_channel_disguise (fd : Fd) :
    ((disguise ch k past s).channel ch').isMember fd = (s.channel ch').isMember fd :=
  seen_disguise (·.isMember fd) fun _ => rfl

@[simp] theorem isOperator_channel_disguise (fd : Fd) :
    ((disguise ch k past s).channel ch').isOperator fd = (s.channel ch').isOperator fd :=
  seen_disguise (·.isOperator fd) fun _ => rfl

@[simp] theorem isEmpty_disguise : ((disguise ch k past s).channel ch').isEmpty = (s.channel ch').isEmpty :=
  seen_disguise Channel.isEmpty fun _ => rfl

@[simp] theorem getMemberCount_disguise :
    ((disguise ch k past s).channel ch').getMemberCount = (s.channel ch').getMemberCount :=
  seen_disguise Channel.getMemberCount fun _ => rfl

end Seen

@[simp] theorem isMember_disguise : (disguise ch k past s).isMember ch' p = s.isMember ch' p :=
  isMember_channel_disguise _ _ _ _ _ _

@[simp] theorem isOperator_disguise : (disguise ch k past s).isOperator ch' p = s.isOperator ch' p :=
  isOperator_channel_disguise _ _ _ _ _ _

@[simp] theorem findClientByFd_disguise : (disguise ch k past s).findClientByFd fd = s.findClientByFd fd := by rfl

@[simp] theorem findClientByNick_disguise :
    (disguise ch k past s).findClientByNick name = s.findClientByNick name := by rfl

@[simp] theorem isNickInUse_disguise : (disguise ch k past s).isNickInUse name p = s.isNickInUse name p := by rfl

@[simp] theorem findActive_disguise {fd' : Fd} : (disguise ch k past s).findActive fd fd' = s.findActive fd fd' := by rfl

@[simp] theorem findMember_disguise : (disguise ch k past s).findMember ch' name = s.findMember ch' name := by
  rw [findMember, findMember, members_disguise]
  rfl

@[simp] theorem findChannel_disguise : (disguise ch k past s).findChannel name = s.findChannel name := by
  have hcontains : (disguise ch k past s).channels.contains (Libcpp.asciiToLower name) =
      s.channels.contains (Libcpp.asciiToLower name) := by
    rw [OrdMap.contains, disguise, OrdMap.get?_modify, Option.isSome_map]
    rfl
  rw [findChannel, findChannel, hcontains]

/-! ### What is written under a disguise -/

@[simp] theorem update_disguise {f : Client → Client} :
    (disguise ch k past s).update p f = disguise ch k past (s.update p f) := rfl

@[simp] theorem record_disguise {e : Event} :
    (disguise ch k past s).record e = disguise ch k past (s.record e) := rfl

@[simp] theorem queueMessage_disguise :
    (disguise ch k past s).queueMessage p text = disguise ch k past (s.queueMessage p text) := rfl

@[simp] theorem sendToClient_disguise :
    (disguise ch k past s).sendToClient p text = disguise ch k past (s.sendToClient p text) := rfl

@[simp] theorem sendReply_disguise {numeric : String} :
    (disguise ch k past s).sendReply p numeric text = disguise ch k past (s.sendReply p numeric text) := rfl

@[simp] theorem fileNotice_disguise :
    (disguise ch k past s).fileNotice p text = disguise ch k past (s.fileNotice p text) := rfl

@[simp] theorem botReply_disguise :
    (disguise ch k past s).botReply p text = disguise ch k past (s.botReply p text) := rfl

@[simp] theorem updateTransfers_disguise {f : OrdMap ℤ Transfer → OrdMap ℤ Transfer} :
    (disguise ch k past s).updateTransfers f = disguise ch k past (s.updateTransfers f) := rfl

@[simp] theorem addTransfer_disguise {tr : Transfer} :
    (disguise ch k past s).addTransfer tr = disguise ch k past (s.addTransfer tr) := rfl

/-- A write to another channel, or one that leaves the key alone. -/
theorem updateChannel_disguise {f : Channel → Channel}
    (h : ch' ≠ ch ∨ ∀ c : Channel, f { c with key := k } = { f c with key := k }) :
    (disguise ch k past s).updateChannel ch' f = disguise ch k past (s.updateChannel ch' f) := by
  rw [updateChannel, updateChannel, disguise, disguise]
  dsimp only
  rw [OrdMap.modify_comm _ h]

@[simp] theorem removeChannel_disguise :
    (disguise ch k past s).removeChannel name = disguise ch k past (s.removeChannel name) := by
  rw [removeChannel, removeChannel, disguise, disguise]
  dsimp only
  rw [OrdMap.modify_erase]

theorem createChannel_disguise (h : Libcpp.asciiToLower name ≠ ch) :
    (disguise ch k past s).createChannel name p = disguise ch k past (s.createChannel name p) := by
  rw [createChannel, createChannel, disguise, disguise]
  dsimp only
  rw [OrdMap.modify_insert _ _ h]
  rfl

@[simp] theorem ite_disguise {c : Prop} {inst : Decidable c} : (if c then disguise ch k past s else disguise ch k past t) =
    disguise ch k past (if c then s else t) := by
  split <;> rfl

/-- A loop whose body goes through a disguise does too. -/
theorem foldl_disguise {α : Type} {step : Server → α → Server} {as : List α}
    (h : ∀ s, ∀ a ∈ as, step (disguise ch k past s) a = disguise ch k past (step s a)) :
    as.foldl step (disguise ch k past s) = disguise ch k past (as.foldl step s) := by
  induction as generalizing s with
  | nil => rfl
  | cons a as ih =>
    rw [List.foldl_cons, List.foldl_cons, h s a List.mem_cons_self]
    exact ih fun s a' ha' => h s a' (List.mem_cons_of_mem a ha')

/-! ### The handlers -/

@[simp] theorem queueAll_disguise {ps : List ClientId} {exclude : Option ClientId} :
    (disguise ch k past s).queueAll ps text exclude = disguise ch k past (s.queueAll ps text exclude) := by
  refine foldl_disguise fun s p _ => ?_
  split <;> rfl

@[simp] theorem broadcastMessage_disguise {exclude : Option ClientId} :
    (disguise ch k past s).broadcastMessage ch' text exclude = disguise ch k past (s.broadcastMessage ch' text exclude) := by
  rw [broadcastMessage, broadcastMessage, members_disguise, queueAll_disguise]

/-- A loop that remembers something besides. -/
theorem foldl_fst_disguise {α β : Type} {step : Server × β → α → Server × β} {as : List α} {b : β}
    (h : ∀ s b a, step (disguise ch k past s, b) a = Prod.map (disguise ch k past) id (step (s, b) a)) :
    as.foldl step (disguise ch k past s, b) = Prod.map (disguise ch k past) id (as.foldl step (s, b)) :=
  @List.foldl_hom _ _ _ (Prod.map (disguise ch k past) id) _ _ as (s, b) fun acc a => h acc.1 acc.2 a

@[simp] theorem queueOnce_disguise {ps : List ClientId} {sent : Finset Fd} :
    (disguise ch k past s).queueOnce ps text sent = Prod.map (disguise ch k past) id (s.queueOnce ps text sent) := by
  refine foldl_fst_disguise fun s b p => ?_
  dsimp only
  rw [deref_disguise]
  split <;> rfl

@[simp] theorem broadcastToChannels_disguise :
    (disguise ch k past s).broadcastToChannels p text = disguise ch k past (s.broadcastToChannels p text) := by
  rw [broadcastToChannels, broadcastToChannels, keys_disguise]
  refine congrArg Prod.fst (foldl_fst_disguise fun s b ch' => ?_)
  simp only [isMember_disguise, members_disguise, queueOnce_disguise]
  split <;> rfl

@[simp] theorem leaveChannel_disguise :
    (disguise ch k past s).leaveChannel p ch' name text = disguise ch k past (s.leaveChannel p ch' name text) := by
  simp (disch := exact .inr fun _ => rfl) only [leaveChannel, broadcastMessage_disguise, deref_disguise, updateChannel_disguise,
    isEmpty_disguise, removeChannel_disguise]
  split <;> rfl

@[simp] theorem dropMember_disguise :
    (disguise ch k past s).dropMember fd ch' = disguise ch k past (s.dropMember fd ch') := by
  simp (disch := exact .inr fun _ => rfl) only [dropMember, updateChannel_disguise, isEmpty_disguise]
  split
  · rw [disguise, disguise]
    dsimp only
    rw [OrdMap.modify_erase]
  · rfl

/-! ### Closing a session -/

@[simp] theorem noticeFd_disguise :
    (disguise ch k past s).noticeFd fd text = disguise ch k past (s.noticeFd fd text) := by
  simp only [noticeFd, findClientByFd_disguise, fileNotice_disguise]
  split <;> rfl

@[simp] theorem abortTransfer_disguise {id : ℤ} :
    (disguise ch k past s).abortTransfer id text = disguise ch k past (s.abortTransfer id text) := by
  simp only [abortTransfer, files_disguise, noticeFd_disguise, updateTransfers_disguise]
  split <;> rfl

@[simp] theorem fileOnClientDisconnect_disguise :
    (disguise ch k past s).fileOnClientDisconnect p = disguise ch k past (s.fileOnClientDisconnect p) := by
  refine foldl_disguise fun s id _ => ?_
  simp only [files_disguise, abortTransfer_disguise]
  rcases s.files.transfers.get? id with _ | tr
  · rfl
  · dsimp only
    split <;> rfl

theorem teardownChannel_disguise {sent : Finset Fd} :
    teardownChannel p text (disguise ch k past s, sent) ch' =
      Prod.map (disguise ch k past) id (teardownChannel p text (s, sent) ch') := by
  simp (disch := exact .inr fun _ => rfl) only [teardownChannel, updateChannel_disguise, deref_disguise, isMember_channel_disguise,
    members_disguise, queueOnce_disguise, Prod.map_fst, Prod.map_snd, dropMember_disguise, id_eq]
  split <;> rfl

theorem teardownClientState_disguise {disconnect : Server → Fd → Str → Server}
    (h : ∀ s fd reason, disconnect (disguise ch k past s) fd reason = disguise ch k past (disconnect s fd reason)) :
    teardownClientState disconnect (disguise ch k past s) p reason =
      disguise ch k past (teardownClientState disconnect s p reason) := by
  rw [teardownClientState, teardownClientState, deref_disguise]
  split
  · rfl
  · have hloop : ∀ (u : Server) (sent : Finset Fd) (keys : List Str) (text : Str),
        keys.foldl (teardownChannel p text) (disguise ch k past u, sent) =
          Prod.map (disguise ch k past) id (keys.foldl (teardownChannel p text) (u, sent)) :=
      fun u sent keys text => foldl_fst_disguise fun _ _ _ => teardownChannel_disguise
    have hagain : ∀ (u : Server) (reasons : List Str) (fd : Fd),
        reasons.foldl (fun s r => disconnect s fd r) (disguise ch k past u) =
          disguise ch k past (reasons.foldl (fun s r => disconnect s fd r) u) :=
      fun u reasons fd => foldl_disguise fun s r _ => h s fd r
    have hmark : markTearingDown p (disguise ch k past s) = disguise ch k past (markTearingDown p s) := rfl
    simp only [hmark, deref_disguise, keys_disguise, hloop, Prod.map_fst, fileOnClientDisconnect_disguise,
      reentrant_disguise, hagain, record_disguise]

@[simp] theorem finalizeDisconnect_disguise :
    (disguise ch k past s).finalizeDisconnect fd = disguise ch k past (s.finalizeDisconnect fd) := by
  rw [finalizeDisconnect, finalizeDisconnect, clients_disguise]
  split <;> rfl

theorem disconnectNested_disguise (n : ℕ) :
    disconnectNested n (disguise ch k past s) fd reason = disguise ch k past (disconnectNested n s fd reason) := by
  induction n generalizing s fd reason with
  | zero => rfl
  | succ n ih =>
    rw [disconnectNested, disconnectNested, clients_disguise]
    rcases s.clients.get? fd with _ | p
    · rfl
    · simp only [deref_disguise, teardownClientState_disguise fun _ _ _ => ih, finalizeDisconnect_disguise,
        clock_disguise, update_disguise, record_disguise]
      split
      · rfl
      · split <;> rfl

@[simp] theorem disconnectClient_disguise :
    (disguise ch k past s).disconnectClient fd reason = disguise ch k past (s.disconnectClient fd reason) :=
  disconnectNested_disguise _

/-! ### Registration -/

theorem completeRegistration_disguise :
    (disguise ch k past s).completeRegistration p = disguise ch k past (s.completeRegistration p) := by
  simp only [completeRegistration, welcomeBurst, deref_disguise, password_disguise, sendReply_disguise,
    disconnectClient_disguise, update_disguise, ite_disguise]

theorem cmdCap_disguise : (disguise ch k past s).cmdCap p msg = disguise ch k past (s.cmdCap p msg) := by
  simp only [cmdCap, queueMessage_disguise, ite_disguise]

theorem cmdPass_disguise : (disguise ch k past s).cmdPass p msg = disguise ch k past (s.cmdPass p msg) := by
  simp only [cmdPass, deref_disguise, sendReply_disguise, update_disguise, ite_disguise]

theorem cmdNick_disguise : (disguise ch k past s).cmdNick p msg = disguise ch k past (s.cmdNick p msg) := by
  simp only [cmdNick, deref_disguise, sendReply_disguise, isNickInUse_disguise, queueMessage_disguise,
    broadcastToChannels_disguise, update_disguise, completeRegistration_disguise, ite_disguise]

theorem cmdUser_disguise : (disguise ch k past s).cmdUser p msg = disguise ch k past (s.cmdUser p msg) := by
  simp only [cmdUser, deref_disguise, sendReply_disguise, update_disguise, completeRegistration_disguise,
    ite_disguise]

/-! ### Channels -/

theorem getNamesChunks_disguise {budget : ℕ} :
    (disguise ch k past s).getNamesChunks ch' budget = s.getNamesChunks ch' budget := by
  simp only [getNamesChunks, members_disguise, isOperator_channel_disguise, deref_disguise]

/-- The replies to a `JOIN` of another channel. -/
theorem joinReplies_disguise (h : ch' ≠ ch) :
    (disguise ch k past s).joinReplies p ch' name = disguise ch k past (s.joinReplies p ch' name) := by
  have hchunks : ∀ (u : Server) (chunks : List Str) (head : Str),
      chunks.foldl (fun s chunk => s.sendReply p "353" (head ++ chunk)) (disguise ch k past u) =
        disguise ch k past (chunks.foldl (fun s chunk => s.sendReply p "353" (head ++ chunk)) u) :=
    fun u chunks head => foldl_disguise fun _ _ _ => rfl
  simp only [joinReplies, channel_disguise_of_ne h, sendReply_disguise, ite_disguise, deref_disguise,
    getNamesChunks_disguise, hchunks]

theorem announceJoin_disguise (h : ch' ≠ ch) :
    (disguise ch k past s).announceJoin p ch' name = disguise ch k past (s.announceJoin p ch' name) := by
  rw [announceJoin, announceJoin, name_disguise, deref_disguise, broadcastMessage_disguise, joinReplies_disguise h]

/-- One channel of a `JOIN` that is another one. -/
theorem joinOne_disguise {target : Str × Str} (h : Libcpp.asciiToLower target.1 ≠ ch) :
    joinOne p (disguise ch k past s) target = disguise ch k past (joinOne p s target) := by
  rw [joinOne, joinOne, findChannel_disguise]
  dsimp only
  split
  · rfl
  rcases hfound : s.findChannel target.1 with _ | ch'
  · dsimp only
    rw [createChannel_disguise h, announceJoin_disguise h]
  · have hne : ch' ≠ ch := by
      obtain ⟨-, hfound⟩ := Option.ite_none_right_eq_some.mp hfound
      exact Option.some.inj hfound ▸ h
    simp only [channel_disguise_of_ne hne, deref_disguise, sendReply_disguise, updateChannel_disguise (.inl hne),
      announceJoin_disguise hne, ite_disguise]

theorem partAllChannels_disguise :
    (disguise ch k past s).partAllChannels p = disguise ch k past (s.partAllChannels p) := by
  simp only [partAllChannels, keys_disguise, isMember_disguise]
  refine foldl_disguise fun s name _ => ?_
  simp only [findChannel_disguise, leaveChannel_disguise, deref_disguise, name_disguise]
  split <;> rfl

/-- A `JOIN` of other channels. -/
theorem cmdJoin_disguise (h : ∀ name ∈ msg.list "chanlist" COMMA, Libcpp.asciiToLower name ≠ ch) :
    (disguise ch k past s).cmdJoin p msg = disguise ch k past (s.cmdJoin p msg) := by
  rw [cmdJoin, cmdJoin, partAllChannels_disguise, sendReply_disguise]
  split_ifs
  · rfl
  · rfl
  · refine foldl_disguise fun s target htarget => joinOne_disguise ?_
    obtain ⟨e, he, rfl⟩ := List.mem_map.mp htarget
    exact h e.1 (List.fst_mem_of_mem_zipIdx he)

theorem cmdPart_disguise : (disguise ch k past s).cmdPart p msg = disguise ch k past (s.cmdPart p msg) := by
  have hone : ∀ (s : Server) (name reason : Str),
      partOne p reason (disguise ch k past s) name = disguise ch k past (partOne p reason s name) := by
    intro s name reason
    simp only [partOne, findChannel_disguise, sendReply_disguise, isMember_disguise, leaveChannel_disguise,
      deref_disguise, name_disguise, ite_disguise]
    split <;> rfl
  rw [cmdPart, cmdPart, sendReply_disguise, foldl_disguise fun s name _ => hone s name _, ite_disguise]

theorem cmdKick_disguise : (disguise ch k past s).cmdKick p msg = disguise ch k past (s.cmdKick p msg) := by
  simp only [cmdKick, findChannel_disguise, sendReply_disguise, isMember_disguise, isOperator_disguise,
    findMember_disguise, leaveChannel_disguise, deref_disguise, name_disguise]
  rcases s.findChannel (msg.field "kickchans") with _ | ch'
  · exact ite_disguise
  · rcases hq : s.findMember ch' (msg.field "kickusers") with _ | q <;> simp only [hq, ite_disguise]

theorem cmdInvite_disguise : (disguise ch k past s).cmdInvite p msg = disguise ch k past (s.cmdInvite p msg) := by
  simp (disch := exact .inr fun _ => rfl) only [cmdInvite, findChannel_disguise, sendReply_disguise, isMember_disguise,
    inviteOnly_disguise, isOperator_disguise, findClientByNick_disguise, deref_disguise, updateChannel_disguise,
    queueMessage_disguise]
  rcases s.findChannel (msg.field "invchan") with _ | ch'
  · exact ite_disguise
  · rcases s.findClientByNick (msg.field "invnick") with _ | q <;> simp only [ite_disguise]

theorem cmdTopic_disguise : (disguise ch k past s).cmdTopic p msg = disguise ch k past (s.cmdTopic p msg) := by
  simp (disch := exact .inr fun _ => rfl) only [cmdTopic, findChannel_disguise, sendReply_disguise, isMember_disguise,
    topic_disguise, topicSetter_disguise, topicTime_disguise, topicRestricted_disguise, isOperator_disguise,
    deref_disguise, clock_disguise, updateChannel_disguise, name_disguise, broadcastMessage_disguise]
  rcases s.findChannel (msg.param 0) with _ | ch' <;> simp only [ite_disguise]

/-! ### Modes -/

/-- The loop over a mode string, in a disguise. -/
def disguiseLoop (ch : ChannelRef) (k : Str) (past : List Event) (m : ModeLoop) : ModeLoop :=
  { m with server := disguise ch k past m.server }

variable {m m' : ModeLoop} {letter : Octet} {rest : Str}

theorem reportOnce_disguise {what : Str} {numeric : String} :
    (disguiseLoop ch k past m).reportOnce what p numeric text = disguiseLoop ch k past (m.reportOnce what p numeric text) := by
  by_cases hwhat : what ∈ m.reported
  · rw [ModeLoop.reportOnce, ModeLoop.reportOnce, if_pos hwhat]
    exact if_pos hwhat
  · rw [ModeLoop.reportOnce, ModeLoop.reportOnce, if_neg hwhat]
    exact if_neg hwhat

theorem userModeLetter_disguise :
    userModeLetter p (disguiseLoop ch k past m) letter = disguiseLoop ch k past (userModeLetter p m letter) := by
  rw [userModeLetter, userModeLetter]
  split_ifs
  · rfl
  · rfl
  · rfl
  · rfl
  · exact reportOnce_disguise

theorem handleUserMode_disguise :
    (disguise ch k past s).handleUserMode p msg = disguise ch k past (s.handleUserMode p msg) := by
  have hletters : ∀ (m : ModeLoop) (letters : Str), letters.foldl (userModeLetter p) (disguiseLoop ch k past m) =
      disguiseLoop ch k past (letters.foldl (userModeLetter p) m) :=
    fun m letters => List.foldl_hom _ fun m letter => userModeLetter_disguise
  have hlines : ∀ (u : Server) (lines : List Str), lines.foldl (fun s line => s.queueMessage p line) (disguise ch k past u) =
      disguise ch k past (lines.foldl (fun s line => s.queueMessage p line) u) :=
    fun u lines => foldl_disguise fun _ _ _ => rfl
  have hstart : ({ server := disguise ch k past s } : ModeLoop) = disguiseLoop ch k past { server := s } := rfl
  simp only [handleUserMode, deref_disguise, sendReply_disguise, hstart, hletters]
  simp only [disguiseLoop, deref_disguise, hlines, ite_disguise]

section OtherChannel

variable (h : ch' ≠ ch)
include h

/-- A change of another channel. -/
theorem changed_disguise {f : Channel → Channel} {mc : ModeChange} :
    (disguiseLoop ch k past m).apply ((disguiseLoop ch k past m).server.updateChannel ch' f) mc =
      disguiseLoop ch k past (m.apply (m.server.updateChannel ch' f) mc) := by
  rw [disguiseLoop, updateChannel_disguise (.inl h)]
  rfl

theorem modeKey_disguise : modeKey p ch' (disguiseLoop ch k past m) rest = disguiseLoop ch k past (modeKey p ch' m rest) := by
  obtain ⟨u, adding, params, applied, reported⟩ := m
  rcases adding with _ | _ <;> rcases params with _ | ⟨param, params⟩
  · exact changed_disguise h
  · by_cases hmore : (param :: params).length > paramsRequiredFrom rest false
    · have hkey : ∀ u : Server, modeKey p ch' ⟨u, false, param :: params, applied, reported⟩ rest =
          (⟨u, false, params, applied, reported⟩ : ModeLoop).apply _ _ := fun u => if_pos hmore
      rw [disguiseLoop, hkey, hkey]
      exact changed_disguise (m := ⟨u, false, params, applied, reported⟩) h
    · have hkey : ∀ u : Server, modeKey p ch' ⟨u, false, param :: params, applied, reported⟩ rest =
          (⟨u, false, param :: params, applied, reported⟩ : ModeLoop).apply _ _ := fun u => if_neg hmore
      rw [disguiseLoop, hkey, hkey]
      exact changed_disguise h
  · exact reportOnce_disguise
  · by_cases hbad : (!isValidChannelKey param) = true
    · have hkey : ∀ u : Server, modeKey p ch' ⟨u, true, param :: params, applied, reported⟩ rest =
          (⟨u, true, params, applied, reported⟩ : ModeLoop).reportOnce _ p "525" ((u.channel ch').name ++ _) :=
        fun u => if_pos hbad
      rw [disguiseLoop, hkey, hkey, name_disguise]
      exact reportOnce_disguise (m := ⟨u, true, params, applied, reported⟩)
    · have hkey : ∀ u : Server, modeKey p ch' ⟨u, true, param :: params, applied, reported⟩ rest =
          (⟨u, true, params, applied, reported⟩ : ModeLoop).apply _ _ := fun u => if_neg hbad
      rw [disguiseLoop, hkey, hkey]
      exact changed_disguise (m := ⟨u, true, params, applied, reported⟩) h

theorem modeOperator_disguise :
    modeOperator p ch' (disguiseLoop ch k past m) = disguiseLoop ch k past (modeOperator p ch' m) := by
  obtain ⟨u, adding, params, applied, reported⟩ := m
  rcases params with _ | ⟨nick, params⟩
  · exact reportOnce_disguise
  · simp only [modeOperator, disguiseLoop, findMember_disguise, name_disguise, deref_disguise]
    rcases u.findMember ch' nick with _ | q
    · exact reportOnce_disguise (m := ⟨u, adding, params, applied, reported⟩)
    · exact changed_disguise (m := ⟨u, adding, params, applied, reported⟩) h

theorem modeLimit_disguise : modeLimit p ch' (disguiseLoop ch k past m) = disguiseLoop ch k past (modeLimit p ch' m) := by
  obtain ⟨u, adding, params, applied, reported⟩ := m
  rcases adding with _ | _
  · exact changed_disguise h
  rcases params with _ | ⟨limit, params⟩
  · exact reportOnce_disguise
  · simp only [modeLimit, disguiseLoop, name_disguise, if_true]
    rcases Libcpp.parseLong limit 1 MAX_USERLIMIT with _ | n
    · exact reportOnce_disguise (m := ⟨u, true, params, applied, reported⟩)
    · exact changed_disguise (m := ⟨u, true, params, applied, reported⟩) h

theorem channelModeLetter_disguise :
    channelModeLetter p ch' (disguiseLoop ch k past m) letter rest =
      disguiseLoop ch k past (channelModeLetter p ch' m letter rest) := by
  rw [channelModeLetter, channelModeLetter, modeKey_disguise h, modeOperator_disguise h, modeLimit_disguise h]
  split_ifs
  · rfl
  · rfl
  · exact changed_disguise h
  · exact changed_disguise h
  · rfl
  · rfl
  · rfl
  · exact reportOnce_disguise

theorem channelModeLoop_disguise {modes : Str} :
    channelModeLoop p ch' (disguiseLoop ch k past m) modes = disguiseLoop ch k past (channelModeLoop p ch' m modes) := by
  induction modes generalizing m with
  | nil => rfl
  | cons c rest ih => rw [channelModeLoop, channelModeLoop, channelModeLetter_disguise h, ih]

/-- Modes of another channel are changed. -/
theorem handleChannelMode_disguise :
    (disguise ch k past s).handleChannelMode p ch' msg = disguise ch k past (s.handleChannelMode p ch' msg) := by
  have hlines : ∀ (u : Server) (lines : List Str),
      lines.foldl (fun s line => s.broadcastMessage ch' line none) (disguise ch k past u) =
        disguise ch k past (lines.foldl (fun s line => s.broadcastMessage ch' line none) u) :=
    fun u lines => foldl_disguise fun _ _ _ => broadcastMessage_disguise
  have hstart : ∀ params : List Str, ({ server := disguise ch k past s, params := params } : ModeLoop) =
      disguiseLoop ch k past { server := s, params := params } := fun _ => rfl
  simp only [handleChannelMode, isMember_disguise, isOperator_disguise, name_disguise, sendReply_disguise, hstart,
    channelModeLoop_disguise h]
  simp only [disguiseLoop, deref_disguise, name_disguise, hlines, ite_disguise]

end OtherChannel

/-- **Modes are shown and changed** by a client that is not on the channel: nothing of the key is in
the reply. -/
theorem cmdMode_disguise (h : s.isMember ch p = false) :
    (disguise ch k past s).cmdMode p msg = disguise ch k past (s.cmdMode p msg) := by
  simp only [cmdMode, findChannel_disguise, handleUserMode_disguise, sendReply_disguise]
  rcases s.findChannel (msg.param 0) with _ | ch'
  · simp only [ite_disguise]
  by_cases hch : ch' = ch
  · subst hch
    simp only [isMember_disguise, h, handleChannelMode, sendReply_disguise, name_disguise, Bool.not_false, if_true,
      ite_disguise]
  · simp only [isMember_disguise, channel_disguise_of_ne hch, handleChannelMode_disguise hch, ite_disguise]

/-! ### Messages, the bot and queries -/

/-- There is a key on the channel, if there is the channel. -/
def Keyed (ch : ChannelRef) (s : Server) : Prop := ∀ chan, s.channels.get? ch = some chan → chan.key ≠ []

/-- **The letters of the modes** are the same for any two keys. -/
theorem getModeString_disguise (hk : k ≠ []) (hs : Keyed ch s) :
    ((disguise ch k past s).channel ch').getModeString = (s.channel ch').getModeString := by
  by_cases hch : ch' = ch
  · subst hch
    rw [channel, channel, disguise]
    dsimp only
    rw [OrdMap.get?_modify_self]
    rcases hchan : s.channels.get? ch' with _ | chan
    · rfl
    · simp only [Option.map_some, Option.getD_some, Channel.getModeString, hk, hs chan hchan, ne_eq, not_false_iff, if_true]
  · rw [channel_disguise_of_ne hch]

theorem botInfo_disguise (hk : k ≠ []) (hs : Keyed ch s) :
    (disguise ch k past s).botInfo p text = disguise ch k past (s.botInfo p text) := by
  simp only [botInfo, findChannel_disguise, botReply_disguise, getMemberCount_disguise, getModeString_disguise hk hs,
    topic_disguise]
  rcases s.findChannel text with _ | ch' <;> simp only [ite_disguise]

theorem botHandleMessage_disguise (hk : k ≠ []) (hs : Keyed ch s) :
    (disguise ch k past s).botHandleMessage p text = disguise ch k past (s.botHandleMessage p text) := by
  have hjoke : (disguise ch k past s).botJoke p = disguise ch k past (s.botJoke p) := rfl
  simp only [botHandleMessage, botHelp, botTime, botReply_disguise, clock_disguise, botInfo_disguise hk hs, hjoke,
    ite_disguise]

theorem channels_botReply : (s.botReply p text).channels = s.channels := rfl

/-- The bot changes no channel. -/
theorem channels_botHandleMessage : (s.botHandleMessage p text).channels = s.channels := by
  have hjoke : (s.botJoke p).channels = s.channels := rfl
  have hinfo : ∀ param, (s.botInfo p param).channels = s.channels := by
    intro param
    rw [botInfo]
    rcases s.findChannel param with _ | ch' <;> simp only [apply_ite Server.channels, channels_botReply, ite_self]
  simp only [botHandleMessage, botHelp, botTime, apply_ite Server.channels, channels_botReply, hinfo, hjoke, ite_self]

/-- A message changes no channel. -/
theorem channels_privmsgOne {target : Str} : (privmsgOne p text s target).channels = s.channels := by
  have hall : ∀ (ps : List ClientId) (line : Str), (s.queueAll ps line (some p)).channels = s.channels := by
    intro ps line
    rw [queueAll_eq, channels_queueMany]
  rw [privmsgOne]
  split_ifs
  · rcases s.findChannel target with _ | ch'
    · rfl
    · dsimp only
      split_ifs
      · rfl
      · exact hall _ _
  · exact channels_botHandleMessage
  · rcases s.findClientByNick target with _ | q <;> rfl

theorem cmdPrivmsg_disguise (hk : k ≠ []) (hs : Keyed ch s) :
    (disguise ch k past s).cmdPrivmsg p msg = disguise ch k past (s.cmdPrivmsg p msg) := by
  have hone : ∀ s, Keyed ch s → ∀ text target,
      privmsgOne p text (disguise ch k past s) target = disguise ch k past (privmsgOne p text s target) := by
    intro s hs text target
    simp only [privmsgOne, findChannel_disguise, deref_disguise, sendReply_disguise, isMember_disguise,
      broadcastMessage_disguise, botHandleMessage_disguise hk hs, findClientByNick_disguise, queueMessage_disguise]
    rcases s.findChannel target with _ | ch' <;> rcases s.findClientByNick target with _ | q <;> simp only [ite_disguise]
  have hall : ∀ (text : Str) (targets : List Str), targets.foldl (privmsgOne p text) (disguise ch k past s) =
      disguise ch k past (targets.foldl (privmsgOne p text) s) := by
    intro text targets
    induction targets generalizing s with
    | nil => rfl
    | cons target targets ih =>
      rw [List.foldl_cons, List.foldl_cons, hone s hs]
      exact ih fun chan hchan => hs chan (channels_privmsgOne ▸ hchan)
  simp only [cmdPrivmsg, sendReply_disguise, hall, ite_disguise]

theorem cmdNotice_disguise : (disguise ch k past s).cmdNotice p msg = disguise ch k past (s.cmdNotice p msg) := by
  have hone : ∀ (s : Server) (text target : Str),
      noticeOne p text (disguise ch k past s) target = disguise ch k past (noticeOne p text s target) := by
    intro s text target
    simp only [noticeOne, findChannel_disguise, deref_disguise, isMember_disguise, broadcastMessage_disguise,
      findClientByNick_disguise, queueMessage_disguise]
    rcases s.findChannel target with _ | ch' <;> rcases s.findClientByNick target with _ | q <;> simp only [ite_disguise]
  rw [cmdNotice, cmdNotice, foldl_disguise fun s target _ => hone s _ target, ite_disguise]

theorem cmdWho_disguise : (disguise ch k past s).cmdWho p msg = disguise ch k past (s.cmdWho p msg) := by
  simp (disch := intro s q _; simp only [isOperator_disguise, deref_disguise, sendReply_disguise]) only [cmdWho,
    findChannel_disguise, sendReply_disguise, members_disguise, findClientByNick_disguise, deref_disguise, foldl_disguise]
  rcases s.findChannel (msg.param 0) with _ | ch' <;> rcases s.findClientByNick (msg.param 0) with _ | q <;>
    simp only [sendReply_disguise, ite_disguise]

theorem cmdWhois_disguise : (disguise ch k past s).cmdWhois p msg = disguise ch k past (s.cmdWhois p msg) := by
  have hlist : ∀ q, (disguise ch k past s).whoisChannels q = s.whoisChannels q := by
    intro q
    simp only [whoisChannels, keys_disguise, isMember_disguise, isOperator_disguise, name_disguise]
  simp only [cmdWhois, findClientByNick_disguise, sendReply_disguise, deref_disguise, hlist]
  rcases s.findClientByNick (msg.param (if msg.params.length > 1 then 1 else 0)) with _ | q <;>
    simp only [ite_disguise, sendReply_disguise]

theorem cmdUserhost_disguise :
    (disguise ch k past s).cmdUserhost p msg = disguise ch k past (s.cmdUserhost p msg) := by
  simp only [cmdUserhost, sendReply_disguise, findClientByNick_disguise, deref_disguise, ite_disguise]

/-! ### Transfers -/

theorem fileSend_disguise : (disguise ch k past s).fileSend p msg = disguise ch k past (s.fileSend p msg) := by
  simp only [fileSend, fileNotice_disguise, findClientByNick_disguise, deref_disguise, findActive_disguise, files_disguise,
    clock_disguise, addTransfer_disguise, queueMessage_disguise]
  rcases s.findClientByNick (msg.param 1) with _ | q <;>
    rcases Libcpp.parseUlong (msg.param 3) 1 MAX_FILE_SIZE with _ | size <;> simp only [ite_disguise]

theorem fileAnswer_disguise {accept : Bool} :
    (disguise ch k past s).fileAnswer p msg accept = disguise ch k past (s.fileAnswer p msg accept) := by
  simp only [fileAnswer, fileNotice_disguise, files_disguise, deref_disguise, findClientByFd_disguise, clock_disguise,
    updateTransfers_disguise, queueMessage_disguise]
  rcases transferId msg 2 with _ | id
  · rfl
  dsimp only
  rcases s.files.transfers.get? id with _ | tr
  · rfl
  dsimp only
  rcases s.findClientByFd tr.senderFd with _ | q <;> simp only [ite_disguise]

theorem fileData_disguise : (disguise ch k past s).fileData p msg = disguise ch k past (s.fileData p msg) := by
  simp only [fileData, fileNotice_disguise, files_disguise, deref_disguise, findClientByFd_disguise, clock_disguise,
    updateTransfers_disguise, queueMessage_disguise, abortTransfer_disguise]
  rcases transferId msg 3 with _ | id
  · rfl
  dsimp only
  rcases s.files.transfers.get? id with _ | tr
  · rfl
  dsimp only
  rcases s.findClientByFd tr.recipientFd with _ | q <;> simp only [ite_disguise]

theorem fileEnd_disguise : (disguise ch k past s).fileEnd p msg = disguise ch k past (s.fileEnd p msg) := by
  simp only [fileEnd, fileNotice_disguise, files_disguise, deref_disguise, findClientByFd_disguise,
    queueMessage_disguise]
  rcases transferId msg 2 with _ | id
  · rfl
  dsimp only
  rcases s.files.transfers.get? id with _ | tr
  · rfl
  dsimp only
  rcases s.findClientByFd tr.recipientFd with _ | q <;> simp only [updateTransfers_disguise, ite_disguise]

theorem fileAbort_disguise : (disguise ch k past s).fileAbort p msg = disguise ch k past (s.fileAbort p msg) := by
  simp only [fileAbort, fileNotice_disguise, files_disguise, deref_disguise, abortTransfer_disguise]
  rcases transferId msg 2 with _ | id
  · rfl
  dsimp only
  rcases s.files.transfers.get? id with _ | tr
  · rfl
  · simp only [ite_disguise]

theorem fileOnCommand_disguise :
    (disguise ch k past s).fileOnCommand p msg = (s.fileOnCommand p msg).map (disguise ch k past) := by
  rw [fileOnCommand, fileOnCommand]
  simp only [fileNotice_disguise, fileSend_disguise, fileAnswer_disguise, fileData_disguise, fileEnd_disguise,
    fileAbort_disguise]
  split_ifs <;> rfl

/-! ### Two runs -/

/-- The line is no `JOIN` of the channel. -/
def JoinsOthers (M : Matcher) (raw : Str) (ch : ChannelRef) : Prop :=
  ∀ msg, M.buildMessage raw = some msg → msg.command = str "JOIN" →
    ∀ name ∈ msg.list "chanlist" COMMA, Libcpp.asciiToLower name ≠ ch

theorem handler_disguise (hk : k ≠ []) (hs : Keyed ch s) (hp : s.isMember ch p = false)
    (hjoin : msg.command = str "JOIN" → ∀ name ∈ msg.list "chanlist" COMMA, Libcpp.asciiToLower name ≠ ch)
    {entry : CommandEntry} (hentry : findCommand msg.command = some entry) :
    entry.handler (disguise ch k past s) p msg = disguise ch k past (entry.handler s p msg) := by
  have hfound : (entry.name == msg.command) = true := @List.find?_some _ (fun e : CommandEntry => e.name == msg.command) _ _ hentry
  have hname : entry.name = msg.command := eq_of_beq hfound
  have hmem : entry ∈ kCommands := List.mem_of_find?_eq_some hentry
  simp only [kCommands, List.mem_cons, List.not_mem_nil, or_false] at hmem
  rcases hmem with rfl | rfl | rfl | rfl | rfl | rfl | rfl | rfl | rfl | rfl | rfl | rfl | rfl | rfl | rfl | rfl |
    rfl | rfl
  · exact cmdCap_disguise
  · exact cmdPass_disguise
  · exact cmdNick_disguise
  · exact cmdUser_disguise
  · exact disconnectClient_disguise
  · rfl
  · simp only [cmdPing, sendReply_disguise, queueMessage_disguise, ite_disguise]
  · exact cmdJoin_disguise (hjoin hname.symm)
  · exact cmdPart_disguise
  · exact cmdPrivmsg_disguise hk hs
  · exact cmdNotice_disguise
  · exact cmdKick_disguise
  · exact cmdInvite_disguise
  · exact cmdTopic_disguise
  · exact cmdMode_disguise hp
  · exact cmdWho_disguise
  · exact cmdWhois_disguise
  · exact cmdUserhost_disguise

/-- **A line goes through a disguise**, if it comes from outside of the channel and does not join it. -/
theorem handleMessage_disguise (hk : k ≠ []) (hs : Keyed ch s) (hp : s.isMember ch p = false)
    (hjoin : JoinsOthers M raw ch) :
    (disguise ch k past s).handleMessage M p raw = disguise ch k past (s.handleMessage M p raw) := by
  have hs' : Keyed ch (s.record (.inbound p raw)) := hs
  have hp' : (s.record (.inbound p raw)).isMember ch p = false := hp
  rw [handleMessage, handleMessage, record_disguise]
  rcases hmsg : M.buildMessage raw with _ | msg
  · rfl
  dsimp only
  rw [dispatchCommand, dispatchCommand]
  simp only [deref_disguise, sendReply_disguise]
  rcases hentry : findCommand msg.command with _ | entry
  · rw [fileOnCommand_disguise]
    rcases (s.record (.inbound p raw)).fileOnCommand p msg with _ | t <;> exact ite_disguise
  · dsimp only
    rw [handler_disguise hk hs' hp' (hjoin msg hmsg) hentry]
    simp only [ite_disguise]

/-- **Two servers differ at most in the key of a channel**, and in what was recorded so far. -/
def SameButKey (ch : ChannelRef) (s t : Server) : Prop :=
  ∃ k, t = { s with
    channels := s.channels.modify ch fun chan => { chan with key := k }
    trace := t.trace }

/-- With the record taken away, such a server is the other one in a disguise. -/
theorem SameButKey.disguised (h : SameButKey ch s t) (ht : Keyed ch t) :
    ∃ k, k ≠ [] ∧ t = disguise ch k t.trace { s with trace := [] } := by
  obtain ⟨k, ht'⟩ := h
  rcases hchan : s.channels.get? ch with _ | chan
  · refine ⟨str "k", by decide, ht'.trans ?_⟩
    have hany : ∀ k, s.channels.modify ch (fun chan => { chan with key := k }) = s.channels :=
      fun k => OrdMap.modify_eq_self fun chan hsome => absurd (hchan.symm.trans hsome) (by simp)
    rw [disguise]
    dsimp only
    rw [hany, hany, List.nil_append]
  · refine ⟨k, ?_, ht'⟩
    have hget : t.channels.get? ch = some { chan with key := k } := by
      rw [ht']
      dsimp only
      rw [OrdMap.get?_modify_self, hchan, Option.map_some]
    exact ht _ hget

theorem SameButKey.refl (s : Server) (ch : ChannelRef) : SameButKey ch s s := by
  refine ⟨(s.channel ch).key, ?_⟩
  have hself : s.channels.modify ch (fun chan => { chan with key := (s.channel ch).key }) = s.channels := by
    refine OrdMap.modify_eq_self fun chan hchan => ?_
    rw [channel, hchan, Option.getD_some]
  rw [hself]

/-- **The key of a channel is a secret** from whoever is not on it: two servers that differ at most in
this key do the same at a line that is no `JOIN` of the channel, say the same to everybody, and differ at
most in this key afterwards. -/
theorem handleMessage_keySecret (hs : Keyed ch s) (ht : Keyed ch t) (hsame : SameButKey ch s t)
    (hp : s.isMember ch p = false) (hjoin : JoinsOthers M raw ch) :
    SameButKey ch (s.handleMessage M p raw) (t.handleMessage M p raw) ∧
      ∃ events, (s.handleMessage M p raw).trace = events ++ s.trace ∧
        (t.handleMessage M p raw).trace = events ++ t.trace := by
  obtain ⟨ks, hks, hs'⟩ := (SameButKey.refl s ch).disguised hs
  obtain ⟨kt, hkt, ht'⟩ := hsame.disguised ht
  have hkeyed : Keyed ch { s with trace := [] } := hs
  have hread : isMember { s with trace := [] } ch p = false := hp
  have hsaid : s.handleMessage M p raw = disguise ch ks s.trace (handleMessage M { s with trace := [] } p raw) := by
    conv_lhs => rw [hs']
    exact handleMessage_disguise hks hkeyed hread hjoin
  have htold : t.handleMessage M p raw = disguise ch kt t.trace (handleMessage M { s with trace := [] } p raw) := by
    conv_lhs => rw [ht']
    exact handleMessage_disguise hkt hkeyed hread hjoin
  refine ⟨⟨kt, ?_⟩, (handleMessage M { s with trace := [] } p raw).trace, by rw [hsaid, disguise], by rw [htold, disguise]⟩
  rw [hsaid, htold, disguise, disguise]
  dsimp only
  rw [OrdMap.modify_modify]

/-- A strategy that reads a question to the bot. -/
def inquiry : Matcher := .ofTable rehearsalGrammar
  [(str "message", str "PRIVMSG ircbot :!info #a", middles "PRIVMSG" ["ircbot"] ++ [(str "trail", str "!info #a")])]

/-- Somebody at the door of a channel with a key. -/
def locked (k : Str) : letI := referenceLibcpp; Server :=
  letI := referenceLibcpp
  threshold.updateChannel (str "#a") fun chan => { chan with key := k }

omit [Libcpp] in
theorem keySecret_inquiry : letI := referenceLibcpp
    SameButKey (str "#a") ((locked (str "red")).handleMessage inquiry 1 (str "PRIVMSG ircbot :!info #a"))
        ((locked (str "blue")).handleMessage inquiry 1 (str "PRIVMSG ircbot :!info #a")) ∧
      ∃ events,
        ((locked (str "red")).handleMessage inquiry 1 (str "PRIVMSG ircbot :!info #a")).trace =
            events ++ (locked (str "red")).trace ∧
          ((locked (str "blue")).handleMessage inquiry 1 (str "PRIVMSG ircbot :!info #a")).trace =
            events ++ (locked (str "blue")).trace := by
  let _ := referenceLibcpp
  have hkeyed : ∀ k, k ≠ [] → Keyed (str "#a") (locked k) := by
    intro k hk chan hchan
    have hget : (threshold.channels.modify (str "#a") fun chan => { chan with key := k }).get? (str "#a") = some chan := hchan
    rw [OrdMap.get?_modify_self] at hget
    obtain ⟨old, -, rfl⟩ := Option.map_eq_some_iff.mp hget
    exact hk
  have hsame : SameButKey (str "#a") (locked (str "red")) (locked (str "blue")) := by
    refine ⟨str "blue", ?_⟩
    rw [locked, locked, updateChannel, updateChannel]
    dsimp only
    rw [OrdMap.modify_modify]
  refine handleMessage_keySecret (hkeyed _ (by decide)) (hkeyed _ (by decide)) hsame (by decide) ?_
  intro msg hmsg hcommand
  obtain rfl : msg = _ := (Option.some.inj hmsg).symm
  cases hcommand

end Server

end FtIrc
