import FtIrc.Server.Fanout

/-!
# Commands that are refused

A handler looks at everything before it touches anything: it either answers with one
line and does nothing else, or it goes through, and then it tells the client of no error
(`FtIrc.Server.Answers`). So a command that is answered with an error has changed
nothing.
-/

namespace FtIrc

open Abnf

variable [Libcpp]

/-- **A numeric that refuses a command**: an error, but not the one that ends the welcome
and not the one that ends the session. -/
def Refuses (n : Str) : Prop :=
  n.length = 3 ∧ n.head? = some 52 ∧ n ≠ str "422" ∧ n ≠ str "464"

instance : DecidablePred Refuses := fun n =>
  inferInstanceAs (Decidable (n.length = 3 ∧ n.head? = some 52 ∧ n ≠ str "422" ∧ n ≠ str "464"))

/-- The server answers that a command is refused. -/
def IsRefusal (w : Str) : Prop :=
  ∃ n rest, words w = (COLON :: SERVER_NAME) :: n :: rest ∧ Refuses n

/-- The commands that name one thing to do. -/
def Message.Single (msg : Message) : Prop :=
  msg.command ∈ ["PASS", "NICK", "USER", "KICK", "INVITE", "TOPIC"].map str ∨
    (msg.command = str "JOIN" ∧ (Server.joinTargets msg).length ≤ 1) ∨
    (msg.command = str "PART" ∧ (msg.list "chanlist" COMMA).length ≤ 1)

variable {w source verb : Str}

omit [Libcpp] in
/-- What somebody says is no refusal, unless the server says so. -/
theorem Says.not_isRefusal (h : Says source verb w)
    (hno : source = COLON :: SERVER_NAME → ¬Refuses verb) : ¬IsRefusal (FtIrc.wire w) := by
  rintro ⟨n, rest, hwords, hn⟩
  obtain ⟨rest', hrest⟩ := h.wire.words
  rw [hrest, List.cons.injEq, List.cons.injEq] at hwords
  exact hno hwords.1 (hwords.2.1 ▸ hn)

namespace Server

variable {M : Matcher} {s t u : Server} {p q : ClientId} {ch : ChannelRef} {raw : Str}
  {msg : Message} {name text reason : Str}

/-- **The client is told of no refusal.** -/
abbrev Yields (p : ClientId) (s t : Server) : Prop :=
  Utters (fun q w => q = p → ¬IsRefusal w) s t

/-- **One line, and nothing else; or no refusal at all.** -/
def Answers (p : ClientId) (s t : Server) : Prop := (∃ w, t = s.queueMessage p w) ∨ Yields p s t

theorem Answers.reply {n : String} {a : Str} : Answers p s (s.sendReply p n a) := Or.inl ⟨_, rfl⟩

/-! ### Talk that refuses nothing -/

omit [Libcpp] in
/-- A numeric reply is said by the server. -/
theorem says_reply {n : String} (hn : IsNumeric n) (nick a : Str) :
    Says (COLON :: SERVER_NAME) (str n) (replyText nick n a) where
  speaker := by decide
  spoken := by
    rintro c hc rfl
    exact absurd (hn.2 _ hc) (by decide)
  short := by
    rw [hn.1]
    decide
  rest := ⟨nick ++ SPACE :: a, by simp [replyText, show str ":" = [COLON] from rfl,
    show str " " = [SPACE] from rfl]⟩

namespace Yields

theorem message (h : ¬IsRefusal (wire w)) : Yields p s (s.queueMessage q w) :=
  Utters.message fun _ => h

/-- A reply that is no error. -/
theorem reply {n : String} {a : Str} (hn : IsNumeric n) (hno : ¬Refuses (str n)) :
    Yields p s (s.sendReply p n a) :=
  message ((says_reply hn _ a).not_isRefusal fun _ => hno)

/-- One more reply that is no error. -/
theorem andReply (h : Yields p s t) {n : String} {a : Str}
    (hn : IsNumeric n ∧ ¬Refuses (str n)) : Yields p s (t.sendReply p n a) :=
  Utters.trans h (reply hn.1 hn.2)

theorem tells (h : Tells (fun _ w => ¬IsRefusal (wire w)) s t) : Yields p s t := by
  obtain ⟨msgs, hmsgs, rfl⟩ := h
  refine ⟨_, spoken_queueMany msgs, fun e he _ => ?_⟩
  obtain ⟨e', he', rfl⟩ := List.mem_map.mp (List.mem_reverse.mp he)
  exact hmsgs e' he'

end Yields

/-- What a client says is no refusal. -/
theorem Inv.not_isRefusal (hi : s.Inv) (q : ClientId) {x : String} (hx : HasVerb x)
    (hw : str ":" ++ (s.deref q).getPrefix ++ str x <+: w) : ¬IsRefusal (wire w) := by
  obtain ⟨rest, rfl⟩ := hw
  have hsays := (says_name (hi.isWord_getPrefix q).1 ((hi.isWord_getPrefix q).2.trans (by decide)) hx).append
    (t := rest)
  exact hsays.not_isRefusal fun h => absurd (List.cons.inj h).2 getPrefix_ne_SERVER_NAME

/-! ### Registration -/

theorem answers_cmdPass : Answers p s (s.cmdPass p msg) := by
  rw [cmdPass]
  split_ifs
  · exact .reply
  · exact .reply
  all_goals exact Or.inr (.of_eq rfl)

/-- A disconnect of a client that is not registered is not talked about. -/
theorem yields_disconnectClient (hi : s.Inv) (hp : s.Live p) (hreg : (s.deref p).registered = false)
    (hreason : OneLine reason) : Yields p s (s.disconnectClient (s.deref p).fd reason) := by
  rw [disconnectClient, nesting, disconnectNested_live hi hp hreason,
    clearAway_of_unregistered hi hp (by simp [hreg])]
  split_ifs
  · exact .of_eq spoken_finalizeDisconnect
  · exact .of_eq rfl

/-- **A registration that completes, or fails for its password**, is no refusal. -/
theorem yields_completeRegistration (hi : s.Inv) (hp : s.Live p)
    (hreg : (s.deref p).registered = false) : Yields p s (s.completeRegistration p) := by
  rw [completeRegistration]
  split_ifs
  · have hsend : Complies s p .acting s (s.sendReply p "464" (str ":Password incorrect")) :=
      (Turn.start hi hp).reply (by decide)
    have hturn := (Turn.start hi hp).runs hsend (by decide)
    have hfd : ((s.sendReply p "464" (str ":Password incorrect")).deref p).fd = (s.deref p).fd :=
      hturn.fd
    have hstill : ((s.sendReply p "464" (str ":Password incorrect")).deref p).registered = false :=
      (registered_queueMessage _).trans hreg
    have hsaid : Yields p s (s.sendReply p "464" (str ":Password incorrect")) :=
      .reply (by decide) (by decide)
    have hclosed := yields_disconnectClient hturn.inv hturn.live hstill
      (show OneLine (str "Password mismatch") by decide)
    rw [hfd] at hclosed
    exact hsaid.trans hclosed
  · have hset : Yields p s (s.update p fun c => { c with registered := true }) := .of_eq rfl
    rw [welcomeBurst]
    exact (((((hset.andReply (by decide)).andReply (by decide)).andReply (by decide)).andReply
      (by decide)).andReply (by decide)).andReply (by decide)

/-- What is said to the channels of a client, by it. -/
theorem yields_broadcastToChannels (h : ¬IsRefusal (wire w)) :
    Yields p s (s.broadcastToChannels q w) := by
  rw [broadcastToChannels_eq]
  refine .tells ⟨_, fun e he => ?_, rfl⟩
  obtain ⟨q, -, rfl⟩ := List.mem_map.mp he
  exact h

theorem answers_cmdNick (hi : s.Inv) (hp : s.Live p) : Answers p s (s.cmdNick p msg) := by
  rw [cmdNick]
  dsimp only
  generalize (if msg.matched then msg.field "newnick" else msg.param 0) = asked
  split
  · exact .reply
  split
  · exact .reply
  rename_i _ hasked
  rw [Bool.not_eq_true, Bool.not_eq_false'] at hasked
  generalize hcut : (if asked.length > MAX_NICKLEN then asked.take MAX_NICKLEN else asked) = nick
  split_ifs with huse hres hreg huser
  · exact .reply
  · exact .reply
  · have hverb : HasVerb " NICK :" := by decide
    have hsay := hi.not_isRefusal p hverb
      (List.prefix_append (str ":" ++ (s.deref p).getPrefix ++ str " NICK :") nick)
    exact Or.inr (((Yields.message hsay).trans (yields_broadcastToChannels hsay)).trans (.of_eq rfl))
  · have hset : Complies s p .acting s _ := Complies.op (.nick p nick) rfl
      (hi.allowed_nick hasked hcut.symm (Bool.not_eq_true _ ▸ huse) (Bool.not_eq_true _ ▸ hres))
    have hturn := (Turn.start hi hp).runs hset (by decide)
    refine Or.inr (Utters.trans (.of_eq rfl) (yields_completeRegistration hturn.inv hturn.live ?_))
    exact (congrArg Client.registered (deref_update_self (hi.table.live_get? hp))).trans
      (Bool.not_eq_true _ ▸ hreg)
  · exact Or.inr (.of_eq rfl)

theorem answers_cmdUser (hi : s.Inv) (hp : s.Live p) (hmsg : msg.OneLine) :
    Answers p s (s.cmdUser p msg) := by
  have hreal : OneLine (if msg.matched then msg.field "realname" else msg.param 3) := by
    split_ifs
    · exact hmsg.field _
    · exact hmsg.param 3
  have hname : OneLine (if msg.matched then msg.field "username" else msg.param 0) := by
    split_ifs
    · exact hmsg.field _
    · exact hmsg.param 0
  rw [cmdUser]
  dsimp only
  generalize (if msg.matched then msg.field "realname" else msg.param 3) = real at hreal ⊢
  generalize (if msg.matched then msg.field "username" else msg.param 0) = asked at hname ⊢
  generalize hcut : (if asked.length > MAX_USERLEN then asked.take MAX_USERLEN else asked) = name
  generalize (if msg.matched then false else decide (msg.trailingIndex ≠ 3)) = misplaced
  split
  · exact .reply
  rename_i hreg
  split
  · exact .reply
  split
  · exact .reply
  split
  · exact .reply
  rename_i hvalid
  split_ifs with hnick
  · have hset : Complies s p .acting s _ := Complies.op (.user p name (msg.param 1) real) rfl
      (allowed_user hname hreal hcut.symm (by simpa using hvalid))
    have hturn := (Turn.start hi hp).runs hset (by decide)
    refine Or.inr (Utters.trans (.of_eq rfl) (yields_completeRegistration hturn.inv hturn.live ?_))
    obtain ⟨i, w, hbits⟩ := applyUserModeBitmask_eq (msg.param 1) { s.deref p with username := name }
    refine (congrArg Client.registered (deref_update_self (hi.table.live_get? hp))).trans ?_
    rw [hbits]
    exact Bool.not_eq_true _ ▸ hreg
  · exact Or.inr (.of_eq rfl)

/-! ### Channels -/

/-- A client that leaves a channel is announced in words that refuse nothing. -/
theorem yields_leaveChannel (h : ¬IsRefusal (wire text)) :
    Yields p s (s.leaveChannel q ch name text) := by
  have hcast : Yields p s (s.broadcastMessage ch text none) := .tells (.broadcast fun _ _ _ => h)
  refine hcast.trans (.of_eq ?_)
  rw [leaveChannel]
  split_ifs <;> rfl

theorem answers_joinOne (hi : s.Inv) (target : Str × Str) : Answers p s (joinOne p s target) := by
  have hjoined : ∀ (u : Server) (ch : ChannelRef) (name : Str), (u.deref p).getPrefix = (s.deref p).getPrefix → u.spoken = s.spoken →
      Yields p s (u.announceJoin p ch name) := fun u ch name hpre hsame => by
    refine Utters.trans (.of_eq hsame) (Yields.tells (tells_announceJoin (fun _ w hw => ?_) fun n hn a => ?_))
    · have hverb : HasVerb " JOIN " := by decide
      exact hi.not_isRefusal p hverb (hpre ▸ hw)
    · have hnumeric : ∀ n ∈ ["331", "332", "333", "353", "366", "324", "329"],
          IsNumeric n ∧ ¬Refuses (str n) := by decide
      exact (says_reply (hnumeric n hn).1 _ a).not_isRefusal fun _ => (hnumeric n hn).2
  rw [joinOne]
  dsimp only
  split_ifs
  · exact .reply
  rcases s.findChannel target.1 with _ | chan
  · exact Or.inr (hjoined _ _ _ rfl rfl)
  dsimp only
  split_ifs
  · exact Or.inr (.refl s)
  · exact .reply
  · exact .reply
  · exact .reply
  · exact Or.inr (hjoined _ _ _ rfl rfl)

/-- A `JOIN 0` is never refused. -/
theorem yields_partAllChannels (hi : s.Inv) : Yields p s (s.partAllChannels p) := by
  have hverb : HasVerb " PART " := by decide
  rw [partAllChannels]
  refine (List.foldlRecOn _ _ (motive := fun u =>
    Yields p s u ∧ (u.deref p).getPrefix = (s.deref p).getPrefix) ⟨.refl s, rfl⟩
    fun u hu name _ => ?_).1
  rcases u.findChannel name with _ | chan
  · exact hu
  refine ⟨hu.1.trans (yields_leaveChannel (hi.not_isRefusal p hverb ?_)), ?_⟩
  · rw [← hu.2]
    exact List.prefix_append _ _
  · rw [← hu.2]
    dsimp only
    rw [leaveChannel, broadcastMessage_eq]
    split_ifs <;> exact getPrefix_queueMany

theorem answers_cmdJoin (hi : s.Inv) (hone : (joinTargets msg).length ≤ 1) :
    Answers p s (s.cmdJoin p msg) := by
  rw [cmdJoin]
  split_ifs
  · exact .reply
  · exact Or.inr (yields_partAllChannels hi)
  · change Answers p s ((joinTargets msg).foldl (joinOne p) s)
    rcases hl : joinTargets msg with _ | ⟨target, _ | ⟨more, rest⟩⟩
    · exact Or.inr (.refl s)
    · exact answers_joinOne hi target
    · rw [hl] at hone
      simp at hone

theorem answers_partOne (hi : s.Inv) : Answers p s (partOne p reason s name) := by
  have hverb : HasVerb " PART " := by decide
  rw [partOne]
  rcases s.findChannel name with _ | chan
  · exact .reply
  dsimp only
  split_ifs
  · exact .reply
  · refine Or.inr (yields_leaveChannel (hi.not_isRefusal p hverb ?_))
    simp
  · refine Or.inr (yields_leaveChannel (hi.not_isRefusal p hverb ?_))
    simp

theorem answers_cmdPart (hi : s.Inv) (hone : (msg.list "chanlist" COMMA).length ≤ 1) :
    Answers p s (s.cmdPart p msg) := by
  rw [cmdPart]
  split_ifs
  · exact .reply
  · rcases hl : msg.list "chanlist" COMMA with _ | ⟨target, _ | ⟨more, rest⟩⟩
    · exact Or.inr (.refl s)
    · exact answers_partOne hi
    · rw [hl] at hone
      simp at hone

/-! ### Operators -/

theorem answers_cmdKick (hi : s.Inv) : Answers p s (s.cmdKick p msg) := by
  have hverb : HasVerb " KICK " := by decide
  rw [cmdKick]
  dsimp only
  generalize (if msg.has "kickreason" then msg.field "kickreason" else (s.deref p).nickname) = why
  split
  · exact .reply
  rcases s.findChannel (msg.field "kickchans") with _ | chan
  · exact .reply
  dsimp only
  split_ifs
  · exact .reply
  · exact .reply
  rcases s.findMember chan (msg.field "kickusers") with _ | q
  · exact .reply
  · refine Or.inr (yields_leaveChannel (hi.not_isRefusal p hverb ?_))
    simp

theorem answers_cmdInvite (hi : s.Inv) : Answers p s (s.cmdInvite p msg) := by
  have hverb : HasVerb " INVITE " := by decide
  rw [cmdInvite]
  split_ifs
  · exact .reply
  dsimp only
  rcases s.findChannel (msg.field "invchan") with _ | chan
  · exact .reply
  dsimp only
  split_ifs
  · exact .reply
  · exact .reply
  rcases s.findClientByNick (msg.field "invnick") with _ | q
  · exact .reply
  dsimp only
  split_ifs
  · exact .reply
  · have hinvited : Yields p s (s.updateChannel chan fun c => c.addInvite (s.deref q).fd) := .of_eq rfl
    refine Or.inr (Utters.trans (hinvited.andReply (by decide)) (Yields.message ?_))
    refine hi.not_isRefusal p hverb ?_
    have hname : ((((s.updateChannel chan fun c => c.addInvite (s.deref q).fd).sendReply p "341"
        (msg.field "invnick" ++ str " " ++ msg.field "invchan")).deref p)).getPrefix =
          (s.deref p).getPrefix := by
      rw [sendReply_eq]
      exact getPrefix_queueMany
    rw [hname]
    simp

theorem answers_cmdTopic (hi : s.Inv) : Answers p s (s.cmdTopic p msg) := by
  have hverb : HasVerb " TOPIC " := by decide
  rw [cmdTopic]
  dsimp only
  generalize (if msg.matched then msg.field "topictext" else msg.param 1) = asked
  generalize (if asked.length > MAX_TOPICLEN then asked.take MAX_TOPICLEN else asked) = topic
  split
  · exact .reply
  rcases s.findChannel (msg.param 0) with _ | chan
  · exact .reply
  dsimp only
  split_ifs
  · exact .reply
  · exact .reply
  · have hfirst : Yields p s (s.sendReply p "332"
        (msg.param 0 ++ str " :" ++ (s.channel chan).topic)) := .reply (by decide) (by decide)
    exact Or.inr (hfirst.andReply (by decide))
  · exact .reply
  · have hset : Yields p s (s.updateChannel chan fun c => c.setTopic topic (s.deref p).nickname s.clock) :=
      .of_eq rfl
    refine Or.inr (hset.trans (Yields.tells (.broadcast fun q _ _ => hi.not_isRefusal p hverb ?_)))
    simp only [List.append_assoc]
    exact List.prefix_append_right_inj _ |>.mpr (List.prefix_append_right_inj _ |>.mpr
      (List.prefix_append _ _))

/-! ### Refusals -/

/-- **Every command that names one thing to do** is answered in one line or goes
through. -/
theorem answers_handleMessage (M : Matcher) (hi : s.Inv) (hp : s.Live p) (hraw : OneLine raw)
    (hmsg : M.buildMessage raw = some msg) (hone : msg.Single) :
    Answers p (s.record (.inbound p raw)) (s.handleMessage M p raw) := by
  have hheard : (s.record (.inbound p raw)).Inv := hi.run (show (Op.hear p raw).Allowed s from hp)
  have hlive : (s.record (.inbound p raw)).Live p := hp
  have hentry : ∀ name handler needs, findCommand (str name) = some ⟨str name, handler, needs⟩ →
      msg.command = str name →
      Answers p (s.record (.inbound p raw)) (handler (s.record (.inbound p raw)) p msg) →
        Answers p (s.record (.inbound p raw)) (s.handleMessage M p raw) := by
    intro name handler needs hfound hname hanswer
    rw [handleMessage_of_findCommand hmsg (hname ▸ hfound)]
    split_ifs
    · exact .reply
    · exact hanswer
  rcases hone with hmem | ⟨hcmd, hlen⟩ | ⟨hcmd, hlen⟩
  · simp only [List.map_cons, List.map_nil, List.mem_cons, List.not_mem_nil, or_false] at hmem
    rcases hmem with hcmd | hcmd | hcmd | hcmd | hcmd | hcmd
    · exact hentry "PASS" cmdPass false rfl hcmd answers_cmdPass
    · exact hentry "NICK" cmdNick false rfl hcmd (answers_cmdNick hheard hlive)
    · exact hentry "USER" cmdUser false rfl hcmd
        (answers_cmdUser hheard hlive (M.oneLine_buildMessage hraw hmsg))
    · exact hentry "KICK" cmdKick true rfl hcmd (answers_cmdKick hheard)
    · exact hentry "INVITE" cmdInvite true rfl hcmd (answers_cmdInvite hheard)
    · exact hentry "TOPIC" cmdTopic true rfl hcmd (answers_cmdTopic hheard)
  · exact hentry "JOIN" cmdJoin true rfl hcmd (answers_cmdJoin hheard hlen)
  · exact hentry "PART" cmdPart true rfl hcmd (answers_cmdPart hheard hlen)

/-- **Refused commands change nothing.** In every reachable state, a `PASS`, `NICK`,
`USER`, `KICK`, `INVITE` or `TOPIC`, or a `JOIN` or `PART` of one channel, that is
answered with an error does nothing but to queue that one line to the client: besides the
record and its socket, the state is what it was. -/
theorem Reachable.refused (h : Reachable M s) (hp : s.Live p) (hraw : OneLine raw)
    (hmsg : M.buildMessage raw = some msg) (hone : msg.Single) {new : List (ClientId × Str)}
    (hnew : (s.handleMessage M p raw).spoken = new ++ s.spoken)
    (herror : ∃ w, (p, w) ∈ new ∧ IsRefusal w) :
    ∃ w, s.handleMessage M p raw = (s.record (.inbound p raw)).queueMessage p w := by
  rcases answers_handleMessage M h.inv hp hraw hmsg hone with hanswer | ⟨new', hnew', hno⟩
  · exact hanswer
  · obtain ⟨w, hmem, hrefusal⟩ := herror
    have hsame : new = new' := List.append_cancel_right (hnew.symm.trans hnew')
    exact absurd hrefusal (hno (p, w) (hsame ▸ hmem) rfl)

/-- A nickname that is asked for. -/
def askedNick : Message where
  command := str "NICK"
  params := [str "bob"]

set_option maxRecDepth 4000 in
omit [Libcpp] in
/-- The first client of the rehearsal asks for the nickname of the second. -/
theorem refused_rehearsed : letI := referenceLibcpp
    ∃ w, rehearsal.handleMessage rehearsalMatcher 0 (str "NICK bob") =
      (rehearsal.record (.inbound 0 (str "NICK bob"))).queueMessage 0 w :=
  letI := referenceLibcpp
  have hmsg : rehearsalMatcher.buildMessage (str "NICK bob") = some askedNick := rfl
  have hrefusal : IsRefusal (str ":ft_irc 433 alice bob :Nickname is already in use") :=
    ⟨str "433", _, rfl, by decide⟩
  Reachable.refused reachable_rehearsal ⟨by decide, by decide⟩ (by decide) hmsg (Or.inl (by decide))
    (show _ = [(0, str ":ft_irc 433 alice bob :Nickname is already in use")] ++ rehearsal.spoken by decide)
    ⟨_, List.mem_singleton_self _, hrefusal⟩

end Server

end FtIrc
