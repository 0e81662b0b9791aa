import FtIrc.Server.ComplianceMessaging

/-!
# Registration complies, and with it every line

The commands of an unregistered connection, and then the dispatch of all commands:
**whatever line a client sends, what the server does is a sequence of operations
permitted to it** (`FtIrc.Server.complies_handleMessage`).

A wrong password ends the session from inside `NICK` or `USER`, after the client
was written to, and so does `QUIT`, at once. What a line comes to is therefore a
sequence of operations after which the client is still there, or such a sequence
and then a disconnect (`FtIrc.Server.Outcome`). The teardown complies with the
policy of the state it starts in; as the client is not registered in either state,
it complies with the policy of the state the line arrived in too
(`FtIrc.Op.Permitted.of_unregistered`).
-/

namespace FtIrc

open Abnf

variable [Libcpp]

/-- What a line of a kind must be about. -/
def Manner.Fits : Manner → Str → Prop
  | .joining, name => name = str "JOIN"
  | .inviting, name => name = str "INVITE"
  | .moding, name => name = str "MODE"
  | .filing, name => name = str "FILE"
  | .acting, _ => True
  | .leaving, _ => False

/-- The policies of two states in which a client is not registered are the same. -/
theorem Op.Permitted.of_unregistered {s t : Server} {p : ClientId} {op : Op}
    (h : op.Permitted t p .leaving) (hreg : (t.deref p).registered = false)
    (hfd : (t.deref p).fd = (s.deref p).fd) (hclock : t.clock = s.clock) :
    op.Permitted s p .leaving := by
  cases op <;> simp_all [Op.Permitted]

namespace Server

variable {s₀ s t : Server} {p q : ClientId} {m : Manner} {msg : Message} {nick : Str}

/-! ### Free nicknames -/

/-- Whoever has the nickname is not found, nor is anybody with that nickname. -/
theorem nickFree_of_isNickInUse (hi : s.Inv) (h : s.isNickInUse nick p = false) :
    s.NickFree p nick := by
  intro q c hc hne htd hfold
  have hmem : q ∈ s.clients.values := OrdMap.mem_values.mpr ⟨c.fd, hi.table.clients_of_heap q c hc⟩
  have huse := List.any_eq_false.mp h q hmem
  rw [deref_of_get? hc, htd, (Libcpp.eqAsciiNocase_iff _ _).mpr hfold] at huse
  simp [hne] at huse

/-- A message to somebody leaves the nicknames alone. -/
theorem NickFree.runs (h : s.NickFree p nick) (ht : Turn s₀ p s) (hrun : Complies s₀ p m s t)
    (hm : m ≠ .leaving) : t.NickFree p nick := by
  refine (hrun.invariant (I := fun u => Turn s₀ p u ∧ u.NickFree p nick)
    (fun op u hP ho hu => ⟨hu.1.runs (.single hP ho) hm, fun q c hc hne htd => ?_⟩) ⟨ht, h⟩).2
  rcases get?_run hu.1.inv.table ho hc with ⟨d, hd, ⟨f, hf, rfl⟩ | ⟨-, rfl⟩⟩ | ⟨fd, hostname, rfl, -, -⟩
  · have hsend : (f d).nickname = d.nickname ∧ (f d).tearingDown = d.tearingDown := by
      cases op <;> simp only [Op.edit, Option.some.injEq, Prod.mk.injEq, reduceCtorEq] at hf <;>
        obtain ⟨rfl, rfl⟩ := hf
      case send => exact ⟨rfl, rfl⟩
      case defer => exact absurd hP.1 hm
      case socket | transmit => exact hP.elim
      case heed => exact absurd hP.1 hne
      all_goals exact absurd hP hne
    rw [hsend.1]
    exact hu.2 q d hd hne (hsend.2 ▸ htd)
  · exact hu.2 q c hd hne htd
  · exact hP.elim

/-! ### PASS, NICK and USER -/

theorem registered_queueMessage (text : Str) :
    ((s.queueMessage q text).deref p).registered = (s.deref p).registered :=
  deref_update_field Client.registered (f := fun c => { c with io := Libcpp.queue c.io (wire text) })
    (fun _ => rfl) p

omit [Libcpp] in
/-- A valid nickname cut short is a valid nickname. -/
theorem isValidNickname_take {n : ℕ} (h : isValidNickname nick = true) (hn : 0 < n) :
    isValidNickname (nick.take n) = true := by
  rcases nick with _ | ⟨first, rest⟩
  · exact absurd h Bool.false_ne_true
  obtain ⟨k, rfl⟩ := Nat.exists_eq_add_of_lt hn
  obtain ⟨hfirst, hrest⟩ := (Bool.and_eq_true _ _).mp h
  rw [Nat.zero_add, List.take_succ_cons, isValidNickname, hfirst, Bool.true_and, List.all_eq_true]
  exact fun c hc => List.all_eq_true.mp hrest c (List.mem_of_mem_take hc)

/-! ### What a line comes to -/

/-- **What a line comes to**, that arrived in the state `s₀`: operations after which
the client is still there, or these and then a disconnect. -/
inductive Outcome (s₀ : Server) (p : ClientId) (m : Manner) (s : Server) : Server → Prop
  /-- The session goes on. -/
  | stays {t : Server} : Complies s₀ p m s t → Outcome s₀ p m s t
  /-- The session ends, and what ends it is permitted to the client. -/
  | leaves {t u : Server} {fd : Fd} {reason : Str} : m = .acting → Complies s₀ p .acting s u →
      (∀ op : Op, op.Permitted u p .leaving → op.Permitted s₀ p .leaving) →
      u.clients.get? fd = some p → OneLine reason → t = u.disconnectClient fd reason →
      Outcome s₀ p m s t

/-- Something was done before. -/
theorem Outcome.after {u : Server} (h : Outcome s₀ p m u t) (hrun : Complies s₀ p m s u) :
    Outcome s₀ p m s t := by
  cases h with
  | stays hstay => exact .stays (hrun.trans hstay)
  | leaves hm hact hop hp hreason ht =>
    exact .leaves hm ((hm ▸ hrun : Complies s₀ p .acting s u).trans hact) hop hp hreason ht

/-- However it ends, it complies. -/
theorem Outcome.complies (h : Outcome s₀ p m s t) (hturn : Turn s₀ p s) :
    ∃ m, Complies s₀ p m s t := by
  cases h with
  | stays hstay => exact ⟨m, hstay⟩
  | leaves hm hact hop hp hreason ht =>
    have hend := complies_disconnectClient (hturn.runs hact (by decide)).inv hreason hp
    exact ⟨.leaving, ht ▸ (Complies.leaving (Complies.filing hact)).trans (hend.mono hop)⟩

/-! ### Names that are asked for -/

/-- **A nickname that passes the checks** may be taken, cut to its length. -/
theorem Inv.allowed_nick (hi : s.Inv) {asked : Str} (hvalid : isValidNickname asked = true)
    (hcut : nick = if asked.length > MAX_NICKLEN then asked.take MAX_NICKLEN else asked)
    (huse : s.isNickInUse nick p = false) (hres : reservesNick nick = false) :
    (Op.nick p nick).Allowed s := by
  refine ⟨?_, ?_, hres, nickFree_of_isNickInUse hi huse⟩
  · rw [hcut]
    split_ifs
    · exact isValidNickname_take hvalid (by decide)
    · exact hvalid
  · rw [hcut]
    split_ifs with hlen
    · exact List.length_take_le _ _
    · exact Nat.not_lt.mp hlen

/-- **A username that passes the checks** may be taken, cut to its length. -/
theorem allowed_user {asked name mode real : Str} (hasked : OneLine asked) (hreal : OneLine real)
    (hcut : name = if asked.length > MAX_USERLEN then asked.take MAX_USERLEN else asked)
    (hvalid : isValidUsername name = true) : (Op.user p name mode real).Allowed s := by
  refine ⟨?_, hreal, hvalid, ?_⟩
  · rw [hcut]
    split_ifs
    · exact hasked.take _
    · exact hasked
  · rw [hcut]
    split_ifs with hlen
    · exact List.length_take_le _ _
    · exact Nat.not_lt.mp hlen

namespace Turn

theorem cmdCap (h : Turn s₀ p s) : Complies s₀ p m s (s.cmdCap p msg) := by
  rw [Server.cmdCap]
  split_ifs
  · exact .refl s
  · exact h.tell (speech_server (w := str ":" ++ SERVER_NAME ++ str " CAP * LS :") " CAP * LS :"
      List.prefix_rfl (by decide) (by decide) (by decide))
  · exact .refl s

theorem cmdPass (h : Turn s₀ p s) (hmsg : msg.OneLine) : Complies s₀ p m s (s.cmdPass p msg) := by
  have hpw : OneLine (if msg.matched then msg.field "password" else msg.param 0) := by
    split_ifs
    · exact hmsg.field _
    · exact hmsg.param 0
  rw [Server.cmdPass]
  generalize (if msg.matched then msg.field "password" else msg.param 0) = pw at hpw ⊢
  split_ifs with hreg
  · exact h.reply (by decide)
  · exact h.reply (by decide)
  · exact .op (.pass p pw) rfl ⟨by simpa using hreg, hpw⟩

theorem welcomeBurst (h : Turn s₀ p s) (hm : m ≠ .leaving) :
    Complies s₀ p m s (s.welcomeBurst p) := by
  have hpre := h.inv.getPrefix p
  exact h.andReply hm (h.andReply hm (h.andReply hm (h.andReply hm (h.andReply hm
    (h.reply (by simp (disch := decide) [hpre])) (by decide)) (by decide)) (by decide))
    (by decide +kernel)) (by decide)

/-- **A registration completes, or the session ends**: with the password of the
server the client becomes registered, with any other it is disconnected. -/
theorem completeRegistration (h : Turn s₀ p s)
    (hreg : (s.deref p).registered = false) (hnick : (s.deref p).nickSet = true)
    (huser : (s.deref p).userSet = true) :
    Outcome s₀ p .acting s (s.completeRegistration p) := by
  rw [Server.completeRegistration]
  split_ifs with hwrong
  · have hreply := h.reply (m := .acting) (n := "464") (a := str ":Password incorrect")
      (by decide)
    have hturn := h.runs hreply (by decide)
    have hfd : ((s.sendReply p "464" (str ":Password incorrect")).deref p).fd = (s.deref p).fd :=
      hturn.fd.trans h.fd.symm
    have hstill : ((s.sendReply p "464" (str ":Password incorrect")).deref p).registered = false :=
      (registered_queueMessage _).trans hreg
    exact .leaves rfl hreply (fun op hop => hop.of_unregistered hstill hturn.fd hturn.clock)
      (hfd ▸ hturn.live.1) (by decide) rfl
  · simp only [Bool.or_eq_true, Bool.not_eq_true', not_or, Bool.not_eq_false] at hwrong
    have hregister : Complies s₀ p .acting s
        (s.update p fun c => { c with registered := true }) :=
      .op (.register p) rfl ⟨hwrong.1, hnick, huser, (Libcpp.eqConsttime_iff _ _).mp hwrong.2⟩
    exact .stays (hregister.trans ((h.runs hregister (by decide)).welcomeBurst (by decide)))

theorem cmdNick (h : Turn s p s) (hmsg : msg.OneLine) :
    Outcome s p .acting s (s.cmdNick p msg) := by
  have hline : OneLine (if msg.matched then msg.field "newnick" else msg.param 0) := by
    split_ifs
    · exact hmsg.field _
    · exact hmsg.param 0
  rw [Server.cmdNick]
  dsimp only
  generalize (if msg.matched then msg.field "newnick" else msg.param 0) = asked at hline ⊢
  split
  · exact .stays (h.reply (by decide))
  split
  · exact .stays (h.reply (by simp (disch := decide) [hline]))
  rename_i _ hasked
  rw [Bool.not_eq_true, Bool.not_eq_false'] at hasked
  generalize hcut : (if asked.length > MAX_NICKLEN then asked.take MAX_NICKLEN else asked) = nick
  have hnick : OneLine nick := by
    rw [← hcut]
    split_ifs
    · exact hline.take _
    · exact hline
  split_ifs with huse hres hreg huser
  · exact .stays (h.reply (by simp (disch := decide) [hnick]))
  · exact .stays (h.reply (by simp (disch := decide) [hnick]))
  all_goals
    have hok : (Op.nick p nick).Allowed s :=
      h.inv.allowed_nick hasked hcut.symm (Bool.not_eq_true _ ▸ huse) (Bool.not_eq_true _ ▸ hres)
  · have hsay : Speech .acting (str ":" ++ (s.deref p).getPrefix ++ str " NICK :" ++ nick) :=
      h.inv.speech p " NICK :" (by simp) (by decide)
        (by simp (disch := decide) [h.inv.getPrefix p, hnick])
    have htell := h.tell (m := .acting) hsay
    have hcast := htell.trans ((h.runs htell (by decide)).broadcastToChannels (by decide) hreg hsay)
    have hturn := h.runs hcast (by decide)
    have hset : Complies s p .acting _ _ := Complies.op (.nick p nick) rfl
      ⟨hok.1, hok.2.1, hok.2.2.1, hok.2.2.2.runs h hcast (by decide)⟩
    -- a registered client has sent a nickname already
    rw [update_congr (g := fun c => { c with nickname := nick, nickSet := true }) fun c hc => ?_]
    · exact .stays (hcast.trans hset)
    · have hold := hturn.inv.gate p c hc (deref_of_get? hc ▸ hturn.registered hreg)
      rw [← hold.2.1]
  · have hset : Complies s p .acting s _ := Complies.op (.nick p nick) rfl hok
    have hturn := h.runs hset (by decide)
    have hget := deref_update_self (f := fun c => { c with nickname := nick, nickSet := true })
      (h.inv.table.live_get? h.live)
    refine (hturn.completeRegistration ?_ ?_ huser).after hset
    · exact (congrArg Client.registered hget).trans (by simpa using hreg)
    · exact congrArg Client.nickSet hget
  · exact .stays (Complies.op (.nick p nick) rfl hok)

theorem cmdUser (h : Turn s p s) (hmsg : msg.OneLine) :
    Outcome s p .acting s (s.cmdUser p msg) := by
  have hreal : OneLine (if msg.matched then msg.field "realname" else msg.param 3) := by
    split_ifs
    · exact hmsg.field _
    · exact hmsg.param 3
  have hname : OneLine (if msg.matched then msg.field "username" else msg.param 0) := by
    split_ifs
    · exact hmsg.field _
    · exact hmsg.param 0
  rw [Server.cmdUser]
  dsimp only
  generalize (if msg.matched then msg.field "realname" else msg.param 3) = real at hreal ⊢
  generalize (if msg.matched then msg.field "username" else msg.param 0) = asked at hname ⊢
  generalize hcut : (if asked.length > MAX_USERLEN then asked.take MAX_USERLEN else asked) = name
  generalize (if msg.matched then false else decide (msg.trailingIndex ≠ 3)) = misplaced
  split
  · exact .stays (h.reply (by decide))
  rename_i hreg
  split
  · exact .stays (h.reply (by decide))
  split
  · exact .stays (h.reply (by decide))
  split
  · exact .stays (h.reply (by decide))
  rename_i hvalid
  have hset : Complies s p .acting s _ := Complies.op
    (.user p name (msg.param 1) real) rfl
      (allowed_user hname hreal hcut.symm (by simpa using hvalid))
  split_ifs with hnick
  · have hturn := h.runs hset (by decide)
    have hget := deref_update_self (f := fun c =>
      { applyUserModeBitmask (msg.param 1) { c with username := name } with
        realname := real, userSet := true }) (h.inv.table.live_get? h.live)
    obtain ⟨i, w, hbits⟩ := applyUserModeBitmask_eq (msg.param 1)
      { s.deref p with username := name }
    refine (hturn.completeRegistration ?_ hnick ?_).after hset
    · refine (congrArg Client.registered hget).trans ?_
      rw [hbits]
      simpa using hreg
    · exact congrArg Client.userSet hget
  · exact .stays hset

theorem cmdQuit (h : Turn s p s) (hmsg : msg.OneLine) :
    Outcome s p .acting s (s.cmdQuit p msg) := by
  rw [Server.cmdQuit]
  refine .leaves rfl (.refl s) (fun _ hop => hop) h.live.1 ?_ rfl
  split_ifs
  · exact hmsg.field _
  · exact hmsg.param 0
  · decide

theorem cmdPong (h : Turn s₀ p s) : Complies s₀ p m s (s.cmdPong p msg) :=
  .op (.heed p s.clock false) ⟨rfl, h.clock, rfl⟩ trivial

end Turn

/-- The FILE extension answers to one command. -/
theorem command_of_fileOnCommand (h : s.fileOnCommand p msg = some t) :
    msg.command = str "FILE" := by
  rw [fileOnCommand] at h
  by_contra hne
  rw [if_pos hne] at h
  exact absurd h (by simp)

/-! ### Dispatch -/

/-- **Every handler complies**, if it does not need the client to be registered or
the client is: `JOIN` with a list only adds to the channels, only `INVITE` invites,
only `MODE` sets a channel, the commands that may end the session are the ones of a
registration and `QUIT`, and every other one leaves the client where it is. -/
theorem outcome_handler (h : Turn s p s) (hmsg : msg.OneLine) {entry : CommandEntry}
    (hmem : entry ∈ kCommands)
    (hreg : entry.needsRegistration = true → (s.deref p).registered = true) :
    ∃ m : Manner, m.Fits entry.name ∧ Outcome s p m s (entry.handler s p msg) := by
  simp only [kCommands, List.mem_cons, List.not_mem_nil, or_false] at hmem
  rcases hmem with rfl | rfl | rfl | rfl | rfl | rfl | rfl | rfl | rfl | rfl | rfl | rfl | rfl |
    rfl | rfl | rfl | rfl | rfl
  · exact ⟨.acting, trivial, .stays h.cmdCap⟩
  · exact ⟨.acting, trivial, .stays (h.cmdPass hmsg)⟩
  · exact ⟨.acting, trivial, h.cmdNick hmsg⟩
  · exact ⟨.acting, trivial, h.cmdUser hmsg⟩
  · exact ⟨.acting, trivial, h.cmdQuit hmsg⟩
  · exact ⟨.acting, trivial, .stays (show Complies s p .acting s (s.cmdPong p msg) from h.cmdPong)⟩
  · exact ⟨.acting, trivial, .stays (h.cmdPing hmsg)⟩
  · obtain ⟨m, hm, hrun⟩ := h.cmdJoin (hreg rfl) hmsg
    rcases hm with rfl | rfl
    · exact ⟨.acting, trivial, .stays hrun⟩
    · exact ⟨.joining, rfl, .stays hrun⟩
  · exact ⟨.acting, trivial, .stays (h.cmdPart (hreg rfl) hmsg)⟩
  · exact ⟨.acting, trivial, .stays (h.cmdPrivmsg (hreg rfl) hmsg)⟩
  · exact ⟨.acting, trivial, .stays (h.cmdNotice (hreg rfl) hmsg)⟩
  · exact ⟨.acting, trivial, .stays (h.cmdKick (hreg rfl) hmsg)⟩
  · exact ⟨.inviting, rfl, .stays (h.cmdInvite (hreg rfl) hmsg)⟩
  · exact ⟨.acting, trivial, .stays (h.cmdTopic (hreg rfl) hmsg)⟩
  · exact ⟨.moding, rfl, .stays (h.cmdMode (hreg rfl) hmsg)⟩
  · exact ⟨.acting, trivial, .stays (h.cmdWho hmsg)⟩
  · exact ⟨.acting, trivial, .stays (h.cmdWhois hmsg)⟩
  · exact ⟨.acting, trivial, .stays h.cmdUserhost⟩

/-- What a command does complies, whatever the command. -/
theorem outcome_dispatchCommand (h : Turn s p s) (hmsg : msg.OneLine) :
    ∃ m : Manner, m.Fits msg.command ∧ Outcome s p m s (s.dispatchCommand p msg) := by
  have h451 : ∃ m : Manner, m.Fits msg.command ∧
      Outcome s p m s (s.sendReply p "451" (str ":You have not registered")) :=
    ⟨.acting, trivial, .stays (h.reply (by decide))⟩
  rw [dispatchCommand]
  dsimp only
  rcases hentry : findCommand msg.command with _ | entry
  · dsimp only
    split_ifs with hreg
    · exact h451
    rcases hfile : s.fileOnCommand p msg with _ | t
    · exact ⟨.acting, trivial, .stays (h.reply (by simp (disch := decide) [hmsg.command]))⟩
    · exact ⟨.filing, command_of_fileOnCommand hfile,
        .stays (h.fileOnCommand (by simpa using hreg) hmsg hfile)⟩
  have hmem : entry ∈ kCommands := List.mem_of_find?_eq_some hentry
  have hname : entry.name = msg.command := by simpa using List.find?_some hentry
  dsimp only
  split_ifs with hopen hreg
  · exact hname ▸ outcome_handler h hmsg hmem fun hneeds => by simp [hneeds] at hopen
  · exact h451
  · exact hname ▸ outcome_handler h hmsg hmem fun _ => by simpa using hreg

/-- **What a line comes to**, whatever a client sends: operations permitted to it, of
a kind that fits the command of the line, and possibly a disconnect. -/
theorem outcome_handleMessage (M : Matcher) (hi : s.Inv) (hp : s.Live p) {raw : Str}
    (hraw : OneLine raw) :
    ∃ m : Manner, m ≠ .leaving ∧ Outcome s p m s (handleMessage M s p raw) ∧
      (m = .acting ∨ ∃ msg, M.buildMessage raw = some msg ∧ m.Fits msg.command) := by
  have hhear : ∀ m, Complies s p m s (s.record (.inbound p raw)) := fun m =>
    .op (.hear p raw) rfl hp
  rw [handleMessage]
  rcases hmsg : M.buildMessage raw with _ | msg
  · exact ⟨.acting, by decide, .stays (hhear _), Or.inl rfl⟩
  · have hturn := (Turn.start hi hp).runs (hhear .acting) (by decide)
    obtain ⟨m, hm, hout⟩ := outcome_dispatchCommand (Turn.start hturn.inv hturn.live)
      (M.oneLine_buildMessage hraw hmsg)
    -- the record is no part of what the policy reads
    have hout' : Outcome s p m (s.record (.inbound p raw))
        ((s.record (.inbound p raw)).dispatchCommand p msg) := by
      cases hout with
      | stays hstay => exact .stays hstay
      | leaves hm hact hop hq hreason ht => exact .leaves hm hact hop hq hreason ht
    refine ⟨m, ?_, hout'.after (hhear m), Or.inr ⟨msg, rfl, hm⟩⟩
    rintro rfl
    exact hm

/-- **Whatever a client sends, the server does nothing but what is permitted to that
client**: every line, well formed or not, amounts to a sequence of safe operations
that the policy allows the client in the state the line arrived in. -/
theorem complies_handleMessage (M : Matcher) (hi : s.Inv) (hp : s.Live p) {raw : Str}
    (hraw : OneLine raw) : ∃ m, Complies s p m s (handleMessage M s p raw) := by
  obtain ⟨m, -, hout, -⟩ := outcome_handleMessage M hi hp hraw
  exact hout.complies (.start hi hp)

end Server

end FtIrc
