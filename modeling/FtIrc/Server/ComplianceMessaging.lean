import FtIrc.Server.ComplianceOperator

/-!
# Messages, queries and the extensions comply

`PRIVMSG`, `NOTICE` and `PING`, the queries, the bot and the `FILE` command: they
speak to others, or answer, and touch no table but that of the transfers.
-/

namespace FtIrc

variable [Libcpp]

/-! ### What the bot cuts out of a message -/

omit [Libcpp] in
theorem oneLine_botWords {text : Str} (h : OneLine text) : OneLine (botWords text).2 :=
  (((h.dropWhile _).dropWhile _).dropWhile _).takeWhile _

omit [Libcpp] in
theorem oneLine_jokes (n : ℕ) : OneLine (jokes.getD n []) := by
  have hall : ∀ joke ∈ jokes, OneLine joke := by decide +kernel
  exact Abnf.getD_of_forall OneLine.nil hall n

namespace Server

variable {s₀ s t : Server} {p q : ClientId} {fd : Fd} {ch : ChannelRef} {m : Manner}
  {msg : Message} {text target : Str}

namespace Turn

/-! ### PRIVMSG, NOTICE and PING -/

theorem botReply (h : Turn s₀ p s) (htext : OneLine text) :
    Complies s₀ p m s (s.botReply p text) := by
  have hword : IsWord botNickname := by decide
  refine h.tell (speech_of_name (x := " PRIVMSG ") (by simp) hword (by decide) (by decide)
    (fun hcon => absurd hcon (by decide)) ?_)
  simp (disch := decide) [botNickname, h.inv.nickname p, htext]

/-- One more reply of the bot. -/
theorem andBotReply (h : Turn s₀ p s) (hm : m ≠ .leaving) (hrun : Complies s₀ p m s t)
    (htext : OneLine text) : Complies s₀ p m s (t.botReply p text) :=
  hrun.trans ((h.runs hrun hm).botReply htext)

theorem botHandleMessage (h : Turn s₀ p s) (hm : m ≠ .leaving)
    (hreg : (s₀.deref p).registered = true) (htext : OneLine text) :
    Complies s₀ p m s (s.botHandleMessage p text) := by
  have hparam := oneLine_botWords htext
  rw [Server.botHandleMessage]
  dsimp only
  split_ifs
  · exact .refl s
  · exact h.andBotReply hm (h.andBotReply hm (h.andBotReply hm (h.andBotReply hm
      (h.botReply (by decide)) (by decide)) (by decide)) (by decide)) (by decide)
  · exact h.botReply (by simp (disch := decide) [Libcpp.oneLine_localTime])
  · rw [Server.botInfo]
    split_ifs
    · exact h.botReply (by decide)
    rcases s.findChannel (botWords text).2 with _ | ch
    · exact h.botReply (by simp (disch := decide) [hparam])
    have hinfo : OneLine (str "Channel " ++ (botWords text).2 ++ str ": " ++
        Libcpp.toDecimal (s.channel ch).getMemberCount ++ str " users, modes: " ++
        (s.channel ch).getModeString) := by
      simp (disch := decide) [hparam, (h.inv.channelModes ch).1]
    dsimp only
    split_ifs
    · exact h.andBotReply hm (h.botReply hinfo) (by simp (disch := decide) [(h.inv.channelText ch).topic])
    · exact h.botReply hinfo
  · exact (h.botReply (oneLine_jokes _)).trans (Complies.op (.joke _) hreg trivial)
  · exact h.botReply (by decide)

/-- A message goes to one target of a list. -/
theorem privmsgOne (h : Turn s₀ p s) (hreg : (s₀.deref p).registered = true)
    (htarget : OneLine target) (htext : OneLine text) :
    Complies s₀ p .acting s (Server.privmsgOne p text s target) := by
  have hline : Speech .acting (str ":" ++ (s.deref p).getPrefix ++ str " PRIVMSG " ++ target ++
      str " :" ++ text) :=
    h.inv.speech p " PRIVMSG " (by simp) (by decide)
      (by simp (disch := decide) [h.inv.getPrefix p, htarget, htext])
  rw [Server.privmsgOne]
  split_ifs
  · rcases s.findChannel target with _ | ch
    · exact h.reply (by simp (disch := decide) [htarget])
    dsimp only
    split_ifs
    · exact h.reply (by simp (disch := decide) [htarget])
    · exact h.broadcast (by decide) hreg hline
  · exact h.botHandleMessage (by decide) hreg htext
  · rcases hq : s.findClientByNick target with _ | q
    · exact h.reply (by simp (disch := decide) [htarget])
    · exact h.send ((h.inv.entitled_of_findClientByNick hq).live h.inv.table) (Or.inr hreg) hline

theorem noticeOne (h : Turn s₀ p s) (hreg : (s₀.deref p).registered = true)
    (htarget : OneLine target) (htext : OneLine text) :
    Complies s₀ p .acting s (Server.noticeOne p text s target) := by
  have hline : Speech .acting (str ":" ++ (s.deref p).getPrefix ++ str " NOTICE " ++ target ++
      str " :" ++ text) :=
    h.inv.speech p " NOTICE " (by simp) (by decide)
      (by simp (disch := decide) [h.inv.getPrefix p, htarget, htext])
  rw [Server.noticeOne]
  split_ifs
  · rcases s.findChannel target with _ | ch
    · exact .refl s
    dsimp only
    split_ifs
    · exact .refl s
    · exact h.broadcast (by decide) hreg hline
  · rcases hq : s.findClientByNick target with _ | q
    · exact .refl s
    · exact h.send ((h.inv.entitled_of_findClientByNick hq).live h.inv.table) (Or.inr hreg) hline

end Turn

omit [Libcpp] in
theorem oneLine_messageText (hmsg : msg.OneLine) : OneLine (messageText msg) := by
  rw [messageText]
  split_ifs
  · exact hmsg.field _
  · exact hmsg.param 1

theorem oneLine_messageTargets (hmsg : msg.OneLine) (ht : target ∈ messageTargets msg) :
    OneLine target := by
  rw [messageTargets] at ht
  split_ifs at ht
  · exact hmsg.list ht
  · rw [Libcpp.splitNonempty_eq] at ht
    exact (hmsg.param 0).of_subset (subset_of_mem_splitOnP (List.mem_of_mem_filter ht))

namespace Turn

theorem cmdPrivmsg (h : Turn s₀ p s) (hreg : (s₀.deref p).registered = true) (hmsg : msg.OneLine) :
    Complies s₀ p .acting s (s.cmdPrivmsg p msg) := by
  rw [Server.cmdPrivmsg]
  split_ifs
  · exact h.reply (by decide)
  · exact h.reply (by decide)
  · exact h.foldl (by decide) _ fun u hu _ target ht =>
      hu.privmsgOne hreg (oneLine_messageTargets hmsg ht) (oneLine_messageText hmsg)

theorem cmdNotice (h : Turn s₀ p s) (hreg : (s₀.deref p).registered = true) (hmsg : msg.OneLine) :
    Complies s₀ p .acting s (s.cmdNotice p msg) := by
  rw [Server.cmdNotice]
  split_ifs
  · exact .refl s
  · exact h.foldl (by decide) _ fun u hu _ target ht =>
      hu.noticeOne hreg (oneLine_messageTargets hmsg ht) (oneLine_messageText hmsg)

theorem cmdPing (h : Turn s₀ p s) (hmsg : msg.OneLine) :
    Complies s₀ p m s (s.cmdPing p msg) := by
  rw [Server.cmdPing]
  split_ifs
  · exact h.reply (by decide)
  · exact h.tell (speech_server " PONG " (by simp) (by decide) (by decide)
      (by simp (disch := decide) [hmsg.param 0]))

/-! ### WHO, WHOIS and USERHOST -/

theorem cmdWho (h : Turn s₀ p s) (hmsg : msg.OneLine) :
    Complies s₀ p .acting s (s.cmdWho p msg) := by
  have htarget := hmsg.param 0
  have hend : Reply "315" (msg.param 0 ++ str " :End of WHO list") := by simp (disch := decide) [htarget]
  rw [Server.cmdWho]
  dsimp only
  split_ifs
  · exact h.reply (by decide)
  · rcases s.findChannel (msg.param 0) with _ | ch
    · exact h.reply hend
    · refine h.andReply (by decide) (h.foldl (by decide) _ fun u hu _ q _ => hu.reply ?_) hend
      obtain ⟨hnick, huser, hreal, hhost⟩ := hu.inv.clientText q
      split_ifs <;> simp (disch := decide) [htarget, hnick, huser, hreal, hhost]
  · rcases s.findClientByNick (msg.param 0) with _ | q
    · exact h.reply hend
    · obtain ⟨hnick, huser, hreal, hhost⟩ := h.inv.clientText q
      exact h.andReply (by decide) (h.reply (by simp (disch := decide) [hnick, huser, hreal, hhost])) hend


end Turn

/-- What `WHOIS` says of the channels of a client is one line. -/
theorem Inv.oneLine_whoisChannels (h : s.Inv) (q : ClientId) : OneLine (s.whoisChannels q) := by
  rw [whoisChannels]
  refine List.foldlRecOn s.channels.keys _ (motive := OneLine) OneLine.nil fun text htext ch _ => ?_
  have hname := (h.channelText ch).name
  split_ifs <;> simp (disch := decide) [htext, hname]

namespace Turn

theorem cmdWhois (h : Turn s₀ p s) (hmsg : msg.OneLine) :
    Complies s₀ p .acting s (s.cmdWhois p msg) := by
  have hnick := hmsg.param (if msg.params.length > 1 then 1 else 0)
  rw [Server.cmdWhois]
  dsimp only
  generalize msg.param (if msg.params.length > 1 then 1 else 0) = nick at hnick ⊢
  split
  · exact h.reply (by decide)
  rcases s.findClientByNick nick with _ | q
  · exact h.reply (by simp (disch := decide) [hnick])
  obtain ⟨hqnick, huser, hreal, hhost⟩ := h.inv.clientText q
  have hchans := h.inv.oneLine_whoisChannels q
  have hwho := h.reply (m := .acting) (n := "311")
    (a := (s.deref q).nickname ++ str " " ++ (s.deref q).username ++ str " " ++
      (s.deref q).hostname ++ str " * :" ++ (s.deref q).realname)
    (by simp (disch := decide) [hqnick, huser, hreal, hhost])
  have hserver := h.andReply (by decide) hwho (n := "312")
    (a := (s.deref q).nickname ++ str " " ++ SERVER_NAME ++ str " :ft_irc server")
    (by simp (disch := decide) [hqnick])
  dsimp only
  split_ifs
  · exact h.andReply (by decide) (h.andReply (by decide) hserver (by simp (disch := decide) [hqnick, hchans]))
      (by simp (disch := decide) [hqnick])
  · exact h.andReply (by decide) hserver (by simp (disch := decide) [hqnick])

theorem cmdUserhost (h : Turn s₀ p s) :
    Complies s₀ p .acting s (s.cmdUserhost p msg) := by
  rw [Server.cmdUserhost]
  split_ifs
  · exact h.reply (by decide)
  refine h.reply ⟨by decide, OneLine.append_iff.mpr ⟨by decide, ?_⟩⟩
  refine List.foldlRecOn (msg.params.take 5) _ (motive := OneLine) OneLine.nil
    fun text htext nick _ => ?_
  rcases s.findClientByNick nick with _ | q
  · exact htext
  · obtain ⟨hnick, huser, -, hhost⟩ := h.inv.clientText q
    dsimp only
    split_ifs <;> simp (disch := decide) [htext, hnick, huser, hhost]

/-! ### FILE -/

/-- A line of the FILE extension, to a client that is there. -/
theorem relay (h : Turn s₀ p s) (hq : s.Live q) (hreg : (s₀.deref p).registered = true) {w : Str}
    (hline : OneLine w) : Complies s₀ p .filing s (s.queueMessage q w) :=
  h.send hq (Or.inr hreg) ⟨hline, Or.inr (Or.inl rfl)⟩

/-- Where no transfer is found from one client to another there is none. -/
theorem no_transfer_of_findActive (h : Turn s₀ p s) {a b : Fd} (hnone : s.findActive a b = 0)
    {id : ℤ} {tr : Transfer} (htr : s.files.transfers.get? id = some tr) :
    ¬(tr.senderFd = a ∧ tr.recipientFd = b) := by
  rw [findActive] at hnone
  rcases hfind : s.files.transfers.entries.find? fun e =>
      decide (e.2.senderFd = a ∧ e.2.recipientFd = b) with _ | e
  · simpa using List.find?_eq_none.mp hfind (id, tr) (OrdMap.mem_entries.mpr htr)
  · rw [hfind] at hnone
    have hmem := OrdMap.mem_entries.mp (List.mem_of_find?_eq_some hfind)
    have hbelow := (h.inv.transferTable.below e.1 e.2 hmem).1
    dsimp only at hnone
    omega

/-- A transfer is forgotten. -/
theorem dropTransfer (_h : Turn s₀ p s) (hreg : (s₀.deref p).registered = true) (id : ℤ) :
    Complies s₀ p .filing s (s.updateTransfers fun ts => ts.erase id) :=
  Complies.op (.drop id) ⟨Or.inl rfl, hreg⟩ trivial

/-- A party of a transfer that still has its descriptor is there. -/
theorem live_of_findClientByFd (h : Turn s₀ p s) {id : ℤ} {tr : Transfer}
    (htr : s.files.transfers.get? id = some tr) (hfd : fd = tr.senderFd ∨ fd = tr.recipientFd)
    (hq : s.findClientByFd fd = some q) : s.Live q := by
  obtain ⟨⟨a, ha⟩, b, hb⟩ := h.inv.authority.transfer id tr htr
  rcases hfd with rfl | rfl
  · obtain rfl := Option.some.inj (ha.1.symm.trans hq)
    exact ha.live h.inv.table
  · obtain rfl := Option.some.inj (hb.1.symm.trans hq)
    exact hb.live h.inv.table

theorem fileSend (h : Turn s₀ p s) (hreg : (s₀.deref p).registered = true)
    (hmsg : msg.OneLine) : Complies s₀ p .filing s (s.fileSend p msg) := by
  have hnick := hmsg.param 1
  have hfile := hmsg.param 2
  rw [Server.fileSend]
  split
  · exact h.notice (by decide)
  dsimp only
  rcases hq : s.findClientByNick (msg.param 1) with _ | q
  · exact h.notice (by simp (disch := decide) [hnick])
  have hent := h.inv.entitled_of_findClientByNick hq
  dsimp only
  split
  · exact h.notice (by simp (disch := decide) [hnick])
  split
  · exact h.notice (by decide)
  rename_i hself
  split
  · exact h.notice (by decide)
  rcases hparse : Libcpp.parseUlong (msg.param 3) 1 MAX_FILE_SIZE with _ | size
  · exact h.notice (by simp (disch := decide))
  dsimp only
  split
  · exact h.notice (by simp (disch := decide) [hnick])
  rename_i hactive
  obtain ⟨-, hpos, hle⟩ := (Libcpp.parseUlong_iff _ _ _ _).mp hparse
  have hparties : (s.deref p).fd ≠ (s.deref q).fd := fun hfd =>
    hself (Option.some.inj (hent.1.symm.trans (hfd ▸ h.live.1)))
  have hoffer : Complies s₀ p .filing s _ := Complies.op (.offer
    { senderFd := (s.deref p).fd, recipientFd := (s.deref q).fd, filename := msg.param 2
      declaredSize := size, relayedBytes := 0, accepted := false, lastActivity := s.clock })
    ⟨Or.inl rfl, hreg⟩ ⟨⟨p, h.entitled hreg⟩, ⟨q, hent⟩, hfile, ⟨hparties, hpos, hle, rfl, rfl⟩,
      fun id tr htr => h.no_transfer_of_findActive (by simpa using hactive) htr⟩
  have hturn := h.runs hoffer (by decide)
  have htell := hturn.relay (h.live_runs hoffer (by decide) (hent.live h.inv.table)) hreg
    (w := str ":" ++ (s.deref p).getPrefix ++ str " FILE OFFER " ++
      Libcpp.toDecimal s.files.nextId ++ str " " ++ msg.param 2 ++ str " " ++ Libcpp.toDecimal size)
    (by simp (disch := decide) [h.inv.getPrefix p, hfile])
  exact hoffer.trans (htell.trans ((hturn.runs htell (by decide)).notice (by simp (disch := decide) [hnick])))

theorem fileAnswer (h : Turn s₀ p s) (hreg : (s₀.deref p).registered = true)
    (hmsg : msg.OneLine) (accept : Bool) : Complies s₀ p .filing s (s.fileAnswer p msg accept) := by
  have hunknown : Complies s₀ p .filing s (s.fileNotice p (str "FILE: no offer with id " ++ msg.param 1)) :=
    h.notice (by simp (disch := decide) [hmsg.param 1])
  rw [Server.fileAnswer]
  rcases transferId msg 2 with _ | id
  · exact h.notice (by decide)
  dsimp only
  rcases htr : s.files.transfers.get? id with _ | tr
  · exact hunknown
  dsimp only
  split
  · exact hunknown
  rcases hq : s.findClientByFd tr.senderFd with _ | q
  · have hdrop := h.dropTransfer hreg id
    exact hdrop.trans ((h.runs hdrop (by decide)).notice (by decide))
  have hlive := h.live_of_findClientByFd htr (Or.inl rfl) hq
  have hpre := h.inv.getPrefix p
  dsimp only
  split_ifs
  · have hprog : Complies s₀ p .filing s _ := Complies.op
      (.progress id fun t => { t with lastActivity := s.clock, accepted := true })
      ⟨Or.inl rfl, hreg⟩ fun _ _ => ⟨rfl, rfl, rfl, rfl, fun _ => rfl, Or.inl rfl⟩
    exact hprog.trans ((h.runs hprog (by decide)).relay (h.live_runs hprog (by decide) hlive) hreg
      (by simp (disch := decide) [hpre]))
  · have hprog : Complies s₀ p .filing s _ := Complies.op
      (.progress id fun t => { t with lastActivity := s.clock }) ⟨Or.inl rfl, hreg⟩
      fun _ _ => ⟨rfl, rfl, rfl, rfl, fun hacc => hacc, Or.inl rfl⟩
    have htell := (h.runs hprog (by decide)).relay (h.live_runs hprog (by decide) hlive) hreg
      (w := str ":" ++ (s.deref p).getPrefix ++ str " FILE NO " ++ Libcpp.toDecimal id)
      (by simp (disch := decide) [hpre])
    exact hprog.trans (htell.trans (((h.runs hprog (by decide)).runs htell (by decide)).dropTransfer hreg id))

theorem fileData (h : Turn s₀ p s) (hreg : (s₀.deref p).registered = true)
    (hmsg : msg.OneLine) : Complies s₀ p .filing s (s.fileData p msg) := by
  have hid := hmsg.param 1
  have hunknown : Complies s₀ p .filing s
      (s.fileNotice p (str "FILE: no transfer with id " ++ msg.param 1)) :=
    h.notice (by simp (disch := decide) [hid])
  rw [Server.fileData]
  rcases transferId msg 3 with _ | id
  · exact h.notice (by decide)
  dsimp only
  rcases htr : s.files.transfers.get? id with _ | tr
  · exact hunknown
  dsimp only
  split
  · exact hunknown
  split
  · exact h.notice (by simp (disch := decide) [hid])
  rename_i hacc
  split
  · exact h.abortTransfer hreg (by decide)
  split
  · exact h.abortTransfer hreg (by decide)
  split
  · exact h.abortTransfer hreg (by decide)
  rename_i hroom
  rcases hq : s.findClientByFd tr.recipientFd with _ | q
  · exact h.abortTransfer hreg (by decide)
  have hlive := h.live_of_findClientByFd htr (Or.inr rfl) hq
  dsimp only
  split_ifs
  · exact h.notice (by simp (disch := decide) [hid])
  · have hprog : Complies s₀ p .filing s _ := Complies.op
      (.progress id fun t => { t with relayedBytes := t.relayedBytes + decodedBytes (msg.param 2)
                                      lastActivity := s.clock }) ⟨Or.inl rfl, hreg⟩ fun t ht => by
          obtain rfl := Option.some.inj (htr.symm.trans ht)
          exact ⟨rfl, rfl, rfl, rfl, fun h => h, Or.inr ⟨by simpa using hacc, Nat.le_add_right _ _,
            by simpa using hroom⟩⟩
    exact hprog.trans ((h.runs hprog (by decide)).relay (h.live_runs hprog (by decide) hlive) hreg
      (by simp (disch := decide) [h.inv.getPrefix p, hid, hmsg.param 2]))

theorem fileEnd (h : Turn s₀ p s) (hreg : (s₀.deref p).registered = true)
    (hmsg : msg.OneLine) : Complies s₀ p .filing s (s.fileEnd p msg) := by
  have hid := hmsg.param 1
  have hunknown : Complies s₀ p .filing s
      (s.fileNotice p (str "FILE: no transfer with id " ++ msg.param 1)) :=
    h.notice (by simp (disch := decide) [hid])
  rw [Server.fileEnd]
  rcases transferId msg 2 with _ | id
  · exact h.notice (by decide)
  dsimp only
  rcases htr : s.files.transfers.get? id with _ | tr
  · exact hunknown
  dsimp only
  split
  · exact hunknown
  rcases hq : s.findClientByFd tr.recipientFd with _ | q
  · exact h.dropTransfer hreg id
  · have htell := h.relay (h.live_of_findClientByFd htr (Or.inr rfl) hq) hreg
      (w := str ":" ++ (s.deref p).getPrefix ++ str " FILE END " ++ msg.param 1 ++ str " " ++
        Libcpp.toDecimal tr.relayedBytes)
      (by simp (disch := decide) [h.inv.getPrefix p, hid])
    exact htell.trans ((h.runs htell (by decide)).dropTransfer hreg id)

theorem fileAbort (h : Turn s₀ p s) (hreg : (s₀.deref p).registered = true)
    (hmsg : msg.OneLine) : Complies s₀ p .filing s (s.fileAbort p msg) := by
  have hunknown : Complies s₀ p .filing s
      (s.fileNotice p (str "FILE: no transfer with id " ++ msg.param 1)) :=
    h.notice (by simp (disch := decide) [hmsg.param 1])
  rw [Server.fileAbort]
  rcases transferId msg 2 with _ | id
  · exact h.notice (by decide)
  dsimp only
  rcases s.files.transfers.get? id with _ | tr
  · exact hunknown
  dsimp only
  split
  · exact hunknown
  · exact h.abortTransfer hreg (by simp (disch := decide) [h.inv.nickname p])

/-- **The FILE command complies.** -/
theorem fileOnCommand (h : Turn s₀ p s) (hreg : (s₀.deref p).registered = true)
    (hmsg : msg.OneLine) (ht : s.fileOnCommand p msg = some t) : Complies s₀ p .filing s t := by
  have hsub := Libcpp.oneLine_toUpper (hmsg.param 0)
  rw [Server.fileOnCommand] at ht
  dsimp only at ht
  split_ifs at ht <;> rw [Option.some.injEq] at ht <;> subst ht
  · exact h.notice (by decide)
  · exact h.fileSend hreg hmsg
  · exact h.fileAnswer hreg hmsg true
  · exact h.fileAnswer hreg hmsg false
  · exact h.fileData hreg hmsg
  · exact h.fileEnd hreg hmsg
  · exact h.fileAbort hreg hmsg
  · exact h.notice (by simp (disch := decide) [hsub])

end Turn

end Server

end FtIrc
