import FtIrc.Server.ComplianceChannel

/-!
# The operator commands comply

`KICK`, `INVITE`, `TOPIC` and `MODE`. What they change of a channel they change
only after the status of the client was looked up, and that lookup is of the state
the line arrived in: nothing was done before it. The loop over a mode string does
not look again, so `+b` of one letter may follow the `-o` with which an operator
gave up its own status; the policy is about the state the line arrived in for this
very reason.

The loop invariant is `FtIrc.Server.ModeLoopSafe`: the rounds so far comply, and
what is left to be read and what is to be announced is one line each.
-/

namespace FtIrc

variable [Libcpp]

/-! ### The lines that announce mode changes -/

/-- The letter and the parameter of a mode change are one line. -/
structure ModeChange.OneLine (mc : ModeChange) : Prop where
  letter : LineOctet mc.letter
  param : FtIrc.OneLine mc.param

/-- What is on a line of mode changes so far is one line. -/
structure ModeLine.OneLine (line : ModeLine) : Prop where
  modes : FtIrc.OneLine line.modes
  params : FtIrc.OneLine line.params

namespace ModeLine.OneLine

variable {line : ModeLine} {mc : ModeChange} {head : Str}

omit [Libcpp] in
theorem empty : ModeLine.OneLine {} := ⟨FtIrc.OneLine.nil, FtIrc.OneLine.nil⟩

omit [Libcpp] in
theorem extend (h : line.OneLine) (hmc : mc.OneLine) : (line.extend mc).OneLine := by
  obtain ⟨hmodes, hparams⟩ := h
  obtain ⟨hletter, hparam⟩ := hmc
  refine ⟨?_, ?_⟩
  · simp only [ModeLine.extend]
    split_ifs <;> simp (disch := decide) [hmodes, hletter]
  · simp only [ModeLine.extend]
    split_ifs <;> simp (disch := decide) [hparams, hparam]

omit [Libcpp] in
theorem text (h : line.OneLine) (hhead : FtIrc.OneLine head) : FtIrc.OneLine (line.text head) := by
  rw [ModeLine.text]
  split_ifs <;> simp (disch := decide) [hhead, h.modes, h.params]

end ModeLine.OneLine

omit [Libcpp] in
theorem oneLine_renderFrom {head : Str} (hhead : OneLine head) {line : ModeLine}
    (hline : line.OneLine) {changes : List ModeChange} (hchanges : ∀ mc ∈ changes, mc.OneLine) :
    ∀ t ∈ renderFrom head line changes, OneLine t := by
  induction changes generalizing line with
  | nil =>
    intro t ht
    rw [renderFrom, List.mem_singleton] at ht
    exact ht ▸ hline.text hhead
  | cons mc rest ih =>
    obtain ⟨hmc, hrest⟩ := List.forall_mem_cons.mp hchanges
    intro t ht
    rw [renderFrom] at ht
    split_ifs at ht
    · rcases List.mem_cons.mp ht with rfl | ht
      · exact hline.text hhead
      · exact ih (ModeLine.OneLine.empty.extend hmc) hrest t ht
    · exact ih (hline.extend hmc) hrest t ht

omit [Libcpp] in
/-- **Every announcement of mode changes is one line.** -/
theorem oneLine_renderModeLines {head : Str} (hhead : OneLine head) {changes : List ModeChange}
    (hchanges : ∀ mc ∈ changes, mc.OneLine) : ∀ t ∈ renderModeLines head changes, OneLine t := by
  rcases changes with _ | ⟨mc, rest⟩
  · exact fun t ht => absurd ht (by simp [renderModeLines])
  · obtain ⟨hmc, hrest⟩ := List.forall_mem_cons.mp hchanges
    exact oneLine_renderFrom hhead (ModeLine.OneLine.empty.extend hmc) hrest

omit [Libcpp] in
theorem prefix_renderFrom {head : Str} {line : ModeLine} {changes : List ModeChange} :
    ∀ t ∈ renderFrom head line changes, head <+: t := by
  have htext : ∀ line : ModeLine, head <+: line.text head := fun line => by
    rw [ModeLine.text, List.append_assoc]
    exact List.prefix_append _ _
  induction changes generalizing line with
  | nil =>
    intro t ht
    rw [renderFrom, List.mem_singleton] at ht
    exact ht ▸ htext line
  | cons mc rest ih =>
    intro t ht
    rw [renderFrom] at ht
    split_ifs at ht
    · rcases List.mem_cons.mp ht with rfl | ht
      · exact htext line
      · exact ih t ht
    · exact ih t ht

omit [Libcpp] in
/-- Every announcement of mode changes begins with its head. -/
theorem prefix_renderModeLines {head : Str} {changes : List ModeChange} :
    ∀ t ∈ renderModeLines head changes, head <+: t := by
  rcases changes with _ | ⟨mc, rest⟩
  · exact fun t ht => absurd ht (by simp [renderModeLines])
  · exact prefix_renderFrom

namespace Server

variable {s₀ s t : Server} {p q : ClientId} {fd : Fd} {ch : ChannelRef} {msg : Message}
  {ml : ModeLoop} {c : Octet} {rest : Str}

/-! ### KICK, INVITE and TOPIC -/

namespace Turn

theorem cmdKick (h : Turn s p s) (hreg : (s.deref p).registered = true) (hmsg : msg.OneLine) :
    Complies s p .acting s (s.cmdKick p msg) := by
  have hchans := hmsg.field "kickchans"
  have husers := hmsg.field "kickusers"
  have hpre := h.inv.getPrefix p
  have hreason : OneLine (if msg.has "kickreason" then msg.field "kickreason"
      else (s.deref p).nickname) := by
    split_ifs
    · exact hmsg.field _
    · exact h.inv.nickname p
  rw [Server.cmdKick]
  dsimp only
  generalize (if msg.has "kickreason" then msg.field "kickreason"
    else (s.deref p).nickname) = reason at hreason ⊢
  split_ifs
  · exact h.reply (by decide)
  rcases hch : s.findChannel (msg.field "kickchans") with _ | ch
  · exact h.reply (by simp (disch := decide) [hchans])
  dsimp only
  split_ifs with hmem hop
  · exact h.reply (by simp (disch := decide) [hchans])
  · exact h.reply (by simp (disch := decide) [hchans])
  rcases s.findMember ch (msg.field "kickusers") with _ | q
  · exact h.reply (by simp (disch := decide) [hchans, husers])
  · refine h.leaveChannel hreg hch (Or.inr (by simpa using hop))
      (h.inv.speech p " KICK " (by simp) (by decide) ?_)
    simp (disch := decide) [hpre, (h.inv.channelText ch).name, h.inv.nickname q, hreason]

theorem cmdInvite (h : Turn s p s) (hreg : (s.deref p).registered = true) (hmsg : msg.OneLine) :
    Complies s p .inviting s (s.cmdInvite p msg) := by
  have hnick := hmsg.field "invnick"
  have hchan := hmsg.field "invchan"
  rw [Server.cmdInvite]
  split_ifs
  · exact h.reply (by decide)
  dsimp only
  rcases hch : s.findChannel (msg.field "invchan") with _ | ch
  · exact h.reply (by simp (disch := decide) [hchan])
  dsimp only
  split_ifs with hmem hop
  · exact h.reply (by simp (disch := decide) [hchan])
  · exact h.reply (by simp (disch := decide) [hchan])
  rcases hq : s.findClientByNick (msg.field "invnick") with _ | q
  · exact h.reply (by simp (disch := decide) [hnick])
  dsimp only
  split_ifs with hqmem
  · exact h.reply (by simp (disch := decide) [hnick, hchan])
  have hent := h.inv.entitled_of_findClientByNick hq
  have hout : (s.channel ch).members.get? (s.deref q).fd = none :=
    OrdMap.contains_eq_false.mp (Bool.not_eq_true _ ▸ hqmem)
  have hinvite : Complies s p .inviting s _ := Complies.op (.invite (s.deref q).fd ch)
    ⟨by decide, hreg, by simpa using hmem, fun hi => by simpa [hi] using hop⟩ ⟨⟨q, hent⟩, hout⟩
  have hreply := h.andReply (by decide) hinvite (n := "341")
    (a := msg.field "invnick" ++ str " " ++ msg.field "invchan") (by simp (disch := decide) [hnick, hchan])
  have hturn := h.runs hreply (by decide)
  have hpre := hturn.inv.getPrefix p
  refine hreply.trans (hturn.send (h.live_runs hreply (by decide) (hent.live h.inv.table))
    (Or.inr hreg) (hturn.inv.speech p " INVITE " ?_ (by decide) ?_))
  · exact ⟨msg.field "invnick" ++ (str " :" ++ msg.field "invchan"), by
      simp only [List.append_assoc]; rfl⟩
  · simp (disch := decide) only [OneLine.literal, OneLine.append_iff, hnick, hchan, and_true, true_and]
    exact hpre

theorem cmdTopic (h : Turn s p s) (hreg : (s.deref p).registered = true) (hmsg : msg.OneLine) :
    Complies s p .acting s (s.cmdTopic p msg) := by
  have hchan := hmsg.param 0
  have htext : OneLine (if msg.matched then msg.field "topictext" else msg.param 1) := by
    split_ifs
    · exact hmsg.field _
    · exact hmsg.param 1
  rw [Server.cmdTopic]
  dsimp only
  generalize (if msg.matched then msg.field "topictext" else msg.param 1) = text at htext ⊢
  have hcut : OneLine (if text.length > MAX_TOPICLEN then text.take MAX_TOPICLEN else text) := by
    split_ifs
    · exact htext.take _
    · exact htext
  generalize (if text.length > MAX_TOPICLEN then text.take MAX_TOPICLEN else text) = text at hcut ⊢
  split
  · exact h.reply (by decide)
  rcases hch : s.findChannel (msg.param 0) with _ | ch
  · exact h.reply (by simp (disch := decide) [hchan])
  obtain ⟨hname, htopic, hsetter, -⟩ := h.inv.channelText ch
  dsimp only
  split_ifs with hmem hone hnone hop
  · exact h.reply (by simp (disch := decide) [hchan])
  · exact h.reply (by simp (disch := decide) [hchan])
  · exact h.andReply (by decide) (h.reply (by simp (disch := decide) [hchan, htopic]))
      (by simp (disch := decide) [hchan, hsetter])
  · exact h.reply (by simp (disch := decide) [hchan])
  have hset : Complies s p .acting s _ := Complies.op (.topic ch text (s.deref p).nickname)
    ⟨by decide, hreg, by simpa using hmem, fun hr => by simpa [hr] using hop⟩
    ⟨hcut, h.inv.nickname p, (h.inv.clientNames p).nickname.1, h.inv.nickname_ne_nil h.live hreg⟩
  have hturn := h.runs hset (by decide)
  refine hset.trans (hturn.broadcast (by decide) hreg (hturn.inv.speech p " TOPIC " ?_ (by decide) ?_))
  · exact ⟨(((Op.topic ch text (s.deref p).nickname).run s).channel ch).name ++
      (str " :" ++ text), by simp only [List.append_assoc]; rfl⟩
  · simp (disch := decide) only [OneLine.literal, OneLine.append_iff, hcut, and_true, true_and]
    exact ⟨hturn.inv.getPrefix p, (hturn.inv.channelText ch).name⟩

end Turn

/-! ### MODE -/

/-- **The invariant of the loop over a mode string.** -/
structure ModeLoopSafe (s : Server) (p : ClientId) (ml : ModeLoop) : Prop where
  runs : Complies s p .moding s ml.server
  params : ∀ t ∈ ml.params, OneLine t
  applied : ∀ mc ∈ ml.applied, mc.OneLine

namespace ModeLoopSafe

/-- A round may do with fewer parameters and another sign. -/
theorem congr (h : ModeLoopSafe s p ml) {b : Bool} {params : List Str}
    (hsub : params ⊆ ml.params) :
    ModeLoopSafe s p { ml with adding := b, params := params } :=
  ⟨h.runs, fun t ht => h.params t (hsub ht), h.applied⟩

theorem reportOnce (h : ModeLoopSafe s p ml) (ht : Turn s p s) {what params : Str}
    {numeric : String} (hreply : Reply numeric params) :
    ModeLoopSafe s p (ml.reportOnce what p numeric params) := by
  rw [ModeLoop.reportOnce]
  split_ifs
  · exact h
  · exact ⟨ht.andReply (by decide) h.runs hreply, h.params, h.applied⟩

theorem apply (h : ModeLoopSafe s p ml) {u : Server} {mc : ModeChange}
    (hu : Complies s p .moding ml.server u) (hmc : mc.OneLine) :
    ModeLoopSafe s p (ml.apply u mc) := by
  refine ⟨h.runs.trans hu, h.params, fun mc' hmc' => ?_⟩
  rcases List.mem_append.mp hmc' with hold | hnew
  · exact h.applied mc' hold
  · rw [List.mem_singleton] at hnew
    exact hnew ▸ hmc

end ModeLoopSafe

/-- An operator changes a setting. -/
theorem Complies.setting (hreg : (s₀.deref p).registered = true)
    (hop : s₀.isOperator ch p = true) (set : Setting) (hkey : ∀ k, set = .key k → OneLine k)
    (hvalid : set.Valid) : Complies s₀ p .moding s (s.updateChannel ch set.apply) :=
  Complies.op (.setting ch set) ⟨rfl, hreg, hop⟩ ⟨hkey, hvalid⟩

theorem modeKey_safe (ht : Turn s p s) (hreg : (s.deref p).registered = true)
    (hop : s.isOperator ch p = true) (h : ModeLoopSafe s p ml) :
    ModeLoopSafe s p (modeKey p ch ml rest) := by
  have hname := ((ht.runs h.runs (by decide)).inv.channelText ch).name
  have hclear := Complies.setting (s := ml.server) hreg hop (.key [])
    (fun k hk => by cases hk; exact OneLine.nil) (Or.inl rfl)
  have hletter : LineOctet 107 := by decide
  obtain ⟨server, adding, params, applied, reported⟩ := ml
  rw [modeKey]
  rcases adding with _ | _
  · rcases params with _ | ⟨oldKey, params⟩
    · exact h.apply hclear ⟨hletter, OneLine.nil⟩
    · obtain ⟨hkey, -⟩ := List.forall_mem_cons.mp h.params
      simp only [Bool.false_eq_true, if_false]
      split_ifs
      · exact (h.congr (List.subset_cons_self oldKey params)).apply hclear ⟨hletter, hkey⟩
      · exact h.apply hclear ⟨hletter, OneLine.nil⟩
  · rcases params with _ | ⟨key, params⟩
    · exact h.reportOnce ht (by decide)
    · obtain ⟨hkey, -⟩ := List.forall_mem_cons.mp h.params
      have h' := h.congr (b := true) (List.subset_cons_self key params)
      simp only [if_true]
      split_ifs with hvalid
      · exact h'.reportOnce ht (by simp (disch := decide) [hname])
      · exact h'.apply (Complies.setting hreg hop (.key key) (fun k hk => by cases hk; exact hkey)
          (Or.inr (by simpa using hvalid))) ⟨hletter, hkey⟩

theorem modeOperator_safe (ht : Turn s p s) (hreg : (s.deref p).registered = true)
    (hop : s.isOperator ch p = true) (h : ModeLoopSafe s p ml) :
    ModeLoopSafe s p (modeOperator p ch ml) := by
  have hturn := ht.runs h.runs (by decide)
  obtain ⟨server, adding, params, applied, reported⟩ := ml
  rw [modeOperator]
  rcases params with _ | ⟨nick, params⟩
  · exact h.reportOnce ht (by decide)
  obtain ⟨hnick, -⟩ := List.forall_mem_cons.mp h.params
  have h' := h.congr (b := adding) (List.subset_cons_self nick params)
  dsimp only
  rcases hq : server.findMember ch nick with _ | q
  · exact h'.reportOnce ht (by simp (disch := decide) [hnick, (hturn.inv.channelText ch).name])
  · exact h'.apply
      (Complies.op (.operator (server.deref q).fd ch adding) ⟨rfl, hreg, hop⟩
        fun _ => ⟨q, hturn.inv.member_of_findMember hq⟩)
      ⟨show LineOctet 111 by decide, hturn.inv.nickname q⟩

theorem modeLimit_safe (ht : Turn s p s) (hreg : (s.deref p).registered = true)
    (hop : s.isOperator ch p = true) (h : ModeLoopSafe s p ml) :
    ModeLoopSafe s p (modeLimit p ch ml) := by
  have hname := ((ht.runs h.runs (by decide)).inv.channelText ch).name
  obtain ⟨server, adding, params, applied, reported⟩ := ml
  rw [modeLimit]
  dsimp only
  split_ifs
  · rcases params with _ | ⟨limitStr, params⟩
    · exact h.reportOnce ht (by decide)
    obtain ⟨hlimit, -⟩ := List.forall_mem_cons.mp h.params
    have h' := h.congr (b := adding) (List.subset_cons_self limitStr params)
    dsimp only
    rcases hparse : Libcpp.parseLong limitStr 1 MAX_USERLIMIT with _ | limit
    · exact h'.reportOnce ht (by simp (disch := decide) [hname, hlimit])
    · obtain ⟨-, hpos, hle⟩ := (Libcpp.parseLong_iff _ _ _ _).mp hparse
      exact h'.apply (Complies.setting hreg hop (.userLimit limit.toNat) (fun k hk => nomatch hk)
        (by rw [Setting.Valid]; omega)) ⟨show LineOctet 108 by decide, OneLine.toDecimal limit⟩
  · exact h.apply (Complies.setting hreg hop (.userLimit 0) (fun k hk => nomatch hk)
      (by decide : (0 : ℤ) ≤ MAX_USERLIMIT)) ⟨by decide, OneLine.nil⟩

/-- One round of the loop over a channel mode string. -/
theorem channelModeLetter_safe (ht : Turn s p s) (hreg : (s.deref p).registered = true)
    (hop : s.isOperator ch p = true) (hc : LineOctet c) (h : ModeLoopSafe s p ml) :
    ModeLoopSafe s p (channelModeLetter p ch ml c rest) := by
  rw [channelModeLetter]
  split_ifs
  · exact h.congr (List.Subset.refl _)
  · exact h.congr (List.Subset.refl _)
  · exact h.apply (Complies.setting hreg hop (.inviteOnly ml.adding) (fun k hk => nomatch hk) trivial)
      ⟨show LineOctet 105 by decide, OneLine.nil⟩
  · exact h.apply (Complies.setting hreg hop (.topicRestricted ml.adding)
      (fun k hk => nomatch hk) trivial)
      ⟨show LineOctet 116 by decide, OneLine.nil⟩
  · exact modeKey_safe ht hreg hop h
  · exact modeOperator_safe ht hreg hop h
  · exact modeLimit_safe ht hreg hop h
  · exact h.reportOnce ht (by simp (disch := decide) [hc])

/-- **The loop over a channel mode string** keeps its invariant. -/
theorem channelModeLoop_safe (ht : Turn s p s) (hreg : (s.deref p).registered = true)
    (hop : s.isOperator ch p = true) {modeStr : Str} (hstr : OneLine modeStr)
    (h : ModeLoopSafe s p ml) : ModeLoopSafe s p (channelModeLoop p ch ml modeStr) := by
  induction modeStr generalizing ml with
  | nil => exact h
  | cons c rest ih =>
    obtain ⟨hc, hrest⟩ := OneLine.cons_iff.mp hstr
    exact ih hrest (channelModeLetter_safe ht hreg hop hc h)

/-- One round of the loop over a user mode string. -/
theorem userModeLetter_safe (ht : Turn s p s) (hc : LineOctet c) (h : ModeLoopSafe s p ml) :
    ModeLoopSafe s p (userModeLetter p ml c) := by
  rw [userModeLetter]
  split_ifs
  · exact h.congr (List.Subset.refl _)
  · exact h.congr (List.Subset.refl _)
  · exact h.apply (Complies.op (.userMode p .invisible ml.adding) rfl trivial)
      ⟨show LineOctet 105 by decide, OneLine.nil⟩
  · exact h.apply (Complies.op (.userMode p .wallops ml.adding) rfl trivial)
      ⟨show LineOctet 119 by decide, OneLine.nil⟩
  · exact h.reportOnce ht (by simp (disch := decide) [hc])

namespace Turn

theorem handleUserMode (h : Turn s p s) (hmsg : msg.OneLine) :
    Complies s p .moding s (s.handleUserMode p msg) := by
  rw [Server.handleUserMode]
  dsimp only
  split_ifs
  · exact h.reply (by decide)
  · exact h.reply (by rw [Client.getUserModeString]; split_ifs <;> decide)
  · exact .refl s
  have hloop : ModeLoopSafe s p ((msg.param 1).foldl (userModeLetter p) { server := s }) := by
    have hstr := hmsg.param 1
    generalize msg.param 1 = modeStr at hstr ⊢
    have hstart : ModeLoopSafe s p { server := s } := ⟨.refl s, by simp, by simp⟩
    generalize ({ server := s } : ModeLoop) = ml at hstart ⊢
    induction modeStr generalizing ml with
    | nil => exact hstart
    | cons c rest ih =>
      obtain ⟨hc, hrest⟩ := OneLine.cons_iff.mp hstr
      exact ih hrest _ (userModeLetter_safe h hc hstart)
  have hturn := h.runs hloop.runs (by decide)
  refine hloop.runs.trans (hturn.foldl (by decide) _ fun u hu _ line hline =>
    hu.tell (hturn.inv.speech p " MODE " (.trans ?_ (prefix_renderModeLines line hline)) (by decide)
      (oneLine_renderModeLines ?_ hloop.applied line hline)))
  · simp
  · simp (disch := decide) [hturn.inv.getPrefix p, hturn.inv.nickname p]

theorem handleChannelMode (h : Turn s p s) (hreg : (s.deref p).registered = true)
    (hmsg : msg.OneLine) : Complies s p .moding s (s.handleChannelMode p ch msg) := by
  have hname := (h.inv.channelText ch).name
  rw [Server.handleChannelMode]
  dsimp only
  split_ifs with hmem hop
  · exact h.reply (by simp (disch := decide) [hname])
  · exact h.reply (by simp (disch := decide) [hname])
  · exact .refl s
  have hstart : ModeLoopSafe s p { server := s, params := msg.params.drop 2 } :=
    ⟨.refl s, fun t ht => hmsg.params t (List.mem_of_mem_drop ht), by simp⟩
  have hloop := channelModeLoop_safe h hreg (show s.isOperator ch p = true by simpa using hop)
    (hmsg.param 1) hstart
  have hturn := h.runs hloop.runs (by decide)
  refine hloop.runs.trans (hturn.foldl (by decide) _ fun u hu _ line hline =>
    hu.broadcast (by decide) hreg (hturn.inv.speech p " MODE "
      (.trans ?_ (prefix_renderModeLines line hline)) (by decide)
      (oneLine_renderModeLines ?_ hloop.applied line hline)))
  · simp
  · simp (disch := decide) [hturn.inv.getPrefix p, (hturn.inv.channelText ch).name]

/-- **MODE complies.** -/
theorem cmdMode (h : Turn s p s) (hreg : (s.deref p).registered = true) (hmsg : msg.OneLine) :
    Complies s p .moding s (s.cmdMode p msg) := by
  have htarget := hmsg.param 0
  rw [Server.cmdMode]
  dsimp only
  split_ifs with hnone hhash hone
  · exact h.reply (by decide)
  · rcases hch : s.findChannel (msg.param 0) with _ | ch
    · exact h.reply (by simp (disch := decide) [htarget])
    obtain ⟨hmodes, hparams⟩ := h.inv.channelModes ch
    dsimp only
    split_ifs
    · exact h.reply (by simp (disch := decide) [htarget])
    · exact h.andReply (by decide) (h.reply (by simp (disch := decide) [htarget, hmodes, hparams]))
        (by simp (disch := decide) [htarget])
    · exact h.andReply (by decide) (h.reply (by simp (disch := decide) [htarget, hmodes]))
        (by simp (disch := decide) [htarget])
  · rcases hch : s.findChannel (msg.param 0) with _ | ch
    · exact h.reply (by simp (disch := decide) [htarget])
    · exact h.handleChannelMode hreg hmsg
  · exact h.handleUserMode hmsg

end Turn

end Server

end FtIrc
