import FtIrc.Server.Teardown

/-!
# The channel commands comply

`JOIN`, `PART`, `KICK`, `INVITE`, `TOPIC` and `MODE` cause nothing but what
`FtIrc.Op.Permitted` allows. `JOIN` with a list is the one command that adds to the
channels; every other one acts on channels that are there.
-/

namespace FtIrc

variable [Libcpp]

/-! ### Channel names in lower case -/

omit [Libcpp] in
theorem foldOctet_eq_iff {c d : Octet} (hd : d = SPACE ∨ d = 7 ∨ d = COMMA ∨ d = HASH) :
    foldOctet c = d ↔ c = d := by
  have hall : ∀ d ∈ [SPACE, 7, COMMA, HASH], ∀ n < 256, foldOctet (UInt8.ofNat n) = d ↔ UInt8.ofNat n = d := by
    decide +kernel
  have hc := hall d (by simpa using hd) c.toNat c.toNat_lt
  rwa [UInt8.ofNat_toNat] at hc

omit [Libcpp] in
/-- Whether a name is one does not depend on its case. -/
theorem isValidChannelName_asciiFold (name : Str) :
    isValidChannelName (asciiFold name) = isValidChannelName name := by
  have hhead : (asciiFold name).head? = some HASH ↔ name.head? = some HASH := by
    rcases name with _ | ⟨c, name⟩
    · simp [asciiFold]
    · simp [asciiFold, foldOctet_eq_iff]
  have hall : ((asciiFold name).all fun c => !(c == SPACE || c == 7 || c == COMMA)) =
      name.all fun c => !(c == SPACE || c == 7 || c == COMMA) := by
    rw [asciiFold, List.all_map]
    refine congrArg name.all (funext fun c => ?_)
    simp only [Function.comp_apply, beq_eq_decide, foldOctet_eq_iff (Or.inl rfl),
      foldOctet_eq_iff (Or.inr (Or.inl rfl)), foldOctet_eq_iff (Or.inr (Or.inr (Or.inl rfl)))]
  have hlen : (asciiFold name).length = name.length := List.length_map _
  rw [isValidChannelName, isValidChannelName, hall, hlen]
  simp only [hhead]

theorem isValidChannelName_congr {name name' : Str}
    (h : Libcpp.asciiToLower name = Libcpp.asciiToLower name') :
    isValidChannelName name = isValidChannelName name' := by
  rw [Libcpp.asciiToLower_eq, Libcpp.asciiToLower_eq] at h
  rw [← isValidChannelName_asciiFold name, h, isValidChannelName_asciiFold]

namespace Server

variable {s₀ s t : Server} {p q : ClientId} {fd : Fd} {ch : ChannelRef} {m : Manner}
  {msg : Message} {name text : Str}

/-! ### Looking up channels and members -/

theorem findChannel_eq_some (h : s.findChannel name = some ch) :
    ch = Libcpp.asciiToLower name ∧ ∃ chan, s.channels.get? ch = some chan := by
  rw [findChannel] at h
  split_ifs at h with hc
  rw [Option.some.injEq] at h
  exact ⟨h.symm, h ▸ OrdMap.contains_iff.mp hc⟩

theorem findChannel_eq_none (h : s.findChannel name = none) :
    s.channels.get? (Libcpp.asciiToLower name) = none := by
  rw [findChannel] at h
  split_ifs at h with hc
  exact OrdMap.contains_eq_false.mp (Bool.not_eq_true _ ▸ hc)

/-- A member found by nickname is a member, under its own descriptor. -/
theorem Inv.member_of_findMember (h : s.Inv) (hq : s.findMember ch name = some q) :
    (s.channel ch).members.get? (s.deref q).fd = some q := by
  obtain ⟨fd, hfd⟩ := OrdMap.mem_values.mp (List.mem_of_find?_eq_some hq)
  rcases hch : s.channels.get? ch with _ | chan
  · rw [channel_of_none hch] at hfd
    exact absurd hfd (by simp [show (default : Channel).members = OrdMap.empty from rfl])
  · rw [channel_of_get? hch] at hfd ⊢
    have := (h.authority.channel ch chan hch).member fd q hfd
    rwa [h.table.fd_eq this.1]

/-- Leaving by the name of a channel is leaving by its key. -/
theorem leaveChannel_eq (h : s.findChannel name = some ch) :
    s.leaveChannel p ch name text =
      (s.broadcastMessage ch text none).dropMember
        ((s.broadcastMessage ch text none).deref p).fd ch := by
  obtain ⟨rfl, -⟩ := findChannel_eq_some h
  rfl

namespace Turn

/-- One more reply. -/
theorem andReply (h : Turn s₀ p s) (hm : m ≠ .leaving) (hrun : Complies s₀ p m s t)
    {n : String} {a : Str} (hreply : Reply n a) :
    Complies s₀ p m s (t.sendReply p n a) :=
  hrun.trans ((h.runs hrun hm).reply hreply)

/-- A client leaves a channel of its own accord, or by the power of the one whose
line is handled. -/
theorem leaveChannel (h : Turn s₀ p s) (hreg : (s₀.deref p).registered = true)
    (hch : s.findChannel name = some ch)
    (hq : q = p ∨ s₀.isOperator ch p = true) (htext : Speech .acting text) :
    Complies s₀ p .acting s (s.leaveChannel q ch name text) := by
  rw [leaveChannel_eq hch]
  have hcast := h.broadcast (m := .acting) (c := ch) (x := none) (by decide) hreg htext
  refine hcast.trans (Complies.op (.leave _ ch) ⟨by decide, hreg, hq.imp_left ?_⟩ trivial)
  rintro rfl
  exact (h.runs hcast (by decide)).fd

/-! ### JOIN -/

end Turn

/-- The chunks of a list of nicknames are one line each. -/
theorem Inv.oneLine_getNamesChunks (h : s.Inv) (budget : ℕ) {chunk : Str}
    (hc : chunk ∈ s.getNamesChunks ch budget) : OneLine chunk := by
  have hfold : ∀ (es : List (Fd × ClientId)) (acc : List Str × Str),
      (∀ c ∈ acc.1, OneLine c) → OneLine acc.2 →
      let r := es.foldl (fun (acc : List Str × Str) e =>
        let entry := (if (s.channel ch).isOperator e.1 then str "@" else []) ++ (s.deref e.2).nickname
        let acc :=
          if acc.2 ≠ [] ∧ acc.2.length + 1 + entry.length > budget then (acc.1 ++ [acc.2], [])
          else acc
        (acc.1, (if acc.2 ≠ [] then acc.2 ++ str " " else acc.2) ++ entry)) acc
      (∀ c ∈ r.1, OneLine c) ∧ OneLine r.2 := by
    intro es
    induction es with
    | nil => exact fun acc h₁ h₂ => ⟨h₁, h₂⟩
    | cons e es ih =>
      intro acc h₁ h₂
      have hentry : OneLine ((if (s.channel ch).isOperator e.1 then str "@" else []) ++
          (s.deref e.2).nickname) := by
        split_ifs <;> simp (disch := decide) [h.nickname e.2]
      rw [List.foldl_cons]
      dsimp only
      generalize (if (s.channel ch).isOperator e.1 then str "@" else []) ++ (s.deref e.2).nickname =
        entry at hentry ⊢
      refine ih _ ?_ ?_ <;> dsimp only
      · split_ifs
        · simp only [List.mem_append, List.mem_singleton]
          rintro c (hc | rfl)
          · exact h₁ c hc
          · exact h₂
        · exact h₁
      · have hspace : OneLine (str " ") := by decide
        split_ifs <;> simp only [OneLine.append_iff, OneLine.nil, h₂, hentry, hspace, and_self]
  obtain ⟨hr₁, hr₂⟩ := hfold (s.channel ch).members.entries ([], []) (by simp) OneLine.nil
  rw [getNamesChunks] at hc
  dsimp only at hc
  split_ifs at hc with h₁ h₂ h₂
  · rw [List.mem_singleton] at hc
    exact hc ▸ OneLine.nil
  · rcases List.mem_append.mp hc with hc | hc
    · exact hr₁ chunk hc
    · rw [List.mem_singleton] at hc
      exact hc ▸ hr₂
  · rw [List.mem_singleton] at hc
    exact hc ▸ OneLine.nil
  · exact hr₁ chunk hc

namespace Turn

theorem joinReplies (h : Turn s₀ p s) (hm : m ≠ .leaving) (hname : OneLine name) :
    Complies s₀ p m s (s.joinReplies p ch name) := by
  obtain ⟨-, htopic, hsetter, -⟩ := h.inv.channelText ch
  obtain ⟨hmodes, hparams⟩ := h.inv.channelModes ch
  have hfirst : Complies s₀ p m s
      (if (s.channel ch).topic ≠ [] then
        (s.sendReply p "332" (name ++ str " :" ++ (s.channel ch).topic)).sendReply p "333"
          (name ++ str " " ++ (s.channel ch).topicSetter ++ str " " ++
            Libcpp.toDecimal (s.channel ch).topicTime)
      else s.sendReply p "331" (name ++ str " :No topic is set")) := by
    split_ifs
    · exact h.andReply hm (h.reply (by simp (disch := decide) [hname, htopic])) (by
        simp (disch := decide) [hname, hsetter])
    · exact h.reply (by simp (disch := decide) [hname])
  have hmode : Reply "324" (name ++ str " " ++ (s.channel ch).getModeString ++
      (if (s.channel ch).getModeParams ≠ [] then str " " ++ (s.channel ch).getModeParams
        else [])) := by
    split_ifs <;> simp (disch := decide) [hname, hmodes, hparams]
  rw [Server.joinReplies]
  refine h.andReply hm (h.andReply hm (h.andReply hm (hfirst.trans ?_) (by simp (disch := decide) [hname]))
    hmode) (by simp (disch := decide) [hname])
  have hturn := h.runs hfirst hm
  refine hturn.foldl hm _ fun u hu _ chunk hchunk => hu.reply ?_
  simp (disch := decide) [hname, hturn.inv.oneLine_getNamesChunks _ hchunk]

theorem announceJoin (h : Turn s₀ p s) (hm : m ≠ .leaving) (hreg : (s₀.deref p).registered = true)
    (hname : OneLine name) : Complies s₀ p m s (s.announceJoin p ch name) := by
  have hcast := h.broadcast (m := m) (c := ch) (x := none) hm hreg
    (w := str ":" ++ (s.deref p).getPrefix ++ str " JOIN " ++ (s.channel ch).name)
    (h.inv.speech p " JOIN " (by simp) (by decide)
      (by simp (disch := decide) [h.inv.getPrefix p, (h.inv.channelText ch).name]))
  exact hcast.trans ((h.runs hcast hm).joinReplies hm hname)

theorem joinOne (h : Turn s₀ p s) (hreg : (s₀.deref p).registered = true) {target : Str × Str}
    (hname : OneLine target.1) : Complies s₀ p .joining s (Server.joinOne p s target) := by
  rw [Server.joinOne]
  split_ifs with hvalid
  · exact h.reply (by simp (disch := decide) [hname])
  rcases hch : s.findChannel target.1 with _ | ch
  · have hcreate : Complies s₀ p .joining s (s.createChannel target.1 p) :=
      .op (.create p target.1) ⟨rfl, rfl, hreg⟩ 
        ⟨h.entitled hreg, hname, findChannel_eq_none hch, by simpa using hvalid⟩
    exact hcreate.trans ((h.runs hcreate (by decide)).announceJoin (by decide) hreg hname)
  · dsimp only
    split_ifs
    · exact .refl s
    · exact h.reply (by simp (disch := decide) [hname])
    · exact h.reply (by simp (disch := decide) [hname])
    · exact h.reply (by simp (disch := decide) [hname])
    · have hjoin := Complies.op (m := .joining) (.join p (s.deref p).fd ch)
        ⟨rfl, rfl, h.fd, hreg⟩ ⟨h.entitled hreg, (findChannel_eq_some hch).2⟩
      exact hjoin.trans ((h.runs hjoin (by decide)).announceJoin (by decide) hreg hname)

theorem partAllChannels (h : Turn s₀ p s) (hreg : (s₀.deref p).registered = true) :
    Complies s₀ p .acting s (s.partAllChannels p) := by
  refine h.foldl (by decide) _ fun u hu _ key _ => ?_
  rcases hch : u.findChannel key with _ | ch
  · exact .refl u
  · exact hu.leaveChannel hreg hch (Or.inl rfl) (hu.inv.speech p " PART " (by simp) (by decide)
      (by simp (disch := decide) [hu.inv.getPrefix p, (hu.inv.channelText ch).name]))

/-- **JOIN complies**: with a list it only adds, `JOIN 0` only takes away. -/
theorem cmdJoin (h : Turn s₀ p s) (hreg : (s₀.deref p).registered = true) (hmsg : msg.OneLine) :
    ∃ m : Manner, (m = .acting ∨ m = .joining) ∧ Complies s₀ p m s (s.cmdJoin p msg) := by
  rw [Server.cmdJoin]
  split_ifs
  · exact ⟨.acting, Or.inl rfl, h.reply (by decide)⟩
  · exact ⟨.acting, Or.inl rfl, h.partAllChannels hreg⟩
  · refine ⟨.joining, Or.inr rfl, h.foldl (by decide) _ fun u hu _ target ht => hu.joinOne hreg ?_⟩
    obtain ⟨e, he, rfl⟩ := List.mem_map.mp ht
    exact hmsg.list (List.fst_mem_of_mem_zipIdx he)

/-! ### PART -/

theorem partOne (h : Turn s₀ p s) (hreg : (s₀.deref p).registered = true) {reason : Str}
    (hname : OneLine name) (hreason : OneLine reason) :
    Complies s₀ p .acting s (Server.partOne p reason s name) := by
  rw [Server.partOne]
  rcases hch : s.findChannel name with _ | ch
  · exact h.reply (by simp (disch := decide) [hname])
  · dsimp only
    split_ifs with hmem hr
    · exact h.reply (by simp (disch := decide) [hname])
    · exact h.leaveChannel hreg hch (Or.inl rfl) (h.inv.speech p " PART " (by simp) (by decide)
        (by simp (disch := decide) [h.inv.getPrefix p, (h.inv.channelText ch).name, hreason]))
    · exact h.leaveChannel hreg hch (Or.inl rfl) (h.inv.speech p " PART " (by simp) (by decide)
        (by simp (disch := decide) [h.inv.getPrefix p, (h.inv.channelText ch).name]))

theorem cmdPart (h : Turn s₀ p s) (hreg : (s₀.deref p).registered = true) (hmsg : msg.OneLine) :
    Complies s₀ p .acting s (s.cmdPart p msg) := by
  rw [Server.cmdPart]
  split_ifs
  · exact h.reply (by decide)
  · exact h.foldl (by decide) _ fun u hu _ target ht =>
      hu.partOne hreg (hmsg.list ht) (hmsg.field _)

end Turn

end Server

end FtIrc
