import FtIrc.Server.Preservation

/-!
# The names and the tables

The three invariants about what stands under which name: the clients, whose names
are short words; the channels, each under the lower-case form of its own name and
none of them empty; the transfers, each under a number of its own. With them the
invariants of the server are complete, and every allowed operation keeps them all
(`FtIrc.Server.Inv.run`).
-/

namespace FtIrc

variable [Libcpp]

namespace Server

variable {s t : Server} {p q : ClientId} {fd : Fd} {ch : ChannelRef} {chan : Channel}

/-! ### Names -/

omit [Libcpp] in
/-- A valid nickname is a word. -/
theorem isWord_of_isValidNickname {nick : Str} (h : isValidNickname nick = true) : IsWord nick := by
  rcases nick with _ | ⟨first, rest⟩
  · exact absurd h Bool.false_ne_true
  obtain ⟨hfirst, hrest⟩ := (Bool.and_eq_true _ _).mp h
  refine IsWord.cons_iff.mpr ⟨?_, fun c hc => ?_⟩
  · rintro rfl
    exact absurd hfirst (by decide)
  · rintro rfl
    exact absurd (List.all_eq_true.mp hrest _ hc) (by decide)

omit [Libcpp] in
/-- A valid username is a word. -/
theorem isWord_of_isValidUsername {user : Str} (h : isValidUsername user = true) : IsWord user := by
  rintro c hc rfl
  exact absurd (List.all_eq_true.mp ((Bool.and_eq_true _ _).mp h).2 _ hc) (by decide)

theorem Names.run {op : Op} (h : s.Names) (ht : s.Table) (ho : op.Allowed s) :
    (op.run s).Names := by
  refine forall_client_run ht ho h (fun q f hf c hc hP => ?_) ?_
  · cases op <;> simp only [Op.edit, Option.some.injEq, Prod.mk.injEq, reduceCtorEq] at hf <;>
      obtain ⟨rfl, rfl⟩ := hf
    case nick p n => exact ⟨⟨isWord_of_isValidNickname ho.1, ho.2.1⟩, hP.2, hP.3⟩
    case user p name mode real =>
      obtain ⟨i, w, hbits⟩ := applyUserModeBitmask_eq mode { c with username := name }
      beta_reduce
      rw [hbits]
      exact ⟨hP.1, ⟨isWord_of_isValidUsername ho.2.2.1, ho.2.2.2⟩, hP.3⟩
    case userMode p flag b => cases flag <;> exact ⟨hP.1, hP.2, hP.3⟩
    all_goals exact ⟨hP.1, hP.2, hP.3⟩
  · rintro fd hostname rfl
    have hnick : IsWord (str "*") ∧ (str "*").length ≤ MAX_NICKLEN := by decide
    exact ⟨hnick, ⟨.nil, Nat.zero_le _⟩, ho.2.2.1⟩

/-! ### Channels -/

/-- A channel somebody left has members, if it is there at all. -/
theorem inhabited_dropMember (h : (s.dropMember fd ch).channels.get? ch = some chan) :
    ∃ fd p, chan.members.get? fd = some p := by
  rw [dropMember] at h
  split_ifs at h with hempty
  · exact absurd ((OrdMap.get?_erase_self _ _).symm.trans h) (by simp)
  · rw [channel_of_get? h, Channel.isEmpty] at hempty
    by_contra hno
    push Not at hno
    exact hempty (OrdMap.isEmpty_iff.mpr fun fd => Option.eq_none_iff_forall_ne_some.mpr (hno fd))

theorem ChannelTable.run {op : Op} (h : s.ChannelTable) (ho : op.Allowed s) :
    (op.run s).ChannelTable := by
  intro ch chan hchan
  rcases get?_channels_run hchan with ⟨old, hold, ⟨f, hf, rfl⟩ | ⟨-, rfl⟩⟩ | ⟨p, name, rfl, rfl, rfl⟩
  · have hP := h ch old hold
    cases op <;> simp only [Op.editChannel, Option.some.injEq, Prod.mk.injEq, reduceCtorEq] at hf <;>
      obtain ⟨rfl, rfl⟩ := hf
    case join p fd ch => exact { hP with inhabited := ⟨fd, p, OrdMap.get?_insert_self _ _ _⟩ }
    case leave fd ch => exact { hP with inhabited := inhabited_dropMember hchan }
    case setting ch set =>
      cases set with
      | key k => exact { hP with key := ho.2 }
      | userLimit n => exact { hP with userLimit := ho.2 }
      | _ => exact ⟨hP.1, hP.2, hP.3, hP.4, hP.5⟩
    all_goals exact ⟨hP.1, hP.2, hP.3, hP.4, hP.5⟩
  · exact h ch chan hold
  · exact ⟨⟨_, p, OrdMap.get?_insert_self _ _ _⟩, rfl, ho.2.2.2, (by decide : (0 : ℤ) ≤ MAX_USERLIMIT), Or.inl rfl⟩

/-! ### Transfers -/

omit [Libcpp] in
theorem TransferSound.advances {tr tr' : Transfer} (h : TransferSound tr) (ha : tr.Advances tr') :
    TransferSound tr' where
  parties := by
    rw [ha.senderFd, ha.recipientFd]
    exact h.parties
  pos := ha.declaredSize ▸ h.pos
  le := ha.declaredSize ▸ h.le
  relayed := by
    rw [ha.declaredSize]
    rcases ha.relayed with heq | ⟨-, -, hle⟩
    · exact heq ▸ h.relayed
    · exact hle
  accepted hpos := by
    rcases ha.relayed with heq | ⟨hacc, -⟩
    · exact ha.accepted (h.accepted (heq ▸ hpos))
    · exact ha.accepted hacc

omit [Libcpp] in
theorem TransferSound.fresh {tr : Transfer} (h : tr.Fresh) : TransferSound tr where
  parties := h.parties
  pos := h.pos
  le := h.le
  relayed := by simp [h.relayed]
  accepted hpos := absurd hpos (by simp [h.relayed])

/-- The number of the next transfer is not taken back. -/
theorem nextId_run (op : Op) :
    (op.run s).files.nextId = s.files.nextId ∨
      (∃ tr, op = .offer tr) ∧ (op.run s).files.nextId = s.files.nextId + 1 := by
  cases op with
  | offer tr => exact Or.inr ⟨⟨tr, rfl⟩, rfl⟩
  | leave fd ch =>
    rw [Op.run, dropMember]
    split_ifs <;> exact Or.inl rfl
  | expel p fd => rw [Op.run, finalizeDisconnect]; split <;> exact Or.inl rfl
  | finalize p fd => rw [Op.run, finalizeDisconnect]; split <;> exact Or.inl rfl
  | accept fd hostname =>
    rw [Op.run, acceptClient]
    split_ifs <;> exact Or.inl rfl
  | _ => exact Or.inl rfl

theorem TransferTable.run {op : Op} (h : s.TransferTable) (ho : op.Allowed s) :
    (op.run s).TransferTable := by
  have hnext : s.files.nextId ≤ (op.run s).files.nextId := by
    rcases nextId_run (s := s) op with heq | ⟨-, heq⟩ <;> omega
  refine ⟨fun id tr htr => ?_, h.next.trans hnext, fun id tr htr => ?_,
    fun id id' tr tr' htr htr' hs hr => ?_⟩
  · rcases get?_transfers_run ho htr with ⟨old, hold, hadv⟩ | ⟨-, rfl⟩
    · exact (h.sound id old hold).advances hadv
    · exact .fresh ho.2.2.2.1
  · rcases get?_transfers_run ho htr with ⟨old, hold, -⟩ | ⟨rfl, rfl⟩
    · exact ⟨(h.below id old hold).1, (h.below id old hold).2.trans_le hnext⟩
    · exact ⟨h.next, Int.lt_succ _⟩
  · rcases get?_transfers_run ho htr with ⟨old, hold, hadv⟩ | ⟨rfl, rfl⟩ <;>
      rcases get?_transfers_run ho htr' with ⟨old', hold', hadv'⟩ | ⟨rfl, hop⟩
    · rw [hadv.senderFd, hadv'.senderFd] at hs
      rw [hadv.recipientFd, hadv'.recipientFd] at hr
      exact h.unique id id' old old' hold hold' hs hr
    · subst hop
      rw [hadv.senderFd] at hs
      rw [hadv.recipientFd] at hr
      exact absurd ⟨hs, hr⟩ (ho.2.2.2.2 id old hold)
    · rw [hadv'.senderFd] at hs
      rw [hadv'.recipientFd] at hr
      exact absurd ⟨hs.symm, hr.symm⟩ (ho.2.2.2.2 id' old' hold')
    · rfl

/-! ### All of them -/

/-- **Every allowed operation keeps the invariants.** -/
theorem Inv.run {op : Op} (h : s.Inv) (ho : op.Allowed s) : (op.run s).Inv where
  table := h.table.run ho
  authority := h.authority.run h.settled h.table ho
  gate := h.gate.run h.table ho
  nicks := h.nicks.run h.table ho
  texts := h.texts.run h.table ho
  names := h.names.run h.table ho
  channelTable := h.channelTable.run ho
  transferTable := h.transferTable.run ho
  settled := h.settled.run h.table ho
  announced := h.announced.run h.table ho
  chronicle := h.chronicle.run h.settled h.table ho

/-- **A sequence of allowed operations keeps the invariants.** -/
theorem Inv.runs {P : Op → Prop} (h : s.Inv) (hrun : serverMachine.Runs P s t) : t.Inv :=
  hrun.invariant (fun _ _ _ ho hi => hi.run ho) h

end Server

end FtIrc
