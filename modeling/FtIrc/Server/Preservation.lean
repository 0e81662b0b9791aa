import FtIrc.Server.Invariant

/-!
# Every allowed operation keeps the invariants

One lemma per invariant, each by cases on the operation, and
`FtIrc.Server.Inv.run`, which puts them together.
-/

namespace FtIrc

variable [Libcpp]

namespace Server

variable {s t : Server} {p q : ClientId} {fd fd' : Fd} {f : Client → Client}

/-! ### Who is entitled -/

theorem Entitled.live (h : s.Entitled fd q) (ht : s.Table) : s.Live q :=
  ⟨(ht.fd_eq h.1).symm ▸ h.1, h.2.2⟩

/-! ### Authority -/

/-- The sets of a channel stay safe while the entitled stay entitled. -/
theorem ChannelSafe.mono {chan : Channel} (h : s.ChannelSafe chan)
    (hE : ∀ fd p, s.Entitled fd p → t.Entitled fd p) : t.ChannelSafe chan :=
  ⟨fun fd p hp => hE _ _ (h.member fd p hp), h.operator,
    fun fd hfd => (h.invited fd hfd).imp (hE fd), h.uninvited⟩

namespace Authority

/-- A descriptor that nobody is entitled to stands in no set. -/
theorem unlisted (h : s.Authority) (hno : ∀ p, ¬s.Entitled fd p) : s.Unlisted fd := by
  refine ⟨fun ch chan hchan => ?_, fun ch chan hchan hinv => ?_, fun id t ht => ⟨?_, ?_⟩⟩
  · rcases hm : chan.members.get? fd with _ | p
    · rfl
    · exact absurd ((h.channel ch chan hchan).member fd p hm) (hno p)
  · obtain ⟨p, hp⟩ := (h.channel ch chan hchan).invited fd hinv
    exact hno p hp
  · rintro rfl
    obtain ⟨⟨p, hp⟩, -⟩ := h.transfer id t ht
    exact hno p hp
  · rintro rfl
    obtain ⟨-, q, hq⟩ := h.transfer id t ht
    exact hno q hq

/-- **An unlisted descriptor may go**, as long as the others stay entitled. -/
theorem without (h : s.Authority) (hU : s.Unlisted fd)
    (hE : ∀ fd' p, s.Entitled fd' p → fd' ≠ fd → t.Entitled fd' p)
    (hch : t.channels = s.channels) (hfiles : t.files.transfers = s.files.transfers) :
    t.Authority := by
  refine ⟨fun ch chan hchan => ?_, fun id tr htr => ?_⟩
  · rw [hch] at hchan
    have hsafe := h.channel ch chan hchan
    refine ⟨fun fd' p hp => hE _ _ (hsafe.member fd' p hp) ?_, hsafe.operator,
      fun fd' hfd' => (hsafe.invited fd' hfd').imp fun p hp => hE _ _ hp ?_, hsafe.uninvited⟩
    · rintro rfl
      rw [hU.member ch chan hchan] at hp
      exact absurd hp (by simp)
    · rintro rfl
      exact hU.invited ch chan hchan hfd'
  · rw [hfiles] at htr
    obtain ⟨hne, hne'⟩ := hU.transfer id tr htr
    obtain ⟨hs, hr⟩ := h.transfer id tr htr
    exact ⟨hs.imp fun p hp => hE _ _ hp hne, hr.imp fun q hq => hE _ _ hq hne'⟩

end Authority

/-! ### The sets of a channel -/

namespace ChannelSafe

variable {chan : Channel}

theorem join (h : s.ChannelSafe chan) (hE : s.Entitled fd p) :
    s.ChannelSafe ((chan.addMember fd p).removeInvite fd) := by
  have hget : ∀ fd', (chan.addMember fd p).members.get? fd' =
      if fd = fd' then some p else chan.members.get? fd' := fun fd' => OrdMap.get?_insert _ _ _ _
  refine ⟨fun fd' q hq => ?_, fun fd' hfd' => ?_, fun fd' hfd' => ?_, fun fd' q hq hinv => ?_⟩
  · have hq' := (hget fd').symm.trans hq
    split_ifs at hq' with heq
    · rw [Option.some.injEq] at hq'
      exact heq ▸ hq' ▸ hE
    · exact h.member fd' q hq'
  · obtain ⟨q, hq⟩ := h.operator fd' hfd'
    by_cases heq : fd = fd'
    · exact ⟨p, (hget fd').trans (if_pos heq)⟩
    · exact ⟨q, ((hget fd').trans (if_neg heq)).trans hq⟩
  · exact h.invited fd' (Finset.mem_of_mem_erase hfd')
  · obtain ⟨hne, hinv'⟩ := Finset.mem_erase.mp hinv
    have hq' := (hget fd').symm.trans hq
    rw [if_neg hne.symm] at hq'
    exact h.uninvited fd' q hq' hinv'

theorem removeMember (h : s.ChannelSafe chan) : s.ChannelSafe (chan.removeMember fd) := by
  have hget : ∀ fd', (chan.removeMember fd).members.get? fd' =
      if fd = fd' then none else chan.members.get? fd' := fun fd' => OrdMap.get?_erase _ _ _
  have hold : ∀ fd' q, (chan.removeMember fd).members.get? fd' = some q →
      chan.members.get? fd' = some q := fun fd' q hq => by
    rw [hget] at hq
    split_ifs at hq
    exact hq
  refine ⟨fun fd' q hq => h.member fd' q (hold fd' q hq), fun fd' hfd' => ?_, h.invited,
    fun fd' q hq => h.uninvited fd' q (hold fd' q hq)⟩
  obtain ⟨hne, hop⟩ := Finset.mem_erase.mp hfd'
  obtain ⟨q, hq⟩ := h.operator fd' hop
  exact ⟨q, ((hget fd').trans (if_neg hne.symm)).trans hq⟩

theorem removeInvite (h : s.ChannelSafe chan) : s.ChannelSafe (chan.removeInvite fd) :=
  ⟨h.member, h.operator, fun fd' hfd' => h.invited fd' (Finset.mem_of_mem_erase hfd'),
    fun fd' q hq hinv => h.uninvited fd' q hq (Finset.mem_of_mem_erase hinv)⟩

theorem addInvite (h : s.ChannelSafe chan) (hE : ∃ p, s.Entitled fd p)
    (hnot : chan.members.get? fd = none) : s.ChannelSafe (chan.addInvite fd) := by
  refine ⟨h.member, h.operator, fun fd' hfd' => ?_, fun fd' q hq hinv => ?_⟩
  · rcases Finset.mem_insert.mp hfd' with rfl | hfd'
    · exact hE
    · exact h.invited fd' hfd'
  · rcases Finset.mem_insert.mp hinv with rfl | hinv
    · have hq' : chan.members.get? fd' = some q := hq
      rw [hnot] at hq'
      exact absurd hq' (by simp)
    · exact h.uninvited fd' q hq hinv

theorem setOperator (h : s.ChannelSafe chan) {b : Bool}
    (hmem : b = true → ∃ p, chan.members.get? fd = some p) :
    s.ChannelSafe (chan.setOperator fd b) := by
  refine ⟨h.member, fun fd' hfd' => ?_, h.invited, h.uninvited⟩
  rcases b with _ | _
  · exact h.operator fd' (Finset.mem_of_mem_erase hfd')
  · rcases Finset.mem_insert.mp hfd' with rfl | hfd'
    · exact hmem rfl
    · exact h.operator fd' hfd'

/-- Settings and topics are none of the sets. -/
theorem of_sets_eq (h : s.ChannelSafe chan) {chan' : Channel} (hm : chan'.members = chan.members)
    (ho : chan'.operators = chan.operators) (hi : chan'.inviteList = chan.inviteList) :
    s.ChannelSafe chan' :=
  ⟨hm ▸ h.member, by rw [hm, ho]; exact h.operator, hi ▸ h.invited,
    by rw [hm, hi]; exact h.uninvited⟩

/-- A new channel, its creator the only member and operator. -/
theorem new {name : Str} {now : Time} (hE : s.Entitled fd p) :
    s.ChannelSafe (Channel.new name fd p now) := by
  refine ⟨fun fd' q hq => ?_, fun fd' hfd' => ?_, fun fd' hfd' => absurd hfd' (by simp [Channel.new,
    Channel.setOperator, Channel.addMember]), fun fd' q hq => by simp [Channel.new,
    Channel.setOperator, Channel.addMember]⟩
  · have hq' : (OrdMap.empty.insert fd p : OrdMap Fd ClientId).get? fd' = some q := hq
    rw [OrdMap.get?_insert, OrdMap.get?_empty] at hq'
    split_ifs at hq' with heq
    rw [Option.some.injEq] at hq'
    exact heq ▸ hq' ▸ hE
  · have hfd'' : fd' ∈ insert fd (∅ : Finset Fd) := hfd'
    rw [Finset.mem_insert] at hfd''
    rcases hfd'' with rfl | hcon
    · exact ⟨p, OrdMap.get?_insert_self _ _ _⟩
    · exact absurd hcon (by simp)

end ChannelSafe

/-! ### What an operation does to the clients -/

/-- **Every client after an operation** is one from before, rewritten if it is the
one the operation writes to, or the one just accepted. -/
theorem get?_run {op : Op} (ht : s.Table) (ho : op.Allowed s) {c : Client}
    (h : (op.run s).heap.get? q = some c) :
    (∃ d, s.heap.get? q = some d ∧
      ((∃ f, op.edit s = some (q, f) ∧ c = f d) ∨ ((∀ f, op.edit s ≠ some (q, f)) ∧ c = d))) ∨
    ∃ fd hostname, op = .accept fd hostname ∧ q = s.nextClient ∧
      c = Client.new fd hostname s.clock := by
  have hupdate : ∀ {p f}, op.edit s = some (p, f) → (s.update p f).heap.get? q = some c →
      ∃ d, s.heap.get? q = some d ∧
        ((∃ f, op.edit s = some (q, f) ∧ c = f d) ∨ ((∀ f, op.edit s ≠ some (q, f)) ∧ c = d)) := by
    intro p f hedit hc
    obtain ⟨d, hd, ⟨rfl, rfl⟩ | ⟨hne, rfl⟩⟩ := get?_update_eq_some hc
    · exact ⟨d, hd, Or.inl ⟨f, hedit, rfl⟩⟩
    · refine ⟨c, hd, Or.inr ⟨fun f' hf' => hne ?_, rfl⟩⟩
      rw [hedit, Option.some.injEq, Prod.mk.injEq] at hf'
      exact hf'.1.symm
  have hkept : op.edit s = none → s.heap.get? q = some c →
      ∃ d, s.heap.get? q = some d ∧
        ((∃ f, op.edit s = some (q, f) ∧ c = f d) ∨ ((∀ f, op.edit s ≠ some (q, f)) ∧ c = d)) :=
    fun hnone hc => ⟨c, hc, Or.inr ⟨fun f hf => by simp [hnone] at hf, rfl⟩⟩
  have herase : ∀ {p : ClientId} {h : OrdMap ClientId Client}, (h.erase p).get? q = some c →
      p ≠ q ∧ h.get? q = some c := fun {p h} hc => by
    rw [OrdMap.get?_erase] at hc
    split_ifs at hc with hpq
    exact ⟨hpq, hc⟩
  cases op with
  | send | pass | nick | user | register | userMode | heed | socket | transmit =>
    exact Or.inl (hupdate rfl h)
  | defer p =>
    have h' : ((s.update p fun c => { c with tearingDown := true }).update p fun c =>
        { c with pendingClose := true, pendingCloseSince := s.clock }).heap.get? q = some c := h
    rw [update_update] at h'
    exact Or.inl (hupdate rfl h')
  | leave fd ch =>
    refine Or.inl (hkept rfl ?_)
    rw [Op.run, dropMember] at h
    split_ifs at h
    · exact h
    · exact h
  | hear | create | join | uninvite | invite | topic | setting | operator | offer | progress | drop
  | joke | hangup | clock | pingCheck | interests => exact Or.inl (hkept rfl h)
  | expel p fd =>
    obtain ⟨hlive, rfl, -⟩ := ho
    rw [Op.run, finalizeDisconnect, show (s.markTornDown p).clients.get? (s.deref p).fd = some p
      from hlive.1] at h
    obtain ⟨hne, hc⟩ := herase h
    exact Or.inl (hkept rfl ((get?_update_of_ne hne.symm).symm.trans hc))
  | finalize p fd =>
    obtain ⟨hp, -⟩ := ho
    rw [Op.run, finalizeDisconnect, hp] at h
    exact Or.inl (hkept rfl (herase h).2)
  | accept fd hostname =>
    rw [Op.run, acceptClient] at h
    split_ifs at h
    · exact Or.inl (hkept rfl h)
    · have h' : (s.heap.insert s.nextClient (Client.new fd hostname s.clock)).get? q = some c := h
      rw [OrdMap.get?_insert] at h'
      split_ifs at h' with hn
      · exact Or.inr ⟨fd, hostname, rfl, hn.symm, (Option.some.inj h').symm⟩
      · exact Or.inl (hkept rfl h')

/-- What holds of every client, of a new one, and survives what the operation
writes, holds of every client afterwards. -/
theorem forall_client_run {P : Client → Prop} {op : Op} (ht : s.Table) (ho : op.Allowed s)
    (hs : ∀ q c, s.heap.get? q = some c → P c)
    (hedit : ∀ q f, op.edit s = some (q, f) → ∀ c, s.heap.get? q = some c → P c → P (f c))
    (hnew : ∀ fd hostname, op = .accept fd hostname → P (Client.new fd hostname s.clock)) :
    ∀ q c, (op.run s).heap.get? q = some c → P c := by
  intro q c hc
  rcases get?_run ht ho hc with ⟨d, hd, ⟨f, hf, rfl⟩ | ⟨-, rfl⟩⟩ | ⟨fd, hostname, hop, -, rfl⟩
  · exact hedit q f hf d hd (hs q d hd)
  · exact hs q c hd
  · exact hnew fd hostname hop

/-! ### The invariants of single clients -/

/-- The fields that are never written after the start. -/
theorem run_password (op : Op) (s : Server) :
    (op.run s).password = s.password ∧ (op.run s).pendingCloseTimeout = s.pendingCloseTimeout := by
  cases op with
  | leave fd ch => rw [Op.run, dropMember]; split_ifs <;> exact ⟨rfl, rfl⟩
  | accept fd hostname => rw [Op.run, acceptClient]; split_ifs <;> exact ⟨rfl, rfl⟩
  | expel p fd => rw [Op.run, finalizeDisconnect]; split <;> exact ⟨rfl, rfl⟩
  | finalize p fd => rw [Op.run, finalizeDisconnect]; split <;> exact ⟨rfl, rfl⟩
  | _ => exact ⟨rfl, rfl⟩

/-- The user mode bitmask touches no field but the two modes. -/
theorem applyUserModeBitmask_eq (param : Str) (c : Client) :
    ∃ i w, applyUserModeBitmask param c = { c with invisible := i, wallops := w } := by
  rw [applyUserModeBitmask]
  split
  · exact ⟨c.invisible, c.wallops, rfl⟩
  · split_ifs <;> exact ⟨_, _, rfl⟩

theorem Gate.run {op : Op} (h : s.Gate) (ht : s.Table) (ho : op.Allowed s) : (op.run s).Gate := by
  have hall : ∀ q c, (op.run s).heap.get? q = some c → s.PassedGate c := by
    refine forall_client_run ht ho h (fun q f hf c hc hP => ?_) fun fd hostname _ hreg =>
      absurd hreg Bool.false_ne_true
    cases op <;> simp only [Op.edit, Option.some.injEq, Prod.mk.injEq, reduceCtorEq] at hf <;>
      obtain ⟨rfl, rfl⟩ := hf
    case pass p pw =>
      intro hreg
      have hnot := ho.1
      rw [deref_of_get? hc] at hnot
      exact absurd (hnot.symm.trans hreg) Bool.false_ne_true
    case nick => exact fun hreg => ⟨(hP hreg).1, rfl, (hP hreg).2.2⟩
    case user p name mode real =>
      obtain ⟨i, w, hbits⟩ := applyUserModeBitmask_eq mode { c with username := name }
      beta_reduce
      rw [hbits]
      exact fun hreg => ⟨(hP hreg).1, (hP hreg).2.1, rfl, (hP hreg).2.2.2⟩
    case register =>
      obtain ⟨h₁, h₂, h₃, h₄⟩ := ho
      rw [deref_of_get? hc] at h₁ h₂ h₃ h₄
      exact fun _ => ⟨h₁, h₂, h₃, h₄⟩
    case userMode p flag b => cases flag <;> exact hP
    all_goals exact hP
  exact fun q c hc => by rw [PassedGate, (run_password op s).1]; exact hall q c hc

theorem Settled.run {op : Op} (h : s.Settled) (ht : s.Table) (ho : op.Allowed s) :
    (op.run s).Settled := by
  refine forall_client_run (P := fun c => c.pendingClose = c.tearingDown) ht ho h
    (fun q f hf c hc hP => ?_) fun fd hostname _ => rfl
  cases op <;> simp only [Op.edit, Option.some.injEq, Prod.mk.injEq, reduceCtorEq] at hf <;>
    obtain ⟨rfl, rfl⟩ := hf
  case user p name mode real =>
    obtain ⟨i, w, hbits⟩ := applyUserModeBitmask_eq mode { c with username := name }
    beta_reduce
    rw [hbits]
    exact hP
  case userMode p flag b => cases flag <;> exact hP
  case defer => rfl
  all_goals exact hP

/-- A valid nickname is one line. -/
theorem oneLine_of_isValidNickname {nick : Str} (h : isValidNickname nick = true) :
    OneLine nick := by
  have hletter : ∀ c : Octet, (isAlphaOctet c || isDigitOctet c || isNickPunctuation c ||
      c == 45) = true → LineOctet c := by
    intro c hc
    refine ⟨?_, ?_, ?_⟩ <;> rintro rfl <;> exact absurd hc (by decide)
  rcases nick with _ | ⟨first, rest⟩
  · exact OneLine.nil
  · obtain ⟨hfirst, hrest⟩ := (Bool.and_eq_true _ _).mp h
    refine OneLine.cons_iff.mpr ⟨hletter first ?_, fun c hc =>
      hletter c (List.all_eq_true.mp hrest c hc)⟩
    rw [Bool.or_eq_true] at hfirst ⊢
    rcases hfirst with hf | hf <;> simp [hf]

/-! ### Nicknames -/

/-- Only `NICK` gives a nickname: whoever has one afterwards had it before. -/
theorem nick_of_run {op : Op} (hop : ∀ p n, op ≠ .nick p n) (ht : s.Table) (ho : op.Allowed s)
    {c : Client} (hc : (op.run s).heap.get? q = some c) (hset : c.nickSet = true) :
    ∃ d, s.heap.get? q = some d ∧ d.nickSet = true ∧ d.nickname = c.nickname ∧
      (c.tearingDown = false → d.tearingDown = false) := by
  rcases get?_run ht ho hc with ⟨d, hd, ⟨f, hf, rfl⟩ | ⟨-, rfl⟩⟩ | ⟨fd, hostname, -, -, rfl⟩
  · refine ⟨d, hd, ?_⟩
    cases op <;> simp only [Op.edit, Option.some.injEq, Prod.mk.injEq, reduceCtorEq] at hf <;>
      obtain ⟨rfl, rfl⟩ := hf
    case nick p n => exact absurd rfl (hop p n)
    case user p name mode real =>
      obtain ⟨i, w, hbits⟩ := applyUserModeBitmask_eq mode { d with username := name }
      beta_reduce at hset ⊢
      rw [hbits] at hset ⊢
      exact ⟨hset, rfl, id⟩
    case userMode p flag b => cases flag <;> exact ⟨hset, rfl, id⟩
    case defer => exact ⟨hset, rfl, fun hcon => absurd hcon.symm Bool.false_ne_true⟩
    all_goals exact ⟨hset, rfl, id⟩
  · exact ⟨c, hd, hset, rfl, id⟩
  · exact absurd hset Bool.false_ne_true

theorem Nicks.run {op : Op} (h : s.Nicks) (ht : s.Table) (ho : op.Allowed s) :
    (op.run s).Nicks := by
  by_cases hop : ∀ p n, op ≠ .nick p n
  · refine ⟨fun q c hc hset => ?_, fun q r c d hc hd hne hct hdt hcs hds => ?_⟩
    · obtain ⟨c', hc', hset', hname, -⟩ := nick_of_run hop ht ho hc hset
      exact hname ▸ h.valid q c' hc' hset'
    · obtain ⟨c', hc', hcs', hcn, hct'⟩ := nick_of_run hop ht ho hc hcs
      obtain ⟨d', hd', hds', hdn, hdt'⟩ := nick_of_run hop ht ho hd hds
      rw [← hcn, ← hdn]
      exact h.unique q r c' d' hc' hd' hne (hct' hct) (hdt' hdt) hcs' hds'
  · push Not at hop
    obtain ⟨p, n, rfl⟩ := hop
    obtain ⟨hvalid, hlen, hres, hfree⟩ := ho
    have hget : ∀ {q c}, (Op.run (.nick p n) s).heap.get? q = some c →
        ∃ d, s.heap.get? q = some d ∧
          (q = p ∧ c = { d with nickname := n, nickSet := true } ∨ q ≠ p ∧ c = d) :=
      fun hc => get?_update_eq_some hc
    refine ⟨fun q c hc hset => ?_, fun q r c d hc hd hne hct hdt hcs hds => ?_⟩
    · obtain ⟨d, hd, ⟨-, rfl⟩ | ⟨-, rfl⟩⟩ := hget hc
      · exact ⟨hvalid, hlen, hres⟩
      · exact h.valid q c hd hset
    · obtain ⟨c', hc', ⟨rfl, rfl⟩ | ⟨hqp, rfl⟩⟩ := hget hc
      · obtain ⟨d', hd', ⟨rfl, -⟩ | ⟨hrq, rfl⟩⟩ := hget hd
        · exact absurd rfl hne
        · exact (hfree r d hd' hrq hdt).symm
      · obtain ⟨d', hd', ⟨rfl, rfl⟩ | ⟨-, rfl⟩⟩ := hget hd
        · exact hfree q c hc' hqp hct
        · exact h.unique q r c d hc' hd' hne hct hdt hcs hds

/-! ### What an operation does to the channels -/

/-- **Every channel after an operation** is one from before, rewritten if it is the
one the operation writes to, or the one just created. -/
theorem get?_channels_run {op : Op} {ch : ChannelRef} {chan : Channel}
    (h : (op.run s).channels.get? ch = some chan) :
    (∃ old, s.channels.get? ch = some old ∧
      ((∃ f, op.editChannel s = some (ch, f) ∧ chan = f old) ∨
        ((∀ f, op.editChannel s ≠ some (ch, f)) ∧ chan = old))) ∨
    ∃ p name, op = .create p name ∧ ch = Libcpp.asciiToLower name ∧
      chan = Channel.new name (s.deref p).fd p s.clock := by
  have hupdate : ∀ {ch' f}, op.editChannel s = some (ch', f) →
      (s.updateChannel ch' f).channels.get? ch = some chan →
      ∃ old, s.channels.get? ch = some old ∧
        ((∃ f, op.editChannel s = some (ch, f) ∧ chan = f old) ∨
          ((∀ f, op.editChannel s ≠ some (ch, f)) ∧ chan = old)) := by
    intro ch' f hedit hc
    obtain ⟨old, hold, ⟨rfl, rfl⟩ | ⟨hne, rfl⟩⟩ := get?_updateChannel_eq_some hc
    · exact ⟨old, hold, Or.inl ⟨f, hedit, rfl⟩⟩
    · refine ⟨chan, hold, Or.inr ⟨fun f' hf' => hne ?_, rfl⟩⟩
      rw [hedit, Option.some.injEq, Prod.mk.injEq] at hf'
      exact hf'.1.symm
  have hkept : op.editChannel s = none → s.channels.get? ch = some chan →
      ∃ old, s.channels.get? ch = some old ∧
        ((∃ f, op.editChannel s = some (ch, f) ∧ chan = f old) ∨
          ((∀ f, op.editChannel s ≠ some (ch, f)) ∧ chan = old)) :=
    fun hnone hc => ⟨chan, hc, Or.inr ⟨fun f hf => by simp [hnone] at hf, rfl⟩⟩
  cases op with
  | join | uninvite | invite | topic | setting | operator => exact Or.inl (hupdate rfl h)
  | leave fd ch' =>
    refine Or.inl (hupdate rfl ?_)
    rw [Op.run, dropMember] at h
    split_ifs at h
    · have h' : ((s.updateChannel ch' fun c => c.removeMember fd).channels.erase ch').get? ch =
          some chan := h
      rw [OrdMap.get?_erase] at h'
      split_ifs at h'
      exact h'
    · exact h
  | create p name =>
    have h' : (s.channels.insert (Libcpp.asciiToLower name)
      (Channel.new name (s.deref p).fd p s.clock)).get? ch = some chan := h
    by_cases hch : Libcpp.asciiToLower name = ch
    · subst hch
      rw [OrdMap.get?_insert_self, Option.some.injEq] at h'
      exact Or.inr ⟨p, name, rfl, rfl, h'.symm⟩
    · rw [OrdMap.get?_insert_of_ne _ _ hch] at h'
      exact Or.inl (hkept rfl h')
  | expel p fd =>
    refine Or.inl (hkept rfl ?_)
    rw [Op.run, finalizeDisconnect] at h
    split at h <;> exact h
  | finalize p fd =>
    refine Or.inl (hkept rfl ?_)
    rw [Op.run, finalizeDisconnect] at h
    split at h <;> exact h
  | accept fd hostname =>
    refine Or.inl (hkept rfl ?_)
    rw [Op.run, acceptClient] at h
    split_ifs at h <;> exact h
  | _ => exact Or.inl (hkept rfl h)

/-- **Every transfer after an operation** is one from before that may have advanced,
or the one just offered, under the next number. -/
theorem get?_transfers_run {op : Op} (ho : op.Allowed s) {id : ℤ} {tr : Transfer}
    (h : (op.run s).files.transfers.get? id = some tr) :
    (∃ old, s.files.transfers.get? id = some old ∧ old.Advances tr) ∨
      id = s.files.nextId ∧ op = .offer tr := by
  have hkept : s.files.transfers.get? id = some tr →
      ∃ old, s.files.transfers.get? id = some old ∧ old.Advances tr :=
    fun h => ⟨tr, h, .refl tr⟩
  cases op with
  | offer tr' =>
    have h' : (s.files.transfers.insert s.files.nextId tr').get? id = some tr := h
    rw [OrdMap.get?_insert] at h'
    split_ifs at h' with hid
    · rw [Option.some.injEq] at h'
      exact Or.inr ⟨hid.symm, h' ▸ rfl⟩
    · exact Or.inl (hkept h')
  | progress id' f =>
    have h' : (s.files.transfers.modify id' f).get? id = some tr := h
    rw [OrdMap.get?_modify, Option.map_eq_some_iff] at h'
    obtain ⟨old, hold, rfl⟩ := h'
    refine Or.inl ⟨old, hold, ?_⟩
    split_ifs with hid
    · exact ho old (hid ▸ hold)
    · exact .refl old
  | drop id' =>
    have h' : (s.files.transfers.erase id').get? id = some tr := h
    rw [OrdMap.get?_erase] at h'
    split_ifs at h'
    exact Or.inl (hkept h')
  | leave fd ch =>
    rw [Op.run, dropMember] at h
    split_ifs at h <;> exact Or.inl (hkept h)
  | expel p fd =>
    rw [Op.run, finalizeDisconnect] at h
    split at h <;> exact Or.inl (hkept h)
  | finalize p fd =>
    rw [Op.run, finalizeDisconnect] at h
    split at h <;> exact Or.inl (hkept h)
  | accept fd hostname =>
    rw [Op.run, acceptClient] at h
    split_ifs at h <;> exact Or.inl (hkept h)
  | _ => exact Or.inl (hkept h)

/-! ### The table of clients, operation by operation -/

theorem Table.markTornDown (h : s.Table) : (s.markTornDown p).Table :=
  (h.update (p := p) (f := fun c => { c with tearingDown := true }) fun _ => rfl).congr rfl rfl rfl

theorem Table.run {op : Op} (h : s.Table) (ho : op.Allowed s) : (op.run s).Table := by
  have hupdate : ∀ {p f}, (∀ c, (f c).fd = c.fd) → (s.update p f).Table := fun hf => h.update hf
  have hrecord : ∀ {p f e}, (∀ c, (f c).fd = c.fd) → ((s.update p f).record e).Table :=
    fun hf => (hupdate hf).congr rfl rfl rfl
  cases op with
  | pass | nick | heed | socket | register => exact hupdate fun _ => rfl
  | send | transmit => exact hrecord fun _ => rfl
  | user p name mode real =>
    refine hupdate fun c => ?_
    obtain ⟨i, w, hb⟩ := applyUserModeBitmask_eq mode { c with username := name }
    rw [hb]
  | userMode p flag b => cases flag <;> exact hupdate fun _ => rfl
  | leave fd ch =>
    rw [Op.run, dropMember]
    split_ifs <;> exact h.congr rfl rfl rfl
  | defer p =>
    exact ((h.markTornDown (p := p)).update (p := p)
      (f := fun c => { c with pendingClose := true, pendingCloseSince := s.clock })
      fun _ => rfl).congr rfl rfl rfl
  | expel p fd =>
    obtain ⟨hlive, rfl, -⟩ := ho
    exact h.markTornDown.finalizeDisconnect hlive.1
  | finalize p fd => exact h.finalizeDisconnect ho.1
  | accept fd hostname => exact h.accept ho.1
  | _ => exact h.congr rfl rfl rfl

/-! ### Authority, operation by operation -/

/-- A client evicted by an allowed operation stands in no set. -/
theorem Authority.unlisted_of_evicts {op : Op} (h : s.Authority) (hset : s.Settled) (ht : s.Table)
    (ho : op.Allowed s) (hev : op.evicts s = some fd) : s.Unlisted fd := by
  cases op <;> simp only [Op.evicts, Option.some.injEq, reduceCtorEq] at hev
  case defer p => exact hev ▸ ho.2
  case expel p fd' => exact hev ▸ ho.2.2.1
  case finalize p fd' =>
    subst hev
    obtain ⟨hp, hpc, -⟩ := ho
    refine h.unlisted fun q hq => ?_
    have hpq : p = q := Option.some.inj (hp.symm.trans hq.1)
    have := hset p _ (ht.get? hp)
    rw [hpc, hpq, hq.2.2] at this
    exact absurd this.symm Bool.false_ne_true

/-- Whoever is not evicted stays in the table. -/
theorem clients_run {op : Op} (ho : op.Allowed s) (hp : s.clients.get? fd = some q)
    (hev : op.evicts s ≠ some fd) : (op.run s).clients.get? fd = some q := by
  have hfinal : ∀ {t : Server} {fd'}, t.clients.get? fd = some q → fd' ≠ fd →
      (t.finalizeDisconnect fd').clients.get? fd = some q := fun {t fd'} ht hne => by
    rw [finalizeDisconnect]
    split
    · exact ht
    · exact (OrdMap.get?_erase_of_ne _ hne).trans ht
  cases op with
  | leave fd' ch =>
    rw [Op.run, dropMember]
    split_ifs <;> exact hp
  | accept fd' hostname =>
    rw [Op.run, acceptClient]
    split_ifs
    · exact hp
    · refine (OrdMap.get?_insert_of_ne _ _ fun hcon => ?_).trans hp
      rw [hcon, Op.Allowed, hp] at ho
      exact absurd ho.1 (by simp)
  | expel p fd' =>
    exact hfinal (t := s.markTornDown p) hp fun hcon => hev (by rw [Op.evicts, hcon])
  | finalize p fd' => exact hfinal hp fun hcon => hev (by rw [Op.evicts, hcon])
  | _ => exact hp

/-- **Whoever is not evicted** keeps its descriptor, stays registered and is not torn
down. -/
theorem deref_run {op : Op} (ht : s.Table) (ho : op.Allowed s) (hp : s.clients.get? fd = some q)
    (hev : op.evicts s ≠ some fd) :
    ((op.run s).deref q).fd = (s.deref q).fd ∧
      ((op.run s).deref q).tearingDown = (s.deref q).tearingDown ∧
        ((s.deref q).registered = true → ((op.run s).deref q).registered = true) := by
  have hget := (ht.run ho).get? (clients_run ho hp hev)
  have hfd := ht.fd_eq hp
  rcases get?_run ht ho hget with ⟨d, hd, hcases⟩ | ⟨fd', hostname, -, hq, -⟩
  · rw [deref_of_get? hd] at hfd ⊢
    rcases hcases with ⟨f, hf, hc⟩ | ⟨-, hc⟩
    · rw [hc]
      cases op <;> simp only [Op.edit, Option.some.injEq, Prod.mk.injEq, reduceCtorEq] at hf <;>
        obtain ⟨rfl, rfl⟩ := hf
      case user p name mode real =>
        obtain ⟨i, w, hbits⟩ := applyUserModeBitmask_eq mode { d with username := name }
        beta_reduce
        rw [hbits]
        exact ⟨rfl, rfl, id⟩
      case userMode p flag b => cases flag <;> exact ⟨rfl, rfl, id⟩
      case register => exact ⟨rfl, rfl, fun _ => rfl⟩
      case defer => exact absurd (by rw [Op.evicts, deref_of_get? hd, hfd]) hev
      all_goals exact ⟨rfl, rfl, id⟩
    · rw [hc]
      exact ⟨rfl, rfl, id⟩
  · exact absurd (hq ▸ ht.heap_lt q _ (ht.get? hp)) (lt_irrefl _)

/-- A send queue that overflowed stays so for as long as the client is there. -/
theorem overflowed_run {op : Op} (ht : s.Table) (ho : op.Allowed s) {c : Client}
    (hc : (op.run s).heap.get? q = some c) (hov : Libcpp.overflowed (s.deref q).io = true) :
    Libcpp.overflowed c.io = true := by
  rcases get?_run ht ho hc with ⟨d, hd, ⟨f, hf, rfl⟩ | ⟨-, rfl⟩⟩ | ⟨fd, hostname, rfl, rfl, rfl⟩
  · rw [deref_of_get? hd] at hov
    cases op <;> simp only [Op.edit, Option.some.injEq, Prod.mk.injEq, reduceCtorEq] at hf <;>
      obtain ⟨rfl, rfl⟩ := hf
    case send q msg => exact Libcpp.overflowed_queue _ hov
    case user p name mode real =>
      obtain ⟨i, w, hbits⟩ := applyUserModeBitmask_eq mode { d with username := name }
      beta_reduce
      rw [hbits]
      exact hov
    case userMode p flag b => cases flag <;> exact hov
    case socket p io => exact ho.2.trans (deref_of_get? hd ▸ hov)
    case transmit p n => exact (Libcpp.overflowed_consume _ _).trans hov
    all_goals exact hov
  · exact deref_of_get? hd ▸ hov
  · rcases hnone : s.heap.get? s.nextClient with _ | d
    · rw [deref_of_none hnone] at hov
      have hnew : Libcpp.overflowed (default : Client).io = false := Libcpp.overflowed_new _ _
      exact absurd (hnew.symm.trans hov) Bool.false_ne_true
    · exact absurd (ht.heap_lt _ d hnone) (lt_irrefl _)

theorem Entitled.run {op : Op} (h : s.Entitled fd q) (ht : s.Table) (ho : op.Allowed s)
    (hev : op.evicts s ≠ some fd) : (op.run s).Entitled fd q := by
  obtain ⟨-, htd, hreg⟩ := deref_run ht ho h.1 hev
  exact ⟨clients_run ho h.1 hev, hreg h.2.1, htd.trans h.2.2⟩

theorem Live.run {op : Op} (h : s.Live q) (ht : s.Table) (ho : op.Allowed s)
    (hev : op.evicts s ≠ some (s.deref q).fd) : (op.run s).Live q := by
  obtain ⟨hfd, htd, -⟩ := deref_run ht ho h.1 hev
  exact ⟨hfd.symm ▸ clients_run ho h.1 hev, htd.trans h.2⟩

theorem Authority.run {op : Op} (h : s.Authority) (hset : s.Settled) (ht : s.Table)
    (ho : op.Allowed s) : (op.run s).Authority := by
  rcases hev : op.evicts s with _ | fd
  · have hE : ∀ fd p, s.Entitled fd p → (op.run s).Entitled fd p := fun fd p hp =>
      hp.run ht ho (by rw [hev]; simp)
    refine ⟨fun ch chan hchan => ChannelSafe.mono (s := s) ?_ hE, fun id tr htr => ?_⟩
    · rcases get?_channels_run hchan with ⟨old, hold, ⟨f, hf, rfl⟩ | ⟨-, rfl⟩⟩ | ⟨p, name, rfl, -, rfl⟩
      · have hsafe := h.channel ch old hold
        cases op <;> simp only [Op.editChannel, Option.some.injEq, Prod.mk.injEq, reduceCtorEq] at hf <;>
          obtain ⟨rfl, rfl⟩ := hf
        case join p fd ch => exact hsafe.join ho.1
        case leave fd ch => exact hsafe.removeMember
        case uninvite fd ch => exact hsafe.removeInvite
        case invite fd ch =>
          exact hsafe.addInvite ho.1 (channel_of_get? hold ▸ ho.2)
        case topic => exact hsafe.of_sets_eq rfl rfl rfl
        case setting ch set => cases set <;> exact hsafe.of_sets_eq rfl rfl rfl
        case operator fd ch b => exact hsafe.setOperator (channel_of_get? hold ▸ ho)
      · exact h.channel ch chan hold
      · exact ChannelSafe.new ho.1
    · rcases get?_transfers_run ho htr with ⟨old, hold, hadv⟩ | ⟨-, rfl⟩
      · rw [hadv.senderFd, hadv.recipientFd]
        exact ⟨(h.transfer id old hold).1.imp (hE _), (h.transfer id old hold).2.imp (hE _)⟩
      · exact ⟨ho.1.imp (hE _), ho.2.1.imp (hE _)⟩
  · refine h.without (h.unlisted_of_evicts hset ht ho hev) (fun fd' p hp hne => hp.run ht ho ?_) ?_ ?_
    · rw [hev]
      exact fun hcon => hne (Option.some.inj hcon).symm
    · cases op <;> simp only [Op.evicts, reduceCtorEq] at hev
      · rfl
      · rw [Op.run, finalizeDisconnect]; split <;> rfl
      · rw [Op.run, finalizeDisconnect]; split <;> rfl
    · cases op <;> simp only [Op.evicts, reduceCtorEq] at hev
      · rfl
      · rw [Op.run, finalizeDisconnect]; split <;> rfl
      · rw [Op.run, finalizeDisconnect]; split <;> rfl

/-! ### Texts -/

theorem ClientText.new {hostname : Str} {now : Time} (h : OneLine hostname) :
    ClientText (Client.new fd hostname now) :=
  ⟨(by decide : OneLine (str "*")), OneLine.nil, OneLine.nil, h⟩

omit [Libcpp] in
theorem ChannelText.new {name : Str} {now : Time} (h : OneLine name) :
    ChannelText (Channel.new name fd p now) :=
  ⟨h, OneLine.nil, OneLine.nil, OneLine.nil⟩

/-- An operation records nothing, or one event, or the two or three of the end of a
session; only sending records a payload. -/
theorem outbound_of_mem_trace_run {op : Op} {wire : Str}
    (h : Event.outbound p wire ∈ (op.run s).trace) :
    Event.outbound p wire ∈ s.trace ∨ ∃ msg, op = .send p msg ∧ wire = FtIrc.wire msg := by
  cases op with
  | send q msg =>
    rcases List.mem_cons.mp h with heq | h
    · rw [Event.outbound.injEq] at heq
      obtain ⟨rfl, rfl⟩ := heq
      exact Or.inr ⟨msg, rfl, rfl⟩
    · exact Or.inl h
  | hear | transmit | hangup =>
    exact Or.inl (List.mem_of_ne_of_mem (by simp) h)
  | defer q =>
    exact Or.inl (List.mem_of_ne_of_mem (by simp) (List.mem_of_ne_of_mem (by simp) h))
  | leave fd ch =>
    rw [Op.run, dropMember] at h
    split_ifs at h <;> exact Or.inl h
  | expel q fd =>
    rw [Op.run, finalizeDisconnect] at h
    split at h
    · exact Or.inl (List.mem_of_ne_of_mem (by simp) h)
    · exact Or.inl (List.mem_of_ne_of_mem (by simp) (List.mem_of_ne_of_mem (by simp) h))
  | finalize q fd =>
    rw [Op.run, finalizeDisconnect] at h
    split at h
    · exact Or.inl h
    · exact Or.inl (List.mem_of_ne_of_mem (by simp) h)
  | accept fd hostname =>
    rw [Op.run, acceptClient] at h
    split_ifs at h <;> exact Or.inl h
  | _ => exact Or.inl h

/-- Nothing is ever struck from the record. -/
theorem mem_trace_run {op : Op} {e : Event} (h : e ∈ s.trace) : e ∈ (op.run s).trace := by
  have hfinal : ∀ {t : Server} {fd}, e ∈ t.trace → e ∈ (t.finalizeDisconnect fd).trace := by
    intro t fd ht
    rw [finalizeDisconnect]
    split
    · exact ht
    · exact List.mem_cons_of_mem _ ht
  cases op with
  | send | hear | transmit | hangup => exact List.mem_cons_of_mem _ h
  | defer => exact List.mem_cons_of_mem _ (List.mem_cons_of_mem _ h)
  | leave fd ch =>
    rw [Op.run, dropMember]
    split_ifs <;> exact h
  | expel p fd => exact hfinal (t := s.markTornDown p) (List.mem_cons_of_mem _ h)
  | finalize p fd => exact hfinal h
  | accept fd hostname =>
    rw [Op.run, acceptClient]
    split_ifs <;> exact h
  | _ => exact h

/-- A client becomes one whose close is pending where that is recorded. -/
theorem Announced.run {op : Op} (h : s.Announced) (ht : s.Table) (ho : op.Allowed s) :
    (op.run s).Announced := by
  intro q c hc hpc
  rcases get?_run ht ho hc with ⟨d, hd, ⟨f, hf, rfl⟩ | ⟨-, rfl⟩⟩ | ⟨fd, hostname, rfl, rfl, rfl⟩
  · cases op <;> simp only [Op.edit, Option.some.injEq, Prod.mk.injEq, reduceCtorEq] at hf <;>
      obtain ⟨rfl, rfl⟩ := hf
    case defer p => exact List.mem_cons_self
    case user p name mode real =>
      obtain ⟨i, w, hbits⟩ := applyUserModeBitmask_eq mode { d with username := name }
      beta_reduce at hpc
      rw [hbits] at hpc
      exact mem_trace_run (h p d hd hpc)
    case userMode p flag b => cases flag <;> exact mem_trace_run (h p d hd hpc)
    all_goals exact mem_trace_run (h _ d hd hpc)
  · exact mem_trace_run (h q c hd hpc)
  · exact absurd hpc Bool.false_ne_true


theorem Texts.run {op : Op} (h : s.Texts) (ht : s.Table) (ho : op.Allowed s) :
    (op.run s).Texts := by
  refine ⟨?_, fun ch chan hchan => ?_, fun id tr htr => ?_, fun p w hw => ?_⟩
  · refine forall_client_run ht ho h.client (fun q f hf c hc hP => ?_) ?_
    · cases op <;> simp only [Op.edit, Option.some.injEq, Prod.mk.injEq, reduceCtorEq] at hf <;>
        obtain ⟨rfl, rfl⟩ := hf
      case nick p n => exact ⟨oneLine_of_isValidNickname ho.1, hP.2, hP.3, hP.4⟩
      case user p name mode real =>
        obtain ⟨i, w, hbits⟩ := applyUserModeBitmask_eq mode { c with username := name }
        beta_reduce
        rw [hbits]
        exact ⟨hP.1, ho.1, ho.2.1, hP.4⟩
      case userMode p flag b => cases flag <;> exact ⟨hP.1, hP.2, hP.3, hP.4⟩
      all_goals exact ⟨hP.1, hP.2, hP.3, hP.4⟩
    · rintro fd hostname rfl
      exact ClientText.new ho.2.1
  · rcases get?_channels_run hchan with ⟨old, hold, ⟨f, hf, rfl⟩ | ⟨-, rfl⟩⟩ | ⟨p, name, rfl, -, rfl⟩
    · have hP := h.channel ch old hold
      cases op <;> simp only [Op.editChannel, Option.some.injEq, Prod.mk.injEq, reduceCtorEq] at hf <;>
        obtain ⟨rfl, rfl⟩ := hf
      case topic ch text setter => exact ⟨hP.1, ho.1, ho.2.1, hP.4⟩
      case setting ch set =>
        cases set with
        | key k => exact ⟨hP.1, hP.2, hP.3, ho.1 k rfl⟩
        | _ => exact ⟨hP.1, hP.2, hP.3, hP.4⟩
      all_goals exact ⟨hP.1, hP.2, hP.3, hP.4⟩
    · exact h.channel ch chan hold
    · exact ChannelText.new ho.2.1
  · rcases get?_transfers_run ho htr with ⟨old, hold, hadv⟩ | ⟨-, rfl⟩
    · exact hadv.filename ▸ h.transfer id old hold
    · exact ho.2.2.1
  · rcases outbound_of_mem_trace_run hw with hw | ⟨msg, rfl, rfl⟩
    · exact h.outbound p w hw
    · exact ⟨ho.2.wire, length_wire_le msg⟩

/-! ### The record of the sessions -/

theorem ended_update (hf : ∀ c, (f c).tearingDown = c.tearingDown) :
    (s.update p f).Ended q ↔ s.Ended q := by
  constructor
  · intro h c hc
    by_cases hqp : q = p
    · subst hqp
      rw [← hf]
      exact h _ (by rw [get?_update_self, hc]; rfl)
    · exact h c (by rw [get?_update_of_ne hqp, hc])
  · intro h c hc
    obtain ⟨d, hd, ⟨-, rfl⟩ | ⟨-, rfl⟩⟩ := get?_update_eq_some hc
    · rw [hf]
      exact h d hd
    · exact h c hd

theorem Live.not_ended (h : s.Live p) (ht : s.Table) : ¬s.Ended p := fun hend =>
  absurd (h.2.symm.trans (hend _ (ht.live_get? h))) Bool.false_ne_true

/-- Closing a descriptor ends the session of its client and of no other. -/
theorem ended_finalizeDisconnect (hp : s.clients.get? fd = some p) :
    ((s.finalizeDisconnect fd).Ended q ↔ q = p ∨ s.Ended q) ∧
      ((s.finalizeDisconnect fd).heap.get? q = none ↔ q = p ∨ s.heap.get? q = none) := by
  have hget : (s.finalizeDisconnect fd).heap.get? q = if p = q then none else s.heap.get? q := by
    rw [finalizeDisconnect, hp]
    exact OrdMap.get?_erase _ _ _
  by_cases hpq : p = q
  · rw [Ended, hget, if_pos hpq]
    simp [hpq]
  · have hqp : q ≠ p := fun h => hpq h.symm
    rw [Ended, Ended, hget, if_neg hpq]
    simp [hqp]

namespace Chronicle

/-- The record and the tables are all the invariant reads. -/
theorem congr (h : s.Chronicle) (hE : ∀ q, t.Ended q ↔ s.Ended q)
    (hN : ∀ q, t.heap.get? q = none ↔ s.heap.get? q = none) (hnext : t.nextClient = s.nextClient)
    (htrace : t.trace = s.trace) (htime : t.pendingCloseTimeout = s.pendingCloseTimeout) :
    t.Chronicle := by
  refine ⟨by rw [htrace, htime]; exact h.ordered, fun p => ?_, fun p => ?_, fun p => ?_⟩
  · rw [htrace, hnext, hE]
    exact h.teardown p
  · rw [htrace, hnext, hE]
    exact h.closing p
  · rw [htrace, hnext, hN]
    exact h.final p

theorem update (h : s.Chronicle) (hf : ∀ c, (f c).tearingDown = c.tearingDown) :
    (s.update p f).Chronicle :=
  h.congr (fun _ => ended_update hf) (fun _ => get?_update_eq_none) rfl rfl rfl

/-- An event in order that neither tears down nor ends keeps the record straight. -/
theorem talk (h : s.Chronicle) {e : Event} (he : e.IsTalk)
    (hord : e.InOrder s.pendingCloseTimeout s.trace) : (s.record e).Chronicle := by
  refine ⟨⟨hord, h.ordered⟩, fun p => ?_, fun p hp => ?_, fun p => ?_⟩
  · refine Iff.trans ⟨fun hp => ?_, List.mem_cons_of_mem _⟩ (h.teardown p)
    exact List.mem_of_ne_of_mem (he p).1.symm hp
  · exact h.closing p (List.mem_of_ne_of_mem (he p).2.1.symm hp)
  · refine Iff.trans ⟨fun ⟨e', he', hfin⟩ => ?_, fun ⟨e', he', hfin⟩ =>
      ⟨e', List.mem_cons_of_mem _ he', hfin⟩⟩ (h.final p)
    rcases List.mem_cons.mp he' with rfl | he'
    · exact absurd hfin (he p).2.2
    · exact ⟨e', he', hfin⟩

/-- Nothing of the end of a live session is on record. -/
theorem of_live (h : s.Chronicle) (ht : s.Table) (hp : s.Live p) :
    .teardown p ∉ s.trace ∧ .closing p ∉ s.trace ∧ ∀ e ∈ s.trace, ¬e.IsFinal p := by
  refine ⟨fun hmem => ?_, fun hmem => ?_, fun e he hfin => ?_⟩
  · exact hp.not_ended ht ((h.teardown p).mp hmem).2
  · exact hp.not_ended ht (h.closing p hmem).2
  · have := ((h.final p).mp ⟨e, he, hfin⟩).2
    rw [ht.live_get? hp] at this
    exact absurd this (by simp)

theorem lt_of_live (ht : s.Table) (hp : s.Live p) : p < s.nextClient :=
  ht.heap_lt p _ (ht.live_get? hp)

theorem markTornDown (h : s.Chronicle) (ht : s.Table) (hp : s.Live p) :
    (s.markTornDown p).Chronicle := by
  obtain ⟨htd, -, -⟩ := h.of_live ht hp
  have hE : ∀ q, (s.markTornDown p).Ended q ↔ q = p ∨ s.Ended q := by
    intro q
    by_cases hqp : q = p
    · subst hqp
      refine iff_of_true (fun c hc => ?_) (Or.inl rfl)
      obtain ⟨d, -, ⟨-, rfl⟩ | ⟨hne, -⟩⟩ := get?_update_eq_some hc
      · rfl
      · exact absurd rfl hne
    · have : (s.markTornDown p).heap.get? q = s.heap.get? q := get?_update_of_ne hqp
      rw [Ended, this]
      simp [hqp, Ended]
  refine ⟨⟨htd, h.ordered⟩, fun q => ?_, fun q hq => ?_, fun q => ?_⟩
  · rw [hE]
    change Event.teardown q ∈ Event.teardown p :: s.trace ↔ q < s.nextClient ∧ _
    rw [List.mem_cons, h.teardown, Event.teardown.injEq]
    constructor
    · rintro (rfl | ⟨hlt, hend⟩)
      · exact ⟨lt_of_live ht hp, Or.inl rfl⟩
      · exact ⟨hlt, Or.inr hend⟩
    · rintro ⟨hlt, rfl | hend⟩
      · exact Or.inl rfl
      · exact Or.inr ⟨hlt, hend⟩
  · obtain ⟨hlt, hend⟩ := h.closing q (List.mem_of_ne_of_mem (by simp) hq)
    exact ⟨hlt, (hE q).mpr (Or.inr hend)⟩
  · refine Iff.trans ⟨fun ⟨e, he, hfin⟩ => ?_, fun ⟨e, he, hfin⟩ =>
      ⟨e, List.mem_cons_of_mem _ he, hfin⟩⟩ ((h.final q).trans (and_congr_right fun _ =>
        get?_update_eq_none.symm))
    rcases List.mem_cons.mp he with rfl | he
    · obtain ⟨how, hhow⟩ := hfin
      exact absurd hhow (by simp)
    · exact ⟨e, he, hfin⟩

/-- **Closing the descriptor** of a client that was torn down, for a reason. -/
theorem finalizeDisconnect (h : s.Chronicle) (ht : s.Table) (hp : s.clients.get? fd = some p)
    (htd : (s.deref p).tearingDown = true) (hdue : s.Due p) :
    (s.finalizeDisconnect fd).Chronicle := by
  have hget : s.heap.get? p = some (s.deref p) := ht.get? hp
  have hlt : p < s.nextClient := ht.heap_lt p _ hget
  have hmem : .teardown p ∈ s.trace := (h.teardown p).mpr ⟨hlt, fun c hc => by
    rw [hget, Option.some.injEq] at hc
    exact hc ▸ htd⟩
  have htrace : (s.finalizeDisconnect fd).trace = .finalized p (s.farewell p) :: s.trace := by
    rw [Server.finalizeDisconnect, hp]
    rfl
  have hnext : (s.finalizeDisconnect fd).nextClient = s.nextClient := by
    rw [Server.finalizeDisconnect, hp]
    rfl
  have htime : (s.finalizeDisconnect fd).pendingCloseTimeout = s.pendingCloseTimeout := by
    rw [Server.finalizeDisconnect, hp]
    rfl
  refine ⟨?_, fun q => ?_, fun q hq => ?_, fun q => ?_⟩
  · rw [htrace, htime]
    refine ⟨⟨fun e he hfin => ?_, hmem, ?_⟩, h.ordered⟩
    · have := ((h.final p).mp ⟨e, he, hfin⟩).2
      rw [hget] at this
      exact absurd this (by simp)
    · rcases hdue with hd | hd | ⟨hpc, hd⟩ | hd
      · exact Or.inl hd
      · exact Or.inr (Or.inl hd)
      · exact Or.inr (Or.inr (Or.inl ⟨_, by rw [farewell, if_pos hpc], hd⟩))
      · exact Or.inr (Or.inr (Or.inr hd))
  · rw [htrace, hnext, (ended_finalizeDisconnect hp).1, List.mem_cons]
    simp only [reduceCtorEq, false_or, h.teardown]
    constructor
    · exact fun hq => ⟨hq.1, Or.inr hq.2⟩
    · rintro ⟨hq, rfl | hend⟩
      · exact (h.teardown q).mp hmem
      · exact ⟨hq, hend⟩
  · rw [htrace] at hq
    obtain ⟨hq', hend⟩ := h.closing q (List.mem_of_ne_of_mem (by simp) hq)
    rw [hnext]
    exact ⟨hq', (ended_finalizeDisconnect hp).1.mpr (Or.inr hend)⟩
  · rw [htrace, hnext, (ended_finalizeDisconnect hp).2]
    constructor
    · rintro ⟨e, he, hfin⟩
      rcases List.mem_cons.mp he with rfl | he
      · obtain ⟨how, hhow⟩ := hfin
        rw [Event.finalized.injEq] at hhow
        exact ⟨hhow.1 ▸ hlt, Or.inl hhow.1.symm⟩
      · obtain ⟨hq, hnone⟩ := (h.final q).mp ⟨e, he, hfin⟩
        exact ⟨hq, Or.inr hnone⟩
    · rintro ⟨hq, rfl | hnone⟩
      · exact ⟨_, List.mem_cons_self, _, rfl⟩
      · obtain ⟨e, he, hfin⟩ := (h.final q).mpr ⟨hq, hnone⟩
        exact ⟨e, List.mem_cons_of_mem _ he, hfin⟩

theorem accept (h : s.Chronicle) {hostname : Str} :
    (s.acceptClient fd hostname).Chronicle := by
  rw [acceptClient]
  split_ifs
  · exact h
  have hget : ∀ q, (s.heap.insert s.nextClient (Client.new fd hostname s.clock)).get? q =
      if s.nextClient = q then some (Client.new fd hostname s.clock) else s.heap.get? q :=
    fun q => OrdMap.get?_insert _ _ _ _
  have hold : ∀ {q}, q < s.nextClient →
      (s.heap.insert s.nextClient (Client.new fd hostname s.clock)).get? q = s.heap.get? q :=
    fun hq => (hget _).trans (if_neg hq.ne')
  -- below the fresh identity nothing changed, and the fresh one is neither ended nor gone
  have hiff : ∀ {q} {P : Option Client → Prop}, ¬P (some (Client.new fd hostname s.clock)) →
      (q < s.nextClient + 1 ∧
          P ((s.heap.insert s.nextClient (Client.new fd hostname s.clock)).get? q) ↔
        q < s.nextClient ∧ P (s.heap.get? q)) := by
    intro q P hP
    constructor
    · rintro ⟨hlt, hPq⟩
      rcases Nat.lt_succ_iff_lt_or_eq.mp hlt with hlt | rfl
      · exact ⟨hlt, hold hlt ▸ hPq⟩
      · rw [hget, if_pos rfl] at hPq
        exact absurd hPq hP
    · rintro ⟨hlt, hPq⟩
      exact ⟨Nat.lt_succ_of_lt hlt, (hold hlt).symm ▸ hPq⟩
  have hend := fun q => hiff (q := q) (P := fun o => ∀ c, o = some c → c.tearingDown = true)
    fun hcon => absurd (hcon _ rfl) Bool.false_ne_true
  exact ⟨h.ordered, fun q => (h.teardown q).trans (hend q).symm,
    fun q hq => (hend q).mpr (h.closing q hq),
    fun q => (h.final q).trans (hiff (P := fun o => o = none) (by simp)).symm⟩

theorem run {op : Op} (h : s.Chronicle) (hset : s.Settled) (ht : s.Table) (ho : op.Allowed s) :
    (op.run s).Chronicle := by
  have hupdate : ∀ {p f}, (∀ c, (f c).tearingDown = c.tearingDown) → (s.update p f).Chronicle :=
    fun hf => h.update hf
  have hsame : ∀ {t : Server}, t.heap = s.heap → t.nextClient = s.nextClient →
      t.trace = s.trace → t.pendingCloseTimeout = s.pendingCloseTimeout → t.Chronicle :=
    fun hheap => h.congr (fun _ => by rw [Ended, Ended, hheap]) fun _ => by rw [hheap]
  cases op with
  | pass | nick | register | heed | socket => exact hupdate fun _ => rfl
  | user p name mode real =>
    refine hupdate fun c => ?_
    obtain ⟨i, w, hb⟩ := applyUserModeBitmask_eq mode { c with username := name }
    rw [hb]
  | userMode p flag b => cases flag <;> exact hupdate fun _ => rfl
  | send q msg =>
    exact (h.update (f := fun c => { c with io := Libcpp.queue c.io (wire msg) }) fun _ => rfl).talk
      (fun p => ⟨by simp, by simp, by simp [Event.IsFinal]⟩) (h.of_live ht ho.1).2.1
  | hear p raw =>
    exact h.talk (fun p => ⟨by simp, by simp, by simp [Event.IsFinal]⟩) (h.of_live ht ho).2.1
  | transmit p n =>
    exact (h.update (f := fun c => { c with io := Libcpp.consume c.io n }) fun _ => rfl).talk
      (fun p => ⟨by simp, by simp, by simp [Event.IsFinal]⟩) trivial
  | hangup p => exact h.talk (fun p => ⟨by simp, by simp, by simp [Event.IsFinal]⟩) trivial
  | leave fd ch =>
    rw [Op.run, dropMember]
    split_ifs <;> exact hsame rfl rfl rfl rfl
  | defer p =>
    obtain ⟨hlive, -⟩ := ho
    obtain ⟨-, hcl, -⟩ := h.of_live ht hlive
    have hm := h.markTornDown ht hlive
    have hup := hm.update (p := p)
      (f := fun c => { c with pendingClose := true, pendingCloseSince := s.clock }) fun _ => rfl
    have hend := (hup.teardown p).mp List.mem_cons_self
    refine ⟨⟨⟨fun hmem => hcl (List.mem_of_ne_of_mem (by simp) hmem), List.mem_cons_self⟩,
      hup.ordered⟩, fun q => ?_, fun q hq => ?_, fun q => ?_⟩
    · refine Iff.trans ⟨fun hq => ?_, List.mem_cons_of_mem _⟩ (hup.teardown q)
      exact List.mem_of_ne_of_mem (by simp) hq
    · rcases List.mem_cons.mp hq with heq | hq
      · rw [Event.closing.injEq] at heq
        exact heq ▸ hend
      · exact hup.closing q hq
    · refine Iff.trans ⟨fun ⟨e, he, hfin⟩ => ?_, fun ⟨e, he, hfin⟩ =>
        ⟨e, List.mem_cons_of_mem _ he, hfin⟩⟩ (hup.final q)
      rcases List.mem_cons.mp he with rfl | he
      · obtain ⟨how, hhow⟩ := hfin
        exact absurd hhow (by simp)
      · exact ⟨e, he, hfin⟩
  | expel p fd =>
    obtain ⟨hlive, rfl, -, hdue⟩ := ho
    have hget := ht.live_get? hlive
    have hderef : (s.markTornDown p).deref p = { s.deref p with tearingDown := true } :=
      deref_update_self hget
    refine (h.markTornDown ht hlive).finalizeDisconnect ht.markTornDown hlive.1
      (by rw [hderef]) ?_
    rw [Due, hderef]
    exact hdue.imp_right (Or.imp_right (Or.imp_right (List.mem_cons_of_mem _)))
  | finalize p fd =>
    obtain ⟨hp, hpc, hdue⟩ := ho
    exact h.finalizeDisconnect ht hp ((hset p _ (ht.get? hp)).symm.trans hpc) hdue
  | accept fd hostname => exact h.accept
  | _ => exact hsame rfl rfl rfl rfl

end Chronicle

end Server

end FtIrc
