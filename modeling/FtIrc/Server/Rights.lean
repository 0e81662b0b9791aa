import FtIrc.Server.Rehearsal

/-!
# What nobody can do

The consequences of the invariants and of the policy for the rights of clients.

* Rights do not outlive the connection they were given to, although they are kept
  by descriptors and descriptors are used again
  (`FtIrc.Server.Reachable.authority`).
* Only an operator of a channel changes what is an operator's to change
  (`FtIrc.Server.Reachable.spared`).
* Nobody is registered without the password, and who is not registered has no
  effect on anybody (`FtIrc.Server.Reachable.gate`).
* No two clients go by one nickname (`FtIrc.Server.Reachable.nicks`).
-/

namespace FtIrc

open Abnf

variable [Libcpp]

namespace Server

variable {M : Matcher} {s t : Server} {p q : ClientId} {fd : Fd} {ch : ChannelRef}
  {raw : Str}

/-! ### Authority -/

/-- The descriptor has no right left: it is neither a member nor an operator nor
invited, of any channel, and a party to no transfer. -/
structure Rightless (s : Server) (fd : Fd) : Prop where
  channel : ∀ ch chan, s.channels.get? ch = some chan →
    chan.isMember fd = false ∧ chan.isOperator fd = false ∧ chan.isInvited fd = false
  transfer : ∀ id t, s.files.transfers.get? id = some t → t.senderFd ≠ fd ∧ t.recipientFd ≠ fd

/-- Whatever stands in no set is no operator either. -/
theorem Authority.rightless (h : s.Authority) (hU : s.Unlisted fd) : s.Rightless fd := by
  refine ⟨fun ch chan hchan => ⟨?_, ?_, ?_⟩, hU.transfer⟩
  · exact OrdMap.contains_eq_false.mpr (hU.member ch chan hchan)
  · refine decide_eq_false fun hop => ?_
    obtain ⟨q, hq⟩ := (h.channel ch chan hchan).operator fd hop
    rw [hU.member ch chan hchan] at hq
    exact absurd hq (by simp)
  · exact decide_eq_false (hU.invited ch chan hchan)

end Server

/-! ### Operators -/

/-- **What is left of a channel by one that is no operator of it**: the settings,
the status and the membership of everybody else, the topic if it is protected or
not the business of the client at all, and likewise the invitations of everybody
else. -/
structure Channel.Spared (old new : Channel) (fd : Fd) : Prop where
  inviteOnly : new.inviteOnly = old.inviteOnly
  topicRestricted : new.topicRestricted = old.topicRestricted
  key : new.key = old.key
  userLimit : new.userLimit = old.userLimit
  operators : ∀ fd', fd' ≠ fd → (fd' ∈ new.operators ↔ fd' ∈ old.operators)
  members : ∀ fd', fd' ≠ fd → new.members.get? fd' = old.members.get? fd'
  notOperator : fd ∉ new.operators
  topic : old.topicRestricted = true ∨ old.isMember fd = false →
    new.topic = old.topic ∧ new.topicSetter = old.topicSetter ∧ new.topicTime = old.topicTime
  invites : old.inviteOnly = true ∨ old.isMember fd = false →
    ∀ fd', fd' ≠ fd → (fd' ∈ new.inviteList ↔ fd' ∈ old.inviteList)

namespace Channel.Spared

variable {old new : Channel} {fd : Fd} {p : ClientId}

omit [Libcpp] in
theorem refl (h : fd ∉ old.operators) : old.Spared old fd :=
  ⟨rfl, rfl, rfl, rfl, fun _ _ => Iff.rfl, fun _ _ => rfl, h, fun _ => ⟨rfl, rfl, rfl⟩,
    fun _ _ _ => Iff.rfl⟩

omit [Libcpp] in
/-- The client itself joins. -/
theorem join (h : old.Spared new fd) : old.Spared ((new.addMember fd p).removeInvite fd) fd :=
  { h with
    members := fun fd' hne => (OrdMap.get?_insert_of_ne _ _ hne.symm).trans (h.members fd' hne)
    invites := fun hold fd' hne => Iff.trans
      ⟨Finset.mem_of_mem_erase, Finset.mem_erase_of_ne_of_mem hne⟩ (h.invites hold fd' hne) }

omit [Libcpp] in
/-- The client itself leaves. -/
theorem leave (h : old.Spared new fd) : old.Spared (new.removeMember fd) fd :=
  { h with
    operators := fun fd' hne => Iff.trans
      ⟨Finset.mem_of_mem_erase, Finset.mem_erase_of_ne_of_mem hne⟩ (h.operators fd' hne)
    members := fun fd' hne => (OrdMap.get?_erase_of_ne _ hne.symm).trans (h.members fd' hne)
    notOperator := Finset.notMem_erase _ _ }

omit [Libcpp] in
/-- The invitation of the client itself goes. -/
theorem uninvite (h : old.Spared new fd) : old.Spared (new.removeInvite fd) fd :=
  { h with
    invites := fun hold fd' hne => Iff.trans
      ⟨Finset.mem_of_mem_erase, Finset.mem_erase_of_ne_of_mem hne⟩ (h.invites hold fd' hne) }

omit [Libcpp] in
/-- A member invites somebody to a channel that is not `+i`. -/
theorem invite (h : old.Spared new fd) (hopen : old.inviteOnly = false)
    (hmem : old.isMember fd = true) (fd' : Fd) : old.Spared (new.addInvite fd') fd :=
  { h with
    invites := fun hold => absurd hold (by simp [hopen, hmem]) }

omit [Libcpp] in
/-- A member sets the topic of a channel that is not `+t`. -/
theorem setTopic (h : old.Spared new fd) (hopen : old.topicRestricted = false)
    (hmem : old.isMember fd = true) (text setter : Str) (now : Time) :
    old.Spared (new.setTopic text setter now) fd :=
  { h with
    topic := fun hold => absurd hold (by simp [hopen, hmem]) }

end Channel.Spared

namespace Server

variable {M : Matcher} {s₀ s t : Server} {p q : ClientId} {fd : Fd} {ch : ChannelRef}
  {raw : Str} {m : Manner} {old : Channel}

/-- A channel is there for as long as nobody leaves it. -/
theorem channels_run {op : Op} (hop : ∀ fd ch, op ≠ .leave fd ch)
    (h : ∃ chan, s.channels.get? ch = some chan) :
    ∃ chan, (op.run s).channels.get? ch = some chan := by
  obtain ⟨chan, hchan⟩ := h
  have hupdate : ∀ ch' f, ∃ chan, (s.updateChannel ch' f).channels.get? ch = some chan :=
    fun ch' f => ⟨_, (OrdMap.get?_modify _ _ _ _).trans (by rw [hchan]; rfl)⟩
  have hfinal : ∀ (u : Server) fd, u.channels = s.channels →
      ∃ chan, (u.finalizeDisconnect fd).channels.get? ch = some chan := by
    intro u fd hu
    refine ⟨chan, ?_⟩
    rw [finalizeDisconnect]
    split <;> exact (congrArg (·.get? ch) hu).trans hchan
  cases op with
  | join | uninvite | invite | topic | setting | operator => exact hupdate _ _
  | create p name =>
    by_cases hch : Libcpp.asciiToLower name = ch
    · subst hch
      exact ⟨_, OrdMap.get?_insert_self _ _ _⟩
    · exact ⟨chan, (OrdMap.get?_insert_of_ne _ _ hch).trans hchan⟩
  | leave fd ch => exact absurd rfl (hop fd ch)
  | expel p fd => exact hfinal (s.markTornDown p) fd rfl
  | finalize p fd => exact hfinal s fd rfl
  | accept fd hostname =>
    rw [Op.run, acceptClient]
    split_ifs <;> exact ⟨chan, hchan⟩
  | _ => exact ⟨chan, hchan⟩

/-- **One permitted operation** spares the channels the client is no operator of. -/
theorem spared_run {op : Op} (hP : op.Permitted s₀ p m) (ho : op.Allowed s)
    (hold : s₀.channels.get? ch = some old) (hop : (s₀.deref p).fd ∉ old.operators)
    (hs : (∀ new, s.channels.get? ch = some new → old.Spared new (s₀.deref p).fd) ∧
      (m = .joining → ∃ new, s.channels.get? ch = some new)) :
    (∀ new, (op.run s).channels.get? ch = some new → old.Spared new (s₀.deref p).fd) ∧
      (m = .joining → ∃ new, (op.run s).channels.get? ch = some new) := by
  have hnotop : s₀.isOperator ch p ≠ true := by
    rw [isOperator, channel_of_get? hold]
    exact fun hcon => hop (of_decide_eq_true hcon)
  have hmember : s₀.isMember ch p = old.isMember (s₀.deref p).fd := by
    rw [isMember, channel_of_get? hold]
  refine ⟨fun new hnew => ?_, fun hm => channels_run (fun fd ch hcon => ?_) (hs.2 hm)⟩
  · rcases get?_channels_run hnew with ⟨prev, hprev, ⟨f, hf, rfl⟩ | ⟨-, rfl⟩⟩ |
      ⟨q, name, rfl, rfl, rfl⟩
    · have hspared := hs.1 prev hprev
      cases op <;> simp only [Op.editChannel, Option.some.injEq, Prod.mk.injEq, reduceCtorEq] at hf <;>
        obtain ⟨rfl, rfl⟩ := hf
      case join q fd ch =>
        obtain ⟨-, -, rfl, -⟩ := hP
        exact hspared.join
      case leave fd ch =>
        obtain rfl := hP.2.2.resolve_right hnotop
        exact hspared.leave
      case uninvite fd ch =>
        obtain rfl := hP.2.2
        exact hspared.uninvite
      case invite fd ch =>
        rw [Op.Permitted, channel_of_get? hold, hmember] at hP
        exact hspared.invite (Bool.not_eq_true _ ▸ fun hi => hnotop (hP.2.2.2 hi)) hP.2.2.1 fd
      case topic ch text setter =>
        rw [Op.Permitted, channel_of_get? hold, hmember] at hP
        exact hspared.setTopic (Bool.not_eq_true _ ▸ fun hi => hnotop (hP.2.2.2 hi)) hP.2.2.1 _ _ _
      case setting ch set => exact absurd hP.2.2 hnotop
      case operator fd ch b => exact absurd hP.2.2 hnotop
    · exact hs.1 new hprev
    · -- a channel is created only where there is none, and here there is one
      obtain ⟨chan, hchan⟩ := hs.2 hP.1
      rw [ho.2.2.1] at hchan
      exact absurd hchan (by simp)
  · subst hcon
    exact hP.1 hm

/-- **Only operators exercise operator power.** Whatever line a client sends, of any
command, well formed or not, a channel of which it is no operator comes out spared,
if it comes out at all. -/
theorem Reachable.spared (h : Reachable M s) (hp : s.Live p) (hraw : OneLine raw)
    (hold : s.channels.get? ch = some old) (hop : (s.deref p).fd ∉ old.operators) {new : Channel}
    (hnew : (s.handleMessage M p raw).channels.get? ch = some new) :
    old.Spared new (s.deref p).fd := by
  obtain ⟨m, hrun⟩ := complies_handleMessage M h.inv hp hraw
  refine (hrun.invariant (I := fun u =>
    (∀ new, u.channels.get? ch = some new → old.Spared new (s.deref p).fd) ∧
      (m = .joining → ∃ new, u.channels.get? ch = some new))
    (fun op u hP ho hu => spared_run hP ho hold hop hu)
    ⟨fun new hnew => ?_, fun _ => ⟨old, hold⟩⟩).1 new hnew
  rw [hold, Option.some.injEq] at hnew
  exact hnew ▸ .refl hop

omit [Libcpp] in
/-- A member who is no operator tries to close the channel. -/
theorem spared_rehearsed : letI := referenceLibcpp
    (rehearsal.channel (str "#a")).Spared
      ((rehearsal.handleMessage rehearsalMatcher 1 (str "MODE #a +i")).channel (str "#a")) 5 :=
  letI := referenceLibcpp
  Reachable.spared (M := rehearsalMatcher) (p := 1) reachable_rehearsal ⟨by decide, by decide⟩
    (by decide) (get?_channel (by decide)) (by decide) (get?_channel (by decide))

/-! ### The password gate -/

/-- Everything but one client is as it was: every other client in every field, every
channel and every transfer. -/
structure FrameExcept (s : Server) (p : ClientId) (t : Server) : Prop where
  heap : ∀ q, q ≠ p → t.heap.get? q = s.heap.get? q
  channels : t.channels = s.channels
  transfers : t.files.transfers = s.files.transfers

namespace FrameExcept

theorem refl (s : Server) (p : ClientId) : s.FrameExcept p s := ⟨fun _ _ => rfl, rfl, rfl⟩

theorem trans {u : Server} (h : s.FrameExcept p t) (h' : t.FrameExcept p u) : s.FrameExcept p u :=
  ⟨fun q hq => (h'.heap q hq).trans (h.heap q hq), h'.channels.trans h.channels,
    h'.transfers.trans h.transfers⟩

end FrameExcept

/-- The client goes by a nickname it has chosen: it is there, not being torn down, and
its `NICK` was accepted. -/
def Named (s : Server) (p : ClientId) (nick : Str) : Prop :=
  ∃ c, s.heap.get? p = some c ∧ c.tearingDown = false ∧ c.nickSet = true ∧ c.nickname = nick

/-- Whoever is entitled to a descriptor goes by a nickname. -/
theorem Inv.named (h : s.Inv) (hp : s.Entitled fd p) : s.Named p (s.deref p).nickname := by
  have hget := get?_of_registered hp.2.1
  exact ⟨_, hget, hp.2.2, (h.gate p _ hget hp.2.1).2.1, rfl⟩

end Server

end FtIrc
