import FtIrc.Server.Ages
import FtIrc.Server.Modes
import FtIrc.Server.Rights

/-!
# Who gets into a channel

Rights in a channel come from three commands: `JOIN` makes members, `INVITE` lets
somebody in, `MODE` makes operators. A step that is none of them only takes rights away
(`FtIrc.Server.Step.grants`), and what each of the three gives is read off its handler.
From this

* the table of channels holds nothing but channels with members, and what a channel was
  set to goes with its last member (`FtIrc.Server.Reachable.channels`);
* nobody enters a channel but by a `JOIN` that the channel admits, by an invite at most
  once, and nobody becomes an operator but by founding the channel or by another operator
  (`FtIrc.Server.Reachable.admission`).
-/

namespace FtIrc

open Abnf

variable [Libcpp]

/-! ### Lines that give rights -/

/-- An operation that gives nobody a right in a channel. -/
def Op.Grantless : Op → Prop
  | create _ _ | join _ _ _ | invite _ _ | setting _ _ | operator _ _ _ => False
  | _ => True

theorem Op.Sweep.grantless {W : ClientId → Prop} {op : Op} (h : op.Sweep W) : op.Grantless := by
  cases op <;> first | exact h | trivial

/-- **What a channel becomes while nobody is given a right in it**: it loses members,
operators and invites, its topic may change, and nothing else. -/
structure Channel.Reduces (old new : Channel) : Prop where
  name : new.name = old.name
  inviteOnly : new.inviteOnly = old.inviteOnly
  topicRestricted : new.topicRestricted = old.topicRestricted
  key : new.key = old.key
  userLimit : new.userLimit = old.userLimit
  members : ∀ fd p, new.members.get? fd = some p → old.members.get? fd = some p
  operators : new.operators ⊆ old.operators
  inviteList : new.inviteList ⊆ old.inviteList

/-- **What a channel asks of somebody who joins it** with a key. -/
structure Channel.Admits (c : Channel) (fd : Fd) (supplied : Str) : Prop where
  invited : c.inviteOnly = true → fd ∈ c.inviteList
  keyed : c.key = [] ∨ supplied = c.key
  room : c.userLimit = 0 ∨ c.getMemberCount < c.userLimit

namespace Channel.Reduces

variable {old mid new : Channel}

omit [Libcpp] in
theorem refl (c : Channel) : c.Reduces c :=
  ⟨rfl, rfl, rfl, rfl, rfl, fun _ _ => id, subset_rfl, subset_rfl⟩

omit [Libcpp] in
theorem trans (h : old.Reduces mid) (h' : mid.Reduces new) : old.Reduces new where
  name := h'.name.trans h.name
  inviteOnly := h'.inviteOnly.trans h.inviteOnly
  topicRestricted := h'.topicRestricted.trans h.topicRestricted
  key := h'.key.trans h.key
  userLimit := h'.userLimit.trans h.userLimit
  members fd p hp := h.members fd p (h'.members fd p hp)
  operators := h'.operators.trans h.operators
  inviteList := h'.inviteList.trans h.inviteList

omit [Libcpp] in
theorem leave (c : Channel) (fd : Fd) : c.Reduces (c.removeMember fd) :=
  { refl c with
    members := fun fd' p hp => by
      have hp' : (c.members.erase fd).get? fd' = some p := hp
      rw [OrdMap.get?_erase] at hp'
      split_ifs at hp'
      exact hp'
    operators := Finset.erase_subset _ _ }

omit [Libcpp] in
theorem uninvite (c : Channel) (fd : Fd) : c.Reduces (c.removeInvite fd) :=
  { refl c with inviteList := Finset.erase_subset _ _ }

end Channel.Reduces

namespace Server

variable {M : Matcher} {s t u v : Server} {p q : ClientId} {fd : Fd} {ch : ChannelRef}
  {raw : Str} {msg : Message} {old new : Channel}

/-- **One operation that gives no right** takes away at most. -/
theorem reduces_run {op : Op} (hop : op.Grantless) (h : (op.run s).channels.get? ch = some new) :
    ∃ old, s.channels.get? ch = some old ∧ old.Reduces new := by
  rcases get?_channels_run h with ⟨old, hold, ⟨f, hf, rfl⟩ | ⟨-, rfl⟩⟩ | ⟨q, name, rfl, -, -⟩
  · refine ⟨old, hold, ?_⟩
    cases op <;> simp only [Op.editChannel, Option.some.injEq, Prod.mk.injEq, reduceCtorEq] at hf <;>
      obtain ⟨rfl, rfl⟩ := hf
    case leave fd ch => exact .leave old fd
    case uninvite fd ch => exact .uninvite old fd
    case topic ch text setter =>
      exact ⟨rfl, rfl, rfl, rfl, rfl, fun _ _ => id, subset_rfl, subset_rfl⟩
    all_goals exact hop.elim
  · exact ⟨new, hold, .refl new⟩
  · exact hop.elim

theorem reduces_runs (hrun : serverMachine.Runs Op.Grantless s t)
    (h : t.channels.get? ch = some new) : ∃ old, s.channels.get? ch = some old ∧ old.Reduces new := by
  induction hrun generalizing new with
  | refl => exact ⟨new, h, .refl new⟩
  | tail _ hop _ ih =>
    obtain ⟨mid, hmid, hred⟩ := reduces_run hop h
    obtain ⟨old, hold, hred'⟩ := ih hmid
    exact ⟨old, hold, hred'.trans hred⟩

/-- **A step that gives a right** is a line with one of three commands. -/
theorem Step.grants (h : Step M s t) (hi : s.Inv) :
    serverMachine.Runs Op.Grantless s t ∨
      ∃ p raw msg, s.Live p ∧ OneLine raw ∧ M.buildMessage raw = some msg ∧
        t = s.handleMessage M p raw ∧
          (msg.command = str "JOIN" ∨ msg.command = str "INVITE" ∨ msg.command = str "MODE") := by
  have hsweep : ∀ {W : ClientId → Prop}, serverMachine.Runs (Op.Sweep W) s t →
      serverMachine.Runs Op.Grantless s t := fun h => h.mono fun _ => Op.Sweep.grantless
  cases h with
  | client p hacts =>
    cases hacts with
    | receive data => exact Or.inl (hsweep (runs_receive (W := fun _ => True) data))
    | output fd sent hp => exact Or.inl (hsweep (runs_handleClientOutput hi hp sent))
    | disconnect fd reason hp hreason =>
      exact Or.inl (hsweep (runs_disconnectClient hi hp hreason))
    | disconnectNow fd reason hp hreason hov =>
      exact Or.inl (hsweep (runs_now hi hp hreason (Or.inl hov)))
    | hangup fd hp => exact Or.inl (hsweep (runs_handleHangup hi hp))
    | line raw hp hraw =>
      obtain ⟨m, hm, hout, hfit⟩ := outcome_handleMessage M hi hp hraw
      have hquiet : m = .acting ∨ m = .filing → serverMachine.Runs Op.Grantless s
          (s.handleMessage M p raw) := by
        intro hm'
        cases hout with
        | stays hrun =>
          exact hsweep (hrun.mono fun op hop => hop.sweep (hm'.imp_right Or.inl))
        | leaves hact hrun hop hq hreason ht =>
          have hturn := (Turn.start hi hp).runs hrun (by decide)
          have hend := complies_disconnectClient hturn.inv hreason hq
          refine hsweep ((hrun.mono fun op hop => hop.sweep (Or.inl rfl)).trans ?_)
          exact ht ▸ hend.mono fun op hop' => (hop op hop').sweep (Or.inr (Or.inr rfl))
      rcases hfit with rfl | ⟨msg, hmsg, hfit⟩
      · exact Or.inl (hquiet (Or.inl rfl))
      cases m with
      | joining => exact Or.inr ⟨p, raw, msg, hp, hraw, hmsg, rfl, Or.inl hfit⟩
      | inviting => exact Or.inr ⟨p, raw, msg, hp, hraw, hmsg, rfl, Or.inr (Or.inl hfit)⟩
      | moding => exact Or.inr ⟨p, raw, msg, hp, hraw, hmsg, rfl, Or.inr (Or.inr hfit)⟩
      | acting => exact Or.inl (hquiet (Or.inl rfl))
      | filing => exact Or.inl (hquiet (Or.inr rfl))
      | leaving => exact absurd rfl hm
  | accept fd a b c d hfd =>
    exact Or.inl (.single (M := serverMachine) (o := .accept fd _) trivial
      ⟨hfd, oneLine_inetNtoa a b c d, isHost_inetNtoa a b c d, inetNtoa_ne_nil a b c d⟩)
  | clock now => exact Or.inl (.single (M := serverMachine) (o := .clock now) trivial trivial)
  | checkTimeouts => exact Or.inl (hsweep (runs_checkTimeouts hi))
  | checkPendingCloseTimeouts => exact Or.inl (hsweep (runs_checkPendingCloseTimeouts hi))
  | tick => exact Or.inl (hsweep (runs_tick (W := fun _ => True) hi))
  | updateInterests => exact Or.inl (hsweep (runs_updateInterests (W := fun _ => True)))

/-! ### JOIN -/

/-- The replies to a client that is on a channel now are talk. -/
theorem tells_joinReplies {P : ClientId → Str → Prop} {name : Str}
    (hP : ∀ n ∈ ["331", "332", "333", "353", "366", "324", "329"], ∀ a,
      P p (replyText (s.deref p).nickname n a)) :
    Tells P s (s.joinReplies p ch name) := by
  have hfirst : Tells P s
      (if (s.channel ch).topic ≠ [] then
        (s.sendReply p "332" (name ++ str " :" ++ (s.channel ch).topic)).sendReply p "333"
          (name ++ str " " ++ (s.channel ch).topicSetter ++ str " " ++
            Libcpp.toDecimal (s.channel ch).topicTime)
      else s.sendReply p "331" (name ++ str " :No topic is set")) := by
    split_ifs
    · exact (Tells.reply (hP "332" (by simp) _)).andReply (hP "333" (by simp) _)
    · exact .reply (hP "331" (by simp) _)
  rw [joinReplies]
  refine Tells.andReply (Tells.andReply (Tells.andReply (hfirst.trans ?_) (hP "366" (by simp) _))
    (hP "324" (by simp) _)) (hP "329" (by simp) _)
  refine Tells.foldl _ fun u hu chunk _ => .reply ?_
  rw [hu.nickname, hfirst.nickname]
  exact hP "353" (by simp) _

/-- The announcement of a join and the replies to it are talk. -/
theorem tells_announceJoin {P : ClientId → Str → Prop} {name : Str}
    (hcast : ∀ q w, str ":" ++ (s.deref p).getPrefix ++ str " JOIN " <+: w → P q w)
    (hP : ∀ n ∈ ["331", "332", "333", "353", "366", "324", "329"], ∀ a,
      P p (replyText (s.deref p).nickname n a)) :
    Tells P s (s.announceJoin p ch name) := by
  have hall : Tells P s (s.broadcastMessage ch
      (str ":" ++ (s.deref p).getPrefix ++ str " JOIN " ++ (s.channel ch).name) none) :=
    .broadcast fun q _ _ => hcast q _ (List.prefix_append _ _)
  exact hall.trans (tells_joinReplies fun n hn a => hall.nickname p ▸ hP n hn a)

/-- **What a list of joins makes** of what stands under one key of the channel table:
nothing, a channel with one more member, which it admits, or a new channel. -/
inductive Joined (p : ClientId) (fd : Fd) (now : Time) (targets : List (Str × Str))
    (ch : ChannelRef) : Option Channel → Option Channel → Prop
  | kept (c : Option Channel) : Joined p fd now targets ch c c
  | entered {old : Channel} {target : Str × Str} : target ∈ targets →
      Libcpp.asciiToLower target.1 = ch → old.members.get? fd = none → old.Admits fd target.2 →
      Joined p fd now targets ch (some old) (some ((old.addMember fd p).removeInvite fd))
  | founded {target : Str × Str} : target ∈ targets → Libcpp.asciiToLower target.1 = ch →
      Joined p fd now targets ch none (some (Channel.new target.1 fd p now))

/-- **Lists of joins one after another**: a channel is entered once, the second time the
client is a member. -/
theorem Joined.append {now : Time} {l l' : List (Str × Str)} {a b c : Option Channel}
    (h : Joined p fd now l ch a b) (h' : Joined p fd now l' ch b c) :
    Joined p fd now (l ++ l') ch a c := by
  have hleft : ∀ {x}, x ∈ l → x ∈ l ++ l' := fun hx => List.mem_append.mpr (Or.inl hx)
  have hright : ∀ {x}, x ∈ l' → x ∈ l ++ l' := fun hx => List.mem_append.mpr (Or.inr hx)
  cases h with
  | kept =>
    cases h' with
    | kept => exact .kept a
    | entered hmem hch hnot hadm => exact .entered (hright hmem) hch hnot hadm
    | founded hmem hch => exact .founded (hright hmem) hch
  | entered hmem hch hnot hadm =>
    cases h' with
    | kept => exact .entered (hleft hmem) hch hnot hadm
    | entered _ _ hnot' _ =>
      exact absurd ((OrdMap.get?_insert_self _ _ _).symm.trans hnot') (by simp)
  | founded hmem hch =>
    cases h' with
    | kept => exact .founded (hleft hmem) hch
    | entered _ _ hnot' _ =>
      exact absurd ((OrdMap.get?_insert_self _ _ _).symm.trans hnot') (by simp)

/-- One channel of a `JOIN`. -/
theorem joined_joinOne (target : Str × Str) :
    ((joinOne p s target).deref p).fd = (s.deref p).fd ∧
      (joinOne p s target).clock = s.clock ∧
        ∀ ch, Joined p (s.deref p).fd s.clock [target] ch (s.channels.get? ch)
          ((joinOne p s target).channels.get? ch) := by
  have htalk : ∀ {u v : Server}, Tells (fun _ _ => True) u v → (v.deref p).fd = (u.deref p).fd ∧
      v.clock = u.clock ∧ v.channels = u.channels := fun h => by
    obtain ⟨msgs, -, rfl⟩ := h
    exact ⟨fd_queueMany, clock_queueMany, channels_queueMany⟩
  have hrefused : ∀ {v : Server}, Tells (fun _ _ => True) s v → (v.deref p).fd = (s.deref p).fd ∧
      v.clock = s.clock ∧ ∀ ch, Joined p (s.deref p).fd s.clock [target] ch (s.channels.get? ch)
        (v.channels.get? ch) := fun h => by
    obtain ⟨hfd, hclock, hchannels⟩ := htalk h
    refine ⟨hfd, hclock, fun ch => ?_⟩
    rw [hchannels]
    exact .kept _
  have hannounce : ∀ (u : Server) ch, Tells (fun _ _ => True) u (u.announceJoin p ch target.1) :=
    fun u ch => tells_announceJoin (fun _ _ _ => trivial) fun _ _ _ => trivial
  rw [joinOne]
  dsimp only
  split_ifs with hvalid
  · exact hrefused (.reply trivial)
  rcases hfind : s.findChannel target.1 with _ | chan
  · -- the channel is founded
    obtain ⟨hfd, hclock, hchannels⟩ := htalk (hannounce (s.createChannel target.1 p)
      (Libcpp.asciiToLower target.1))
    refine ⟨hfd, hclock, fun ch => ?_⟩
    dsimp only
    rw [hchannels]
    by_cases hch : Libcpp.asciiToLower target.1 = ch
    · rw [← hch, findChannel_eq_none hfind,
        show (s.createChannel target.1 p).channels.get? (Libcpp.asciiToLower target.1) =
          some (Channel.new target.1 (s.deref p).fd p s.clock) from OrdMap.get?_insert_self _ _ _]
      exact .founded List.mem_cons_self rfl
    · rw [show (s.createChannel target.1 p).channels.get? ch = s.channels.get? ch from
        OrdMap.get?_insert_of_ne _ _ hch]
      exact .kept _
  obtain ⟨rfl, old, hold⟩ := findChannel_eq_some hfind
  dsimp only
  rw [channel_of_get? hold]
  split_ifs with hmem hinv hkey hfull
  · exact hrefused (.refl s)
  · exact hrefused (.reply trivial)
  · exact hrefused (.reply trivial)
  · exact hrefused (.reply trivial)
  -- the channel admits the client
  obtain ⟨hfd, hclock, hchannels⟩ := htalk (hannounce
    (s.updateChannel (Libcpp.asciiToLower target.1) fun c =>
      (c.addMember (s.deref p).fd p).removeInvite (s.deref p).fd) (Libcpp.asciiToLower target.1))
  refine ⟨hfd, hclock, fun ch => ?_⟩
  rw [hchannels]
  by_cases hch : ch = Libcpp.asciiToLower target.1
  · subst hch
    rw [show (s.updateChannel (Libcpp.asciiToLower target.1) _).channels.get? _ = _ from
      OrdMap.get?_modify_self _ _ _, hold]
    refine .entered List.mem_cons_self rfl ?_ ⟨fun hi => ?_, ?_, ?_⟩
    · exact OrdMap.contains_eq_false.mp (Bool.not_eq_true _ ▸ hmem)
    · by_contra hnot
      exact hinv (by simp [hi, Channel.isInvited, hnot])
    · by_contra hnot
      push Not at hnot
      exact hkey ⟨hnot.1, fun heq => hnot.2 heq.symm⟩
    · by_contra hnot
      push Not at hnot
      exact hfull ⟨Nat.pos_of_ne_zero hnot.1, hnot.2⟩
  · rw [show (s.updateChannel (Libcpp.asciiToLower target.1) _).channels.get? ch = _ from
      OrdMap.get?_modify_of_ne _ _ hch]
    exact .kept _

/-- **The list of a `JOIN`**, channel by channel. -/
theorem joined_foldl (targets : List (Str × Str)) :
    ∀ ch, Joined p (s.deref p).fd s.clock targets ch (s.channels.get? ch)
      ((targets.foldl (joinOne p) s).channels.get? ch) := by
  induction targets generalizing s with
  | nil => exact fun ch => .kept _
  | cons target targets ih =>
    intro ch
    obtain ⟨hfd, hclock, hone⟩ := joined_joinOne (s := s) (p := p) target
    have hrest := ih (s := joinOne p s target) ch
    rw [hfd, hclock] at hrest
    exact (hone ch).append hrest

/-- The channels of a `JOIN`, with the key for each. -/
def joinTargets (msg : Message) : List (Str × Str) :=
  (msg.list "chanlist" COMMA).zipIdx.map fun e =>
    (e.1, (msg.listKeepEmpty "keylist" COMMA).getD e.2 [])

/-! ### What a step makes of a channel -/

/-- **What becomes of a channel**: rights are taken away, or a line that was read, out of
`L`, asked for some to be given, and they were. -/
inductive Becomes (L : ClientId → Message → Prop) (s : Server) (ch : ChannelRef) (new : Channel) :
    Prop
  | reduced {old : Channel} : s.channels.get? ch = some old → old.Reduces new → Becomes L s ch new
  | entered {old : Channel} {p : ClientId} {msg : Message} {target : Str × Str} : L p msg →
      msg.command = str "JOIN" → target ∈ joinTargets msg → Libcpp.asciiToLower target.1 = ch →
      s.channels.get? ch = some old → old.members.get? (s.deref p).fd = none →
      old.Admits (s.deref p).fd target.2 →
      new = (old.addMember (s.deref p).fd p).removeInvite (s.deref p).fd → Becomes L s ch new
  | founded {p : ClientId} {msg : Message} {target : Str × Str} : L p msg →
      msg.command = str "JOIN" → target ∈ joinTargets msg → Libcpp.asciiToLower target.1 = ch →
      s.channels.get? ch = none → new = Channel.new target.1 (s.deref p).fd p s.clock →
      Becomes L s ch new
  | invited {old : Channel} {p q : ClientId} {msg : Message} : L p msg →
      msg.command = str "INVITE" → Libcpp.asciiToLower (msg.field "invchan") = ch →
      s.channels.get? ch = some old → s.findClientByNick (msg.field "invnick") = some q →
      old.isMember (s.deref p).fd = true →
      (old.inviteOnly = true → old.isOperator (s.deref p).fd = true) →
      old.isMember (s.deref q).fd = false → new = old.addInvite (s.deref q).fd → Becomes L s ch new
  | moded {old : Channel} {p : ClientId} {msg : Message} : L p msg → msg.command = str "MODE" →
      Libcpp.asciiToLower (msg.param 0) = ch → s.channels.get? ch = some old →
      old.isOperator (s.deref p).fd = true →
      new = (modeChanges (s.memberName ch) true (msg.params.drop 2) (msg.param 1)).foldl
        (Channel.change (s.memberFd ch)) old → Becomes L s ch new

section Handlers

variable {L : ClientId → Message → Prop}

/-- Nothing becomes of a channel where there is only talk. -/
theorem Becomes.talk {P : ClientId → Str → Prop} (h : Tells P s t)
    (hnew : t.channels.get? ch = some new) : Becomes L s ch new := by
  rw [h.read Server.channels fun _ _ _ => rfl] at hnew
  exact .reduced hnew (.refl new)

/-- What was recorded before is no channel's business. -/
theorem Becomes.unrecord {e : Event} (h : Becomes L (s.record e) ch new) : Becomes L s ch new := by
  cases h with
  | reduced hold hred => exact .reduced hold hred
  | entered hL hcmd hmem hch hold hnot hadm hnew =>
    exact .entered hL hcmd hmem hch hold hnot hadm hnew
  | founded hL hcmd hmem hch hold hnew => exact .founded hL hcmd hmem hch hold hnew
  | invited hL hcmd hch hold hq hmem hop hin hnew =>
    exact .invited hL hcmd hch hold hq hmem hop hin hnew
  | moded hL hcmd hch hold hop hnew => exact .moded hL hcmd hch hold hop hnew

/-- A `JOIN`. -/
theorem becomes_cmdJoin (hturn : Turn s p s) (hreg : (s.deref p).registered = true) (hL : L p msg)
    (hcmd : msg.command = str "JOIN") (hnew : (s.cmdJoin p msg).channels.get? ch = some new) :
    Becomes L s ch new := by
  rw [cmdJoin] at hnew
  split_ifs at hnew
  · exact .talk (.reply (P := fun _ _ => True) trivial) hnew
  · -- `JOIN 0` only leaves
    have hrun := hturn.partAllChannels hreg
    obtain ⟨old, hold, hred⟩ := reduces_runs (hrun.mono fun op hop =>
      (hop.sweep (Or.inl rfl)).grantless) hnew
    exact .reduced hold hred
  · have hjoined := joined_foldl (s := s) (p := p) (joinTargets msg) ch
    have hnew' : ((joinTargets msg).foldl (joinOne p) s).channels.get? ch = some new := hnew
    rw [hnew'] at hjoined
    generalize hold : s.channels.get? ch = before at hjoined
    cases hjoined with
    | kept => exact .reduced hold (.refl new)
    | entered hmem hch hnot hadm => exact .entered hL hcmd hmem hch hold hnot hadm rfl
    | founded hmem hch => exact .founded hL hcmd hmem hch hold rfl

/-- An `INVITE`. -/
theorem becomes_cmdInvite (hL : L p msg) (hcmd : msg.command = str "INVITE")
    (hnew : (s.cmdInvite p msg).channels.get? ch = some new) : Becomes L s ch new := by
  have hrefused : ∀ {n : String} {a : Str}, (s.sendReply p n a).channels.get? ch = some new →
      Becomes L s ch new := fun h => .talk (.reply (P := fun _ _ => True) trivial) h
  rw [cmdInvite] at hnew
  split_ifs at hnew
  · exact hrefused hnew
  dsimp only at hnew
  rcases hfind : s.findChannel (msg.field "invchan") with _ | chan <;> rw [hfind] at hnew
  · exact hrefused hnew
  obtain ⟨rfl, old, hold⟩ := findChannel_eq_some hfind
  dsimp only at hnew
  rw [isMember, isOperator, channel_of_get? hold] at hnew
  split_ifs at hnew with hmem hop
  · exact hrefused hnew
  · exact hrefused hnew
  rcases hq : s.findClientByNick (msg.field "invnick") with _ | q <;> rw [hq] at hnew <;>
    dsimp only at hnew
  · exact hrefused hnew
  rw [isMember, channel_of_get? hold] at hnew
  split_ifs at hnew with hin
  · exact hrefused hnew
  -- what remains is talk
  have hnew' : (s.updateChannel (Libcpp.asciiToLower (msg.field "invchan"))
    fun c => c.addInvite (s.deref q).fd).channels.get? ch = some new := hnew
  obtain ⟨old', hold', ⟨rfl, rfl⟩ | ⟨-, rfl⟩⟩ := get?_updateChannel_eq_some hnew'
  · obtain rfl := Option.some.inj (hold.symm.trans hold')
    refine .invited hL hcmd rfl hold hq (by simpa using hmem) (fun hi => ?_)
      (Bool.not_eq_true _ ▸ hin) rfl
    simpa [hi] using hop
  · exact .reduced hold' (.refl new)

/-- A user mode is no channel's business. -/
theorem channels_handleUserMode : (s.handleUserMode p msg).channels = s.channels := by
  have hletter : ∀ (m : ModeLoop) c, (userModeLetter p m c).server.channels = m.server.channels := by
    intro m c
    rw [userModeLetter]
    split_ifs <;> try rfl
    rw [ModeLoop.reportOnce]
    split_ifs <;> rfl
  have hloop : ∀ (modes : Str) (m : ModeLoop),
      (modes.foldl (userModeLetter p) m).server.channels = m.server.channels := by
    intro modes
    induction modes with
    | nil => exact fun m => rfl
    | cons c modes ih => exact fun m => (ih _).trans (hletter m c)
  have hlines : ∀ (lines : List Str) (u : Server),
      (lines.foldl (fun s line => s.queueMessage p line) u).channels = u.channels := by
    intro lines
    induction lines with
    | nil => exact fun u => rfl
    | cons line lines ih => exact fun u => ih _
  rw [handleUserMode]
  split_ifs
  · rfl
  · rfl
  dsimp only
  split_ifs
  · rfl
  · exact (hlines _ _).trans (hloop _ _)

/-- The modes of a channel set by an operator: the changes of the mode string are made,
and besides there is talk. -/
theorem channels_handleChannelMode (msg : Message) (h : s.isMember ch p = true)
    (hop : s.isOperator ch p = true) :
    ∃ cs, (cs = [] ∨ cs = modeChanges (s.memberName ch) true (msg.params.drop 2) (msg.param 1)) ∧
      (s.handleChannelMode p ch msg).channels = (s.withModes ch cs).channels := by
  rw [handleChannelMode, if_neg (by simp [h]), if_neg (by simp [hop])]
  dsimp only
  split_ifs
  · exact ⟨[], Or.inl rfl, by rw [withModes_nil]⟩
  refine ⟨_, Or.inr rfl, ?_⟩
  have hstart : LoopMade s p ch { server := s, params := msg.params.drop 2 } := by
    rw [LoopMade, withModes_nil]
    exact .refl s
  obtain ⟨hmade, happlied⟩ := channelModeLoop_spec hstart (msg.param 1)
  rw [LoopMade, happlied] at hmade
  generalize channelModeLoop p ch { server := s, params := msg.params.drop 2 } (msg.param 1) = m
    at hmade ⊢
  have hsaid := Tells.foldl (P := fun _ _ => True) (s := m.server)
    (f := fun s line => s.broadcastMessage ch line none)
    (renderModeLines (str ":" ++ (m.server.deref p).getPrefix ++ str " MODE " ++
      (m.server.channel ch).name ++ str " ") m.applied)
    fun u _ line _ => .broadcast fun _ _ _ => trivial
  exact (hsaid.read Server.channels fun _ _ _ => rfl).trans
    (hmade.read Server.channels fun _ _ _ => rfl)

/-- A `MODE`. -/
theorem becomes_cmdMode (hL : L p msg) (hcmd : msg.command = str "MODE")
    (hnew : (s.cmdMode p msg).channels.get? ch = some new) : Becomes L s ch new := by
  have hrefused : ∀ {n : String} {a : Str}, (s.sendReply p n a).channels.get? ch = some new →
      Becomes L s ch new := fun h => .talk (.reply (P := fun _ _ => True) trivial) h
  rw [cmdMode] at hnew
  by_cases hnone : msg.params = [] ∨ msg.param 0 = []
  · rw [if_pos hnone] at hnew
    exact hrefused hnew
  rw [if_neg hnone] at hnew
  dsimp only at hnew
  by_cases hhash : (msg.param 0).head? = some HASH
  · rw [if_pos hhash] at hnew
    rcases hfind : s.findChannel (msg.param 0) with _ | chan <;> rw [hfind] at hnew <;>
      dsimp only at hnew
    · exact hrefused hnew
    obtain ⟨rfl, old, hold⟩ := findChannel_eq_some hfind
    by_cases hquery : msg.params.length = 1
    · rw [if_pos hquery] at hnew
      split_ifs at hnew
      · exact hrefused hnew
      all_goals exact .talk ((Tells.reply (P := fun _ _ => True) trivial).andReply trivial) hnew
    rw [if_neg hquery] at hnew
    by_cases hmem : s.isMember (Libcpp.asciiToLower (msg.param 0)) p = true
    · by_cases hop : s.isOperator (Libcpp.asciiToLower (msg.param 0)) p = true
      · obtain ⟨cs, hcs, hmodes⟩ := channels_handleChannelMode msg hmem hop
        rw [hmodes, withModes] at hnew
        obtain ⟨old', hold', ⟨rfl, rfl⟩ | ⟨-, rfl⟩⟩ := get?_updateChannel_eq_some hnew
        · rcases hcs with rfl | rfl
          · exact .reduced hold' (.refl _)
          · refine .moded hL hcmd rfl hold' ?_ rfl
            rw [isOperator, channel_of_get? hold'] at hop
            exact hop
        · exact .reduced hold' (.refl new)
      · rw [handleChannelMode, if_neg (by simp [hmem]), if_pos (by simp [hop])] at hnew
        exact hrefused hnew
    · rw [handleChannelMode, if_pos (by simp [hmem])] at hnew
      exact hrefused hnew
  · rw [if_neg hhash, channels_handleUserMode] at hnew
    exact .reduced hnew (.refl new)

end Handlers

/-- **The step is a line** of a client that is there, read as a message. -/
structure LineStep (M : Matcher) (s t : Server) (p : ClientId) (msg : Message) : Prop where
  live : s.Live p
  line : ∃ raw, OneLine raw ∧ M.buildMessage raw = some msg ∧ t = s.handleMessage M p raw

/-- **Every channel after a step** was there before and has fewer rights in it, or was
given some by a line that asked for it. -/
theorem Step.becomes (h : Step M s t) (hi : s.Inv) (hnew : t.channels.get? ch = some new) :
    Becomes (LineStep M s t) s ch new := by
  rcases h.grants hi with hrun | ⟨p, raw, msg, hp, hraw, hmsg, rfl, hcmd⟩
  · obtain ⟨old, hold, hred⟩ := reduces_runs hrun hnew
    exact .reduced hold hred
  have hline : LineStep M s (s.handleMessage M p raw) p msg := ⟨hp, raw, hraw, hmsg, rfl⟩
  generalize hL : LineStep M s (s.handleMessage M p raw) = L at hline ⊢
  have hheard := (Turn.start hi hp).runs
    (Complies.op (m := .acting) (.hear p raw) rfl hp : Complies s p .acting s _) (by decide)
  have hturn := Turn.start hheard.inv hheard.live
  have hentry : ∀ name handler, findCommand (str name) = some ⟨str name, handler, true⟩ →
      msg.command = str name →
        ((s.deref p).registered = true ∧
          (handler (s.record (.inbound p raw)) p msg).channels.get? ch = some new) ∨
        Becomes L s ch new := by
    intro name handler hfound hname
    rw [handleMessage_of_findCommand hmsg (hname ▸ hfound)] at hnew
    rcases hreg : (s.deref p).registered
    · rw [if_pos ⟨rfl, hreg⟩] at hnew
      exact Or.inr (Becomes.talk (.reply (P := fun _ _ => True) trivial) hnew).unrecord
    · rw [if_neg (by simp [hreg])] at hnew
      exact Or.inl ⟨rfl, hnew⟩
  rcases hcmd with hcmd | hcmd | hcmd
  · rcases hentry "JOIN" cmdJoin rfl hcmd with ⟨hreg, h⟩ | h
    · exact (becomes_cmdJoin hturn hreg hline hcmd h).unrecord
    · exact h
  · rcases hentry "INVITE" cmdInvite rfl hcmd with ⟨-, h⟩ | h
    · exact (becomes_cmdInvite hline hcmd h).unrecord
    · exact h
  · rcases hentry "MODE" cmdMode rfl hcmd with ⟨-, h⟩ | h
    · exact (becomes_cmdMode hline hcmd h).unrecord
    · exact h

/-! ### The table of channels -/

/-- **Nothing was ever set on the channel**: no mode, no topic, no key, no invite. -/
structure Untouched (c : Channel) : Prop where
  inviteOnly : c.inviteOnly = false
  topicRestricted : c.topicRestricted = false
  key : c.key = []
  userLimit : c.userLimit = 0
  topic : c.topic = []
  topicSetter : c.topicSetter = []
  inviteList : c.inviteList = ∅

omit [Libcpp] in
theorem untouched_new {name : Str} {now : Time} : Untouched (Channel.new name fd p now) :=
  ⟨rfl, rfl, rfl, rfl, rfl, rfl, rfl⟩

/-- **The table of channels.** In every reachable state every channel has members, stands
under the lower-case form of its name, and has a valid name, limit and key; so no two
names that differ in case only are both there. A channel that all its members leave in
a step is not there after it, and one that was not there before has nothing set on it:
what was set goes with the last member. -/
theorem Reachable.channels (h : Reachable M s) :
    (∀ ch chan, s.channels.get? ch = some chan →
      (∃ fd p, chan.members.get? fd = some p) ∧ ch = Libcpp.asciiToLower chan.name ∧
        isValidChannelName chan.name = true ∧ (chan.userLimit : ℤ) ≤ MAX_USERLIMIT ∧
          (chan.key = [] ∨ isValidChannelKey chan.key = true)) ∧
    (∀ ch ch' chan chan', s.channels.get? ch = some chan → s.channels.get? ch' = some chan' →
      asciiFold chan.name = asciiFold chan'.name → ch = ch') ∧
    (∀ t ch old, Step M s t → s.channels.get? ch = some old →
      (∀ new fd p, t.channels.get? ch = some new → old.members.get? fd = some p →
        new.members.get? fd ≠ some p) → t.channels.get? ch = none) ∧
    (∀ t ch new, Step M s t → s.channels.get? ch = none → t.channels.get? ch = some new →
      Untouched new) := by
  have htable := h.inv.channelTable
  refine ⟨fun ch chan hchan => ?_, fun ch ch' chan chan' hchan hchan' hfold => ?_,
    fun t ch old hstep hold hleft => ?_, fun t ch new hstep hnone hnew => ?_⟩
  · have hsound := htable ch chan hchan
    exact ⟨hsound.inhabited, hsound.named, hsound.name, hsound.userLimit, hsound.key⟩
  · rw [(htable ch chan hchan).named, (htable ch' chan' hchan').named, Libcpp.asciiToLower_eq,
      Libcpp.asciiToLower_eq, hfold]
  · rcases hnew : t.channels.get? ch with _ | new
    · rfl
    -- whoever is on the channel afterwards, one of the members was on it before
    have hstayed : ∃ fd p, old.members.get? fd = some p ∧ new.members.get? fd = some p := by
      obtain ⟨fd, p, hp⟩ := ((hstep.inv h.inv).channelTable ch new hnew).inhabited
      obtain ⟨fd', p', hp'⟩ := (htable ch old hold).inhabited
      have hsame : ∀ {old' : Channel}, s.channels.get? ch = some old' → old' = old := fun h' =>
        Option.some.inj (h'.symm.trans hold)
      cases hstep.becomes h.inv hnew with
      | reduced hold' hred => exact ⟨fd, p, hsame hold' ▸ hred.members fd p hp, hp⟩
      | entered _ _ _ _ hold' hnot _ hmade =>
        obtain rfl := hsame hold'
        refine ⟨fd', p', hp', ?_⟩
        rw [hmade]
        refine (OrdMap.get?_insert_of_ne _ _ fun heq => ?_).trans hp'
        rw [heq, hp'] at hnot
        exact absurd hnot (by simp)
      | founded _ _ _ _ hnone => exact absurd (hnone.symm.trans hold) (by simp)
      | invited _ _ _ hold' _ _ _ _ hmade =>
        obtain rfl := hsame hold'
        exact ⟨fd', p', hp', hmade ▸ hp'⟩
      | moded _ _ _ hold' _ hmade =>
        obtain rfl := hsame hold'
        exact ⟨fd', p', hp', by rw [hmade, Channel.members_changes]; exact hp'⟩
    obtain ⟨fd, p, hp, hp'⟩ := hstayed
    exact absurd hp' (hleft new fd p hnew hp)
  · cases hstep.becomes h.inv hnew with
    | founded _ _ _ _ _ hmade => exact hmade ▸ untouched_new
    | reduced hold | entered _ _ _ _ hold | invited _ _ _ hold | moded _ _ _ hold =>
      exact absurd (hnone.symm.trans hold) (by simp)

omit [Libcpp] in
/-- The channel of the rehearsal stands under its name, and has members. -/
theorem channels_rehearsed : letI := referenceLibcpp
    (∃ fd p, (rehearsal.channel (str "#a")).members.get? fd = some p) ∧
      str "#a" = asciiFold (rehearsal.channel (str "#a")).name :=
  letI := referenceLibcpp
  have h := (Reachable.channels reachable_rehearsal).1 (str "#a") _ (get?_channel (by decide))
  ⟨h.1, h.2.1⟩

/-! ### Admission -/

/-- The client is a member of the channel. -/
def IsOn (s : Server) (ch : ChannelRef) (p : ClientId) : Prop :=
  ∃ chan fd, s.channels.get? ch = some chan ∧ chan.members.get? fd = some p

/-- A channel with an operator is there. -/
theorem get?_ne_none_of_isOperator (h : s.isOperator ch p = true) : s.channels.get? ch ≠ none := by
  intro hnone
  rw [isOperator, channel_of_none hnone] at h
  exact absurd h (by simp [Channel.isOperator, show (default : Channel).operators = ∅ from rfl])

/-- An operator is a member. -/
theorem Inv.isMember_of_isOperator (hi : s.Inv) (h : s.isOperator ch p = true) :
    s.isMember ch p = true := by
  obtain ⟨c, hc⟩ := Option.ne_none_iff_exists'.mp (get?_ne_none_of_isOperator h)
  rw [isOperator, channel_of_get? hc, Channel.isOperator, decide_eq_true_iff] at h
  obtain ⟨q, hq⟩ := (hi.authority.channel ch c hc).operator _ h
  rw [isMember, channel_of_get? hc]
  exact OrdMap.contains_iff.mpr ⟨q, hq⟩

/-- A channel is named in one word, which begins with a hash. -/
theorem Inv.name_channel (hi : s.Inv) (h : s.channels.get? ch ≠ none) :
    IsWord (s.channel ch).name ∧ (s.channel ch).name.head? = some HASH ∧
      Libcpp.asciiToLower (s.channel ch).name = ch := by
  obtain ⟨c, hc⟩ := Option.ne_none_iff_exists'.mp h
  have hsound := hi.channelTable ch c hc
  rw [channel_of_get? hc]
  have hname := hsound.name
  simp only [isValidChannelName, Bool.and_eq_true, decide_eq_true_eq, List.all_eq_true] at hname
  obtain ⟨⟨⟨-, hhead⟩, -⟩, hall⟩ := hname
  refine ⟨?_, hhead, hsound.named.symm⟩
  rintro d hd rfl
  exact absurd (hall SPACE hd) (by simp)

/-- **The step is an `INVITE`** of a client to a channel, by a member, who is an operator if
the channel is `+i`. -/
def Invites (M : Matcher) (s t : Server) (ch : ChannelRef) (q : ClientId) : Prop :=
  ∃ p msg chan, LineStep M s t p msg ∧ msg.command = str "INVITE" ∧
    Libcpp.asciiToLower (msg.field "invchan") = ch ∧ s.channels.get? ch = some chan ∧
    s.findClientByNick (msg.field "invnick") = some q ∧ chan.isMember (s.deref p).fd = true ∧
    (chan.inviteOnly = true → chan.isOperator (s.deref p).fd = true)

/-- A member stands in the table under the descriptor it has there. -/
theorem Inv.clients_of_member (hi : s.Inv) (hold : s.channels.get? ch = some old)
    (hp : old.members.get? fd = some p) : s.clients.get? fd = some p ∧ (s.deref p).fd = fd := by
  have hent := (hi.authority.channel ch old hold).member fd p hp
  exact ⟨hent.1, hi.table.fd_eq hent.1⟩

/-- **Whoever enters a channel** was admitted by it, on a `JOIN` of its own. -/
theorem Step.enters (h : Step M s t) (hi : s.Inv) (hold : s.channels.get? ch = some old)
    (hnew : t.channels.get? ch = some new) (hout : ∀ fd, old.members.get? fd ≠ some p)
    (hin : new.members.get? fd = some p) :
    fd = (s.deref p).fd ∧ fd ∉ new.inviteList ∧ ∃ msg target, LineStep M s t p msg ∧
      msg.command = str "JOIN" ∧ target ∈ joinTargets msg ∧
        Libcpp.asciiToLower target.1 = ch ∧ old.Admits fd target.2 := by
  have hsame : ∀ {old' : Channel}, s.channels.get? ch = some old' → old' = old := fun h' =>
    Option.some.inj (h'.symm.trans hold)
  cases h.becomes hi hnew with
  | reduced hold' hred => exact absurd (hsame hold' ▸ hred.members fd p hin) (hout fd)
  | @entered old' q msg target hL hcmd hmem hch hold' hnot hadm hmade =>
    obtain rfl := hsame hold'
    have hin' : (old'.members.insert (s.deref q).fd q).get? fd = some p := by
      rw [hmade] at hin
      exact hin
    rw [OrdMap.get?_insert] at hin'
    split_ifs at hin' with hfd
    · obtain rfl := Option.some.inj hin'
      subst hfd
      refine ⟨rfl, ?_, msg, target, hL, hcmd, hmem, hch, hadm⟩
      rw [hmade]
      exact Finset.notMem_erase _ _
    · exact absurd hin' (hout fd)
  | founded _ _ _ _ hnone => exact absurd (hnone.symm.trans hold) (by simp)
  | invited _ _ _ hold' _ _ _ _ hmade =>
    obtain rfl := hsame hold'
    rw [hmade] at hin
    exact absurd hin (hout fd)
  | moded _ _ _ hold' _ hmade =>
    obtain rfl := hsame hold'
    rw [hmade, Channel.members_changes] at hin
    exact absurd hin (hout fd)

/-- **Whoever is invited** was invited by an `INVITE`, and was no member. -/
theorem Step.invites (h : Step M s t) (hi : s.Inv) (hout : fd ∉ (s.channel ch).inviteList)
    (hin : fd ∈ (t.channel ch).inviteList) :
    (s.channel ch).isMember fd = false ∧ ∃ q, s.clients.get? fd = some q ∧ Invites M s t ch q := by
  rcases hnew : t.channels.get? ch with _ | new
  · rw [channel_of_none hnew] at hin
    exact absurd hin (Finset.notMem_empty fd)
  rw [channel_of_get? hnew] at hin
  have hread : ∀ {old : Channel}, s.channels.get? ch = some old → fd ∉ old.inviteList := fun h' =>
    channel_of_get? h' ▸ hout
  cases h.becomes hi hnew with
  | reduced hold hred => exact absurd (hred.inviteList hin) (hread hold)
  | @entered old _ _ _ _ _ _ _ hold _ _ hmade =>
    rw [hmade] at hin
    have hin' : fd ∈ old.inviteList := Finset.mem_of_mem_erase hin
    exact absurd hin' (hread hold)
  | founded _ _ _ _ _ hmade =>
    rw [hmade] at hin
    exact absurd hin (Finset.notMem_empty fd)
  | @invited old p q msg hL hcmd hch hold hq hmem hop hnot hmade =>
    rw [hmade] at hin
    rcases Finset.mem_insert.mp hin with rfl | hin
    · rw [channel_of_get? hold]
      exact ⟨hnot, q, (hi.entitled_of_findClientByNick hq).1, p, msg, old, hL, hcmd, hch, hold, hq,
        hmem, hop⟩
    · exact absurd hin (hread hold)
  | moded _ _ _ hold _ hmade =>
    rw [hmade, Channel.inviteList_changes] at hin
    exact absurd hin (hread hold)

/-- **An invite is used up**: whoever was on a channel and enters it later, while it is
`+i`, was invited in between. -/
theorem Inv.invited_again (hi : s.Inv) (hon : s.IsOn ch p) (hst : Step M s t) (htu : Steps M t u)
    (huv : Step M u v) (hold : u.channels.get? ch = some old) (honly : old.inviteOnly = true)
    (hout : ¬u.IsOn ch p) (hin : v.IsOn ch p) :
    ∃ w x, Steps M t w ∧ Step M w x ∧ Steps M x u ∧ Invites M w x ch p := by
  have hit := hst.inv hi
  have hiu := htu.inv hit
  obtain ⟨chan, fd, hchan, hp⟩ := hon
  obtain ⟨new, fd', hnew, hp'⟩ := hin
  obtain ⟨hclient, hderef⟩ := hi.clients_of_member hchan hp
  obtain ⟨hfd', -, msg, target, hL, -, -, -, hadm⟩ :=
    huv.enters hiu hold hnew (fun fd hfd => hout ⟨old, fd, hold, hfd⟩) hp'
  -- the client keeps its descriptor
  have hheap := hi.table.get? hclient
  have hheapu := hiu.table.live_get? hL.live
  have hold_p : p < s.nextClient := hi.table.heap_lt p _ hheap
  have hages : s.Ages t := ages_runs hi (hst.runs hi)
  obtain ⟨d, hd, hsame⟩ := (hages.trans (htu.ages hit)).client p _ hold_p hheapu
  obtain rfl : fd' = fd := by
    rw [hfd', hsame, Option.some.inj (hd.symm.trans hheap), hderef]
  -- as a member it is not invited, and the step after does not invite it
  have hnot : fd' ∉ (t.channel ch).inviteList := by
    intro hcon
    have huninvited : fd' ∉ (s.channel ch).inviteList := by
      rw [channel_of_get? hchan]
      exact (hi.authority.channel ch chan hchan).uninvited fd' p hp
    have hmember := (hst.invites hi huninvited hcon).1
    rw [channel_of_get? hchan, Channel.isMember, OrdMap.contains_eq_false, hp] at hmember
    exact absurd hmember (by simp)
  have hyes : fd' ∈ (u.channel ch).inviteList := by
    rw [channel_of_get? hold]
    exact hadm.invited honly
  obtain ⟨w, x, htw, hwx, hxu, hnotw, hinx⟩ :=
    Steps.turning (P := fun y => fd' ∈ (y.channel ch).inviteList) htu hnot hyes
  have hiw := htw.inv hit
  obtain ⟨-, q, hq, hinvites⟩ := hwx.invites hiw hnotw hinx
  -- whoever was invited had the descriptor of the client
  have hages' : w.Ages u := (Steps.ages (.single hwx) hiw).trans (hxu.ages (hwx.inv hiw))
  have hold_w : p < w.nextClient := hold_p.trans_le
    (hages.nextClient.trans (htw.ages hit).nextClient)
  obtain ⟨e, he, hsame'⟩ := hages'.client p _ hold_w hheapu
  have hp_w := hiw.table.clients_of_heap p e he
  rw [← hsame', ← hfd', hq] at hp_w
  exact ⟨w, x, htw, hwx, hxu, Option.some.inj hp_w ▸ hinvites⟩

/-- **Whoever becomes an operator** founded the channel, or an operator said `+o`. -/
theorem Step.promotes (h : Step M s t) (hi : s.Inv) (hnew : t.channels.get? ch = some new)
    (hop : fd ∈ new.operators) (hp : new.members.get? fd = some p) :
    (∃ old, s.channels.get? ch = some old ∧ fd ∈ old.operators ∧ old.members.get? fd = some p) ∨
    (s.channels.get? ch = none ∧ fd = (s.deref p).fd ∧ ∃ msg target, LineStep M s t p msg ∧
      msg.command = str "JOIN" ∧ target ∈ joinTargets msg ∧ Libcpp.asciiToLower target.1 = ch) ∨
    ∃ q old msg before after nick, LineStep M s t q msg ∧ msg.command = str "MODE" ∧
      Libcpp.asciiToLower (msg.param 0) = ch ∧ s.channels.get? ch = some old ∧
        old.isOperator (s.deref q).fd = true ∧ msg.param 1 = before ++ 111 :: after ∧
          signAfter true before = true ∧ nick ∈ msg.params.drop 2 ∧
            s.findMember ch nick = some p := by
  cases h.becomes hi hnew with
  | reduced hold hred => exact Or.inl ⟨_, hold, hred.operators hop, hred.members fd p hp⟩
  | @entered old q msg target _ _ _ _ hold hnot _ hmade =>
    subst hmade
    have hop' : fd ∈ old.operators := hop
    obtain ⟨r, hr⟩ := (hi.authority.channel ch old hold).operator fd hop'
    have hne : (s.deref q).fd ≠ fd := fun heq => by
      rw [heq, hr] at hnot
      exact absurd hnot (by simp)
    exact Or.inl ⟨old, hold, hop', (OrdMap.get?_insert_of_ne _ _ hne).symm.trans hp⟩
  | @founded q msg target hL hcmd hmem hch hnone hmade =>
    subst hmade
    have hp' : (OrdMap.empty.insert (s.deref q).fd q : OrdMap Fd ClientId).get? fd = some p := hp
    rw [OrdMap.get?_insert] at hp'
    split_ifs at hp' with hfd
    · obtain rfl := Option.some.inj hp'
      exact Or.inr (Or.inl ⟨hnone, hfd.symm, msg, target, hL, hcmd, hmem, hch⟩)
    · exact absurd hp' (by simp)
  | invited _ _ _ hold _ _ _ _ hmade =>
    subst hmade
    exact Or.inl ⟨_, hold, hop, hp⟩
  | @moded old q msg hL hcmd hch hold hq hmade =>
    subst hmade
    rw [Channel.members_changes] at hp
    rcases Channel.operators_changes hop with hop' | ⟨mc, hmc, hletter, hsign, hfd⟩
    · exact Or.inl ⟨old, hold, hop', hp⟩
    obtain ⟨before, after, nick, hmodes, hafter, hnick, hname⟩ := modeChanges_operator hmc hletter
    -- the member that is reported is the one that became an operator
    obtain ⟨r, hr, hrname⟩ := Option.map_eq_some_iff.mp hname
    rw [memberFd, ← hrname, findMember_nickname hr, Option.map_some, Option.some.injEq] at hfd
    have hmember := hi.member_of_findMember hr
    rw [channel_of_get? hold, hfd, hp, Option.some.injEq] at hmember
    exact Or.inr (Or.inr ⟨q, old, msg, before, after, nick, hL, hcmd, hch, hold, hq, hmodes,
      hafter.trans hsign, hnick, hmember ▸ hr⟩)

/-- **Admission control.** In every step from a reachable state:

* whoever becomes a member of a channel that was there does so by a `JOIN` of its own, of
  a list that names the channel, with a key for it; the channel was not `+i` or the client
  was invited, it had no key or the client supplied it, and there was room; the invite is
  gone afterwards;
* whoever was a member and enters the channel again, while it is `+i`, was invited in
  between: an invite admits once, and whoever was kicked has to be invited after that;
* whoever is an operator afterwards was one before, founded the channel, or was made one
  by a `MODE` with `+o`, that names it, of somebody who was. -/
theorem Reachable.admission (h : Reachable M s) :
    (∀ t ch old new fd p, Step M s t → s.channels.get? ch = some old →
      t.channels.get? ch = some new → (∀ fd', old.members.get? fd' ≠ some p) →
      new.members.get? fd = some p →
      fd = (s.deref p).fd ∧ fd ∉ new.inviteList ∧ ∃ msg target, LineStep M s t p msg ∧
        msg.command = str "JOIN" ∧ target ∈ joinTargets msg ∧
          Libcpp.asciiToLower target.1 = ch ∧ old.Admits fd target.2) ∧
    (∀ t u v ch old p, s.IsOn ch p → Step M s t → Steps M t u → Step M u v →
      u.channels.get? ch = some old → old.inviteOnly = true → ¬u.IsOn ch p → v.IsOn ch p →
      ∃ w x, Steps M t w ∧ Step M w x ∧ Steps M x u ∧ Invites M w x ch p) ∧
    (∀ t ch new fd p, Step M s t → t.channels.get? ch = some new → fd ∈ new.operators →
      new.members.get? fd = some p →
      (∃ old, s.channels.get? ch = some old ∧ fd ∈ old.operators ∧
        old.members.get? fd = some p) ∨
      (s.channels.get? ch = none ∧ fd = (s.deref p).fd ∧ ∃ msg target, LineStep M s t p msg ∧
        msg.command = str "JOIN" ∧ target ∈ joinTargets msg ∧
          Libcpp.asciiToLower target.1 = ch) ∨
      ∃ q old msg before after nick, LineStep M s t q msg ∧ msg.command = str "MODE" ∧
        Libcpp.asciiToLower (msg.param 0) = ch ∧ s.channels.get? ch = some old ∧
          old.isOperator (s.deref q).fd = true ∧ msg.param 1 = before ++ 111 :: after ∧
            signAfter true before = true ∧ nick ∈ msg.params.drop 2 ∧
              s.findMember ch nick = some p) :=
  ⟨fun _ _ _ _ _ _ hstep hold hnew hout hin => hstep.enters h.inv hold hnew hout hin,
    fun _ _ _ _ _ _ hon hst htu huv hold honly hout hin =>
      h.inv.invited_again hon hst htu huv hold honly hout hin,
    fun _ _ _ _ _ hstep hnew hop hp => hstep.promotes h.inv hnew hop hp⟩

omit [Libcpp] in
/-- The second client of the rehearsal joins the channel, which is open. -/
theorem admission_rehearsed : letI := referenceLibcpp
    ∃ msg target, LineStep rehearsalMatcher threshold rehearsal 1 msg ∧
      msg.command = str "JOIN" ∧ target ∈ joinTargets msg ∧ asciiFold target.1 = str "#a" ∧
        (threshold.channel (str "#a")).Admits 5 target.2 :=
  letI := referenceLibcpp
  have hout : ∀ e ∈ (threshold.channel (str "#a")).members.entries, e.2 ≠ 1 := by decide
  have hold : threshold.channels.get? (str "#a") = some (threshold.channel (str "#a")) :=
    get?_channel (by decide)
  have hnew : rehearsal.channels.get? (str "#a") = some (rehearsal.channel (str "#a")) :=
    get?_channel (by decide)
  have hin : (rehearsal.channel (str "#a")).members.get? 5 = some 1 := by decide
  ((Reachable.admission reachable_threshold).1 rehearsal (str "#a") _ _ 5 1 step_rehearsal hold hnew
    (fun _ hfd => hout _ (OrdMap.mem_entries.mpr hfd) rfl) hin).2.2

end Server

end FtIrc
