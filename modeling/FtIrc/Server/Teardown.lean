import FtIrc.Server.Policy

/-!
# The end of a session

`Server::teardownClientState` marks the client first and empties the sets it stands
in afterwards. Nothing it does in between reads the mark, so the mark may as well
be set last (`FtIrc.Server.teardownClientState_eq`); put this way, a teardown is a
sequence of safe operations of a client that is still there
(`FtIrc.Server.Turn.clearAway`), after which its descriptor stands in no set
(`FtIrc.Server.unlisted_clearAway`), and a single operation that ends the session.

An extension that calls `disconnectClient` again from inside the teardown finds the
mark and changes nothing, whatever the bound on the nesting
(`FtIrc.Server.disconnectNested_eq`).
-/

namespace FtIrc

variable [Libcpp]

namespace Server

variable {s₀ s t : Server} {p q : ClientId} {fd : Fd} {ch ch' : ChannelRef} {msg reason : Str}

/-- The teardown of a client without the mark: it leaves every channel, and the
extensions forget it. -/
def clearAway (s : Server) (p : ClientId) (reason : Str) : Server :=
  let quitMsg := str ":" ++ (s.deref p).getPrefix ++ str " QUIT :" ++ reason
  (s.channels.keys.foldl (teardownChannel p quitMsg) (s, {(s.deref p).fd})).1.fileOnClientDisconnect p

/-! ### Nothing in between reads the mark -/

section Mark

/-- What the mark leaves alone reads the same afterwards. -/
theorem deref_mark {β : Type} (g : Client → β)
    (hg : ∀ c : Client, g { c with tearingDown := true } = g c) :
    g ((markTearingDown p s).deref q) = g (s.deref q) :=
  deref_update_field g hg q

@[simp] theorem fd_deref_mark : ((markTearingDown p s).deref q).fd = (s.deref q).fd :=
  deref_mark Client.fd fun _ => rfl

@[simp] theorem nickname_deref_mark : ((markTearingDown p s).deref q).nickname = (s.deref q).nickname :=
  deref_mark Client.nickname fun _ => rfl

@[simp] theorem getPrefix_deref_mark : ((markTearingDown p s).deref q).getPrefix = (s.deref q).getPrefix :=
  deref_mark Client.getPrefix fun _ => rfl

@[simp] theorem io_deref_mark : ((markTearingDown p s).deref q).io = (s.deref q).io :=
  deref_mark Client.io fun _ => rfl

theorem queueMessage_mark : (markTearingDown p s).queueMessage q msg = markTearingDown p (s.queueMessage q msg) := by
  have hcomm : ((s.update p fun c => { c with tearingDown := true }).update q fun c =>
      { c with io := Libcpp.queue c.io (wire msg) }) = _ := update_comm fun _ => rfl
  rw [queueMessage, markTearingDown, hcomm]
  rfl

theorem queueOnce_mark (ps : List ClientId) (sent : Finset Fd) :
    (markTearingDown p s).queueOnce ps msg sent =
      Prod.map (markTearingDown p) id (s.queueOnce ps msg sent) := by
  refine (@List.foldl_hom _ _ _ (Prod.map (markTearingDown p) id) _ _ ps (s, sent)
    fun acc q => ?_).trans rfl
  simp only [Prod.map_fst, Prod.map_snd, id_eq, fd_deref_mark]
  split_ifs
  · rfl
  · rw [queueMessage_mark]
    rfl

theorem dropMember_mark : (markTearingDown p s).dropMember fd ch = markTearingDown p (s.dropMember fd ch) := by
  have hupd : ∀ (u : Server) (f : Channel → Channel),
      (markTearingDown p u).updateChannel ch f = markTearingDown p (u.updateChannel ch f) := fun _ _ => rfl
  have hchan : ∀ u : Server, (markTearingDown p u).channel ch = u.channel ch := fun _ => rfl
  simp only [dropMember, hupd, hchan]
  split_ifs <;> rfl

theorem teardownChannel_mark (acc : Server × Finset Fd) :
    teardownChannel p msg (Prod.map (markTearingDown p) id acc) ch =
      Prod.map (markTearingDown p) id (teardownChannel p msg acc ch) := by
  have hupd : ∀ (u : Server) (f : Channel → Channel),
      (markTearingDown p u).updateChannel ch f = markTearingDown p (u.updateChannel ch f) := fun _ _ => rfl
  have hchan : ∀ u : Server, (markTearingDown p u).channel ch = u.channel ch := fun _ => rfl
  simp only [teardownChannel, Prod.map_fst, Prod.map_snd, id_eq, fd_deref_mark, hupd, hchan,
    queueOnce_mark, dropMember_mark]
  split_ifs <;> rfl

theorem noticeFd_mark (text : Str) : (markTearingDown p s).noticeFd fd text = markTearingDown p (s.noticeFd fd text) := by
  rw [noticeFd, noticeFd]
  rcases hq : s.findClientByFd fd with _ | q
  · rw [show (markTearingDown p s).findClientByFd fd = none from hq]
  · rw [show (markTearingDown p s).findClientByFd fd = some q from hq]
    simp only [fileNotice, sendToClient, nickname_deref_mark, queueMessage_mark]

theorem abortTransfer_mark (id : ℤ) (why : Str) :
    (markTearingDown p s).abortTransfer id why = markTearingDown p (s.abortTransfer id why) := by
  rw [abortTransfer, abortTransfer]
  rcases ht : s.files.transfers.get? id with _ | tr
  · rw [show (markTearingDown p s).files.transfers.get? id = none from ht]
  · rw [show (markTearingDown p s).files.transfers.get? id = some tr from ht]
    simp only [noticeFd_mark]
    rfl

theorem fileOnClientDisconnect_mark :
    (markTearingDown p s).fileOnClientDisconnect p = markTearingDown p (s.fileOnClientDisconnect p) := by
  simp only [fileOnClientDisconnect, abortWhere, fd_deref_mark]
  refine List.foldl_hom (markTearingDown p) fun u id => ?_
  rcases ht : u.files.transfers.get? id with _ | tr
  · rw [show (markTearingDown p u).files.transfers.get? id = none from ht]
  · rw [show (markTearingDown p u).files.transfers.get? id = some tr from ht]
    simp only [abortTransfer_mark]
    split_ifs <;> rfl

end Mark

/-! ### What a teardown does -/

/-- Sending to those who have not had it changes no channel. -/
theorem channels_queueOnce (ps : List ClientId) (sent : Finset Fd) :
    (s.queueOnce ps msg sent).1.channels = s.channels := by
  refine List.foldlRecOn ps _ (motive := fun acc : Server × Finset Fd => acc.1.channels = s.channels)
    rfl fun acc hacc q _ => ?_
  dsimp only
  split_ifs
  · exact hacc
  · exact hacc

/-- The channel, if it is there, holds the descriptor neither as a member nor as an
invited one. -/
def ClearOf (s : Server) (fd : Fd) (ch : ChannelRef) : Prop :=
  ∀ chan, s.channels.get? ch = some chan → chan.members.get? fd = none ∧ fd ∉ chan.inviteList

/-- **One channel of a teardown is a sequence of safe operations.** -/
theorem Turn.teardownChannel {acc : Server × Finset Fd} (h : Turn s₀ p acc.1)
    (hreg : (s₀.deref p).registered = true) (hmsg : Speech .acting msg) :
    Complies s₀ p .acting acc.1 (Server.teardownChannel p msg acc ch).1 := by
  have hun : Complies s₀ p .acting acc.1
      (acc.1.updateChannel ch fun chan => chan.removeInvite (acc.1.deref p).fd) :=
    .op (.uninvite _ ch) ⟨by decide, hreg, h.fd⟩ trivial
  rw [Server.teardownChannel]
  split_ifs
  · have hturn := h.runs hun (by decide)
    have htold := hturn.queueOnce (m := .acting) (x := acc.2) (by decide) hreg
      (fun _ => hturn.inv.live_of_mem (c := ch)) hmsg
    exact (hun.trans htold).trans
      (Complies.op (.leave (acc.1.deref p).fd ch) ⟨by decide, hreg, Or.inl h.fd⟩ trivial)
  · exact hun

namespace Turn

variable {text why : Str}

/-- A notice of the FILE extension to the client itself. -/
theorem notice (h : Turn s₀ p s) (htext : OneLine text) :
    Complies s₀ p .filing s (s.fileNotice p text) := by
  refine h.tell ⟨?_, Or.inr (Or.inl rfl)⟩
  simp (disch := decide) [h.inv.nickname p, htext]

/-- A notice to a party of a transfer. -/
theorem noticeFd (h : Turn s₀ p s) (hreg : (s₀.deref p).registered = true)
    (hfd : ∃ q, s.Entitled fd q) (htext : OneLine text) :
    Complies s₀ p .filing s (s.noticeFd fd text) := by
  obtain ⟨q, hq⟩ := hfd
  rw [Server.noticeFd, findClientByFd, hq.1]
  refine h.send (hq.live h.inv.table) (Or.inr hreg) ⟨?_, Or.inr (Or.inl rfl)⟩
  simp (disch := decide) [h.inv.nickname q, htext]

/-- A transfer is aborted: both parties are told. -/
theorem abortTransfer (h : Turn s₀ p s) (hreg : (s₀.deref p).registered = true) {id : ℤ}
    (hwhy : OneLine why) : Complies s₀ p .filing s (s.abortTransfer id why) := by
  rw [Server.abortTransfer]
  rcases ht : s.files.transfers.get? id with _ | tr
  · exact .refl s
  obtain ⟨hsender, hrecipient⟩ := h.inv.authority.transfer id tr ht
  have hline : OneLine (str "FILE ABRT " ++ Libcpp.toDecimal id ++ str " :" ++ why) := by
    simp (disch := decide) [hwhy]
  have h₁ := h.noticeFd hreg hsender hline
  have h₂ := (h.runs h₁ (by decide)).noticeFd hreg
    (hrecipient.imp fun _ => h.entitled_runs h₁ (by decide)) hline
  exact (h₁.trans h₂).trans (Complies.op (.drop id) ⟨Or.inl rfl, hreg⟩ trivial)

theorem abortWhere (h : Turn s₀ p s) (hreg : (s₀.deref p).registered = true)
    {test : Transfer → Bool} (hwhy : OneLine why) :
    Complies s₀ p .filing s (s.abortWhere test why) := by
  refine h.foldl (by decide) _ fun u hu _ id _ => ?_
  split
  · split_ifs
    · exact hu.abortTransfer hreg hwhy
    · exact .refl u
  · exact .refl u

/-- The channels of a teardown are left one after another. -/
theorem leaveAll (h : Turn s₀ p s) (hreg : (s₀.deref p).registered = true)
    (hreason : OneLine reason) :
    let quitMsg := str ":" ++ (s.deref p).getPrefix ++ str " QUIT :" ++ reason
    let left := (s.channels.keys.foldl (Server.teardownChannel p quitMsg) (s, {(s.deref p).fd})).1
    Complies s₀ p .acting s left ∧ Turn s₀ p left := by
  have hmsg : Speech .acting (str ":" ++ (s.deref p).getPrefix ++ str " QUIT :" ++ reason) :=
    h.inv.speech p " QUIT :" (by simp) (by decide)
      (by simp (disch := decide) [h.inv.getPrefix p, hreason])
  have hchan := Guarded.Runs.foldl (M := serverMachine) (P := Op.Permitted s₀ p .acting)
    (g := Prod.fst) (J := fun acc : Server × Finset Fd => Turn s₀ p acc.1)
    (f := Server.teardownChannel p (str ":" ++ (s.deref p).getPrefix ++ str " QUIT :" ++ reason))
    s.channels.keys
    (fun acc hacc ch _ => ⟨hacc.teardownChannel hreg hmsg,
      hacc.runs (hacc.teardownChannel hreg hmsg) (by decide)⟩) (b := (s, {(s.deref p).fd})) h
  exact hchan

/-- **A teardown, without the mark, is a sequence of safe operations.** -/
theorem clearAway (h : Turn s₀ p s) (hreg : (s₀.deref p).registered = true)
    (hreason : OneLine reason) : Complies s₀ p .filing s (s.clearAway p reason) := by
  obtain ⟨hrun, hturn⟩ := h.leaveAll hreg hreason
  exact hrun.filing.trans (hturn.abortWhere hreg (by decide))

end Turn

/-! ### What is left after a teardown -/

section Fields

theorem fd_queueMessage : ((s.queueMessage q msg).deref p).fd = (s.deref p).fd :=
  deref_update_field Client.fd (f := fun c => { c with io := Libcpp.queue c.io (wire msg) })
    (fun _ => rfl) p

theorem fd_queueOnce (ps : List ClientId) (sent : Finset Fd) :
    ((s.queueOnce ps msg sent).1.deref p).fd = (s.deref p).fd := by
  refine List.foldlRecOn ps _
    (motive := fun acc : Server × Finset Fd => (acc.1.deref p).fd = (s.deref p).fd)
    rfl fun acc hacc q _ => ?_
  dsimp only
  split_ifs
  · exact hacc
  · exact fd_queueMessage.trans hacc

theorem fd_dropMember : ((s.dropMember fd ch).deref p).fd = (s.deref p).fd := by
  rw [dropMember]
  split_ifs <;> rfl

theorem fd_teardownChannel (acc : Server × Finset Fd) :
    ((teardownChannel q msg acc ch).1.deref p).fd = (acc.1.deref p).fd := by
  rw [teardownChannel]
  split_ifs
  · exact fd_dropMember.trans (fd_queueOnce _ _)
  · rfl

theorem noticeFd_eq (text : Str) :
    s.noticeFd fd text = s ∨ ∃ q msg, s.noticeFd fd text = s.queueMessage q msg := by
  rw [noticeFd]
  rcases s.findClientByFd fd with _ | q
  · exact Or.inl rfl
  · exact Or.inr ⟨q, _, rfl⟩

/-- Aborting a transfer forgets it and touches nothing else of the tables. -/
theorem abortTransfer_tables (id : ℤ) (why : Str) :
    (s.abortTransfer id why).files.transfers = s.files.transfers.erase id ∧
      (s.abortTransfer id why).channels = s.channels ∧
        ((s.abortTransfer id why).deref p).fd = (s.deref p).fd := by
  have hnotice : ∀ (u : Server) (fd : Fd) (text : Str), (u.noticeFd fd text).files = u.files ∧
      (u.noticeFd fd text).channels = u.channels ∧
        ((u.noticeFd fd text).deref p).fd = (u.deref p).fd := by
    intro u fd text
    rcases noticeFd_eq (s := u) text with h | ⟨q, msg, h⟩
    · rw [h]
      exact ⟨rfl, rfl, rfl⟩
    · rw [h]
      exact ⟨rfl, rfl, fd_queueMessage⟩
  rw [abortTransfer]
  rcases ht : s.files.transfers.get? id with _ | tr
  · exact ⟨(OrdMap.erase_eq_self ht).symm, rfl, rfl⟩
  · dsimp only
    set line := str "FILE ABRT " ++ Libcpp.toDecimal id ++ str " :" ++ why
    obtain ⟨hf₁, hc₁, hd₁⟩ := hnotice s tr.senderFd line
    obtain ⟨hf₂, hc₂, hd₂⟩ := hnotice (s.noticeFd tr.senderFd line) tr.recipientFd line
    refine ⟨?_, hc₂.trans hc₁, hd₂.trans hd₁⟩
    rw [updateTransfers, hf₂, hf₁]

end Fields

theorem clearOf_dropMember (h : s.ClearOf fd ch') : (s.dropMember fd ch).ClearOf fd ch' := by
  have hupd : (s.updateChannel ch fun c => c.removeMember fd).ClearOf fd ch' := by
    intro chan hchan
    obtain ⟨old, hold, ⟨-, rfl⟩ | ⟨-, rfl⟩⟩ := get?_updateChannel_eq_some hchan
    · exact ⟨OrdMap.get?_erase_self _ _, (h old hold).2⟩
    · exact h chan hold
  rw [dropMember]
  split_ifs
  · intro chan hchan
    have hchan' : ((s.updateChannel ch fun c => c.removeMember fd).channels.erase ch).get? ch' =
        some chan := hchan
    rw [OrdMap.get?_erase] at hchan'
    split_ifs at hchan'
    exact hupd chan hchan'
  · exact hupd

/-- One channel of a teardown is clear afterwards, and so are those that were. -/
theorem clearOf_teardownChannel {acc : Server × Finset Fd} (hfd : (acc.1.deref p).fd = fd)
    (h : ch' = ch ∨ acc.1.ClearOf fd ch') :
    (teardownChannel p msg acc ch).1.ClearOf fd ch' := by
  rw [teardownChannel, hfd]
  set u := acc.1.updateChannel ch fun chan => chan.removeInvite fd with hu
  have hinv : ∀ chan, u.channels.get? ch' = some chan →
      fd ∉ chan.inviteList ∧ (ch' ≠ ch → chan.members.get? fd = none) := by
    intro chan hchan
    obtain ⟨old, hold, ⟨rfl, rfl⟩ | ⟨hne, rfl⟩⟩ := get?_updateChannel_eq_some hchan
    · exact ⟨Finset.notMem_erase _ _, fun hcon => absurd rfl hcon⟩
    · have := (h.resolve_left hne) chan hold
      exact ⟨this.2, fun _ => this.1⟩
  split_ifs with hmem
  · rcases eq_or_ne ch' ch with rfl | hne
    · intro chan hchan
      change ((u.queueOnce _ msg acc.2).1.dropMember fd ch').channels.get? ch' = some chan at hchan
      rw [dropMember] at hchan
      split_ifs at hchan
      · exact absurd hchan (by rw [OrdMap.get?_erase_self]; simp)
      · obtain ⟨old, hold, ⟨-, rfl⟩ | ⟨hne, -⟩⟩ := get?_updateChannel_eq_some hchan
        · rw [channels_queueOnce] at hold
          exact ⟨OrdMap.get?_erase_self _ _, (hinv old hold).1⟩
        · exact absurd rfl hne
    · refine clearOf_dropMember fun chan hchan => ?_
      rw [channels_queueOnce] at hchan
      exact ⟨(hinv chan hchan).2 hne, (hinv chan hchan).1⟩
  · intro chan hchan
    refine ⟨?_, (hinv chan hchan).1⟩
    rcases eq_or_ne ch' ch with rfl | hne
    · rw [channel_of_get? hchan, Channel.isMember, Bool.not_eq_true, OrdMap.contains_eq_false] at hmem
      exact hmem
    · exact (hinv chan hchan).2 hne

theorem fd_foldl (ks : List ChannelRef) (acc : Server × Finset Fd) :
    ((ks.foldl (teardownChannel q msg) acc).1.deref p).fd = (acc.1.deref p).fd :=
  List.foldlRecOn ks _ (motive := fun r : Server × Finset Fd => (r.1.deref p).fd = (acc.1.deref p).fd)
    rfl fun r hr _ _ => (fd_teardownChannel r).trans hr

theorem clearOf_foldl (ks : List ChannelRef) {acc : Server × Finset Fd}
    (hfd : (acc.1.deref p).fd = fd) (h : ch ∈ ks ∨ acc.1.ClearOf fd ch) :
    (ks.foldl (teardownChannel p msg) acc).1.ClearOf fd ch := by
  induction ks generalizing acc with
  | nil => exact h.resolve_left (by simp)
  | cons k ks ih =>
    refine ih ((fd_teardownChannel acc).trans hfd) ?_
    rw [List.mem_cons] at h
    rcases h with (h | h) | h
    · exact Or.inr (clearOf_teardownChannel hfd (Or.inl h))
    · exact Or.inl h
    · exact Or.inr (clearOf_teardownChannel hfd (Or.inr h))

/-- One step of aborting wherever a test on the parties holds. -/
theorem abortOne_tables (test : Transfer → Bool) (why : Str) (k : ℤ) :
    (s.abortOne test why k).channels = s.channels ∧
      ∀ id tr, (s.abortOne test why k).files.transfers.get? id = some tr →
        s.files.transfers.get? id = some tr ∧ (id = k → test tr = false) := by
  rw [abortOne]
  rcases hk : s.files.transfers.get? k with _ | tr₀ <;> dsimp only
  · refine ⟨rfl, fun id tr h => ⟨h, ?_⟩⟩
    rintro rfl
    exact absurd (hk.symm.trans h) (by simp)
  · split_ifs with htest
    · obtain ⟨htr, hch, -⟩ := abortTransfer_tables (s := s) (p := 0) k why
      refine ⟨hch, fun id tr h => ?_⟩
      rw [htr, OrdMap.get?_erase] at h
      split_ifs at h with hid
      exact ⟨h, fun hcon => absurd hcon.symm hid⟩
    · refine ⟨rfl, fun id tr h => ⟨h, ?_⟩⟩
      rintro rfl
      rw [hk, Option.some.injEq] at h
      exact h ▸ Bool.not_eq_true _ ▸ htest

/-- Aborting wherever a test on the parties holds leaves no transfer it holds of. -/
theorem abortWhere_tables (test : Transfer → Bool) (why : Str) :
    (∀ id tr, (s.abortWhere test why).files.transfers.get? id = some tr → test tr = false) ∧
      (s.abortWhere test why).channels = s.channels := by
  have hfold : ∀ (ids : List ℤ) (u : Server),
      let r := ids.foldl (fun s id => s.abortOne test why id) u
      (∀ id tr, r.files.transfers.get? id = some tr →
        u.files.transfers.get? id = some tr ∧ (id ∈ ids → test tr = false)) ∧
      r.channels = u.channels := by
    intro ids
    induction ids with
    | nil => exact fun u => ⟨fun id tr h => ⟨h, fun hcon => absurd hcon (by simp)⟩, rfl⟩
    | cons k ids ih =>
      intro u
      rw [List.foldl_cons]
      obtain ⟨hchannels, hstep⟩ := abortOne_tables (s := u) test why k
      obtain ⟨hr, hrc⟩ := ih (u.abortOne test why k)
      refine ⟨fun id tr h => ?_, hrc.trans hchannels⟩
      obtain ⟨hvid, hids⟩ := hr id tr h
      obtain ⟨hu, hk⟩ := hstep id tr hvid
      exact ⟨hu, fun hmem => (List.mem_cons.mp hmem).elim hk hids⟩
  obtain ⟨hall, hch⟩ := hfold s.files.transfers.keys s
  refine ⟨fun id tr h => ?_, hch⟩
  obtain ⟨hs, htest⟩ := hall id tr h
  exact htest (OrdMap.mem_keys.mpr ⟨tr, hs⟩)

/-- **After a teardown the descriptor stands in no set.** -/
theorem unlisted_clearAway : (s.clearAway p reason).Unlisted (s.deref p).fd := by
  rw [clearAway]
  set fd := (s.deref p).fd with hfd
  set msg := str ":" ++ (s.deref p).getPrefix ++ str " QUIT :" ++ reason
  set r := (s.channels.keys.foldl (teardownChannel p msg) (s, {fd})).1 with hr
  have hclear : ∀ ch, r.ClearOf fd ch := fun ch => by
    refine clearOf_foldl s.channels.keys hfd.symm ?_
    by_cases hch : ch ∈ s.channels.keys
    · exact Or.inl hch
    · exact Or.inr fun chan hchan => absurd (OrdMap.mem_keys.mpr ⟨chan, hchan⟩) hch
  have hrfd : (r.deref p).fd = fd := fd_foldl _ (s, {fd})
  obtain ⟨htr, hch⟩ := abortWhere_tables (s := r)
    (fun t => decide (t.senderFd = (r.deref p).fd ∨ t.recipientFd = (r.deref p).fd))
    (str "peer disconnected")
  rw [fileOnClientDisconnect]
  refine ⟨fun ch chan h => ?_, fun ch chan h => ?_, fun id tr h => ?_⟩
  · rw [hch] at h
    exact (hclear ch chan h).1
  · rw [hch] at h
    exact (hclear ch chan h).2
  · have := htr id tr h
    rw [hrfd, decide_eq_false_iff_not, not_or] at this
    exact this

/-- A descriptor that stands in no set has nothing to clear away. -/
theorem clearAway_eq_self (hU : s.Unlisted (s.deref p).fd) : s.clearAway p reason = s := by
  have hchan : ∀ (sent : Finset Fd) ch, teardownChannel p
      (str ":" ++ (s.deref p).getPrefix ++ str " QUIT :" ++ reason) (s, sent) ch = (s, sent) := by
    intro sent ch
    have hself : (s.updateChannel ch fun chan => chan.removeInvite (s.deref p).fd) = s :=
      updateChannel_eq_self fun chan hc => by
        rw [Channel.removeInvite, Finset.erase_eq_of_notMem (hU.invited ch chan hc)]
    have hmem : (s.channel ch).isMember (s.deref p).fd = false := by
      rw [Channel.isMember, OrdMap.contains_eq_false]
      rcases hc : s.channels.get? ch with _ | chan
      · rw [channel_of_none hc]
        rfl
      · rw [channel_of_get? hc]
        exact hU.member ch chan hc
    simp only [teardownChannel, hself, hmem, Bool.false_eq_true, if_false]
  have hfold : s.channels.keys.foldl (teardownChannel p
      (str ":" ++ (s.deref p).getPrefix ++ str " QUIT :" ++ reason)) (s, {(s.deref p).fd}) =
        (s, {(s.deref p).fd}) := List.foldl_fixed' (hchan _) _
  rw [clearAway, hfold, fileOnClientDisconnect, abortWhere]
  refine List.foldl_fixed' (fun id => ?_) _
  rcases ht : s.files.transfers.get? id with _ | tr
  · rfl
  · have hne := hU.transfer id tr ht
    exact if_neg (by simp [hne.1, hne.2])

/-- A client that is not registered stands in no set, and nothing happens at all. -/
theorem clearAway_of_unregistered (hi : s.Inv) (hp : s.Live p) (hreg : ¬(s.deref p).registered = true) :
    s.clearAway p reason = s := by
  have hno : ∀ q, ¬s.Entitled (s.deref p).fd q := fun q hq => by
    have hpq : p = q := Option.some.inj (hp.1.symm.trans hq.1)
    exact hreg (hpq ▸ hq.2.1)
  exact clearAway_eq_self (hi.authority.unlisted hno)

/-- **What a teardown clears away, whoever is torn down.** -/
theorem complies_clearAway (hi : s.Inv) (hp : s.Live p) (hreason : OneLine reason) :
    Complies s p .filing s (s.clearAway p reason) := by
  by_cases hreg : (s.deref p).registered = true
  · exact (Turn.start hi hp).clearAway hreg hreason
  · rw [clearAway_of_unregistered hi hp hreg]
    exact .refl s

/-! ### Ending a session -/

/-- Whoever is being torn down is not torn down again. -/
theorem disconnectNested_of_tearingDown (n : ℕ) (hp : s.clients.get? fd = some p)
    (htd : (s.deref p).tearingDown = true) : disconnectNested n s fd reason = s := by
  cases n with
  | zero => rfl
  | succ n => simp only [disconnectNested, hp, htd, if_true]

/-- **The mark may as well be set last.** -/
theorem teardownClientState_eq (hi : s.Inv) (hp : s.Live p) (hreason : OneLine reason) (n : ℕ) :
    teardownClientState (disconnectNested n) s p reason =
      (s.clearAway p reason).markTornDown p := by
  have hlive := ((Turn.start hi hp).runs (complies_clearAway hi hp hreason) (by decide)).live
  have hfd := ((Turn.start hi hp).runs (complies_clearAway hi hp hreason) (by decide)).fd
  have hinv := ((Turn.start hi hp).runs (complies_clearAway hi hp hreason) (by decide)).inv
  have hfold : ∀ (u : Server) (msg : Str) (sent : Finset Fd) (ks : List ChannelRef),
      (ks.foldl (teardownChannel p msg) (markTearingDown p u, sent)).1 =
        markTearingDown p (ks.foldl (teardownChannel p msg) (u, sent)).1 := fun u msg sent ks =>
    congrArg Prod.fst (@List.foldl_hom _ _ _ (Prod.map (markTearingDown p) id) _ _ ks (u, sent)
      fun acc _ => teardownChannel_mark acc)
  have hre : ∀ rs : List Str, rs.foldl (fun u r => disconnectNested n u (s.deref p).fd r)
      (markTearingDown p (s.clearAway p reason)) = markTearingDown p (s.clearAway p reason) := fun rs => by
    refine List.foldl_fixed' (fun r => disconnectNested_of_tearingDown n (p := p) ?_ ?_) rs
    · exact hfd ▸ hlive.1
    · rw [markTearingDown, deref_update_self (hinv.table.live_get? hlive)]
  simp only [teardownClientState, hp.2, Bool.false_eq_true, if_false, fd_deref_mark,
    getPrefix_deref_mark]
  change (List.foldl _ (fileOnClientDisconnect (List.foldl (teardownChannel p (str ":" ++
    (s.deref p).getPrefix ++ str " QUIT :" ++ reason))
      (markTearingDown p s, {(s.deref p).fd}) s.channels.keys).1 p) _).record _ = _
  rw [hfold, fileOnClientDisconnect_mark]
  exact congrArg (fun u => Server.record u (.teardown p)) (hre _)

/-- **`disconnectClient` of a client that is there**: everything is cleared away, and
one operation ends the session. -/
theorem disconnectNested_live (hi : s.Inv) (hp : s.Live p) (hreason : OneLine reason) (n : ℕ) :
    disconnectNested (n + 1) s (s.deref p).fd reason =
      if Libcpp.hasPending ((s.clearAway p reason).deref p).io = false then
        (Op.expel p (s.deref p).fd).run (s.clearAway p reason)
      else (Op.defer p).run (s.clearAway p reason) := by
  have hio : (((s.clearAway p reason).markTornDown p).deref p).io =
      ((s.clearAway p reason).deref p).io := io_deref_mark
  simp only [disconnectNested, hp.1, hp.2, Bool.false_eq_true, if_false,
    teardownClientState_eq hi hp hreason, hio, Bool.not_eq_true']
  rfl

/-- **The bound on the nesting is never felt.** -/
theorem disconnectNested_eq (hi : s.Inv) (hreason : OneLine reason) (n : ℕ) :
    disconnectNested (n + 1) s fd reason = s.disconnectClient fd reason := by
  rw [disconnectClient, nesting]
  rcases hc : s.clients.get? fd with _ | p
  · simp only [disconnectNested, hc]
  · obtain rfl := hi.table.fd_eq hc
    rcases htd : (s.deref p).tearingDown
    · rw [disconnectNested_live hi ⟨hc, htd⟩ hreason, disconnectNested_live hi ⟨hc, htd⟩ hreason]
    · rw [disconnectNested_of_tearingDown _ hc htd, disconnectNested_of_tearingDown _ hc htd]

/-- A reason to close that stays one while a line is handled. -/
theorem due_runs {m : Manner} (h : Turn s₀ p s) (hrun : Complies s₀ p m s t) (hm : m ≠ .leaving)
    (hdue : Libcpp.overflowed (s.deref p).io = true ∨ Event.hangup p ∈ s.trace) :
    Libcpp.overflowed (t.deref p).io = true ∨ Event.hangup p ∈ t.trace := by
  refine (hrun.invariant (I := fun u => Turn s₀ p u ∧
    (Libcpp.overflowed (u.deref p).io = true ∨ Event.hangup p ∈ u.trace))
    (fun op u hP ho hu => ⟨hu.1.runs (.single hP ho) hm, ?_⟩) ⟨h, hdue⟩).2
  have hturn : Turn s₀ p (op.run u) := hu.1.runs (.single hP ho) hm
  exact hu.2.imp (overflowed_run hu.1.inv.table ho (hturn.inv.table.live_get? hturn.live))
    mem_trace_run

/-- **A deferred disconnect complies** with what a client may cause. -/
theorem complies_disconnectClient (hi : s.Inv) (hreason : OneLine reason)
    (hp : s.clients.get? fd = some p) : Complies s p .leaving s (s.disconnectClient fd reason) := by
  obtain rfl := hi.table.fd_eq hp
  rw [disconnectClient, nesting]
  rcases htd : (s.deref p).tearingDown
  · have hlive : s.Live p := ⟨hp, htd⟩
    have hclear := complies_clearAway hi hlive hreason
    have hturn := (Turn.start hi hlive).runs hclear (by decide)
    rw [disconnectNested_live hi hlive hreason]
    refine hclear.leaving.trans ?_
    split_ifs with hpend
    · exact Complies.op (.expel p _) ⟨rfl, rfl, rfl⟩
        ⟨hturn.live, hturn.fd.symm, unlisted_clearAway, Or.inl hpend⟩
    · exact Complies.op (.defer p) ⟨rfl, rfl⟩ ⟨hturn.live, hturn.fd ▸ unlisted_clearAway⟩
  · rw [disconnectNested_of_tearingDown _ hp htd]
    exact .refl s

/-- What `disconnectClientNow` amounts to, for a reason: the operations of a deferred
disconnect, or the end of a close that was pending. -/
theorem runs_disconnectClientNow (hi : s.Inv) (hreason : OneLine reason)
    (hp : s.clients.get? fd = some p)
    (hdue : Libcpp.overflowed (s.deref p).io = true ∨ Event.hangup p ∈ s.trace) :
    serverMachine.Runs (fun op => op.Permitted s p .leaving ∨ op = .finalize p fd) s
      (s.disconnectClientNow fd reason) := by
  obtain rfl := hi.table.fd_eq hp
  have hDue : s.Due p := hdue.elim (fun h => Or.inr (Or.inl h)) fun h =>
    Or.inr (Or.inr (Or.inr h))
  simp only [disconnectClientNow, hp]
  rcases hpc : (s.deref p).pendingClose
  · have htd : (s.deref p).tearingDown = false :=
      (hi.settled p _ (hi.table.get? hp)).symm.trans hpc
    have hlive : s.Live p := ⟨hp, htd⟩
    have hclear := complies_clearAway hi hlive hreason
    have hturn := (Turn.start hi hlive).runs hclear (by decide)
    have hdue' := due_runs (Turn.start hi hlive) hclear (by decide) hdue
    have hstate : teardownClientState disconnectClient s p reason =
        (s.clearAway p reason).markTornDown p := teardownClientState_eq hi hlive hreason nesting
    simp only [htd, Bool.false_eq_true, if_false, hstate]
    refine (hclear.leaving.trans ?_).mono fun _ => Or.inl
    exact Complies.op (.expel p _) ⟨rfl, rfl, rfl⟩ ⟨hturn.live, hturn.fd.symm, unlisted_clearAway,
      hdue'.elim (fun h => Or.inr (Or.inl h)) fun h => Or.inr (Or.inr (Or.inr h))⟩
  · simp only [if_true]
    exact Guarded.Runs.single (M := serverMachine) (o := .finalize p (s.deref p).fd) (Or.inr rfl)
      ⟨hp, hpc, hDue⟩

end Server

end FtIrc
