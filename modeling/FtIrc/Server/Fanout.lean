import FtIrc.Library.Once
import FtIrc.Server.Admission
import FtIrc.Server.Announcements

/-!
# Who is told, and how often

What is said to the members of many channels goes through `FtIrc.Server.queueOnce`, which
is `FtIrc.once` over the descriptors (`FtIrc.Server.queueOnce_eq`). So whoever shares a
channel with a client is told once of what the client does, and nobody else is told
(`FtIrc.Server.ToldOnce`), however many channels they share – also while the channels
are being left one after the other (`FtIrc.Server.spoken_leaving`).
-/

namespace FtIrc

open Abnf

variable [Libcpp]

namespace Server

variable {M : Matcher} {s t u v : Server} {p q : ClientId} {fd : Fd} {ch : ChannelRef}
  {w source verb reason raw text : Str} {msg : Message} {l : List ClientId}
  {lines lines' : List (ClientId × Str)} {P Q : ClientId → Str → Prop}

/-! ### What is said -/

/-- **All that was said has a property.** -/
def Utters (P : ClientId → Str → Prop) (s t : Server) : Prop :=
  ∃ new, t.spoken = new ++ s.spoken ∧ ∀ e ∈ new, P e.1 e.2

namespace Utters

/-- Nothing was said. -/
theorem of_eq (h : t.spoken = s.spoken) : Utters P s t := ⟨[], h, by simp⟩

theorem refl (s : Server) : Utters P s s := .of_eq rfl

theorem trans (h : Utters P s t) (h' : Utters P t u) : Utters P s u := by
  obtain ⟨new, hnew, hP⟩ := h
  obtain ⟨new', hnew', hP'⟩ := h'
  refine ⟨new' ++ new, by rw [hnew', hnew, List.append_assoc], fun e he => ?_⟩
  rcases List.mem_append.mp he with he | he
  · exact hP' e he
  · exact hP e he

/-- One message. -/
theorem message (h : P q (wire w)) : Utters P s (s.queueMessage q w) :=
  ⟨[(q, wire w)], rfl, by simpa using h⟩

/-- A loop, every round of which says nothing else. -/
theorem foldl {α β : Type} {g : β → Server} {f : β → α → β} (l : List α) {b : β}
    (hf : ∀ b, ∀ a ∈ l, Utters P (g b) (g (f b a))) : Utters P (g b) (g (l.foldl f b)) := by
  refine List.foldlRecOn l f (motive := fun c => Utters P (g b) (g c)) (.refl _) fun c hc a ha => ?_
  exact hc.trans (hf c a ha)

end Utters

/-- What messages say, newest first. -/
theorem spoken_queueMany (msgs : List (ClientId × Str)) :
    (s.queueMany msgs).spoken = (msgs.map fun e => (e.1, wire e.2)).reverse ++ s.spoken := by
  have hsaid : ∀ l : List (ClientId × Str),
      (l.map sentAs).filterMap Event.spoken = l.map fun e => (e.1, wire e.2) := fun l => by
    rw [List.filterMap_map]
    exact congrFun (List.filterMap_eq_map (f := fun e : ClientId × Str => (e.1, wire e.2))) l
  rw [spoken, trace_queueMany, List.filterMap_append, List.filterMap_reverse, hsaid]
  rfl

/-! ### Counting what is heard -/

/-- How many of the lines say that to a client. -/
def heard (q : ClientId) (source verb : Str) (lines : List (ClientId × Str)) : ℕ :=
  lines.countP fun e => decide (e.1 = q ∧ (words e.2).take 2 = [source, verb])

/-- **Told once**: some clients hear it exactly once, and nobody else does. -/
structure ToldOnce (source verb : Str) (who : ClientId → Prop) (lines : List (ClientId × Str)) :
    Prop where
  once : ∀ q, who q → heard q source verb lines = 1
  nobody : ∀ q, ¬who q → heard q source verb lines = 0

omit [Libcpp] in
theorem heard_append :
    heard q source verb (lines ++ lines') = heard q source verb lines + heard q source verb lines' :=
  List.countP_append

omit [Libcpp] in
/-- What is not said is not heard. -/
theorem heard_eq_zero (h : ∀ e ∈ lines, (words e.2).take 2 ≠ [source, verb]) :
    heard q source verb lines = 0 := by
  rw [heard, List.countP_eq_zero]
  intro e he hcon
  exact h e he (of_decide_eq_true hcon).2

omit [Libcpp] in
/-- **A line to everybody of a list without repetitions** is heard once by each. -/
theorem heard_map (hl : l.Nodup) (hw : Says source verb w) :
    heard q source verb ((l.map fun q => (q, w)).reverse) = if q ∈ l then 1 else 0 := by
  obtain ⟨rest, hrest⟩ := hw.words
  rw [heard, List.countP_reverse, List.countP_map, ← hl.count]
  refine List.countP_congr fun x _ => ?_
  simp [hrest]

omit [Libcpp] in
/-- The line, to those who are to be told, and what else is said. -/
theorem ToldOnce.of_line {who : ClientId → Prop} (hl : l.Nodup) (hmem : ∀ q, q ∈ l ↔ who q)
    (hw : Says source verb w) (hrest : ∀ e ∈ lines, (words e.2).take 2 ≠ [source, verb]) :
    ToldOnce source verb who (lines ++ (l.map fun q => (q, w)).reverse) where
  once q hq := by rw [heard_append, heard_eq_zero hrest, heard_map hl hw, if_pos ((hmem q).mpr hq)]
  nobody q hq := by
    rw [heard_append, heard_eq_zero hrest, heard_map hl hw, if_neg fun h => hq ((hmem q).mp h)]

/-! ### Those on the channels of a client -/

/-- The two are on a channel together. -/
def Shares (s : Server) (p q : ClientId) : Prop := ∃ ch, s.IsOn ch p ∧ s.IsOn ch q

/-- The members of the channels of a client, channel by channel. -/
def companions (s : Server) (p : ClientId) (keys : List ChannelRef) : List ClientId :=
  (keys.filter fun ch => s.isMember ch p).flatMap fun ch => (s.channel ch).members.values

/-- The members of a channel are on it. -/
theorem mem_members : q ∈ (s.channel ch).members.values ↔ s.IsOn ch q := by
  rw [OrdMap.mem_values]
  constructor
  · rintro ⟨fd, hfd⟩
    rcases hch : s.channels.get? ch with _ | chan
    · rw [channel_of_none hch] at hfd
      exact absurd hfd (by simp [show (default : Channel).members = OrdMap.empty from rfl])
    · exact ⟨chan, fd, hch, channel_of_get? hch ▸ hfd⟩
  · rintro ⟨chan, fd, hch, hfd⟩
    exact ⟨fd, channel_of_get? hch ▸ hfd⟩

/-- A client that is there is a member of the channels it is on. -/
theorem Inv.isMember_iff (hi : s.Inv) (hp : s.Live p) : s.isMember ch p = true ↔ s.IsOn ch p := by
  rw [isMember, Channel.isMember, OrdMap.contains_iff, ← mem_members, OrdMap.mem_values]
  constructor
  · rintro ⟨q, hq⟩
    obtain ⟨chan, fd, hch, hfd⟩ := mem_members.mp (OrdMap.mem_values.mpr ⟨_, hq⟩)
    rw [channel_of_get? hch] at hq ⊢
    have hclient := (hi.clients_of_member hch hq).1
    rw [hp.1, Option.some.injEq] at hclient
    exact ⟨(s.deref p).fd, hclient.symm ▸ hq⟩
  · rintro ⟨fd, hfd⟩
    obtain ⟨chan, fd', hch, -⟩ := mem_members.mp (OrdMap.mem_values.mpr ⟨_, hfd⟩)
    rw [channel_of_get? hch] at hfd ⊢
    exact ⟨p, (hi.clients_of_member hch hfd).2 ▸ hfd⟩

theorem Inv.mem_companions (hi : s.Inv) (hp : s.Live p) :
    q ∈ s.companions p s.channels.keys ↔ s.Shares p q := by
  simp only [companions, List.mem_flatMap, List.mem_filter, hi.isMember_iff hp, mem_members, Shares]
  refine exists_congr fun ch => ⟨fun h => ⟨h.1.2, h.2⟩, fun h => ⟨⟨?_, h.1⟩, h.2⟩⟩
  obtain ⟨chan, fd, hch, -⟩ := h.1
  exact OrdMap.mem_keys.mpr ⟨chan, hch⟩

/-- The descriptor of a client. -/
def fdOf (s : Server) (q : ClientId) : Fd := (s.deref q).fd

/-- Those on a channel are told apart by their descriptors. -/
theorem Inv.eq_of_companions (hi : s.Inv) {keys : List ChannelRef} {q r : ClientId}
    (hq : q ∈ s.companions p keys) (hr : r ∈ s.companions p keys)
    (hfd : s.fdOf q = s.fdOf r) : q = r := by
  have hclient : ∀ x ∈ s.companions p keys, s.clients.get? (s.deref x).fd = some x := by
    intro x hx
    obtain ⟨ch, -, hmem⟩ := List.mem_flatMap.mp hx
    obtain ⟨chan, fd, hch, hfd⟩ := mem_members.mp hmem
    obtain ⟨hc, hd⟩ := hi.clients_of_member hch hfd
    exact hd.symm ▸ hc
  have hsame : s.clients.get? (s.deref q).fd = s.clients.get? (s.deref r).fd :=
    congrArg s.clients.get? hfd
  exact Option.some.inj ((hclient q hq).symm.trans (hsame.trans (hclient r hr)))

/-- **Those who are told**: whoever shares a channel, but not the client itself. -/
theorem Inv.mem_once_companions (hi : s.Inv) (hp : s.Live p) :
    q ∈ once s.fdOf {s.fdOf p} (s.companions p s.channels.keys) ↔
      q ≠ p ∧ s.Shares p q := by
  rw [mem_once_iff fun a ha b hb => hi.eq_of_companions ha hb, hi.mem_companions hp,
    Finset.mem_singleton, and_comm]
  refine and_congr_left fun hshare => not_congr ⟨fun hfd => ?_, fun h => h ▸ rfl⟩
  obtain ⟨ch, hon, hon'⟩ := hshare
  have hself : s.Shares p p := ⟨ch, hon, hon⟩
  exact hi.eq_of_companions ((hi.mem_companions hp).mpr ⟨ch, hon, hon'⟩)
    ((hi.mem_companions hp).mpr hself) hfd

/-! ### Telling those who were not told -/

/-- **Telling those who were not told** is picking everybody once. -/
theorem queueOnce_eq (l : List ClientId) (sent : Finset Fd) :
    s.queueOnce l w sent =
      (s.queueMany ((once s.fdOf sent l).map fun q => (q, w)),
        met s.fdOf sent l) := by
  induction l generalizing s sent with
  | nil => rfl
  | cons q l ih =>
    have hcons : s.queueOnce (q :: l) w sent =
        (if s.fdOf q ∈ sent then (s, sent)
          else (s.queueMessage q w, insert (s.fdOf q) sent)).1.queueOnce l w
        (if s.fdOf q ∈ sent then (s, sent)
          else (s.queueMessage q w, insert (s.fdOf q) sent)).2 := rfl
    rw [hcons]
    by_cases hq : s.fdOf q ∈ sent
    · rw [if_pos hq, ih, once_cons_of_mem hq, met_cons, Finset.insert_eq_of_mem hq]
    · have hfd : (s.queueMessage q w).fdOf = s.fdOf := funext fun _ => fd_queueMessage
      rw [if_neg hq, ih, once_cons_of_notMem hq, met_cons, hfd]
      rfl

/-- Telling the channels of a client. -/
theorem broadcastToChannels_eq :
    s.broadcastToChannels p w = s.queueMany ((once s.fdOf {s.fdOf p}
      (s.companions p s.channels.keys)).map fun q => (q, w)) := by
  have hfold : ∀ (keys : List ChannelRef) (msgs : List (ClientId × Str)) (sent : Finset Fd),
      (keys.foldl
        (fun acc ch =>
          if acc.1.isMember ch p then acc.1.queueOnce (acc.1.channel ch).members.values w acc.2
          else acc) (s.queueMany msgs, sent)).1 =
        s.queueMany (msgs ++ (once s.fdOf sent (s.companions p keys)).map
          fun q => (q, w)) := by
    intro keys
    induction keys with
    | nil => exact fun msgs sent => by simp [companions]
    | cons ch keys ih =>
      intro msgs sent
      rw [List.foldl_cons]
      dsimp only
      rw [isMember_queueMany, channel_queueMany, companions, List.filter_cons]
      split_ifs with hmem
      · have hfd : (s.queueMany msgs).fdOf = s.fdOf := funext fun _ => fd_queueMany
        rw [queueOnce_eq, hfd, ← queueMany_append, ih, List.flatMap_cons, once_append, List.map_append,
          List.append_assoc]
        rfl
      · exact ih msgs sent
  exact hfold s.channels.keys [] _

/-! ### Channels that are left one after the other -/

/-- Whoever leaves a channel and loses an invite to it does nothing to another. -/
theorem channel_dropMember_of_ne {ch' : ChannelRef} (h : ch' ≠ ch) :
    (s.dropMember fd ch).channel ch' = s.channel ch' := by
  have hupd : (s.updateChannel ch fun c => c.removeMember fd).channel ch' = s.channel ch' :=
    congrArg (Option.getD · default) (OrdMap.get?_modify_of_ne _ _ h)
  rw [dropMember]
  split_ifs
  · exact (congrArg (Option.getD · default) (OrdMap.get?_erase_of_ne _ h.symm)).trans hupd
  · exact hupd

/-- **One channel of a teardown**: its members are told who were not told, and no other
channel is touched. -/
theorem teardownChannel_tells (u : Server) (ch : ChannelRef) (sent : Finset Fd) :
    ((teardownChannel p w (u, sent) ch).1.spoken =
        ((once u.fdOf sent (u.companions p [ch])).map fun q => (q, wire w)).reverse ++ u.spoken ∧
      (teardownChannel p w (u, sent) ch).2 = met u.fdOf sent (u.companions p [ch])) ∧
    (∀ ch' ≠ ch, (teardownChannel p w (u, sent) ch).1.channel ch' = u.channel ch') ∧
      (teardownChannel p w (u, sent) ch).1.fdOf = u.fdOf := by
  set v := u.updateChannel ch fun chan => chan.removeInvite (u.deref p).fd with hv
  have hmembers : (v.channel ch).members = (u.channel ch).members := by
    rcases hch : u.channels.get? ch with _ | chan
    · have hnone : v.channels.get? ch = none := by
        rw [hv, updateChannel, OrdMap.get?_modify_self, hch, Option.map_none]
      rw [channel_of_none hch, channel_of_none hnone]
    · rw [hv, channel_updateChannel_self hch, channel_of_get? hch]
      rfl
  have hother : ∀ ch' ≠ ch, v.channel ch' = u.channel ch' := fun ch' hne =>
    congrArg (Option.getD · default) (OrdMap.get?_modify_of_ne _ _ hne)
  have hfd : v.fdOf = u.fdOf := rfl
  have hmember : (v.channel ch).isMember (u.deref p).fd = u.isMember ch p := by
    rw [isMember, Channel.isMember, hmembers, Channel.isMember]
  rw [teardownChannel]
  dsimp only
  rw [← hv, hmember, companions, List.filter_cons]
  split_ifs with hmem
  · rw [queueOnce_eq, hmembers, hfd, List.filter_nil, List.flatMap_cons, List.flatMap_nil,
      List.append_nil]
    dsimp only
    have hspoken : ∀ x : Server, (x.dropMember (u.deref p).fd ch).spoken = x.spoken := fun x => by
      rw [dropMember]
      split_ifs <;> rfl
    refine ⟨⟨?_, rfl⟩, fun ch' hne => ?_, funext fun q => ?_⟩
    · rw [hspoken, spoken_queueMany, List.map_map]
      rfl
    · rw [channel_dropMember_of_ne hne, channel_queueMany, hother ch' hne]
    · exact fd_dropMember.trans fd_queueMany
  · exact ⟨⟨rfl, rfl⟩, hother, rfl⟩

/-- **The channels of a teardown**, the client being on the same ones as in `s` of those
that are left to go through. -/
theorem spoken_leaving {keys : List ChannelRef} (hnd : keys.Nodup) {u : Server} {x : Finset Fd}
    (hfd : u.fdOf = s.fdOf) (hch : ∀ ch ∈ keys, u.channel ch = s.channel ch) :
    (keys.foldl (teardownChannel p w) (u, x)).1.spoken =
      ((once s.fdOf x (s.companions p keys)).map fun q => (q, wire w)).reverse ++ u.spoken := by
  induction keys generalizing u x with
  | nil => rfl
  | cons ch keys ih =>
    obtain ⟨hout, hnd⟩ := List.nodup_cons.mp hnd
    obtain ⟨⟨hsaid, hmet⟩, hother, hfd'⟩ := teardownChannel_tells (p := p) (w := w) u ch x
    have hone : u.companions p [ch] = s.companions p [ch] := by
      have hfdp : (u.deref p).fd = (s.deref p).fd := congrFun hfd p
      simp only [companions, List.filter_cons, List.filter_nil, isMember, hfdp,
        hch ch List.mem_cons_self]
      split_ifs
      · rw [List.flatMap_cons, List.flatMap_cons, hch ch List.mem_cons_self]
        rfl
      · rfl
    have hcons : s.companions p (ch :: keys) = s.companions p [ch] ++ s.companions p keys := by
      rw [companions, companions, companions, ← List.flatMap_append, ← List.filter_append,
        List.singleton_append]
    rw [List.foldl_cons, ih hnd (hfd'.trans hfd) fun ch' hmem => ?_, hsaid, hmet, hone, hcons, hfd,
      once_append, List.map_append, List.reverse_append, List.append_assoc]
    rw [hother ch' fun heq => hout (heq ▸ hmem)]
    exact hch ch' (List.mem_cons_of_mem ch hmem)

/-! ### The end of a session -/

/-- The server speaks for itself. -/
def FromServer (_ : ClientId) (w : Str) : Prop := (words w).head? = some (COLON :: SERVER_NAME)

theorem utters_sendToClient : Utters FromServer s (s.sendToClient q text) := by
  refine .message ?_
  have hshort : (str ":" ++ SERVER_NAME ++ str " ").length ≤ MAX_MSGLEN - 2 := by decide
  have hwords : ∀ x : Str, str ":" ++ SERVER_NAME ++ str " " ++ x = (COLON :: SERVER_NAME) ++ SPACE :: x :=
    fun x => by simp [show str ":" = [COLON] from rfl, show str " " = [SPACE] from rfl]
  rw [FromServer, wire_append hshort, hwords, words_cons (by decide)]
  rfl

/-- An abort says nothing but notices to the parties. -/
theorem utters_abortTransfer (hP : ∀ (u : Server) q text, Utters P u (u.fileNotice q text)) {id : ℤ} {why : Str} :
    Utters P s (s.abortTransfer id why) := by
  have hnotice : ∀ (u : Server) fd text, Utters P u (u.noticeFd fd text) := fun u fd text => by
    rw [noticeFd]
    rcases u.findClientByFd fd with _ | q
    · exact .refl u
    · exact hP u q text
  rw [abortTransfer]
  rcases s.files.transfers.get? id with _ | tr
  · exact .refl s
  · exact ((hnotice s _ _).trans (hnotice _ _ _)).trans (.of_eq rfl)

/-- Aborts say no more. -/
theorem utters_abortWhere (hP : ∀ (u : Server) q text, Utters P u (u.fileNotice q text)) {test : Transfer → Bool}
    {why : Str} : Utters P s (s.abortWhere test why) := by
  rw [abortWhere]
  refine Utters.foldl (g := id) _ fun u id _ => ?_
  rcases u.files.transfers.get? id with _ | tr
  · exact .refl u
  dsimp only
  split_ifs
  · exact utters_abortTransfer hP
  · exact .refl u

/-- The FILE extension says at the end of a session that transfers are aborted. -/
theorem utters_fileOnClientDisconnect (hP : ∀ (u : Server) q text, Utters P u (u.fileNotice q text)) :
    Utters P s (s.fileOnClientDisconnect p) :=
  utters_abortWhere hP

/-- **What is said of a teardown**: that the client quits, and that its transfers are
aborted. -/
theorem utters_clearAway (hP : ∀ (u : Server) q text, Utters P u (u.fileNotice q text))
    (hquit : ∀ q, P q (wire (str ":" ++ (s.deref p).getPrefix ++ str " QUIT :" ++ reason))) :
    Utters P s (s.clearAway p reason) := by
  have hsame : ∀ ch ∈ s.channels.keys, s.channel ch = s.channel ch := fun _ _ => rfl
  have hleft := spoken_leaving (p := p) (x := {s.fdOf p})
    (w := str ":" ++ (s.deref p).getPrefix ++ str " QUIT :" ++ reason)
    (OrdMap.nodup_keys s.channels) (rfl : s.fdOf = s.fdOf) hsame
  rw [clearAway]
  refine Utters.trans ⟨_, hleft, fun e he => ?_⟩ (utters_fileOnClientDisconnect hP)
  obtain ⟨q, -, rfl⟩ := List.mem_map.mp (List.mem_reverse.mp he)
  exact hquit q

/-- **Whoever shared a channel with a client that is torn down** is told so once, and
nobody else is. -/
theorem Inv.toldOnce_clearAway (hi : s.Inv) (reason : Str) (hp : s.Live p) :
    ∃ new, (s.clearAway p reason).spoken = new ++ s.spoken ∧
      ToldOnce (COLON :: (s.deref p).getPrefix) (str "QUIT") (fun q => q ≠ p ∧ s.Shares p q) new := by
  have hverb : HasVerb " QUIT :" := by decide
  have hsays : Says (COLON :: (s.deref p).getPrefix) (str "QUIT")
      (wire (str ":" ++ (s.deref p).getPrefix ++ str " QUIT :" ++ reason)) :=
    (says_name (hi.isWord_getPrefix p).1 ((hi.isWord_getPrefix p).2.trans (by decide)) hverb).append.wire
  have hsame : ∀ ch ∈ s.channels.keys, s.channel ch = s.channel ch := fun _ _ => rfl
  have hleft := fun x => spoken_leaving (p := p) (x := x)
    (w := str ":" ++ (s.deref p).getPrefix ++ str " QUIT :" ++ reason)
    (OrdMap.nodup_keys s.channels) (rfl : s.fdOf = s.fdOf) hsame
  obtain ⟨new, hnew, hserver⟩ := utters_fileOnClientDisconnect (p := p)
    (fun u q text => utters_sendToClient)
    (s := (s.channels.keys.foldl (teardownChannel p
      (str ":" ++ (s.deref p).getPrefix ++ str " QUIT :" ++ reason)) (s, {s.fdOf p})).1)
  refine ⟨new ++ _, ?_, .of_line (nodup_once _ _ _) (fun q => hi.mem_once_companions hp) hsays
    fun e he hcon => ?_⟩
  · rw [clearAway]
    exact hnew.trans (by rw [hleft, ← List.append_assoc])
  · have hhead := hserver e he
    obtain ⟨rest, hrest⟩ : ∃ rest, words e.2 = (COLON :: (s.deref p).getPrefix) :: rest := by
      rcases hw : words e.2 with _ | ⟨first, rest⟩ <;> rw [hw] at hcon
      · exact absurd hcon (by simp)
      · exact ⟨rest, by rw [List.take_succ_cons, List.cons.injEq] at hcon; rw [hcon.1]⟩
    rw [FromServer, hrest, List.head?_cons, Option.some.injEq, List.cons.injEq] at hhead
    exact getPrefix_ne_SERVER_NAME hhead.2

/-- What ends a session says nothing more than the teardown. -/
theorem spoken_finalizeDisconnect : (s.finalizeDisconnect fd).spoken = s.spoken := by
  rw [finalizeDisconnect]
  split <;> rfl

/-- **A client is torn down**, at once or with its close deferred. -/
theorem Inv.toldOnce_disconnect (hi : s.Inv) (hp : s.clients.get? fd = some p)
    (htd : (s.deref p).tearingDown = false) (hreason : OneLine reason)
    (ht : t = s.disconnectClient fd reason ∨ t = s.disconnectClientNow fd reason) :
    ∃ new, t.spoken = new ++ s.spoken ∧
      ToldOnce (COLON :: (s.deref p).getPrefix) (str "QUIT") (fun q => q ≠ p ∧ s.Shares p q) new := by
  obtain rfl := hi.table.fd_eq hp
  obtain ⟨new, hnew, htold⟩ := hi.toldOnce_clearAway reason ⟨hp, htd⟩
  refine ⟨new, ?_, htold⟩
  rw [← hnew]
  rcases ht with rfl | rfl
  · rw [disconnectClient, nesting, disconnectNested_live hi ⟨hp, htd⟩ hreason]
    split_ifs
    · exact spoken_finalizeDisconnect
    · rfl
  · have hpc : (s.deref p).pendingClose = false := (hi.settled p _ (hi.table.get? hp)).trans htd
    have hstate : teardownClientState disconnectClient s p reason =
        (s.clearAway p reason).markTornDown p := teardownClientState_eq hi ⟨hp, htd⟩ hreason nesting
    simp only [disconnectClientNow, hp, hpc, htd, Bool.false_eq_true, if_false, hstate]
    exact spoken_finalizeDisconnect

/-! ### A new nickname -/

/-- **Whoever shares a channel with a client that takes a new name** is told so once, and
so is the client itself; or the `NICK` is refused. -/
theorem Inv.toldOnce_cmdNick (hi : s.Inv) (hp : s.Live p) (hreg : (s.deref p).registered = true) :
    (∃ n a, s.cmdNick p msg = s.sendReply p n a) ∨
      ∃ new, (s.cmdNick p msg).spoken = new ++ s.spoken ∧
        ToldOnce (COLON :: (s.deref p).getPrefix) (str "NICK") (fun q => q = p ∨ s.Shares p q) new := by
  rw [cmdNick]
  dsimp only
  generalize (if msg.matched then msg.field "newnick" else msg.param 0) = asked
  split
  · exact Or.inl ⟨_, _, rfl⟩
  split
  · exact Or.inl ⟨_, _, rfl⟩
  generalize (if asked.length > MAX_NICKLEN then asked.take MAX_NICKLEN else asked) = nick
  split_ifs
  · exact Or.inl ⟨_, _, rfl⟩
  · exact Or.inl ⟨_, _, rfl⟩
  refine Or.inr ?_
  set w := str ":" ++ (s.deref p).getPrefix ++ str " NICK :" ++ nick
  have hverb : HasVerb " NICK :" := by decide
  have hsays : Says (COLON :: (s.deref p).getPrefix) (str "NICK") (wire w) :=
    (says_name (hi.isWord_getPrefix p).1 ((hi.isWord_getPrefix p).2.trans (by decide)) hverb).append.wire
  have hfirst : s.queueMessage p w = s.queueMany [(p, w)] := rfl
  have hfd : (s.queueMany [(p, w)]).fdOf = s.fdOf := funext fun _ => fd_queueMany
  have hsame : (s.queueMany [(p, w)]).companions p s.channels.keys = s.companions p s.channels.keys := by
    simp only [companions, isMember_queueMany, channel_queueMany]
  set others := once s.fdOf {s.fdOf p} (s.companions p s.channels.keys) with hothers
  have hmem : ∀ q, q ∈ p :: others ↔ q = p ∨ s.Shares p q := fun q => by
    rw [List.mem_cons, hothers, hi.mem_once_companions hp]
    tauto
  have hnd : (p :: others).Nodup := by
    refine List.nodup_cons.mpr ⟨fun h => ?_, nodup_once _ _ _⟩
    exact ((hi.mem_once_companions hp).mp h).1 rfl
  refine ⟨[] ++ ((p :: others).map fun q => (q, wire w)).reverse, ?_,
    .of_line hnd hmem hsays (by simp)⟩
  have hupdate : ∀ (u : Server) (f : Client → Client), (u.update p f).spoken = u.spoken := fun _ _ => rfl
  rw [hupdate, hfirst, broadcastToChannels_eq, channels_queueMany, hsame, hfd, ← queueMany_append,
    spoken_queueMany, List.nil_append, List.map_append, List.map_map]
  rfl

/-! ### Messages to channels -/

/-- **Nothing but talk**, as far as the sender of a message and the channels go. -/
structure Chats (p : ClientId) (s t : Server) : Prop where
  said : Utters (fun _ _ => True) s t
  channels : t.channels = s.channels
  fd : (t.deref p).fd = (s.deref p).fd
  named : (t.deref p).getPrefix = (s.deref p).getPrefix

namespace Chats

theorem refl (s : Server) : Chats p s s := ⟨.refl s, rfl, rfl, rfl⟩

theorem trans (h : Chats p s t) (h' : Chats p t u) : Chats p s u :=
  ⟨h.said.trans h'.said, h'.channels.trans h.channels, h'.fd.trans h.fd, h'.named.trans h.named⟩

theorem queueMany (s : Server) (msgs : List (ClientId × Str)) : Chats p s (s.queueMany msgs) :=
  ⟨⟨_, spoken_queueMany msgs, fun _ _ => trivial⟩, channels_queueMany, fd_queueMany, getPrefix_queueMany⟩

theorem reply {n : String} {a : Str} : Chats p s (s.sendReply q n a) :=
  sendReply_eq n a ▸ queueMany s _

theorem message : Chats p s (s.queueMessage q w) := queueMany s [(q, w)]

theorem botReply : Chats p s (s.botReply q text) := message

/-- What the bot does is talk. -/
theorem botHandleMessage : Chats p s (s.botHandleMessage q text) := by
  have hjoke : ∀ (u : Server) (n : ℕ), Chats p u { u with nextJoke := n } := fun u n =>
    ⟨.of_eq rfl, rfl, rfl, rfl⟩
  rw [Server.botHandleMessage]
  dsimp only
  split_ifs
  · exact .refl s
  · rw [botHelp]
    exact botReply.trans (botReply.trans (botReply.trans (botReply.trans botReply)))
  · exact botReply
  · rw [botInfo]
    split_ifs
    · exact botReply
    rcases s.findChannel (botWords text).2 with _ | chan
    · exact botReply
    · dsimp only
      split_ifs
      · exact botReply.trans botReply
      · exact botReply
  · exact botReply.trans (hjoke _ _)
  · exact botReply

/-- What was read of the channels reads the same. -/
theorem findChannel (h : Chats p s t) (name : Str) : t.findChannel name = s.findChannel name := by
  rw [Server.findChannel, Server.findChannel, h.channels]

theorem channel (h : Chats p s t) (ch : ChannelRef) : t.channel ch = s.channel ch := by
  rw [Server.channel, Server.channel, h.channels]

theorem isMember (h : Chats p s t) (ch : ChannelRef) : t.isMember ch p = s.isMember ch p := by
  rw [Server.isMember, Server.isMember, h.channel, h.fd]

end Chats

/-- **What becomes of a message to a channel**: if the sender is on it, every other member
gets it once and nobody gets anything else; if not, nobody but the sender gets
anything. -/
structure Delivered (s : Server) (p : ClientId) (w target : Str) (lines : List (ClientId × Str)) :
    Prop where
  member : ∀ ch, s.findChannel target = some ch → s.IsOn ch p →
    (∀ q, q ≠ p → s.IsOn ch q → lines.count (q, wire w) = 1) ∧
      ∀ e ∈ lines, e.2 = wire w ∧ e.1 ≠ p ∧ s.IsOn ch e.1
  outsider : (∀ ch, s.findChannel target = some ch → ¬s.IsOn ch p) → ∀ e ∈ lines, e.1 = p

/-- No client is on a channel twice. -/
theorem Inv.nodup_members (hi : s.Inv) (ch : ChannelRef) : (s.channel ch).members.values.Nodup := by
  refine List.Nodup.map_on (fun a ha b hb heq => ?_) (List.Nodup.of_map Prod.fst (OrdMap.nodup_keys _))
  have hof : ∀ e ∈ (s.channel ch).members.entries, (s.deref e.2).fd = e.1 := by
    intro e he
    obtain ⟨chan, fd, hch, -⟩ := mem_members.mp (List.mem_map_of_mem he)
    rw [channel_of_get? hch] at he
    exact (hi.clients_of_member hch (OrdMap.mem_entries.mp he)).2
  have hfd : (s.deref a.2).fd = (s.deref b.2).fd := by rw [heq]
  exact Prod.ext ((hof a ha).symm.trans (hfd.trans (hof b hb))) heq

/-- **A message to a channel the sender is on.** -/
theorem Inv.delivered_member (hi : s.Inv) (hfind : s.findChannel text = some ch) (hon : s.IsOn ch p) :
    Delivered s p w text (((s.channel ch).members.values.filter fun q =>
      decide (some p ≠ some q)).map fun q => (q, wire w)) where
  member ch' hch' _ := by
    obtain rfl : ch = ch' := Option.some.inj (hfind.symm.trans hch')
    refine ⟨fun q hne hq => ?_, fun e he => ?_⟩
    · refine List.count_eq_one_of_mem ?_ (List.mem_map.mpr ⟨q, List.mem_filter.mpr
        ⟨mem_members.mpr hq, by simpa using hne.symm⟩, rfl⟩)
      exact ((hi.nodup_members ch).filter _).map fun a b heq => congrArg Prod.fst heq
    · obtain ⟨q, hq, rfl⟩ := List.mem_map.mp he
      obtain ⟨hmem, hne⟩ := List.mem_filter.mp hq
      exact ⟨rfl, fun heq : q = p => of_decide_eq_true hne (congrArg some heq.symm), mem_members.mp hmem⟩
  outsider h := absurd hon (h ch hfind)

/-- A message to a channel the sender is not on, or that is none. -/
theorem delivered_outsider (h : ∀ ch, s.findChannel text = some ch → ¬s.IsOn ch p)
    (hlines : ∀ e ∈ lines, e.1 = p) : Delivered s p w text lines :=
  ⟨fun ch hch hon => absurd hon (h ch hch), fun _ => hlines⟩

/-- The message a client sends to a target. -/
def chatLine (s : Server) (p : ClientId) (verb target text : Str) : Str :=
  str ":" ++ (s.deref p).getPrefix ++ (SPACE :: (verb ++ [SPACE])) ++ target ++ str " :" ++ text

/-- **A round of a `PRIVMSG` or a `NOTICE`**: what is sent to one target. -/
def Round (s : Server) (p : ClientId) (verb text : Str) (u v : Server) (target : Str) : Prop :=
  Chats p u v ∧ ∃ lines : List (ClientId × Str), v.spoken = lines.reverse ++ u.spoken ∧
    (target.head? = some HASH → Delivered s p (s.chatLine p verb target text) target lines)

/-- A target that is no channel. -/
theorem Round.direct {target : Str} (h : Chats p u v) (hno : target.head? ≠ some HASH) :
    Round s p verb text u v target := by
  obtain ⟨new, hnew, -⟩ := h.said
  exact ⟨h, new.reverse, by rw [List.reverse_reverse, hnew], fun hcon => absurd hcon hno⟩

/-- A message to a channel, in a state that is still as it was. -/
theorem Inv.round_channel (hi : s.Inv) {target : Str} (hu : Chats p s u)
    (hfind : s.findChannel target = some ch) (hon : s.IsOn ch p)
    (hw : w = s.chatLine p verb target text) :
    Round s p verb text u (u.broadcastMessage ch w (some p)) target := by
  subst hw
  rw [broadcastMessage_eq, hu.channel]
  refine ⟨.queueMany _ _, _, ?_, fun _ => hi.delivered_member hfind hon⟩
  rw [spoken_queueMany, List.map_map]
  rfl

/-- The sender is told that a message did not go out. -/
theorem round_refused {target a : Str} {n : String}
    (hout : ∀ ch, s.findChannel target = some ch → ¬s.IsOn ch p) :
    Round s p verb text u (u.sendReply p n a) target :=
  ⟨.reply, [(p, wire (replyText (u.deref p).nickname n a))], rfl, fun _ =>
    delivered_outsider hout (by simp)⟩

/-- One target of a `PRIVMSG`. -/
theorem Inv.round_privmsgOne (hi : s.Inv) (hp : s.Live p) (hu : Chats p s u) (target : Str) :
    Round s p (str "PRIVMSG") text u (privmsgOne p text u target) target := by
  have hline : str ":" ++ (u.deref p).getPrefix ++ str " PRIVMSG " ++ target ++ str " :" ++ text =
      s.chatLine p (str "PRIVMSG") target text := by rw [hu.named]; rfl
  rw [privmsgOne, hu.findChannel]
  split_ifs with hhash hbot
  · rcases hfind : s.findChannel target with _ | ch
    · exact round_refused fun ch hch => absurd (hfind.symm.trans hch) (by simp)
    dsimp only
    rw [hu.isMember]
    split_ifs with hmem
    · refine round_refused fun ch' hch' hon => ?_
      obtain rfl : ch = ch' := Option.some.inj (hfind.symm.trans hch')
      simp [(hi.isMember_iff hp).mpr hon] at hmem
    · refine hi.round_channel hu hfind ((hi.isMember_iff hp).mp ?_) hline
      simpa using hmem
  · exact .direct .botHandleMessage hhash
  · rcases u.findClientByNick target with _ | q
    · exact .direct .reply hhash
    · exact .direct .message hhash

/-- One target of a `NOTICE`. -/
theorem Inv.round_noticeOne (hi : s.Inv) (hp : s.Live p) (hu : Chats p s u) (target : Str) :
    Round s p (str "NOTICE") text u (noticeOne p text u target) target := by
  have hline : str ":" ++ (u.deref p).getPrefix ++ str " NOTICE " ++ target ++ str " :" ++ text =
      s.chatLine p (str "NOTICE") target text := by rw [hu.named]; rfl
  have hsilent : (∀ ch, s.findChannel target = some ch → ¬s.IsOn ch p) →
      Round s p (str "NOTICE") text u u target := fun hout =>
    ⟨.refl u, [], rfl, fun _ => delivered_outsider hout (by simp)⟩
  rw [noticeOne, hu.findChannel]
  split_ifs with hhash
  · rcases hfind : s.findChannel target with _ | ch
    · exact hsilent fun ch hch => absurd (hfind.symm.trans hch) (by simp)
    dsimp only
    rw [hu.isMember]
    split_ifs with hmem
    · refine hsilent fun ch' hch' hon => ?_
      obtain rfl : ch = ch' := Option.some.inj (hfind.symm.trans hch')
      simp [(hi.isMember_iff hp).mpr hon] at hmem
    · refine hi.round_channel hu hfind ((hi.isMember_iff hp).mp ?_) hline
      simpa using hmem
  · rcases u.findClientByNick target with _ | q
    · exact .direct (.refl u) hhash
    · exact .direct .message hhash

/-- **The rounds of a `PRIVMSG` or a `NOTICE`**, target after target. -/
theorem rounds {f : Server → Str → Server} (targets : List Str)
    (hf : ∀ u target, Chats p s u → Round s p verb text u (f u target) target) (hu : Chats p s u) :
    ∃ parts : List (List (ClientId × Str)),
      List.Forall₂ (fun target lines => target.head? = some HASH →
        Delivered s p (s.chatLine p verb target text) target lines) targets parts ∧
      (targets.foldl f u).spoken = parts.flatten.reverse ++ u.spoken := by
  induction targets generalizing u with
  | nil => exact ⟨[], .nil, rfl⟩
  | cons target targets ih =>
    obtain ⟨hchat, lines, hlines, hdelivered⟩ := hf u target hu
    obtain ⟨parts, hparts, hsaid⟩ := ih (hu.trans hchat)
    refine ⟨lines :: parts, .cons hdelivered hparts, ?_⟩
    rw [List.foldl_cons, hsaid, hlines, List.flatten_cons, List.reverse_append, List.append_assoc]

/-! ### Exactly once -/

/-- A message has somebody it is for, and a text. -/
def HasText (msg : Message) : Prop := 2 ≤ msg.params.length ∧ msg.param 0 ≠ [] ∧ msg.param 1 ≠ []

/-- **What becomes of a message to many**: for every occurrence of a channel among its
targets there are the lines sent for it; what else is sent is an answer to the sender,
and there is none if it is registered. -/
def DeliversAll (s t : Server) (p : ClientId) (msg : Message) : Prop :=
  ∃ (parts : List (List (ClientId × Str))) (answer : List (ClientId × Str)),
    List.Forall₂ (fun target lines => target.head? = some HASH →
      Delivered s p (s.chatLine p msg.command target (messageText msg)) target lines)
        (messageTargets msg) parts ∧
    t.spoken = answer ++ (parts.flatten.reverse ++ s.spoken) ∧ (∀ e ∈ answer, e.1 = p) ∧
      ((s.deref p).registered = true → answer = [])

/-- That the line was recorded makes no difference. -/
theorem DeliversAll.unrecord (h : (s.record (.inbound q raw)).DeliversAll t p msg) :
    s.DeliversAll t p msg := by
  obtain ⟨parts, answer, hparts, hsaid, hanswer, hreg⟩ := h
  exact ⟨parts, answer, hparts.imp fun _ _ hd hhash => ⟨(hd hhash).member, (hd hhash).outsider⟩,
    hsaid, hanswer, hreg⟩

/-- The handler of a message that has somebody it is for, and a text. -/
theorem Inv.deliversAll (hi : s.Inv) (hp : s.Live p) (hmsg : HasText msg) :
    (msg.command = str "PRIVMSG" → s.DeliversAll (s.cmdPrivmsg p msg) p msg) ∧
      (msg.command = str "NOTICE" → s.DeliversAll (s.cmdNotice p msg) p msg) := by
  obtain ⟨hlen, hzero, hone⟩ := hmsg
  have hsome : msg.params ≠ [] := by
    rintro hnil
    simp [hnil] at hlen
  have hfew : ¬(msg.params.length < 2) := by omega
  constructor
  · intro hcmd
    obtain ⟨parts, hparts, hsaid⟩ := rounds (f := privmsgOne p (messageText msg)) (messageTargets msg)
      (fun u target hu => hi.round_privmsgOne hp hu target) (.refl s)
    refine ⟨parts, [], hcmd ▸ hparts, ?_, by simp, fun _ => rfl⟩
    rw [cmdPrivmsg, if_neg (by simp [hsome, hzero]), if_neg (by simp [hfew, hone])]
    exact hsaid
  · intro hcmd
    obtain ⟨parts, hparts, hsaid⟩ := rounds (f := noticeOne p (messageText msg)) (messageTargets msg)
      (fun u target hu => hi.round_noticeOne hp hu target) (.refl s)
    refine ⟨parts, [], hcmd ▸ hparts, ?_, by simp, fun _ => rfl⟩
    rw [cmdNotice, if_neg (by simp [hfew, hzero, hone])]
    exact hsaid

/-- A client that is not registered is on no channel, and its messages go nowhere. -/
theorem Inv.deliversAll_unregistered (hi : s.Inv) (hreg : (s.deref p).registered = false) {a : Str}
    {n : String} : s.DeliversAll (s.sendReply p n a) p msg := by
  have hout : ∀ ch, ¬s.IsOn ch p := by
    rintro ch ⟨chan, fd, hch, hfd⟩
    have hent := (hi.authority.channel ch chan hch).member fd p hfd
    exact absurd (hreg.symm.trans hent.2.1) Bool.false_ne_true
  refine ⟨(messageTargets msg).map fun _ => [], [(p, wire (replyText (s.deref p).nickname n a))],
    ?_, ?_, by simp, fun h => absurd (h.symm.trans hreg) (by simp)⟩
  · rw [List.forall₂_map_right_iff, List.forall₂_same]
    exact fun target _ _ => delivered_outsider (fun ch _ => hout ch) (by simp)
  · rw [show ((messageTargets msg).map fun _ => ([] : List (ClientId × Str))).flatten = [] by simp]
    rfl

/-- **Exactly once.** From every reachable state:

* a client that is torn down, in any state the server passes through on its way, is
  announced in one `QUIT` line to everybody who shares a channel with it, and to nobody
  else;
* a registered client that says `NICK` is refused, or is announced in one `NICK` line
  under its old name to itself and to everybody who shares a channel with it, and to
  nobody else;
* a `PRIVMSG` or `NOTICE` with a recipient and a text brings one line to every other
  member for each time it names a channel the sender is on, and no line to anybody but
  the sender for each time it names another. -/
theorem Reachable.fanout (h : Reachable M s) :
    (∀ u t fd p reason, serverMachine.Runs (fun _ => True) s u → u.clients.get? fd = some p →
      (u.deref p).tearingDown = false → OneLine reason →
      (t = u.disconnectClient fd reason ∨ t = u.disconnectClientNow fd reason) →
      ∃ new, t.spoken = new ++ u.spoken ∧
        ToldOnce (COLON :: (u.deref p).getPrefix) (str "QUIT") (fun q => q ≠ p ∧ u.Shares p q) new) ∧
    (∀ t p msg, LineStep M s t p msg → msg.command = str "NICK" → (s.deref p).registered = true →
      (∃ raw n a, t = (s.record (.inbound p raw)).sendReply p n a) ∨
      ∃ new, t.spoken = new ++ s.spoken ∧
        ToldOnce (COLON :: (s.deref p).getPrefix) (str "NICK") (fun q => q = p ∨ s.Shares p q) new) ∧
    (∀ t p msg, LineStep M s t p msg →
      msg.command = str "PRIVMSG" ∨ msg.command = str "NOTICE" → HasText msg →
      s.DeliversAll t p msg) := by
  have hheard : ∀ {p raw}, s.Live p → (s.record (.inbound p raw)).Inv := fun {p raw} hp =>
    h.inv.run (show (Op.hear p raw).Allowed s from hp)
  refine ⟨fun u t fd p reason hrun hp htd hreason ht =>
    (h.inv.runs hrun).toldOnce_disconnect hp htd hreason ht, fun t p msg hline hcmd hreg => ?_,
    fun t p msg hline hcmd htext => ?_⟩
  · obtain ⟨hp, raw, -, hmsg, rfl⟩ := hline
    have hfind : findCommand msg.command = some ⟨str "NICK", cmdNick, false⟩ := by
      rw [hcmd]
      rfl
    rw [handleMessage_of_findCommand hmsg hfind, if_neg (by simp)]
    exact ((hheard hp).toldOnce_cmdNick hp hreg).imp_left fun ⟨n, a, h⟩ => ⟨raw, n, a, h⟩
  · obtain ⟨hp, raw, -, hmsg, rfl⟩ := hline
    have hheard' : (s.record (.inbound p raw)).Inv := hheard hp
    obtain ⟨hpriv, hnotice⟩ := hheard'.deliversAll hp htext
    rcases hcmd with hcmd | hcmd
    · have hfind : findCommand msg.command = some ⟨str "PRIVMSG", cmdPrivmsg, true⟩ := by
        rw [hcmd]
        rfl
      rw [handleMessage_of_findCommand hmsg hfind]
      split_ifs with hreg
      · exact (hheard'.deliversAll_unregistered hreg.2).unrecord
      · exact (hpriv hcmd).unrecord
    · have hfind : findCommand msg.command = some ⟨str "NOTICE", cmdNotice, true⟩ := by
        rw [hcmd]
        rfl
      rw [handleMessage_of_findCommand hmsg hfind]
      split_ifs with hreg
      · exact (hheard'.deliversAll_unregistered hreg.2).unrecord
      · exact (hnotice hcmd).unrecord

omit [Libcpp] in
/-- The two of the rehearsal are on a channel. -/
theorem isOn_rehearsal : letI := referenceLibcpp
    rehearsal.IsOn (str "#a") 0 ∧ rehearsal.IsOn (str "#a") 1 :=
  letI := referenceLibcpp
  have hchan : rehearsal.channels.get? (str "#a") = some (rehearsal.channel (str "#a")) :=
    get?_channel (by decide)
  ⟨⟨_, 4, hchan, by decide⟩, _, 5, hchan, by decide⟩

omit [Libcpp] in
/-- The first of the two quits, and the other is told so once. -/
theorem fanout_rehearsed : letI := referenceLibcpp
    ∃ new, (rehearsal.disconnectClient 4 (str "bye")).spoken = new ++ rehearsal.spoken ∧
      heard 1 (str ":alice!u@127.0.0.1") (str "QUIT") new = 1 :=
  letI := referenceLibcpp
  have hname : COLON :: (rehearsal.deref 0).getPrefix = str ":alice!u@127.0.0.1" := by decide
  have h := (Reachable.fanout reachable_rehearsal).1 rehearsal _ 4 0 (str "bye") (.refl _) (by decide)
    (by decide) (by decide) (Or.inl rfl)
  h.imp fun _ hnew => ⟨hnew.1, hname ▸ hnew.2.once 1 ⟨by decide, str "#a", isOn_rehearsal⟩⟩

/-- A message to a channel, without a text. -/
def textless : Message where
  command := str "PRIVMSG"
  params := [str "#a"]

omit [Libcpp] in
theorem buildMessage_textless : letI := referenceLibcpp
    rehearsalMatcher.buildMessage (str "PRIVMSG #a") = some textless := rfl

omit [Libcpp] in
/-- **A message without a text goes nowhere**, though the sender is on the channel. -/
theorem not_deliversAll : letI := referenceLibcpp
    ¬∀ (M : Matcher) (s t : Server) (p : ClientId) (msg : Message), Reachable M s →
      LineStep M s t p msg → msg.command = str "PRIVMSG" ∨ msg.command = str "NOTICE" →
        s.DeliversAll t p msg := by
  let _ := referenceLibcpp
  intro h
  obtain ⟨parts, answer, hparts, hsaid, -, hnone⟩ := h rehearsalMatcher rehearsal _ 0 textless
    reachable_rehearsal ⟨⟨by decide, by decide⟩, str "PRIVMSG #a", by decide, buildMessage_textless, rfl⟩
    (Or.inl rfl)
  -- the sender is told that there is no text
  have htold : ∃ w, (rehearsal.handleMessage rehearsalMatcher 0 (str "PRIVMSG #a")).spoken =
      (0, w) :: rehearsal.spoken := ⟨_, rfl⟩
  obtain ⟨w, hw⟩ := htold
  have htargets : messageTargets textless = [str "#a"] := by decide
  rw [htargets] at hparts
  obtain ⟨lines, rest, hlines, hrest, rfl⟩ := List.forall₂_cons_left_iff.mp hparts
  obtain rfl := List.forall₂_nil_left_iff.mp hrest
  rw [hnone (by decide), hw, List.nil_append, List.flatten_cons, List.flatten_nil, List.append_nil] at hsaid
  have hsame : lines.reverse = [(0, w)] :=
    List.append_cancel_right (hsaid.symm.trans (List.singleton_append).symm)
  have hmem : (0, w) ∈ lines := by
    rw [← List.mem_reverse, hsame]
    exact List.mem_singleton_self _
  have hdelivered := (hlines rfl).member (str "#a") (by decide) isOn_rehearsal.1
  exact (hdelivered.2 (0, w) hmem).2.1 rfl

end Server

end FtIrc
