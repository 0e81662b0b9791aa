import FtIrc.Server.Sessions

/-!
# What a client receives

The payloads handed to the socket buffer of a client, the octets that left it, and
what is still waiting: the octets are the payloads that were not dropped, each
followed by CRLF, in the order they were queued
(`FtIrc.Server.Streams`). As no payload holds a CR, an LF or a NUL, a client that
cuts what it receives into lines gets exactly those payloads
(`FtIrc.Loop.Reachable.oneLineEach`).
-/

namespace FtIrc

open Abnf

variable [Libcpp]

/-! ### Payloads, octets and lines -/

/-- The payloads queued to a client, oldest first. -/
def queuedTo (p : ClientId) : List Event → List Str
  | [] => []
  | .outbound q payload :: old => queuedTo p old ++ (if q = p then [payload] else [])
  | _ :: old => queuedTo p old

/-- The octets sent to a client, oldest first. -/
def sentTo (p : ClientId) : List Event → Str
  | [] => []
  | .sent q octets :: old => sentTo p old ++ (if q = p then octets else [])
  | _ :: old => sentTo p old

/-- What the messages look like on the wire. -/
def framed (messages : List Str) : Str := messages.flatMap (· ++ CRLF)

/-- The lines of a stream: what stands before every LF, without the CR. -/
def protocolLines (stream : Str) : List Str := (stream.splitOn LF).dropLast.map List.dropLast

omit [Libcpp] in
/-- **Messages of one line each are received as they were sent.** -/
theorem protocolLines_framed {messages : List Str} (h : ∀ m ∈ messages, OneLine m) :
    protocolLines (framed messages) = messages := by
  have hsplit : (framed messages).splitOn LF = messages.map (· ++ [CR]) ++ [[]] := by
    induction messages with
    | nil => rfl
    | cons m rest ih =>
      obtain ⟨hm, hrest⟩ := List.forall_mem_cons.mp h
      have hnot : LF ∉ m ++ [CR] := by
        rw [List.mem_append, List.mem_singleton]
        rintro (hmem | hcon)
        · exact (hm LF hmem).2.1 rfl
        · exact absurd hcon (by decide)
      have hcons : framed (m :: rest) = (m ++ [CR]) ++ LF :: framed rest := by
        simp [framed, CRLF]
      rw [hcons, List.splitOn_append_cons_self_of_not_mem hnot, ih hrest]
      rfl
  rw [protocolLines, hsplit, List.dropLast_concat, List.map_map]
  simp [Function.comp_def]

omit [Libcpp] in
theorem mem_trace_of_mem_queuedTo {p : ClientId} {payload : Str} {trace : List Event}
    (h : payload ∈ queuedTo p trace) : .outbound p payload ∈ trace := by
  induction trace with
  | nil => exact absurd h List.not_mem_nil
  | cons e old ih =>
    cases e with
    | outbound q w =>
      rw [queuedTo] at h
      rcases List.mem_append.mp h with h | h
      · exact List.mem_cons_of_mem _ (ih h)
      · split_ifs at h with hq
        · rw [List.mem_singleton] at h
          exact hq ▸ h ▸ List.mem_cons_self
        · exact absurd h List.not_mem_nil
    | _ => exact List.mem_cons_of_mem _ (ih h)

namespace Server

variable {M : Matcher} {s t : Server} {p q : ClientId}

/-- **The streams of the clients**: what was sent to a client and what waits to be sent
are the payloads that were kept, framed. -/
structure Streams (s : Server) : Prop where
  stream : ∀ p, ∃ kept rest, kept.Sublist (queuedTo p s.trace) ∧
    sentTo p s.trace ++ rest = framed kept ∧
      ∀ c, s.heap.get? p = some c → rest = Libcpp.outData c.io
  /-- Nothing was sent to a client that has not arrived yet. -/
  fresh : ∀ p, s.nextClient ≤ p → queuedTo p s.trace = [] ∧ sentTo p s.trace = []

/-- Only sending and transmitting add to a stream. -/
theorem streams_trace_run {op : Op} (hsend : ∀ q msg, op ≠ .send q msg)
    (htransmit : ∀ q n, op ≠ .transmit q n) :
    queuedTo p (op.run s).trace = queuedTo p s.trace ∧
      sentTo p (op.run s).trace = sentTo p s.trace := by
  have hfinal : ∀ (u : Server) fd, queuedTo p (u.finalizeDisconnect fd).trace = queuedTo p u.trace ∧
      sentTo p (u.finalizeDisconnect fd).trace = sentTo p u.trace := by
    intro u fd
    rw [finalizeDisconnect]
    split <;> exact ⟨rfl, rfl⟩
  cases op with
  | send q msg => exact absurd rfl (hsend q msg)
  | transmit q n => exact absurd rfl (htransmit q n)
  | leave fd ch =>
    rw [Op.run, dropMember]
    split_ifs <;> exact ⟨rfl, rfl⟩
  | accept fd hostname =>
    rw [Op.run, acceptClient]
    split_ifs <;> exact ⟨rfl, rfl⟩
  | expel q fd => exact hfinal (s.markTornDown q) fd
  | finalize q fd => exact hfinal s fd
  | _ => exact ⟨rfl, rfl⟩

/-- What waits to be sent is written by sending and transmitting only. -/
theorem outData_run {op : Op} (ht : s.Table) (ho : op.Allowed s)
    (hsend : ∀ msg, op ≠ .send p msg) (htransmit : ∀ n, op ≠ .transmit p n) {c : Client}
    (hc : (op.run s).heap.get? p = some c) :
    (∃ d, s.heap.get? p = some d ∧ Libcpp.outData c.io = Libcpp.outData d.io) ∨
      p = s.nextClient ∧ Libcpp.outData c.io = [] := by
  rcases get?_run ht ho hc with ⟨d, hd, ⟨f, hf, rfl⟩ | ⟨-, rfl⟩⟩ | ⟨fd, hostname, -, hp, rfl⟩
  · refine Or.inl ⟨d, hd, ?_⟩
    cases op <;> simp only [Op.edit, Option.some.injEq, Prod.mk.injEq, reduceCtorEq] at hf <;>
      obtain ⟨rfl, rfl⟩ := hf
    case send q msg => exact absurd rfl (hsend msg)
    case transmit q n => exact absurd rfl (htransmit n)
    case socket p io => exact ho.1.trans (by rw [deref_of_get? hd])
    case user p name mode real =>
      obtain ⟨i, w, hbits⟩ := applyUserModeBitmask_eq mode { d with username := name }
      beta_reduce
      rw [hbits]
    case userMode p flag b => cases flag <;> rfl
    all_goals rfl
  · exact Or.inl ⟨c, hd, rfl⟩
  · exact Or.inr ⟨hp, Libcpp.outData_new _ _⟩

/-- Identities are handed out in increasing order. -/
theorem nextClient_le_run (op : Op) (s : Server) : s.nextClient ≤ (op.run s).nextClient := by
  cases op with
  | leave fd ch =>
    rw [Op.run, dropMember]
    split_ifs <;> exact le_refl s.nextClient
  | accept fd hostname =>
    rw [Op.run, acceptClient]
    split_ifs
    · exact le_refl _
    · exact Nat.le_succ s.nextClient
  | expel q fd =>
    rw [Op.run, finalizeDisconnect]
    split <;> exact le_refl s.nextClient
  | finalize q fd =>
    rw [Op.run, finalizeDisconnect]
    split <;> exact le_refl s.nextClient
  | _ => exact le_refl s.nextClient

/-- A payload is kept, behind the ones before it, or dropped whole. -/
theorem Streams.send (h : s.Streams) (ht : s.Table) (hq : s.Live q) (msg : Str) :
    (s.queueMessage q msg).Streams := by
  refine ⟨fun p => ?_, fun p hp => ?_⟩
  · obtain ⟨kept, rest, hsub, hframed, hrest⟩ := h.stream p
    have hqueued : queuedTo p (s.queueMessage q msg).trace =
        queuedTo p s.trace ++ if q = p then [wire msg] else [] := rfl
    have hsent : sentTo p (s.queueMessage q msg).trace = sentTo p s.trace := rfl
    by_cases hqp : q = p
    · subst hqp
      have hd := ht.live_get? hq
      have hnew : ∀ c, (s.queueMessage q msg).heap.get? q = some c →
          Libcpp.outData (Libcpp.queue (s.deref q).io (wire msg)) = Libcpp.outData c.io := by
        intro c hc
        have hc' : (s.update q fun c => { c with io := Libcpp.queue c.io (wire msg) }).heap.get? q =
          some c := hc
        rw [get?_update_self, hd, Option.map_some, Option.some.injEq] at hc'
        rw [← hc']
      rw [hqueued, hsent, if_pos rfl]
      rw [hrest _ hd] at hframed
      rcases Libcpp.outData_queue (s.deref q).io (wire msg) with hkeep | ⟨hdrop, -⟩
      · refine ⟨kept ++ [wire msg], _, hsub.append (List.Sublist.refl _), ?_, hnew⟩
        rw [hkeep, List.append_assoc, ← List.append_assoc (sentTo q s.trace), hframed]
        simp [framed]
      · exact ⟨kept, _, hsub.trans (List.sublist_append_left _ _), hdrop ▸ hframed, hnew⟩
    · rw [hqueued, hsent, if_neg hqp, List.append_nil]
      refine ⟨kept, rest, hsub, hframed, fun c hc => hrest c ?_⟩
      exact (get?_update_of_ne (Ne.symm hqp)).symm.trans hc
  · have hqp : q ≠ p := fun hcon => absurd (hcon ▸ hp) (Nat.not_le.mpr (Chronicle.lt_of_live ht hq))
    obtain ⟨hqueued, hsent⟩ := h.fresh p hp
    refine ⟨?_, hsent⟩
    change queuedTo p s.trace ++ (if q = p then [wire msg] else []) = []
    rw [hqueued, if_neg hqp]
    rfl

/-- What is sent is the front of what waits to be sent. -/
theorem Streams.transmit (h : s.Streams) (ht : s.Table)
    (hq : s.clients.get? (s.deref q).fd = some q) (n : ℕ) :
    ((Op.transmit q n).run s).Streams := by
  have hd := ht.get? hq
  refine ⟨fun p => ?_, fun p hp => ?_⟩
  · obtain ⟨kept, rest, hsub, hframed, hrest⟩ := h.stream p
    have hsent : sentTo p ((Op.transmit q n).run s).trace = sentTo p s.trace ++
        if q = p then (Libcpp.outData (s.deref q).io).take n else [] := rfl
    by_cases hqp : q = p
    · subst hqp
      refine ⟨kept, (Libcpp.outData (s.deref q).io).drop n, hsub, ?_, fun c hc => ?_⟩
      · rw [hsent, if_pos rfl, List.append_assoc, List.take_append_drop, ← hrest _ hd]
        exact hframed
      · have hc' : (s.update q fun c => { c with io := Libcpp.consume c.io n }).heap.get? q =
          some c := hc
        rw [get?_update_self, hd, Option.map_some, Option.some.injEq] at hc'
        rw [← hc']
        exact (Libcpp.outData_consume _ _).symm
    · rw [hsent, if_neg hqp, List.append_nil]
      refine ⟨kept, rest, hsub, hframed, fun c hc => hrest c ?_⟩
      exact (get?_update_of_ne (Ne.symm hqp)).symm.trans hc
  · have hqp : q ≠ p := fun hcon => absurd (hcon ▸ hp) (Nat.not_le.mpr (ht.heap_lt q _ hd))
    obtain ⟨hqueued, hsent⟩ := h.fresh p hp
    refine ⟨hqueued, ?_⟩
    change sentTo p s.trace ++ (if q = p then (Libcpp.outData (s.deref q).io).take n else []) = []
    rw [hsent, if_neg hqp]
    rfl

/-- **Every allowed operation keeps the streams.** -/
theorem Streams.run {op : Op} (h : s.Streams) (ht : s.Table) (ho : op.Allowed s) :
    (op.run s).Streams := by
  by_cases hsend : ∃ q msg, op = .send q msg
  · obtain ⟨q, msg, rfl⟩ := hsend
    exact h.send ht ho.1 msg
  by_cases htransmit : ∃ q n, op = .transmit q n
  · obtain ⟨q, n, rfl⟩ := htransmit
    exact h.transmit ht ho n
  simp only [not_exists] at hsend htransmit
  refine ⟨fun p => ?_, fun p hp => ?_⟩
  · obtain ⟨kept, rest, hsub, hframed, hrest⟩ := h.stream p
    obtain ⟨hqueued, hsent⟩ := streams_trace_run (p := p) (s := s) hsend htransmit
    rw [hqueued, hsent]
    refine ⟨kept, rest, hsub, hframed, fun c hc => ?_⟩
    rcases outData_run ht ho (hsend p) (htransmit p) hc with ⟨d, hd, hout⟩ | ⟨rfl, hout⟩
    · rw [hrest d hd, hout]
    · -- a client just accepted: nothing was queued to it
      obtain ⟨hnone, -⟩ := h.fresh _ (le_refl s.nextClient)
      rw [hnone, List.sublist_nil] at hsub
      rw [hsub] at hframed
      rw [hout, (List.append_eq_nil_iff.mp hframed).2]
  · obtain ⟨hqueued, hsent⟩ := streams_trace_run (p := p) (s := s) hsend htransmit
    rw [hqueued, hsent]
    exact h.fresh p ((nextClient_le_run op s).trans hp)

/-- The streams of every reachable state. -/
theorem Reachable.streams (h : Reachable M s) : s.Streams := by
  induction h with
  | start password pendingCloseTimeout now reentrant =>
    exact ⟨fun p => ⟨[], [], List.Sublist.refl _, rfl, fun c hc => absurd hc (by simp [started])⟩,
      fun p _ => ⟨rfl, rfl⟩⟩
  | step hs hstep ih =>
    exact ((hstep.runs hs.inv).invariant (I := fun u => u.Inv ∧ u.Streams)
      (fun op u _ ho hu => ⟨hu.1.run ho, hu.2.run hu.1.table ho⟩) ⟨hs.inv, ih⟩).2

end Server

namespace Loop

open Server

variable {M : Matcher} {l : Loop}

/-- **No line injection.** In every state of the event loop, whatever octets the clients
sent and however they were cut into pieces, every payload handed to a socket buffer
is at most 510 octets long and holds no CR, LF or NUL; and what a client was sent,
with what waits to be sent, is read by it as exactly the payloads that were kept, one
line each. -/
theorem Reachable.oneLineEach (h : Reachable M l) :
    (∀ p payload, .outbound p payload ∈ l.server.trace →
      payload.length ≤ 510 ∧ CR ∉ payload ∧ LF ∉ payload ∧ NUL ∉ payload) ∧
    (∀ p c, l.server.heap.get? p = some c → ∃ kept, kept.Sublist (queuedTo p l.server.trace) ∧
      protocolLines (sentTo p l.server.trace ++ Libcpp.outData c.io) = kept) := by
  have hi := h.server.1.inv
  have htext := hi.texts.outbound
  refine ⟨fun p payload hmem => ?_, fun p c hc => ?_⟩
  · obtain ⟨hline, hlen⟩ := htext p payload hmem
    exact ⟨hlen, fun hcon => (hline CR hcon).2.2 rfl, fun hcon => (hline LF hcon).2.1 rfl,
      fun hcon => (hline NUL hcon).1 rfl⟩
  · obtain ⟨kept, rest, hsub, hframed, hrest⟩ := h.server.1.streams.stream p
    refine ⟨kept, hsub, ?_⟩
    rw [← hrest c hc, hframed, protocolLines_framed fun m hm => ?_]
    exact (htext p m (mem_trace_of_mem_queuedTo (hsub.subset hm))).1

/-- The loop after a client came and was idle for so long that it is pinged. -/
@[reducible] def pinged : letI := referenceLibcpp; Loop :=
  letI := referenceLibcpp
  let s := ((started (str "secret") 30 0 []).acceptClient 4 (inetNtoa 127 0 0 1)).afterEvents
    200 200 200
  { server := s, asked := s.epollMask }

omit [Libcpp] in
/-- The client reads the one line that is queued to it. -/
theorem oneLineEach_pinged : letI := referenceLibcpp
    ∃ kept, kept.Sublist (queuedTo 0 pinged.server.trace) ∧
      protocolLines (sentTo 0 pinged.server.trace ++
        Libcpp.outData (pinged.server.deref 0).io) = kept :=
  letI := referenceLibcpp
  have hsome : (pinged.server.heap.get? 0).isSome = true := by decide +kernel
  have h := Reachable.oneLineEach (M := .mute {}) (.step (.step (.start (str "secret") 30 0 [])
    (.accept _ 4 127 0 0 1 rfl)) (.pass _ 200 200 200))
  h.2 0 (pinged.server.deref 0) (by
    obtain ⟨c, hc⟩ := Option.isSome_iff_exists.mp hsome
    rw [deref, hc]
    rfl)

end Loop

end FtIrc
