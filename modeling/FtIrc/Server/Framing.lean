import FtIrc.LibcppReference
import FtIrc.Library.Pieces
import FtIrc.Server.State

/-!
# Which messages a stream holds

The octets of a client arrive in chunks. The line buffer cuts them at the LFs, and at a length
no line may exceed; every line it hands out is cut at its CRs. So a CR ends a message just as
an LF does, but the message is not seen until the line is: a message before a bare CR waits
for the next LF, and is lost if that line is too long (`FtIrc.Framed`).

The line buffer is not part of the server. What is assumed of it is what its tests say
(`FtIrc.LineBuffer`, `FtIrc.LineFraming`). However the stream is cut into chunks, the messages
are those of `FtIrc.messagesOf`, computed from the whole stream
(`FtIrc.LineFraming.receiveAll_eq`).
-/

namespace FtIrc

/-! ### The line buffer -/

/-- `libcpp98::LineBuffer`: what has arrived and is not handed out yet, and whether the rest of
a line that was too long is awaited. -/
structure LineBuffer where
  maxLine : ℕ
  data : Str := []
  discarding : Bool := false

/-- A line without the CR at its end. -/
def chomp (line : Str) : Str := if line.getLast? = some CR then line.dropLast else line

namespace LineBuffer

variable (b : LineBuffer)

/-- `LineBuffer::append`. -/
def append (data : Str) : LineBuffer := { b with data := b.data ++ data }

/-- What has arrived, once the rest of a line that was too long is over. -/
def fresh : Option Str :=
  if b.discarding then if LF ∈ b.data then some (b.data.dropWhile (· != LF)).tail else none
  else some b.data

/-- A line is cut to the length it may have, if there is one. -/
def cap (line : Str) : Str := if b.maxLine = 0 then line else line.take b.maxLine

/-- `LineBuffer::next`: a line ends at an LF, or where it is too long; the rest of it is
dropped then. -/
def next : Option (Str × LineBuffer) :=
  b.fresh.bind fun data =>
    if LF ∈ data then
      some (b.cap (chomp (data.takeWhile (· != LF))),
        { b with data := (data.dropWhile (· != LF)).tail, discarding := false })
    else if b.maxLine ≠ 0 ∧ b.maxLine ≤ data.length then
      some (data.take b.maxLine, { b with data := [], discarding := true })
    else none

end LineBuffer

/-- **What is assumed of the socket buffers**: received octets go through a line buffer. -/
structure LineFraming [Libcpp] where
  buffer : Libcpp.Socket → LineBuffer
  buffer_new : ∀ maxLine maxSendQ, buffer (Libcpp.newSocket maxLine maxSendQ) = { maxLine := maxLine }
  buffer_feed : ∀ io data, buffer (Libcpp.feed io data) = (buffer io).append data
  buffer_nextLine : ∀ io, (Libcpp.nextLine io).map (Prod.map id buffer) = (buffer io).next

/-- The messages `extractMessages` has produced when all chunks have been received. -/
def Client.receiveAll [Libcpp] : Client → List Str → List Str
  | _, [] => []
  | c, chunk :: rest =>
    let (messages, io) := ({ c with io := Libcpp.feed c.io chunk } : Client).extractMessages
    messages ++ receiveAll { c with io := io } rest

/-! ### The messages of a stream -/

/-- The pieces of a line, without its NULs. -/
def messagesIn (line : Str) : List Str := pieces (· == CR) (Client.stripNul line)

/-- What the line buffer hands out of what stands after the last LF. -/
def overdue (line : Str) : Str := if MAX_MSGLEN ≤ line.length then line.take MAX_MSGLEN else []

/-- What stands after the last LF. -/
def lastLine (stream : Str) : Str := (stream.splitOn LF).getLast (List.splitOn_ne_nil LF stream)

/-- **The messages the server reads in a stream.** -/
def messagesOf (stream : Str) : List Str :=
  ((stream.splitOn LF).dropLast.flatMap fun line => messagesIn (line.take MAX_MSGLEN)) ++
    messagesIn (overdue (lastLine stream))

/-- The octets that end a message. -/
def isEnd (o : Octet) : Bool := o == CR || o == LF

/-- **The messages of a stream** in which CR and LF both end one. -/
def endedMessages (stream : Str) : List Str := closedPieces isEnd (Client.stripNul stream)

/-- The octets of a line that say something: no NULs and no CRs. -/
def said (line : Str) : Str := (Client.stripNul line).filter fun o => !(o == CR)

/-- **A stream that is read as it was meant**: of every line, all that says something stands
among the octets a line may have; and of what stands after the last LF, what says something
before the last CR is what the line buffer has handed out already. -/
structure Framed (stream : Str) : Prop where
  line : ∀ line ∈ (stream.splitOn LF).dropLast, said (line.drop MAX_MSGLEN) = []
  last : said ((lastLine stream).rdropWhile (· != CR)) = said (overdue (lastLine stream))

instance (stream : Str) : Decidable (Framed stream) :=
  decidable_of_iff ((∀ line ∈ (stream.splitOn LF).dropLast, said (line.drop MAX_MSGLEN) = []) ∧
    said ((lastLine stream).rdropWhile (· != CR)) = said (overdue (lastLine stream)))
    ⟨fun h => ⟨h.1, h.2⟩, fun h => ⟨h.line, h.last⟩⟩

/-- What ends a message. -/
def ends : List Str := [[LF], [CR], CRLF]

/-- **The same messages with other ends.** -/
inductive Reterminated : Str → Str → Prop
  | last {tail : Str} : (∀ o ∈ tail, isEnd o = false) → Reterminated tail tail
  | ended {msg e e' x y : Str} : (∀ o ∈ msg, isEnd o = false) → e ∈ ends → e' ∈ ends → Reterminated x y →
      Reterminated (msg ++ e ++ x) (msg ++ e' ++ y)

/-- Every message is within the length limit, its end included. -/
def Limited (stream : Str) : Prop := ∀ msg ∈ pieces isEnd stream, msg.length < MAX_MSGLEN

instance (stream : Str) : Decidable (Limited stream) :=
  inferInstanceAs (Decidable (∀ msg ∈ pieces isEnd stream, msg.length < MAX_MSGLEN))

/-- A stream, or what it was when one of its lines had ended. -/
def IsPart (part stream : Str) : Prop := part = stream ∨ part <+: stream ∧ part.getLast? = some LF

/-! ### Line by line -/

section Lines

variable {line rest stream seg : Str} {b b' : LineBuffer}

/-- **A stream is a line and the rest, or has no LF.** -/
theorem lines_induction {P : Str → Prop} (last : ∀ line, LF ∉ line → P line)
    (ended : ∀ line rest, LF ∉ line → P rest → P (line ++ LF :: rest)) (stream : Str) : P stream := by
  induction h : stream.length using Nat.strong_induction_on generalizing stream with
  | _ n ih =>
    by_cases hLF : LF ∈ stream
    · obtain ⟨line, rest, rfl, hnot⟩ := List.eq_append_cons_of_mem hLF
      refine ended line rest hnot (ih rest.length ?_ rest rfl)
      rw [← h, List.length_append, List.length_cons]
      omega
    · exact last stream hLF

theorem bne_LF (h : LF ∉ line) : ∀ o ∈ line, (o != LF) = true := fun o ho => by
  rw [bne_iff_ne]
  rintro rfl
  exact h ho

theorem takeWhile_line (h : LF ∉ line) : (line ++ LF :: rest).takeWhile (· != LF) = line := by
  rw [List.takeWhile_append_of_pos (bne_LF h)]
  simp

theorem dropWhile_line (h : LF ∉ line) : (line ++ LF :: rest).dropWhile (· != LF) = LF :: rest := by
  rw [List.dropWhile_append_of_pos (bne_LF h)]
  simp

theorem splitOn_line (h : LF ∉ line) : (line ++ LF :: rest).splitOn LF = line :: rest.splitOn LF :=
  List.splitOn_append_cons_self_of_not_mem h rest

theorem splitOn_last (h : LF ∉ line) : line.splitOn LF = [line] := List.splitOn_eq_singleton h

theorem lastLine_line (h : LF ∉ line) : lastLine (line ++ LF :: rest) = lastLine rest := by
  simp only [lastLine, splitOn_line h]
  exact List.getLast_cons (List.splitOn_ne_nil LF rest)

theorem lastLine_last (h : LF ∉ line) : lastLine line = line := by
  simp only [lastLine, splitOn_last h]
  rfl

theorem dropLast_splitOn_line (h : LF ∉ line) :
    ((line ++ LF :: rest).splitOn LF).dropLast = line :: (rest.splitOn LF).dropLast := by
  rw [splitOn_line h, List.dropLast_cons_of_ne_nil (List.splitOn_ne_nil LF rest)]

theorem messagesOf_line (h : LF ∉ line) :
    messagesOf (line ++ LF :: rest) = messagesIn (line.take MAX_MSGLEN) ++ messagesOf rest := by
  rw [messagesOf, dropLast_splitOn_line h, lastLine_line h, List.flatMap_cons, List.append_assoc]
  rfl

theorem messagesOf_last (h : LF ∉ line) : messagesOf line = messagesIn (overdue line) := by
  rw [messagesOf, splitOn_last h, lastLine_last h]
  rfl

theorem overdue_begins (line : Str) : overdue line <+: line := by
  rw [overdue]
  split_ifs
  · exact List.take_prefix _ _
  · exact List.nil_prefix

/-- What the server cuts a line into. -/
theorem splitOnCr_stripNul : Client.splitOnCr (Client.stripNul line) = messagesIn line := by
  rw [Client.splitOnCr, messagesIn, pieces, List.splitOn]
  refine List.filter_congr fun piece _ => ?_
  cases piece <;> rfl

/-- The CR before an LF says nothing. -/
theorem messagesIn_chomp (n : ℕ) : messagesIn ((chomp line).take n) = messagesIn (line.take n) := by
  rw [chomp]
  split_ifs with hCR
  · obtain ⟨front, rfl⟩ := List.getLast?_eq_some_iff.mp hCR
    rw [List.dropLast_concat]
    rcases Nat.lt_or_ge front.length n with hlt | hge
    · have hlen : (front ++ [CR]).length ≤ n := by
        rw [List.length_append]
        exact hlt
      rw [List.take_of_length_le hlt.le, List.take_of_length_le hlen, messagesIn,
        messagesIn, Client.stripNul, Client.stripNul, List.filter_append]
      exact (pieces_append_of_forall fun o ho => by
        simpa using List.mem_singleton.mp (List.mem_of_mem_filter ho)).symm
    · rw [List.take_append_of_le_length hge]
  · rfl

/-! ### How messages end -/

theorem stripNul_append (u v : Str) : Client.stripNul (u ++ v) = Client.stripNul u ++ Client.stripNul v :=
  List.filter_append ..

theorem stripNul_begins {u : Str} (h : u <+: line) : Client.stripNul u <+: Client.stripNul line := h.filter _

theorem messagesIn_eq_iff {u v : Str} (hu : u <+: line) (hv : v <+: line) :
    messagesIn u = messagesIn v ↔ said u = said v :=
  pieces_eq_iff (stripNul_begins hu) (stripNul_begins hv)

theorem messagesIn_take_iff (n : ℕ) :
    messagesIn (line.take n) = messagesIn line ↔ said (line.drop n) = [] := by
  have hboth : said line = said (line.take n) ++ said (line.drop n) := by
    rw [said, said, said, ← List.filter_append, ← stripNul_append, List.take_append_drop]
  rw [messagesIn_eq_iff (List.take_prefix n line) List.prefix_rfl, hboth, List.self_eq_append_right]

/-- A line without an LF is cut at its CRs only. -/
theorem isEnd_eq (h : LF ∉ line) : ∀ o ∈ Client.stripNul line, isEnd o = (o == CR) := fun o ho => by
  have hne : o ≠ LF := fun heq => h (heq ▸ List.mem_of_mem_filter ho)
  simp [isEnd, hne]

theorem endedMessages_line (h : LF ∉ line) :
    endedMessages (line ++ LF :: rest) = messagesIn line ++ endedMessages rest := by
  rw [endedMessages, stripNul_append, messagesIn, ← pieces_congr (isEnd_eq h)]
  exact closedPieces_append_cons rfl _ _

theorem endedMessages_last (h : LF ∉ line) :
    endedMessages line = messagesIn (line.rdropWhile (· != CR)) := by
  rw [endedMessages, closedPieces_congr (isEnd_eq h), closedPieces_eq, messagesIn]
  refine congrArg _ (rdropWhile_filter fun o ho => ?_)
  rw [Bool.not_eq_false', beq_iff_eq] at ho
  rw [ho]
  decide

theorem framed_line (h : LF ∉ line) :
    Framed (line ++ LF :: rest) ↔ said (line.drop MAX_MSGLEN) = [] ∧ Framed rest := by
  have hlines : ((line ++ LF :: rest).splitOn LF).dropLast = line :: (rest.splitOn LF).dropLast :=
    dropLast_splitOn_line h
  have hlast : lastLine (line ++ LF :: rest) = lastLine rest := lastLine_line h
  constructor
  · rintro ⟨hline, hend⟩
    rw [hlines] at hline
    rw [hlast] at hend
    obtain ⟨hfirst, hrest⟩ := List.forall_mem_cons.mp hline
    exact ⟨hfirst, hrest, hend⟩
  · rintro ⟨hfirst, hrest, hend⟩
    refine ⟨?_, ?_⟩
    · rw [hlines]
      exact List.forall_mem_cons.mpr ⟨hfirst, hrest⟩
    · rwa [hlast]

theorem framed_last (h : LF ∉ line) :
    Framed line ↔ said (line.rdropWhile (· != CR)) = said (overdue line) := by
  constructor
  · rintro ⟨-, hend⟩
    rwa [lastLine_last h] at hend
  · intro hend
    refine ⟨?_, ?_⟩
    · rw [splitOn_last h]
      exact fun l hl => absurd hl List.not_mem_nil
    · rwa [lastLine_last h]

/-- **What is read as it was meant.** -/
theorem Framed.messagesOf_eq (h : Framed stream) : messagesOf stream = endedMessages stream := by
  induction stream using lines_induction with
  | last line hnot =>
    rw [messagesOf_last hnot, endedMessages_last hnot, eq_comm, messagesIn_eq_iff
      (List.rdropWhile_prefix _ _) (overdue_begins line)]
    exact (framed_last hnot).mp h
  | ended line rest hnot ih =>
    obtain ⟨hline, hrest⟩ := (framed_line hnot).mp h
    rw [messagesOf_line hnot, endedMessages_line hnot, (messagesIn_take_iff _).mpr hline, ih hrest]

/-- **What is read as it was meant in all its parts** is a stream that may be. -/
theorem framed_of_parts (h : ∀ part, IsPart part stream → messagesOf part = endedMessages part) :
    Framed stream := by
  induction stream using lines_induction with
  | last line hnot =>
    have hwhole := h line (Or.inl rfl)
    rw [messagesOf_last hnot, endedMessages_last hnot, eq_comm, messagesIn_eq_iff
      (List.rdropWhile_prefix _ _) (overdue_begins line)] at hwhole
    exact (framed_last hnot).mpr hwhole
  | ended line rest hnot ih =>
    have hfirst : messagesIn (line.take MAX_MSGLEN) = messagesIn line := by
      have hpart := h (line ++ LF :: []) (Or.inr ⟨⟨rest, by simp⟩, by simp⟩)
      rw [messagesOf_line hnot, endedMessages_line hnot] at hpart
      exact List.append_cancel_right (hpart : _ ++ endedMessages [] = _ ++ endedMessages [])
    refine (framed_line hnot).mpr ⟨(messagesIn_take_iff _).mp hfirst, ih fun part hpart => ?_⟩
    have hlonger : IsPart (line ++ LF :: part) (line ++ LF :: rest) := by
      rcases hpart with rfl | ⟨hfront, hlast⟩
      · exact Or.inl rfl
      · refine Or.inr ⟨?_, ?_⟩
        · rw [List.prefix_append_right_inj]
          exact (List.prefix_cons_inj LF).mpr hfront
        · rw [List.getLast?_append, List.getLast?_cons, hlast]
          rfl
    have hboth := h _ hlonger
    rw [messagesOf_line hnot, endedMessages_line hnot, hfirst] at hboth
    exact List.append_cancel_left hboth

/-! ### Other ends -/

variable {x y msg e : Str}

theorem stripNul_isEnd (h : ∀ o ∈ msg, isEnd o = false) : ∀ o ∈ Client.stripNul msg, isEnd o = false :=
  fun o ho => h o (List.mem_of_mem_filter ho)

/-- A message and its end, whichever it is. -/
theorem endedMessages_append (he : e ∈ ends) (rest : Str) :
    endedMessages (msg ++ e ++ rest) = pieces isEnd (Client.stripNul msg) ++ endedMessages rest := by
  rw [endedMessages, stripNul_append, stripNul_append, List.append_assoc]
  simp only [ends, List.mem_cons, List.not_mem_nil, or_false] at he
  rcases he with rfl | rfl | rfl
  · exact closedPieces_append_cons rfl _ _
  · exact closedPieces_append_cons rfl _ _
  · refine (closedPieces_append_cons (c := CR) rfl _ (LF :: Client.stripNul rest)).trans ?_
    exact congrArg _ (closedPieces_append_cons (c := LF) rfl [] (Client.stripNul rest))

theorem pieces_append (he : e ∈ ends) (rest : Str) :
    pieces isEnd (msg ++ e ++ rest) = pieces isEnd msg ++ pieces isEnd rest := by
  rw [List.append_assoc]
  simp only [ends, List.mem_cons, List.not_mem_nil, or_false] at he
  rcases he with rfl | rfl | rfl
  · exact pieces_append_cons rfl _ _
  · exact pieces_append_cons rfl _ _
  · refine (pieces_append_cons (c := CR) rfl _ (LF :: rest)).trans ?_
    exact congrArg _ (pieces_append_cons (c := LF) rfl [] rest)

/-- **Other ends, the same messages.** -/
theorem Reterminated.endedMessages_eq (h : Reterminated x y) : endedMessages x = endedMessages y := by
  induction h with
  | last => rfl
  | ended _ he he' _ ih => rw [endedMessages_append he, endedMessages_append he', ih]

theorem Reterminated.limited_iff (h : Reterminated x y) : Limited x ↔ Limited y := by
  have hpieces : pieces isEnd x = pieces isEnd y := by
    induction h with
    | last => rfl
    | ended _ he he' _ ih => rw [pieces_append he, pieces_append he', ih]
  rw [Limited, Limited, hpieces]

theorem Reterminated.cons {o : Octet} (ho : isEnd o = false) (h : Reterminated x y) :
    Reterminated (o :: x) (o :: y) := by
  cases h with
  | last htail => exact .last (List.forall_mem_cons.mpr ⟨ho, htail⟩)
  | @ended msg e e' x y hmsg he he' h =>
    have hlonger : ∀ a ∈ o :: msg, isEnd a = false := List.forall_mem_cons.mpr ⟨ho, hmsg⟩
    exact .ended hlonger he he' h

/-- Every stream has one with LFs only. -/
theorem exists_reterminated (y : Str) : ∃ x, Reterminated x y ∧ CR ∉ x := by
  induction y with
  | nil => exact ⟨[], .last fun _ h => absurd h List.not_mem_nil, List.not_mem_nil⟩
  | cons o y ih =>
    obtain ⟨x, hx, hCR⟩ := ih
    rcases ho : isEnd o
    · refine ⟨o :: x, hx.cons ho, fun hmem => ?_⟩
      rcases List.mem_cons.mp hmem with rfl | hmem
      · exact absurd ho (by decide)
      · exact hCR hmem
    · have hLF : [LF] ∈ ends := List.mem_cons_self
      have hend : [o] ∈ ends := by
        rw [isEnd, Bool.or_eq_true, beq_iff_eq, beq_iff_eq] at ho
        rcases ho with rfl | rfl
        · exact List.mem_cons_of_mem _ List.mem_cons_self
        · exact hLF
      refine ⟨LF :: x, .ended (fun _ h => absurd h List.not_mem_nil) hLF hend hx, fun hmem => ?_⟩
      rcases List.mem_cons.mp hmem with heq | hmem
      · exact absurd heq (by decide)
      · exact hCR hmem

/-- A line of one message, within the limit. -/
theorem length_lt_of_limited (hCR : CR ∉ line) (hLF : LF ∉ line)
    (h : ∀ msg ∈ pieces isEnd line, msg.length < MAX_MSGLEN) : line.length < MAX_MSGLEN := by
  have hend : ∀ o ∈ line, isEnd o = false := fun o ho => by
    rw [isEnd, Bool.or_eq_false_iff, beq_eq_false_iff_ne, beq_eq_false_iff_ne]
    exact ⟨fun heq => hCR (heq ▸ ho), fun heq => hLF (heq ▸ ho)⟩
  rw [pieces_of_forall hend] at h
  by_cases hnil : line = []
  · rw [hnil]
    decide
  · rw [if_neg hnil] at h
    exact h line (List.mem_singleton_self line)

/-- **With LFs only a stream is read as it was meant.** -/
theorem framed_of_noCr (hCR : CR ∉ x) (hlimit : Limited x) : Framed x := by
  induction x using lines_induction with
  | last line hnot =>
    have hshort := length_lt_of_limited hCR hnot hlimit
    have hnone : line.rdropWhile (· != CR) = [] := List.rdropWhile_eq_nil_iff.mpr fun o ho => by
      rw [bne_iff_ne]
      rintro rfl
      exact hCR ho
    rw [framed_last hnot, hnone, overdue, if_neg (Nat.not_le.mpr hshort)]
  | ended line rest hnot ih =>
    have hsplit : pieces isEnd (line ++ LF :: rest) = pieces isEnd line ++ pieces isEnd rest :=
      pieces_append_cons rfl _ _
    rw [Limited, hsplit, List.forall_mem_append] at hlimit
    obtain ⟨hline, hrest⟩ := hlimit
    rw [List.mem_append, List.mem_cons, not_or, not_or] at hCR
    have hshort := length_lt_of_limited hCR.1 hnot hline
    rw [framed_line hnot, List.drop_eq_nil_of_le hshort.le]
    exact ⟨rfl, ih hCR.2.2 hrest⟩

/-- What is read as it was meant was so in all its parts. -/
theorem Framed.part {part : Str} (h : Framed stream) (hpart : IsPart part stream) : Framed part := by
  rcases hpart with rfl | ⟨⟨rest, rfl⟩, hlast⟩
  · exact h
  obtain ⟨front, rfl⟩ := List.getLast?_eq_some_iff.mp hlast
  have hsplit : ∀ more, (front ++ [LF] ++ more).splitOn LF = front.splitOn LF ++ more.splitOn LF := fun more => by
    rw [List.append_assoc]
    exact List.splitOn_append_cons_self front more
  have hpart : (front ++ [LF]).splitOn LF = front.splitOn LF ++ [[]] := by
    have := hsplit []
    rwa [List.append_nil] at this
  refine ⟨fun line hline => h.line line ?_, ?_⟩
  · rw [hpart, List.dropLast_concat] at hline
    rw [hsplit, List.dropLast_append_of_ne_nil (List.splitOn_ne_nil LF rest)]
    exact List.mem_append_left _ hline
  · have hlast : lastLine (front ++ [LF]) = [] := by
      simp only [lastLine, hpart, List.getLast_append_singleton]
    rw [hlast]
    rfl

theorem IsPart.limited {part : Str} (h : IsPart part stream) (hlimit : Limited stream) : Limited part := by
  rcases h with rfl | ⟨⟨rest, rfl⟩, hlast⟩
  · exact hlimit
  · obtain ⟨front, rfl⟩ := List.getLast?_eq_some_iff.mp hlast
    intro msg hmsg
    refine hlimit msg ?_
    have hsplit : pieces isEnd (front ++ [LF] ++ rest) = pieces isEnd front ++ pieces isEnd rest := by
      rw [List.append_assoc]
      exact pieces_append_cons rfl _ _
    have hfront : pieces isEnd (front ++ [LF]) = pieces isEnd front :=
      pieces_append_of_forall fun o ho => List.mem_singleton.mp ho ▸ rfl
    rw [hsplit]
    exact List.mem_append_left _ (hfront ▸ hmsg)

namespace LineBuffer

/-- What the line buffer will hand out, as messages. -/
def waiting (b : LineBuffer) : List Str := (b.fresh.map messagesOf).getD []

theorem fresh_append {data : Str} (h : b.fresh = some data) (more : Str) :
    (b.append more).fresh = some (data ++ more) := by
  rw [fresh] at h ⊢
  rw [append]
  split_ifs at h with hdisc hLF
  · obtain ⟨line, rest, hdata, hnot⟩ := List.eq_append_cons_of_mem hLF
    rw [hdata, dropWhile_line hnot] at h
    obtain rfl := Option.some.inj h
    rw [if_pos hdisc, if_pos (List.mem_append_left _ hLF), hdata, List.append_assoc, List.cons_append,
      dropWhile_line hnot]
    rfl
  · rw [if_neg hdisc, Option.some.inj h]

/-- **A line is handed out**, with the messages in it. -/
theorem waiting_of_next (hmax : b.maxLine = MAX_MSGLEN) (h : b.next = some (line, b')) :
    b'.maxLine = MAX_MSGLEN ∧
      ∀ more, (b.append more).waiting = messagesIn line ++ (b'.append more).waiting := by
  rw [next, Option.bind_eq_some_iff] at h
  obtain ⟨data, hfresh, h⟩ := h
  have hwaiting : ∀ more, (b.append more).waiting = messagesOf (data ++ more) := fun more => by
    rw [waiting, fresh_append hfresh]
    rfl
  split_ifs at h with hLF hlong
  · simp only [Option.some.injEq, Prod.mk.injEq] at h
    obtain ⟨hline, rfl⟩ := h
    refine ⟨hmax, fun more => ?_⟩
    obtain ⟨front, rest, rfl, hnot⟩ := List.eq_append_cons_of_mem hLF
    rw [takeWhile_line hnot, cap, hmax, if_neg (by decide)] at hline
    rw [hwaiting, List.append_assoc, List.cons_append, messagesOf_line hnot, ← hline, messagesIn_chomp,
      dropWhile_line hnot]
    rfl
  · simp only [Option.some.injEq, Prod.mk.injEq] at h
    obtain ⟨rfl, rfl⟩ := h
    refine ⟨hmax, fun more => ?_⟩
    rw [hmax] at hlong ⊢
    rw [hwaiting]
    by_cases hmore : LF ∈ more
    · obtain ⟨front, rest, rfl, hnot⟩ := List.eq_append_cons_of_mem hmore
      rw [← List.append_assoc, messagesOf_line (by rw [List.mem_append, not_or]; exact ⟨hLF, hnot⟩),
        List.take_append_of_le_length hlong.2, waiting, fresh, append, List.nil_append, if_pos rfl,
        if_pos hmore, dropWhile_line hnot]
      rfl
    · rw [messagesOf_last (by rw [List.mem_append, not_or]; exact ⟨hLF, hmore⟩), overdue,
        if_pos (by rw [List.length_append]; omega), List.take_append_of_le_length hlong.2, waiting, fresh,
        append, List.nil_append, if_pos rfl, if_neg hmore]
      exact (List.append_nil _).symm

/-- Nothing is left to be handed out. -/
theorem waiting_of_next_eq_none (hmax : b.maxLine = MAX_MSGLEN) (h : b.next = none) : b.waiting = [] := by
  rw [waiting]
  rcases hfresh : b.fresh with _ | data
  · rfl
  rw [next, hfresh, Option.bind_some, hmax] at h
  split_ifs at h with hLF hlong
  rw [Option.map_some, Option.getD_some, messagesOf_last hLF, overdue, if_neg fun hle => hlong ⟨by decide, hle⟩]
  rfl

end LineBuffer

end Lines

namespace LineFraming

variable [Libcpp] (F : LineFraming) {io : Libcpp.Socket} {c : Client}

/-- **The loop of `extractMessages`** takes everything out of the buffer. -/
theorem drainLines_spec {k : ℕ} (hmax : (F.buffer io).maxLine = MAX_MSGLEN) (hk : Libcpp.inSize io < k) :
    (F.buffer (Client.drainLines k io).2).maxLine = MAX_MSGLEN ∧
      (F.buffer (Client.drainLines k io).2).next = none ∧
        ∀ more, ((F.buffer io).append more).waiting =
          (Client.drainLines k io).1 ++ ((F.buffer (Client.drainLines k io).2).append more).waiting := by
  induction k generalizing io with
  | zero => exact absurd hk (Nat.not_lt_zero _)
  | succ k ih =>
    have hnext := F.buffer_nextLine io
    rw [Client.drainLines]
    rcases hline : Libcpp.nextLine io with _ | ⟨line, io'⟩
    · rw [hline] at hnext
      exact ⟨hmax, hnext.symm, fun _ => rfl⟩
    · rw [hline] at hnext
      obtain ⟨hmax', hwaiting⟩ := LineBuffer.waiting_of_next hmax hnext.symm
      obtain ⟨hmax'', hnone, hrest⟩ := ih hmax' (by have := Libcpp.inSize_of_nextLine hline; omega)
      refine ⟨hmax'', hnone, fun more => ?_⟩
      dsimp only
      rw [hwaiting, hrest, splitOnCr_stripNul, List.append_assoc]
      rfl

theorem receiveAll_of_drained (hmax : (F.buffer c.io).maxLine = MAX_MSGLEN)
    (hnone : (F.buffer c.io).next = none) (chunks : List Str) :
    c.receiveAll chunks = ((F.buffer c.io).append chunks.flatten).waiting := by
  induction chunks generalizing c with
  | nil =>
    rw [Client.receiveAll, List.flatten_nil, LineBuffer.append, List.append_nil]
    exact (LineBuffer.waiting_of_next_eq_none hmax hnone).symm
  | cons chunk rest ih =>
    have hfeed := F.buffer_feed c.io chunk
    have hfed : (F.buffer (Libcpp.feed c.io chunk)).maxLine = MAX_MSGLEN := by
      rw [hfeed]
      exact hmax
    obtain ⟨hmax', hnone', hwaiting⟩ := F.drainLines_spec hfed (Nat.lt_succ_self _)
    rw [Client.receiveAll]
    refine (congrArg _ (ih hmax' hnone')).trans ?_
    rw [List.flatten_cons]
    refine (hwaiting rest.flatten).symm.trans ?_
    rw [hfeed, LineBuffer.append, LineBuffer.append, LineBuffer.append, List.append_assoc]

/-- **However a stream is cut into chunks**, its messages are the same. -/
theorem receiveAll_eq (F : LineFraming) (fd : Fd) (hostname : Str) (now : Time) (chunks : List Str) :
    (Client.new fd hostname now).receiveAll chunks = messagesOf chunks.flatten := by
  have hnew : F.buffer (Client.new fd hostname now).io = { maxLine := MAX_MSGLEN } := F.buffer_new _ _
  rw [F.receiveAll_of_drained (by rw [hnew]) (by rw [hnew]; decide), hnew]
  rfl

/-- **The framing of a client.** Streams that differ in the ends of their messages give the same
messages, if both are read as they were meant; and a stream, in all its parts, gives the messages it
gives with LFs only exactly if it is. -/
theorem receiveAll_eq_iff (F : LineFraming) (fd : Fd) (hostname : Str) (now : Time) :
    (∀ x y chunks chunks', Reterminated x y → Framed x → Framed y → chunks.flatten = x →
      chunks'.flatten = y →
        (Client.new fd hostname now).receiveAll chunks = (Client.new fd hostname now).receiveAll chunks') ∧
      ∀ y, Limited y → ((∀ part x chunks chunks', IsPart part y → Reterminated x part → CR ∉ x →
        chunks.flatten = x → chunks'.flatten = part →
          (Client.new fd hostname now).receiveAll chunks =
            (Client.new fd hostname now).receiveAll chunks') ↔ Framed y) := by
  simp only [F.receiveAll_eq]
  refine ⟨?_, fun y hlimit => ⟨fun h => ?_, ?_⟩⟩
  · rintro x y chunks chunks' hxy hx hy rfl rfl
    rw [hx.messagesOf_eq, hy.messagesOf_eq, hxy.endedMessages_eq]
  · refine framed_of_parts fun part hpart => ?_
    obtain ⟨x, hx, hCR⟩ := exists_reterminated part
    have hframed := framed_of_noCr hCR (hx.limited_iff.mpr (hpart.limited hlimit))
    have halike := h part x [x] [part] hpart hx hCR List.flatten_singleton List.flatten_singleton
    rw [List.flatten_singleton, List.flatten_singleton, hframed.messagesOf_eq, hx.endedMessages_eq] at halike
    exact halike.symm
  · rintro hy part x chunks chunks' hpart hx hCR rfl rfl
    have hframed := framed_of_noCr hCR (hx.limited_iff.mpr (hpart.limited hlimit))
    rw [hframed.messagesOf_eq, hx.endedMessages_eq, (hy.part hpart).messagesOf_eq]

end LineFraming

/-! ### Two streams -/

namespace LineBuffer

variable {b b' : LineBuffer} {line : Str}

theorem noLF_of_next (h : b.next = some (line, b')) : LF ∉ line := by
  rw [next, Option.bind_eq_some_iff] at h
  obtain ⟨data, -, h⟩ := h
  split_ifs at h with hLF hlong
  · simp only [Option.some.injEq, Prod.mk.injEq] at h
    obtain ⟨rfl, -⟩ := h
    have hline : ∀ o ∈ data.takeWhile (· != LF), o ≠ LF := fun o ho => by
      simpa using List.mem_takeWhile_imp ho
    have hchomp : chomp (data.takeWhile (· != LF)) ⊆ data.takeWhile (· != LF) := by
      rw [chomp]
      split_ifs
      · exact List.dropLast_subset _
      · exact List.Subset.refl _
    intro hmem
    refine hline LF (hchomp ?_) rfl
    rw [cap] at hmem
    split_ifs at hmem
    · exact hmem
    · exact List.mem_of_mem_take hmem
  · simp only [Option.some.injEq, Prod.mk.injEq] at h
    obtain ⟨rfl, -⟩ := h
    exact fun hmem => hLF (List.mem_of_mem_take hmem)

theorem length_of_next (h : b.next = some (line, b')) : b'.data.length < b.data.length := by
  have hshorter : ∀ {data : Str}, LF ∈ data → (data.dropWhile (· != LF)).tail.length < data.length := by
    intro data hLF
    obtain ⟨front, rest, rfl, hnot⟩ := List.eq_append_cons_of_mem hLF
    rw [dropWhile_line hnot, List.tail_cons, List.length_append, List.length_cons]
    omega
  rw [next, Option.bind_eq_some_iff] at h
  obtain ⟨data, hfresh, h⟩ := h
  have hle : data.length ≤ b.data.length := by
    rw [fresh] at hfresh
    split_ifs at hfresh with hdisc hLF
    · rw [← Option.some.inj hfresh]
      exact (hshorter hLF).le
    · rw [Option.some.inj hfresh]
  split_ifs at h with hLF hlong
  · simp only [Option.some.injEq, Prod.mk.injEq] at h
    obtain ⟨-, rfl⟩ := h
    exact (hshorter hLF).trans_le hle
  · simp only [Option.some.injEq, Prod.mk.injEq] at h
    obtain ⟨-, rfl⟩ := h
    have hpos := Nat.pos_of_ne_zero hlong.1
    exact hpos.trans_le (hlong.2.trans hle)

end LineBuffer

/-- The library over lists, with a line buffer in each socket. -/
@[reducible] def framingLibcpp : Libcpp :=
  { referenceLibcpp with
    Socket := LineBuffer × ReferenceSocket
    newSocket := fun maxLine maxSendQ => ({ maxLine := maxLine }, { maxSendQ := maxSendQ })
    feed := fun io data => (io.1.append data, io.2)
    nextLine := fun io => io.1.next.map fun e => (e.1, (e.2, io.2))
    inSize := fun io => io.1.data.length
    queue := fun io line => (io.1, io.2.queue line)
    outData := fun io => io.2.pending
    consume := fun io n => (io.1, { io.2 with pending := io.2.pending.drop n })
    hasPending := fun io => decide (io.2.pending ≠ [])
    overflowed := fun io => io.2.overflowed
    outData_new := fun _ _ => rfl
    overflowed_new := fun _ _ => rfl
    outData_feed := fun _ _ => rfl
    overflowed_feed := fun _ _ => rfl
    noLF_of_nextLine := fun h => by
      obtain ⟨e, he, heq⟩ := Option.map_eq_some_iff.mp h
      obtain ⟨rfl, -⟩ := Prod.mk.inj heq
      exact LineBuffer.noLF_of_next he
    inSize_of_nextLine := fun h => by
      obtain ⟨e, he, heq⟩ := Option.map_eq_some_iff.mp h
      obtain ⟨-, rfl⟩ := Prod.mk.inj heq
      exact LineBuffer.length_of_next he
    outData_of_nextLine := fun h => by
      obtain ⟨e, -, heq⟩ := Option.map_eq_some_iff.mp h
      obtain ⟨-, rfl⟩ := Prod.mk.inj heq
      rfl
    overflowed_of_nextLine := fun h => by
      obtain ⟨e, -, heq⟩ := Option.map_eq_some_iff.mp h
      obtain ⟨-, rfl⟩ := Prod.mk.inj heq
      rfl
    outData_queue := fun io line => io.2.pending_queue line
    overflowed_queue := fun line h => ReferenceSocket.overflowed_queue line h
    outData_consume := fun _ _ => rfl
    overflowed_consume := fun _ _ => rfl
    hasPending_iff := fun _ => decide_eq_true_iff }

/-- Its sockets do what is assumed of them. -/
def lineFraming : letI := framingLibcpp; LineFraming :=
  letI := framingLibcpp
  { buffer := fun io => io.1
    buffer_new := fun _ _ => rfl
    buffer_feed := fun _ _ => rfl
    buffer_nextLine := fun io => by
      change (io.1.next.map fun e => (e.1, (e.2, io.2))).map (Prod.map id fun e => e.1) = io.1.next
      rw [Option.map_map]
      exact Option.map_id' }

set_option maxRecDepth 4000 in
/-- Two messages with bare LFs, in two chunks, and with a CR and a CRLF, in three. -/
theorem receiveAll_mixed : letI := framingLibcpp
    (Client.new 4 [] 0).receiveAll [str "A", str ":1" ++ [LF] ++ str "B" ++ [LF]] =
      (Client.new 4 [] 0).receiveAll [str "A:", str "1" ++ [CR], str "B" ++ CRLF] := by
  let _ := framingLibcpp
  have hmsg : ∀ o ∈ str "A:1", isEnd o = false := by decide
  have hmsg' : ∀ o ∈ str "B", isEnd o = false := by decide
  have hsame : Reterminated (str "A:1" ++ [LF] ++ (str "B" ++ [LF] ++ []))
      (str "A:1" ++ [CR] ++ (str "B" ++ CRLF ++ [])) :=
    .ended hmsg (by decide) (by decide)
      (.ended hmsg' (by decide) (by decide) (.last fun _ h => absurd h List.not_mem_nil))
  exact (lineFraming.receiveAll_eq_iff 4 [] 0).1 _ _ _ _ hsame (by decide) (by decide) rfl rfl

set_option maxRecDepth 4000 in
/-- **A message before a bare CR is not seen** until an LF comes. -/
theorem not_receiveAll_eq : letI := framingLibcpp
    ¬∀ (x y : Str) (chunks chunks' : List Str), Reterminated x y → Limited x → chunks.flatten = x →
      chunks'.flatten = y →
        (Client.new 4 [] 0).receiveAll chunks = (Client.new 4 [] 0).receiveAll chunks' := by
  let _ := framingLibcpp
  intro h
  have hmsg : ∀ o ∈ str "A", isEnd o = false := by decide
  have hsame : Reterminated (str "A" ++ [LF] ++ []) (str "A" ++ [CR] ++ []) :=
    .ended hmsg (by decide) (by decide) (.last fun _ h => absurd h List.not_mem_nil)
  have halike := h _ _ [str "A" ++ [LF] ++ []] [str "A" ++ [CR] ++ []] hsame (by decide) rfl rfl
  rw [lineFraming.receiveAll_eq, lineFraming.receiveAll_eq] at halike
  exact absurd halike (by decide)

end FtIrc
