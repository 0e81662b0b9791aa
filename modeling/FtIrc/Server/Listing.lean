import FtIrc.Grammar.Tokens
import FtIrc.Server.Refusals
import FtIrc.Server.Rehearsal
import Mathlib.Algebra.Order.BigOperators.Group.List
import Mathlib.Algebra.Order.Group.Nat

/-!
# Lists in a line

A reply may end in a list: words with a space between them, behind a colon
(`FtIrc.joined`). They are read back (`FtIrc.listed_replyText`), unless the line was cut:
then something is missing, as the words do not add up to the length of the list any more
(`FtIrc.sum_words`).

`WHOIS` lists the channels of a client in one line, however many they are. So **it lists
them exactly if they fit in a line** (`FtIrc.Server.Reachable.whois`).
-/

namespace FtIrc

open Abnf

variable [Libcpp]

/-! ### Writing and reading a list -/

/-- Words with a space between them. -/
def joined : List Str → Str
  | [] => []
  | w :: ws => w ++ spaced ws

/-- What a line says behind so many words and a colon. -/
def trailing (n : ℕ) (w : Str) : Str := ([SPACE].intercalate ((words w).drop n)).tail

/-- The words a line lists there. -/
def listed (n : ℕ) (w : Str) : List Str := (words (trailing n w)).filter fun v => decide (v ≠ [])

/-- The replies with a numeric a client gets, in their order. -/
def replies (p : ClientId) (n : String) (lines : List (ClientId × Str)) : List Str :=
  (lines.filter fun e => decide (e.1 = p ∧ (words e.2)[1]? = some (str n))).map Prod.snd

section Lists

omit [Libcpp]

variable {w x text nick : Str} {ws l : List Str} {n m : String} {p : ClientId}

/-- Words with a space before each, and one more space. -/
theorem words_spaced_space (hw : IsWord w) (hws : ∀ v ∈ ws, IsWord v) :
    words (w ++ (spaced ws ++ SPACE :: text)) = w :: ws ++ words text := by
  induction ws generalizing w with
  | nil => exact words_cons hw
  | cons v ws ih =>
    rw [spaced_cons, List.cons_append, List.append_assoc, words_cons hw,
      ih (hws v List.mem_cons_self) fun u hu => hws u (List.mem_cons_of_mem v hu)]
    rfl

/-- Words with a space before each. -/
theorem words_spaced (hw : IsWord w) (hws : ∀ v ∈ ws, IsWord v) : words (w ++ spaced ws) = w :: ws := by
  induction ws generalizing w with
  | nil => rw [spaced_nil, List.append_nil, words_single hw]
  | cons v ws ih =>
    rw [spaced_cons, words_cons hw,
      ih (hws v List.mem_cons_self) fun u hu => hws u (List.mem_cons_of_mem v hu)]

/-- **A list is read back.** -/
theorem filter_words_joined (hl : ∀ v ∈ l, IsWord v ∧ v ≠ []) :
    ((words (joined l)).filter fun v => decide (v ≠ [])) = l := by
  rcases l with _ | ⟨w, ws⟩
  · rfl
  · rw [joined, words_spaced (hl w List.mem_cons_self).1 fun v hv => (hl v (List.mem_cons_of_mem w hv)).1]
    exact List.filter_eq_self.mpr fun v hv => decide_eq_true (hl v hv).2

/-- How a list is written in a loop. -/
theorem foldl_joined (hl : ∀ v ∈ l, v ≠ []) :
    (l.foldl (fun acc w => (if acc ≠ [] then acc ++ str " " else acc) ++ w) []) = joined l := by
  have hmore : ∀ (ws : List Str) (acc : Str), acc ≠ [] → (∀ v ∈ ws, v ≠ []) →
      ws.foldl (fun acc w => (if acc ≠ [] then acc ++ str " " else acc) ++ w) acc = acc ++ spaced ws := by
    intro ws
    induction ws with
    | nil => exact fun acc _ _ => (List.append_nil acc).symm
    | cons w ws ih =>
      intro acc hacc hws
      rw [List.foldl_cons, if_pos hacc, ih _ (by simp [hacc]) fun v hv => hws v (List.mem_cons_of_mem w hv)]
      simp [spaced_cons, show str " " = [SPACE] from rfl]
  rcases l with _ | ⟨w, ws⟩
  · rfl
  · rw [List.foldl_cons, if_neg (by simp), List.nil_append, joined]
    exact hmore ws w (hl w List.mem_cons_self) fun v hv => hl v (List.mem_cons_of_mem w hv)

/-- **The words of a text add up to its length.** -/
theorem sum_words (x : Str) : ((words x).map fun w => w.length + 1).sum = x.length + 1 := by
  have hjoin : ∀ l : List Str, l ≠ [] →
      ([SPACE].intercalate l).length + 1 = (l.map fun w => w.length + 1).sum := by
    intro l
    induction l with
    | nil => exact fun h => absurd rfl h
    | cons w l ih =>
      intro _
      rcases l with _ | ⟨v, l⟩
      · simp [List.intercalate]
      · have hrest := ih (List.cons_ne_nil v l)
        have hcons : [SPACE].intercalate (w :: v :: l) = w ++ SPACE :: [SPACE].intercalate (v :: l) := by
          simp [List.intercalate, List.intersperse]
        rw [hcons, List.map_cons, List.sum_cons, ← hrest, List.length_append, List.length_cons]
        omega
  have hne : words x ≠ [] := List.splitOn_ne_nil SPACE x
  have hx : [SPACE].intercalate (words x) = x := List.intercalate_splitOn SPACE
  rw [← hjoin _ hne, hx]

theorem length_joined (hl : l ≠ []) : (joined l).length + 1 = (l.map fun w => w.length + 1).sum := by
  obtain ⟨w, ws, rfl⟩ := List.exists_cons_of_ne_nil hl
  have hspaced : ∀ ws : List Str, (spaced ws).length = (ws.map fun w => w.length + 1).sum := by
    intro ws
    induction ws with
    | nil => rfl
    | cons v ws ih => rw [spaced_cons, List.length_cons, List.length_append, ih, List.map_cons, List.sum_cons]; omega
  rw [joined, List.length_append, hspaced, List.map_cons, List.sum_cons]
  omega

/-- **What is missing in a list that was cut** shows in the length. -/
theorem not_perm_take {k : ℕ} (hlong : k < (joined l).length) :
    ¬((words ((joined l).take k)).filter fun v => decide (v ≠ [])).Perm l := by
  intro hperm
  have hne : l ≠ [] := by
    rintro rfl
    exact absurd hlong (by simp [joined])
  have hsum := (hperm.map fun w => w.length + 1).sum_eq
  have hle : (((words ((joined l).take k)).filter fun v => decide (v ≠ [])).map fun w => w.length + 1).sum ≤
      ((words ((joined l).take k)).map fun w => w.length + 1).sum :=
    (List.filter_sublist.map _).sum_le_sum fun _ _ => Nat.zero_le _
  rw [hsum, sum_words, ← length_joined hne, List.length_take] at hle
  omega

/-! ### Reading a reply -/

/-- The words of a reply. -/
theorem words_replyText (hn : Server.IsNumeric n) (hnick : IsWord nick) (hw : IsWord w)
    (hws : ∀ v ∈ ws, IsWord v) :
    words (Server.replyText nick n (w ++ (spaced ws ++ SPACE :: text))) =
      (COLON :: SERVER_NAME) :: str n :: nick :: w :: ws ++ words text := by
  have hnum : IsWord (str n) := (Server.says_reply hn nick []).spoken
  have hline : Server.replyText nick n (w ++ (spaced ws ++ SPACE :: text)) =
      (COLON :: SERVER_NAME) ++ (spaced (str n :: nick :: w :: ws) ++ SPACE :: text) := by
    simp [Server.replyText, spaced_cons, show str ":" = [COLON] from rfl, show str " " = [SPACE] from rfl]
  have hall : ∀ v ∈ str n :: nick :: w :: ws, IsWord v := by
    intro v hv
    simp only [List.mem_cons] at hv
    rcases hv with rfl | rfl | rfl | hv
    · exact hnum
    · exact hnick
    · exact hw
    · exact hws v hv
  rw [hline, words_spaced_space (by decide) hall]

/-- **What a reply lists.** -/
theorem listed_replyText (ws : List Str) (text : Str) (hn : Server.IsNumeric n) (hnick : IsWord nick)
    (hw : IsWord w) (hws : ∀ v ∈ ws, IsWord v) :
    listed (ws.length + 4) (Server.replyText nick n (w ++ (spaced ws ++ SPACE :: COLON :: text))) =
      (words text).filter fun v => decide (v ≠ []) := by
  have hdrop : ((COLON :: SERVER_NAME) :: str n :: nick :: w :: ws ++ words (COLON :: text)).drop
      (ws.length + 4) = words (COLON :: text) := by
    simp
  rw [listed, trailing, words_replyText hn hnick hw hws, hdrop, show words (COLON :: text) = (COLON :: text).splitOn SPACE from rfl, List.intercalate_splitOn]
  rfl

/-- **The replies with a numeric**, among several. -/
theorem replies_map {l : List (String × Str)} (hl : ∀ r ∈ l, Server.IsNumeric r.1) :
    replies p n (l.map fun r => (p, wire (Server.replyText nick r.1 r.2))) =
      ((l.filter fun r => decide (str r.1 = str n)).map fun r => wire (Server.replyText nick r.1 r.2)) := by
  rw [replies, List.filter_map, List.map_map]
  have hsame : ∀ r ∈ l, ((fun e : ClientId × Str => decide (e.1 = p ∧ (words e.2)[1]? = some (str n))) ∘
      fun r => (p, wire (Server.replyText nick r.1 r.2))) r = decide (str r.1 = str n) := by
    intro r hr
    obtain ⟨rest, hrest⟩ := (Server.says_reply (hl r hr) nick r.2).wire.words
    simp [hrest]
  rw [List.filter_congr hsame]
  rfl

end Lists

/-! ### WHOIS -/

namespace Server

variable {M : Matcher} {s t : Server} {p q : ClientId} {ch : ChannelRef} {msg : Message}

/-- One more reply. -/
theorem sendReply_replies (rs : List (String × Str)) (n : String) (a : Str) :
    (s.queueMany (rs.map fun r => (p, replyText (s.deref p).nickname r.1 r.2))).sendReply p n a =
      s.queueMany ((rs ++ [(n, a)]).map fun r => (p, replyText (s.deref p).nickname r.1 r.2)) := by
  rw [sendReply_eq, nickname_queueMany, ← queueMany_append, List.map_append]
  rfl

/-- The channels of a client, with a sign for an operator. -/
def channelEntries (s : Server) (q : ClientId) : List Str :=
  (s.channels.keys.filter fun ch => s.isMember ch q).map fun ch =>
    (if s.isOperator ch q then str "@" else []) ++ (s.channel ch).name

/-- The client that is asked about. -/
def whoisNick (msg : Message) : Str := msg.param (if msg.params.length > 1 then 1 else 0)

/-- The channels of a client are named by words. -/
theorem Inv.channelEntries (hi : s.Inv) (q : ClientId) : ∀ w ∈ s.channelEntries q, IsWord w ∧ w ≠ [] := by
  intro w hw
  obtain ⟨ch, hch, rfl⟩ := List.mem_map.mp hw
  obtain ⟨chan, hchan⟩ := OrdMap.mem_keys.mp (List.mem_of_mem_filter hch)
  have hthere : s.channels.get? ch ≠ none := by
    rw [hchan]
    simp
  obtain ⟨hword, hhead, -⟩ := hi.name_channel hthere
  refine ⟨?_, ?_⟩
  · rw [IsWord.append_iff]
    refine ⟨?_, hword⟩
    split_ifs <;> decide
  · intro hnil
    rw [(List.append_eq_nil_iff.mp hnil).2] at hhead
    exact absurd hhead (by simp)

/-- How `WHOIS` writes the channels. -/
theorem Inv.whoisChannels_eq (hi : s.Inv) (q : ClientId) : s.whoisChannels q = joined (s.channelEntries q) := by
  have hfold : ∀ (keys : List ChannelRef) (acc : Str), keys.foldl (fun chanList ch =>
      if s.isMember ch q then
        (if chanList ≠ [] then chanList ++ str " " else chanList) ++
          (if s.isOperator ch q then str "@" else []) ++ (s.channel ch).name
      else chanList) acc =
        ((keys.filter fun ch => s.isMember ch q).map fun ch =>
          (if s.isOperator ch q then str "@" else []) ++ (s.channel ch).name).foldl
            (fun acc w => (if acc ≠ [] then acc ++ str " " else acc) ++ w) acc := by
    intro keys
    induction keys with
    | nil => exact fun _ => rfl
    | cons ch keys ih =>
      intro acc
      rw [List.foldl_cons, List.filter_cons]
      split_ifs
      all_goals first
        | rw [List.map_cons, List.foldl_cons, ih]; simp [*]
        | exact ih acc
  rw [whoisChannels, hfold, ← foldl_joined fun w hw => (hi.channelEntries q w hw).2]
  rfl

/-- The answers to a `WHOIS`. -/
def whoisReplies (s : Server) (q : ClientId) : List (String × Str) :=
  [("311", (s.deref q).nickname ++ str " " ++ (s.deref q).username ++ str " " ++ (s.deref q).hostname ++
      str " * :" ++ (s.deref q).realname),
    ("312", (s.deref q).nickname ++ str " " ++ SERVER_NAME ++ str " :ft_irc server")] ++
  (if s.whoisChannels q ≠ [] then [("319", (s.deref q).nickname ++ str " :" ++ s.whoisChannels q)] else []) ++
  [("318", (s.deref q).nickname ++ str " :End of WHOIS list")]

theorem isNumeric_whoisReplies : ∀ r ∈ s.whoisReplies q, IsNumeric r.1 := by
  have hall : ∀ n ∈ ["311", "312", "319", "318"], IsNumeric n := by decide
  intro r hr
  refine hall r.1 ?_
  rw [whoisReplies] at hr
  split_ifs at hr
  · simp only [List.cons_append, List.nil_append, List.mem_cons, List.not_mem_nil, or_false] at hr
    rcases hr with rfl | rfl | rfl | rfl <;> simp
  · simp only [List.append_nil, List.cons_append, List.nil_append, List.mem_cons, List.not_mem_nil,
      or_false] at hr
    rcases hr with rfl | rfl | rfl <;> simp

/-- **A `WHOIS`** asks about a client, and is answered. -/
theorem cmdWhois_eq (hne : whoisNick msg ≠ []) (hfind : s.findClientByNick (whoisNick msg) = some q) :
    s.cmdWhois p msg =
      s.queueMany ((s.whoisReplies q).map fun r => (p, replyText (s.deref p).nickname r.1 r.2)) := by
  have hsome : ¬(msg.params = [] ∨ whoisNick msg = []) := by
    rintro (hnil | hnil)
    · simp [whoisNick, Message.param, hnil] at hne
    · exact hne hnil
  rw [cmdWhois]
  dsimp only
  rw [← whoisNick, if_neg hsome, hfind]
  dsimp only
  rw [whoisReplies]
  split_ifs with hchans
  · simp only [sendReply_eq, nickname_queueMany, ← queueMany_append]
    rfl
  · simp only [sendReply_eq, nickname_queueMany, ← queueMany_append]
    rfl

/-- Nobody goes by no name. -/
theorem Inv.ne_nil_of_findClientByNick (hi : s.Inv) {nick : Str} (hfind : s.findClientByNick nick = some q) :
    nick ≠ [] := by
  rintro rfl
  obtain ⟨hclients, hreg, -⟩ := hi.entitled_of_findClientByNick hfind
  have hget := hi.table.get? hclients
  have hvalid := (hi.nicks.valid q _ hget (hi.gate q _ hget hreg).2.1).1
  have hfold := List.find?_some hfind
  simp only [Bool.and_eq_true, Libcpp.eqAsciiNocase_iff] at hfold
  have hnil : (s.deref q).nickname = [] := List.map_eq_nil_iff.mp hfold.2
  rw [hnil] at hvalid
  exact absurd hvalid (by simp [isValidNickname])

/-- A `WHOIS` of a registered client, as a step of the server. -/
theorem LineStep.spoken_whois (h : LineStep M s t p msg) (hi : s.Inv) (hcmd : msg.command = str "WHOIS")
    (hreg : (s.deref p).registered = true) (hfind : s.findClientByNick (whoisNick msg) = some q) :
    t.spoken = ((s.whoisReplies q).map fun r =>
      (p, wire (replyText (s.deref p).nickname r.1 r.2))).reverse ++ s.spoken := by
  obtain ⟨-, raw, -, hmsg, rfl⟩ := h
  have hentry : findCommand msg.command = some ⟨str "WHOIS", cmdWhois, true⟩ := by
    rw [hcmd]
    rfl
  have hanswer : s.handleMessage M p raw = (s.record (.inbound p raw)).queueMany
      ((s.whoisReplies q).map fun r => (p, replyText (s.deref p).nickname r.1 r.2)) := by
    rw [handleMessage_of_findCommand hmsg hentry, if_neg (by simp [hreg])]
    exact cmdWhois_eq (s := s.record (.inbound p raw)) (hi.ne_nil_of_findClientByNick hfind) hfind
  rw [hanswer, spoken_queueMany, List.map_map]
  rfl

/-- **The channels a `WHOIS` lists** are all of them if they fit in a line. -/
theorem Inv.perm_whoisReplies (hi : s.Inv) (p q : ClientId) :
    ((replies p "319" ((s.whoisReplies q).map fun r =>
      (p, wire (replyText (s.deref p).nickname r.1 r.2)))).flatMap (listed 4)).Perm (s.channelEntries q) ↔
        (s.deref p).nickname.length + (s.deref q).nickname.length +
          ((s.channelEntries q).map fun w => w.length + 1).sum ≤ 496 := by
  have hnick := (hi.clientNames p).nickname
  have hdest := (hi.clientNames q).nickname
  rw [replies_map isNumeric_whoisReplies]
  by_cases hnone : s.channelEntries q = []
  · -- no channels, and nothing is said of them
    have hchans : s.whoisChannels q = [] := by rw [hi.whoisChannels_eq, hnone]; rfl
    have hfilter : ((s.whoisReplies q).filter fun r => decide (str r.1 = str "319")) = [] := by
      rw [whoisReplies, if_neg (by simp [hchans])]
      rfl
    rw [hfilter, hnone, List.map_nil, List.map_nil, List.sum_nil]
    refine iff_of_true .nil ?_
    have := hnick.2
    have := hdest.2
    rw [MAX_NICKLEN] at *
    omega
  · obtain ⟨hchans, hlen⟩ : s.whoisChannels q ≠ [] ∧ (s.whoisChannels q).length + 1 =
        ((s.channelEntries q).map fun w => w.length + 1).sum := by
      rw [hi.whoisChannels_eq]
      refine ⟨?_, length_joined hnone⟩
      obtain ⟨w, ws, hw⟩ := List.exists_cons_of_ne_nil hnone
      rw [hw, joined]
      intro hnil
      exact (hi.channelEntries q w (by simp [hw])).2 (List.append_eq_nil_iff.mp hnil).1
    have hfilter : ((s.whoisReplies q).filter fun r => decide (str r.1 = str "319")) =
        [("319", (s.deref q).nickname ++ str " :" ++ s.whoisChannels q)] := by
      rw [whoisReplies, if_pos hchans]
      rfl
    rw [hfilter, List.map_singleton, List.flatMap_singleton]
    -- the cut falls behind the colon
    set head := replyText (s.deref p).nickname "319" ((s.deref q).nickname ++ str " :") with hhead
    have hshort : head.length = (s.deref p).nickname.length + (s.deref q).nickname.length + 15 := by
      simp only [hhead, replyText, List.length_append, show (str ":").length = 1 from rfl,
        show SERVER_NAME.length = 6 from rfl, show (str " ").length = 1 from rfl,
        show (str "319").length = 3 from rfl, show (str " :").length = 2 from rfl]
      omega
    have hnickle := hnick.2
    have hdestle := hdest.2
    rw [MAX_NICKLEN] at hnickle hdestle
    have hcut : wire (replyText (s.deref p).nickname "319"
        ((s.deref q).nickname ++ str " :" ++ s.whoisChannels q)) =
          replyText (s.deref p).nickname "319" ((s.deref q).nickname ++ (spaced [] ++ SPACE :: COLON ::
            (s.whoisChannels q).take (MAX_MSGLEN - 2 - head.length))) := by
      have hfront : replyText (s.deref p).nickname "319"
          ((s.deref q).nickname ++ str " :" ++ s.whoisChannels q) = head ++ s.whoisChannels q := by
        simp [hhead, replyText]
      rw [hfront, wire_append (by rw [hshort, MAX_MSGLEN]; omega)]
      simp [hhead, replyText, show str " :" = [SPACE, COLON] from rfl]
    have hread := listed_replyText (n := "319") [] ((s.whoisChannels q).take (MAX_MSGLEN - 2 - head.length))
      (by decide) hnick.1 hdest.1 (by simp)
    rw [hcut, show listed 4 _ = _ from hread]
    by_cases hfits : (s.whoisChannels q).length ≤ MAX_MSGLEN - 2 - head.length
    · rw [List.take_of_length_le hfits, hi.whoisChannels_eq, filter_words_joined (hi.channelEntries q)]
      refine iff_of_true (List.Perm.refl _) ?_
      rw [hshort, MAX_MSGLEN] at hfits
      omega
    · refine iff_of_false ?_ ?_
      · rw [hi.whoisChannels_eq] at hfits ⊢
        exact not_perm_take (Nat.not_le.mp hfits)
      · rw [hshort, MAX_MSGLEN] at hfits
        omega

/-- The same of what was said. -/
theorem LineStep.perm_whois_iff (h : LineStep M s t p msg) (hi : s.Inv) (hcmd : msg.command = str "WHOIS")
    (hreg : (s.deref p).registered = true) (hfind : s.findClientByNick (whoisNick msg) = some q)
    {new : List (ClientId × Str)} (hnew : t.spoken = new ++ s.spoken) :
    ((replies p "319" new.reverse).flatMap (listed 4)).Perm (s.channelEntries q) ↔
      (s.deref p).nickname.length + (s.deref q).nickname.length +
        ((s.channelEntries q).map fun w => w.length + 1).sum ≤ 496 := by
  obtain rfl := List.append_cancel_right (hnew.symm.trans (h.spoken_whois hi hcmd hreg hfind))
  rw [List.reverse_reverse]
  exact hi.perm_whoisReplies p q

/-- **`WHOIS` lists the channels of a client exactly if they fit in a line.** In every
reachable state, for every `WHOIS` that finds a client: the channels listed under the
numeric 319 in the lines the asking client gets are those the other one is a member of,
under their names, with a sign where it is an operator, if and only if the nicknames of
the two and the names of the channels, with a place for each and for each sign, have no
more than 496 octets. -/
theorem Reachable.whois (h : Reachable M s) (hline : LineStep M s t p msg)
    (hcmd : msg.command = str "WHOIS") (hreg : (s.deref p).registered = true)
    (hfind : s.findClientByNick (whoisNick msg) = some q) :
    ∃ new, t.spoken = new ++ s.spoken ∧
      (((replies p "319" new.reverse).flatMap (listed 4)).Perm (s.channelEntries q) ↔
        (s.deref p).nickname.length + (s.deref q).nickname.length +
          ((s.channelEntries q).map fun w => w.length + 1).sum ≤ 496) := by
  have hsaid := hline.spoken_whois h.inv hcmd hreg hfind
  exact ⟨_, hsaid, hline.perm_whois_iff h.inv hcmd hreg hfind hsaid⟩

/-! ### A client on many channels -/

omit [Libcpp]

/-- A channel whose name is as long as it may be. -/
def longName (c : Octet) : Str := HASH :: c :: List.replicate 48 97

/-- Such names, with a comma before each. -/
def longNames (cs : String) : Str := (str cs).flatMap fun c => COMMA :: longName c

/-- The lines of a client that joins ten channels in two lines, and asks about itself. -/
def crowdMatcher : Matcher := .ofTable rehearsalGrammar
  [(str "message", str "PASS secret", middles "PASS" ["secret"]),
    (str "message", str "NICK alice", middles "NICK" ["alice"]),
    (str "message", str "USER u 0 * :U", middles "USER" ["u", "0", "*"] ++ [(str "trail", str "U")]),
    (str "join-cmd", str "JOIN " ++ (longNames "01234").tail,
      [(str "command", str "JOIN"), (str "chanlist", (longNames "01234").tail)]),
    (str "join-cmd", str "JOIN " ++ (longNames "56789").tail,
      [(str "command", str "JOIN"), (str "chanlist", (longNames "56789").tail)]),
    (str "message", str "WHOIS alice", middles "WHOIS" ["alice"])]

/-- What the client says before it asks. -/
def crowdScript : List (ClientId × Str) :=
  [(0, str "PASS secret"), (0, str "NICK alice"), (0, str "USER u 0 * :U"),
    (0, str "JOIN " ++ (longNames "01234").tail), (0, str "JOIN " ++ (longNames "56789").tail)]

/-- The client is on ten channels. -/
def crowd : letI := referenceLibcpp; Server :=
  letI := referenceLibcpp
  session crowdMatcher doorway crowdScript

theorem reachable_crowd : letI := referenceLibcpp; Reachable crowdMatcher crowd :=
  letI := referenceLibcpp
  Reachable.session (((Reachable.start (str "secret") 30 0 []).step (.accept _ 4 127 0 0 1 rfl)).step
    (.accept _ 5 127 0 0 1 rfl)) (by decide +kernel)

/-- The question. -/
def asking : Message where
  command := str "WHOIS"
  params := [str "alice"]

theorem lineStep_asking : letI := referenceLibcpp
    LineStep crowdMatcher crowd (crowd.handleMessage crowdMatcher 0 (str "WHOIS alice")) 0 asking :=
  letI := referenceLibcpp
  ⟨⟨by decide +kernel, by decide +kernel⟩, str "WHOIS alice", by decide, rfl, rfl⟩

theorem registered_crowd : letI := referenceLibcpp
    (crowd.deref 0).registered = true ∧ crowd.findClientByNick (whoisNick asking) = some 0 :=
  ⟨by decide +kernel, by decide +kernel⟩

/-- The names of ten such channels are too long for a line. -/
theorem too_long_crowd : letI := referenceLibcpp
    ¬(crowd.deref 0).nickname.length + (crowd.deref 0).nickname.length +
      ((crowd.channelEntries 0).map fun w => w.length + 1).sum ≤ 496 := by
  decide +kernel

theorem whois_crowd : letI := referenceLibcpp
    ∃ new, (crowd.handleMessage crowdMatcher 0 (str "WHOIS alice")).spoken = new ++ crowd.spoken ∧
      ¬((replies 0 "319" new.reverse).flatMap (listed 4)).Perm (crowd.channelEntries 0) :=
  letI := referenceLibcpp
  have h := Reachable.whois reachable_crowd lineStep_asking rfl registered_crowd.1 registered_crowd.2
  h.imp fun _ hnew => ⟨hnew.1, fun hperm => too_long_crowd (hnew.2.mp hperm)⟩

/-- **`WHOIS` does not list them all.** -/
theorem not_whois : letI := referenceLibcpp
    ¬∀ (M : Matcher) (s t : Server) (p q : ClientId) (msg : Message), Reachable M s →
      LineStep M s t p msg → msg.command = str "WHOIS" → (s.deref p).registered = true →
        s.findClientByNick (whoisNick msg) = some q →
          ∃ new, t.spoken = new ++ s.spoken ∧
            ((replies p "319" new.reverse).flatMap (listed 4)).Perm (s.channelEntries q) := by
  let _ := referenceLibcpp
  intro h
  obtain ⟨new, hnew, hperm⟩ := h crowdMatcher crowd _ 0 0 asking reachable_crowd lineStep_asking rfl
    registered_crowd.1 registered_crowd.2
  exact too_long_crowd ((lineStep_asking.perm_whois_iff reachable_crowd.inv rfl registered_crowd.1
    registered_crowd.2 hnew).mp hperm)

end Server

end FtIrc
