import FtIrc.Library.Packing
import FtIrc.Server.Listing

/-!
# The names of a channel

A client that joins a channel is told the names of its members, as many in a line as fit:
`getNamesChunks` packs them (`FtIrc.Server.getNamesChunks_eq`), and the budget it packs
with is what a line leaves for them. So no such line is cut, and **the names in all of
them are those of the members, each of them once** (`FtIrc.Server.Reachable.names`).
-/

namespace FtIrc

open Abnf

variable [Libcpp]

/-! ### Packing -/

section Chunks

variable {group l : List Str} {w : Str}

/-- One more name, in the loop of `Channel::getNamesChunks`. -/
def packName (budget : ℕ) (acc : List Str × Str) (w : Str) : List Str × Str :=
  let acc :=
    if acc.2 ≠ [] ∧ acc.2.length + 1 + w.length > budget then (acc.1 ++ [acc.2], []) else acc
  (acc.1, (if acc.2 ≠ [] then acc.2 ++ str " " else acc.2) ++ w)

omit [Libcpp] in
theorem joined_concat (h : group ≠ []) : joined (group ++ [w]) = joined group ++ SPACE :: w := by
  obtain ⟨v, group, rfl⟩ := List.exists_cons_of_ne_nil h
  simp [joined, spaced]

omit [Libcpp] in
theorem joined_ne_nil (h : group ≠ []) (hall : ∀ v ∈ group, v ≠ []) : joined group ≠ [] := by
  obtain ⟨v, group, rfl⟩ := List.exists_cons_of_ne_nil h
  intro hnil
  exact hall v List.mem_cons_self (List.append_eq_nil_iff.mp hnil).1

omit [Libcpp] in
/-- **The loop packs the names**: the line under construction is the group that was begun. -/
theorem foldl_packName (budget : ℕ) (chunks : List Str) (hgroup : group ≠ []) (hall : ∀ v ∈ group ++ l, v ≠ []) :
    (l.foldl (packName budget) (chunks, joined group)).1 ++
        [(l.foldl (packName budget) (chunks, joined group)).2] =
      chunks ++ (packFrom (fun g => (joined g).length ≤ budget) group l).map joined ∧
        (l.foldl (packName budget) (chunks, joined group)).2 ≠ [] := by
  induction l generalizing chunks group with
  | nil =>
    rw [List.append_nil] at hall
    exact ⟨rfl, joined_ne_nil hgroup hall⟩
  | cons w l ih =>
    have hcur : joined group ≠ [] := joined_ne_nil hgroup fun v hv => hall v (List.mem_append_left _ hv)
    have hlen : (joined (group ++ [w])).length = (joined group).length + 1 + w.length := by
      rw [joined_concat hgroup, List.length_append, List.length_cons]
      omega
    rw [List.foldl_cons, packFrom]
    by_cases hfits : (joined (group ++ [w])).length ≤ budget
    · have hstep : packName budget (chunks, joined group) w = (chunks, joined (group ++ [w])) := by
        rw [packName, if_neg (fun h => by dsimp only at h; omega)]
        dsimp only
        rw [if_pos hcur, joined_concat hgroup, List.append_assoc]
        rfl
      rw [if_pos hfits, hstep]
      exact ih chunks (by simp) (by simpa using hall)
    · have hstep : packName budget (chunks, joined group) w = (chunks ++ [joined group], joined [w]) := by
        rw [packName, if_pos ⟨hcur, by dsimp only; omega⟩]
        dsimp only
        rw [if_neg (by simp), joined, spaced_nil, List.append_nil, List.nil_append]
      rw [if_neg hfits, hstep, List.map_cons]
      obtain ⟨hread, hne⟩ := ih (chunks ++ [joined group]) (List.cons_ne_nil w [])
        fun v hv => hall v (List.mem_append_right _ hv)
      exact ⟨by rw [hread, List.append_assoc]; rfl, hne⟩

end Chunks

namespace Server

variable {M : Matcher} {s t u v : Server} {p q : ClientId} {ch : ChannelRef} {msg : Message} {name : Str}
  {budget : ℕ}

/-- The names of the members of a channel, with a sign for an operator. -/
def nameEntries (s : Server) (ch : ChannelRef) : List Str :=
  (s.channel ch).members.entries.map fun e =>
    (if (s.channel ch).isOperator e.1 then str "@" else []) ++ (s.deref e.2).nickname

/-- **The names of a channel are packed.** -/
theorem getNamesChunks_eq (hne : s.nameEntries ch ≠ []) (hall : ∀ w ∈ s.nameEntries ch, w ≠ []) :
    s.getNamesChunks ch budget =
      (pack (fun g => (joined g).length ≤ budget) (s.nameEntries ch)).map joined := by
  have hfold : (s.channel ch).members.entries.foldl (fun (acc : List Str × Str) e =>
      packName budget acc ((if (s.channel ch).isOperator e.1 then str "@" else []) ++
        (s.deref e.2).nickname)) ([], []) = (s.nameEntries ch).foldl (packName budget) ([], []) := by
    rw [nameEntries, List.foldl_map]
  have hchunks : s.getNamesChunks ch budget =
      let packed := (s.nameEntries ch).foldl (packName budget) ([], [])
      let chunks := if packed.2 ≠ [] then packed.1 ++ [packed.2] else packed.1
      if chunks = [] then [[]] else chunks := by
    rw [← hfold]
    rfl
  rw [hchunks]
  obtain ⟨w, l, hl⟩ := List.exists_cons_of_ne_nil hne
  rw [hl] at hall ⊢
  have hfirst : packName budget ([], []) w = ([], joined [w]) := by
    simp [packName, joined]
  obtain ⟨hread, hcur⟩ := foldl_packName (l := l) budget [] (List.cons_ne_nil w []) hall
  dsimp only
  rw [List.foldl_cons, hfirst, if_pos hcur, hread, List.nil_append, pack, if_neg]
  intro hnil
  have hflat : (packFrom (fun g => (joined g).length ≤ budget) [w] l).flatten = [w] ++ l := flatten_packFrom
  rw [List.map_eq_nil_iff.mp hnil] at hflat
  exact absurd hflat (by simp)

/-! ### The replies to a join -/

/-- How a line of names begins, behind the nickname it is for. -/
def namesHead (name : Str) : Str := str "= " ++ name ++ str " :"

/-- What is left for the names in a line. -/
def namesBudget (s : Server) (p : ClientId) (name : Str) : ℕ :=
  let framing := 1 + SERVER_NAME.length + 1 + 3 + 1 + (s.deref p).nickname.length + 1 +
    (namesHead name).length
  if framing + 1 < MAX_MSGLEN - 2 then MAX_MSGLEN - 2 - framing else 1

/-- A line of names. -/
def namesLine (s : Server) (p : ClientId) (name chunk : Str) : Str :=
  replyText (s.deref p).nickname "353" (namesHead name ++ chunk)

/-- The replies to a client that is on a channel now. -/
def joinTalk (s : Server) (p : ClientId) (ch : ChannelRef) (name : Str) : List (String × Str) :=
  (if (s.channel ch).topic ≠ [] then
    [("332", name ++ str " :" ++ (s.channel ch).topic),
      ("333", name ++ str " " ++ (s.channel ch).topicSetter ++ str " " ++
        Libcpp.toDecimal (s.channel ch).topicTime)]
    else [("331", name ++ str " :No topic is set")]) ++
  ((s.getNamesChunks ch (s.namesBudget p name)).map fun chunk => ("353", namesHead name ++ chunk)) ++
  [("366", name ++ str " :End of /NAMES list"),
    ("324", name ++ str " " ++ (s.channel ch).getModeString ++
      (if (s.channel ch).getModeParams ≠ [] then str " " ++ (s.channel ch).getModeParams else [])),
    ("329", name ++ str " " ++ Libcpp.toDecimal (s.channel ch).creationTime)]

/-- The same numeric, several times. -/
theorem foldl_sendReply {α : Type} (rs : List (String × Str)) (n : String) (f : α → Str) (l : List α) :
    l.foldl (fun s a => s.sendReply p n (f a))
        (s.queueMany (rs.map fun r => (p, replyText (s.deref p).nickname r.1 r.2))) =
      s.queueMany ((rs ++ l.map fun a => (n, f a)).map fun r =>
        (p, replyText (s.deref p).nickname r.1 r.2)) := by
  induction l generalizing rs with
  | nil => rw [List.map_nil, List.append_nil, List.foldl_nil]
  | cons a l ih => rw [List.foldl_cons, sendReply_replies, ih, List.append_assoc, List.map_cons]; rfl

/-- What is read of the names of a channel. -/
theorem nameEntries_congr (hch : t.channel ch = s.channel ch)
    (hnick : ∀ q, (t.deref q).nickname = (s.deref q).nickname) : t.nameEntries ch = s.nameEntries ch := by
  rw [nameEntries, nameEntries, hch]
  simp only [hnick]

theorem getNamesChunks_congr (hch : t.channel ch = s.channel ch)
    (hnick : ∀ q, (t.deref q).nickname = (s.deref q).nickname) :
    t.getNamesChunks ch budget = s.getNamesChunks ch budget := by
  rw [getNamesChunks, getNamesChunks, hch]
  simp only [hnick]

/-- **The replies to a join** are these. -/
theorem joinReplies_eq (s : Server) (p : ClientId) (ch : ChannelRef) (name : Str) :
    s.joinReplies p ch name =
      s.queueMany ((s.joinTalk p ch name).map fun r => (p, replyText (s.deref p).nickname r.1 r.2)) := by
  have hchunks : ∀ (msgs : List (ClientId × Str)) (b : ℕ),
      (s.queueMany msgs).getNamesChunks ch b = s.getNamesChunks ch b := fun msgs b =>
    getNamesChunks_congr channel_queueMany fun _ => nickname_queueMany
  have hfirst : (if (s.channel ch).topic ≠ [] then
        (s.sendReply p "332" (name ++ str " :" ++ (s.channel ch).topic)).sendReply p "333"
          (name ++ str " " ++ (s.channel ch).topicSetter ++ str " " ++
            Libcpp.toDecimal (s.channel ch).topicTime)
      else s.sendReply p "331" (name ++ str " :No topic is set")) =
      s.queueMany ((if (s.channel ch).topic ≠ [] then
        [("332", name ++ str " :" ++ (s.channel ch).topic),
          ("333", name ++ str " " ++ (s.channel ch).topicSetter ++ str " " ++
            Libcpp.toDecimal (s.channel ch).topicTime)]
        else [("331", name ++ str " :No topic is set")]).map fun r =>
          (p, replyText (s.deref p).nickname r.1 r.2)) := by
    split_ifs
    · exact sendReply_replies [("332", name ++ str " :" ++ (s.channel ch).topic)] _ _
    · rfl
  have hreplies : s.joinReplies p ch name =
      ((((s.getNamesChunks ch (s.namesBudget p name)).foldl
        (fun s chunk => s.sendReply p "353" (namesHead name ++ chunk))
          (s.queueMany ((if (s.channel ch).topic ≠ [] then
            [("332", name ++ str " :" ++ (s.channel ch).topic),
              ("333", name ++ str " " ++ (s.channel ch).topicSetter ++ str " " ++
                Libcpp.toDecimal (s.channel ch).topicTime)]
            else [("331", name ++ str " :No topic is set")]).map fun r =>
              (p, replyText (s.deref p).nickname r.1 r.2)))).sendReply p "366"
                (name ++ str " :End of /NAMES list")).sendReply p "324"
                  (name ++ str " " ++ (s.channel ch).getModeString ++
                    (if (s.channel ch).getModeParams ≠ [] then str " " ++ (s.channel ch).getModeParams
                      else []))).sendReply p "329"
                        (name ++ str " " ++ Libcpp.toDecimal (s.channel ch).creationTime) := by
    rw [joinReplies, hfirst]
    simp only [hchunks, nickname_queueMany]
    rfl
  rw [hreplies, joinTalk, foldl_sendReply, sendReply_replies, sendReply_replies, sendReply_replies]
  simp only [List.append_assoc, List.cons_append, List.nil_append]

/-! ### The names a client hears -/

/-- The lines of names a client gets of a channel. -/
def namesHeard (p : ClientId) (ch : ChannelRef) (lines : List (ClientId × Str)) : List Str :=
  (replies p "353" lines).filter fun w => decide (((words w)[4]?).map Libcpp.asciiToLower = some ch)

/-- **All names, and no line cut**: the lines are those that were to be sent, and they list
the members. -/
structure NamesTold (s : Server) (p : ClientId) (ch : ChannelRef) (lines : List Str) : Prop where
  uncut : ∃ name, Libcpp.asciiToLower name = ch ∧
    lines = (s.getNamesChunks ch (s.namesBudget p name)).map (s.namesLine p name)
  names : lines.flatMap (listed 5) = s.nameEntries ch

/-- The names of the members are short words. -/
theorem Inv.nameEntries (hi : s.Inv) (ch : ChannelRef) :
    ∀ w ∈ s.nameEntries ch, (IsWord w ∧ w ≠ []) ∧ w.length ≤ 10 := by
  intro w hw
  obtain ⟨e, he, rfl⟩ := List.mem_map.mp hw
  obtain ⟨chan, fd, hch, -⟩ := mem_members.mp (List.mem_map_of_mem he)
  rw [channel_of_get? hch] at he ⊢
  obtain ⟨hclients, hreg, -⟩ := (hi.authority.channel ch chan hch).member _ _ (OrdMap.mem_entries.mp he)
  obtain ⟨hword, hlen⟩ := (hi.clientNames e.2).nickname
  have hget := hi.table.get? hclients
  have hvalid := (hi.nicks.valid e.2 _ hget (hi.gate e.2 _ hget hreg).2.1).1
  have hne : (s.deref e.2).nickname ≠ [] := by
    intro hnil
    rw [hnil] at hvalid
    exact absurd hvalid (by simp [isValidNickname])
  rw [MAX_NICKLEN] at hlen
  have hsign : IsWord (str "@") ∧ (str "@").length = 1 := by decide
  refine ⟨⟨?_, fun hnil => hne (List.append_eq_nil_iff.mp hnil).2⟩, ?_⟩
  · rw [IsWord.append_iff]
    split_ifs
    · exact ⟨hsign.1, hword⟩
    · exact ⟨.nil, hword⟩
  · rw [List.length_append]
    split_ifs
    · rw [hsign.2]
      omega
    · rw [List.length_nil]
      omega

/-- **Every name is told, and no line cut.** -/
theorem Inv.namesTold (hi : s.Inv) (hmem : s.isMember ch p = true) (hname : IsWord name)
    (hlen : name.length ≤ MAX_CHANNELLEN) (hch : Libcpp.asciiToLower name = ch) :
    NamesTold s p ch ((s.getNamesChunks ch (s.namesBudget p name)).map (s.namesLine p name)) ∧
      ∀ w ∈ (s.getNamesChunks ch (s.namesBudget p name)).map (s.namesLine p name),
        w.length ≤ MAX_MSGLEN - 2 := by
  have hentries := hi.nameEntries ch
  obtain ⟨hnick, hnicklen⟩ := (hi.clientNames p).nickname
  have hne : s.nameEntries ch ≠ [] := by
    obtain ⟨q, hq⟩ := OrdMap.contains_iff.mp hmem
    intro hnil
    have hin := OrdMap.mem_entries.mpr hq
    rw [List.map_eq_nil_iff.mp hnil] at hin
    exact absurd hin List.not_mem_nil
  obtain ⟨hbudget, hline⟩ : 10 ≤ s.namesBudget p name ∧ ∀ chunk : Str,
      chunk.length ≤ s.namesBudget p name → (s.namesLine p name chunk).length ≤ MAX_MSGLEN - 2 := by
    have hhead : (namesHead name).length = name.length + 4 := by
      simp only [namesHead, List.length_append, show (str "= ").length = 2 from rfl,
        show (str " :").length = 2 from rfl]
      omega
    rw [MAX_CHANNELLEN] at hlen
    rw [MAX_NICKLEN] at hnicklen
    have hframing : s.namesBudget p name = 493 - (s.deref p).nickname.length - name.length := by
      rw [namesBudget, hhead, show SERVER_NAME.length = 6 from rfl, MAX_MSGLEN,
        if_pos (by omega)]
      omega
    refine ⟨by omega, fun chunk hchunk => ?_⟩
    simp only [namesLine, replyText, List.length_append, hhead, show (str ":").length = 1 from rfl,
      show SERVER_NAME.length = 6 from rfl, show (str " ").length = 1 from rfl,
      show (str "353").length = 3 from rfl, MAX_MSGLEN]
    omega
  rw [getNamesChunks_eq hne fun w hw => (hentries w hw).1.2, List.map_map]
  refine ⟨⟨⟨name, hch, ?_⟩, ?_⟩, ?_⟩
  · rw [getNamesChunks_eq hne fun w hw => (hentries w hw).1.2, List.map_map]
  · have hread : ∀ g ∈ pack (fun g => (joined g).length ≤ s.namesBudget p name) (s.nameEntries ch),
        listed 5 ((s.namesLine p name ∘ joined) g) = id g := by
      intro g hg
      have hwords : ∀ w ∈ g, IsWord w ∧ w ≠ [] := fun w hw =>
        (hentries w ((sublist_of_mem_pack hg).subset hw)).1
      have hequals : namesHead name ++ joined g =
          str "=" ++ (spaced [name] ++ SPACE :: COLON :: joined g) := by
        simp [namesHead, spaced, show str "= " = str "=" ++ [SPACE] from rfl,
          show str " :" = [SPACE, COLON] from rfl]
      rw [Function.comp_apply, namesLine, hequals, show (5 : ℕ) = [name].length + 4 from rfl,
        listed_replyText [name] (joined g) (by decide) hnick (by decide) (by simpa using hname),
        filter_words_joined hwords, id]
    rw [List.flatMap_map, List.flatMap_congr hread, List.flatMap_id, flatten_pack]
  · intro w hw
    obtain ⟨g, hg, rfl⟩ := List.mem_map.mp hw
    refine hline _ ?_
    rcases fits_of_mem_pack hg with hone | ⟨-, hfits⟩
    · obtain ⟨w, rfl⟩ := List.length_eq_one_iff.mp hone
      have hshort := (hentries w ((sublist_of_mem_pack hg).subset List.mem_cons_self)).2
      rw [joined, spaced_nil, List.append_nil]
      omega
    · exact hfits

/-! ### A list of joins -/

/-- **What one channel of a `JOIN` comes to**: nothing, a refusal, or the client is on the
channel, and the members hear of it. -/
inductive JoinMove (s : Server) (p : ClientId) (name : Str) : Server → Prop
  | kept : JoinMove s p name s
  | refused (n : String) (a : Str) (hn : n ∈ ["476", "473", "475", "471"]) :
    JoinMove s p name (s.sendReply p n a)
  | entered (u : Server) (hvalid : isValidChannelName name = true)
    (hout : s.isMember (Libcpp.asciiToLower name) p = false)
    (hin : u.isMember (Libcpp.asciiToLower name) p = true) (hheap : u.heap = s.heap)
    (hsaid : u.spoken = s.spoken)
    (hother : ∀ ch, ch ≠ Libcpp.asciiToLower name → u.channel ch = s.channel ch) :
    JoinMove s p name (u.announceJoin p (Libcpp.asciiToLower name) name)

theorem joinMove_joinOne (s : Server) (p : ClientId) (target : Str × Str) :
    JoinMove s p target.1 (joinOne p s target) := by
  rw [joinOne]
  dsimp only
  split_ifs with hvalid
  · exact .refused _ _ (by simp)
  have hvalid : isValidChannelName target.1 = true := by simpa using hvalid
  rcases hfind : s.findChannel target.1 with _ | chan
  · have hnone := findChannel_eq_none hfind
    have hnew : (s.createChannel target.1 p).channel (Libcpp.asciiToLower target.1) =
        Channel.new target.1 (s.deref p).fd p s.clock :=
      channel_of_get? (OrdMap.get?_insert_self _ _ _)
    refine .entered _ hvalid ?_ ?_ rfl rfl fun ch hch => ?_
    · rw [isMember, channel_of_none hnone]
      rfl
    · rw [isMember, hnew]
      exact OrdMap.contains_iff.mpr ⟨p, OrdMap.get?_insert_self _ _ _⟩
    · rw [channel, channel, show (s.createChannel target.1 p).channels.get? ch = s.channels.get? ch from
        OrdMap.get?_insert_of_ne _ _ (Ne.symm hch)]
  obtain ⟨rfl, old, hold⟩ := findChannel_eq_some hfind
  dsimp only
  split_ifs with hmem hinv hkey hfull
  · exact .kept
  · exact .refused _ _ (by simp)
  · exact .refused _ _ (by simp)
  · exact .refused _ _ (by simp)
  · refine .entered _ hvalid (Bool.not_eq_true _ ▸ hmem) ?_ rfl rfl fun ch hch => ?_
    · rw [isMember, channel_updateChannel_self hold]
      exact OrdMap.contains_iff.mpr ⟨p, OrdMap.get?_insert_self _ _ _⟩
    · rw [channel, channel, show (s.updateChannel (Libcpp.asciiToLower target.1) _).channels.get? ch = _ from
        OrdMap.get?_modify_of_ne _ _ hch]

/-- **What a client hears of the names of a channel** while it joins some: nothing, if it is
on the channel or does not get there, and else all of them. -/
structure Informs (p : ClientId) (ch : ChannelRef) (s t : Server) (new : List (ClientId × Str)) : Prop where
  spoken : t.spoken = new ++ s.spoken
  same : ∀ q, (t.deref q).nickname = (s.deref q).nickname ∧ (t.deref q).fd = (s.deref q).fd
  stays : s.isMember ch p = true → t.channel ch = s.channel ch ∧ namesHeard p ch new.reverse = []
  outside : t.isMember ch p = false → namesHeard p ch new.reverse = []
  enters : s.isMember ch p = false → t.isMember ch p = true → NamesTold t p ch (namesHeard p ch new.reverse)

/-- What is told of a channel stays right while the channel and the nicknames do. -/
theorem NamesTold.congr {lines : List Str} (h : NamesTold s p ch lines) (hch : t.channel ch = s.channel ch)
    (hnick : ∀ q, (t.deref q).nickname = (s.deref q).nickname) : NamesTold t p ch lines := by
  obtain ⟨⟨name, hname, hlines⟩, hnames⟩ := h
  refine ⟨⟨name, hname, ?_⟩, ?_⟩
  · have hbudget : t.namesBudget p name = s.namesBudget p name := by
      rw [namesBudget, hnick]
      rfl
    have hline : t.namesLine p name = s.namesLine p name := by
      funext chunk
      rw [namesLine, hnick]
      rfl
    rw [hbudget, hline, getNamesChunks_congr hch hnick]
    exact hlines
  · rw [nameEntries_congr hch hnick]
    exact hnames

omit [Libcpp] in
theorem namesHeard_append [Libcpp] (l l' : List (ClientId × Str)) :
    namesHeard p ch (l ++ l') = namesHeard p ch l ++ namesHeard p ch l' := by
  rw [namesHeard, replies, List.filter_append, List.map_append, List.filter_append]
  rfl

/-- One join after another. -/
theorem Informs.trans {a b : List (ClientId × Str)} (h : Informs p ch s t a) (h' : Informs p ch t u b) :
    Informs p ch s u (b ++ a) := by
  have hmember : ∀ {x y : Server}, y.channel ch = x.channel ch → (y.deref p).fd = (x.deref p).fd →
      y.isMember ch p = x.isMember ch p := fun hch hfd => by
    rw [isMember, isMember, hch, hfd]
  have hlines : namesHeard p ch (b ++ a).reverse = namesHeard p ch a.reverse ++ namesHeard p ch b.reverse := by
    rw [List.reverse_append, namesHeard_append]
  refine ⟨by rw [h'.spoken, h.spoken, List.append_assoc], fun q => ⟨?_, ?_⟩, fun hs => ?_, fun hu => ?_,
    fun hs hu => ?_⟩
  · exact (h'.same q).1.trans (h.same q).1
  · exact (h'.same q).2.trans (h.same q).2
  · obtain ⟨hch, hnone⟩ := h.stays hs
    obtain ⟨hch', hnone'⟩ := h'.stays ((hmember hch (h.same p).2).trans hs)
    exact ⟨hch'.trans hch, by rw [hlines, hnone, hnone', List.append_nil]⟩
  · have ht : t.isMember ch p = false := by
      by_contra hcon
      have ht := eq_true_of_ne_false hcon
      rw [hmember (h'.stays ht).1 (h'.same p).2, ht] at hu
      exact absurd hu (by simp)
    rw [hlines, h.outside ht, h'.outside hu, List.append_nil]
  · rw [hlines]
    rcases ht : t.isMember ch p
    · rw [h.outside ht, List.nil_append]
      exact h'.enters ht hu
    · obtain ⟨hch, hnone⟩ := h'.stays ht
      rw [hnone, List.append_nil]
      exact (h.enters hs ht).congr hch fun q => (h'.same q).1

/-- The replies to a join have their numerics, and those with names are these. -/
theorem isNumeric_joinTalk : ∀ r ∈ s.joinTalk p ch name, IsNumeric r.1 := by
  have hall : ∀ n ∈ ["332", "333", "331", "353", "366", "324", "329"], IsNumeric n := by decide
  intro r hr
  refine hall r.1 ?_
  rw [joinTalk] at hr
  rcases List.mem_append.mp hr with hr | hr
  · rcases List.mem_append.mp hr with hr | hr
    · split_ifs at hr
      · rcases List.mem_pair.mp hr with rfl | rfl <;> simp
      · rw [List.mem_singleton.mp hr]
        simp
    · obtain ⟨chunk, -, rfl⟩ := List.mem_map.mp hr
      simp
  · simp only [List.mem_cons, List.not_mem_nil, or_false] at hr
    rcases hr with rfl | rfl | rfl <;> simp

theorem filter_joinTalk : ((s.joinTalk p ch name).filter fun r => decide (str r.1 = str "353")) =
    (s.getNamesChunks ch (s.namesBudget p name)).map fun chunk => ("353", namesHead name ++ chunk) := by
  have hfirst : ((if (s.channel ch).topic ≠ [] then
      [("332", name ++ str " :" ++ (s.channel ch).topic),
        ("333", name ++ str " " ++ (s.channel ch).topicSetter ++ str " " ++
          Libcpp.toDecimal (s.channel ch).topicTime)]
      else [("331", name ++ str " :No topic is set")]).filter fun r : String × Str =>
        decide (str r.1 = str "353")) = [] := by
    split_ifs <;> rfl
  have hnames : ∀ chunks : List Str, ((chunks.map fun chunk => ("353", namesHead name ++ chunk)).filter
      fun r : String × Str => decide (str r.1 = str "353")) =
        chunks.map fun chunk => ("353", namesHead name ++ chunk) := fun chunks =>
    List.filter_eq_self.mpr fun r hr => by
      obtain ⟨chunk, -, rfl⟩ := List.mem_map.mp hr
      exact decide_eq_true rfl
  rw [joinTalk, List.filter_append, List.filter_append, hfirst, hnames, List.nil_append]
  exact List.append_nil _

/-- Nobody hears names in what is no reply of the server. -/
theorem namesHeard_eq_nil {lines : List (ClientId × Str)}
    (h : ∀ e ∈ lines, (words e.2)[1]? ≠ some (str "353")) : namesHeard p ch lines = [] := by
  rw [namesHeard, replies, List.filter_eq_nil_iff.mpr fun e he hcon => h e he (of_decide_eq_true hcon).2]
  rfl

/-- A reply that lists no names. -/
theorem Informs.reply {n : String} {a : Str} (hn : IsNumeric n) (hne : str n ≠ str "353") :
    Informs p ch s (s.sendReply p n a) [(p, wire (replyText (s.deref p).nickname n a))] := by
  have hnone : namesHeard p ch [(p, wire (replyText (s.deref p).nickname n a))].reverse = [] := by
    refine namesHeard_eq_nil fun e he => ?_
    obtain rfl := List.mem_singleton.mp he
    obtain ⟨rest, hrest⟩ := (says_reply hn (s.deref p).nickname a).wire.words
    rw [hrest]
    exact fun hcon => hne (Option.some.inj hcon)
  rw [sendReply_eq]
  refine ⟨spoken_queueMany _, fun q => ⟨nickname_queueMany, fd_queueMany⟩,
    fun _ => ⟨channel_queueMany, hnone⟩, fun _ => hnone, fun hs ht => ?_⟩
  rw [isMember_queueMany, hs] at ht
  exact absurd ht (by simp)

/-- **One channel of a `JOIN`** tells the client the names if it gets there. -/
theorem JoinMove.informs (h : JoinMove s p name t) (hi : s.Inv) (hi' : t.Inv) (ch : ChannelRef) :
    ∃ new, Informs p ch s t new := by
  cases h with
  | kept =>
    exact ⟨[], rfl, fun _ => ⟨rfl, rfl⟩, fun _ => ⟨rfl, rfl⟩, fun _ => rfl, fun hs ht =>
      absurd (hs.symm.trans ht) (by simp)⟩
  | refused n a hn =>
    have hall : ∀ n ∈ ["476", "473", "475", "471"], IsNumeric n ∧ str n ≠ str "353" := by decide
    exact ⟨_, .reply (hall n hn).1 (hall n hn).2⟩
  | entered u hvalid hout hin hheap hsaid hother =>
    have hderef : ∀ q, u.deref q = s.deref q := fun q => by rw [deref, deref, hheap]
    obtain ⟨hword, hlen⟩ : IsWord name ∧ name.length ≤ MAX_CHANNELLEN := by
      simp only [isValidChannelName, Bool.and_eq_true, decide_eq_true_eq, List.all_eq_true] at hvalid
      refine ⟨?_, hvalid.1.1.1⟩
      rintro c hc rfl
      exact absurd (hvalid.2 SPACE hc) (by simp)
    rw [announceJoin, broadcastMessage_eq, joinReplies_eq] at hi' ⊢
    generalize hcasts : (((u.channel (Libcpp.asciiToLower name)).members.values.filter fun q =>
      decide ((none : Option ClientId) ≠ some q)).map fun q =>
        (q, str ":" ++ (u.deref p).getPrefix ++ str " JOIN " ++
          (u.channel (Libcpp.asciiToLower name)).name)) = casts at hi' ⊢
    -- nobody hears names in the announcement
    have hquiet : namesHeard p ch (casts.map fun e => (e.1, wire e.2)) = [] := by
      refine namesHeard_eq_nil fun e he => ?_
      obtain ⟨e', he', rfl⟩ := List.mem_map.mp he
      rw [← hcasts] at he'
      obtain ⟨q, -, rfl⟩ := List.mem_map.mp he'
      have hverb : HasVerb " JOIN " := by decide
      have hpre := hi.isWord_getPrefix p
      rw [← hderef] at hpre
      obtain ⟨rest, hrest⟩ := ((says_name hpre.1 (hpre.2.trans (by decide)) hverb).append
        (t := (u.channel (Libcpp.asciiToLower name)).name)).wire.words
      rw [hrest]
      exact fun hcon => absurd (Option.some.inj hcon) (by decide)
    generalize hv : u.queueMany casts = v at hi' ⊢
    set talk := (v.joinTalk p (Libcpp.asciiToLower name) name).map fun r =>
      (p, replyText (v.deref p).nickname r.1 r.2) with htalk
    have hsame : ∀ q, ((v.queueMany talk).deref q).nickname = (v.deref q).nickname := fun q => nickname_queueMany
    have hmem : (v.queueMany talk).isMember (Libcpp.asciiToLower name) p = true := by
      rw [isMember_queueMany, ← hv, isMember_queueMany]
      exact hin
    obtain ⟨htold, hshort⟩ := hi'.namesTold hmem hword hlen rfl
    have hlines : ((v.queueMany talk).getNamesChunks (Libcpp.asciiToLower name)
        ((v.queueMany talk).namesBudget p name)).map ((v.queueMany talk).namesLine p name) =
          (v.getNamesChunks (Libcpp.asciiToLower name) (v.namesBudget p name)).map (v.namesLine p name) := by
      have hbudget : (v.queueMany talk).namesBudget p name = v.namesBudget p name := by
        rw [namesBudget, hsame]
        rfl
      have hline : (v.queueMany talk).namesLine p name = v.namesLine p name := by
        funext chunk
        rw [namesLine, hsame]
        rfl
      rw [hbudget, hline, getNamesChunks_congr channel_queueMany hsame]
    rw [hlines] at htold hshort
    -- the lines of names are sent as they are, and are about this channel
    have hheard : namesHeard p ch (talk.map fun e => (e.1, wire e.2)) =
        if Libcpp.asciiToLower name = ch then
          (v.getNamesChunks (Libcpp.asciiToLower name) (v.namesBudget p name)).map (v.namesLine p name)
        else [] := by
      have huncut : ∀ w ∈ (v.getNamesChunks (Libcpp.asciiToLower name) (v.namesBudget p name)).map
          (v.namesLine p name), wire w = id w := fun w hw => by
        rw [wire, if_neg (Nat.not_lt.mpr (hshort w hw)), id]
      have hreplies : replies p "353" (talk.map fun e => (e.1, wire e.2)) =
          (v.getNamesChunks (Libcpp.asciiToLower name) (v.namesBudget p name)).map (v.namesLine p name) := by
        rw [htalk, List.map_map, Function.comp_def, replies_map isNumeric_joinTalk, filter_joinTalk,
          List.map_map]
        refine Eq.trans ?_ ((List.map_congr_left huncut).trans (List.map_id _))
        rw [List.map_map]
        rfl
      have habout : ∀ w ∈ (v.getNamesChunks (Libcpp.asciiToLower name) (v.namesBudget p name)).map
          (v.namesLine p name), decide (((words w)[4]?).map Libcpp.asciiToLower = some ch) =
            decide (Libcpp.asciiToLower name = ch) := by
        intro w hw
        obtain ⟨chunk, -, rfl⟩ := List.mem_map.mp hw
        have hequals : namesHead name ++ chunk = str "=" ++ (spaced [name] ++ SPACE :: COLON :: chunk) := by
          simp [namesHead, spaced, show str "= " = str "=" ++ [SPACE] from rfl,
            show str " :" = [SPACE, COLON] from rfl]
        have hnick : IsWord (v.deref p).nickname := by
          rw [← hv, nickname_queueMany, hderef]
          exact (hi.clientNames p).nickname.1
        rw [namesLine, hequals, words_replyText (by decide) hnick (by decide) (by simpa using hword)]
        simp
      rw [namesHeard, hreplies, List.filter_congr habout]
      split_ifs with hch
      · exact List.filter_eq_self.mpr fun _ _ => decide_eq_true hch
      · exact List.filter_eq_nil_iff.mpr fun _ _ hcon => hch (of_decide_eq_true hcon)
    have hnew : namesHeard p ch ((talk.map fun e => (e.1, wire e.2)).reverse ++
        (casts.map fun e => (e.1, wire e.2)).reverse).reverse =
          if Libcpp.asciiToLower name = ch then
            (v.getNamesChunks (Libcpp.asciiToLower name) (v.namesBudget p name)).map (v.namesLine p name)
          else [] := by
      rw [List.reverse_append, List.reverse_reverse, List.reverse_reverse, namesHeard_append, hquiet,
        List.nil_append, hheard]
    have hfd : ((v.queueMany talk).deref p).fd = (s.deref p).fd := by
      rw [fd_queueMany, ← hv, fd_queueMany, hderef]
    refine ⟨(talk.map fun e => (e.1, wire e.2)).reverse ++ (casts.map fun e => (e.1, wire e.2)).reverse,
      ?_, fun q => ⟨?_, ?_⟩, fun hs => ?_, fun ht => ?_, fun hs ht => ?_⟩
    · rw [spoken_queueMany, ← hv, spoken_queueMany, hsaid, List.append_assoc]
    · rw [nickname_queueMany, ← hv, nickname_queueMany, hderef]
    · rw [fd_queueMany, ← hv, fd_queueMany, hderef]
    all_goals rw [hnew]
    all_goals by_cases hch : Libcpp.asciiToLower name = ch
    · rw [← hch, hout] at hs
      exact absurd hs (by simp)
    · rw [if_neg hch]
      exact ⟨by rw [channel_queueMany, ← hv, channel_queueMany, hother ch (Ne.symm hch)], rfl⟩
    · rw [← hch, hmem] at ht
      exact absurd ht (by simp)
    · rw [if_neg hch]
    · rw [if_pos hch, ← hch]
      exact htold
    · rw [isMember, hfd, channel_queueMany, ← hv, channel_queueMany, hother ch (Ne.symm hch)] at ht
      exact absurd (ht.symm.trans hs) (by simp)

/-- **The list of a `JOIN`**, channel by channel. -/
theorem Turn.informs {s₀ : Server} (h : Turn s₀ p s) (hreg : (s₀.deref p).registered = true)
    {targets : List (Str × Str)} (hnames : ∀ target ∈ targets, OneLine target.1) (ch : ChannelRef) :
    ∃ new, Informs p ch s (targets.foldl (Server.joinOne p) s) new := by
  induction targets generalizing s with
  | nil => exact (JoinMove.kept : JoinMove s p [] s).informs h.inv h.inv ch
  | cons target targets ih =>
    have hnext := h.runs (h.joinOne hreg (hnames target List.mem_cons_self)) (by decide)
    obtain ⟨a, ha⟩ := (joinMove_joinOne s p target).informs h.inv hnext.inv ch
    obtain ⟨b, hb⟩ := ih hnext fun target' htarget' => hnames target' (List.mem_cons_of_mem _ htarget')
    exact ⟨b ++ a, ha.trans hb⟩

/-- **NAMES is complete and uncut.** In every reachable state, for every `JOIN` and every
channel that the client was not on before and is on now: the lines of names it gets of the
channel are those that were to be sent, not cut, and the names listed in them are those of
the members of the channel, each once, with a sign for an operator. -/
theorem Reachable.names (h : Reachable M s) (hline : LineStep M s t p msg)
    (hcmd : msg.command = str "JOIN") :
    ∃ new, t.spoken = new ++ s.spoken ∧ ∀ ch, s.isMember ch p = false → t.isMember ch p = true →
      NamesTold t p ch (namesHeard p ch new.reverse) := by
  have hi := h.inv
  obtain ⟨hp, raw, hraw, hmsg, rfl⟩ := hline
  have hentry : findCommand msg.command = some ⟨str "JOIN", cmdJoin, true⟩ := by
    rw [hcmd]
    rfl
  have hheard := (Turn.start hi hp).runs
    (Complies.op (m := .acting) (.hear p raw) rfl hp : Complies s p .acting s _) (by decide)
  have hturn : Turn (s.record (.inbound p raw)) p (s.record (.inbound p raw)) :=
    Turn.start hheard.inv hheard.live
  have hinformed : (∀ ch, ∃ new, Informs p ch (s.record (.inbound p raw)) (s.handleMessage M p raw) new) →
      ∃ new, (s.handleMessage M p raw).spoken = new ++ s.spoken ∧ ∀ ch, s.isMember ch p = false →
        (s.handleMessage M p raw).isMember ch p = true →
          NamesTold (s.handleMessage M p raw) p ch (namesHeard p ch new.reverse) := by
    intro hinforms
    obtain ⟨new, hnew⟩ := hinforms []
    refine ⟨new, hnew.spoken, fun ch hout hin => ?_⟩
    obtain ⟨new', hnew'⟩ := hinforms ch
    obtain rfl := List.append_cancel_right (hnew'.spoken.symm.trans hnew.spoken)
    exact hnew'.enters hout hin
  have hrefused : ∀ n ∈ ["451", "461"], IsNumeric n ∧ str n ≠ str "353" := by decide
  by_cases hreg : (s.deref p).registered = true
  swap
  · refine hinformed fun ch => ?_
    rw [handleMessage_of_findCommand hmsg hentry, if_pos ⟨rfl, Bool.not_eq_true _ ▸ hreg⟩]
    exact ⟨_, .reply (hrefused "451" (by simp)).1 (hrefused "451" (by simp)).2⟩
  have hjoin : s.handleMessage M p raw = (s.record (.inbound p raw)).cmdJoin p msg := by
    rw [handleMessage_of_findCommand hmsg hentry, if_neg (by simp [hreg])]
  rw [cmdJoin] at hjoin
  split_ifs at hjoin with hmatched hlist
  · refine hinformed fun ch => ?_
    rw [hjoin]
    exact ⟨_, .reply (hrefused "461" (by simp)).1 (hrefused "461" (by simp)).2⟩
  · -- `JOIN 0` only leaves
    have hrun := hturn.partAllChannels hreg
    have hyields : Yields p (s.record (.inbound p raw)) _ := yields_partAllChannels (p := p) hturn.inv
    obtain ⟨new, hnew, -⟩ := hyields
    refine ⟨new, by rw [hjoin]; exact hnew, fun ch hout hin => ?_⟩
    rw [hjoin, isMember, (hturn.runs hrun (by decide)).fd] at hin
    rcases hget : ((s.record (.inbound p raw)).partAllChannels p).channels.get? ch with _ | chan
    · rw [channel_of_none hget] at hin
      exact absurd hin (by simp [Channel.isMember, show (default : Channel).members = OrdMap.empty from rfl,
        OrdMap.contains])
    · obtain ⟨old, hold, hred⟩ := reduces_runs (hrun.mono fun op hop =>
        (hop.sweep (Or.inl rfl)).grantless) hget
      rw [channel_of_get? hget] at hin
      obtain ⟨q, hq⟩ := OrdMap.contains_iff.mp hin
      have hmem : s.isMember ch p = true := by
        rw [isMember, channel_of_get? (show s.channels.get? ch = some old from hold)]
        exact OrdMap.contains_iff.mpr ⟨q, hred.members _ _ hq⟩
      exact absurd (hmem.symm.trans hout) (by simp)
  · refine hinformed fun ch => ?_
    rw [hjoin]
    refine hturn.informs hreg (fun target htarget => ?_) ch
    obtain ⟨e, he, rfl⟩ := List.mem_map.mp htarget
    exact (M.oneLine_buildMessage hraw hmsg).list (List.fst_mem_of_mem_zipIdx he)

omit [Libcpp] in
/-- Bob hears the names when he joins. -/
theorem names_rehearsed : letI := referenceLibcpp
    ∃ new, rehearsal.spoken = new ++ threshold.spoken ∧
      (namesHeard 1 (str "#a") new.reverse).flatMap (listed 5) = rehearsal.nameEntries (str "#a") := by
  let _ := referenceLibcpp
  have hline : LineStep rehearsalMatcher threshold rehearsal 1 _ :=
    ⟨⟨by decide, by decide⟩, str "JOIN #a", by decide, rfl, rfl⟩
  obtain ⟨new, hnew, hall⟩ := Reachable.names reachable_threshold hline rfl
  exact ⟨new, hnew, (hall (str "#a") (by decide) (by decide)).names⟩

end Server

end FtIrc
