import FtIrc.Server.Resending

/-!
# Sending back what was announced

Whoever sends back the lines that announced a `MODE`, in their order and as an operator of
the channel, has them accepted, and the channel is left as it is
(`FtIrc.Server.Reachable.sentBack`). Each line is read back as the changes it was written
from (`FtIrc.readBack_group`), and to make changes again that were made already changes
nothing: each of them overwrites what it is about with a value of its own
(`FtIrc.Overwrites`), whatever the others did before.
-/

namespace FtIrc

open Abnf

variable [Libcpp]

/-! ### Overwriting -/

section Overwriting

variable {σ ρ α : Type} {r : σ → ρ} {f g : σ → σ}

/-- A step **overwrites** what is read of a state, with a value of its own, or leaves it. -/
def Overwrites (r : σ → ρ) (f : σ → σ) : Prop := (∃ v, ∀ x, r (f x) = v) ∨ ∀ x, r (f x) = r x

omit [Libcpp] in
theorem Overwrites.comp (hg : Overwrites r g) (hf : Overwrites r f) : Overwrites r fun x => g (f x) := by
  rcases hg with ⟨v, hv⟩ | hg
  · exact Or.inl ⟨v, fun x => hv (f x)⟩
  rcases hf with ⟨v, hv⟩ | hf
  · exact Or.inl ⟨v, fun x => (hg (f x)).trans (hv x)⟩
  · exact Or.inr fun x => (hg (f x)).trans (hf x)

omit [Libcpp] in
/-- Steps that overwrite, one after another, overwrite. -/
theorem Overwrites.foldl {step : σ → α → σ} (h : ∀ a, Overwrites r fun x => step x a) (l : List α) :
    Overwrites r fun x => l.foldl step x := by
  induction l with
  | nil => exact Or.inr fun _ => rfl
  | cons a l ih => exact ih.comp (h a)

omit [Libcpp] in
/-- **Done again**, it changes nothing. -/
theorem Overwrites.again (h : Overwrites r f) (x : σ) : r (f (f x)) = r (f x) := by
  rcases h with ⟨v, hv⟩ | hsame
  · rw [hv, hv]
  · exact hsame (f x)

end Overwriting

attribute [ext] Channel

namespace Channel

variable {find : Str → Option Fd} {c : Channel} {cs cs' : List ModeChange}

omit [Libcpp] in
/-- A change overwrites what every setting and every right of an operator overwrites. -/
theorem overwrites_change {ρ : Type} {r : Channel → ρ} (hset : ∀ set : Setting, Overwrites r set.apply)
    (hop : ∀ fd b, Overwrites r fun c => c.setOperator fd b) (mc : ModeChange) :
    Overwrites r fun c => c.change find mc := by
  by_cases h₁ : mc.letter = 105
  · have heq : (fun c : Channel => c.change find mc) = Setting.apply (.inviteOnly mc.adding) :=
      funext fun c => if_pos h₁
    exact heq ▸ hset _
  by_cases h₂ : mc.letter = 116
  · have heq : (fun c : Channel => c.change find mc) = Setting.apply (.topicRestricted mc.adding) :=
      funext fun c => (if_neg h₁).trans (if_pos h₂)
    exact heq ▸ hset _
  by_cases h₃ : mc.letter = 107
  · have heq : (fun c : Channel => c.change find mc) =
        Setting.apply (.key (if mc.adding then mc.param else [])) :=
      funext fun c => (if_neg h₁).trans ((if_neg h₂).trans (if_pos h₃))
    exact heq ▸ hset _
  by_cases h₄ : mc.letter = 108
  · have heq : (fun c : Channel => c.change find mc) =
        Setting.apply (.userLimit (if mc.adding then (digitsValue mc.param).getD 0 else 0)) :=
      funext fun c => (if_neg h₁).trans ((if_neg h₂).trans ((if_neg h₃).trans (if_pos h₄)))
    exact heq ▸ hset _
  by_cases h₅ : mc.letter = 111
  · rcases hfind : find mc.param with _ | fd
    · exact Or.inr fun c => by simp [change, h₅, hfind]
    · have heq : (fun c : Channel => c.change find mc) = fun c => c.setOperator fd mc.adding := by
        funext c
        simp [change, h₅, hfind]
      exact heq ▸ hop fd mc.adding
  · exact Or.inr fun c => by simp [change, h₁, h₂, h₃, h₄, h₅]

omit [Libcpp] in
/-- **Changes that were made are made already.** -/
theorem changes_again : cs.foldl (change find) (cs.foldl (change find) c) = cs.foldl (change find) c := by
  have hall : ∀ {ρ : Type} {r : Channel → ρ}, (∀ set : Setting, Overwrites r set.apply) →
      (∀ fd b, Overwrites r fun c => c.setOperator fd b) →
        r (cs.foldl (change find) (cs.foldl (change find) c)) = r (cs.foldl (change find) c) :=
    fun hset hop => (Overwrites.foldl (overwrites_change hset hop) cs).again c
  have hfield : ∀ {ρ : Type} (r : Channel → ρ), (∀ set : Setting, Overwrites r set.apply) →
      (∀ (c : Channel) fd b, r (c.setOperator fd b) = r c) →
        r (cs.foldl (change find) (cs.foldl (change find) c)) = r (cs.foldl (change find) c) :=
    fun r hset hop => hall hset fun fd b => Or.inr fun c => hop c fd b
  ext1
  case operators =>
    ext fd
    refine iff_of_eq (hall (r := fun c : Channel => fd ∈ c.operators)
      (fun set => Or.inr fun c => by cases set <;> rfl) fun fd' b => ?_)
    by_cases hfd : fd = fd'
    · subst hfd
      refine Or.inl ⟨b = true, fun c => ?_⟩
      rcases b <;> simp [setOperator]
    · refine Or.inr fun c => ?_
      rcases b <;> simp [setOperator, hfd]
  all_goals
    refine hfield _ (fun set => ?_) fun _ _ _ => rfl
    cases set <;> first | exact Or.inr fun _ => rfl | exact Or.inl ⟨_, fun _ => rfl⟩

omit [Libcpp] in
/-- The parameter of a `-k` makes no difference. -/
theorem changes_like (h : List.Forall₂ ModeChange.Like cs cs') :
    cs.foldl (change find) c = cs'.foldl (change find) c := by
  induction h generalizing c with
  | nil => rfl
  | @cons mc mc' _ _ hone _ ih =>
    have hmade : c.change find mc = c.change find mc' := by
      rcases hone with rfl | ⟨⟨hadding, hletter⟩, hadding', hletter'⟩
      · rfl
      · simp [change, hletter, hletter', hadding, hadding']
    rw [List.foldl_cons, List.foldl_cons, hmade, ih]

end Channel

/-! ### The lines -/

/-- What a line says behind its verb. -/
def afterVerb (w : Str) : Str := [SPACE].intercalate ((words w).drop 2)

/-- The announcements of mode changes a client gets, in their order. -/
def modeHeard (q : ClientId) (lines : List (ClientId × Str)) : List Str :=
  (lines.filter fun e => decide (e.1 = q ∧ (words e.2)[1]? = some (str "MODE"))).map Prod.snd

namespace Server

variable {M : Matcher} {s t u v : Server} {p q : ClientId} {ch : ChannelRef} {msg : Message}
  {cs g : List ModeChange} {head : Str}

/-- **The lines are sent back**, each by a client that is an operator of the channel then. -/
inductive SentBack (M : Matcher) (ch : ChannelRef) : Server → List Str → Server → Prop
  | done (s : Server) : SentBack M ch s [] s
  | send {s t u : Server} {w : Str} {lines : List Str} (q : ClientId) (msg : Message)
    (hline : LineStep M s t q msg) (hop : s.isOperator ch q = true) (hcmd : msg.command = str "MODE")
    (hparams : msg.params = tokens 14 (SPACE :: afterVerb w)) (hrest : SentBack M ch t lines u) :
    SentBack M ch s (w :: lines) u

/-- The changes are made to the channel. -/
theorem channel_withModes (h : s.channels.get? ch ≠ none) :
    (s.withModes ch cs).channel ch = cs.foldl (Channel.change (s.memberFd ch)) (s.channel ch) := by
  obtain ⟨c, hc⟩ := Option.ne_none_iff_exists'.mp h
  rw [withModes, channel, updateChannel, OrdMap.get?_modify, channel, hc]
  simp only [if_true, Option.map_some, Option.getD_some]

/-- The name of a channel is a middle parameter. -/
theorem Inv.isMiddle_name (hi : s.Inv) (h : s.channels.get? ch ≠ none) : IsMiddle (s.channel ch).name := by
  obtain ⟨hword, hhead, -⟩ := hi.name_channel h
  refine ⟨?_, hword, ?_⟩
  · rintro hnil
    simp [hnil] at hhead
  · rw [hhead]
    decide

/-- **Members are found by name**, and named in one word. -/
theorem Inv.findsWords_memberName (hi : s.Inv) (ch : ChannelRef) : FindsWords (s.memberName ch) := by
  intro nick n hn
  rw [memberName, Option.map_eq_some_iff] at hn
  obtain ⟨q, hq, rfl⟩ := hn
  refine ⟨by rw [memberName, findMember_nickname hq, Option.map_some], ?_⟩
  have hmem := hi.member_of_findMember hq
  rcases hch : s.channels.get? ch with _ | chan
  · rw [channel_of_none hch] at hmem
    exact absurd hmem (by simp [show (default : Channel).members = OrdMap.empty from rfl])
  rw [channel_of_get? hch] at hmem
  obtain ⟨hclients, hreg, -⟩ := (hi.authority.channel ch chan hch).member _ _ hmem
  have hget := hi.table.get? hclients
  have hset := (hi.gate q _ hget hreg).2.1
  have hvalid := (hi.nicks.valid q _ hget hset).1
  refine ⟨?_, (hi.clientNames q).nickname.1, ?_⟩
  · intro hnil
    rw [hnil] at hvalid
    exact absurd hvalid (by simp [isValidNickname])
  · intro hhead
    obtain ⟨rest, hrest⟩ := List.head?_eq_some_iff.mp hhead
    have hcolon : (isAlphaOctet COLON || isNickPunctuation COLON) = false := by decide
    rw [hrest, isValidNickname, hcolon, Bool.false_and] at hvalid
    exact absurd hvalid (by simp)

omit [Libcpp] in
/-- A numeric reply announces no change. -/
theorem reply_ne_mode {n : String} (hn : IsNumeric n) (nick a : Str) :
    (words (wire (replyText nick n a)))[1]? ≠ some (str "MODE") := by
  obtain ⟨rest, hrest⟩ := (says_reply hn nick a).wire.words
  rw [hrest, List.getElem?_cons_succ, List.getElem?_cons_zero]
  intro (hverb : some (str n) = some (str "MODE"))
  have hlen := hn.1
  rw [Option.some.inj hverb] at hlen
  exact absurd hlen (by decide)

/-- A `MODE` of an operator is handled. -/
theorem LineStep.cmdMode_eq (h : LineStep M s t p msg) (hi : s.Inv) (hcmd : msg.command = str "MODE")
    (hop : s.isOperator ch p = true) : ∃ raw, t = (s.record (.inbound p raw)).cmdMode p msg := by
  obtain ⟨hp, raw, -, hmsg, rfl⟩ := h
  have hentry : findCommand msg.command = some ⟨str "MODE", cmdMode, true⟩ := by
    rw [hcmd]
    rfl
  have hreg : (s.deref p).registered = true := by
    have hmem := hi.isMember_of_isOperator hop
    obtain ⟨c, hc⟩ := Option.ne_none_iff_exists'.mp (get?_ne_none_of_isOperator hop)
    rw [isMember, channel_of_get? hc] at hmem
    obtain ⟨q, hq⟩ := OrdMap.contains_iff.mp hmem
    obtain ⟨hclients, hreg, -⟩ := (hi.authority.channel ch c hc).member _ _ hq
    obtain rfl : p = q := Option.some.inj (hp.1.symm.trans hclients)
    exact hreg
  exact ⟨raw, by rw [handleMessage_of_findCommand hmsg hentry, if_neg (by simp [hreg])]⟩

/-- **A `MODE` of an operator**, as a step of the server. -/
theorem LineStep.mode_eq (h : LineStep M s t p msg) (hi : s.Inv) (hcmd : msg.command = str "MODE")
    (hchan : (msg.param 0).head? = some HASH) (hfind : s.findChannel (msg.param 0) = some ch)
    (hop : s.isOperator ch p = true) (hsign : Signed (msg.param 1)) :
    ∃ raw, t = ((s.record (.inbound p raw)).withModes ch
      (s.modesMade ch (msg.params.drop 2) (msg.param 1))).queueMany
        (s.modeTalk p ch (msg.params.drop 2) (msg.param 1)) := by
  obtain ⟨raw, rfl⟩ := h.cmdMode_eq hi hcmd hop
  have hlen : msg.params.length ≠ 1 := by
    intro hone
    obtain ⟨x, hx⟩ := List.length_eq_one_iff.mp hone
    rcases hsign with hsign | hsign <;> simp [Message.param, hx] at hsign
  refine ⟨raw, ?_⟩
  rw [cmdMode, if_neg (Message.some_of_head hchan)]
  dsimp only
  rw [if_pos hchan, show (s.record (.inbound p raw)).findChannel (msg.param 0) = some ch from hfind]
  dsimp only
  rw [if_neg hlen]
  exact handleChannelMode_eq (s := s.record (.inbound p raw)) (hi.isMember_of_isOperator hop) hop hsign

/-- A `MODE` that is no change: nothing is announced, and nothing happens to the channel. -/
theorem LineStep.mode_idle (h : LineStep M s t p msg) (hi : s.Inv) (hcmd : msg.command = str "MODE")
    (hchan : (msg.param 0).head? = some HASH) (hfind : s.findChannel (msg.param 0) = some ch)
    (hop : s.isOperator ch p = true) (hsign : ¬Signed (msg.param 1)) :
    t.channel ch = s.channel ch ∧ ∃ new, t.spoken = new ++ s.spoken ∧ ∀ q, modeHeard q new.reverse = [] := by
  obtain ⟨raw, rfl⟩ := h.cmdMode_eq hi hcmd hop
  have hmem := hi.isMember_of_isOperator hop
  rw [cmdMode, if_neg (Message.some_of_head hchan)]
  dsimp only
  rw [if_pos hchan, show (s.record (.inbound p raw)).findChannel (msg.param 0) = some ch from hfind]
  dsimp only
  by_cases hlen : msg.params.length = 1
  · have hmem' : ¬(!(s.record (.inbound p raw)).isMember ch p) = true := by
      rw [show (s.record (.inbound p raw)).isMember ch p = true from hmem]
      simp
    rw [if_pos hlen, if_neg hmem']
    refine ⟨rfl, [(p, _), (p, _)], rfl, fun q => ?_⟩
    rw [modeHeard, List.map_eq_nil_iff, List.filter_eq_nil_iff]
    intro e he hcon
    rw [List.mem_reverse] at he
    rcases List.mem_pair.mp he with rfl | rfl
    · exact reply_ne_mode (by decide) _ _ (of_decide_eq_true hcon).2
    · exact reply_ne_mode (by decide) _ _ (of_decide_eq_true hcon).2
  · have hmem' : ¬(!(s.record (.inbound p raw)).isMember ch p) = true := by
      rw [show (s.record (.inbound p raw)).isMember ch p = true from hmem]
      simp
    have hop' : ¬(!(s.record (.inbound p raw)).isOperator ch p) = true := by
      rw [show (s.record (.inbound p raw)).isOperator ch p = true from hop]
      simp
    rw [if_neg hlen, handleChannelMode, if_neg hmem', if_neg hop']
    dsimp only
    rw [if_pos (Or.inr (not_or.mp hsign))]
    exact ⟨rfl, [], rfl, fun _ => rfl⟩

/-- Mode changes and messages change nobody's name. -/
theorem member_queueMany_withModes (s : Server) (ch : ChannelRef) (cs : List ModeChange) (msgs : List (ClientId × Str)) :
    ((s.withModes ch cs).queueMany msgs).memberName ch = s.memberName ch ∧
      ((s.withModes ch cs).queueMany msgs).memberFd ch = s.memberFd ch := by
  have hfound : ∀ nick, ((s.withModes ch cs).queueMany msgs).findMember ch nick = s.findMember ch nick :=
    fun nick => findMember_congr (by rw [channel_queueMany, members_withModes])
      fun q => nickname_queueMany.trans rfl
  constructor
  · funext nick
    rw [memberName, hfound, memberName]
    congr 1
    funext q
    exact nickname_queueMany
  · funext nick
    rw [memberFd, hfound, memberFd]
    congr 1
    funext q
    exact fd_queueMany

/-- What a line of mode changes says behind its verb. -/
theorem Inv.afterVerb_groupText (hi : s.Inv) : afterVerb (groupText (s.modeHead p ch) g) =
    (s.channel ch).name ++ SPACE :: (modesOf none g ++ paramsText g) := by
  have hline : groupText (s.modeHead p ch) g = (COLON :: (s.deref p).getPrefix) ++ SPACE ::
      (str "MODE" ++ SPACE :: ((s.channel ch).name ++ SPACE :: (modesOf none g ++ paramsText g))) := by
    simp [groupText, modeHead, show str ":" = [COLON] from rfl, show str " " = [SPACE] from rfl,
      show str " MODE " = SPACE :: (str "MODE" ++ [SPACE]) from rfl]
  have hspeaker : IsWord (COLON :: (s.deref p).getPrefix) :=
    IsWord.cons_iff.mpr ⟨by decide, (hi.isWord_getPrefix p).1⟩
  rw [afterVerb, hline, words_cons hspeaker, words_cons (by decide), List.drop_succ_cons,
    List.drop_succ_cons, List.drop_zero, words, List.intercalate_splitOn]

omit [Libcpp] in
/-- The letters of a group of changes are one word. -/
theorem isMiddle_modesOf {find : Str → Option Str} [Libcpp] (hne : g ≠ [])
    (hfair : ∀ mc ∈ g, mc.Fair find) : IsMiddle (modesOf none g) := by
  have hword : ∀ (cs : List ModeChange) (sign : Option Bool), (∀ mc ∈ cs, mc.Fair find) →
      IsWord (modesOf sign cs) := by
    intro cs
    induction cs with
    | nil => exact fun _ _ => .nil
    | cons mc cs ih =>
      intro sign hall
      have hletters : ∀ c ∈ [(105 : Octet), 116, 107, 111, 108], c ≠ SPACE := by simp [SPACE]
      have hletter : mc.letter ≠ SPACE := hletters _ (hall mc List.mem_cons_self).letter_mem
      rw [modesOf, IsWord.append_iff, IsWord.cons_iff]
      refine ⟨?_, hletter, ih _ fun mc' hmc' => hall mc' (List.mem_cons_of_mem _ hmc')⟩
      split_ifs <;> decide
  obtain ⟨mc, g, rfl⟩ := List.exists_cons_of_ne_nil hne
  refine ⟨?_, hword _ _ hfair, ?_⟩
  · rw [modesOf, if_pos (by simp)]
    split_ifs <;> simp [str]
  · rw [modesOf, if_pos (by simp)]
    have hsigns : some 43 ≠ some COLON ∧ some 45 ≠ some COLON := by decide
    split_ifs
    · exact hsigns.1
    · exact hsigns.2

/-- **The line of a group, sent back**: the channel, the letters, and what is read of the
parameters. -/
theorem Inv.params_sentBack (hi : s.Inv) (hthere : s.channels.get? ch ≠ none) (hne : g ≠ [])
    {find : Str → Option Str} (hfair : ∀ mc ∈ g, mc.Fair find) :
    tokens 14 (SPACE :: afterVerb (groupText (s.modeHead p ch) g)) =
      (s.channel ch).name :: modesOf none g :: tokens 12 (paramsText g) := by
  have hwords : ∀ w ∈ [(s.channel ch).name, modesOf none g], IsMiddle w := by
    intro w hw
    rcases List.mem_pair.mp hw with rfl | rfl
    · exact hi.isMiddle_name hthere
    · exact isMiddle_modesOf hne hfair
  have hparams : (paramsText g).head? ∈ [none, some SPACE] := by
    rw [paramsText_eq]
    rcases written g with _ | ⟨w, ws⟩ <;> simp
  have hread := tokens_spaced_append (n := 14) (paramsText g) hwords (by simp) hparams
  rw [hi.afterVerb_groupText]
  simpa using hread

/-- **A line that is sent back** makes the changes of its group again, and is answered with
no error. -/
theorem LineStep.makesAgain {find : Str → Option Str} {findFd : Str → Option Fd} {name : Str}
    (h : LineStep M t u q msg) (hi : t.Inv) (hcmd : msg.command = str "MODE")
    (hop : t.isOperator ch q = true) (hname : (t.channel ch).name = name)
    (hfind : t.memberName ch = find) (hfd : t.memberFd ch = findFd) (hfair : ∀ mc ∈ g, mc.Fair find)
    (hne : g ≠ []) (hparams : msg.params = name :: modesOf none g :: tokens 12 (paramsText g))
    (hread : ReadsBack find name true (tokens 12 (paramsText g)) none g) :
    u.channel ch = g.foldl (Channel.change findFd) (t.channel ch) ∧
      (u.memberName ch = find ∧ u.memberFd ch = findFd) ∧
        ∃ new, u.spoken = new ++ t.spoken ∧ ∀ e ∈ new, errorNumeric e.2 = none := by
  have hthere := get?_ne_none_of_isOperator hop
  obtain ⟨-, hhash, hkey⟩ := hi.name_channel hthere
  have hzero : msg.param 0 = (t.channel ch).name := by rw [Message.param, hparams, hname]; rfl
  have hone : msg.param 1 = modesOf none g := by rw [Message.param, hparams]; rfl
  have htwo : msg.params.drop 2 = tokens 12 (paramsText g) := by rw [hparams]; rfl
  have hfound : t.findChannel (msg.param 0) = some ch := by
    rw [hzero, Server.findChannel, hkey, if_pos]
    exact OrdMap.contains_iff.mpr (Option.ne_none_iff_exists'.mp hthere)
  have hsign : Signed (msg.param 1) := by
    obtain ⟨mc, g, rfl⟩ := List.exists_cons_of_ne_nil hne
    rw [hone, modesOf, if_pos (by simp)]
    split_ifs
    · exact Or.inl rfl
    · exact Or.inr rfl
  obtain ⟨raw, rfl⟩ := h.mode_eq hi hcmd (hzero ▸ hhash) hfound hop hsign
  rw [hone, htwo]
  have hmade : List.Forall₂ ModeChange.Like g (t.modesMade ch (tokens 12 (paramsText g)) (modesOf none g)) := by
    rw [modesMade, hfind]
    exact hread.changes
  have hright : t.modesWrong ch (tokens 12 (paramsText g)) (modesOf none g) = [] := by
    rw [modesWrong, hfind, hname, hread.complaints]
    rfl
  have hsame := member_queueMany_withModes (t.record (.inbound q raw)) ch
    (t.modesMade ch (tokens 12 (paramsText g)) (modesOf none g))
    (t.modeTalk q ch (tokens 12 (paramsText g)) (modesOf none g))
  refine ⟨?_, ⟨hsame.1.trans hfind, hsame.2.trans hfd⟩, _, spoken_queueMany _, ?_⟩
  · rw [channel_queueMany, channel_withModes (s := t.record _) hthere, ← Channel.changes_like hmade, ← hfd]
    rfl
  · intro e he
    rw [modeTalk, hright, List.map_nil, List.nil_append, List.mem_reverse] at he
    obtain ⟨rest, hrest⟩ := hi.words_modeLines he
    have hspeaker : ¬(COLON :: (t.deref q).getPrefix = COLON :: SERVER_NAME) := fun hcon =>
      getPrefix_ne_SERVER_NAME (List.cons.inj hcon).2
    simp [errorNumeric, hrest, hspeaker]

/-- **The lines of some groups, sent back**, make the changes of all of them again. -/
theorem SentBack.makes {gs : List (List ModeChange)} {find : Str → Option Str}
    {findFd : Str → Option Fd} {name : Str} (h : SentBack M ch t (gs.map (groupText head)) u) (hi : t.Inv)
    (hname : (t.channel ch).name = name) (hfind : t.memberName ch = find) (hfd : t.memberFd ch = findFd)
    (hfair : ∀ g ∈ gs, ∀ mc ∈ g, mc.Fair find) (hne : ∀ g ∈ gs, g ≠ [])
    (hlines : ∀ g ∈ gs, tokens 14 (SPACE :: afterVerb (groupText head g)) =
      name :: modesOf none g :: tokens 12 (paramsText g))
    (hread : ∀ g ∈ gs, ReadsBack find name true (tokens 12 (paramsText g)) none g) :
    u.channel ch = gs.flatten.foldl (Channel.change findFd) (t.channel ch) ∧
      ∃ new, u.spoken = new ++ t.spoken ∧ ∀ e ∈ new, errorNumeric e.2 = none := by
  induction gs generalizing t with
  | nil =>
    obtain ⟨⟩ := h
    exact ⟨rfl, [], rfl, by simp⟩
  | cons g gs ih =>
    obtain _ | @⟨_, v, _, _, _, q, msg, hline, hop, hcmd, hparams, hrest⟩ := h
    obtain ⟨hchan, ⟨hfind', hfd'⟩, new, hnew, hright⟩ := hline.makesAgain hi hcmd hop hname hfind hfd
      (hfair g List.mem_cons_self) (hne g List.mem_cons_self)
      (hparams.trans (hlines g List.mem_cons_self)) (hread g List.mem_cons_self)
    have hi' : v.Inv := by
      obtain ⟨hp, raw, hraw, -, rfl⟩ := hline
      exact Steps.inv (.single (.client q (.line t raw hp hraw))) hi
    have hname' : (v.channel ch).name = name := by rw [hchan, Channel.name_changes, hname]
    obtain ⟨hmade, new', hnew', hright'⟩ := ih hrest hi' hname' hfind' hfd'
      (fun g' hg' => hfair g' (List.mem_cons_of_mem _ hg')) (fun g' hg' => hne g' (List.mem_cons_of_mem _ hg'))
      (fun g' hg' => hlines g' (List.mem_cons_of_mem _ hg'))
      fun g' hg' => hread g' (List.mem_cons_of_mem _ hg')
    refine ⟨?_, new' ++ new, by rw [hnew', hnew, List.append_assoc], fun e he => ?_⟩
    · rw [hmade, hchan, List.flatten_cons, List.foldl_append]
    · rcases List.mem_append.mp he with he | he
      · exact hright' e he
      · exact hright e he

/-- **What a member hears of a `MODE`** are the lines that announce the changes. -/
theorem Inv.modeHeard_modeTalk (hi : s.Inv) (hon : s.IsOn ch q) (params : List Str) (modes : Str) :
    modeHeard q ((s.modeTalk p ch params modes).map fun e => (e.1, wire e.2)) =
      (s.modeLines p ch params modes).map wire := by
  have hcomplaints : ((((s.modesWrong ch params modes).map (complain p (s.deref p).nickname)).map
      fun e => (e.1, wire e.2)).filter fun e =>
        decide (e.1 = q ∧ (words e.2)[1]? = some (str "MODE"))) = [] := by
    refine List.filter_eq_nil_iff.mpr fun e he hcon => ?_
    rw [List.map_map, List.mem_map] at he
    obtain ⟨x, hx, rfl⟩ := he
    exact reply_ne_mode (isNumeric_complaint (of_mem_once hx).1) _ _ (of_decide_eq_true hcon).2
  have hlines : ∀ lines : List Str, (∀ w ∈ lines, w ∈ s.modeLines p ch params modes) →
      (((s.toMembers ch lines).map fun e => (e.1, wire e.2)).filter fun e =>
        decide (e.1 = q ∧ (words e.2)[1]? = some (str "MODE"))) = lines.map fun w => (q, wire w) := by
    intro lines
    induction lines with
    | nil => exact fun _ => rfl
    | cons w lines ih =>
      intro hmem
      have hcons : s.toMembers ch (w :: lines) =
          ((s.channel ch).members.values.map fun r => (r, w)) ++ s.toMembers ch lines := rfl
      have hfirst : ((((s.channel ch).members.values.map fun r => (r, w)).map
          fun e => (e.1, wire e.2)).filter fun e =>
            decide (e.1 = q ∧ (words e.2)[1]? = some (str "MODE"))) = [(q, wire w)] := by
        have hsent : (q, w) ∈ s.toMembers ch (s.modeLines p ch params modes) :=
          List.mem_flatMap.mpr ⟨w, hmem w List.mem_cons_self, List.mem_map.mpr ⟨q, mem_members.mpr hon, rfl⟩⟩
        have hverb : (words (wire w))[1]? = some (str "MODE") := by
          obtain ⟨rest, hrest⟩ := hi.words_modeLines
            (List.mem_map_of_mem (f := fun e : ClientId × Str => (e.1, wire e.2)) hsent)
          rw [show words (wire w) = _ from hrest]
          rfl
        have hsame : ∀ r : ClientId, decide (r = q ∧ (words (wire w))[1]? = some (str "MODE")) = (r == q) := by
          intro r
          rw [Bool.eq_iff_iff, decide_eq_true_iff, beq_iff_eq]
          exact and_iff_left hverb
        rw [List.map_map, List.filter_map]
        simp only [Function.comp_def, hsame]
        rw [List.filter_beq, List.count_eq_one_of_mem (hi.nodup_members ch) (mem_members.mpr hon)]
        rfl
      rw [hcons, List.map_append, List.filter_append, hfirst,
        ih fun w' hw' => hmem w' (List.mem_cons_of_mem _ hw')]
      rfl
  rw [modeHeard, modeTalk, List.map_append, List.filter_append, hcomplaints, List.nil_append,
    hlines _ fun _ hw => hw, List.map_map]
  rfl

/-- **What is announced can be sent back.** In every reachable state, if an operator sends a
`MODE` for a channel, whose parameters are those of a line, and every line that announces
the changes fits, and no key that is set begins with a colon: if the lines that a member
hears are sent back, by operators of the channel, the channel is left as it was after the
first command, and there is no error. -/
theorem Reachable.sentBack (h : Reachable M s) (hline : LineStep M s t p msg)
    (hcmd : msg.command = str "MODE") (hchan : (msg.param 0).head? = some HASH)
    (hfind : s.findChannel (msg.param 0) = some ch) (hop : s.isOperator ch p = true)
    (hsign : Signed (msg.param 1)) (hparams : ∃ text, msg.params = tokens 14 text)
    (hfits : ∀ w ∈ s.modeLines p ch (msg.params.drop 2) (msg.param 1), w.length ≤ MAX_MSGLEN - 2)
    (hkeys : ∀ mc ∈ s.modesMade ch (msg.params.drop 2) (msg.param 1),
      mc.letter = 107 → mc.adding = true → mc.param.head? ≠ some COLON) :
    ∃ new, t.spoken = new ++ s.spoken ∧ ∀ q, s.IsOn ch q →
      ∀ u, SentBack M ch t (modeHeard q new.reverse) u → u.channel ch = t.channel ch ∧
        ∃ more, u.spoken = more ++ t.spoken ∧ ∀ e ∈ more, errorNumeric e.2 = none := by
  have hi := h.inv
  have hthere := get?_ne_none_of_isOperator hop
  have hi' : t.Inv := by
    obtain ⟨hp, raw, hraw, -, rfl⟩ := hline
    exact Steps.inv (.single (.client p (.line s raw hp hraw))) hi
  obtain ⟨raw, rfl⟩ := hline.mode_eq hi hcmd hchan hfind hop hsign
  refine ⟨_, spoken_queueMany _, fun q hon u hback => ?_⟩
  have huncut : (s.modeLines p ch (msg.params.drop 2) (msg.param 1)).map wire =
      s.modeLines p ch (msg.params.drop 2) (msg.param 1) := by
    have hsame : ∀ w ∈ s.modeLines p ch (msg.params.drop 2) (msg.param 1), wire w = id w := by
      intro w hw
      rw [wire, if_neg (Nat.not_lt.mpr (hfits w hw)), id]
    rw [List.map_congr_left hsame, List.map_id]
  rw [List.reverse_reverse, hi.modeHeard_modeTalk hon, huncut, modeLines, renderModeLines_eq] at hback
  set cs := s.modesMade ch (msg.params.drop 2) (msg.param 1) with hcs
  have hwords := hi.findsWords_memberName ch
  have hfair : ∀ mc ∈ cs, mc.Fair (s.memberName ch) := fun mc hmc =>
    modeChanges_fair (fun nick n hn => (hwords nick n hn).1) hmc
  obtain ⟨text, htext⟩ := hparams
  have hmid : ∀ w ∈ (msg.params.drop 2).dropLast, IsMiddle w := fun w hw => by
    have hw := mem_dropLast_of_suffix (List.drop_suffix 2 _) hw
    rw [htext] at hw
    exact isMiddle_of_mem_tokens hw
  have hord : cs.Pairwise Orderly := modeChanges_orderly hmid
  have hlen : (written cs).length ≤ 13 := by
    have hread : (written cs).length ≤ (msg.params.drop 2).length := length_written_le
    have hfew : msg.params.length ≤ 15 := htext ▸ length_tokens_le
    rw [List.length_drop] at hread
    omega
  have hsub : ∀ g ∈ modeGroups (s.modeHead p ch) cs, g.Sublist cs := fun g hg => sublist_of_mem_pack hg
  have hsame := member_queueMany_withModes (s.record (.inbound p raw)) ch cs
    (s.modeTalk p ch (msg.params.drop 2) (msg.param 1))
  have hchannel : (((s.record (.inbound p raw)).withModes ch cs).queueMany
      (s.modeTalk p ch (msg.params.drop 2) (msg.param 1))).channel ch =
        cs.foldl (Channel.change (s.memberFd ch)) (s.channel ch) := by
    rw [channel_queueMany, channel_withModes (s := s.record _) hthere]
    rfl
  have hname : ((((s.record (.inbound p raw)).withModes ch cs).queueMany
      (s.modeTalk p ch (msg.params.drop 2) (msg.param 1))).channel ch).name = (s.channel ch).name := by
    rw [hchannel, Channel.name_changes]
  have hne : ∀ g ∈ modeGroups (s.modeHead p ch) cs, g ≠ [] := fun g hg => ne_nil_of_mem_pack hg
  have hmakes := hback.makes hi' hname hsame.1 hsame.2
    (fun g hg mc hmc => hfair mc ((hsub g hg).subset hmc)) hne
    (fun g hg => hi.params_sentBack hthere (hne g hg) fun mc hmc => hfair mc ((hsub g hg).subset hmc))
    fun g hg => readBack_group hwords (fun mc hmc => hfair mc ((hsub g hg).subset hmc))
      (hord.sublist (hsub g hg)) (fun mc hmc => hkeys mc ((hsub g hg).subset hmc))
      ((((hsub g hg).map _).filter _).length_le.trans hlen)
  rw [modeGroups, flatten_pack] at hmakes
  refine ⟨?_, hmakes.2⟩
  rw [hmakes.1, hchannel]
  exact Channel.changes_again

/-- A second operator. -/
def promoting : Message where
  command := str "MODE"
  params := [str "#a", str "+o", str "bob"]

set_option maxRecDepth 4000 in
omit [Libcpp] in
/-- Bob sends back that he was made an operator. -/
theorem sentBack_rehearsed : letI := referenceLibcpp
    (((rehearsal.handleMessage rehearsalMatcher 0 (str "MODE #a +o bob")).handleMessage rehearsalMatcher 1
      (str "MODE #a +o bob")).channel (str "#a")).operators =
        ((rehearsal.handleMessage rehearsalMatcher 0 (str "MODE #a +o bob")).channel (str "#a")).operators := by
  let _ := referenceLibcpp
  have hline : LineStep rehearsalMatcher rehearsal
      (rehearsal.handleMessage rehearsalMatcher 0 (str "MODE #a +o bob")) 0 promoting :=
    ⟨⟨by decide, by decide⟩, str "MODE #a +o bob", by decide, rfl, rfl⟩
  have hline' : LineStep rehearsalMatcher (rehearsal.handleMessage rehearsalMatcher 0 (str "MODE #a +o bob"))
      ((rehearsal.handleMessage rehearsalMatcher 0 (str "MODE #a +o bob")).handleMessage rehearsalMatcher 1
        (str "MODE #a +o bob")) 1 promoting :=
    ⟨⟨by decide, by decide⟩, str "MODE #a +o bob", by decide, rfl, rfl⟩
  have hread : promoting.params = tokens 14 (str " #a +o bob") := by decide
  have hop : rehearsal.isOperator (str "#a") 0 = true := by decide
  have hon : rehearsal.IsOn (str "#a") 0 := mem_members.mp (by decide)
  obtain ⟨new, hnew, hall⟩ := Reachable.sentBack reachable_rehearsal hline rfl rfl rfl hop (Or.inl rfl)
    ⟨_, hread⟩ (by decide) (by decide)
  have hsaid : (rehearsal.handleMessage rehearsalMatcher 0 (str "MODE #a +o bob")).spoken =
      [(1, str ":alice!u@127.0.0.1 MODE #a +o bob"), (0, str ":alice!u@127.0.0.1 MODE #a +o bob")] ++
        rehearsal.spoken := by decide
  obtain rfl := List.append_cancel_right (hnew.symm.trans hsaid)
  have hheard : modeHeard 0 [(0, str ":alice!u@127.0.0.1 MODE #a +o bob"),
      (1, str ":alice!u@127.0.0.1 MODE #a +o bob")] = [str ":alice!u@127.0.0.1 MODE #a +o bob"] := by decide
  have hop' : (rehearsal.handleMessage rehearsalMatcher 0 (str "MODE #a +o bob")).isOperator
      (str "#a") 1 = true := by decide
  have hparams : promoting.params =
      tokens 14 (SPACE :: afterVerb (str ":alice!u@127.0.0.1 MODE #a +o bob")) := by decide
  have hback := SentBack.send 1 promoting hline' hop' rfl hparams (.done _)
  exact congrArg Channel.operators (hall 0 hon _ (hheard.symm ▸ hback)).1

end Server

end FtIrc
