import FtIrc.Server.Listing
import FtIrc.Server.SentBack

/-!
# Following what is announced

The server advertises how the lines are to be read that announce mode changes: an `o` has
a parameter, a `k` and an `l` have one when they are set, and no other letter has any
(`FtIrc.decodeModes`). But a `-k` may be written with a parameter, and if a letter comes
after it in the line that has one too, the two are confused. If there is no such letter
(`FtIrc.Unmistakable`), **a client that keeps a copy of the channel and makes the changes
it reads has the channel as it is** (`FtIrc.Server.Reachable.followed`).
-/

namespace FtIrc

open Abnf

variable [Libcpp]

/-! ### Reading by the advertised rule -/

/-- Whether a letter has a parameter: `PREFIX=(o)@` and `CHANMODES=,,kl,it`. -/
def takesParam (adding : Bool) (c : Octet) : Bool :=
  decide (c ∈ str "o") || (adding && decide (c ∈ str "kl"))

/-- **The changes a client reads** in letters and parameters. -/
def decodeModes : Bool → Str → List Str → List ModeChange
  | _, [], _ => []
  | adding, c :: rest, params =>
    if c = 43 then decodeModes true rest params
    else if c = 45 then decodeModes false rest params
    else if takesParam adding c then
      { adding := adding, letter := c, param := params.headD [] } :: decodeModes adding rest params.tail
    else { adding := adding, letter := c } :: decodeModes adding rest params

/-- The changes a client reads in a line, whose words are who speaks, the verb, the channel,
the letters and the parameters. -/
def decodeLine (w : Str) : List ModeChange :=
  decodeModes true (((words w)[3]?).getD []) ((words w).drop 4)

/-- **A group of changes that is not mistaken**: behind a `-k` with a parameter nothing needs
one. -/
def Unmistakable (g : List ModeChange) : Prop :=
  g.Pairwise fun mc mc' => mc.IsNoKey → mc.param ≠ [] → ¬mc'.Needs

instance : DecidablePred Unmistakable := fun g =>
  inferInstanceAs (Decidable (g.Pairwise fun mc mc' => mc.IsNoKey → mc.param ≠ [] → ¬mc'.Needs))

variable {find : Str → Option Str} {adding : Bool} {mc : ModeChange} {cs g g₁ g₂ : List ModeChange}
  {sign : Option Bool} {params ws : List Str} {w text : Str}

omit [Libcpp] in
/-- A letter has a parameter, by the rule, if it must have one. -/
theorem takesParam_iff : takesParam mc.adding mc.letter = true ↔ mc.Needs := by
  have ho : ∀ c : Octet, c ∈ str "o" ↔ c = 111 := by
    intro c
    exact List.mem_singleton
  have hkl : ∀ c : Octet, c ∈ str "kl" ↔ c = 107 ∨ c = 108 := by
    intro c
    exact List.mem_pair
  rw [takesParam, Bool.or_eq_true, Bool.and_eq_true, decide_eq_true_iff, decide_eq_true_iff, ho, hkl,
    ModeChange.Needs, letterNeed]
  split_ifs with h₁ h₂
  · simpa [and_comm] using h₁
  · simpa [and_comm] using h₁
  · simpa [and_comm] using h₁

omit [Libcpp] in
/-- The letters of some changes are read as what stands in `decodeModes`. -/
theorem decodeModes_cons (hletter : mc.letter ≠ 43 ∧ mc.letter ≠ 45)
    (hsign : sign = none ∨ sign = some adding) :
    decodeModes adding (modesOf sign (mc :: cs)) params =
      if mc.Needs then
        { mc with param := params.headD [] } :: decodeModes mc.adding (modesOf (some mc.adding) cs) params.tail
      else { mc with param := [] } :: decodeModes mc.adding (modesOf (some mc.adding) cs) params := by
  have hone : decodeModes mc.adding (mc.letter :: modesOf (some mc.adding) cs) params =
      if mc.Needs then
        { mc with param := params.headD [] } :: decodeModes mc.adding (modesOf (some mc.adding) cs) params.tail
      else { mc with param := [] } :: decodeModes mc.adding (modesOf (some mc.adding) cs) params := by
    rw [decodeModes, if_neg hletter.1, if_neg hletter.2]
    simp only [takesParam_iff]
  rw [← hone, modesOf]
  by_cases hsame : sign = some mc.adding
  · rw [if_neg (not_not.mpr hsame), List.nil_append]
    rcases hsign with rfl | rfl
    · exact absurd hsame (by simp)
    · rw [Option.some.inj hsame]
  · rw [if_pos hsame]
    rcases mc.adding <;> rfl

/-- A change that needs no parameter is read, whatever was written of it. -/
theorem ModeChange.Fair.like_bare (h : mc.Fair find) (hfree : ¬mc.Needs) :
    mc.Like { mc with param := [] } := by
  by_cases hparam : mc.param = []
  · left
    rw [← hparam]
  · have hno := (h.needs_or hparam).resolve_left hfree
    exact Or.inr ⟨hno, hno⟩

/-- Changes that need no parameter are read whatever parameters there are. -/
theorem decodeModes_free (hfair : ∀ mc ∈ cs, mc.Fair find) (hfree : ∀ mc ∈ cs, ¬mc.Needs)
    (hsign : sign = none ∨ sign = some adding) :
    List.Forall₂ ModeChange.Like cs (decodeModes adding (modesOf sign cs) params) := by
  induction cs generalizing sign adding with
  | nil => exact .nil
  | cons mc cs ih =>
    have hmc := hfair mc List.mem_cons_self
    rw [decodeModes_cons hmc.not_sign hsign, if_neg (hfree mc List.mem_cons_self)]
    exact .cons (hmc.like_bare (hfree mc List.mem_cons_self))
      (ih (fun mc' hmc' => hfair mc' (List.mem_cons_of_mem _ hmc'))
        (fun mc' hmc' => hfree mc' (List.mem_cons_of_mem _ hmc')) (Or.inr rfl))

/-- **What is written of a group is read**: the changes `g₁`, among them no `-k` with a
parameter, and behind them changes `g₂` that need none. -/
theorem decodeModes_written (hfind : FindsWords find) (hfair : ∀ mc ∈ g₁ ++ g₂, mc.Fair find)
    (hbare : ∀ mc ∈ g₁, mc.IsNoKey → mc.param = []) (hfree : ∀ mc ∈ g₂, ¬mc.Needs)
    (hsign : sign = none ∨ sign = some adding) (more : List Str) :
    List.Forall₂ ModeChange.Like (g₁ ++ g₂)
      (decodeModes adding (modesOf sign (g₁ ++ g₂)) (written g₁ ++ more)) := by
  induction g₁ generalizing sign adding with
  | nil => exact decodeModes_free hfair hfree hsign
  | cons mc g₁ ih =>
    have hmc := hfair mc List.mem_cons_self
    have hrest := ih (fun mc' hmc' => hfair mc' (List.mem_cons_of_mem _ hmc'))
      (fun mc' hmc' => hbare mc' (List.mem_cons_of_mem _ hmc')) (Or.inr (rfl : some mc.adding = _))
    rw [List.cons_append, decodeModes_cons hmc.not_sign hsign, written_cons]
    by_cases hneeds : mc.Needs
    · rw [if_pos hneeds, if_pos (hmc.ne_nil hfind hneeds)]
      exact .cons (Or.inl rfl) hrest
    · have hparam : mc.param = [] := by
        by_contra hne
        exact hne (hbare mc List.mem_cons_self ((hmc.needs_or hne).resolve_left hneeds))
      rw [if_neg hneeds, if_neg (not_not.mpr hparam)]
      exact .cons (hmc.like_bare hneeds) hrest

omit [Libcpp] in
/-- Words with a space before each are the words of a line, and more may follow. -/
theorem words_spaced_append (hw : IsWord w) (hws : ∀ v ∈ ws, IsWord v)
    (htext : text.head? ∈ [none, some SPACE]) :
    ∃ more, words (w ++ (spaced ws ++ text)) = w :: ws ++ more := by
  rcases text with _ | ⟨c, text⟩
  · exact ⟨[], by rw [List.append_nil, List.append_nil, words_spaced hw hws]⟩
  · obtain rfl : c = SPACE := by simpa using htext
    exact ⟨words text, words_spaced_space hw hws⟩

omit [Libcpp] in
/-- Where the changes are cut behind which nothing needs a parameter. -/
theorem Unmistakable.split (h : Unmistakable g) : ∃ g₁ g₂, g = g₁ ++ g₂ ∧
    (∀ mc ∈ g₁, mc.IsNoKey → mc.param = []) ∧ ∀ mc ∈ g₂, ¬mc.Needs := by
  rcases hodd : g.find? fun mc => decide (mc.IsNoKey ∧ mc.param ≠ []) with _ | odd
  · refine ⟨g, [], by simp, fun mc hmc hno => ?_, by simp⟩
    by_contra hne
    exact List.find?_eq_none.mp hodd mc hmc (decide_eq_true ⟨hno, hne⟩)
  · obtain ⟨hthis, g₁, g₂, rfl, hbefore⟩ := List.find?_eq_some_iff_append.mp hodd
    obtain ⟨hno, hne⟩ := of_decide_eq_true hthis
    refine ⟨g₁, odd :: g₂, rfl, fun mc hmc hno' => ?_, fun mc hmc => ?_⟩
    · by_contra hne'
      have hskip := hbefore mc hmc
      simp [hno', hne'] at hskip
    · rcases List.mem_cons.mp hmc with rfl | hmc
      · simp [ModeChange.Needs, letterNeed, hno.1, hno.2]
      · exact (List.pairwise_cons.mp (List.pairwise_append.mp h).2.1).1 mc hmc hno hne

namespace Server

variable {M : Matcher} {s t : Server} {p q : ClientId} {ch : ChannelRef} {msg : Message}

/-- The lines that announce mode changes begin shortly. -/
theorem Inv.length_modeHead (hi : s.Inv) (hop : s.isOperator ch p = true) :
    (s.modeHead p ch).length ≤ 94 := by
  have hname := hi.length_name (hi.isMember_of_isOperator hop)
  have hprefix := (hi.isWord_getPrefix p).2
  simp only [modeHead, List.length_append, MAX_CHANNELLEN, show (str ":").length = 1 from rfl,
    show (str " MODE ").length = 6 from rfl, show (str " ").length = 1 from rfl] at hname ⊢
  omega

/-- A parameter that is needed is short. -/
theorem Inv.length_param (hi : s.Inv) (h : mc.Fair (s.memberName ch)) (hneeds : mc.Needs) :
    mc.param.length ≤ 23 := by
  cases h with
  | flag | noLimit => exact Nat.zero_le _
  | noKey => exact absurd hneeds (by simp [ModeChange.Needs, letterNeed])
  | key key hvalid =>
    simp only [isValidChannelKey, Bool.and_eq_true, decide_eq_true_eq] at hvalid
    exact hvalid.1.2
  | operator adding nick hnick =>
    rw [memberName, Option.map_eq_some_iff] at hnick
    obtain ⟨q, -, rfl⟩ := hnick
    exact (hi.clientNames q).nickname.2.trans (by decide)
  | limit n hn =>
    obtain ⟨-, hpos, hle⟩ := (Libcpp.parseLong_iff _ _ _ _).mp hn
    have hshort : n.natAbs < 10 ^ (4 + 1) := by
      rw [MAX_USERLIMIT] at hle
      omega
    show (Libcpp.toDecimal n).length ≤ 23
    rw [Libcpp.toDecimal_eq, signedDecimal, if_neg (by omega)]
    exact (length_decimal_le_of_lt hshort).trans (by decide)

/-- **What a client reads in the line of a group** is the group, if it is not mistaken. -/
theorem Inv.like_decodeLine (hi : s.Inv) (hop : s.isOperator ch p = true) (hg : g ≠ [])
    (hfair : ∀ mc ∈ g, mc.Fair (s.memberName ch)) (hunm : Unmistakable g)
    (hfits : g.length = 1 ∨ (g ≠ [] ∧ (groupText (s.modeHead p ch) g).length ≤ MAX_MSGLEN - 2)) :
    List.Forall₂ ModeChange.Like g (decodeLine (wire (groupText (s.modeHead p ch) g))) := by
  obtain ⟨g₁, g₂, rfl, hbare, hfree⟩ := hunm.split
  have hwords := hi.findsWords_memberName ch
  have hthere := get?_ne_none_of_isOperator hop
  obtain ⟨text, hline, htext⟩ : ∃ text, wire (groupText (s.modeHead p ch) (g₁ ++ g₂)) =
      (s.modeHead p ch ++ modesOf none (g₁ ++ g₂)) ++ (spaced (written g₁) ++ text) ∧
        text.head? ∈ [none, some SPACE] := by
    by_cases hcut : (groupText (s.modeHead p ch) (g₁ ++ g₂)).length ≤ MAX_MSGLEN - 2
    · refine ⟨spaced (written g₂), ?_, ?_⟩
      · have happ : written (g₁ ++ g₂) = written g₁ ++ written g₂ := by simp [written]
        rw [wire, if_neg (Nat.not_lt.mpr hcut), groupText, paramsText_eq, happ]
        simp [spaced]
      · rcases written g₂ with _ | ⟨w, ws⟩ <;> simp
    · -- a line that was cut is that of a `-k` alone
      obtain ⟨mc, hone⟩ := List.length_eq_one_iff.mp (hfits.resolve_right fun h => hcut h.2)
      have hmc := hfair mc (by simp [hone])
      have hhead := hi.length_modeHead hop
      have hmodes : (modesOf none [mc]).length = 2 := by
        rw [modesOf, if_pos (by simp)]
        split_ifs <;> rfl
      have hparams : paramsText [mc] = if mc.param ≠ [] then SPACE :: mc.param else [] := List.append_nil _
      rw [hone] at hcut ⊢
      rw [groupText, List.length_append, List.length_append, hmodes, hparams] at hcut
      have hlong : 413 < (if mc.param ≠ [] then SPACE :: mc.param else []).length := by
        rw [MAX_MSGLEN] at hcut
        omega
      have hne : mc.param ≠ [] := by
        intro hnil
        rw [if_neg (not_not.mpr hnil)] at hlong
        exact absurd hlong (by simp)
      rw [if_pos hne, List.length_cons] at hlong
      have hno : mc.IsNoKey := (hmc.needs_or hne).resolve_left fun hneeds => by
        have := hi.length_param hmc hneeds
        omega
      have hnone : g₁ = [] := by
        rcases g₁ with _ | ⟨mc', g₁⟩
        · rfl
        · obtain rfl : mc' = mc := (List.cons.inj hone).1
          exact absurd (hbare mc' List.mem_cons_self hno) hne
      refine ⟨(paramsText [mc]).take (MAX_MSGLEN - 2 - (s.modeHead p ch ++ modesOf none [mc]).length), ?_, ?_⟩
      · rw [groupText, wire_append, hnone]
        · rfl
        · rw [List.length_append, hmodes, MAX_MSGLEN]
          omega
      · rw [hparams, if_pos hne]
        rcases MAX_MSGLEN - 2 - (s.modeHead p ch ++ modesOf none [mc]).length with _ | k <;> simp
  have hletters := isMiddle_modesOf hg hfair
  have hwritten : ∀ v ∈ written g₁, IsWord v := by
    intro v hv
    obtain ⟨hv, hne⟩ := List.mem_filter.mp hv
    obtain ⟨mc, hmc, rfl⟩ := List.mem_map.mp hv
    have hfirst := hfair mc (List.mem_append_left _ hmc)
    exact (hfirst.isWord hwords ((hfirst.needs_or (of_decide_eq_true hne)).resolve_right
      fun hno => of_decide_eq_true hne (hbare mc hmc hno)))
  obtain ⟨more, hmore⟩ := words_spaced_append hletters.word hwritten htext
  have hsplit : s.modeHead p ch ++ modesOf none (g₁ ++ g₂) ++ (spaced (written g₁) ++ text) =
      (COLON :: (s.deref p).getPrefix) ++ SPACE :: (str "MODE" ++ SPACE :: ((s.channel ch).name ++
        SPACE :: (modesOf none (g₁ ++ g₂) ++ (spaced (written g₁) ++ text)))) := by
    simp [modeHead, show str ":" = [COLON] from rfl, show str " " = [SPACE] from rfl,
      show str " MODE " = SPACE :: (str "MODE" ++ [SPACE]) from rfl]
  have hspeaker : IsWord (COLON :: (s.deref p).getPrefix) :=
    IsWord.cons_iff.mpr ⟨by decide, (hi.isWord_getPrefix p).1⟩
  rw [hline, hsplit, decodeLine, words_cons hspeaker, words_cons (by decide),
    words_cons (hi.name_channel hthere).1, hmore]
  exact decodeModes_written hwords hfair hbare hfree (Or.inl rfl) more

/-- **Clients can follow mode changes**, if none is mistaken. In every reachable state, if
an operator sends a `MODE` for a channel, and no line that announces the changes has a `-k`
with a parameter before a change that needs one: the changes a member reads in the lines it
hears, made to the channel as it was, make of it what it is. -/
theorem Reachable.followed (h : Reachable M s) (hline : LineStep M s t p msg)
    (hcmd : msg.command = str "MODE") (hchan : (msg.param 0).head? = some HASH)
    (hfind : s.findChannel (msg.param 0) = some ch) (hop : s.isOperator ch p = true)
    (hunm : ∀ g ∈ modeGroups (s.modeHead p ch) (s.modesMade ch (msg.params.drop 2) (msg.param 1)),
      Unmistakable g) :
    ∃ new, t.spoken = new ++ s.spoken ∧ ∀ q, s.IsOn ch q →
      ((modeHeard q new.reverse).flatMap decodeLine).foldl (Channel.change (s.memberFd ch))
        (s.channel ch) = t.channel ch := by
  have hi := h.inv
  have hthere := get?_ne_none_of_isOperator hop
  by_cases hsign : Signed (msg.param 1)
  swap
  · obtain ⟨hsame, new, hnew, hnone⟩ := hline.mode_idle hi hcmd hchan hfind hop hsign
    refine ⟨new, hnew, fun q _ => ?_⟩
    rw [hnone, hsame]
    rfl
  obtain ⟨raw, rfl⟩ := hline.mode_eq hi hcmd hchan hfind hop hsign
  refine ⟨_, spoken_queueMany _, fun q hon => ?_⟩
  rw [List.reverse_reverse, hi.modeHeard_modeTalk hon, modeLines, renderModeLines_eq]
  set cs := s.modesMade ch (msg.params.drop 2) (msg.param 1) with hcs
  have hfair : ∀ mc ∈ cs, mc.Fair (s.memberName ch) := fun mc hmc =>
    modeChanges_fair (fun nick n hn => (hi.findsWords_memberName ch nick n hn).1) hmc
  have hread : ∀ g ∈ modeGroups (s.modeHead p ch) cs,
      List.Forall₂ ModeChange.Like g (decodeLine (wire (groupText (s.modeHead p ch) g))) := by
    intro g hg
    have hsub : g.Sublist cs := sublist_of_mem_pack hg
    exact hi.like_decodeLine hop (ne_nil_of_mem_pack hg) (fun mc hmc => hfair mc (hsub.subset hmc))
      (hunm g hg) (fits_of_mem_pack hg)
  have hall : List.Forall₂ ModeChange.Like cs
      ((((modeGroups (s.modeHead p ch) cs).map (groupText (s.modeHead p ch))).map wire).flatMap decodeLine) := by
    have hgroups : ∀ gs : List (List ModeChange), (∀ g ∈ gs, List.Forall₂ ModeChange.Like g
        (decodeLine (wire (groupText (s.modeHead p ch) g)))) → List.Forall₂ ModeChange.Like gs.flatten
          (((gs.map (groupText (s.modeHead p ch))).map wire).flatMap decodeLine) := by
      intro gs
      induction gs with
      | nil => exact fun _ => .nil
      | cons g gs ih =>
        intro hgs
        exact List.rel_append (hgs g List.mem_cons_self) (ih fun g' hg' => hgs g' (List.mem_cons_of_mem _ hg'))
    have := hgroups _ hread
    rwa [modeGroups, flatten_pack] at this
  rw [← Channel.changes_like hall, channel_queueMany, channel_withModes (s := s.record _) hthere]
  rfl

set_option maxRecDepth 4000 in
omit [Libcpp] in
/-- Both clients of the rehearsal hear who is an operator. -/
theorem followed_rehearsed : letI := referenceLibcpp
    ∃ new, (rehearsal.handleMessage rehearsalMatcher 0 (str "MODE #a +o bob")).spoken =
      new ++ rehearsal.spoken ∧ ∀ q, rehearsal.IsOn (str "#a") q →
        ((modeHeard q new.reverse).flatMap decodeLine).foldl
          (Channel.change (rehearsal.memberFd (str "#a"))) (rehearsal.channel (str "#a")) =
            (rehearsal.handleMessage rehearsalMatcher 0 (str "MODE #a +o bob")).channel (str "#a") := by
  let _ := referenceLibcpp
  have hline : LineStep rehearsalMatcher rehearsal
      (rehearsal.handleMessage rehearsalMatcher 0 (str "MODE #a +o bob")) 0 promoting :=
    ⟨⟨by decide, by decide⟩, str "MODE #a +o bob", by decide, rfl, rfl⟩
  have hop : rehearsal.isOperator (str "#a") 0 = true := by decide
  exact Reachable.followed reachable_rehearsal hline rfl rfl rfl hop (by decide)

/-- The removal of a key, written with a parameter, before a second operator. -/
def mistakable : Message where
  command := str "MODE"
  params := [str "#a", str "-k+o", str "key", str "bob"]

set_option maxRecDepth 4000 in
omit [Libcpp] in
/-- **Read by the rule, it makes nobody an operator**, and bob is one. -/
theorem not_always_followed : letI := referenceLibcpp
    ¬∀ (M : Matcher) (s t : Server) (p : ClientId) (ch : ChannelRef) (msg : Message), Reachable M s →
      LineStep M s t p msg → msg.command = str "MODE" → (msg.param 0).head? = some HASH →
        s.findChannel (msg.param 0) = some ch → s.isOperator ch p = true →
          ∃ new, t.spoken = new ++ s.spoken ∧ ∀ q, s.IsOn ch q →
            ((modeHeard q new.reverse).flatMap decodeLine).foldl (Channel.change (s.memberFd ch))
              (s.channel ch) = t.channel ch := by
  let _ := referenceLibcpp
  intro h
  have hline : LineStep rehearsalMatcher rehearsal
      (rehearsal.handleMessage rehearsalMatcher 0 (str "MODE #a -k+o key bob")) 0 mistakable :=
    ⟨⟨by decide, by decide⟩, str "MODE #a -k+o key bob", by decide, rfl, rfl⟩
  have hon : rehearsal.IsOn (str "#a") 0 := mem_members.mp (by decide)
  obtain ⟨new, hnew, hall⟩ := h rehearsalMatcher rehearsal _ 0 (str "#a") mistakable reachable_rehearsal
    hline rfl rfl rfl (by decide)
  have hsaid : (rehearsal.handleMessage rehearsalMatcher 0 (str "MODE #a -k+o key bob")).spoken =
      [(1, str ":alice!u@127.0.0.1 MODE #a -k+o key bob"),
        (0, str ":alice!u@127.0.0.1 MODE #a -k+o key bob")] ++ rehearsal.spoken := by decide
  obtain rfl := List.append_cancel_right (hnew.symm.trans hsaid)
  have hops := congrArg Channel.operators (hall 0 hon)
  have hread : (((modeHeard 0 [(0, str ":alice!u@127.0.0.1 MODE #a -k+o key bob"),
      (1, str ":alice!u@127.0.0.1 MODE #a -k+o key bob")]).flatMap decodeLine).foldl
        (Channel.change (rehearsal.memberFd (str "#a"))) (rehearsal.channel (str "#a"))).operators =
          {4} := by decide
  have hthere : ((rehearsal.handleMessage rehearsalMatcher 0 (str "MODE #a -k+o key bob")).channel
      (str "#a")).operators = {4, 5} := by decide
  exact absurd (hread.symm.trans (hops.trans hthere)) (by decide)

end Server

end FtIrc
