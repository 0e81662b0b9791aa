import FtIrc.Library.Once
import FtIrc.Server.Talk

/-!
# What a mode string comes to

The loop of `Server::handleChannelMode` reads a mode string and its parameters, and
on the way it writes to the channel, sends error replies and collects what it changed.
All of this is a function of the mode string alone, once it is known who the members
are: `FtIrc.modeChanges` lists the changes, `FtIrc.Channel.change` makes one of them,
`FtIrc.complaints` lists the errors, and **the loop makes exactly these changes and
reports exactly these errors, each of them once** (`FtIrc.Server.channelModeLoop_spec`,
`FtIrc.Server.channelModeLoop_said`).

`FtIrc.Channel.change` knows no more of a change than what is sent of it, the sign, the
letter and the parameter: it is also how somebody who hears of the change makes it to
a copy of the channel.
-/

namespace FtIrc

variable [Libcpp]

/-- **A mode change made to a channel**, the operator being the member that goes by the
nickname in the parameter. -/
def Channel.change (find : Str → Option Fd) (c : Channel) (mc : ModeChange) : Channel :=
  if mc.letter = 105 then { c with inviteOnly := mc.adding }
  else if mc.letter = 116 then { c with topicRestricted := mc.adding }
  else if mc.letter = 107 then { c with key := if mc.adding then mc.param else [] }
  else if mc.letter = 108 then
    { c with userLimit := if mc.adding then (digitsValue mc.param).getD 0 else 0 }
  else if mc.letter = 111 then
    match find mc.param with
    | some fd => c.setOperator fd mc.adding
    | none => c
  else c

/-- Where a mode string is read: the sign, the parameters left, and the change that was
made by the last letter, if one was. -/
abbrev ModeReading := Bool × List Str × List ModeChange

/-- The letter `k`, read under a sign and with these parameters left. -/
def readKey (adding : Bool) (params : List Str) (rest : Str) : ModeReading :=
  match adding, params with
  | true, [] => (true, [], [])
  | true, key :: params =>
    (true, params,
      if isValidChannelKey key then [{ adding := true, letter := 107, param := key }] else [])
  | false, [] => (false, [], [{ adding := false, letter := 107 }])
  | false, oldKey :: params =>
    if params.length + 1 > paramsRequiredFrom rest false then
      (false, params, [{ adding := false, letter := 107, param := oldKey }])
    else (false, oldKey :: params, [{ adding := false, letter := 107 }])

/-- The letter `o`: the member is found by a nickname, and reported under its own. -/
def readOperator (find : Str → Option Str) (adding : Bool) (params : List Str) : ModeReading :=
  match params with
  | [] => (adding, [], [])
  | nick :: params =>
    match find nick with
    | none => (adding, params, [])
    | some n => (adding, params, [{ adding := adding, letter := 111, param := n }])

/-- The letter `l`. -/
def readLimit (adding : Bool) (params : List Str) : ModeReading :=
  match adding, params with
  | true, [] => (true, [], [])
  | true, limitStr :: params =>
    match Libcpp.parseLong limitStr 1 MAX_USERLIMIT with
    | none => (true, params, [])
    | some n => (true, params, [{ adding := true, letter := 108, param := Libcpp.toDecimal n }])
  | false, params => (false, params, [{ adding := false, letter := 108 }])

/-- **One letter of a mode string.** -/
def readLetter (find : Str → Option Str) (adding : Bool) (params : List Str) (c : Octet)
    (rest : Str) : ModeReading :=
  if c = 43 then (true, params, [])
  else if c = 45 then (false, params, [])
  else if c = 105 then (adding, params, [{ adding := adding, letter := 105 }])
  else if c = 116 then (adding, params, [{ adding := adding, letter := 116 }])
  else if c = 107 then readKey adding params rest
  else if c = 111 then readOperator find adding params
  else if c = 108 then readLimit adding params
  else (adding, params, [])

/-- **The changes a mode string makes.** -/
def modeChanges (find : Str → Option Str) : Bool → List Str → Str → List ModeChange
  | _, _, [] => []
  | adding, params, c :: rest =>
    let r := readLetter find adding params c rest
    r.2.2 ++ modeChanges find r.1 r.2.1 rest

/-- An error that is reported of a mode string: what is remembered of it, and the reply. -/
structure Complaint where
  what : Str
  numeric : String
  text : Str
  deriving DecidableEq

/-- There is no parameter left for a letter that needs one. -/
def tooFew : Complaint := ⟨str "461", "461", str "MODE :Not enough parameters"⟩

/-- The key that is asked for is none. -/
def badKey (name key : Str) : Complaint :=
  ⟨str "525:" ++ key, "525", name ++ str " :Key is not well-formed"⟩

/-- Nobody on the channel goes by the nickname. -/
def notThere (name nick : Str) : Complaint :=
  ⟨str "441:" ++ Libcpp.asciiToLower nick, "441",
    nick ++ str " " ++ name ++ str " :They aren't on that channel"⟩

/-- The limit that is asked for is none. -/
def badLimit (name limitStr : Str) : Complaint :=
  ⟨str "696:" ++ limitStr, "696", name ++ str " l " ++ limitStr ++ str " :Invalid channel limit"⟩

/-- The letter is none of a mode. -/
def unknownMode (c : Octet) : Complaint :=
  ⟨str "472:" ++ [c], "472", [c] ++ str " :is unknown mode char to me"⟩

/-- What is wrong with a letter `k`, on the channel of this name. -/
def complainKey (name : Str) (adding : Bool) (params : List Str) : List Complaint :=
  match adding, params with
  | true, [] => [tooFew]
  | true, key :: _ => if isValidChannelKey key then [] else [badKey name key]
  | false, _ => []

/-- What is wrong with a letter `o`. -/
def complainOperator (find : Str → Option Str) (name : Str) (params : List Str) : List Complaint :=
  match params with
  | [] => [tooFew]
  | nick :: _ =>
    match find nick with
    | none => [notThere name nick]
    | some _ => []

/-- What is wrong with a letter `l`. -/
def complainLimit (name : Str) (adding : Bool) (params : List Str) : List Complaint :=
  match adding, params with
  | true, [] => [tooFew]
  | true, limitStr :: _ =>
    match Libcpp.parseLong limitStr 1 MAX_USERLIMIT with
    | none => [badLimit name limitStr]
    | some _ => []
  | false, _ => []

/-- What is wrong with one letter. -/
def complainLetter (find : Str → Option Str) (name : Str) (adding : Bool) (params : List Str)
    (c : Octet) : List Complaint :=
  if c = 43 ∨ c = 45 ∨ c = 105 ∨ c = 116 then []
  else if c = 107 then complainKey name adding params
  else if c = 111 then complainOperator find name params
  else if c = 108 then complainLimit name adding params
  else [unknownMode c]

/-- **What is wrong with a mode string**, letter by letter. -/
def complaints (find : Str → Option Str) (name : Str) : Bool → List Str → Str → List Complaint
  | _, _, [] => []
  | adding, params, c :: rest =>
    let r := readLetter find adding params c rest
    complainLetter find name adding params c ++ complaints find name r.1 r.2.1 rest

/-- The sign that is in force behind a piece of a mode string. -/
def signAfter (adding : Bool) (modes : Str) : Bool :=
  modes.foldl (fun adding c => if c = 43 then true else if c = 45 then false else adding) adding

section Readings

variable {find : Str → Option Str} {adding : Bool} {params : List Str} {c : Octet} {rest : Str}
  {mc : ModeChange}

omit [Libcpp] in
/-- The letter `k` leaves the sign, and changes the key under it. -/
theorem readKey_sign : (readKey adding params rest).1 = adding ∧
    ∀ mc ∈ (readKey adding params rest).2.2, mc.letter = 107 ∧ mc.adding = adding := by
  rcases adding with _ | _ <;> rcases params with _ | ⟨param, params⟩ <;> simp only [readKey]
  · simp
  · split_ifs <;> simp
  · simp
  · split_ifs <;> simp

omit [Libcpp] in
/-- The letter `o` leaves the sign, and changes the operators under it. -/
theorem readOperator_sign : (readOperator find adding params).1 = adding ∧
    ∀ mc ∈ (readOperator find adding params).2.2, mc.letter = 111 ∧ mc.adding = adding := by
  rcases params with _ | ⟨nick, params⟩ <;> simp only [readOperator]
  · simp
  · rcases find nick <;> simp

/-- The letter `l` leaves the sign, and changes the limit under it. -/
theorem readLimit_sign : (readLimit adding params).1 = adding ∧
    ∀ mc ∈ (readLimit adding params).2.2, mc.letter = 108 ∧ mc.adding = adding := by
  rcases adding with _ | _
  · simp [readLimit]
  · rcases params with _ | ⟨limitStr, params⟩ <;> simp only [readLimit]
    · simp
    · rcases Libcpp.parseLong limitStr 1 MAX_USERLIMIT <;> simp

/-- **A letter makes a change of its own**, under the sign in force, and only a sign
changes the sign. -/
theorem readLetter_sign : (readLetter find adding params c rest).1 = signAfter adding [c] ∧
    ∀ mc ∈ (readLetter find adding params c rest).2.2, mc.letter = c ∧ mc.adding = adding := by
  rw [readLetter, signAfter, List.foldl_cons, List.foldl_nil]
  split_ifs with h₁ h₂ h₃ h₄ h₅ h₆ h₇
  · simp
  · simp
  · simp [h₃]
  · simp [h₄]
  · exact h₅ ▸ readKey_sign
  · exact h₆ ▸ readOperator_sign
  · exact h₇ ▸ readLimit_sign
  · simp

/-- The parameters are used up from the front, and an `o` takes a nickname out of them. -/
theorem readLetter_params : (readLetter find adding params c rest).2.1 <:+ params ∧
    ∀ mc ∈ (readLetter find adding params c rest).2.2, mc.letter = 111 →
      ∃ nick ∈ params, find nick = some mc.param := by
  rw [readLetter]
  split_ifs with h₁ h₂ h₃ h₄ h₅ h₆ h₇
  · simp
  · simp
  · simp
  · simp
  · refine ⟨?_, fun mc hmc hletter => ?_⟩
    · rcases adding with _ | _ <;> rcases params with _ | ⟨param, params⟩ <;> simp only [readKey]
      · exact List.suffix_rfl
      · split_ifs
        · exact List.suffix_cons _ _
        · exact List.suffix_rfl
      · exact List.suffix_rfl
      · exact List.suffix_cons _ _
    · rw [(readKey_sign.2 mc hmc).1] at hletter
      exact absurd hletter (by decide)
  · rcases params with _ | ⟨nick, params⟩ <;> simp only [readOperator]
    · simp
    · rcases hfind : find nick with _ | n
      · simp
      · refine ⟨List.suffix_cons _ _, fun mc hmc _ => ⟨nick, List.mem_cons_self, ?_⟩⟩
        rw [hfind, List.mem_singleton.mp hmc]
  · refine ⟨?_, fun mc hmc hletter => ?_⟩
    · rcases adding with _ | _
      · exact List.suffix_rfl
      · rcases params with _ | ⟨limitStr, params⟩ <;> simp only [readLimit]
        · exact List.suffix_rfl
        · rcases Libcpp.parseLong limitStr 1 MAX_USERLIMIT <;> exact List.suffix_cons _ _
    · rw [(readLimit_sign.2 mc hmc).1] at hletter
      exact absurd hletter (by decide)
  · simp

/-- **A change to the operators** stands in the mode string as an `o` under its sign, and
among the parameters as a nickname. -/
theorem modeChanges_operator {modes : Str} (h : mc ∈ modeChanges find adding params modes)
    (hop : mc.letter = 111) :
    ∃ before after nick, modes = before ++ 111 :: after ∧ signAfter adding before = mc.adding ∧
      nick ∈ params ∧ find nick = some mc.param := by
  induction modes generalizing adding params with
  | nil => exact absurd h List.not_mem_nil
  | cons c rest ih =>
    rw [modeChanges] at h
    rcases List.mem_append.mp h with hone | hrest
    · obtain ⟨hletter, hsign⟩ := readLetter_sign.2 mc hone
      obtain ⟨nick, hmem, hfind⟩ := readLetter_params.2 mc hone hop
      exact ⟨[], rest, nick, by rw [← hletter, hop]; rfl, hsign.symm, hmem, hfind⟩
    · obtain ⟨before, after, nick, rfl, hsign, hmem, hfind⟩ := ih hrest
      refine ⟨c :: before, after, nick, rfl, ?_, readLetter_params.1.subset hmem, hfind⟩
      rw [← hsign, readLetter_sign.1]
      rfl

end Readings

namespace Channel

variable {find : Str → Option Fd} {c : Channel} {mc : ModeChange} {cs : List ModeChange}

omit [Libcpp] in
/-- Every mode change is to one of the settings or to the operators. -/
theorem change_cases (find : Str → Option Fd) (c : Channel) (mc : ModeChange) :
    c.change find mc = c ∨
    (∃ set : Setting, c.change find mc = set.apply c) ∨
      ∃ fd b, find mc.param = some fd ∧ c.change find mc = c.setOperator fd b := by
  rw [change]
  split
  · exact Or.inr (Or.inl ⟨.inviteOnly mc.adding, rfl⟩)
  split
  · exact Or.inr (Or.inl ⟨.topicRestricted mc.adding, rfl⟩)
  split
  · exact Or.inr (Or.inl ⟨.key _, rfl⟩)
  split
  · exact Or.inr (Or.inl ⟨.userLimit _, rfl⟩)
  split
  · rcases hfind : find mc.param with _ | fd
    · exact Or.inl rfl
    · exact Or.inr (Or.inr ⟨fd, mc.adding, rfl, rfl⟩)
  · exact Or.inl rfl

omit [Libcpp] in
/-- **What no mode change touches**, a whole list of them does not touch. -/
theorem read_changes {β : Type} (g : Channel → β) (hset : ∀ (set : Setting) c, g (set.apply c) = g c)
    (hop : ∀ c fd b, g (Channel.setOperator c fd b) = g c) :
    g (cs.foldl (change find) c) = g c := by
  induction cs generalizing c with
  | nil => rfl
  | cons mc cs ih =>
    refine ih.trans ?_
    rcases change_cases find c mc with h | ⟨set, h⟩ | ⟨fd, b, -, h⟩
    · rw [h]
    · rw [h, hset]
    · rw [h, hop]

omit [Libcpp] in
@[simp] theorem members_changes : (cs.foldl (change find) c).members = c.members :=
  read_changes Channel.members (fun set _ => by cases set <;> rfl) fun _ _ _ => rfl

omit [Libcpp] in
@[simp] theorem name_changes : (cs.foldl (change find) c).name = c.name :=
  read_changes Channel.name (fun set _ => by cases set <;> rfl) fun _ _ _ => rfl

omit [Libcpp] in
@[simp] theorem inviteList_changes : (cs.foldl (change find) c).inviteList = c.inviteList :=
  read_changes Channel.inviteList (fun set _ => by cases set <;> rfl) fun _ _ _ => rfl

omit [Libcpp] in
/-- A new operator was made one by one of the changes. -/
theorem operators_changes {fd : Fd} (h : fd ∈ (cs.foldl (change find) c).operators) :
    fd ∈ c.operators ∨
      ∃ mc ∈ cs, mc.letter = 111 ∧ mc.adding = true ∧ find mc.param = some fd := by
  induction cs generalizing c with
  | nil => exact Or.inl h
  | cons mc cs ih =>
    rcases ih h with hmid | ⟨mc', hmem, hmade⟩
    · rw [change] at hmid
      split at hmid
      · exact Or.inl hmid
      split at hmid
      · exact Or.inl hmid
      split at hmid
      · exact Or.inl hmid
      split at hmid
      · exact Or.inl hmid
      split at hmid
      · rename_i hletter
        split at hmid
        · rename_i fd' hfind
          rcases hsign : mc.adding
          · rw [hsign] at hmid
            exact Or.inl (Finset.mem_of_mem_erase hmid)
          · rw [hsign] at hmid
            rcases Finset.mem_insert.mp hmid with rfl | hold
            · exact Or.inr ⟨mc, List.mem_cons_self, hletter, hsign, hfind⟩
            · exact Or.inl hold
        · exact Or.inl hmid
      · exact Or.inl hmid
    · exact Or.inr ⟨mc', List.mem_cons_of_mem _ hmem, hmade⟩

end Channel

namespace Server

variable {s t : Server} {p q : ClientId} {ch : ChannelRef} {nick : Str}

/-- Under which nickname the member of a channel is reported that is found by
another spelling of it. -/
def memberName (s : Server) (ch : ChannelRef) (nick : Str) : Option Str :=
  (s.findMember ch nick).map fun q => (s.deref q).nickname

/-- The descriptor of the member of a channel that goes by a nickname. -/
def memberFd (s : Server) (ch : ChannelRef) (nick : Str) : Option Fd :=
  (s.findMember ch nick).map fun q => (s.deref q).fd

/-- The server after mode changes to a channel. -/
def withModes (s : Server) (ch : ChannelRef) (cs : List ModeChange) : Server :=
  s.updateChannel ch fun c => cs.foldl (Channel.change (s.memberFd ch)) c

/-- Changes are made silently. -/
theorem trace_withModes (cs : List ModeChange) : (s.withModes ch cs).trace = s.trace := rfl

theorem withModes_nil : s.withModes ch [] = s := updateChannel_eq_self fun _ _ => rfl

/-- One more change. -/
theorem withModes_concat (cs : List ModeChange) (mc : ModeChange) :
    s.withModes ch (cs ++ [mc]) =
      (s.withModes ch cs).updateChannel ch fun c => c.change (s.memberFd ch) mc := by
  rw [withModes, withModes, updateChannel_updateChannel]
  simp only [List.foldl_append, List.foldl_cons, List.foldl_nil]

/-- What no mode change touches is as it was. -/
theorem read_withModes {β : Type} (g : Channel → β) (cs : List ModeChange) (ch' : ChannelRef)
    (hg : ∀ c, g (cs.foldl (Channel.change (s.memberFd ch)) c) = g c) :
    g ((s.withModes ch cs).channel ch') = g (s.channel ch') := by
  rw [withModes, channel, updateChannel, OrdMap.get?_modify, channel]
  rcases s.channels.get? ch' with _ | c
  · rfl
  · dsimp only [Option.map_some, Option.getD_some]
    split_ifs
    · exact hg c
    · rfl

/-- The members stay who they are. -/
theorem members_withModes (cs : List ModeChange) (ch' : ChannelRef) :
    ((s.withModes ch cs).channel ch').members = (s.channel ch').members :=
  read_withModes Channel.members cs ch' fun _ => Channel.members_changes

/-- The channels keep their names. -/
theorem name_withModes (cs : List ModeChange) (ch' : ChannelRef) :
    ((s.withModes ch cs).channel ch').name = (s.channel ch').name :=
  read_withModes Channel.name cs ch' fun _ => Channel.name_changes

/-- **A member found by some spelling of its nickname** is found by the nickname. -/
theorem findMember_nickname (h : s.findMember ch nick = some q) :
    s.findMember ch (s.deref q).nickname = some q := by
  have hfold : asciiFold (s.deref q).nickname = asciiFold nick :=
    (Libcpp.eqAsciiNocase_iff _ _).mp
      (List.find?_some (p := fun r => Libcpp.eqAsciiNocase (s.deref r).nickname nick) h)
  have hsame : (fun r => Libcpp.eqAsciiNocase (s.deref r).nickname (s.deref q).nickname) =
      fun r => Libcpp.eqAsciiNocase (s.deref r).nickname nick := by
    funext r
    rw [Bool.eq_iff_iff, Libcpp.eqAsciiNocase_iff, Libcpp.eqAsciiNocase_iff, hfold]
  rw [findMember, hsame]
  exact h

/-- Who is found depends on the members and their nicknames only. -/
theorem findMember_congr (hmem : (t.channel ch).members = (s.channel ch).members)
    (hnick : ∀ q, (t.deref q).nickname = (s.deref q).nickname) :
    t.findMember ch nick = s.findMember ch nick := by
  rw [findMember, findMember, hmem]
  simp only [hnick]

/-! ### The loop -/

/-- **What the loop over a mode string has come to**: the changes it collected were
made, and besides nobody but the client was talked to. -/
def LoopMade (s : Server) (p : ClientId) (ch : ChannelRef) (m : ModeLoop) : Prop :=
  Tells (fun q _ => q = p) (s.withModes ch m.applied) m.server

namespace LoopMade

variable {m : ModeLoop} (h : LoopMade s p ch m)

include h

/-- An error is reported, or was before. -/
theorem reportOnce (what : Str) (n : String) (a : Str) :
    LoopMade s p ch (m.reportOnce what p n a) := by
  rw [ModeLoop.reportOnce]
  split_ifs
  · exact h
  · exact Tells.trans h (.reply rfl)

/-- The members are found as before. -/
theorem findMember (nick : Str) : m.server.findMember ch nick = s.findMember ch nick ∧
    ∀ q, (m.server.deref q).nickname = (s.deref q).nickname ∧
      (m.server.deref q).fd = (s.deref q).fd := by
  obtain ⟨msgs, -, hserver⟩ := h
  have hdata : ∀ q, (m.server.deref q).nickname = (s.deref q).nickname ∧
      (m.server.deref q).fd = (s.deref q).fd := by
    intro q
    rw [hserver, nickname_queueMany, fd_queueMany]
    exact ⟨rfl, rfl⟩
  refine ⟨findMember_congr ?_ fun q => (hdata q).1, hdata⟩
  rw [hserver, channel_queueMany, members_withModes]

/-- A change is made, and collected. -/
theorem apply {f : Channel → Channel} {mc : ModeChange}
    (hf : ∀ c, f c = c.change (s.memberFd ch) mc) :
    LoopMade s p ch (m.apply (m.server.updateChannel ch f) mc) := by
  rw [funext hf]
  refine Eq.mpr ?_ (Tells.updateChannel h ch fun c => c.change (s.memberFd ch) mc)
  rw [← withModes_concat]
  rfl

/-- The channel is called what it was. -/
theorem name : (m.server.channel ch).name = (s.channel ch).name := by
  obtain ⟨msgs, -, hserver⟩ := h
  rw [hserver, channel_queueMany, name_withModes]

end LoopMade

/-- **What the loop does at a letter**: it goes on in the string, with other parameters
left; or it makes a change, and collects it; or it reports an error. -/
inductive LetterMove (s : Server) (p : ClientId) (ch : ChannelRef) (m : ModeLoop) :
    ModeReading → List Complaint → ModeLoop → Prop
  | read (adding : Bool) (params : List Str) :
    LetterMove s p ch m (adding, params, []) [] { m with adding := adding, params := params }
  | made (params : List Str) (f : Channel → Channel) (mc : ModeChange)
    (hf : ∀ c, f c = c.change (s.memberFd ch) mc) :
    LetterMove s p ch m (m.adding, params, [mc]) []
      (({ m with params := params } : ModeLoop).apply (m.server.updateChannel ch f) mc)
  | report (params : List Str) (x : Complaint) :
    LetterMove s p ch m (m.adding, params, []) [x]
      (({ m with params := params } : ModeLoop).reportOnce x.what p x.numeric x.text)

variable {m : ModeLoop}

section Letters

variable (h : LoopMade s p ch m) (rest : Str)

omit h in
theorem modeKey_move (hname : (m.server.channel ch).name = (s.channel ch).name) :
    LetterMove s p ch m (readKey m.adding m.params rest)
      (complainKey (s.channel ch).name m.adding m.params) (modeKey p ch m rest) := by
  obtain ⟨server, adding, params, applied, reported⟩ := m
  rcases adding with _ | _ <;> rcases params with _ | ⟨param, params⟩ <;>
    simp only [modeKey, readKey, complainKey, if_true, if_false, Bool.false_eq_true,
      List.length_cons]
  · exact .made [] _ _ fun c => by simp [Channel.change]
  · split_ifs
    · exact .made params _ _ fun c => by simp [Channel.change]
    · exact .made (param :: params) _ _ fun c => by simp [Channel.change]
  · exact .report [] tooFew
  · rcases hkey : isValidChannelKey param
    · simp only [Bool.not_false, if_true, Bool.false_eq_true, if_false, hname]
      exact .report params (badKey _ param)
    · exact .made params _ _ fun c => by simp [Channel.change]

include h

theorem modeOperator_move :
    LetterMove s p ch m (readOperator (s.memberName ch) m.adding m.params)
      (complainOperator (s.memberName ch) (s.channel ch).name m.params) (modeOperator p ch m) := by
  have hname := h.name
  obtain ⟨server, adding, params, applied, reported⟩ := m
  rcases params with _ | ⟨nick, params⟩
  · exact .report [] tooFew
  obtain ⟨hfound, hdata⟩ := h.findMember nick
  simp only [modeOperator, readOperator, complainOperator, memberName, hfound]
  rcases hq : s.findMember ch nick with _ | q
  · simp only [Option.map_none, hname]
    exact .report params (notThere _ nick)
  · simp only [Option.map_some, (hdata q).1, (hdata q).2]
    refine .made params _ _ fun c => ?_
    have hfd : s.memberFd ch (s.deref q).nickname = some (s.deref q).fd := by
      rw [memberFd, findMember_nickname hq, Option.map_some]
    simp [Channel.change, hfd]

omit h in
theorem modeLimit_move (hname : (m.server.channel ch).name = (s.channel ch).name) :
    LetterMove s p ch m (readLimit m.adding m.params)
      (complainLimit (s.channel ch).name m.adding m.params) (modeLimit p ch m) := by
  obtain ⟨server, adding, params, applied, reported⟩ := m
  rcases adding with _ | _
  · exact .made params _ _ fun c => by simp [Channel.change]
  rcases params with _ | ⟨limitStr, params⟩
  · exact .report [] tooFew
  simp only [modeLimit, readLimit, complainLimit, if_true, hname]
  rcases hn : Libcpp.parseLong limitStr 1 MAX_USERLIMIT with _ | n
  · exact .report params (badLimit _ limitStr)
  · obtain ⟨-, hpos, -⟩ := (Libcpp.parseLong_iff _ _ _ _).mp hn
    have hvalue : digitsValue (Libcpp.toDecimal n) = some n.toNat := by
      rw [Libcpp.toDecimal_eq, signedDecimal, if_neg (by omega), digitsValue_decimal,
        Option.some.injEq]
      omega
    exact .made params _ _ fun c => by simp [Channel.change, hvalue]

/-- **One letter is read** the way `FtIrc.readLetter` says, and what is wrong with it is
what `FtIrc.complainLetter` says. -/
theorem channelModeLetter_move (c : Octet) :
    LetterMove s p ch m (readLetter (s.memberName ch) m.adding m.params c rest)
      (complainLetter (s.memberName ch) (s.channel ch).name m.adding m.params c)
      (channelModeLetter p ch m c rest) := by
  rw [channelModeLetter, readLetter, complainLetter]
  by_cases h₁ : c = 43
  · subst h₁
    exact .read true m.params
  by_cases h₂ : c = 45
  · subst h₂
    exact .read false m.params
  by_cases h₃ : c = 105
  · subst h₃
    exact .made m.params _ _ fun c => by simp [Channel.change]
  by_cases h₄ : c = 116
  · subst h₄
    exact .made m.params _ _ fun c => by simp [Channel.change]
  simp only [h₁, h₂, h₃, h₄, if_false, or_false]
  split_ifs
  · exact modeKey_move rest h.name
  · exact modeOperator_move h
  · exact modeLimit_move h.name
  · exact .report m.params (unknownMode c)

end Letters

/-- **What was read of a mode string**, by a loop that had collected the changes `cs`
before. -/
structure HasRead (s : Server) (p : ClientId) (ch : ChannelRef) (cs : List ModeChange)
    (r : ModeReading) (m : ModeLoop) : Prop where
  made : LoopMade s p ch m
  adding : m.adding = r.1
  params : m.params = r.2.1
  applied : m.applied = cs ++ r.2.2

/-- An error leaves the place in the string and what was collected. -/
theorem read_reportOnce (p : ClientId) (what : Str) (n : String) (a : Str) (m : ModeLoop) :
    (m.reportOnce what p n a).adding = m.adding ∧ (m.reportOnce what p n a).params = m.params ∧
      (m.reportOnce what p n a).applied = m.applied := by
  rw [ModeLoop.reportOnce]
  split_ifs <;> exact ⟨rfl, rfl, rfl⟩

/-- Where the loop is after a letter. -/
theorem LetterMove.hasRead {r : ModeReading} {xs : List Complaint} {m' : ModeLoop}
    (hmove : LetterMove s p ch m r xs m') (h : LoopMade s p ch m) :
    HasRead s p ch m.applied r m' := by
  cases hmove with
  | read adding params => exact ⟨h, rfl, rfl, (List.append_nil _).symm⟩
  | made params f mc hf =>
    exact ⟨LoopMade.apply (m := { m with params := params }) h hf, rfl, rfl, rfl⟩
  | report params x =>
    obtain ⟨hadding, hparams, happlied⟩ := read_reportOnce p x.what x.numeric x.text
      { m with params := params }
    exact ⟨LoopMade.reportOnce (m := { m with params := params }) h _ _ _, hadding, hparams,
      happlied.trans (List.append_nil _).symm⟩

/-- **One letter is read** the way `FtIrc.readLetter` says. -/
theorem channelModeLetter_spec (h : LoopMade s p ch m) (rest : Str) (c : Octet) :
    HasRead s p ch m.applied (readLetter (s.memberName ch) m.adding m.params c rest)
      (channelModeLetter p ch m c rest) :=
  (channelModeLetter_move h rest c).hasRead h

/-- **The loop over a mode string** makes the changes of the string, and besides talks
to nobody but the client. -/
theorem channelModeLoop_spec (h : LoopMade s p ch m) (modes : Str) :
    LoopMade s p ch (channelModeLoop p ch m modes) ∧
      (channelModeLoop p ch m modes).applied =
        m.applied ++ modeChanges (s.memberName ch) m.adding m.params modes := by
  induction modes generalizing m with
  | nil => exact ⟨h, (List.append_nil _).symm⟩
  | cons c rest ih =>
    have hletter := channelModeLetter_spec h rest c
    obtain ⟨hmade, happlied⟩ := ih hletter.made
    rw [channelModeLoop, modeChanges]
    refine ⟨hmade, ?_⟩
    rw [happlied, hletter.applied, hletter.adding, hletter.params, List.append_assoc]

/-! ### What the client is told -/

/-- The reply to a client of this name. -/
def complain (p : ClientId) (nick : Str) (x : Complaint) : ClientId × Str :=
  (p, replyText nick x.numeric x.text)

/-- **What the loop has said**: of the errors met so far, each was reported once. -/
structure LoopSaid (s : Server) (p : ClientId) (ch : ChannelRef) (xs : List Complaint)
    (m : ModeLoop) : Prop where
  server : m.server = (s.withModes ch m.applied).queueMany
    ((once Complaint.what ∅ xs).map (complain p (s.deref p).nickname))
  reported : m.reported.toFinset = met Complaint.what ∅ xs

namespace LoopSaid

variable {xs ys : List Complaint} (h : LoopSaid s p ch xs m)

include h

/-- Nobody else is talked to. -/
theorem made : LoopMade s p ch m := by
  refine ⟨_, fun e he => ?_, h.server⟩
  obtain ⟨x, -, rfl⟩ := List.mem_map.mp he
  rfl

/-- One more letter. -/
theorem letter {r : ModeReading} {m' : ModeLoop} (hmove : LetterMove s p ch m r ys m') :
    LoopSaid s p ch (xs ++ ys) m' := by
  cases hmove with
  | read adding params => exact ⟨by rw [List.append_nil]; exact h.server, by
      rw [List.append_nil]; exact h.reported⟩
  | made params f mc hf =>
    rw [List.append_nil]
    refine ⟨?_, h.reported⟩
    rw [funext hf, ModeLoop.apply, h.server, queueMany_updateChannel, withModes_concat]
  | report params x =>
    have hnick : (m.server.deref p).nickname = (s.deref p).nickname := by
      rw [h.server, nickname_queueMany]
      rfl
    rw [ModeLoop.reportOnce]
    split_ifs with hold
    · have hmet : x.what ∈ met Complaint.what ∅ xs := h.reported ▸ List.mem_toFinset.mpr hold
      refine ⟨?_, ?_⟩
      · rw [once_append, once_cons_of_mem hmet, once_nil, List.append_nil]
        exact h.server
      · rw [met_append, met_cons, met_nil, Finset.insert_eq_of_mem hmet]
        exact h.reported
    · have hmet : x.what ∉ met Complaint.what ∅ xs := by
        rw [← h.reported, List.mem_toFinset]
        exact hold
      refine ⟨?_, ?_⟩
      · rw [once_append, once_cons_of_notMem hmet, once_nil, List.map_append, queueMany_append,
          ← h.server]
        simp only [List.map_cons, List.map_nil, complain, ← hnick]
        exact sendReply_eq _ _
      · rw [met_append, met_cons, met_nil, ← h.reported]
        ext w
        simp [or_comm]

end LoopSaid

/-- **The loop over a mode string** reports what is wrong with the string, and nothing
twice. -/
theorem channelModeLoop_said {xs : List Complaint} (h : LoopSaid s p ch xs m) (modes : Str) :
    LoopSaid s p ch
      (xs ++ complaints (s.memberName ch) (s.channel ch).name m.adding m.params modes)
      (channelModeLoop p ch m modes) := by
  induction modes generalizing m xs with
  | nil => exact (List.append_nil xs).symm ▸ h
  | cons c rest ih =>
    have hmove := channelModeLetter_move h.made rest c
    have hread := hmove.hasRead h.made
    rw [channelModeLoop, complaints, ← List.append_assoc, ← hread.adding, ← hread.params]
    exact ih (h.letter hmove)

/-! ### The command -/

/-- How the lines begin that announce mode changes. -/
def modeHead (s : Server) (p : ClientId) (ch : ChannelRef) : Str :=
  str ":" ++ (s.deref p).getPrefix ++ str " MODE " ++ (s.channel ch).name ++ str " "

/-- The changes a mode string makes to a channel. -/
def modesMade (s : Server) (ch : ChannelRef) (params : List Str) (modes : Str) : List ModeChange :=
  modeChanges (s.memberName ch) true params modes

/-- The errors that are reported of it. -/
def modesWrong (s : Server) (ch : ChannelRef) (params : List Str) (modes : Str) : List Complaint :=
  once Complaint.what ∅ (complaints (s.memberName ch) (s.channel ch).name true params modes)

/-- The lines that announce the changes to the members. -/
def modeLines (s : Server) (p : ClientId) (ch : ChannelRef) (params : List Str) (modes : Str) :
    List Str :=
  renderModeLines (s.modeHead p ch) (s.modesMade ch params modes)

/-- Lines to the members of a channel, one after another. -/
def toMembers (s : Server) (ch : ChannelRef) (lines : List Str) : List (ClientId × Str) :=
  lines.flatMap fun w => (s.channel ch).members.values.map fun q => (q, w)

/-- **What is said in answer to a `MODE`** of an operator. -/
def modeTalk (s : Server) (p : ClientId) (ch : ChannelRef) (params : List Str) (modes : Str) :
    List (ClientId × Str) :=
  (s.modesWrong ch params modes).map (complain p (s.deref p).nickname) ++
    s.toMembers ch (s.modeLines p ch params modes)

/-- Messages to the members of a channel. -/
theorem foldl_broadcastMessage (lines : List Str) :
    lines.foldl (fun s line => s.broadcastMessage ch line none) s =
      s.queueMany (s.toMembers ch lines) := by
  induction lines generalizing s with
  | nil => rfl
  | cons w lines ih =>
    have hall : ((s.channel ch).members.values.filter fun q => decide ((none : Option ClientId) ≠ some q)) =
        (s.channel ch).members.values := List.filter_eq_self.mpr fun q _ => by simp
    rw [List.foldl_cons, ih, broadcastMessage_eq, hall, ← queueMany_append]
    simp only [toMembers, channel_queueMany, List.flatMap_cons]

/-- **A `MODE` of an operator** makes the changes of its mode string, and says what is wrong
with it and what was changed. -/
theorem handleChannelMode_eq {msg : Message} (hmem : s.isMember ch p = true)
    (hop : s.isOperator ch p = true)
    (hsign : (msg.param 1).head? = some 43 ∨ (msg.param 1).head? = some 45) :
    s.handleChannelMode p ch msg =
      (s.withModes ch (s.modesMade ch (msg.params.drop 2) (msg.param 1))).queueMany
        (s.modeTalk p ch (msg.params.drop 2) (msg.param 1)) := by
  have hstart : LoopSaid s p ch [] { server := s, params := msg.params.drop 2 } :=
    ⟨withModes_nil.symm, rfl⟩
  have hsaid := channelModeLoop_said hstart (msg.param 1)
  have happlied := (channelModeLoop_spec hstart.made (msg.param 1)).2
  have hsome : ¬(msg.param 1 = [] ∨ ((msg.param 1).head? ≠ some 43 ∧ (msg.param 1).head? ≠ some 45)) := by
    rintro (hnil | ⟨h₁, h₂⟩)
    · simp [hnil] at hsign
    · exact hsign.elim h₁ h₂
  rw [handleChannelMode, if_neg (by simp [hmem]), if_neg (by simp [hop])]
  dsimp only
  rw [if_neg hsome]
  generalize channelModeLoop p ch { server := s, params := msg.params.drop 2 } (msg.param 1) = m
    at hsaid happlied ⊢
  have hhead : str ":" ++ (m.server.deref p).getPrefix ++ str " MODE " ++
      (m.server.channel ch).name ++ str " " = s.modeHead p ch := by
    rw [hsaid.server, getPrefix_queueMany, channel_queueMany, name_withModes]
    rfl
  have hmembers : ∀ lines, m.server.toMembers ch lines = s.toMembers ch lines := fun lines => by
    simp only [toMembers, hsaid.server, channel_queueMany, members_withModes]
  rw [hhead, foldl_broadcastMessage, hmembers, hsaid.server, happlied, ← queueMany_append]
  rfl

end Server

end FtIrc
