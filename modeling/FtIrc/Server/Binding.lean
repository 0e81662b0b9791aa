import FtIrc.Library.Dealing
import FtIrc.Server.Refusals

/-!
# Which letter gets which parameter

The letters of a mode string take parameters from the front of a list: `o`, and `k` and
`l` under a plus, must have one, and `k` under a minus may have one
(`FtIrc.letterNeed`). The loop decides letter by letter, and a `-k` looks ahead; what
comes of it is a fair dealing in the sense of `FtIrc.Dealing`
(`FtIrc.Server.Reachable.binding`), whatever becomes of the parameters then.
-/

namespace FtIrc

open Abnf

variable [Libcpp]

/-- The letters of a mode string, each with the sign it stands under. -/
def modeLetters : Bool → Str → List (Bool × Octet)
  | _, [] => []
  | adding, c :: rest =>
    if c = 43 then modeLetters true rest
    else if c = 45 then modeLetters false rest
    else (adding, c) :: modeLetters adding rest

/-- Whether a letter under a sign wants a parameter. -/
def letterNeed (x : Bool × Octet) : Need :=
  if x.2 = 111 ∨ ((x.2 = 107 ∨ x.2 = 108) ∧ x.1 = true) then .must
  else if x.2 = 107 then .may
  else .none

/-- The mode string of a command starts with a sign. -/
def Signed (modes : Str) : Prop := modes.head? = some 43 ∨ modes.head? = some 45

instance : DecidablePred Signed := fun modes =>
  inferInstanceAs (Decidable (modes.head? = some 43 ∨ modes.head? = some 45))

/-- The parameter a letter took, the loop having been at `m` before it and at `m'` after
it. -/
def boundParam (m m' : ModeLoop) : Option Str :=
  if m'.params.length < m.params.length then m.params.head? else none

/-- **The parameters the letters of a mode string take**, in the loop of
`handleChannelMode`. -/
def bindings (client : ClientId) (chan : ChannelRef) : ModeLoop → Str → List (Option Str)
  | _, [] => []
  | m, c :: rest =>
    let m' := Server.channelModeLetter client chan m c rest
    if c = 43 ∨ c = 45 then bindings client chan m' rest
    else boundParam m m' :: bindings client chan m' rest

section Letters

variable {find : Str → Option Str} {name : Str} {adding : Bool} {params : List Str} {c : Octet}
  {modes rest : Str}

omit [Libcpp] in
/-- What the letters must have is what the code counts. -/
theorem owed_modeLetters : owed letterNeed (modeLetters adding modes) = paramsRequiredFrom modes adding := by
  induction modes generalizing adding with
  | nil => rfl
  | cons c rest ih =>
    rw [modeLetters, paramsRequiredFrom]
    split_ifs with h₁ h₂ h₃ h₄
    · exact ih
    · exact ih
    · rw [owed_cons, ih, if_pos (by simp [letterNeed, h₃])]
      omega
    · rw [owed_cons, ih, if_pos (by simp [letterNeed, h₄.1, h₄.2])]
      omega
    · rw [owed_cons, ih, if_neg (by simp only [letterNeed]; split_ifs <;> simp_all)]
      rfl

/-- **A letter takes the first parameter** by the rule of `FtIrc.takes`. -/
theorem readLetter_takes (hsign : ¬(c = 43 ∨ c = 45)) :
    (readLetter find adding params c rest).2.1 =
      if takes letterNeed (adding, c) (modeLetters adding rest) params.length then params.tail
      else params := by
  rw [not_or] at hsign
  have htakes : takes letterNeed (adding, c) (modeLetters adding rest) params.length ↔
      letterNeed (adding, c) = .must ∨
        (letterNeed (adding, c) = .may ∧ paramsRequiredFrom rest adding < params.length) := by
    rw [takes, owed_modeLetters]
  simp only [htakes]
  rw [readLetter, if_neg hsign.1, if_neg hsign.2]
  by_cases h₃ : c = 105
  · simp [h₃, letterNeed]
  by_cases h₄ : c = 116
  · simp [h₄, letterNeed]
  by_cases h₅ : c = 107
  · subst h₅
    rcases adding with _ | _
    · -- a `-k` looks ahead
      have hmay : letterNeed (false, 107) = .may := rfl
      rcases params with _ | ⟨oldKey, params⟩
      · simp [readKey]
      · simp only [readKey, hmay, reduceCtorEq, false_or, true_and, List.length_cons, List.tail_cons]
        split_ifs <;> rfl
    · have hmust : letterNeed (true, 107) = .must := rfl
      rcases params with _ | ⟨key, params⟩ <;> simp [readKey, hmust]
  by_cases h₆ : c = 111
  · have hmust : letterNeed (adding, 111) = .must := if_pos (Or.inl rfl)
    rcases params with _ | ⟨nick, params⟩
    · simp [h₆, readOperator]
    · simp only [h₆, readOperator, hmust]
      rcases find nick <;> simp
  by_cases h₇ : c = 108
  · subst h₇
    rcases adding with _ | _
    · simp [readLimit, letterNeed]
    · have hmust : letterNeed (true, 108) = .must := rfl
      rcases params with _ | ⟨limitStr, params⟩
      · simp [readLimit]
      · simp only [readLimit, hmust]
        rcases Libcpp.parseLong limitStr 1 MAX_USERLIMIT <;> simp
  · have hnone : letterNeed (adding, c) = .none := by simp [letterNeed, h₅, h₆, h₇]
    simp [h₃, h₄, h₅, h₆, h₇, hnone]

/-- A letter leaves the sign, unless it is one. -/
theorem readLetter_adding :
    (readLetter find adding params c rest).1 =
      if c = 43 then true else if c = 45 then false else adding :=
  readLetter_sign.1

/-- A letter complains of missing parameters if it must have one and there is none. -/
theorem tooFew_mem_letter (hsign : ¬(c = 43 ∨ c = 45)) :
    tooFew ∈ complainLetter find name adding params c ↔
      letterNeed (adding, c) = .must ∧ params = [] := by
  rw [not_or] at hsign
  rw [complainLetter]
  by_cases h₃ : c = 105 ∨ c = 116
  · rw [if_pos (by tauto)]
    rcases h₃ with rfl | rfl <;> simp [letterNeed]
  rw [if_neg (by tauto)]
  rw [not_or] at h₃
  split_ifs with h₅ h₆ h₇
  · subst h₅
    rcases adding with _ | _ <;> rcases params with _ | ⟨key, params⟩ <;>
      simp only [complainKey, letterNeed]
    · simp
    · simp
    · simp
    · split_ifs <;> simp [tooFew, badKey]
  · subst h₆
    rcases params with _ | ⟨nick, params⟩ <;> simp only [complainOperator, letterNeed]
    · simp
    · rcases find nick <;> simp [tooFew, notThere]
  · subst h₇
    rcases adding with _ | _ <;> rcases params with _ | ⟨limitStr, params⟩ <;>
      simp only [complainLimit, letterNeed]
    · simp
    · simp
    · simp
    · rcases Libcpp.parseLong limitStr 1 MAX_USERLIMIT <;> simp [tooFew, badLimit]
  · simp [tooFew, unknownMode, letterNeed, h₅, h₆, h₇]

/-- A sign is nothing to complain of. -/
theorem complainLetter_sign (hsign : c = 43 ∨ c = 45) :
    complainLetter find name adding params c = [] := if_pos (by tauto)

/-- A sign takes no parameter. -/
theorem readLetter_sign_params (hsign : c = 43 ∨ c = 45) :
    (readLetter find adding params c rest).2.1 = params := by
  rcases hsign with rfl | rfl <;> rfl

/-- **The letters run out of parameters** exactly where more must be had than there
are. -/
theorem tooFew_mem : tooFew ∈ complaints find name adding params modes ↔
    params.length < owed letterNeed (modeLetters adding modes) := by
  induction modes generalizing adding params with
  | nil => simp [complaints, modeLetters]
  | cons c rest ih =>
    rw [complaints, List.mem_append, ih]
    by_cases hsign : c = 43 ∨ c = 45
    · rw [complainLetter_sign hsign, readLetter_adding, readLetter_sign_params hsign, modeLetters]
      simp only [List.not_mem_nil, false_or]
      split_ifs with h₁ h₂
      · rfl
      · rfl
      · exact absurd hsign (by tauto)
    rw [tooFew_mem_letter hsign, readLetter_takes hsign, readLetter_adding, modeLetters]
    rw [not_or] at hsign
    rw [if_neg hsign.1, if_neg hsign.2, if_neg hsign.1, if_neg hsign.2, owed_cons]
    -- a letter that takes a parameter leaves those behind it what they must have
    have hlen : params ≠ [] → params.tail.length + 1 = params.length := by
      rcases params <;> simp
    split_ifs with htakes hmust hmust
    · rcases params with _ | ⟨x, params⟩ <;> simp [hmust]
    · have hleft := (htakes.resolve_left hmust).2
      rw [List.length_tail]
      simp only [hmust, false_and, false_or]
      omega
    · exact absurd (Or.inl hmust) htakes
    · simp [hmust]

/-- **What can be wrong with a letter**, the parameter it took being known. -/
theorem complainLetter_cases {x : Complaint} (hsign : ¬(c = 43 ∨ c = 45)) {bound : Option Str}
    (h : x ∈ complainLetter find name adding bound.toList c) :
    x = tooFew ∨ (∃ key, c = 107 ∧ bound = some key ∧ x = badKey name key) ∨
      (∃ nick, c = 111 ∧ bound = some nick ∧ x = notThere name nick) ∨
      (∃ limitStr, c = 108 ∧ bound = some limitStr ∧ x = badLimit name limitStr) ∨
      (c ∉ [105, 116, 107, 111, 108] ∧ x = unknownMode c) := by
  rw [not_or] at hsign
  rw [complainLetter] at h
  split_ifs at h with h₃ h₅ h₆ h₇
  · exact absurd h List.not_mem_nil
  · refine Or.imp_right Or.inl ?_
    rcases adding with _ | _ <;> rcases bound with _ | key <;>
      simp only [complainKey, Option.toList_none, Option.toList_some] at h
    · exact absurd h List.not_mem_nil
    · exact absurd h List.not_mem_nil
    · exact Or.inl (List.mem_singleton.mp h)
    · split_ifs at h
      · exact absurd h List.not_mem_nil
      · exact Or.inr ⟨key, h₅, rfl, List.mem_singleton.mp h⟩
  · refine Or.imp_right (fun hnick => Or.inr (Or.inl hnick)) ?_
    rcases bound with _ | nick <;>
      simp only [complainOperator, Option.toList_none, Option.toList_some] at h
    · exact Or.inl (List.mem_singleton.mp h)
    · rcases hfind : find nick with _ | n <;> rw [hfind] at h
      · exact Or.inr ⟨nick, h₆, rfl, List.mem_singleton.mp h⟩
      · exact absurd h List.not_mem_nil
  · refine Or.imp_right (fun hlimit => Or.inr (Or.inr (Or.inl hlimit))) ?_
    rcases adding with _ | _ <;> rcases bound with _ | limitStr <;>
      simp only [complainLimit, Option.toList_none, Option.toList_some] at h
    · exact absurd h List.not_mem_nil
    · exact absurd h List.not_mem_nil
    · exact Or.inl (List.mem_singleton.mp h)
    · rcases hlimit : Libcpp.parseLong limitStr 1 MAX_USERLIMIT with _ | n <;> rw [hlimit] at h
      · exact Or.inr ⟨limitStr, h₇, rfl, List.mem_singleton.mp h⟩
      · exact absurd h List.not_mem_nil
  · refine Or.inr (Or.inr (Or.inr (Or.inr ⟨?_, List.mem_singleton.mp h⟩)))
    simp only [List.mem_cons, List.not_mem_nil, or_false]
    tauto

/-- What is wrong with a letter depends on the next parameter, if the letter must have
one, and on none otherwise. -/
theorem complainLetter_bound (rest : Str) (left : ℕ) :
    complainLetter find name adding params c =
      complainLetter find name adding
        (if takes letterNeed (adding, c) (modeLetters adding rest) left then params.head?
          else none).toList c := by
  by_cases hmust : letterNeed (adding, c) = .must
  · have htakes : takes letterNeed (adding, c) (modeLetters adding rest) left := Or.inl hmust
    rw [if_pos htakes]
    rcases params with _ | ⟨x, params⟩
    · rfl
    · rcases adding with _ | _ <;> rfl
  · generalize (if takes letterNeed (adding, c) (modeLetters adding rest) left then params.head?
      else none).toList = params'
    rw [complainLetter, complainLetter]
    split_ifs with h₃ h₅ h₆ h₇
    · rfl
    · rcases adding with _ | _
      · rfl
      · exact absurd (by simp [letterNeed, h₅]) hmust
    · exact absurd (by simp [letterNeed, h₆]) hmust
    · rcases adding with _ | _
      · rfl
      · exact absurd (by simp [letterNeed, h₇]) hmust
    · rfl

/-- **What is wrong with a mode string** is wrong with one of its letters and the
parameter dealt to it. -/
theorem complaints_eq : complaints find name adding params modes =
    ((modeLetters adding modes).zip (dealt letterNeed (modeLetters adding modes) params)).flatMap
      fun x => complainLetter find name x.1.1 x.2.toList x.1.2 := by
  induction modes generalizing adding params with
  | nil => rfl
  | cons c rest ih =>
    rw [complaints, ih, readLetter_adding, modeLetters]
    by_cases hsign : c = 43 ∨ c = 45
    · rw [complainLetter_sign hsign, readLetter_sign_params hsign]
      rcases hsign with rfl | rfl <;> rfl
    rw [readLetter_takes hsign, complainLetter_bound rest params.length]
    rw [not_or] at hsign
    rw [if_neg hsign.1, if_neg hsign.2, if_neg hsign.1, if_neg hsign.2, dealt]
    split_ifs <;> rfl

omit [Libcpp] in
/-- A letter of a mode string is none of the signs. -/
theorem not_sign_of_mem {x : Bool × Octet} (h : x ∈ modeLetters adding modes) :
    ¬(x.2 = 43 ∨ x.2 = 45) := by
  induction modes generalizing adding with
  | nil => exact absurd h List.not_mem_nil
  | cons c rest ih =>
    rw [modeLetters] at h
    split_ifs at h with h₁ h₂
    · exact ih h
    · exact ih h
    · rcases List.mem_cons.mp h with rfl | h
      · exact not_or.mpr ⟨h₁, h₂⟩
      · exact ih h

omit [Libcpp] in
/-- A letter of a mode string stands in it. -/
theorem mem_of_mem_modeLetters {x : Bool × Octet} (h : x ∈ modeLetters adding modes) : x.2 ∈ modes := by
  induction modes generalizing adding with
  | nil => exact absurd h List.not_mem_nil
  | cons c rest ih =>
    rw [modeLetters] at h
    split_ifs at h
    · exact List.mem_cons_of_mem c (ih h)
    · exact List.mem_cons_of_mem c (ih h)
    · rcases List.mem_cons.mp h with rfl | h
      · exact List.mem_cons_self
      · exact List.mem_cons_of_mem c (ih h)

/-- **What can be wrong with a mode string.** -/
theorem complaints_cases {x : Complaint} (h : x ∈ complaints find name adding params modes) :
    x = tooFew ∨ ∃ y bound,
      (y, bound) ∈ (modeLetters adding modes).zip (dealt letterNeed (modeLetters adding modes) params) ∧
      ((∃ key, y.2 = 107 ∧ bound = some key ∧ x = badKey name key) ∨
        (∃ nick, y.2 = 111 ∧ bound = some nick ∧ x = notThere name nick) ∨
        (∃ limitStr, y.2 = 108 ∧ bound = some limitStr ∧ x = badLimit name limitStr) ∨
        (y.2 ∉ [105, 116, 107, 111, 108] ∧ x = unknownMode y.2)) := by
  rw [complaints_eq] at h
  obtain ⟨⟨y, bound⟩, hmem, hx⟩ := List.mem_flatMap.mp h
  exact (complainLetter_cases (not_sign_of_mem (List.of_mem_zip hmem).1) hx).imp_right
    fun hcase => ⟨y, bound, hmem, hcase⟩

/-- The errors have numerics of their own. -/
theorem isNumeric_complaint {x : Complaint} (h : x ∈ complaints find name adding params modes) :
    Server.IsNumeric x.numeric := by
  have hall : ∀ n ∈ ["461", "525", "441", "696", "472"], Server.IsNumeric n := by decide
  rcases complaints_cases h with rfl | ⟨y, bound, -, ⟨key, -, -, rfl⟩ | ⟨nick, -, -, rfl⟩ |
    ⟨limitStr, -, -, rfl⟩ | ⟨-, rfl⟩⟩
  all_goals exact hall _ (by simp [tooFew, badKey, notThere, badLimit, unknownMode])

/-- What is remembered of an error begins with its numeric. -/
theorem take_what {x : Complaint} (h : x ∈ complaints find name adding params modes) :
    x.what.take 3 = str x.numeric := by
  rcases complaints_cases h with rfl | ⟨y, bound, -, ⟨key, -, -, rfl⟩ | ⟨nick, -, -, rfl⟩ |
    ⟨limitStr, -, -, rfl⟩ | ⟨-, rfl⟩⟩ <;> rfl

/-- Only missing parameters are reported under their numeric. -/
theorem eq_tooFew_iff {x : Complaint} (h : x ∈ complaints find name adding params modes) :
    str x.numeric = str "461" ↔ x = tooFew := by
  have hne : ∀ n ∈ ["525", "441", "696", "472"], str n ≠ str "461" := by decide
  refine ⟨fun hn => ?_, fun hx => hx ▸ rfl⟩
  rcases complaints_cases h with rfl | ⟨y, bound, -, ⟨key, -, -, rfl⟩ | ⟨nick, -, -, rfl⟩ |
    ⟨limitStr, -, -, rfl⟩ | ⟨-, rfl⟩⟩
  · rfl
  all_goals exact absurd hn (hne _ (by simp [badKey, notThere, badLimit, unknownMode]))

/-- **Missing parameters are reported once**, if there are any. -/
theorem countP_tooFew :
    ((once Complaint.what ∅ (complaints find name adding params modes)).countP
      fun x => decide (str x.numeric = str "461")) =
        if params.length < owed letterNeed (modeLetters adding modes) then 1 else 0 := by
  set xs := complaints find name adding params modes with hxs
  have hcount : ((once Complaint.what ∅ xs).countP fun x => decide (str x.numeric = str "461")) =
      (once Complaint.what ∅ xs).count tooFew := by
    refine List.countP_congr fun x hx => ?_
    simp [eq_tooFew_iff (of_mem_once hx).1]
  have hmem : tooFew ∈ once Complaint.what ∅ xs ↔ tooFew ∈ xs := by
    refine ⟨fun h => (of_mem_once h).1, fun h => mem_once h (fun y hy heq => ?_) (Finset.notMem_empty _)⟩
    rw [← eq_tooFew_iff hy, ← take_what hy, heq]
    rfl
  rw [hcount, (nodup_once _ _ _).count]
  simp only [hmem]
  rw [hxs]
  simp only [tooFew_mem]

end Letters

namespace Server

variable {M : Matcher} {s t : Server} {p : ClientId} {ch : ChannelRef} {m : ModeLoop} {msg : Message}

/-- **The parameters the letters take are dealt out** by the rule of `FtIrc.dealt`. -/
theorem bindings_eq (h : LoopMade s p ch m) (modes : Str) :
    bindings p ch m modes = dealt letterNeed (modeLetters m.adding modes) m.params := by
  induction modes generalizing m with
  | nil => rfl
  | cons c rest ih =>
    have hread := channelModeLetter_spec h rest c
    rw [bindings, ih hread.made, hread.adding, hread.params, readLetter_adding, modeLetters]
    by_cases hsign : c = 43 ∨ c = 45
    · rw [if_pos hsign, readLetter_sign_params hsign]
      rcases hsign with rfl | rfl <;> rfl
    have hparams := hread.params
    rw [readLetter_takes hsign] at hparams
    rw [if_neg hsign, readLetter_takes hsign, boundParam, hparams]
    rw [not_or] at hsign
    rw [if_neg hsign.1, if_neg hsign.2, if_neg hsign.1, if_neg hsign.2, dealt]
    split_ifs with htakes hlt hlt
    · rfl
    · rcases hm : m.params with _ | ⟨x, params⟩
      · rfl
      · simp [hm] at hlt
    · exact absurd hlt (lt_irrefl _)
    · rfl

/-- The members hear of mode changes from whoever makes them. -/
theorem Inv.words_modeLines (hi : s.Inv) {params : List Str} {modes : Str} {e : ClientId × Str}
    (he : e ∈ (s.toMembers ch (s.modeLines p ch params modes)).map fun e => (e.1, wire e.2)) :
    ∃ rest, words e.2 = (COLON :: (s.deref p).getPrefix) :: str "MODE" :: rest := by
  obtain ⟨e', he', rfl⟩ := List.mem_map.mp he
  obtain ⟨w, hw, hq⟩ := List.mem_flatMap.mp he'
  obtain ⟨q, -, rfl⟩ := List.mem_map.mp hq
  have hverb : HasVerb " MODE " := by decide
  obtain ⟨rest, rfl⟩ : s.modeHead p ch <+: w := prefix_renderModeLines w hw
  obtain ⟨more, hmore⟩ :=
    ((says_name (hi.isWord_getPrefix p).1 ((hi.isWord_getPrefix p).2.trans (by decide)) hverb).append
      (t := (s.channel ch).name ++ str " " ++ rest)).wire.words
  have hline : s.modeHead p ch ++ rest = str ":" ++ (s.deref p).getPrefix ++ str " MODE " ++
      ((s.channel ch).name ++ str " " ++ rest) := by
    simp only [modeHead, List.append_assoc]
  exact ⟨_, hline ▸ hmore⟩

/-- How often the client hears an error from the server: once for each time it is
reported. -/
theorem Inv.heard_modeTalk (hi : s.Inv) (params : List Str) (modes : Str) {n : String} :
    heard p (COLON :: SERVER_NAME) (str n)
      ((s.modeTalk p ch params modes).map fun e => (e.1, wire e.2)) =
        (s.modesWrong ch params modes).countP fun x => decide (str x.numeric = str n) := by
  have hnone : heard p (COLON :: SERVER_NAME) (str n)
      ((s.toMembers ch (s.modeLines p ch params modes)).map fun e => (e.1, wire e.2)) = 0 := by
    refine heard_eq_zero fun e he hcon => ?_
    obtain ⟨rest, hrest⟩ := hi.words_modeLines he
    rw [hrest, List.take_succ_cons, List.cons.injEq, List.cons.injEq] at hcon
    exact getPrefix_ne_SERVER_NAME hcon.1.2
  rw [modeTalk, List.map_append, heard_append, hnone, heard, List.map_map, List.countP_map, Nat.add_zero]
  refine List.countP_congr fun x hx => ?_
  obtain ⟨rest, hrest⟩ :=
    (says_reply (isNumeric_complaint (of_mem_once hx).1) (s.deref p).nickname x.text).wire.words
  simp [complain, hrest]

/-- **No parameter is taken from the letter it is for.** In every reachable state, for
every mode string that starts with a sign and every list of parameters:

* the parameters the letters take are a fair dealing – they are taken in their order from
  the front; if there are enough for the `o`, `+k` and `+l` of the string, each of these
  takes one, and as many `-k` from the front as there are parameters to spare; if there
  are not, these letters take one from the front until there are none left, and no `-k`
  takes any;
* the client is told that parameters are missing once if they are, and else not at
  all. -/
theorem Reachable.binding (h : Reachable M s) (hmem : s.isMember ch p = true)
    (hop : s.isOperator ch p = true) (hsign : Signed (msg.param 1)) :
    Dealing letterNeed (modeLetters true (msg.param 1)) (msg.params.drop 2)
      (bindings p ch { server := s, params := msg.params.drop 2 } (msg.param 1)) ∧
    ∃ new, (s.handleChannelMode p ch msg).spoken = new ++ s.spoken ∧
      heard p (COLON :: SERVER_NAME) (str "461") new =
        if (msg.params.drop 2).length < owed letterNeed (modeLetters true (msg.param 1)) then 1
        else 0 := by
  constructor
  · have hstart : LoopMade s p ch { server := s, params := msg.params.drop 2 } := by
      rw [LoopMade, withModes_nil]
      exact .refl s
    rw [bindings_eq hstart]
    exact dealing_dealt _ _ _
  · refine ⟨((s.modeTalk p ch (msg.params.drop 2) (msg.param 1)).map fun e => (e.1, wire e.2)).reverse,
      ?_, ?_⟩
    · rw [handleChannelMode_eq hmem hop hsign, spoken_queueMany]
      rfl
    · rw [heard, List.countP_reverse]
      exact (h.inv.heard_modeTalk (p := p) _ _).trans countP_tooFew

/-- A `MODE` with too few parameters: a `-k` before two letters that must have one. -/
def stingy : Message where
  command := str "MODE"
  params := [str "#a", str "-k+ok", str "bob"]

set_option maxRecDepth 4000 in
omit [Libcpp] in
/-- The operator of the rehearsal is told so once. -/
theorem binding_rehearsed : letI := referenceLibcpp
    ∃ new, (rehearsal.handleChannelMode 0 (str "#a") stingy).spoken = new ++ rehearsal.spoken ∧
      heard 0 (COLON :: SERVER_NAME) (str "461") new = 1 :=
  letI := referenceLibcpp
  have hfew : (stingy.params.drop 2).length < owed letterNeed (modeLetters true (stingy.param 1)) := by
    decide
  have hmem : rehearsal.isMember (str "#a") 0 = true := by decide
  have hsign : Signed (stingy.param 1) := Or.inr rfl
  have h := (Reachable.binding reachable_rehearsal hmem (by decide) hsign).2
  h.imp fun _ hnew => ⟨hnew.1, hnew.2.trans (if_pos hfew)⟩

end Server

end FtIrc
