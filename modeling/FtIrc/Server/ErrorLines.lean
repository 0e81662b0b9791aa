import FtIrc.Server.Binding
import Mathlib.Algebra.Order.BigOperators.Group.List
import Mathlib.Algebra.Order.Group.Nat
import Mathlib.Data.Finset.Card

/-!
# How many errors a `MODE` is answered with

An error is remembered under a key that is not its text, and reported if the key is new.
So the number of errors is bounded by what the keys are made of – the unknown letters, and
the letters with the parameters dealt to them – and two errors with one text have to be
told apart by their keys. Except for malformed keys, of which only the channel is named,
they cannot be: **no error line is repeated** (`FtIrc.Server.Reachable.errorLines`).
-/

namespace FtIrc

open Abnf

variable [Libcpp]

/-- The numeric of a line that reports an error. -/
def errorNumeric (w : Str) : Option Str :=
  match words w with
  | source :: n :: _ =>
    if source = COLON :: SERVER_NAME ∧ n.length = 3 ∧ n.head? ∈ [some 52, some 53, some 54] then some n
    else none
  | _ => none

/-- The errors reported to a client. -/
def errorLines (p : ClientId) (lines : List (ClientId × Str)) : List Str :=
  (lines.filter fun e => decide (e.1 = p) && (errorNumeric e.2).isSome).map Prod.snd

/-- The letters of a mode string that are none of a mode. -/
def unknownLetters (modes : Str) : Finset Octet :=
  (((modeLetters true modes).map Prod.snd).filter fun c => c ∉ [105, 116, 107, 111, 108]).toFinset

/-- The letters of a mode string that take a parameter, with the parameters they take. -/
def boundPairs (modes : Str) (params : List Str) : Finset (Octet × Str) :=
  (((modeLetters true modes).zip (dealt letterNeed (modeLetters true modes) params)).filterMap
    fun e => e.2.map fun param => (e.1.2, param)).toFinset

/-- The parameters of a message fit in a line, each with a space before it. -/
def Message.Fits (msg : Message) : Prop :=
  (msg.params.map fun t => t.length + 1).sum ≤ MAX_MSGLEN

instance : DecidablePred Message.Fits := fun msg =>
  inferInstanceAs (Decidable ((msg.params.map fun t => t.length + 1).sum ≤ MAX_MSGLEN))

section Counting

variable {find : Str → Option Str} {name : Str} {params : List Str} {modes : Str} {x : Complaint}

/-- What is remembered of an error about a letter and its parameter. -/
def pairKey (e : Octet × Str) : Str :=
  if e.1 = 107 then str "525:" ++ e.2
  else if e.1 = 111 then str "441:" ++ Libcpp.asciiToLower e.2
  else str "696:" ++ e.2

/-- **What is remembered of the errors of a mode string.** -/
theorem what_mem (h : x ∈ complaints find name true params modes) :
    x.what ∈ insert (str "461") ((unknownLetters modes).image (fun c => str "472:" ++ [c]) ∪
      (boundPairs modes params).image pairKey) := by
  rcases complaints_cases h with rfl | ⟨y, bound, hmem, hcase⟩
  · exact Finset.mem_insert_self _ _
  have hpair : ∀ param, bound = some param → (y.2, param) ∈ boundPairs modes params := by
    rintro param rfl
    exact List.mem_toFinset.mpr (List.mem_filterMap.mpr ⟨_, hmem, rfl⟩)
  refine Finset.mem_insert_of_mem (Finset.mem_union.mpr ?_)
  rcases hcase with ⟨key, hy, hbound, rfl⟩ | ⟨nick, hy, hbound, rfl⟩ | ⟨limitStr, hy, hbound, rfl⟩ |
    ⟨hy, rfl⟩
  · exact Or.inr (Finset.mem_image.mpr ⟨_, hpair key hbound, by simp [pairKey, hy, badKey]⟩)
  · exact Or.inr (Finset.mem_image.mpr ⟨_, hpair nick hbound, by simp [pairKey, hy, notThere]⟩)
  · exact Or.inr (Finset.mem_image.mpr ⟨_, hpair limitStr hbound, by simp [pairKey, hy, badLimit]⟩)
  · refine Or.inl (Finset.mem_image.mpr ⟨y.2, ?_, rfl⟩)
    exact List.mem_toFinset.mpr (List.mem_filter.mpr
      ⟨List.mem_map.mpr ⟨y, (List.of_mem_zip hmem).1, rfl⟩, decide_eq_true hy⟩)

/-- **How many errors are reported of a mode string.** -/
theorem length_once_complaints :
    (once Complaint.what ∅ (complaints find name true params modes)).length ≤
      1 + (unknownLetters modes).card + (boundPairs modes params).card := by
  set xs := once Complaint.what ∅ (complaints find name true params modes) with hxs
  have hsub : (xs.map Complaint.what).toFinset ⊆
      insert (str "461") ((unknownLetters modes).image (fun c => str "472:" ++ [c]) ∪
        (boundPairs modes params).image pairKey) := by
    intro w hw
    obtain ⟨x, hx, rfl⟩ := List.mem_map.mp (List.mem_toFinset.mp hw)
    exact what_mem (of_mem_once hx).1
  have hkeys : ((unknownLetters modes).image (fun c => str "472:" ++ [c]) ∪
      (boundPairs modes params).image pairKey).card ≤
        (unknownLetters modes).card + (boundPairs modes params).card :=
    (Finset.card_union_le _ _).trans (Nat.add_le_add Finset.card_image_le Finset.card_image_le)
  calc xs.length = (xs.map Complaint.what).toFinset.card := by
        rw [List.toFinset_card_of_nodup (nodup_map_once _ _ _), List.length_map]
    _ ≤ _ := Finset.card_le_card hsub
    _ ≤ _ := Finset.card_insert_le _ _
    _ ≤ 1 + (unknownLetters modes).card + (boundPairs modes params).card := by omega

end Counting

/-! ### Errors that read the same -/

/-- The numerics are those of errors. -/
theorem head?_complaint {find : Str → Option Str} {name modes : Str} {adding : Bool}
    {params : List Str} {x : Complaint} (h : x ∈ complaints find name adding params modes) :
    (str x.numeric).head? ∈ [some 52, some 53, some 54] := by
  have hall : ∀ n ∈ ["461", "525", "441", "696", "472"],
      (str n).head? ∈ [some 52, some 53, some 54] := by decide
  rcases complaints_cases h with rfl | ⟨y, bound, -, ⟨key, -, -, rfl⟩ | ⟨nick, -, -, rfl⟩ |
    ⟨limitStr, -, -, rfl⟩ | ⟨-, rfl⟩⟩
  all_goals exact hall _ (by simp [tooFew, badKey, notThere, badLimit, unknownMode])

omit [Libcpp] in
/-- Two texts with the same end are the same if they are after a cut, not both of them
being long. -/
theorem eq_of_take {a b rest : Str} {k : ℕ} (h : (a ++ rest).take k = (b ++ rest).take k)
    (hlen : a.length + b.length + 2 * rest.length < 2 * k) : a = b := by
  have hsame := congrArg List.length h
  simp only [List.length_take, List.length_append] at hsame
  rw [List.take_of_length_le (by rw [List.length_append]; omega),
    List.take_of_length_le (by rw [List.length_append]; omega)] at h
  exact List.append_cancel_right h

omit [Libcpp] in
/-- Two different elements of a list weigh no more than all of it. -/
theorem add_le_sum {l : List Str} {a b : Str} (ha : a ∈ l) (hb : b ∈ l) (hne : a ≠ b)
    (f : Str → ℕ) : f a + f b ≤ (l.map f).sum := by
  induction l with
  | nil => exact absurd ha List.not_mem_nil
  | cons c l ih =>
    rw [List.map_cons, List.sum_cons]
    have hone : ∀ d ∈ l, f d ≤ (l.map f).sum := fun d hd =>
      List.single_le_sum (fun _ _ => Nat.zero_le _) _ (List.mem_map_of_mem hd)
    rcases List.mem_cons.mp ha with rfl | ha' <;> rcases List.mem_cons.mp hb with rfl | hb'
    · exact absurd rfl hne
    · have := hone b hb'
      omega
    · have := hone a ha'
      omega
    · have := ih ha' hb'
      omega

omit [Libcpp] in
/-- What is dealt out is taken from what there is. -/
theorem mem_of_dealt {modes : Str} {params : List Str} {y : Bool × Octet} {param : Str}
    (h : (y, some param) ∈
      (modeLetters true modes).zip (dealt letterNeed (modeLetters true modes) params)) :
    param ∈ params :=
  (dealing_dealt letterNeed (modeLetters true modes) params).inOrder.subset
    (List.reduceOption_mem_iff.mpr (List.of_mem_zip h).2)

/-- **Errors with one line** are one error, unless they are about keys. -/
theorem eq_of_wire {find : Str → Option Str} {name nick modes : Str} {msg : Message} {x y : Complaint}
    (hx : x ∈ complaints find name true (msg.params.drop 2) modes)
    (hy : y ∈ complaints find name true (msg.params.drop 2) modes) (hfits : msg.Fits)
    (hname : name.length ≤ MAX_CHANNELLEN) (hnick : nick.length ≤ MAX_NICKLEN)
    (hkey : str x.numeric ≠ str "525") (hnum : str x.numeric = str y.numeric)
    (h : wire (Server.replyText nick x.numeric x.text) = wire (Server.replyText nick y.numeric y.text)) :
    x = y := by
  -- the lines begin alike, so what follows is cut at one place
  have hcut : x.text.take (MAX_MSGLEN - 2 - (13 + nick.length)) =
      y.text.take (MAX_MSGLEN - 2 - (13 + nick.length)) := by
    have hlen : ∀ n, (str n).length = 3 →
        (str ":" ++ SERVER_NAME ++ str " " ++ str n ++ str " " ++ nick ++ str " ").length =
          13 + nick.length := fun n hn => by
      simp only [List.length_append, hn, show (str ":").length = 1 from rfl,
        show SERVER_NAME.length = 6 from rfl, show (str " ").length = 1 from rfl]
      omega
    rw [Server.replyText, Server.replyText, hnum,
      wire_append (by rw [hlen _ (isNumeric_complaint hy).1, MAX_MSGLEN]; rw [MAX_NICKLEN] at hnick; omega),
      wire_append (by rw [hlen _ (isNumeric_complaint hy).1, MAX_MSGLEN]; rw [MAX_NICKLEN] at hnick; omega),
      hlen _ (isNumeric_complaint hy).1] at h
    exact List.append_cancel_left h
  rw [MAX_MSGLEN] at hcut
  rw [MAX_CHANNELLEN] at hname
  rw [MAX_NICKLEN] at hnick
  have hshort : ∀ {y y' : Bool × Octet} {a b : Str}, (y, some a) ∈ (modeLetters true modes).zip
        (dealt letterNeed (modeLetters true modes) (msg.params.drop 2)) →
      (y', some b) ∈ (modeLetters true modes).zip
        (dealt letterNeed (modeLetters true modes) (msg.params.drop 2)) →
      a ≠ b → a.length + b.length ≤ 512 := by
    intro y y' a b ha hb hne
    have hsum := add_le_sum (List.mem_of_mem_drop (mem_of_dealt ha)) (List.mem_of_mem_drop (mem_of_dealt hb))
      hne fun t => t.length + 1
    have := hsum.trans hfits
    rw [MAX_MSGLEN] at this
    omega
  rcases complaints_cases hx with rfl | ⟨z, bound, hmem, ⟨key, -, -, rfl⟩ | ⟨nick₁, -, rfl, rfl⟩ |
    ⟨limit₁, -, rfl, rfl⟩ | ⟨-, rfl⟩⟩
  · exact ((eq_tooFew_iff hy).mp hnum.symm).symm
  · exact absurd rfl hkey
  · -- nobody is on the channel by that name
    rcases complaints_cases hy with rfl | ⟨z', bound', hmem', ⟨key', -, -, rfl⟩ |
      ⟨nick₂, -, rfl, rfl⟩ | ⟨limit₂, -, rfl, rfl⟩ | ⟨-, rfl⟩⟩
    · exact absurd hnum (by decide : str "441" ≠ str "461")
    · exact absurd hnum (by decide : str "441" ≠ str "525")
    · by_contra hne
      have hnicks : nick₁ ≠ nick₂ := fun heq => hne (by rw [heq])
      have hsum := hshort hmem hmem' hnicks
      simp only [notThere, List.append_assoc] at hcut
      refine hnicks (eq_of_take hcut ?_)
      simp only [List.length_append, show (str " ").length = 1 from rfl,
        show (str " :They aren't on that channel").length = 29 from rfl]
      omega
    · exact absurd hnum (by decide : str "441" ≠ str "696")
    · exact absurd hnum (by decide : str "441" ≠ str "472")
  · -- no limit
    rcases complaints_cases hy with rfl | ⟨z', bound', hmem', ⟨key', -, -, rfl⟩ |
      ⟨nick₂, -, rfl, rfl⟩ | ⟨limit₂, -, rfl, rfl⟩ | ⟨-, rfl⟩⟩
    · exact absurd hnum (by decide : str "696" ≠ str "461")
    · exact absurd hnum (by decide : str "696" ≠ str "525")
    · exact absurd hnum (by decide : str "696" ≠ str "441")
    · by_contra hne
      have hlimits : limit₁ ≠ limit₂ := fun heq => hne (by rw [heq])
      have hsum := hshort hmem hmem' hlimits
      have hhead : (name ++ str " l ").length = name.length + 3 := List.length_append ..
      obtain ⟨k, hk⟩ : ∃ k, 512 - 2 - (13 + nick.length) = (name ++ str " l ").length + k :=
        Nat.exists_eq_add_of_le (by omega)
      simp only [badLimit] at hcut
      rw [hk, List.append_assoc _ limit₁, List.append_assoc _ limit₂, List.take_length_add_append,
        List.take_length_add_append] at hcut
      refine hlimits (eq_of_take (List.append_cancel_left hcut) ?_)
      simp only [show (str " :Invalid channel limit").length = 23 from rfl]
      omega
    · exact absurd hnum (by decide : str "696" ≠ str "472")
  · -- no mode
    rcases complaints_cases hy with rfl | ⟨z', bound', hmem', ⟨key', -, -, rfl⟩ |
      ⟨nick₂, -, rfl, rfl⟩ | ⟨limit₂, -, rfl, rfl⟩ | ⟨-, rfl⟩⟩
    · exact absurd hnum (by decide : str "472" ≠ str "461")
    · exact absurd hnum (by decide : str "472" ≠ str "525")
    · exact absurd hnum (by decide : str "472" ≠ str "441")
    · exact absurd hnum (by decide : str "472" ≠ str "696")
    · obtain ⟨k, hk⟩ : ∃ k, 512 - 2 - (13 + nick.length) = k + 1 := ⟨512 - 2 - (13 + nick.length) - 1, by omega⟩
      rw [hk, unknownMode, unknownMode, List.singleton_append, List.singleton_append,
        List.take_succ_cons, List.take_succ_cons, List.cons.injEq] at hcut
      rw [hcut.1]

/-! ### What the client gets -/

namespace Server

variable {M : Matcher} {s t : Server} {p : ClientId} {ch : ChannelRef} {msg : Message} {n : String}
  {nick a : Str} {lines lines' : List (ClientId × Str)}

omit [Libcpp] in
/-- A numeric reply is read as what it is. -/
theorem errorNumeric_reply (hn : IsNumeric n) :
    errorNumeric (wire (replyText nick n a)) =
      if (str n).head? ∈ [some 52, some 53, some 54] then some (str n) else none := by
  obtain ⟨rest, hrest⟩ := (says_reply hn nick a).wire.words
  rw [errorNumeric, hrest]
  simp only [hn.1, true_and]

omit [Libcpp] in
theorem errorLines_append : errorLines p (lines ++ lines') = errorLines p lines ++ errorLines p lines' := by
  rw [errorLines, List.filter_append, List.map_append]
  rfl

/-- What there is to say of the errors of a command: but for those about keys no two are
alike, and there are not too many. -/
def FewErrors (p : ClientId) (msg : Message) (lines : List (ClientId × Str)) : Prop :=
  ((errorLines p lines).filter fun w => decide (errorNumeric w ≠ some (str "525"))).Nodup ∧
    (errorLines p lines).length ≤
      1 + (unknownLetters (msg.param 1)).card + (boundPairs (msg.param 1) (msg.params.drop 2)).card

omit [Libcpp] in
/-- One error at most. -/
theorem FewErrors.of_le (h : (errorLines p lines).length ≤ 1) : FewErrors p msg lines := by
  refine ⟨List.Nodup.filter _ ?_, by omega⟩
  rcases hl : errorLines p lines with _ | ⟨w, _ | ⟨w', l⟩⟩
  · exact List.nodup_nil
  · exact List.nodup_singleton w
  · rw [hl] at h
    simp at h

omit [Libcpp] in
/-- One line. -/
theorem FewErrors.single {e : ClientId × Str} : FewErrors p msg [e] :=
  .of_le (by rw [errorLines, List.length_map]; exact List.length_filter_le _ _)

/-- **The errors of a `MODE`** of an operator are what is wrong with the mode string. -/
theorem Inv.errorLines_modeTalk (hi : s.Inv) (params : List Str) (modes : Str) :
    errorLines p ((s.modeTalk p ch params modes).map fun e => (e.1, wire e.2)) =
      (s.modesWrong ch params modes).map fun x =>
        wire (replyText (s.deref p).nickname x.numeric x.text) := by
  have hnone : errorLines p ((s.toMembers ch (s.modeLines p ch params modes)).map
      fun e => (e.1, wire e.2)) = [] := by
    rw [errorLines, List.map_eq_nil_iff, List.filter_eq_nil_iff]
    intro e he
    obtain ⟨rest, hrest⟩ := hi.words_modeLines he
    have hspeaker : ¬(COLON :: (s.deref p).getPrefix = COLON :: SERVER_NAME) := fun h =>
      getPrefix_ne_SERVER_NAME (List.cons.inj h).2
    simp [errorNumeric, hrest, hspeaker]
  rw [modeTalk, List.map_append, errorLines_append, hnone, List.append_nil, List.map_map, errorLines,
    List.filter_eq_self.mpr, List.map_map]
  · rfl
  · intro e he
    obtain ⟨x, hx, rfl⟩ := List.mem_map.mp he
    simp only [Function.comp_apply, complain, decide_true, Bool.true_and,
      errorNumeric_reply (isNumeric_complaint (of_mem_once hx).1),
      if_pos (head?_complaint (of_mem_once hx).1), Option.isSome_some]

omit [Libcpp] in
theorem errorLines_reverse : errorLines p lines.reverse = (errorLines p lines).reverse := by
  rw [errorLines, List.filter_reverse, List.map_reverse]
  rfl

/-- The name of a channel that has a member is short. -/
theorem Inv.length_name (hi : s.Inv) (hch : s.isMember ch p = true) :
    (s.channel ch).name.length ≤ MAX_CHANNELLEN := by
  rcases hget : s.channels.get? ch with _ | chan
  · rw [isMember, channel_of_none hget] at hch
    exact absurd hch (by simp [Channel.isMember, show (default : Channel).members = OrdMap.empty from rfl,
      OrdMap.contains])
  · rw [channel_of_get? hget]
    have hvalid := (hi.channelTable ch chan hget).name
    simp only [isValidChannelName, Bool.and_eq_true, decide_eq_true_eq] at hvalid
    exact hvalid.1.1.1

/-- **A `MODE` of an operator** is answered with few errors. -/
theorem Inv.fewErrors_modeTalk (hi : s.Inv) (hch : s.isMember ch p = true) (hfits : msg.Fits) :
    FewErrors p msg
      ((s.modeTalk p ch (msg.params.drop 2) (msg.param 1)).map fun e => (e.1, wire e.2)).reverse := by
  have hnumeric : ∀ x ∈ s.modesWrong ch (msg.params.drop 2) (msg.param 1),
      errorNumeric (wire (replyText (s.deref p).nickname x.numeric x.text)) = some (str x.numeric) := by
    intro x hx
    rw [errorNumeric_reply (isNumeric_complaint (of_mem_once hx).1),
      if_pos (head?_complaint (of_mem_once hx).1)]
  rw [FewErrors, errorLines_reverse, hi.errorLines_modeTalk]
  constructor
  · rw [List.filter_reverse, List.nodup_reverse, List.filter_map]
    refine List.Nodup.map_on (fun x hx y hy heq => ?_) ((nodup_once _ _ _).filter _)
    obtain ⟨hx, hkey⟩ := List.mem_filter.mp hx
    have hy := List.mem_of_mem_filter hy
    have hnum := hnumeric x hx
    rw [heq, hnumeric y hy, Option.some.injEq] at hnum
    refine eq_of_wire (of_mem_once hx).1 (of_mem_once hy).1 hfits (hi.length_name hch)
      (hi.clientNames p).nickname.2 (fun hcon => ?_) hnum.symm heq
    have hno := of_decide_eq_true hkey
    rw [hnumeric x hx, hcon] at hno
    exact hno rfl
  · rw [List.length_reverse, List.length_map]
    exact length_once_complaints

/-- One reply. -/
theorem fewErrors_reply {n : String} {a : Str} :
    ∃ new, (s.sendReply p n a).spoken = new ++ s.spoken ∧ FewErrors p msg new :=
  ⟨[(p, wire (replyText (s.deref p).nickname n a))], rfl, .single⟩

/-- The settings of a channel are no errors. -/
theorem fewErrors_settings {a b : Str} :
    ∃ new, ((s.sendReply p "324" a).sendReply p "329" b).spoken = new ++ s.spoken ∧
      FewErrors p msg new := by
  have hall : ∀ n ∈ ["324", "329"], IsNumeric n ∧ (str n).head? ∉ [some 52, some 53, some 54] := by
    decide
  have hno : ∀ n ∈ ["324", "329"], ∀ nick a, errorNumeric (wire (replyText nick n a)) = none := by
    intro n hn nick a
    rw [errorNumeric_reply (hall n hn).1, if_neg (hall n hn).2]
  refine ⟨[(p, wire (replyText ((s.sendReply p "324" a).deref p).nickname "329" b)),
    (p, wire (replyText (s.deref p).nickname "324" a))], rfl, .of_le ?_⟩
  simp [FtIrc.errorLines, hno]

/-- **The handler of a `MODE`** on a channel. -/
theorem Inv.fewErrors_handleChannelMode (hi : s.Inv) (hfits : msg.Fits) :
    ∃ new, (s.handleChannelMode p ch msg).spoken = new ++ s.spoken ∧ FewErrors p msg new := by
  by_cases hmem : s.isMember ch p = true
  swap
  · rw [handleChannelMode, if_pos (by simpa using hmem)]
    exact fewErrors_reply
  by_cases hop : s.isOperator ch p = true
  swap
  · rw [handleChannelMode, if_neg (by simpa using hmem), if_pos (by simpa using hop)]
    exact fewErrors_reply
  by_cases hsign : Signed (msg.param 1)
  · exact ⟨_, by rw [handleChannelMode_eq hmem hop hsign, spoken_queueMany]; rfl,
      hi.fewErrors_modeTalk hmem hfits⟩
  · rw [Signed, not_or] at hsign
    rw [handleChannelMode, if_neg (by simpa using hmem), if_neg (by simpa using hop)]
    dsimp only
    rw [if_pos (Or.inr hsign)]
    exact ⟨[], rfl, .of_le (Nat.zero_le 1)⟩

/-- **No error of a `MODE` is repeated.** In every reachable state, of the error lines a
client gets for a `MODE` on a channel, no two are the same, those about malformed keys
left out; and there is at most one more of them than there are unknown letters in the
mode string, and letters with parameters dealt to them. -/
theorem Reachable.errorLines (h : Reachable M s) (hline : LineStep M s t p msg)
    (hcmd : msg.command = str "MODE") (hchan : (msg.param 0).head? = some HASH) (hfits : msg.Fits) :
    ∃ new, t.spoken = new ++ s.spoken ∧ FewErrors p msg new := by
  obtain ⟨hp, raw, hraw, hmsg, rfl⟩ := hline
  have hheard : (s.record (.inbound p raw)).Inv := h.inv.run (show (Op.hear p raw).Allowed s from hp)
  have hfind : findCommand msg.command = some ⟨str "MODE", cmdMode, true⟩ := by
    rw [hcmd]
    rfl
  have hsome := Message.some_of_head hchan
  change ∃ new, _ = new ++ (s.record (.inbound p raw)).spoken ∧ _
  rw [handleMessage_of_findCommand hmsg hfind]
  split_ifs
  · exact fewErrors_reply
  dsimp only
  rw [cmdMode, if_neg hsome, if_pos hchan]
  rcases (s.record (.inbound p raw)).findChannel (msg.param 0) with _ | ch
  · exact fewErrors_reply
  dsimp only
  by_cases hlen : msg.params.length = 1
  swap
  · rw [if_neg hlen]
    exact hheard.fewErrors_handleChannelMode hfits
  rw [if_pos hlen]
  by_cases hmem : (!(s.record (.inbound p raw)).isMember ch p) = true
  · rw [if_pos hmem]
    exact fewErrors_reply
  · rw [if_neg hmem]
    exact fewErrors_settings

/-- One bad parameter for three letters. -/
def thrice : Message where
  command := str "MODE"
  params := [str "#a", str "+klo", str ",", str ",", str ","]

omit [Libcpp] in
theorem lineStep_thrice : letI := referenceLibcpp
    LineStep rehearsalMatcher rehearsal
      (rehearsal.handleMessage rehearsalMatcher 0 (str "MODE #a +klo , , ,")) 0 thrice :=
  letI := referenceLibcpp
  ⟨⟨by decide, by decide⟩, str "MODE #a +klo , , ,", by decide, rfl, rfl⟩

omit [Libcpp] in
theorem errorLines_rehearsed : letI := referenceLibcpp
    ∃ new, (rehearsal.handleMessage rehearsalMatcher 0 (str "MODE #a +klo , , ,")).spoken =
      new ++ rehearsal.spoken ∧ FewErrors 0 thrice new :=
  letI := referenceLibcpp
  Reachable.errorLines reachable_rehearsal lineStep_thrice rfl rfl (by decide)

set_option maxRecDepth 4000 in
omit [Libcpp] in
/-- **One parameter is reported for every letter it is dealt to**: there are three errors
about it, and no unknown letter. -/
theorem not_one_error_each : letI := referenceLibcpp
    ¬∀ (M : Matcher) (s t : Server) (p : ClientId) (msg : Message), Reachable M s →
      LineStep M s t p msg → msg.command = str "MODE" → (msg.param 0).head? = some HASH → msg.Fits →
        ∃ new, t.spoken = new ++ s.spoken ∧ (errorLines p new).Nodup ∧
          (errorLines p new).length ≤
            1 + (unknownLetters (msg.param 1)).card + (msg.params.drop 2).toFinset.card := by
  let _ := referenceLibcpp
  intro h
  obtain ⟨new, hnew, -, hlen⟩ := h rehearsalMatcher rehearsal _ 0 thrice reachable_rehearsal
    lineStep_thrice rfl rfl (by decide)
  have hsaid : (rehearsal.handleMessage rehearsalMatcher 0 (str "MODE #a +klo , , ,")).spoken =
      [(0, str ":ft_irc 441 alice , #a :They aren't on that channel"),
        (0, str ":ft_irc 696 alice #a l , :Invalid channel limit"),
        (0, str ":ft_irc 525 alice #a :Key is not well-formed")] ++ rehearsal.spoken := by decide
  obtain rfl := List.append_cancel_right (hnew.symm.trans hsaid)
  exact absurd hlen (by decide)

end Server

end FtIrc
