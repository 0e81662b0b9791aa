import FtIrc.Grammar.Tokens
import FtIrc.Server.ErrorLines
import FtIrc.Server.Rendering

/-!
# What is announced can be sent back

The changes a mode string makes are of a few kinds (`FtIrc.ModeChange.Fair`), and each of
them, written as a letter with its parameter, is read as the same change again. The one
parameter that is not needed is that of a `-k`; but **whoever wrote a group of changes was
reading a mode string**, so that in the group every `-k` with a parameter comes before
every `-k` without one, and behind a parameter that is not a single word nothing needs one
any more (`FtIrc.Orderly`). That is enough for every letter of the group to find its own
parameter again, although the ones that were refused are gone
(`FtIrc.readBack`).

So a channel whose operators send back what was announced ends as it was
(`FtIrc.Server.Reachable.sentBack`).
-/

namespace FtIrc

open Abnf

variable [Libcpp]

/-! ### The changes of a mode string -/

/-- **A change that stands in no doubt**: what is written of it is read as the same
change. -/
inductive ModeChange.Fair (find : Str → Option Str) : ModeChange → Prop
  | flag (adding : Bool) (c : Octet) (h : c = 105 ∨ c = 116) : Fair find ⟨adding, c, []⟩
  | key (key : Str) (h : isValidChannelKey key = true) : Fair find ⟨true, 107, key⟩
  | noKey (oldKey : Str) : Fair find ⟨false, 107, oldKey⟩
  | operator (adding : Bool) (nick : Str) (h : find nick = some nick) :
    Fair find ⟨adding, 111, nick⟩
  | limit (n : ℤ) (h : Libcpp.parseLong (Libcpp.toDecimal n) 1 MAX_USERLIMIT = some n) :
    Fair find ⟨true, 108, Libcpp.toDecimal n⟩
  | noLimit : Fair find ⟨false, 108, []⟩

/-- A change that removes the key. -/
def ModeChange.IsNoKey (mc : ModeChange) : Prop := mc.adding = false ∧ mc.letter = 107

instance : DecidablePred ModeChange.IsNoKey := fun mc =>
  inferInstanceAs (Decidable (mc.adding = false ∧ mc.letter = 107))

/-- The letter of a change must have a parameter. -/
def ModeChange.Needs (mc : ModeChange) : Prop := letterNeed (mc.adding, mc.letter) = .must

instance : DecidablePred ModeChange.Needs := fun mc =>
  inferInstanceAs (Decidable (letterNeed (mc.adding, mc.letter) = .must))

/-- **A change and one that comes after it**, in a mode string: a `-k` with a parameter does
not come after one without, and behind a parameter that is not a single word nothing needs
a parameter, or has one. -/
structure Orderly (mc mc' : ModeChange) : Prop where
  bare : mc.IsNoKey → mc.param = [] → mc'.IsNoKey → mc'.param = []
  odd : mc.IsNoKey → mc.param ≠ [] → ¬IsMiddle mc.param →
    ¬mc'.Needs ∧ (mc'.IsNoKey → mc'.param = [])

variable {find : Str → Option Str} {adding : Bool} {params : List Str} {modes rest : Str}
  {c : Octet} {mc : ModeChange} {cs g g₁ g₂ : List ModeChange} {name : Str} {sign : Option Bool}

theorem ModeChange.Fair.letter_mem (h : mc.Fair find) : mc.letter ∈ [105, 116, 107, 111, 108] := by
  cases h with
  | flag adding c h => rcases h with rfl | rfl <;> simp
  | key | noKey | operator | limit | noLimit => simp

theorem ModeChange.Fair.not_sign (h : mc.Fair find) : mc.letter ≠ 43 ∧ mc.letter ≠ 45 := by
  have hall : ∀ c ∈ [(105 : Octet), 116, 107, 111, 108], c ≠ 43 ∧ c ≠ 45 := by simp
  exact hall _ h.letter_mem

/-- A letter that makes a change makes a fair one. -/
theorem readLetter_fair (hfind : ∀ nick n, find nick = some n → find n = some n)
    (h : mc ∈ (readLetter find adding params c rest).2.2) : mc.Fair find := by
  rw [readLetter] at h
  split_ifs at h with h₁ h₂ h₃ h₄ h₅ h₆ h₇
  · exact absurd h List.not_mem_nil
  · exact absurd h List.not_mem_nil
  · rw [List.mem_singleton.mp h]
    exact .flag adding 105 (Or.inl rfl)
  · rw [List.mem_singleton.mp h]
    exact .flag adding 116 (Or.inr rfl)
  · rcases adding with _ | _ <;> rcases params with _ | ⟨param, params⟩ <;> simp only [readKey] at h
    · rw [List.mem_singleton.mp h]
      exact .noKey []
    · split_ifs at h
      · rw [List.mem_singleton.mp h]
        exact .noKey param
      · rw [List.mem_singleton.mp h]
        exact .noKey []
    · exact absurd h List.not_mem_nil
    · split_ifs at h with hkey
      · rw [List.mem_singleton.mp h]
        exact .key param hkey
      · exact absurd h List.not_mem_nil
  · rcases params with _ | ⟨nick, params⟩ <;> simp only [readOperator] at h
    · exact absurd h List.not_mem_nil
    · rcases hn : find nick with _ | n <;> rw [hn] at h
      · exact absurd h List.not_mem_nil
      · rw [List.mem_singleton.mp h]
        exact .operator adding n (hfind nick n hn)
  · rcases adding with _ | _
    · rw [List.mem_singleton.mp h]
      exact .noLimit
    rcases params with _ | ⟨limitStr, params⟩ <;> simp only [readLimit] at h
    · exact absurd h List.not_mem_nil
    · rcases hn : Libcpp.parseLong limitStr 1 MAX_USERLIMIT with _ | n <;> rw [hn] at h
      · exact absurd h List.not_mem_nil
      · obtain ⟨-, hpos, hle⟩ := (Libcpp.parseLong_iff _ _ _ _).mp hn
        rw [List.mem_singleton.mp h]
        refine .limit n ((Libcpp.parseLong_iff _ _ _ _).mpr ⟨?_, hpos, hle⟩)
        rw [Libcpp.toDecimal_eq]
        exact signedValue_signedDecimal (by omega)
  · exact absurd h List.not_mem_nil

/-- **A mode string makes fair changes.** -/
theorem modeChanges_fair (hfind : ∀ nick n, find nick = some n → find n = some n)
    (h : mc ∈ modeChanges find adding params modes) : mc.Fair find := by
  induction modes generalizing adding params with
  | nil => exact absurd h List.not_mem_nil
  | cons c rest ih =>
    rw [modeChanges] at h
    rcases List.mem_append.mp h with h | h
    · exact readLetter_fair hfind h
    · exact ih h

/-- A change is made by a letter of the string. -/
theorem modeChanges_letter (h : mc ∈ modeChanges find adding params modes) :
    (mc.adding, mc.letter) ∈ modeLetters adding modes := by
  induction modes generalizing adding params with
  | nil => exact absurd h List.not_mem_nil
  | cons c rest ih =>
    rw [modeChanges] at h
    by_cases hsign : c = 43 ∨ c = 45
    · have hrest : mc ∈ modeChanges find (readLetter find adding params c rest).1 params rest := by
        rcases hsign with rfl | rfl <;> exact h
      have hmem := ih hrest
      rw [readLetter_adding] at hmem
      rw [modeLetters]
      split_ifs at hmem ⊢
      · exact hmem
      · exact hmem
      · exact absurd hsign (by tauto)
    · rw [not_or] at hsign
      rw [modeLetters, if_neg hsign.1, if_neg hsign.2]
      rcases List.mem_append.mp h with h | h
      · obtain ⟨hletter, hadding⟩ := readLetter_sign.2 mc h
        rw [hletter, hadding]
        exact List.mem_cons_self
      · have hmem := ih h
        rw [readLetter_adding, if_neg hsign.1, if_neg hsign.2] at hmem
        exact List.mem_cons_of_mem _ hmem

/-- **Where every parameter is needed**, no `-k` has one. -/
theorem modeChanges_bare (hfew : params.length ≤ owed letterNeed (modeLetters adding modes))
    (h : mc ∈ modeChanges find adding params modes) (hmc : mc.IsNoKey) : mc.param = [] := by
  induction modes generalizing adding params with
  | nil => exact absurd h List.not_mem_nil
  | cons c rest ih =>
    rw [modeChanges] at h
    by_cases hsign : c = 43 ∨ c = 45
    · rcases hsign with rfl | rfl <;> exact ih hfew h
    rw [not_or] at hsign
    rw [modeLetters, if_neg hsign.1, if_neg hsign.2, owed_cons] at hfew
    rcases List.mem_append.mp h with h | h
    · obtain ⟨hletter, hadding⟩ := readLetter_sign.2 mc h
      obtain rfl : adding = false := hadding.symm.trans hmc.1
      obtain rfl : c = 107 := hletter.symm.trans hmc.2
      have hno : letterNeed (false, 107) ≠ .must := by simp [letterNeed]
      rw [if_neg hno, Nat.add_zero, owed_modeLetters] at hfew
      rcases params with _ | ⟨x, params⟩
      · rw [List.mem_singleton.mp h]
      · have hread : (readLetter find false (x :: params) 107 rest).2.2 =
            [{ adding := false, letter := 107 }] := by
          show (readKey false (x :: params) rest).2.2 = _
          rw [readKey, if_neg (by simpa using hfew)]
        rw [hread] at h
        rw [List.mem_singleton.mp h]
    · refine ih ?_ h
      rw [readLetter_adding, if_neg hsign.1, if_neg hsign.2, readLetter_takes (not_or.mpr hsign)]
      split_ifs with htakes
      · rw [List.length_tail]
        split_ifs at hfew with hmust
        · omega
        · omega
      · split_ifs at hfew with hmust
        · exact absurd (Or.inl hmust) htakes
        · exact hfew

omit [Libcpp] in
/-- What a `-k` leaves: no more parameters than are needed if it has none, and none that are
needed if it has one that is not a single word. -/
theorem readKey_leaves (hmid : ∀ w ∈ params.dropLast, IsMiddle w)
    (h : mc ∈ (readKey false params rest).2.2) :
    (mc.param = [] → (readKey false params rest).2.1.length ≤ paramsRequiredFrom rest false) ∧
      (¬IsMiddle mc.param → mc.param ≠ [] →
        (readKey false params rest).2.1 = [] ∧ paramsRequiredFrom rest false = 0) := by
  rcases params with _ | ⟨x, params⟩
  · rw [List.mem_singleton.mp h]
    exact ⟨fun _ => Nat.zero_le _, fun _ hne => absurd rfl hne⟩
  have hlast : ¬IsMiddle x → params = [] := fun hx => by
    by_contra hne
    rw [List.dropLast_cons_of_ne_nil hne] at hmid
    exact hx (hmid x List.mem_cons_self)
  simp only [readKey] at h ⊢
  split_ifs at h ⊢ with htakes
  · rw [List.mem_singleton.mp h]
    refine ⟨fun hx : x = [] => ?_, fun hx _ => ?_⟩
    · rw [hlast fun hmiddle => hmiddle.ne_nil hx]
      exact Nat.zero_le _
    · obtain rfl := hlast hx
      simp only [List.length_nil] at htakes
      exact ⟨rfl, by omega⟩
  · rw [List.mem_singleton.mp h]
    exact ⟨fun _ => by simp only [List.length_cons]; omega, fun _ hne => absurd rfl hne⟩

/-- **A letter makes one change at most**, and uses up a parameter for it if it has one. -/
theorem readLetter_one : (readLetter find adding params c rest).2.2 = [] ∨
    ∃ mc, (readLetter find adding params c rest).2.2 = [mc] ∧
      (mc.param ≠ [] → (readLetter find adding params c rest).2.1.length < params.length) := by
  rw [readLetter]
  split_ifs with h₁ h₂ h₃ h₄ h₅ h₆ h₇
  · exact Or.inl rfl
  · exact Or.inl rfl
  · exact Or.inr ⟨_, rfl, fun hne => absurd rfl hne⟩
  · exact Or.inr ⟨_, rfl, fun hne => absurd rfl hne⟩
  · rcases adding with _ | _ <;> rcases params with _ | ⟨param, params⟩ <;> simp only [readKey]
    · exact Or.inr ⟨_, rfl, fun hne => absurd rfl hne⟩
    · split_ifs
      · exact Or.inr ⟨_, rfl, fun _ => Nat.lt_succ_self _⟩
      · exact Or.inr ⟨_, rfl, fun hne => absurd rfl hne⟩
    · exact Or.inl trivial
    · split_ifs
      · exact Or.inr ⟨_, rfl, fun _ => Nat.lt_succ_self _⟩
      · exact Or.inl rfl
  · rcases params with _ | ⟨nick, params⟩ <;> simp only [readOperator]
    · exact Or.inl trivial
    · rcases find nick
      · exact Or.inl rfl
      · exact Or.inr ⟨_, rfl, fun _ => Nat.lt_succ_self _⟩
  · rcases adding with _ | _
    · exact Or.inr ⟨_, rfl, fun hne => absurd rfl hne⟩
    rcases params with _ | ⟨limitStr, params⟩ <;> simp only [readLimit]
    · exact Or.inl trivial
    · rcases Libcpp.parseLong limitStr 1 MAX_USERLIMIT
      · exact Or.inl rfl
      · exact Or.inr ⟨_, rfl, fun _ => Nat.lt_succ_self _⟩
  · exact Or.inl rfl

/-- The parameters that are written of some changes. -/
def written (cs : List ModeChange) : List Str :=
  (cs.map ModeChange.param).filter fun param => decide (param ≠ [])

/-- No more parameters are written than were read. -/
theorem length_written_le : (written (modeChanges find adding params modes)).length ≤ params.length := by
  induction modes generalizing adding params with
  | nil => exact Nat.zero_le _
  | cons c rest ih =>
    have hrest : (written (modeChanges find (readLetter find adding params c rest).1
        (readLetter find adding params c rest).2.1 rest)).length ≤
          (readLetter find adding params c rest).2.1.length := ih
    have hsuffix : (readLetter find adding params c rest).2.1.length ≤ params.length :=
      readLetter_params.1.length_le
    have hone : (readLetter find adding params c rest).2.2 = [] ∨ _ := readLetter_one
    rw [modeChanges]
    rcases hone with hr | ⟨mc, hr, hused⟩
    · rw [hr, List.nil_append]
      exact hrest.trans hsuffix
    · rw [hr, List.singleton_append, written, List.map_cons, List.filter_cons]
      split_ifs with hne
      · have := hused (of_decide_eq_true hne)
        rw [List.length_cons]
        exact Nat.le_trans (Nat.succ_le_succ hrest) this
      · exact hrest.trans hsuffix

omit [Libcpp] in
/-- What is left at the end has the same last element. -/
theorem mem_dropLast_of_suffix {l l' : List Str} (h : l' <:+ l) {w : Str} (hw : w ∈ l'.dropLast) :
    w ∈ l.dropLast := by
  obtain ⟨front, rfl⟩ := h
  rcases l' with _ | ⟨x, left⟩
  · exact absurd hw List.not_mem_nil
  · rw [List.dropLast_append_of_ne_nil (List.cons_ne_nil x left)]
    exact List.mem_append_right _ hw

/-- **The changes of a mode string are orderly**, if its parameters are those of a line. -/
theorem modeChanges_orderly (hmid : ∀ w ∈ params.dropLast, IsMiddle w) :
    (modeChanges find adding params modes).Pairwise Orderly := by
  induction modes generalizing adding params with
  | nil => exact List.Pairwise.nil
  | cons c rest ih =>
    have hletter : ∀ mc ∈ (readLetter find adding params c rest).2.2, mc.letter = c ∧ mc.adding = adding :=
      fun mc hmc => readLetter_sign.2 mc hmc
    have hsuffix : (readLetter find adding params c rest).2.1 <:+ params := readLetter_params.1
    have hmid' : ∀ w ∈ (readLetter find adding params c rest).2.1.dropLast, IsMiddle w :=
      fun w hw => hmid w (mem_dropLast_of_suffix hsuffix hw)
    rw [modeChanges]
    refine List.pairwise_append.mpr ⟨?_, ih hmid', fun mc hmc mc' hmc' => ?_⟩
    · rcases readLetter_one with hr | ⟨mc, hr, -⟩ <;> rw [hr]
      · exact List.Pairwise.nil
      · exact List.pairwise_singleton _ _
    · by_cases hno : mc.IsNoKey
      swap
      · exact ⟨fun h => absurd h hno, fun h => absurd h hno⟩
      obtain ⟨hc, hadding⟩ := hletter mc hmc
      obtain rfl : adding = false := hadding.symm.trans hno.1
      obtain rfl : c = 107 := hc.symm.trans hno.2
      obtain ⟨hbare, hodd⟩ := readKey_leaves hmid hmc
      have hsign : (readLetter find false params 107 rest).1 = false := readKey_sign.1
      have hmc'' : mc' ∈ modeChanges find false (readKey false params rest).2.1 rest := by
        rw [hsign] at hmc'
        exact hmc'
      refine ⟨fun _ hparam hno' => ?_, fun _ hparam hodd' => ?_⟩
      · refine modeChanges_bare ?_ hmc'' hno'
        rw [owed_modeLetters]
        exact hbare hparam
      · obtain ⟨hnil, hnone⟩ := hodd hodd' hparam
        refine ⟨fun hneeds => ?_, fun hno' => ?_⟩
        · rw [← owed_modeLetters, owed, List.countP_eq_zero] at hnone
          exact hnone _ (modeChanges_letter hmc'') (decide_eq_true hneeds)
        · rw [hnil] at hmc''
          exact modeChanges_bare (Nat.zero_le _) hmc'' hno'

/-! ### Reading it back -/

/-- The same change, or the removal of the key, whatever parameter it has. -/
def ModeChange.Like (mc mc' : ModeChange) : Prop := mc = mc' ∨ (mc.IsNoKey ∧ mc'.IsNoKey)

/-- Whoever is found is found by the name, and the name is a word. -/
def FindsWords (find : Str → Option Str) : Prop :=
  ∀ nick n, find nick = some n → find n = some n ∧ IsMiddle n

/-- A change that needs a parameter has one. -/
theorem ModeChange.Fair.ne_nil (hfind : FindsWords find) (h : mc.Fair find) (hneeds : mc.Needs) :
    mc.param ≠ [] := by
  cases h with
  | flag adding c hc => rcases hc with rfl | rfl <;> exact absurd hneeds (by simp [Needs, letterNeed])
  | key key hkey =>
    rintro rfl
    exact absurd hkey (by simp [isValidChannelKey])
  | noKey oldKey => exact absurd hneeds (by simp [Needs, letterNeed])
  | operator adding nick hnick => exact (hfind nick nick hnick).2.ne_nil
  | limit n hn =>
    intro (hnil : Libcpp.toDecimal n = [])
    rw [hnil, Libcpp.parseLong_iff] at hn
    exact absurd hn.1 (by simp [signedValue, digitsValue])
  | noLimit => exact absurd hneeds (by simp [Needs, letterNeed])

omit [Libcpp] in
/-- A change with a parameter needs it, or removes the key. -/
theorem ModeChange.Fair.needs_or [Libcpp] (h : mc.Fair find) (hne : mc.param ≠ []) :
    mc.Needs ∨ mc.IsNoKey := by
  cases h with
  | flag | noLimit => exact absurd rfl hne
  | key | limit => exact Or.inl rfl
  | noKey => exact Or.inr ⟨rfl, rfl⟩
  | operator => exact Or.inl (by simp [Needs, letterNeed])

omit [Libcpp] in
/-- The letters that are read off a line are those of its changes. -/
theorem modeLetters_modesOf (hletters : ∀ mc ∈ cs, mc.letter ≠ 43 ∧ mc.letter ≠ 45)
    (hsign : sign = none ∨ sign = some adding) :
    modeLetters adding (modesOf sign cs) = cs.map fun mc => (mc.adding, mc.letter) := by
  induction cs generalizing sign adding with
  | nil => rfl
  | cons mc cs ih =>
    obtain ⟨hplus, hminus⟩ := hletters mc List.mem_cons_self
    have hrest : modeLetters mc.adding (modesOf (some mc.adding) cs) =
        cs.map fun mc => (mc.adding, mc.letter) :=
      ih (fun mc hmc => hletters mc (List.mem_cons_of_mem _ hmc)) (Or.inr rfl)
    have hone : modeLetters mc.adding (mc.letter :: modesOf (some mc.adding) cs) =
        (mc.adding, mc.letter) :: cs.map fun mc => (mc.adding, mc.letter) := by
      rw [modeLetters, if_neg hplus, if_neg hminus, hrest]
    rw [modesOf, List.map_cons, ← hone]
    by_cases hsame : sign = some mc.adding
    · rw [if_neg (not_not.mpr hsame), List.nil_append]
      rcases hsign with rfl | rfl
      · exact absurd hsame (by simp)
      · rw [Option.some.inj hsame]
    · rw [if_pos hsame]
      rcases mc.adding <;> rfl

/-- What the letters of a line must have is what its changes need. -/
theorem owed_modesOf (hfair : ∀ mc ∈ cs, mc.Fair find) (hsign : sign = none ∨ sign = some adding) :
    owed letterNeed (modeLetters adding (modesOf sign cs)) = cs.countP fun mc => decide mc.Needs := by
  rw [modeLetters_modesOf (fun mc hmc => (hfair mc hmc).not_sign) hsign, owed, List.countP_map]
  rfl

/-- **A fair change is read back**, its parameter being the next if it needs one. -/
theorem ModeChange.Fair.readBack (h : mc.Fair find) (name rest : Str) (hneeds : mc.Needs → params.head? = some mc.param) :
    (∃ mc', (readLetter find mc.adding params mc.letter rest).2.2 = [mc'] ∧ mc.Like mc') ∧
      complainLetter find name mc.adding params mc.letter = [] := by
  cases h with
  | flag adding c hc => rcases hc with rfl | rfl <;> exact ⟨⟨_, rfl, Or.inl rfl⟩, rfl⟩
  | key key hkey =>
    obtain ⟨params, rfl⟩ := List.head?_eq_some_iff.mp (hneeds rfl)
    refine ⟨⟨_, ?_, Or.inl rfl⟩, ?_⟩
    · show (readKey true (key :: params) rest).2.2 = _
      rw [readKey, if_pos hkey]
    · show complainKey name true (key :: params) = _
      rw [complainKey, if_pos hkey]
  | noKey oldKey =>
    refine ⟨?_, rfl⟩
    rcases params with _ | ⟨x, params⟩
    · exact ⟨_, rfl, Or.inr ⟨⟨rfl, rfl⟩, rfl, rfl⟩⟩
    · show ∃ mc', (readKey false (x :: params) rest).2.2 = [mc'] ∧ _
      rw [readKey]
      split_ifs
      · exact ⟨_, rfl, Or.inr ⟨⟨rfl, rfl⟩, rfl, rfl⟩⟩
      · exact ⟨_, rfl, Or.inr ⟨⟨rfl, rfl⟩, rfl, rfl⟩⟩
  | operator adding nick hnick =>
    obtain ⟨params, rfl⟩ := List.head?_eq_some_iff.mp (hneeds (by simp [Needs, letterNeed]))
    refine ⟨⟨_, ?_, Or.inl rfl⟩, ?_⟩
    · show (readOperator find adding (nick :: params)).2.2 = _
      simp only [readOperator, hnick]
    · show complainOperator find name (nick :: params) = _
      simp only [complainOperator, hnick]
  | limit n hn =>
    obtain ⟨params, rfl⟩ := List.head?_eq_some_iff.mp (hneeds rfl)
    refine ⟨⟨_, ?_, Or.inl rfl⟩, ?_⟩
    · show (readLimit true (Libcpp.toDecimal n :: params)).2.2 = _
      simp only [readLimit, hn]
    · show complainLimit name true (Libcpp.toDecimal n :: params) = _
      simp only [complainLimit, hn]
  | noLimit => exact ⟨⟨_, rfl, Or.inl rfl⟩, rfl⟩

/-- **What a mode string comes to** when it is read: every change is read back, and nothing
is wrong. -/
structure ReadsBack (find : Str → Option Str) (name : Str) (adding : Bool) (params : List Str)
    (sign : Option Bool) (cs : List ModeChange) : Prop where
  changes : List.Forall₂ ModeChange.Like cs (modeChanges find adding params (modesOf sign cs))
  complaints : complaints find name adding params (modesOf sign cs) = []

/-- A sign in front of the letters. -/
theorem ReadsBack.withSign (h : ReadsBack find name mc.adding params (some mc.adding) (mc :: cs))
    (hsign : sign = none ∨ sign = some adding) : ReadsBack find name adding params sign (mc :: cs) := by
  have hmodes : modesOf (some mc.adding) (mc :: cs) = mc.letter :: modesOf (some mc.adding) cs := by
    rw [modesOf, if_neg (not_not.mpr rfl), List.nil_append]
  by_cases hsame : sign = some mc.adding
  · subst hsame
    rcases hsign with hsign | hsign
    · exact absurd hsign (by simp)
    · rw [← Option.some.inj hsign]
      exact h
  · obtain ⟨hchanges, hright⟩ := h
    rw [hmodes] at hchanges hright
    have hmodes' : modesOf sign (mc :: cs) =
        (if mc.adding then str "+" else str "-") ++ mc.letter :: modesOf (some mc.adding) cs := by
      rw [modesOf, if_pos hsame]
    constructor
    · rw [hmodes']
      rcases hadding : mc.adding <;> rw [hadding] at hchanges <;> exact hchanges
    · rw [hmodes']
      rcases hadding : mc.adding <;> rw [hadding] at hright <;> exact hright

/-- One change in front of the others, the letters behind it being read with the parameters
it leaves. -/
theorem ReadsBack.cons (h : mc.Fair find) (hneeds : mc.Needs → params.head? = some mc.param)
    (hsign : sign = none ∨ sign = some adding)
    (hrest : ReadsBack find name mc.adding
      (if takes letterNeed (mc.adding, mc.letter) (modeLetters mc.adding (modesOf (some mc.adding) cs))
        params.length then params.tail else params) (some mc.adding) cs) :
    ReadsBack find name adding params sign (mc :: cs) := by
  obtain ⟨hplus, hminus⟩ := h.not_sign
  have hletter : ¬(mc.letter = 43 ∨ mc.letter = 45) := not_or.mpr ⟨hplus, hminus⟩
  obtain ⟨⟨mc', hread, hlike⟩, hright⟩ := h.readBack name (modesOf (some mc.adding) cs) hneeds
  have hmodes : modesOf (some mc.adding) (mc :: cs) = mc.letter :: modesOf (some mc.adding) cs := by
    rw [modesOf, if_neg (not_not.mpr rfl), List.nil_append]
  refine ReadsBack.withSign ⟨?_, ?_⟩ hsign
  · rw [hmodes, modeChanges, hread, readLetter_adding, if_neg hplus, if_neg hminus,
      readLetter_takes hletter]
    exact .cons hlike hrest.changes
  · rw [hmodes, FtIrc.complaints, hright, readLetter_adding, if_neg hplus, if_neg hminus,
      readLetter_takes hletter, List.nil_append]
    exact hrest.complaints

/-- Changes that need no parameter are read back whatever parameters there are. -/
theorem readBack_free (hfair : ∀ mc ∈ cs, mc.Fair find) (hfree : ∀ mc ∈ cs, ¬mc.Needs)
    (hsign : sign = none ∨ sign = some adding) : ReadsBack find name adding params sign cs := by
  induction cs generalizing sign adding params with
  | nil => exact ⟨.nil, rfl⟩
  | cons mc cs ih =>
    refine ReadsBack.cons (hfair mc List.mem_cons_self)
      (fun hneeds => absurd hneeds (hfree mc List.mem_cons_self)) hsign (ih ?_ ?_ (Or.inr rfl))
    · exact fun mc' hmc' => hfair mc' (List.mem_cons_of_mem _ hmc')
    · exact fun mc' hmc' => hfree mc' (List.mem_cons_of_mem _ hmc')

/-- What is needed is written. -/
theorem countP_needs_le (hfind : FindsWords find) (hfair : ∀ mc ∈ cs, mc.Fair find) :
    (cs.countP fun mc => decide mc.Needs) ≤ (written cs).length := by
  rw [written, ← List.countP_eq_length_filter, List.countP_map]
  refine List.countP_mono_left fun mc hmc hneeds => ?_
  exact decide_eq_true ((hfair mc hmc).ne_nil hfind (of_decide_eq_true hneeds))

/-- Nothing else is written, where no `-k` has a parameter. -/
theorem length_written_of_bare (hfair : ∀ mc ∈ cs, mc.Fair find)
    (hbare : ∀ mc ∈ cs, mc.IsNoKey → mc.param = []) :
    (written cs).length ≤ cs.countP fun mc => decide mc.Needs := by
  rw [written, ← List.countP_eq_length_filter, List.countP_map]
  refine List.countP_mono_left fun mc hmc hne => ?_
  have hne : mc.param ≠ [] := of_decide_eq_true hne
  exact decide_eq_true (((hfair mc hmc).needs_or hne).resolve_right fun hno => hne (hbare mc hmc hno))

omit [Libcpp] in
theorem written_cons : written (mc :: cs) =
    if mc.param ≠ [] then mc.param :: written cs else written cs := by
  by_cases hparam : mc.param = []
  · rw [if_neg (not_not.mpr hparam), written, List.map_cons,
      List.filter_cons_of_neg (by simpa using hparam), written]
  · rw [if_pos hparam, written, List.map_cons, List.filter_cons_of_pos (by simpa using hparam),
      written]

/-- **A group of changes is read back** from what was written of it: the changes `g₁`, whose
parameters are single words, and behind them changes `g₂` that need none. -/
theorem readBack (hfind : FindsWords find) (hfair : ∀ mc ∈ g₁ ++ g₂, mc.Fair find)
    (hfree : ∀ mc ∈ g₂, ¬mc.Needs) (hord : g₁.Pairwise Orderly)
    (hsign : sign = none ∨ sign = some adding) {more : List Str}
    (hmore : (∃ mc ∈ g₁, mc.IsNoKey ∧ mc.param = []) → more = []) :
    ReadsBack find name adding (written g₁ ++ more) sign (g₁ ++ g₂) := by
  induction g₁ generalizing sign adding with
  | nil => exact readBack_free hfair hfree hsign
  | cons mc g₁ ih =>
    have hmc := hfair mc List.mem_cons_self
    have hfair' : ∀ mc ∈ g₁ ++ g₂, mc.Fair find := fun mc' hmc' => hfair mc' (List.mem_cons_of_mem _ hmc')
    have hfair₁ : ∀ mc ∈ g₁, mc.Fair find := fun mc' hmc' => hfair' mc' (List.mem_append_left _ hmc')
    obtain ⟨hfirst, hord'⟩ := List.pairwise_cons.mp hord
    have hrest : ReadsBack find name mc.adding (written g₁ ++ more) (some mc.adding) (g₁ ++ g₂) :=
      ih hfair' hord' (Or.inr rfl) fun ⟨mc', hmem, hno⟩ => hmore ⟨mc', List.mem_cons_of_mem _ hmem, hno⟩
    have howed : owed letterNeed (modeLetters mc.adding (modesOf (some mc.adding) (g₁ ++ g₂))) =
        g₁.countP fun mc => decide mc.Needs := by
      have hnone : (g₂.countP fun mc => decide mc.Needs) = 0 :=
        List.countP_eq_zero.mpr fun mc hmc hneeds => hfree mc hmc (of_decide_eq_true hneeds)
      rw [owed_modesOf hfair' (Or.inr rfl), List.countP_append, hnone, Nat.add_zero]
    rw [List.cons_append]
    by_cases hparam : mc.param = []
    · -- nothing was written of it, and nothing is taken
      rw [written_cons, if_neg (not_not.mpr hparam)]
      refine ReadsBack.cons hmc (fun hneeds => absurd hparam (hmc.ne_nil hfind hneeds)) hsign ?_
      rw [if_neg]
      · exact hrest
      rintro (hneeds | ⟨hmay, hlt⟩)
      · exact hmc.ne_nil hfind hneeds hparam
      · have hno : mc.IsNoKey := by
          rw [letterNeed] at hmay
          split_ifs at hmay with h₁ h₂
          refine ⟨?_, h₂⟩
          by_contra hadding
          exact h₁ (Or.inr ⟨Or.inl h₂, eq_true_of_ne_false hadding⟩)
        have hbare : ∀ mc' ∈ g₁, mc'.IsNoKey → mc'.param = [] :=
          fun mc' hmem => (hfirst mc' hmem).bare hno hparam
        have hle := length_written_of_bare hfair₁ hbare
        rw [howed, hmore ⟨mc, List.mem_cons_self, hno, hparam⟩, List.append_nil] at hlt
        omega
    · -- its parameter was written, and is the next
      rw [written_cons, if_pos hparam, List.cons_append]
      refine ReadsBack.cons hmc (fun _ => rfl) hsign ?_
      rw [if_pos]
      · exact hrest
      rcases hmc.needs_or hparam with hneeds | hno
      · exact Or.inl hneeds
      · refine Or.inr ⟨?_, ?_⟩
        · rw [hno.1, hno.2]
          rfl
        · have hle := countP_needs_le hfind hfair₁
          rw [howed, List.length_cons, List.length_append]
          omega

/-! ### Reading a line back -/

omit [Libcpp] in
/-- The parameters on a line, as they are written. -/
theorem paramsText_eq : paramsText cs = spaced (written cs) := by
  induction cs with
  | nil => rfl
  | cons mc cs ih =>
    have hcons : paramsText (mc :: cs) = (if mc.param ≠ [] then SPACE :: mc.param else []) ++
        paramsText cs := rfl
    rw [hcons, ih, written_cons]
    split_ifs
    · rfl
    · rfl

/-- **A parameter that is needed is a word.** -/
theorem ModeChange.Fair.isWord (hfind : FindsWords find) (h : mc.Fair find) (hneeds : mc.Needs) :
    IsWord mc.param := by
  cases h with
  | flag | noLimit => exact IsWord.nil
  | noKey => exact absurd hneeds (by simp [Needs, letterNeed])
  | key key hvalid =>
    rintro c hc rfl
    simp only [isValidChannelKey, Bool.and_eq_true, List.all_eq_true] at hvalid
    exact absurd (hvalid.2 SPACE hc) (by decide)
  | operator adding nick hnick => exact (hfind nick nick hnick).2.word
  | limit n hn =>
    show IsWord (Libcpp.toDecimal n)
    rw [Libcpp.toDecimal_eq]
    exact IsWord.signedDecimal n

/-- It is a middle parameter, if keys do not begin with a colon. -/
theorem ModeChange.Fair.isMiddle (hfind : FindsWords find) (h : mc.Fair find) (hneeds : mc.Needs)
    (hkey : mc.letter = 107 → mc.adding = true → mc.param.head? ≠ some COLON) :
    IsMiddle mc.param := by
  refine ⟨h.ne_nil hfind hneeds, h.isWord hfind hneeds, ?_⟩
  cases h with
  | flag | noLimit => simp
  | noKey => exact absurd hneeds (by simp [Needs, letterNeed])
  | key key => exact hkey rfl rfl
  | operator adding nick hnick => exact (hfind nick nick hnick).2.head
  | limit n hn =>
    intro (hhead : (Libcpp.toDecimal n).head? = some COLON)
    have hvalue := ((Libcpp.parseLong_iff _ _ _ _).mp hn).1
    obtain ⟨rest, hrest⟩ : ∃ rest, Libcpp.toDecimal n = COLON :: rest :=
      List.head?_eq_some_iff.mp hhead
    rw [hrest] at hvalue
    simp [signedValue, digitsValue, COLON, isDigitOctet] at hvalue

/-- **What is written of a group is read back**, if there are not more parameters than a
line can hold. -/
theorem readBack_group (hfind : FindsWords find) (hfair : ∀ mc ∈ g, mc.Fair find) (hord : g.Pairwise Orderly)
    (hkeys : ∀ mc ∈ g, mc.letter = 107 → mc.adding = true → mc.param.head? ≠ some COLON) {n : ℕ}
    (hlen : (written g).length ≤ n + 1) :
    ReadsBack find name true (tokens n (paramsText g)) none g := by
  have hmiddle : ∀ cs : List ModeChange, (∀ mc ∈ cs, mc.param ≠ [] → IsMiddle mc.param) →
      ∀ w ∈ written cs, IsMiddle w := by
    intro cs hall w hw
    obtain ⟨hw, hne⟩ := List.mem_filter.mp hw
    obtain ⟨mc, hmc, rfl⟩ := List.mem_map.mp hw
    exact hall mc hmc (of_decide_eq_true hne)
  rcases hodd : g.find? fun mc => decide (mc.param ≠ [] ∧ ¬IsMiddle mc.param) with _ | odd
  · -- every parameter is a single word
    have hall : ∀ mc ∈ g, mc.param ≠ [] → IsMiddle mc.param := by
      intro mc hmc hne
      by_contra hcon
      exact List.find?_eq_none.mp hodd mc hmc (decide_eq_true ⟨hne, hcon⟩)
    have hread : ReadsBack find name true (written g ++ []) none (g ++ []) :=
      readBack hfind (by simpa using hfair) (by simp) hord (Or.inl rfl) fun _ => rfl
    rw [List.append_nil, List.append_nil] at hread
    rw [paramsText_eq, tokens_spaced (hmiddle g hall) hlen]
    exact hread
  · -- the parameter of a `-k` is the last, and more or less than a word
    obtain ⟨hthis, g₁, g₂, rfl, hbefore⟩ := List.find?_eq_some_iff_append.mp hodd
    obtain ⟨hne, hnot⟩ := of_decide_eq_true hthis
    have hoddfair := hfair odd (by simp)
    have hoddfree : ¬odd.Needs := fun hneeds =>
      hnot (hoddfair.isMiddle hfind hneeds (hkeys odd (by simp)))
    have hno : odd.IsNoKey := (hoddfair.needs_or hne).resolve_left hoddfree
    obtain ⟨hord₁, hord₂, hcross⟩ := List.pairwise_append.mp hord
    have hbehind : ∀ mc ∈ g₂, ¬mc.Needs ∧ mc.param = [] := by
      intro mc hmc
      obtain ⟨hfree, hbare⟩ := ((List.pairwise_cons.mp hord₂).1 mc hmc).odd hno hne hnot
      refine ⟨hfree, ?_⟩
      by_contra hparam
      exact hparam (hbare (((hfair mc (by simp [hmc])).needs_or hparam).resolve_left hfree))
    have hwritten : written (g₁ ++ odd :: g₂) = written g₁ ++ [odd.param] := by
      have hnone : written g₂ = [] := List.filter_eq_nil_iff.mpr fun w hw => by
        obtain ⟨mc, hmc, rfl⟩ := List.mem_map.mp hw
        simpa using (hbehind mc hmc).2
      have happ : written (g₁ ++ odd :: g₂) = written g₁ ++ written (odd :: g₂) := by
        simp [written]
      rw [happ, written_cons, if_pos hne, hnone]
    have htext : paramsText (g₁ ++ odd :: g₂) = spaced (written g₁) ++ SPACE :: odd.param := by
      rw [paramsText_eq, hwritten]
      simp [spaced]
    have hwords : ∀ w ∈ written g₁, IsMiddle w := hmiddle g₁ fun mc hmc hparam => by
      by_contra hcon
      have hskip := hbefore mc hmc
      simp [hparam, hcon] at hskip
    rw [hwritten, List.length_append, List.length_singleton] at hlen
    rw [htext, tokens_spaced_append _ hwords (by omega) (by simp)]
    refine readBack hfind hfair ?_ hord₁ (Or.inl rfl) ?_
    · intro mc hmc
      rcases List.mem_cons.mp hmc with rfl | hmc
      · exact hoddfree
      · exact (hbehind mc hmc).1
    · rintro ⟨mc, hmc, hnokey, hbare⟩
      exact absurd ((hcross mc hmc odd List.mem_cons_self).bare hnokey hbare hno) hne

end FtIrc
