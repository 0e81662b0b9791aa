import FtIrc.Grammar.Builder

/-!
# What a grammar text says

The parsers of `FtIrc.Abnf.parseAlternation` do two things at once: they find out what is written,
and they write it down as nodes. Here the two are taken apart. What is written is a tree
(`FtIrc.Abnf.Body`), with the digits of its numbers as they stand in the text, and it is found
without looking at a number or at a grammar (`FtIrc.Abnf.spellAlternation`); the nodes of a tree are
written in one go (`FtIrc.Abnf.Body.write`). A text compiles when its trees are found and written,
and to the grammar they are written to (`FtIrc.Abnf.compile_eq_ok_iff`).
-/

namespace FtIrc

namespace Abnf

/-! ### Trees -/

/-- The bounds of a repetition, as the digits before and behind its star. -/
inductive Bounds
  /-- `n element`. -/
  | exactly (times : Str)
  /-- `n*m element`, where both may be left out. -/
  | between (least most : Str)

/-- **A rule body as it is written.** Groups leave no trace: they only say what belongs together. -/
inductive Body
  /-- A name, or one to be captured. -/
  | reference (captured : Bool) (name : Str)
  /-- A quoted text. -/
  | literal (text : Str)
  /-- `%x` with its digits, and those behind the dash if there is one. -/
  | octets (low : Str) (high : Option Str)
  | sequence (parts : List Body)
  | alternation (branches : List Body)
  | option (body : Body)
  | repetition (bounds : Bounds) (body : Body)

/-- Several parts as one, which is the part if there is only one. -/
def Body.joined (join : List Body → Body) : List Body → Body
  | [part] => part
  | parts => join parts

/-- What holds of all trees if it holds of a tree whenever it holds of what it is made of. -/
theorem Body.induction_parts {P : Body → Prop} (reference : ∀ captured name, P (.reference captured name))
    (literal : ∀ text, P (.literal text)) (octets : ∀ low high, P (.octets low high))
    (sequence : ∀ parts, (∀ b ∈ parts, P b) → P (.sequence parts))
    (alternation : ∀ branches, (∀ b ∈ branches, P b) → P (.alternation branches))
    (option : ∀ body, P body → P (.option body))
    (repetition : ∀ bounds body, P body → P (.repetition bounds body)) (b : Body) : P b := by
  refine @Body.rec P (fun parts => ∀ b ∈ parts, P b) reference literal octets
    (fun parts ih => sequence parts ih) (fun branches ih => alternation branches ih)
    (fun body ih => option body ih) (fun bounds body ih => repetition bounds body ih) ?_ ?_ b
  · exact fun b hb => absurd hb List.not_mem_nil
  · intro head tail hhead htail b hb
    rcases List.mem_cons.mp hb with rfl | hb
    · exact hhead
    · exact htail b hb

/-! ### Finding the tree -/

/-- The bounds at the beginning of a text, if there are any. -/
def spellBounds (s : Str) : Option Bounds × Str :=
  if s.head?.any isDigitOctet ∨ s.head? = some STAR then
    let before := s.takeWhile isDigitOctet
    let s := s.dropWhile isDigitOctet
    if s.head? = some STAR then
      (some (.between before (s.tail.takeWhile isDigitOctet)), s.tail.dropWhile isDigitOctet)
    else (some (.exactly before), s)
  else (none, s)

/-- The digits behind a dash. -/
def spellUpper (s : Str) : Option (Option Str × Str) :=
  if s.head? = some DASH then
    if s.tail.takeWhile isHexDigit = [] then none
    else some (some (s.tail.takeWhile isHexDigit), s.tail.dropWhile isHexDigit)
  else some (none, s)

/-- Ranges of octets with dots between them. -/
def spellPieces : ℕ → Str → Option (List Body × Str)
  | 0, _ => none
  | k + 1, s =>
    if s.takeWhile isHexDigit = [] then none
    else do
      let (high, rest) ← spellUpper (s.dropWhile isHexDigit)
      if rest.head? = some DOT then
        let (more, rest) ← spellPieces k rest.tail
        some (.octets (s.takeWhile isHexDigit) high :: more, rest)
      else some ([.octets (s.takeWhile isHexDigit) high], rest)

/-- What stands behind a percent sign. -/
def spellNumeric (s : Str) : Option (Body × Str) :=
  if s.head? = some 120 ∨ s.head? = some 88 then do
    let (pieces, rest) ← spellPieces (s.length + 1) s.tail
    some (.joined .sequence pieces, rest)
  else none

/-- What closes a group or an option. -/
def spellClose (close : Octet) (s : Str) : Option Str :=
  if (skipBlanks s).head? = some close then some (skipBlanks s).tail else none

mutual

/-- The element at the beginning of a text, and what is behind it. -/
def spellElement : ℕ → Str → Option (Body × Str)
  | 0, _ => none
  | k + 1, s =>
    match skipBlanks s with
    | [] => none
    | c :: rest =>
      if c = LPAREN then do
        let (branches, s) ← spellAlternation k rest
        let s ← spellClose RPAREN s
        some (.joined .alternation branches, s)
      else if c = LBRACKET then do
        let (branches, s) ← spellAlternation k rest
        let s ← spellClose RBRACKET s
        some (.option (.joined .alternation branches), s)
      else if c = QUOTE then
        match rest.dropWhile (· != QUOTE) with
        | [] => none
        | _ :: s => some (.literal (rest.takeWhile (· != QUOTE)), s)
      else if c = PERCENT then spellNumeric rest
      else if c = DOLLAR then
        let s := skipBlanks rest
        if s.head?.any isAlphaOctet then some (.reference true (s.takeWhile isRuleChar), s.dropWhile isRuleChar)
        else none
      else if isAlphaOctet c then
        some (.reference false ((c :: rest).takeWhile isRuleChar), (c :: rest).dropWhile isRuleChar)
      else none

/-- An element with the bounds before it. -/
def spellRepetition : ℕ → Str → Option (Body × Str)
  | 0, _ => none
  | k + 1, s => do
    let (body, rest) ← spellElement k (spellBounds (skipBlanks s)).2
    match (spellBounds (skipBlanks s)).1 with
    | none => some (body, rest)
    | some bounds => some (.repetition bounds body, rest)

/-- The repetitions up to where a concatenation ends. -/
def spellConcatenation : ℕ → Str → Option (List Body × Str)
  | 0, _ => none
  | k + 1, s =>
    if endsConcatenation (skipBlanks s) then some ([], skipBlanks s)
    else do
      let (part, rest) ← spellRepetition k (skipBlanks s)
      let (parts, rest) ← spellConcatenation k rest
      some (part :: parts, rest)

/-- The branches of an alternation. -/
def spellAlternation : ℕ → Str → Option (List Body × Str)
  | 0, _ => none
  | k + 1, s => do
    let (parts, rest) ← spellConcatenation k s
    if parts.isEmpty then none
    else if (skipBlanks rest).head? = some SLASH then
      let (branches, rest) ← spellAlternation k (skipBlanks rest).tail
      some (.joined .sequence parts :: branches, rest)
    else some ([.joined .sequence parts], skipBlanks rest)

end

/-- A line of a grammar: what it defines, or adds an alternative to. -/
structure RuleText where
  name : Str
  incremental : Bool
  body : Body

/-- The rule of a line, which has none if it is blank. -/
def spellRule (line : Str) : Option (List RuleText) :=
  let s := skipBlanks line
  if s = [] then some []
  else if s.head?.any isAlphaOctet then
    let name := s.takeWhile isRuleChar
    let s := skipBlanks (s.dropWhile isRuleChar)
    if s.head? = some EQUALS then do
      let incremental := decide (s.tail.head? = some SLASH)
      let s := if incremental then s.tail.tail else s.tail
      let (branches, s) ← spellAlternation (parseFuel s) s
      if skipBlanks s = [] then some [⟨name, incremental, .joined .alternation branches⟩] else none
    else none
  else none

/-- **The rules of a text.** -/
def spellText (text : Str) : Option (List RuleText) := do
  let lines ← (readLines text).toOption
  let rules ← lines.mapM fun line => spellRule line.text
  some rules.flatten

/-! ### Writing the nodes -/

/-- The bounds a repetition is stored with, unless they run backwards. -/
def Bounds.read (num : Numbers) : Bounds → Option (ℤ × ℤ)
  | .exactly times => some (num.count times, num.count times)
  | .between least most =>
    let low := if least = [] then 0 else num.count least
    let high := if most = [] then kUnbounded else num.count most
    if high ≠ kUnbounded ∧ high < low then none else some (low, high)

/-- The upper end of a range of octets, which is the lower one if none is written. -/
def Numbers.upper (num : Numbers) (low : Str) : Option Str → ℤ
  | none => num.octet low
  | some high => num.octet high

/-- The node of a repetition. -/
def repetitionNode (bounds : ℤ × ℤ) : GrammarNode := { kind := .repetition, lo := bounds.1, hi := bounds.2 }

/-- The node of a range of octets. -/
def octetNode (low high : ℤ) : GrammarNode := { kind := .octetRange, lo := low, hi := high }

mutual

/-- **A tree is written down**, its parts before itself. -/
def Body.write (num : Numbers) : Body → Grammar → Option (ℕ × Grammar)
  | .reference captured name, g => some (g.addReference captured name)
  | .literal text, g => some (g.addLiteral text)
  | .octets low high, g =>
    if num.upper low high < num.octet low then none
    else some (g.addNode (octetNode (num.octet low) (num.upper low high)))
  | .sequence parts, g => do
    let (made, g) ← writeAll num parts g
    some (g.addParent { kind := .sequence } made)
  | .alternation branches, g => do
    let (made, g) ← writeAll num branches g
    some (g.addParent { kind := .alternation } made)
  | .option body, g => do
    let (made, g) ← body.write num g
    some (g.addParent (repetitionNode (0, 1)) [made])
  | .repetition bounds body, g => do
    let read ← bounds.read num
    let (made, g) ← body.write num g
    some (g.addParent (repetitionNode read) [made])

/-- Trees are written down one after the other. -/
def writeAll (num : Numbers) : List Body → Grammar → Option (List ℕ × Grammar)
  | [], g => some ([], g)
  | b :: bs, g => do
    let (made, g) ← b.write num g
    let (more, g) ← writeAll num bs g
    some (made :: more, g)

end

/-- A rule is written down, and takes effect. -/
def RuleText.write (num : Numbers) (g : Grammar) (r : RuleText) : Option Grammar := do
  let (body, g') ← r.body.write num (g.internRule r.name).2
  (g'.define (g.internRule r.name).1 r.name r.incremental body).toOption

/-- All rules are written down. -/
def writeRules (num : Numbers) (rules : List RuleText) (g : Grammar) : Option Grammar :=
  rules.foldlM (RuleText.write num) g

variable {num : Numbers} {k : ℕ} {s s' : Str} {g g' : Grammar} {bs cs : List Body} {out : ℕ}

theorem bind_eq_ok {α β : Type} {x : Except Str α} {f : α → Except Str β} {b : β} :
    (x >>= f) = .ok b ↔ ∃ a, x = .ok a ∧ f a = .ok b := by
  cases x with
  | error e => exact ⟨fun h => (nomatch h), fun ⟨_, h, _⟩ => (nomatch h)⟩
  | ok a =>
    constructor
    · exact fun h => ⟨a, rfl, h⟩
    · rintro ⟨_, ⟨⟩, h⟩
      exact h

theorem writeAll_eq_some_cons {b : Body} {made : List ℕ × Grammar} :
    writeAll num (b :: bs) g = some made ↔ ∃ first more, b.write num g = some first ∧
      writeAll num bs first.2 = some more ∧ made = (first.1 :: more.1, more.2) := by
  rw [writeAll]
  constructor
  · intro h
    obtain ⟨first, hfirst, h⟩ := Option.bind_eq_some_iff.mp h
    obtain ⟨more, hmore, h⟩ := Option.bind_eq_some_iff.mp h
    exact ⟨first, more, hfirst, hmore, (Option.some.inj h).symm⟩
  · rintro ⟨⟨first, g₁⟩, more, hfirst, hmore, rfl⟩
    simp only [hfirst, Option.bind_eq_bind, Option.bind_some, hmore]

theorem toOption_eq_some {ε α : Type} {x : Except ε α} {a : α} : x.toOption = some a ↔ x = .ok a := by
  cases x <;> simp [Except.toOption]

theorem mapError_eq_ok {ε ε' α : Type} {f : ε → ε'} {x : Except ε α} {a : α} :
    x.mapError f = .ok a ↔ x = .ok a := by
  cases x <;> simp [Except.mapError]

/-- Several parts are written as the parts, and one node for them if there are several. -/
theorem write_joined {kind : Kind} {join : List Body → Body}
    (hjoin : ∀ bs g, (join bs).write num g = (writeAll num bs g).map fun made =>
      made.2.addParent { kind := kind } made.1) (bs : List Body) (g : Grammar) :
    (Body.joined join bs).write num g = (writeAll num bs g).map fun made => made.2.bundle kind made.1 := by
  rcases bs with _ | ⟨b, _ | ⟨b', bs⟩⟩
  · exact hjoin [] g
  · rw [Body.joined, writeAll]
    rcases b.write num g with _ | ⟨made, g⟩ <;> rfl
  · refine (hjoin (b :: b' :: bs) g).trans (Option.map_congr fun made hmade => ?_)
    obtain ⟨first, more, -, hmore, rfl⟩ := writeAll_eq_some_cons.mp hmade
    obtain ⟨second, rest, -, -, rfl⟩ := writeAll_eq_some_cons.mp hmore
    rfl

theorem write_joined_sequence (bs : List Body) (g : Grammar) :
    (Body.joined .sequence bs).write num g =
      (writeAll num bs g).map fun made => made.2.bundle .sequence made.1 :=
  write_joined (fun bs g => by rw [Body.write]; rcases writeAll num bs g with _ | ⟨made, g⟩ <;> rfl) bs g

theorem write_joined_alternation (bs : List Body) (g : Grammar) :
    (Body.joined .alternation bs).write num g =
      (writeAll num bs g).map fun made => made.2.bundle .alternation made.1 :=
  write_joined (fun bs g => by rw [Body.write]; rcases writeAll num bs g with _ | ⟨made, g⟩ <;> rfl) bs g

/-! ### The parsers find the tree and write it -/

theorem parseClose_eq_ok_iff {close : Octet} {message : String} :
    parseClose close message s = .ok s' ↔ spellClose close s = some s' := by
  rw [parseClose, spellClose]
  by_cases hclose : (skipBlanks s).head? = some close <;> simp [hclose]

theorem parseBounds_eq_ok_iff {bounds : Option (ℤ × ℤ)} :
    parseBounds num s = .ok (bounds, s') ↔ (spellBounds s).2 = s' ∧
      match (spellBounds s).1 with
      | none => bounds = none
      | some written => ∃ read, written.read num = some read ∧ bounds = some read := by
  rw [parseBounds, spellBounds]
  by_cases hany : s.head?.any isDigitOctet ∨ s.head? = some STAR
  · rw [if_pos hany, if_pos hany]
    dsimp only
    by_cases hstar : (s.dropWhile isDigitOctet).head? = some STAR
    · rw [if_pos hstar, if_pos hstar]
      dsimp only [Bounds.read]
      split_ifs <;> simp [and_comm, eq_comm]
    · rw [if_neg hstar, if_neg hstar]
      simp [Bounds.read, and_comm, eq_comm]
  · rw [if_neg hany, if_neg hany]
    simp [and_comm, eq_comm]

theorem parseUpper_eq_ok_iff {low : Str} {high : ℤ} :
    parseUpper num (num.octet low) s = .ok (high, s') ↔
      ∃ upper, spellUpper s = some (upper, s') ∧ num.upper low upper = high ∧ ¬ high < num.octet low := by
  rw [parseUpper, spellUpper]
  by_cases hdash : s.head? = some DASH
  · rw [if_pos hdash, if_pos hdash]
    by_cases hnone : s.tail.takeWhile isHexDigit = []
    · simp [hnone]
    · rw [if_neg hnone, if_neg hnone]
      by_cases hlt : num.octet (s.tail.takeWhile isHexDigit) < num.octet low
      · rw [if_pos hlt]
        constructor
        · exact fun h => (nomatch h)
        · rintro ⟨upper, h, rfl, hle⟩
          obtain ⟨rfl, -⟩ := Prod.mk.inj (Option.some.inj h)
          exact absurd hlt hle
      · rw [if_neg hlt]
        constructor
        · intro h
          obtain ⟨rfl, rfl⟩ := Prod.mk.inj (Except.ok.inj h)
          exact ⟨_, rfl, rfl, hlt⟩
        · rintro ⟨upper, h, rfl, -⟩
          obtain ⟨rfl, rfl⟩ := Prod.mk.inj (Option.some.inj h)
          rfl
  · rw [if_neg hdash, if_neg hdash]
    constructor
    · intro h
      obtain ⟨rfl, rfl⟩ := Prod.mk.inj (Except.ok.inj h)
      exact ⟨none, rfl, rfl, lt_irrefl _⟩
    · rintro ⟨upper, h, rfl, -⟩
      obtain ⟨rfl, rfl⟩ := Prod.mk.inj (Option.some.inj h)
      rfl

theorem write_octets {low : Str} {high : Option Str} {made : ℕ × Grammar} :
    (Body.octets low high).write num g = some made ↔ ¬ num.upper low high < num.octet low ∧
      g.addNode (octetNode (num.octet low) (num.upper low high)) = made := by
  rw [Body.write]
  by_cases h : num.upper low high < num.octet low <;> simp [h]

theorem parsePieces_eq_ok_iff {ids all : List ℕ} :
    parsePieces num k s g ids = .ok (all, s', g') ↔
      ∃ bs made, spellPieces k s = some (bs, s') ∧ writeAll num bs g = some made ∧
        all = ids ++ made.1 ∧ g' = made.2 := by
  induction k generalizing s g ids with
  | zero => simp [parsePieces, spellPieces]
  | succ k ih =>
    rw [parsePieces, spellPieces]
    dsimp only
    by_cases hnone : s.takeWhile isHexDigit = []
    · simp [hnone]
    rw [if_neg hnone, if_neg hnone, bind_eq_ok]
    constructor
    · rintro ⟨⟨high, rest⟩, hupper, h⟩
      obtain ⟨upper, hspell, rfl, hle⟩ := parseUpper_eq_ok_iff.mp hupper
      dsimp only at h
      have hwrite : (Body.octets (s.takeWhile isHexDigit) upper).write num g = some _ :=
        write_octets.mpr ⟨hle, rfl⟩
      by_cases hdot : rest.head? = some DOT
      · rw [if_pos hdot, ih] at h
        obtain ⟨bs, made, hrest, hmade, rfl, rfl⟩ := h
        refine ⟨_ :: bs, _, ?_, writeAll_eq_some_cons.mpr ⟨_, made, hwrite, hmade, rfl⟩,
          List.append_assoc _ _ _, rfl⟩
        simp [hspell, hdot, hrest]
      · rw [if_neg hdot] at h
        obtain ⟨rfl, hrest⟩ := Prod.mk.inj (Except.ok.inj h)
        obtain ⟨rfl, rfl⟩ := Prod.mk.inj hrest
        refine ⟨[_], _, ?_, writeAll_eq_some_cons.mpr ⟨_, _, hwrite, rfl, rfl⟩, rfl, rfl⟩
        simp [hspell, hdot]
    · rintro ⟨bs, made, hspell, hmade, rfl, rfl⟩
      obtain ⟨⟨upper, rest⟩, hupper, hspell⟩ := Option.bind_eq_some_iff.mp hspell
      dsimp only at hspell
      by_cases hdot : rest.head? = some DOT
      · rw [if_pos hdot] at hspell
        obtain ⟨⟨more, rest'⟩, hmore, hspell⟩ := Option.bind_eq_some_iff.mp hspell
        obtain ⟨rfl, rfl⟩ := Prod.mk.inj (Option.some.inj hspell)
        obtain ⟨first, others, hfirst, hothers, rfl⟩ := writeAll_eq_some_cons.mp hmade
        obtain ⟨hle, rfl⟩ := write_octets.mp hfirst
        refine ⟨(_, rest), parseUpper_eq_ok_iff.mpr ⟨upper, hupper, rfl, hle⟩, ?_⟩
        dsimp only
        rw [if_pos hdot, ih]
        exact ⟨more, others, hmore, hothers, List.append_cons _ _ _, rfl⟩
      · rw [if_neg hdot] at hspell
        obtain ⟨rfl, rfl⟩ := Prod.mk.inj (Option.some.inj hspell)
        obtain ⟨first, others, hfirst, hothers, rfl⟩ := writeAll_eq_some_cons.mp hmade
        obtain ⟨hle, rfl⟩ := write_octets.mp hfirst
        refine ⟨(_, rest), parseUpper_eq_ok_iff.mpr ⟨upper, hupper, rfl, hle⟩, ?_⟩
        dsimp only
        rw [if_neg hdot]
        rw [writeAll] at hothers
        obtain rfl := Option.some.inj hothers
        rfl

theorem parseNumericValue_eq_ok_iff :
    parseNumericValue num s g = .ok (out, s', g') ↔
      ∃ b, spellNumeric s = some (b, s') ∧ b.write num g = some (out, g') := by
  rw [parseNumericValue, spellNumeric]
  by_cases hx : s.head? = some 120 ∨ s.head? = some 88
  · rw [if_pos hx, if_pos hx, bind_eq_ok]
    constructor
    · rintro ⟨⟨ids, rest, g₁⟩, hpieces, h⟩
      obtain ⟨bs, made, hspell, hmade, rfl, rfl⟩ := parsePieces_eq_ok_iff.mp hpieces
      obtain ⟨hout, h⟩ := Prod.mk.inj (Except.ok.inj h)
      obtain ⟨rfl, hg⟩ := Prod.mk.inj h
      refine ⟨.joined .sequence bs, by simp [hspell], ?_⟩
      rw [write_joined_sequence, hmade, Option.map_some]
      exact congrArg some (Prod.ext hout hg)
    · rintro ⟨b, h, hwrite⟩
      obtain ⟨⟨bs, rest⟩, hspell, h⟩ := Option.bind_eq_some_iff.mp h
      obtain ⟨rfl, rfl⟩ := Prod.mk.inj (Option.some.inj h)
      rw [write_joined_sequence] at hwrite
      obtain ⟨made, hmade, hbundle⟩ := Option.map_eq_some_iff.mp hwrite
      refine ⟨_, parsePieces_eq_ok_iff.mpr ⟨bs, made, hspell, hmade, rfl, rfl⟩, ?_⟩
      simp only [List.nil_append, hbundle]
      rfl
  · rw [if_neg hx, if_neg hx]
    simp

/-- What the parsers of all levels have to do with the trees of theirs. -/
structure ParsesTrees (num : Numbers) (k : ℕ) : Prop where
  element : ∀ {s s' g g' out}, parseElement num k s g = .ok (out, s', g') ↔
    ∃ b, spellElement k s = some (b, s') ∧ b.write num g = some (out, g')
  repetition : ∀ {s s' g g' out}, parseRepetition num k s g = .ok (out, s', g') ↔
    ∃ b, spellRepetition k s = some (b, s') ∧ b.write num g = some (out, g')
  concatenation : ∀ {s s' g g' out ids}, parseConcatenation num k s g ids = .ok (out, s', g') ↔
    ∃ bs made, spellConcatenation k s = some (bs, s') ∧ writeAll num bs g = some made ∧
      ids ++ made.1 ≠ [] ∧ made.2.bundle .sequence (ids ++ made.1) = (out, g')
  alternation : ∀ {s s' g g' out ids}, parseAlternation num k s g ids = .ok (out, s', g') ↔
    ∃ bs made, spellAlternation k s = some (bs, s') ∧ writeAll num bs g = some made ∧
      made.2.bundle .alternation (ids ++ made.1) = (out, g')

variable (ih : ParsesTrees num k)
include ih

/-- What is in parentheses or brackets. -/
theorem ParsesTrees.body : parseAlternation num k s g [] = .ok (out, s', g') ↔
    ∃ bs, spellAlternation k s = some (bs, s') ∧
      (Body.joined .alternation bs).write num g = some (out, g') := by
  rw [ih.alternation]
  constructor
  · rintro ⟨bs, made, hspell, hmade, hbundle⟩
    refine ⟨bs, hspell, ?_⟩
    rw [write_joined_alternation, hmade, Option.map_some]
    exact congrArg some hbundle
  · rintro ⟨bs, hspell, hwrite⟩
    rw [write_joined_alternation] at hwrite
    obtain ⟨made, hmade, hbundle⟩ := Option.map_eq_some_iff.mp hwrite
    exact ⟨bs, made, hspell, hmade, hbundle⟩

theorem ParsesTrees.element_succ : parseElement num (k + 1) s g = .ok (out, s', g') ↔
    ∃ b, spellElement (k + 1) s = some (b, s') ∧ b.write num g = some (out, g') := by
  rw [parseElement, spellElement]
  rcases skipBlanks s with _ | ⟨c, rest⟩
  · simp
  dsimp only
  by_cases hparen : c = LPAREN
  · rw [if_pos hparen, if_pos hparen, bind_eq_ok]
    constructor
    · rintro ⟨⟨o, s₁, g₁⟩, hinner, hdone⟩
      obtain ⟨s₂, hclose, hdone⟩ := bind_eq_ok.mp hdone
      obtain ⟨rfl, hrest⟩ := Prod.mk.inj (Except.ok.inj hdone)
      obtain ⟨rfl, rfl⟩ := Prod.mk.inj hrest
      obtain ⟨bs, hspell, hwrite⟩ := ih.body.mp hinner
      exact ⟨.joined .alternation bs, by simp [hspell, parseClose_eq_ok_iff.mp hclose], hwrite⟩
    · rintro ⟨b, h, hwrite⟩
      obtain ⟨⟨bs, s₁⟩, hspell, h⟩ := Option.bind_eq_some_iff.mp h
      obtain ⟨s₂, hclose, h⟩ := Option.bind_eq_some_iff.mp h
      obtain ⟨rfl, rfl⟩ := Prod.mk.inj (Option.some.inj h)
      exact ⟨_, ih.body.mpr ⟨bs, hspell, hwrite⟩, bind_eq_ok.mpr ⟨_, parseClose_eq_ok_iff.mpr hclose, rfl⟩⟩
  rw [if_neg hparen, if_neg hparen]
  by_cases hbracket : c = LBRACKET
  · rw [if_pos hbracket, if_pos hbracket, bind_eq_ok]
    constructor
    · rintro ⟨⟨o, s₁, g₁⟩, hinner, hdone⟩
      obtain ⟨s₂, hclose, hdone⟩ := bind_eq_ok.mp hdone
      obtain ⟨hout, hrest⟩ := Prod.mk.inj (Except.ok.inj hdone)
      obtain ⟨rfl, hg⟩ := Prod.mk.inj hrest
      obtain ⟨bs, hspell, hwrite⟩ := ih.body.mp hinner
      refine ⟨.option (.joined .alternation bs), by simp [hspell, parseClose_eq_ok_iff.mp hclose], ?_⟩
      rw [Body.write, hwrite]
      exact congrArg some (Prod.ext hout hg)
    · rintro ⟨b, h, hwrite⟩
      obtain ⟨⟨bs, s₁⟩, hspell, h⟩ := Option.bind_eq_some_iff.mp h
      obtain ⟨s₂, hclose, h⟩ := Option.bind_eq_some_iff.mp h
      obtain ⟨rfl, rfl⟩ := Prod.mk.inj (Option.some.inj h)
      rw [Body.write] at hwrite
      obtain ⟨made, hinner, hadd⟩ := Option.bind_eq_some_iff.mp hwrite
      refine ⟨_, ih.body.mpr ⟨bs, hspell, hinner⟩, bind_eq_ok.mpr ⟨_, parseClose_eq_ok_iff.mpr hclose, ?_⟩⟩
      obtain ⟨rfl, rfl⟩ := Prod.mk.inj (Option.some.inj hadd)
      rfl
  rw [if_neg hbracket, if_neg hbracket]
  by_cases hquote : c = QUOTE
  · rw [if_pos hquote, if_pos hquote]
    rcases rest.dropWhile (· != QUOTE) with _ | ⟨q, s₁⟩
    · simp
    · simp only [Except.ok.injEq, Option.some.injEq, Prod.mk.injEq, parsed]
      constructor
      · rintro ⟨rfl, rfl, rfl⟩
        exact ⟨_, ⟨rfl, rfl⟩, rfl⟩
      · rintro ⟨b, ⟨rfl, rfl⟩, hwrite⟩
        obtain ⟨rfl, rfl⟩ := Prod.mk.inj (Option.some.inj hwrite)
        exact ⟨rfl, rfl, rfl⟩
  rw [if_neg hquote, if_neg hquote]
  by_cases hpercent : c = PERCENT
  · rw [if_pos hpercent, if_pos hpercent, parseNumericValue_eq_ok_iff]
  rw [if_neg hpercent, if_neg hpercent]
  have href : ∀ captured t, Except.ok (parseReference captured t g) = (.ok (out, s', g') : Except Str _) ↔
      ∃ b, some (Body.reference captured (t.takeWhile isRuleChar), t.dropWhile isRuleChar) = some (b, s') ∧
        b.write num g = some (out, g') := by
    intro captured t
    simp only [parseReference, Except.ok.injEq, Option.some.injEq, Prod.mk.injEq, parsed]
    constructor
    · rintro ⟨rfl, rfl, rfl⟩
      exact ⟨_, ⟨rfl, rfl⟩, rfl⟩
    · rintro ⟨b, ⟨rfl, rfl⟩, hwrite⟩
      obtain ⟨rfl, rfl⟩ := Prod.mk.inj (Option.some.inj hwrite)
      exact ⟨rfl, rfl, rfl⟩
  by_cases hdollar : c = DOLLAR
  · rw [if_pos hdollar, if_pos hdollar]
    by_cases halpha : (skipBlanks rest).head?.any isAlphaOctet = true
    · rw [if_pos halpha, if_pos halpha, href]
    · rw [if_neg halpha, if_neg halpha]
      simp
  rw [if_neg hdollar, if_neg hdollar]
  by_cases halpha : isAlphaOctet c = true
  · rw [if_pos halpha, if_pos halpha, href]
  · rw [if_neg halpha, if_neg halpha]
    simp

theorem ParsesTrees.repetition_succ : parseRepetition num (k + 1) s g = .ok (out, s', g') ↔
    ∃ b, spellRepetition (k + 1) s = some (b, s') ∧ b.write num g = some (out, g') := by
  rw [parseRepetition, spellRepetition, bind_eq_ok]
  constructor
  · rintro ⟨⟨bounds, s₁⟩, hbounds, h⟩
    obtain ⟨⟨child, s₂, g₂⟩, helement, hdone⟩ := bind_eq_ok.mp h
    obtain ⟨rfl, hread⟩ := parseBounds_eq_ok_iff.mp hbounds
    obtain ⟨b, hspell, hwrite⟩ := ih.element.mp helement
    rcases hwritten : (spellBounds (skipBlanks s)).1 with _ | written
    · rw [hwritten] at hread
      obtain rfl : bounds = none := hread
      obtain ⟨rfl, hrest⟩ := Prod.mk.inj (Except.ok.inj hdone)
      obtain ⟨rfl, rfl⟩ := Prod.mk.inj hrest
      exact ⟨b, by simp [hspell], hwrite⟩
    · rw [hwritten] at hread
      obtain ⟨read, hread, rfl⟩ := hread
      obtain ⟨hout, hrest⟩ := Prod.mk.inj (Except.ok.inj hdone)
      obtain ⟨rfl, hg⟩ := Prod.mk.inj hrest
      refine ⟨.repetition written b, by simp [hspell], ?_⟩
      rw [Body.write, hread, Option.bind_eq_bind, Option.bind_some, hwrite]
      exact congrArg some (Prod.ext hout hg)
  · rintro ⟨b, h, hwrite⟩
    obtain ⟨⟨body, s₁⟩, hspell, h⟩ := Option.bind_eq_some_iff.mp h
    rcases hwritten : (spellBounds (skipBlanks s)).1 with _ | written
    · rw [hwritten] at h
      obtain ⟨rfl, rfl⟩ := Prod.mk.inj (Option.some.inj h)
      refine ⟨(none, _), parseBounds_eq_ok_iff.mpr ⟨rfl, by rw [hwritten]⟩, ?_⟩
      exact bind_eq_ok.mpr ⟨_, ih.element.mpr ⟨_, hspell, hwrite⟩, rfl⟩
    · rw [hwritten] at h
      obtain ⟨rfl, rfl⟩ := Prod.mk.inj (Option.some.inj h)
      rw [Body.write] at hwrite
      obtain ⟨read, hread, hwrite⟩ := Option.bind_eq_some_iff.mp hwrite
      obtain ⟨made, hbody, hadd⟩ := Option.bind_eq_some_iff.mp hwrite
      refine ⟨(some read, _), parseBounds_eq_ok_iff.mpr ⟨rfl, by rw [hwritten]; exact ⟨read, hread, rfl⟩⟩, ?_⟩
      refine bind_eq_ok.mpr ⟨_, ih.element.mpr ⟨_, hspell, hbody⟩, ?_⟩
      obtain ⟨rfl, rfl⟩ := Prod.mk.inj (Option.some.inj hadd)
      rfl

theorem ParsesTrees.concatenation_succ {ids : List ℕ} :
    parseConcatenation num (k + 1) s g ids = .ok (out, s', g') ↔
      ∃ bs made, spellConcatenation (k + 1) s = some (bs, s') ∧ writeAll num bs g = some made ∧
        ids ++ made.1 ≠ [] ∧ made.2.bundle .sequence (ids ++ made.1) = (out, g') := by
  rw [parseConcatenation, spellConcatenation]
  by_cases hend : endsConcatenation (skipBlanks s) = true
  · rw [if_pos hend, if_pos hend]
    by_cases hids : ids = []
    · rw [if_pos hids]
      constructor
      · exact fun h => (nomatch h)
      · rintro ⟨bs, made, hspell, hmade, hne, -⟩
        obtain ⟨rfl, -⟩ := Prod.mk.inj (Option.some.inj hspell)
        rw [writeAll] at hmade
        obtain rfl := Option.some.inj hmade
        exact absurd hids (by simpa using hne)
    · rw [if_neg hids]
      constructor
      · intro h
        obtain ⟨hout, hrest⟩ := Prod.mk.inj (Except.ok.inj h)
        obtain ⟨rfl, hg⟩ := Prod.mk.inj hrest
        refine ⟨[], ([], g), rfl, by rw [writeAll], by simpa using hids, ?_⟩
        rw [List.append_nil]
        exact Prod.ext hout hg
      · rintro ⟨bs, made, hspell, hmade, -, hbundle⟩
        obtain ⟨rfl, rfl⟩ := Prod.mk.inj (Option.some.inj hspell)
        rw [writeAll] at hmade
        obtain rfl := Option.some.inj hmade
        rw [List.append_nil] at hbundle
        rw [hbundle]
        rfl
  · rw [if_neg hend, if_neg hend, bind_eq_ok]
    constructor
    · rintro ⟨⟨part, s₁, g₁⟩, hpart, h⟩
      obtain ⟨b, hspell, hwrite⟩ := ih.repetition.mp hpart
      obtain ⟨bs, made, hmore, hmade, hne, hbundle⟩ := ih.concatenation.mp h
      refine ⟨b :: bs, _, by simp [hspell, hmore], writeAll_eq_some_cons.mpr ⟨_, made, hwrite, hmade, rfl⟩, ?_⟩
      rw [List.append_assoc] at hne hbundle
      exact ⟨hne, hbundle⟩
    · rintro ⟨bs, made, h, hmade, hne, hbundle⟩
      obtain ⟨⟨b, s₁⟩, hspell, h⟩ := Option.bind_eq_some_iff.mp h
      obtain ⟨⟨more, s₂⟩, hmore, h⟩ := Option.bind_eq_some_iff.mp h
      obtain ⟨rfl, rfl⟩ := Prod.mk.inj (Option.some.inj h)
      obtain ⟨first, others, hfirst, hothers, rfl⟩ := writeAll_eq_some_cons.mp hmade
      refine ⟨(first.1, s₁, first.2), ih.repetition.mpr ⟨b, hspell, hfirst⟩, ih.concatenation.mpr ?_⟩
      refine ⟨more, others, hmore, hothers, ?_⟩
      rw [List.append_assoc]
      exact ⟨hne, hbundle⟩

theorem ParsesTrees.alternation_succ {ids : List ℕ} :
    parseAlternation num (k + 1) s g ids = .ok (out, s', g') ↔
      ∃ bs made, spellAlternation (k + 1) s = some (bs, s') ∧ writeAll num bs g = some made ∧
        made.2.bundle .alternation (ids ++ made.1) = (out, g') := by
  rw [parseAlternation, spellAlternation, bind_eq_ok]
  -- the branch in front is a concatenation of at least one part
  have hbranch : ∀ {branch s₁ g₁}, parseConcatenation num k s g [] = .ok (branch, s₁, g₁) ↔
      ∃ parts, spellConcatenation k s = some (parts, s₁) ∧ parts ≠ [] ∧
        (Body.joined .sequence parts).write num g = some (branch, g₁) := by
    intro branch s₁ g₁
    rw [ih.concatenation]
    simp only [write_joined_sequence, Option.map_eq_some_iff]
    constructor
    · rintro ⟨parts, made, hspell, hmade, hne, hbundle⟩
      refine ⟨parts, hspell, ?_, made, hmade, hbundle⟩
      rintro rfl
      rw [writeAll] at hmade
      obtain rfl := Option.some.inj hmade
      exact hne rfl
    · rintro ⟨parts, hspell, hne, made, hmade, hbundle⟩
      refine ⟨parts, made, hspell, hmade, ?_, hbundle⟩
      obtain ⟨b, bs, rfl⟩ := List.exists_cons_of_ne_nil hne
      obtain ⟨first, more, -, -, rfl⟩ := writeAll_eq_some_cons.mp hmade
      exact List.cons_ne_nil _ _
  constructor
  · rintro ⟨⟨branch, s₁, g₁⟩, hconcat, h⟩
    obtain ⟨parts, hspell, hne, hwrite⟩ := hbranch.mp hconcat
    dsimp only at h
    by_cases hslash : (skipBlanks s₁).head? = some SLASH
    · rw [if_pos hslash] at h
      obtain ⟨bs, made, hmore, hmade, hbundle⟩ := ih.alternation.mp h
      refine ⟨_ :: bs, _, ?_, writeAll_eq_some_cons.mpr ⟨_, made, hwrite, hmade, rfl⟩, ?_⟩
      · simp [hspell, hne, hslash, hmore]
      · rwa [List.append_assoc] at hbundle
    · rw [if_neg hslash] at h
      obtain ⟨hout, hrest⟩ := Prod.mk.inj (Except.ok.inj h)
      obtain ⟨rfl, hg⟩ := Prod.mk.inj hrest
      refine ⟨[_], _, ?_, writeAll_eq_some_cons.mpr ⟨_, ([], g₁), hwrite, by rw [writeAll], rfl⟩,
        Prod.ext hout hg⟩
      simp [hspell, hne, hslash]
  · rintro ⟨bs, made, h, hmade, hbundle⟩
    obtain ⟨⟨parts, s₁⟩, hspell, h⟩ := Option.bind_eq_some_iff.mp h
    by_cases hne : parts = []
    · subst hne
      exact nomatch h
    have hempty : ¬ parts.isEmpty = true := by simpa using hne
    dsimp only at h
    rw [if_neg hempty] at h
    by_cases hslash : (skipBlanks s₁).head? = some SLASH
    · rw [if_pos hslash] at h
      obtain ⟨⟨more, s₂⟩, hmore, h⟩ := Option.bind_eq_some_iff.mp h
      obtain ⟨rfl, rfl⟩ := Prod.mk.inj (Option.some.inj h)
      obtain ⟨first, others, hfirst, hothers, rfl⟩ := writeAll_eq_some_cons.mp hmade
      refine ⟨(first.1, s₁, first.2), hbranch.mpr ⟨parts, hspell, hne, hfirst⟩, ?_⟩
      dsimp only
      rw [if_pos hslash]
      refine ih.alternation.mpr ⟨more, others, hmore, hothers, ?_⟩
      rwa [List.append_assoc]
    · rw [if_neg hslash] at h
      obtain ⟨rfl, rfl⟩ := Prod.mk.inj (Option.some.inj h)
      obtain ⟨first, others, hfirst, hothers, rfl⟩ := writeAll_eq_some_cons.mp hmade
      rw [writeAll] at hothers
      obtain rfl := Option.some.inj hothers
      refine ⟨(first.1, s₁, first.2), hbranch.mpr ⟨parts, hspell, hne, hfirst⟩, ?_⟩
      dsimp only
      rw [if_neg hslash, hbundle]
      rfl

omit ih

/-- **The parsers find the tree and write it.** -/
theorem parsesTrees (num : Numbers) (k : ℕ) : ParsesTrees num k := by
  induction k with
  | zero =>
    refine ⟨?_, ?_, ?_, ?_⟩
    · simp [parseElement, spellElement]
    · simp [parseRepetition, spellRepetition]
    · simp [parseConcatenation, spellConcatenation]
    · simp [parseAlternation, spellAlternation]
  | succ k ih => exact ⟨ih.element_succ, ih.repetition_succ, ih.concatenation_succ, ih.alternation_succ⟩

/-! ### Texts -/

theorem parseRule_eq_ok_iff {line : Str} :
    parseRule num g line = .ok g' ↔ ∃ rules, spellRule line = some rules ∧ writeRules num rules g = some g' := by
  rw [parseRule, spellRule]
  dsimp only
  by_cases hblank : skipBlanks line = []
  · rw [if_pos hblank, if_pos hblank]
    simp [writeRules]
  rw [if_neg hblank, if_neg hblank]
  by_cases halpha : (skipBlanks line).head?.any isAlphaOctet = true
  swap
  · rw [if_neg halpha, if_neg halpha]
    simp
  rw [if_pos halpha, if_pos halpha]
  by_cases hequals : (skipBlanks ((skipBlanks line).dropWhile isRuleChar)).head? = some EQUALS
  swap
  · rw [if_neg hequals, if_neg hequals]
    simp
  rw [if_pos hequals, if_pos hequals, bind_eq_ok]
  generalize (skipBlanks line).takeWhile isRuleChar = name
  generalize decide ((skipBlanks ((skipBlanks line).dropWhile isRuleChar)).tail.head? = some SLASH) = incremental
  generalize (if incremental = true then _ else _ : Str) = rest
  constructor
  · rintro ⟨⟨body, s₁, g₁⟩, hparse, h⟩
    obtain ⟨bs, hspell, hwrite⟩ := (parsesTrees num _).body.mp hparse
    dsimp only at h
    by_cases htrailing : skipBlanks s₁ = []
    · rw [if_pos htrailing] at h
      refine ⟨[⟨name, incremental, .joined .alternation bs⟩], by simp [hspell, htrailing], ?_⟩
      simp [writeRules, RuleText.write, hwrite, toOption_eq_some, h]
    · rw [if_neg htrailing] at h
      exact nomatch h
  · rintro ⟨rules, h, hrules⟩
    obtain ⟨⟨bs, s₁⟩, hspell, h⟩ := Option.bind_eq_some_iff.mp h
    dsimp only at h
    by_cases htrailing : skipBlanks s₁ = []
    · rw [if_pos htrailing] at h
      obtain rfl := Option.some.inj h
      obtain ⟨g₁, hrule, hrules⟩ := Option.bind_eq_some_iff.mp hrules
      obtain rfl : g₁ = g' := Option.some.inj hrules
      obtain ⟨made, hwrite, hdefine⟩ := Option.bind_eq_some_iff.mp hrule
      refine ⟨(made.1, s₁, made.2), (parsesTrees num _).body.mpr ⟨bs, hspell, hwrite⟩, ?_⟩
      dsimp only
      rw [if_pos htrailing]
      exact toOption_eq_some.mp hdefine
    · rw [if_neg htrailing] at h
      exact nomatch h

theorem writeRules_append {rules more : List RuleText} :
    writeRules num (rules ++ more) g = (writeRules num rules g).bind (writeRules num more) :=
  List.foldlM_append

/-- All lines are parsed. -/
theorem foldlM_parseRule_eq_ok_iff {lines : List Line} :
    lines.foldlM (fun g line => located line.number (parseRule num g line.text)) g = .ok g' ↔
      ∃ rules, lines.mapM (fun line => spellRule line.text) = some rules ∧
        writeRules num rules.flatten g = some g' := by
  induction lines generalizing g with
  | nil => simp [writeRules, pure, Except.pure]
  | cons line lines ih =>
    rw [List.foldlM_cons, bind_eq_ok, List.mapM_cons]
    have hlocated : ∀ {g₁}, located line.number (parseRule num g line.text) = .ok g₁ ↔
        parseRule num g line.text = .ok g₁ := fun {g₁} => mapError_eq_ok
    simp only [hlocated, parseRule_eq_ok_iff, ih]
    constructor
    · rintro ⟨g₁, ⟨first, hspell, hfirst⟩, rules, hrules, hmore⟩
      refine ⟨first :: rules, by simp [hspell, hrules], ?_⟩
      rw [List.flatten_cons, writeRules_append, hfirst, Option.bind_some, hmore]
    · rintro ⟨all, hall, hwrite⟩
      obtain ⟨first, hspell, hall⟩ := Option.bind_eq_some_iff.mp hall
      obtain ⟨rules, hrules, hall⟩ := Option.bind_eq_some_iff.mp hall
      obtain rfl := Option.some.inj hall
      rw [List.flatten_cons, writeRules_append] at hwrite
      obtain ⟨g₁, hfirst, hmore⟩ := Option.bind_eq_some_iff.mp hwrite
      exact ⟨g₁, ⟨first, hspell, hfirst⟩, rules, hrules, hmore⟩

/-- **A text compiles** when its trees are found, written, and make a grammar that is accepted. -/
theorem compile_eq_ok_iff {text : Str} :
    compile num text = .ok g ↔
      ∃ rules, spellText text = some rules ∧ writeRules num rules {} = some g ∧ g.validate = .ok () := by
  rw [compile, spellText, bind_eq_ok]
  have hvalidate : ∀ {g₁ : Grammar} {u}, located 0 g₁.validate = .ok u ↔ g₁.validate = .ok u := mapError_eq_ok
  simp only [mapError_eq_ok, bind_eq_ok, foldlM_parseRule_eq_ok_iff, hvalidate]
  constructor
  · rintro ⟨lines, hlines, g₁, ⟨rules, hrules, hwrite⟩, ⟨⟩, hvalid, hdone⟩
    obtain rfl : g₁ = g := Except.ok.inj hdone
    refine ⟨rules.flatten, ?_, hwrite, hvalid⟩
    simp [hlines, hrules, Except.toOption]
  · rintro ⟨all, hall, hwrite, hvalid⟩
    obtain ⟨lines, hlines, hall⟩ := Option.bind_eq_some_iff.mp hall
    obtain ⟨rules, hrules, hall⟩ := Option.bind_eq_some_iff.mp hall
    obtain rfl := Option.some.inj hall
    exact ⟨lines, toOption_eq_some.mp hlines, g, ⟨rules, hrules, hwrite⟩, (), hvalid, rfl⟩

/-! ### What is read gets shorter -/

theorem length_skipBlanks_le (s : Str) : (skipBlanks s).length ≤ s.length := List.length_dropWhile_le _ _

theorem length_spellBounds_le (s : Str) : (spellBounds s).2.length ≤ s.length := by
  rw [spellBounds]
  have hdigits := List.length_dropWhile_le isDigitOctet s
  have hmore := List.length_dropWhile_le isDigitOctet (s.dropWhile isDigitOctet).tail
  rw [List.length_tail] at hmore
  dsimp only
  split_ifs <;> dsimp only <;> omega

theorem length_lt_of_takeWhile {p : Octet → Bool} (h : s.takeWhile p ≠ []) : (s.dropWhile p).length < s.length := by
  have hsum := congrArg List.length (List.takeWhile_append_dropWhile : s.takeWhile p ++ s.dropWhile p = s)
  have hpos := List.length_pos_of_ne_nil h
  rw [List.length_append] at hsum
  omega

theorem length_spellUpper_le {high : Option Str} (h : spellUpper s = some (high, s')) : s'.length ≤ s.length := by
  rw [spellUpper] at h
  have hmore := List.length_dropWhile_le isHexDigit s.tail
  rw [List.length_tail] at hmore
  split_ifs at h
  · obtain ⟨-, rfl⟩ := Prod.mk.inj (Option.some.inj h)
    omega
  · obtain ⟨-, rfl⟩ := Prod.mk.inj (Option.some.inj h)
    exact le_rfl

theorem length_spellPieces_lt (h : spellPieces k s = some (bs, s')) : s'.length < s.length := by
  induction k generalizing s bs with
  | zero => exact nomatch h
  | succ k ih =>
    rw [spellPieces] at h
    split_ifs at h with hnone
    obtain ⟨⟨high, rest⟩, hupper, h⟩ := Option.bind_eq_some_iff.mp h
    have hlt := length_lt_of_takeWhile hnone
    have hle := length_spellUpper_le hupper
    dsimp only at h
    split_ifs at h with hdot
    · obtain ⟨⟨more, rest'⟩, hmore, h⟩ := Option.bind_eq_some_iff.mp h
      obtain ⟨-, rfl⟩ := Prod.mk.inj (Option.some.inj h)
      have hrest := ih hmore
      rw [List.length_tail] at hrest
      omega
    · obtain ⟨-, rfl⟩ := Prod.mk.inj (Option.some.inj h)
      omega

theorem length_spellNumeric_lt {b : Body} (h : spellNumeric s = some (b, s')) : s'.length < s.length := by
  rw [spellNumeric] at h
  split_ifs at h
  obtain ⟨⟨bs, rest⟩, hpieces, h⟩ := Option.bind_eq_some_iff.mp h
  obtain ⟨-, rfl⟩ := Prod.mk.inj (Option.some.inj h)
  have hlt := length_spellPieces_lt hpieces
  rw [List.length_tail] at hlt
  omega

theorem length_spellClose_lt {close : Octet} (h : spellClose close s = some s') : s'.length < s.length := by
  rw [spellClose] at h
  split_ifs at h with hclose
  obtain rfl := Option.some.inj h
  have hskip := length_skipBlanks_le s
  have hpos : 0 < (skipBlanks s).length := List.length_pos_of_ne_nil fun hnil => by simp [hnil] at hclose
  rw [List.length_tail]
  omega

/-- What the parsers of all levels leave of a text. -/
structure Shortens (k : ℕ) : Prop where
  element : ∀ {s s' b}, spellElement k s = some (b, s') → s'.length < s.length
  repetition : ∀ {s s' b}, spellRepetition k s = some (b, s') → s'.length < s.length
  concatenation : ∀ {s s' bs}, spellConcatenation k s = some (bs, s') →
    s'.length ≤ s.length ∧ (bs ≠ [] → s'.length < s.length)
  alternation : ∀ {s s' bs}, spellAlternation k s = some (bs, s') → s'.length < s.length

theorem Shortens.element_succ (ih : Shortens k) {b : Body} (h : spellElement (k + 1) s = some (b, s')) :
    s'.length < s.length := by
  have hskip := length_skipBlanks_le s
  rw [spellElement] at h
  rcases hs : skipBlanks s with _ | ⟨c, rest⟩
  · rw [hs] at h
    exact nomatch h
  rw [hs] at h
  rw [hs, List.length_cons] at hskip
  have hname : (c :: rest).dropWhile isRuleChar = s' → isAlphaOctet c = true → s'.length ≤ rest.length := by
    rintro rfl halpha
    rw [List.dropWhile_cons_of_pos (by simp [isRuleChar, halpha])]
    exact List.length_dropWhile_le _ _
  dsimp only at h
  split_ifs at h with hparen hbracket hquote hpercent hdollar halpha halpha
  · obtain ⟨⟨bs, s₁⟩, hinner, h⟩ := Option.bind_eq_some_iff.mp h
    obtain ⟨s₂, hclose, h⟩ := Option.bind_eq_some_iff.mp h
    obtain ⟨-, rfl⟩ := Prod.mk.inj (Option.some.inj h)
    have hlt := ih.alternation hinner
    have hlt' : s₂.length < s₁.length := length_spellClose_lt hclose
    omega
  · obtain ⟨⟨bs, s₁⟩, hinner, h⟩ := Option.bind_eq_some_iff.mp h
    obtain ⟨s₂, hclose, h⟩ := Option.bind_eq_some_iff.mp h
    obtain ⟨-, rfl⟩ := Prod.mk.inj (Option.some.inj h)
    have hlt := ih.alternation hinner
    have hlt' : s₂.length < s₁.length := length_spellClose_lt hclose
    omega
  · have hle := List.length_dropWhile_le (· != QUOTE) rest
    rcases hdrop : rest.dropWhile (· != QUOTE) with _ | ⟨q, s₁⟩
    · rw [hdrop] at h
      exact nomatch h
    · rw [hdrop] at h hle
      obtain ⟨-, rfl⟩ := Prod.mk.inj (Option.some.inj h)
      rw [List.length_cons] at hle
      omega
  · have hlt := length_spellNumeric_lt h
    omega
  · obtain ⟨-, rfl⟩ := Prod.mk.inj (Option.some.inj h)
    have hle := List.length_dropWhile_le isRuleChar (skipBlanks rest)
    have hle' := length_skipBlanks_le rest
    omega
  · obtain ⟨-, hrest⟩ := Prod.mk.inj (Option.some.inj h)
    have hle := hname hrest halpha
    omega

theorem Shortens.repetition_succ (ih : Shortens k) {b : Body} (h : spellRepetition (k + 1) s = some (b, s')) :
    s'.length < s.length := by
  rw [spellRepetition] at h
  obtain ⟨⟨body, rest⟩, helement, h⟩ := Option.bind_eq_some_iff.mp h
  have hlt := ih.element helement
  have hle := length_spellBounds_le (skipBlanks s)
  have hskip := length_skipBlanks_le s
  rcases hbounds : (spellBounds (skipBlanks s)).1 with _ | bounds <;> rw [hbounds] at h <;>
  · obtain ⟨-, rfl⟩ := Prod.mk.inj (Option.some.inj h)
    omega

theorem Shortens.concatenation_succ (ih : Shortens k) (h : spellConcatenation (k + 1) s = some (bs, s')) :
    s'.length ≤ s.length ∧ (bs ≠ [] → s'.length < s.length) := by
  have hskip := length_skipBlanks_le s
  rw [spellConcatenation] at h
  split_ifs at h
  · obtain ⟨rfl, rfl⟩ := Prod.mk.inj (Option.some.inj h)
    exact ⟨hskip, fun hne => absurd rfl hne⟩
  · obtain ⟨⟨b, s₁⟩, hpart, h⟩ := Option.bind_eq_some_iff.mp h
    obtain ⟨⟨more, s₂⟩, hmore, h⟩ := Option.bind_eq_some_iff.mp h
    obtain ⟨rfl, rfl⟩ := Prod.mk.inj (Option.some.inj h)
    have hlt := ih.repetition hpart
    have hle := (ih.concatenation hmore).1
    exact ⟨by omega, fun _ => by omega⟩

theorem Shortens.alternation_succ (ih : Shortens k) (h : spellAlternation (k + 1) s = some (bs, s')) :
    s'.length < s.length := by
  rw [spellAlternation] at h
  obtain ⟨⟨parts, s₁⟩, hparts, h⟩ := Option.bind_eq_some_iff.mp h
  dsimp only at h
  split_ifs at h with hempty hslash
  · have hlt := (ih.concatenation hparts).2 (by simpa using hempty)
    have hskip := length_skipBlanks_le s₁
    obtain ⟨⟨more, s₂⟩, hmore, h⟩ := Option.bind_eq_some_iff.mp h
    obtain ⟨-, rfl⟩ := Prod.mk.inj (Option.some.inj h)
    have hlt' := ih.alternation hmore
    rw [List.length_tail] at hlt'
    change s₂.length < s.length
    omega
  · have hlt := (ih.concatenation hparts).2 (by simpa using hempty)
    have hskip := length_skipBlanks_le s₁
    obtain ⟨-, rfl⟩ := Prod.mk.inj (Option.some.inj h)
    omega

/-- **What is read gets shorter.** -/
theorem shortens (k : ℕ) : Shortens k := by
  induction k with
  | zero =>
    refine ⟨fun h => ?_, fun h => ?_, fun h => ?_, fun h => ?_⟩
    · simp [spellElement] at h
    · simp [spellRepetition] at h
    · simp [spellConcatenation] at h
    · simp [spellAlternation] at h
  | succ k ih => exact ⟨ih.element_succ, ih.repetition_succ, ih.concatenation_succ, ih.alternation_succ⟩

end Abnf

end FtIrc
