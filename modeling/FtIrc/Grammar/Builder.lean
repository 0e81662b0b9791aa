import FtIrc.Grammar.Validator
import Mathlib.Data.List.DropRight

/-!
# Reading a grammar

How a text in ABNF becomes a grammar: the lines are put together, without their comments
(`FtIrc.Abnf.readLines`), and a parser goes through the body of each rule, writing nodes as it
goes (`FtIrc.Abnf.parseAlternation` and the parsers it calls).

The source moves an index through a line; the parsers here hand on the rest of it. What the
numbers in the text become is a parameter (`FtIrc.Abnf.Numbers`): the server takes them through
`strtol` and a conversion to `int` (`FtIrc.Abnf.Numbers.machine`), and with
`FtIrc.Abnf.Numbers.written` they are what they say. An error without a text means that the fuel
ran out, which it does not (`FtIrc.Abnf.parseAlternation_fuel`).
-/

namespace FtIrc

namespace Abnf

/-! ### Characters -/

def TAB : Octet := 9
def QUOTE : Octet := 34
def DOLLAR : Octet := 36
def PERCENT : Octet := 37
def LPAREN : Octet := 40
def RPAREN : Octet := 41
def STAR : Octet := 42
def DASH : Octet := 45
def DOT : Octet := 46
def SLASH : Octet := 47
def SEMICOLON : Octet := 59
def EQUALS : Octet := 61
def LBRACKET : Octet := 91
def RBRACKET : Octet := 93

/-- `AbnfChars::isHexDigit`. -/
def isHexDigit (c : Octet) : Bool :=
  isDigitOctet c || decide (65 ≤ c.toNat ∧ c.toNat ≤ 70) || decide (97 ≤ c.toNat ∧ c.toNat ≤ 102)

/-- `AbnfChars::isRuleChar`. -/
def isRuleChar (c : Octet) : Bool := isAlphaOctet c || isDigitOctet c || decide (c = DASH)

/-- `AbnfChars::isBlank`. -/
def isBlank (c : Octet) : Bool := decide (c = SPACE) || decide (c = TAB)

/-- `AbnfChars::skipBlanks`. -/
def skipBlanks (s : Str) : Str := s.dropWhile isBlank

/-- `AbnfChars::trimmed`. -/
def trimmed (s : Str) : Str := (s.dropWhile isBlank).rdropWhile isBlank

/-! ### Numbers -/

/-- The value of a digit, hexadecimal or decimal. -/
def digitValue (c : Octet) : ℕ :=
  if isDigitOctet c then c.toNat - 48 else if isUpperOctet c then c.toNat - 55 else c.toNat - 87

/-- The number some digits stand for. -/
def valueIn (base : ℕ) (digits : Str) : ℕ := digits.foldl (fun n c => base * n + digitValue c) 0

/-- What the digits in a text become, in base 10 and in base 16. -/
structure Numbers where
  count : Str → ℤ
  octet : Str → ℤ

/-- `LONG_MAX`. -/
def LONG_MAX : ℤ := 2 ^ 63 - 1

/-- `static_cast<int>(std::strtol(digits.c_str(), NULL, base))`. -/
def strtolInt (base : ℕ) (digits : Str) : ℤ := Int.bmod (min (valueIn base digits) LONG_MAX) (2 ^ 32)

/-- The numbers of the server. -/
def Numbers.machine : Numbers := ⟨strtolInt 10, strtolInt 16⟩

/-- The numbers as they are written. -/
def Numbers.written : Numbers := ⟨fun digits => valueIn 10 digits, fun digits => valueIn 16 digits⟩

/-! ### Lines -/

/-- `AbnfLineReader::Line`. -/
structure Line where
  text : Str := []
  number : ℕ := 0

/-- `AbnfLineReader::stripComment`. -/
def stripComment : Bool → Str → Str
  | _, [] => []
  | inQuote, c :: s =>
    if c = QUOTE then c :: stripComment (!inQuote) s
    else if c = SEMICOLON ∧ inQuote = false then []
    else c :: stripComment inQuote s

/-- The lines `std::getline` reads. -/
def getlines (text : Str) : List Str :=
  let lines := text.splitOn LF
  if lines.getLast? = some [] then lines.dropLast else lines

/-- The state of the loop of `AbnfLineReader::read`. -/
structure Reading where
  physical : ℕ := 0
  pending : Line := {}
  lastRuleName : Str := []
  out : List Line := []

/-- A line without its line end and comment. -/
def bareLine (raw : Str) : Str :=
  stripComment false (if raw.getLast? = some CR then raw.dropLast else raw)

/-- The pending line, if there is one, is complete. -/
def Reading.flush (r : Reading) : List Line :=
  if r.pending.text = [] then r.out else r.out ++ [r.pending]

/-- The body of the loop of `AbnfLineReader::read`. -/
def readLine (r : Reading) (raw : Str) : Except (ℕ × Str) Reading :=
  let physical := r.physical + 1
  let raw := bareLine raw
  let body := trimmed raw
  if body = [] then .ok { r with physical := physical }
  else
    let continuation := raw.head?.any isBlank
    let redefines := decide (body.head? = some EQUALS)
    if continuation && !redefines && !r.pending.text.isEmpty then
      .ok { r with physical := physical,
                   pending := { r.pending with text := r.pending.text ++ str " " ++ body } }
    else if redefines then
      if r.lastRuleName = [] then .error (physical, str "'=' continuation with no rule name above it")
      else
        .ok { physical := physical, pending := ⟨r.lastRuleName ++ str " " ++ body, physical⟩,
              lastRuleName := r.lastRuleName, out := r.flush }
    else
      let name := body.takeWhile isRuleChar
      .ok { physical := physical, pending := ⟨body, physical⟩,
            lastRuleName := if name = [] then r.lastRuleName else name, out := r.flush }

/-- `AbnfLineReader::read`: the lines, or the line that is wrong and what is wrong with it. -/
def readLines (text : Str) : Except (ℕ × Str) (List Line) := do
  let r ← (getlines text).foldlM readLine {}
  pure r.flush

/-! ### Nodes -/

namespace Grammar

variable (g : Grammar)

/-- `GrammarBuilder::internRule`. -/
def internRule (name : Str) : ℤ × Grammar :=
  match g.ruleNames.findIdx? (· == asciiFold name) with
  | some i => (i, g)
  | none =>
    (g.ruleNames.length, { g with ruleNames := g.ruleNames ++ [asciiFold name],
                                  ruleRoots := g.ruleRoots ++ [kNoRule] })

/-- `GrammarBuilder::internCapture`. -/
def internCapture (name : Str) : ℤ × Grammar :=
  match g.captureNames.findIdx? (· == name) with
  | some i => (i, g)
  | none => (g.captureNames.length, { g with captureNames := g.captureNames ++ [name] })

/-- `GrammarBuilder::addNode`. -/
def addNode (n : GrammarNode) : ℕ × Grammar := (g.nodes.length, { g with nodes := g.nodes ++ [n] })

/-- `GrammarBuilder::addChildren`. -/
def addChildren (children : List ℕ) : ℕ × Grammar :=
  (g.children.length, { g with children := g.children ++ children })

/-- A node with children. -/
def addParent (n : GrammarNode) (children : List ℕ) : ℕ × Grammar :=
  (g.addChildren children).2.addNode
    { n with first := (g.addChildren children).1, count := children.length }

/-- A node for a text. -/
def addLiteral (text : Str) : ℕ × Grammar :=
  { g with literals := g.literals ++ [text] }.addNode { kind := .literal, literal := g.literals.length }

/-- A node for a rule, by its name. -/
def addReference (capture : Bool) (name : Str) : ℕ × Grammar :=
  let (rule, g) := g.internRule name
  let (slot, g) := if capture then g.internCapture name else (kNoCapture, g)
  g.addNode { kind := .reference, lo := rule, capture := slot }

/-- The node of several parts, or the part if there is only one. -/
def bundle (kind : Kind) (parts : List ℕ) : ℕ × Grammar :=
  match parts with
  | [part] => (part, g)
  | _ => g.addParent { kind := kind } parts

end Grammar

/-! ### The parsers -/

/-- What a parser returns: a value, the rest of the line, and the grammar so far. -/
abbrev Parsed (α : Type) := α × Str × Grammar

/-- A node was written, and this is the rest of the line. -/
def parsed (made : ℕ × Grammar) (rest : Str) : Parsed ℕ := (made.1, rest, made.2)

/-- The upper bound of a range of octets, where one is given. -/
def parseUpper (num : Numbers) (low : ℤ) (s : Str) : Except Str (ℤ × Str) :=
  if s.head? = some DASH then
    let upper := s.tail.takeWhile isHexDigit
    if upper = [] then .error (str "%x range with no upper bound")
    else if num.octet upper < low then .error (str "%x range runs backwards")
    else .ok (num.octet upper, s.tail.dropWhile isHexDigit)
  else .ok (low, s)

/-- The loop of `GrammarBuilder::parseNumericValue`, with the pieces read so far. -/
def parsePieces (num : Numbers) : ℕ → Str → Grammar → List ℕ → Except Str (Parsed (List ℕ))
  | 0, _, _, _ => .error []
  | k + 1, s, g, pieces => do
    let hex := s.takeWhile isHexDigit
    if hex = [] then .error (str "%x with no hex digits")
    else
      let low := num.octet hex
      let (high, s) ← parseUpper num low (s.dropWhile isHexDigit)
      let made := g.addNode { kind := .octetRange, lo := low, hi := high }
      if s.head? = some DOT then parsePieces num k s.tail made.2 (pieces ++ [made.1])
      else .ok (pieces ++ [made.1], s, made.2)

/-- `GrammarBuilder::parseNumericValue`. -/
def parseNumericValue (num : Numbers) (s : Str) (g : Grammar) : Except Str (Parsed ℕ) :=
  if s.head? = some 120 ∨ s.head? = some 88 then do
    let (pieces, rest, g) ← parsePieces num (s.length + 1) s.tail g []
    pure (parsed (g.bundle .sequence pieces) rest)
  else .error (str "only the %x form of num-val is supported")

/-- A reference to a rule, which is captured or not. -/
def parseReference (capture : Bool) (s : Str) (g : Grammar) : Parsed ℕ :=
  parsed (g.addReference capture (s.takeWhile isRuleChar)) (s.dropWhile isRuleChar)

/-- What closes a group or an option. -/
def parseClose (close : Octet) (message : String) (s : Str) : Except Str Str :=
  let s := skipBlanks s
  if s.head? = some close then .ok s.tail else .error (str message)

/-- The bounds of a repetition, where there are any. -/
def parseBounds (num : Numbers) (s : Str) : Except Str (Option (ℤ × ℤ) × Str) :=
  if s.head?.any isDigitOctet ∨ s.head? = some STAR then
    let before := s.takeWhile isDigitOctet
    let s := s.dropWhile isDigitOctet
    if s.head? = some STAR then
      let after := s.tail.takeWhile isDigitOctet
      let low := if before = [] then 0 else num.count before
      let high := if after = [] then kUnbounded else num.count after
      if high ≠ kUnbounded ∧ high < low then .error (str "repetition range runs backwards")
      else .ok (some (low, high), s.tail.dropWhile isDigitOctet)
    else .ok (some (num.count before, num.count before), s)
  else .ok (none, s)

/-- What a concatenation ends at. -/
def endsConcatenation (s : Str) : Bool :=
  decide (s = [] ∨ s.head? = some SLASH ∨ s.head? = some RPAREN ∨ s.head? = some RBRACKET)

mutual

/-- `GrammarBuilder::parseElement`. -/
def parseElement (num : Numbers) : ℕ → Str → Grammar → Except Str (Parsed ℕ)
  | 0, _, _ => .error []
  | k + 1, s, g =>
    match skipBlanks s with
    | [] => .error (str "expected an element, found end of rule")
    | c :: rest =>
      if c = LPAREN then do
        let (out, s, g) ← parseAlternation num k rest g []
        let s ← parseClose RPAREN "unclosed '('" s
        pure (out, s, g)
      else if c = LBRACKET then do
        let (inner, s, g) ← parseAlternation num k rest g []
        let s ← parseClose RBRACKET "unclosed '['" s
        pure (parsed (g.addParent { kind := .repetition, lo := 0, hi := 1 } [inner]) s)
      else if c = QUOTE then
        match rest.dropWhile (· != QUOTE) with
        | [] => .error (str "unterminated string literal")
        | _ :: s => .ok (parsed (g.addLiteral (rest.takeWhile (· != QUOTE))) s)
      else if c = PERCENT then parseNumericValue num rest g
      else if c = DOLLAR then
        let s := skipBlanks rest
        if s.head?.any isAlphaOctet then .ok (parseReference true s g)
        else .error (str "'$' must be followed by a rule name")
      else if isAlphaOctet c then .ok (parseReference false (c :: rest) g)
      else .error (str "unexpected character '" ++ [c] ++ str "' in rule body")

/-- `GrammarBuilder::parseRepetition`. -/
def parseRepetition (num : Numbers) : ℕ → Str → Grammar → Except Str (Parsed ℕ)
  | 0, _, _ => .error []
  | k + 1, s, g => do
    let (bounds, s) ← parseBounds num (skipBlanks s)
    let (child, s, g) ← parseElement num k s g
    match bounds with
    | none => pure (child, s, g)
    | some (low, high) =>
      pure (parsed (g.addParent { kind := .repetition, lo := low, hi := high } [child]) s)

/-- `GrammarBuilder::parseConcatenation`, with the parts read so far. -/
def parseConcatenation (num : Numbers) : ℕ → Str → Grammar → List ℕ → Except Str (Parsed ℕ)
  | 0, _, _, _ => .error []
  | k + 1, s, g, parts =>
    let s := skipBlanks s
    if endsConcatenation s then
      if parts = [] then .error (str "empty concatenation")
      else .ok (parsed (g.bundle .sequence parts) s)
    else do
      let (part, s, g) ← parseRepetition num k s g
      parseConcatenation num k s g (parts ++ [part])

/-- `GrammarBuilder::parseAlternation`, with the branches read so far. -/
def parseAlternation (num : Numbers) : ℕ → Str → Grammar → List ℕ → Except Str (Parsed ℕ)
  | 0, _, _, _ => .error []
  | k + 1, s, g, branches => do
    let (branch, s, g) ← parseConcatenation num k s g []
    let s := skipBlanks s
    if s.head? = some SLASH then parseAlternation num k s.tail g (branches ++ [branch])
    else pure (parsed (g.bundle .alternation (branches ++ [branch])) s)

end

/-- Fuel for what stands in so many octets. -/
def parseFuel (s : Str) : ℕ := 4 * s.length + 5

/-- The definition of a rule takes effect: it is the first one, or one more alternative. -/
def Grammar.define (g : Grammar) (rule : ℤ) (name : Str) (incremental : Bool) (body : ℕ) : Except Str Grammar :=
  let root := g.ruleRoot rule
  if incremental then
    if root = kNoRule then .error (str "'" ++ name ++ str " =/' before that rule was ever defined")
    else
      let alt := g.addParent { kind := .alternation } [root.toNat, body]
      .ok { alt.2 with ruleRoots := g.ruleRoots.set rule.toNat alt.1 }
  else if root ≠ kNoRule then
    .error (str "rule '" ++ name ++ str "' is defined twice (use '=/' to extend it)")
  else .ok { g with ruleRoots := g.ruleRoots.set rule.toNat body }

/-- `GrammarBuilder::parseRule`. -/
def parseRule (num : Numbers) (g : Grammar) (line : Str) : Except Str Grammar :=
  let s := skipBlanks line
  if s = [] then .ok g
  else if s.head?.any isAlphaOctet then
    let name := s.takeWhile isRuleChar
    let s := skipBlanks (s.dropWhile isRuleChar)
    if s.head? = some EQUALS then do
      let incremental := decide (s.tail.head? = some SLASH)
      let s := if incremental then s.tail.tail else s.tail
      let (rule, g) := g.internRule name
      let (body, s, g) ← parseAlternation num (parseFuel s) s g []
      if skipBlanks s = [] then g.define rule name incremental body
      else .error (str "trailing text after rule '" ++ name ++ str "'")
    else .error (str "expected '=' or '=/' after rule name '" ++ name ++ str "'")
  else .error (str "a rule must begin with a rule name")

/-- `GrammarBuilder::fail`. -/
def located {α : Type} (lineNo : ℕ) (x : Except Str α) : Except Str α :=
  x.mapError fun message => str "grammar: line " ++ decimal lineNo ++ str ": " ++ message

/-- `GrammarBuilder::compile`. -/
def compile (num : Numbers) (text : Str) : Except Str Grammar := do
  let lines ← (readLines text).mapError fun e =>
    str "grammar: line " ++ decimal e.1 ++ str ": " ++ e.2
  let g ← lines.foldlM (fun g line => located line.number (parseRule num g line.text)) {}
  located 0 g.validate
  pure g

end Abnf

end FtIrc
