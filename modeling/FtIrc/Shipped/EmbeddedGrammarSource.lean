import FtIrc.Grammar.Agreement
import FtIrc.Grammar.Budget
import FtIrc.Grammar.Refusals

/-!
# The grammar that comes with the server

`EmbeddedGrammarSource` is read when no other grammar is asked for
(`FtIrc.Abnf.EmbeddedGrammarSource.kGrammar`). What the builder makes of its text is
`FtIrc.Abnf.EmbeddedGrammarSource.grammar`.

No rule of it leads to itself, no body that may match nothing is repeated, no capture is inside of another, and
no limit of a repetition is far off. So every rule of it has a program
(`FtIrc.Abnf.EmbeddedGrammarSource.exists_compileAll`), no line of the length a server takes in is too much for the
interpreter, and a server that is started with one strategy reports what it reports with the other one
(`FtIrc.Abnf.EmbeddedGrammarSource.strategies_agree`).
-/

namespace FtIrc

namespace Abnf

/-! ### Nodes, the way the builder adds them -/

namespace GrammarNode

def refer (rule : ℤ) : GrammarNode := { kind := .reference, lo := rule }

def catching (rule capture : ℤ) : GrammarNode := { kind := .reference, lo := rule, capture := capture }

def text (literal : ℤ) : GrammarNode := { kind := .literal, literal := literal }

def octets (lo hi : ℤ) : GrammarNode := { kind := .octetRange, lo := lo, hi := hi }

def row (first count : ℕ) : GrammarNode := { kind := .sequence, first := first, count := count }

def choice (first count : ℕ) : GrammarNode := { kind := .alternation, first := first, count := count }

def times (lo hi : ℤ) (first : ℕ) : GrammarNode := { kind := .repetition, lo := lo, hi := hi, first := first, count := 1 }

end GrammarNode

namespace EmbeddedGrammarSource

open ProgramCompiler

/-- `kGrammar`: the literals that stand one behind the other in the source. -/
def kGrammar : Str :=
  ["SPACE      =  %x20\n",
    "nospcrlfcl =  %x01-09 / %x0B-0C / %x0E-1F / %x21-39 / %x3B-FF\n",
    "middle     =  nospcrlfcl *( \":\" / nospcrlfcl )\n",
    "trailing   =  *( \":\" / \" \" / nospcrlfcl )\n",
    "letter     =  %x41-5A / %x61-7A\n",
    "digit      =  %x30-39\n",
    "special    =  %x5B-60 / %x7B-7D\n",
    "nickname   =  ( letter / special )",
    " *8( letter / digit / special / \"-\" )\n",
    "password   =  middle\n",
    "newnick    =  middle\n",
    "username   =  middle\n",
    "usermode   =  middle\n",
    "unused     =  middle\n",
    "realname   =  trailing\n",
    "quitmsg    =  trailing\n",
    "capsub     =  middle\n",
    "capparam   =  trailing\n",
    "pingtoken  =  trailing\n",
    "chanlist   =  middle\n",
    "keylist    =  middle\n",
    "partmsg    =  trailing\n",
    "msgtarget  =  middle\n",
    "msgtext    =  trailing\n",
    "kickchans  =  middle\n",
    "kickusers  =  middle\n",
    "kickreason =  trailing\n",
    "invnick    =  middle\n",
    "invchan    =  middle\n",
    "topicchan  =  middle\n",
    "topictext  =  trailing\n",
    "modetarget =  middle\n",
    "modestring =  middle\n",
    "modeparam  =  middle\n",
    "whomask    =  middle\n",
    "whoisnick  =  middle\n",
    "hostnick   =  middle\n",
    "cap-cmd    =  \"CAP\"",
    " [ SPACE $capsub [ SPACE [ \":\" ] $capparam ] ] *SPACE\n",
    "pass-cmd   =  \"PASS\" SPACE [ \":\" ] $password *SPACE\n",
    "nick-cmd   =  \"NICK\" SPACE [ \":\" ] $newnick *SPACE\n",
    "user-cmd   =  \"USER\" SPACE $username SPACE $usermode SPACE $unused",
    " SPACE \":\" $realname *SPACE\n",
    "quit-cmd   =  \"QUIT\" [ SPACE [ \":\" ] $quitmsg ] *SPACE\n",
    "pong-cmd   =  \"PONG\" [ SPACE [ \":\" ] $pingtoken ] *SPACE\n",
    "ping-cmd   =  \"PING\" [ SPACE [ \":\" ] $pingtoken ] *SPACE\n",
    "join-cmd   =  \"JOIN\" SPACE",
    " ( \"0\" / $chanlist [ SPACE $keylist ] ) *SPACE\n",
    "part-cmd   =  \"PART\" SPACE $chanlist",
    " [ SPACE [ \":\" ] $partmsg ] *SPACE\n",
    "privmsg-cmd = \"PRIVMSG\" SPACE $msgtarget",
    " SPACE [ \":\" ] $msgtext *SPACE\n",
    "notice-cmd =  \"NOTICE\" SPACE $msgtarget",
    " SPACE [ \":\" ] $msgtext *SPACE\n",
    "kick-cmd   =  \"KICK\" SPACE $kickchans SPACE $kickusers",
    " [ SPACE [ \":\" ] $kickreason ] *SPACE\n",
    "invite-cmd =  \"INVITE\" SPACE $invnick SPACE $invchan *SPACE\n",
    "topic-cmd  =  \"TOPIC\" SPACE $topicchan",
    " [ SPACE \":\" $topictext ] *SPACE\n",
    "mode-cmd   =  \"MODE\" SPACE $modetarget",
    " [ SPACE $modestring *13( SPACE $modeparam ) ] *SPACE\n",
    "who-cmd    =  \"WHO\" [ SPACE $whomask ] *SPACE\n",
    "whois-cmd  =  \"WHOIS\" SPACE [ middle SPACE ]",
    " $whoisnick *SPACE\n",
    "userhost-cmd = \"USERHOST\" SPACE $hostnick",
    " *4( SPACE $hostnick ) *SPACE\n",
    "command    =  1*letter / 3digit\n",
    "param      =  middle\n",
    "trail      =  trailing\n",
    "prefix     =  middle\n",
    "sp         =  1*SPACE\n",
    "params     =  *14( sp $param ) [ sp \":\" $trail ]\n",
    "           =/ 14( sp $param ) [ sp [ \":\" ] $trail ]\n",
    "message    =  *SPACE [ \":\" $prefix sp ] $command [ params ] *SPACE\n"].flatMap str

/-- What `GrammarBuilder::compile` makes of it. -/
def grammar : Grammar where
  nodes := [
    .octets 32 32, .octets 1 9, .octets 11 12, .octets 14 31, .octets 33 57, .octets 59 255, .choice 0 5, .refer 1,
    .text 0, .refer 1, .choice 5 2, .times 0 (-1) 7, .row 8 2, .text 1, .text 2, .refer 1, .choice 10 3,
    .times 0 (-1) 13, .octets 65 90, .octets 97 122, .choice 14 2, .octets 48 57, .octets 91 96, .octets 123 125,
    .choice 16 2, .refer 4, .refer 6, .choice 18 2, .refer 4, .refer 5, .refer 6, .text 3, .choice 20 4,
    .times 0 8 24, .row 25 2, .refer 2, .refer 2, .refer 2, .refer 2, .refer 2, .refer 3, .refer 3, .refer 2,
    .refer 3, .refer 3, .refer 2, .refer 2, .refer 3, .refer 2, .refer 3, .refer 2, .refer 2, .refer 3, .refer 2,
    .refer 2, .refer 2, .refer 3, .refer 2, .refer 2, .refer 2, .refer 2, .refer 2, .refer 2, .text 4, .refer 0,
    .catching 15 0, .refer 0, .text 5, .times 0 1 27, .catching 16 1, .row 28 3, .times 0 1 31, .row 32 3,
    .times 0 1 35, .refer 0, .times 0 (-1) 36, .row 37 3, .text 6, .refer 0, .text 7, .times 0 1 40, .catching 8 2,
    .refer 0, .times 0 (-1) 41, .row 42 5, .text 8, .refer 0, .text 9, .times 0 1 47, .catching 9 3, .refer 0,
    .times 0 (-1) 48, .row 49 5, .text 10, .refer 0, .catching 10 4, .refer 0, .catching 11 5, .refer 0,
    .catching 12 6, .refer 0, .text 11, .catching 13 7, .refer 0, .times 0 (-1) 54, .row 55 11, .text 12, .refer 0,
    .text 13, .times 0 1 66, .catching 14 8, .row 67 3, .times 0 1 70, .refer 0, .times 0 (-1) 71, .row 72 3,
    .text 14, .refer 0, .text 15, .times 0 1 75, .catching 17 9, .row 76 3, .times 0 1 79, .refer 0, .times 0 (-1) 80,
    .row 81 3, .text 16, .refer 0, .text 17, .times 0 1 84, .catching 17 9, .row 85 3, .times 0 1 88, .refer 0,
    .times 0 (-1) 89, .row 90 3, .text 18, .refer 0, .text 19, .catching 18 10, .refer 0, .catching 19 11, .row 93 2,
    .times 0 1 95, .row 96 2, .choice 98 2, .refer 0, .times 0 (-1) 100, .row 101 4, .text 20, .refer 0,
    .catching 18 10, .refer 0, .text 21, .times 0 1 105, .catching 20 12, .row 106 3, .times 0 1 109, .refer 0,
    .times 0 (-1) 110, .row 111 5, .text 22, .refer 0, .catching 21 13, .refer 0, .text 23, .times 0 1 116,
    .catching 22 14, .refer 0, .times 0 (-1) 117, .row 118 7, .text 24, .refer 0, .catching 21 13, .refer 0, .text 25,
    .times 0 1 125, .catching 22 14, .refer 0, .times 0 (-1) 126, .row 127 7, .text 26, .refer 0, .catching 23 15,
    .refer 0, .catching 24 16, .refer 0, .text 27, .times 0 1 134, .catching 25 17, .row 135 3, .times 0 1 138,
    .refer 0, .times 0 (-1) 139, .row 140 7, .text 28, .refer 0, .catching 26 18, .refer 0, .catching 27 19, .refer 0,
    .times 0 (-1) 147, .row 148 6, .text 29, .refer 0, .catching 28 20, .refer 0, .text 30, .catching 29 21,
    .row 154 3, .times 0 1 157, .refer 0, .times 0 (-1) 158, .row 159 5, .text 31, .refer 0, .catching 30 22,
    .refer 0, .catching 31 23, .refer 0, .catching 32 24, .row 164 2, .times 0 13 166, .row 167 3, .times 0 1 170,
    .refer 0, .times 0 (-1) 171, .row 172 5, .text 32, .refer 0, .catching 33 25, .row 177 2, .times 0 1 179,
    .refer 0, .times 0 (-1) 180, .row 181 3, .text 33, .refer 0, .refer 2, .refer 0, .row 184 2, .times 0 1 186,
    .catching 34 26, .refer 0, .times 0 (-1) 187, .row 188 5, .text 34, .refer 0, .catching 35 27, .refer 0,
    .catching 35 27, .row 193 2, .times 0 4 195, .refer 0, .times 0 (-1) 196, .row 197 5, .refer 4, .times 1 (-1) 202,
    .refer 5, .times 3 3 203, .choice 204 2, .refer 2, .refer 3, .refer 2, .refer 0, .times 1 (-1) 206, .refer 58,
    .catching 55 28, .row 207 2, .times 0 14 209, .refer 58, .text 35, .catching 56 29, .row 210 3, .times 0 1 213,
    .row 214 2, .refer 58, .catching 55 28, .row 216 2, .times 14 14 218, .refer 58, .text 36, .times 0 1 219,
    .catching 56 29, .row 220 3, .times 0 1 223, .row 224 2, .choice 226 2, .refer 0, .times 0 (-1) 228, .text 37,
    .catching 57 30, .refer 58, .row 229 3, .times 0 1 232, .catching 54 31, .refer 59, .times 0 1 233, .refer 0,
    .times 0 (-1) 234, .row 235 5]
  children := [
    1, 2, 3, 4, 5, 8, 9, 10, 7, 11, 13, 14, 15, 16, 18, 19, 22, 23, 25, 26, 28, 29, 30, 31, 32, 27, 33, 67, 66, 68,
    69, 70, 64, 65, 71, 72, 74, 63, 73, 75, 79, 82, 77, 78, 80, 81, 83, 87, 90, 85, 86, 88, 89, 91, 103, 93, 94, 95,
    96, 97, 98, 99, 100, 101, 102, 104, 108, 107, 109, 110, 111, 113, 106, 112, 114, 118, 117, 119, 120, 121, 123,
    116, 122, 124, 128, 127, 129, 130, 131, 133, 126, 132, 134, 140, 141, 142, 139, 143, 138, 144, 146, 136, 137,
    145, 147, 153, 152, 154, 155, 156, 158, 149, 150, 151, 157, 159, 165, 168, 161, 162, 163, 164, 166, 167, 169,
    175, 178, 171, 172, 173, 174, 176, 177, 179, 187, 186, 188, 189, 190, 192, 181, 182, 183, 184, 185, 191, 193,
    200, 195, 196, 197, 198, 199, 201, 206, 207, 208, 209, 211, 203, 204, 205, 210, 212, 219, 220, 221, 217, 218,
    222, 223, 225, 214, 215, 216, 224, 226, 229, 230, 231, 233, 228, 232, 234, 238, 239, 240, 243, 236, 237, 241,
    242, 244, 249, 250, 251, 253, 246, 247, 248, 252, 254, 256, 258, 257, 259, 264, 266, 267, 268, 270, 271, 272,
    273, 269, 274, 276, 277, 278, 281, 280, 282, 283, 284, 279, 285, 275, 286, 288, 290, 291, 292, 293, 296, 298,
    289, 294, 295, 297, 299]
  literals := [
    str ":", str ":", str " ", str "-", str "CAP", str ":", str "PASS", str ":", str "NICK", str ":", str "USER",
    str ":", str "QUIT", str ":", str "PONG", str ":", str "PING", str ":", str "JOIN", str "0", str "PART", str ":",
    str "PRIVMSG", str ":", str "NOTICE", str ":", str "KICK", str ":", str "INVITE", str "TOPIC", str ":",
    str "MODE", str "WHO", str "WHOIS", str "USERHOST", str ":", str ":", str ":"]
  captureNames := [
    str "capsub", str "capparam", str "password", str "newnick", str "username", str "usermode", str "unused",
    str "realname", str "quitmsg", str "pingtoken", str "chanlist", str "keylist", str "partmsg", str "msgtarget",
    str "msgtext", str "kickchans", str "kickusers", str "kickreason", str "invnick", str "invchan", str "topicchan",
    str "topictext", str "modetarget", str "modestring", str "modeparam", str "whomask", str "whoisnick",
    str "hostnick", str "param", str "trail", str "prefix", str "command"]
  ruleNames := [
    str "space", str "nospcrlfcl", str "middle", str "trailing", str "letter", str "digit", str "special",
    str "nickname", str "password", str "newnick", str "username", str "usermode", str "unused", str "realname",
    str "quitmsg", str "capsub", str "capparam", str "pingtoken", str "chanlist", str "keylist", str "partmsg",
    str "msgtarget", str "msgtext", str "kickchans", str "kickusers", str "kickreason", str "invnick", str "invchan",
    str "topicchan", str "topictext", str "modetarget", str "modestring", str "modeparam", str "whomask",
    str "whoisnick", str "hostnick", str "cap-cmd", str "pass-cmd", str "nick-cmd", str "user-cmd", str "quit-cmd",
    str "pong-cmd", str "ping-cmd", str "join-cmd", str "part-cmd", str "privmsg-cmd", str "notice-cmd",
    str "kick-cmd", str "invite-cmd", str "topic-cmd", str "mode-cmd", str "who-cmd", str "whois-cmd",
    str "userhost-cmd", str "command", str "param", str "trail", str "prefix", str "sp", str "params", str "message"]
  ruleRoots := [
    0, 6, 12, 17, 20, 21, 24, 34, 35, 36, 37, 38, 39, 40, 41, 42, 43, 44, 45, 46, 47, 48, 49, 50, 51, 52, 53, 54, 55,
    56, 57, 58, 59, 60, 61, 62, 76, 84, 92, 105, 115, 125, 135, 148, 160, 170, 180, 194, 202, 213, 227, 235, 245,
    255, 260, 261, 262, 263, 265, 287, 300]

set_option maxRecDepth 20000 in
theorem compile_kGrammar : compile .machine kGrammar = .ok grammar := by
  have hcompiled : (compile .machine kGrammar).toOption = some grammar := by decide +kernel
  rcases hresult : compile .machine kGrammar with e | g
  · rw [hresult] at hcompiled
    cases hcompiled
  · rw [hresult] at hcompiled
    exact congrArg Except.ok (Option.some.inj hcompiled)

/-! ### What kind of grammar it is -/

theorem accepted : grammar.Accepted := accepted_compile compile_kGrammar

theorem branched : grammar.Branched := branched_compile compile_kGrammar

/-- **What is computed of a node**: a rule is referred to from behind it, and is no capture inside of a capture; the limits of
a repetition are fine and not far off, and what is repeated more than once matches something, without a capture if
there is no limit. -/
def Fine (g : Grammar) (i : ℕ) : Prop :=
  ((g.node i).kind = .reference → (g.ruleRoot (g.node i).lo).toNat < i ∧
    ((g.node i).capture ≠ kNoCapture → hasCapture g 50 (g.ruleRoot (g.node i).lo).toNat = some false)) ∧
  ((g.node i).kind = .repetition → (0 ≤ (g.node i).lo ∧ ((g.node i).hi = kUnbounded ∨ (g.node i).lo ≤ (g.node i).hi)) ∧
    ((g.node i).hi ≠ 0 → (g.node i).hi ≠ 1 → g.isNullable g.walkFuel (g.child (g.node i).first) ∅ = false) ∧
    ((g.node i).hi = kUnbounded → hasCapture g 50 (g.child (g.node i).first) = some false) ∧
    (g.node i).hi - (g.node i).lo ≤ kUnrollLimit)

instance (g : Grammar) : DecidablePred (Fine g) := fun _ => inferInstanceAs (Decidable (_ ∧ _))

set_option maxRecDepth 4000 in
theorem fine : ∀ i < grammar.nodes.length, Fine grammar i := by decide +kernel

theorem boundsFine : grammar.EveryNode GrammarNode.BoundsFine := by
  intro n hn hkind
  obtain ⟨i, hi, rfl⟩ := List.mem_iff_getElem.mp hn
  have hnode : grammar.node i = grammar.nodes[i] := List.getD_eq_getElem _ _ hi
  rw [← hnode] at hkind ⊢
  exact ((fine i hi).2 hkind).1

/-- Rules refer to nodes in front only. -/
theorem not_reachesRecursion {rule : ℤ} (hrule : rule ∈ grammar.rules) : ¬ grammar.ReachesRecursion (grammar.ruleRoot rule).toNat :=
  Grammar.not_reachesRecursion_of_lt accepted.ordered (fun i hi hkind => ((fine i hi).1 hkind).1)
    (accepted.ordered.root_lt (accepted.root_ne hrule))

theorem progresses : grammar.Progresses :=
  Grammar.progresses_of_isNullable accepted.ordered fun i hi hkind => ((fine i hi).2 hkind).2.1

theorem flatCaptures : grammar.FlatCaptures :=
  Grammar.flatCaptures_of_hasCapture fun i hi hkind => ((fine i hi).1 hkind).2

theorem unrollable : grammar.Unrollable where
  loops i hkind hhi := ⟨50, ((fine i (Grammar.lt_of_repetition hkind)).2 hkind).2.2.1 hhi⟩
  limits i hkind := ((fine i (Grammar.lt_of_repetition hkind)).2 hkind).2.2.2

/-! ### Both strategies -/

variable {rule : ℤ} {line : Str} {tables tables' : Grammar.OctetTables} {k : ℕ}
  {r : Option MatchResult} {result : MatchResult} {m : ProgramMatcher}

/-- **Every rule has a program.** -/
theorem exists_compile (hrule : rule ∈ grammar.rules) : ∃ k p, ProgramCompiler.compile grammar k rule = some (.ok p) :=
  exists_program accepted boundsFine unrollable hrule (not_reachesRecursion hrule)

/-- A matcher can be set up. -/
theorem exists_compileAll : ∃ k m, ProgramMatcher.compileAll grammar k (.new grammar) = some (true, m) :=
  ProgramMatcher.Used.new.table.exists_compileAll fun _ hrule _ => exists_compile hrule

/-! ### What either strategy finds -/

/-- What is found through the pattern of a rule. -/
def search (rule : ℤ) (line : Str) : Option MatchResult :=
  if grammar.ruleRoot rule = kNoRule then none
  else (grammar.pattern 60 (grammar.ruleRoot rule).toNat).bind fun a =>
    (a.eval inBits treeNotes (Machine.whenDone []) line).map grammar.reported

set_option maxRecDepth 4000 in
theorem pattern_isSome : ∀ i < 61, (grammar.pattern 60 (grammar.ruleRoot (i : ℕ)).toNat).isSome = true := by decide +kernel

/-- The octets of a line, as a mask. -/
def lineMask : ℕ := 2 ^ 256 - 1 - (2 ^ NUL.toNat + 2 ^ LF.toNat + 2 ^ CR.toNat)

set_option maxRecDepth 8000 in
theorem testBit_lineMask {c : Octet} (hc : LineOctet c) : lineMask.testBit c.toNat = true := by
  have hall : ∀ n < 256, LineOctet (UInt8.ofNat n) → lineMask.testBit n = true := by decide +kernel
  have hbit := hall c.toNat c.toNat_lt
  rw [UInt8.ofNat_toNat] at hbit
  exact hbit hc

set_option maxRecDepth 4000 in
/-- **No rule is too much for the interpreter** on a line of at most 3000 octets. -/
theorem cost_within : ∀ i < 61, (grammar.cost lineMask 60 (grammar.ruleRoot (i : ℕ)).toNat { sureAtEnd := true }).any
    (fun b => decide (b.most + b.rate * 3000 ≤ 200000 ∧ b.depth ≤ 256)) = true := by decide +kernel

theorem exists_index (hrule : rule ∈ grammar.rules) : ∃ i < 61, rule = (i : ℕ) := by
  obtain ⟨i, hi, rfl⟩ := Finset.mem_image.mp hrule
  exact ⟨i, Finset.mem_range.mp hi, rfl⟩

/-- The pattern of a rule. -/
theorem exists_pattern (hrule : rule ∈ grammar.rules) : ∃ a, grammar.Shape (grammar.ruleRoot rule).toNat a ∧
    ∀ line, search rule line = (a.eval inBits treeNotes (Machine.whenDone []) line).map grammar.reported := by
  obtain ⟨i, hi, rfl⟩ := exists_index hrule
  obtain ⟨a, ha⟩ := Option.isSome_iff_exists.mp (pattern_isSome i hi)
  refine ⟨a, ⟨60, ha⟩, fun line => ?_⟩
  rw [search, if_neg (accepted.root_ne hrule), ha, Option.bind_some]

/-- What is found is cut out of the line. -/
theorem infixOf_search (h : search rule line = some result) : result.InfixOf line := by
  by_cases hroot : grammar.ruleRoot rule = kNoRule
  · rw [search, if_pos hroot] at h
    cases h
  have hrule : rule ∈ grammar.rules := accepted.ordered.mem_rules hroot
  obtain ⟨a, hshape, hsearch⟩ := exists_pattern hrule
  obtain ⟨k, tables', hrun⟩ := (TreeMatcher.run_unlimited_iff accepted boundsFine (fun i => hi_lt_of_compile compile_kGrammar)
    .empty hroot hshape).mpr ⟨(hsearch line).symm.trans h |>.symm, rfl⟩
  exact (TreeMatcher.reports_run accepted boundsFine .empty hrun).infixOf

/-- **The matcher that both strategies are**, on the grammar that comes with the server. -/
def matcher : Matcher where
  grammar := grammar
  run := search
  infixOf := infixOf_search

/-- **The interpreter finds this** in a line of the length a server takes in, without giving up. -/
theorem run_treeMatcher_iff (hrule : rule ∈ grammar.rules) (hline : OneLine line) (hlen : line.length ≤ 3000)
    (htables : grammar.Filled tables) {exhausted : Bool} :
    (∃ k tables', TreeMatcher.run .server grammar line k rule tables = some (r, exhausted, tables')) ↔
      r = matcher.run rule line ∧ exhausted = false := by
  obtain ⟨a, hshape, hsearch⟩ := exists_pattern hrule
  obtain ⟨b, hcost, hwithin⟩ : ∃ b, grammar.cost lineMask 60 (grammar.ruleRoot rule).toNat { sureAtEnd := true } = some b ∧
      (b.most + b.rate * 3000 ≤ 200000 ∧ b.depth ≤ 256) := by
    obtain ⟨i, hi, rfl⟩ := exists_index hrule
    obtain ⟨b, hb, hwithin⟩ := (Option.any_eq_true _ _).mp (cost_within i hi)
    exact ⟨b, hb, of_decide_eq_true hwithin⟩
  have hsteps : b.most + b.rate * line.length ≤ 200000 := by
    have := Nat.mul_le_mul_left b.rate hlen
    omega
  have hsame : ∀ k, TreeMatcher.run .server grammar line k rule tables = TreeMatcher.run .unlimited grammar line k rule tables :=
    fun k => (TreeMatcher.run_eq_unlimited accepted (fun c hc => testBit_lineMask (hline c hc)) hcost hsteps hwithin.2 htables).1
  simp only [hsame]
  exact (TreeMatcher.run_unlimited_iff accepted boundsFine (fun i => hi_lt_of_compile compile_kGrammar) htables
    (accepted.root_ne hrule) hshape).trans (by rw [← hsearch]; rfl)

/-- **So does the machine that runs the programs**, whatever it has matched before. -/
theorem run_programMatcher_iff (hrule : rule ∈ grammar.rules) (hm : ProgramMatcher.Used grammar m)
    (hlt : m.generation.toNat + line.length + 1 < 2 ^ 32) (hshort : line.length < 2 ^ 31) :
    (∃ k m', ProgramMatcher.run grammar k rule line m = some (r, m')) ↔ r = matcher.run rule line := by
  obtain ⟨a, hshape, hsearch⟩ := exists_pattern hrule
  obtain ⟨k, p, hp⟩ := exists_compile hrule
  refine (ProgramMatcher.run_iff_eval accepted branched boundsFine progresses flatCaptures hshape hp hm hlt hshort).trans ?_
  rw [← hsearch]
  rfl

/-- **Switching the strategy changes nothing**: on the grammar that comes with the server, neither gives up,
and both report the same, whatever lines they have matched before. -/
theorem strategies_agree (hrule : rule ∈ grammar.rules) (hline : OneLine line) (hlen : line.length ≤ 3000)
    (htables : grammar.Filled tables) (hm : ProgramMatcher.Used grammar m) (hlt : m.generation.toNat + line.length + 1 < 2 ^ 32) :
    (∀ r exhausted, (∃ k tables', TreeMatcher.run .server grammar line k rule tables = some (r, exhausted, tables')) ↔
        r = matcher.run rule line ∧ exhausted = false) ∧
      ∀ r, (∃ k m', ProgramMatcher.run grammar k rule line m = some (r, m')) ↔ r = matcher.run rule line :=
  ⟨fun _ _ => run_treeMatcher_iff hrule hline hlen htables, fun _ => run_programMatcher_iff hrule hm hlt (by omega)⟩

set_option maxRecDepth 4000 in
theorem strategies_agree_nick : ∃ r : MatchResult, r.sequence = [str "bob"] ∧
    (∃ k tables', TreeMatcher.run .server grammar (str "NICK bob") k 38 {} = some (some r, false, tables')) ∧
    ∃ k m', ProgramMatcher.run grammar k 38 (str "NICK bob") (.new grammar) = some (some r, m') := by
  have hrule : (38 : ℤ) ∈ grammar.rules := by decide
  have hline : OneLine (str "NICK bob") := by decide
  obtain ⟨htree, hprogram⟩ := strategies_agree hrule hline (by decide) .empty .new (by decide)
  have hfound : (matcher.run 38 (str "NICK bob")).map (·.sequence) = some [str "bob"] := by decide +kernel
  obtain ⟨r, hr, hsequence⟩ := Option.map_eq_some_iff.mp hfound
  exact ⟨r, hsequence, (htree _ _).mpr ⟨hr.symm, rfl⟩, (hprogram _).mpr hr.symm⟩

end EmbeddedGrammarSource

end Abnf

end FtIrc
