import FtIrc.LibcppReference
import FtIrc.Server.Ages

/-!
# Sessions, and one that is rehearsed

A session is a list of lines from the clients of a server, handled one after another;
what it leads to is reachable as long as every line is one, from a client that is there
when it arrives (`FtIrc.Server.Reachable.session`).

The session `FtIrc.Server.rehearsal` is the concrete run most results are tried on: two
clients register with the password of the server and meet on a channel. The lines in
it are read by a strategy that has their captures in a table.
-/

namespace FtIrc

namespace Abnf

/-- What a match hands back that caught these texts, under these names. -/
def MatchResult.ofCaptures (g : Grammar) (captures : List (Str × Str)) : MatchResult where
  names := g.captureNames
  values := g.captureNames.map fun name =>
    (captures.filter fun e => decide (e.1 = name)).map Prod.snd
  sequence := captures.map Prod.snd
  owners := captures.map fun e => g.captureIndex e.1

/-- A strategy that knows a table of lines by heart: the rule that matches, the line, and
what is caught in it. -/
def Matcher.ofTable (g : Grammar) (table : List (Str × Str × List (Str × Str))) : Matcher where
  grammar := g
  run rule line :=
    ((table.find? fun e => decide (g.ruleIndex e.1 = rule ∧ e.2.1 = line)).map fun e =>
      MatchResult.ofCaptures g e.2.2).filter fun r =>
        decide ((∀ t ∈ r.sequence, t <:+: line) ∧ ∀ ts ∈ r.values, ∀ t ∈ ts, t <:+: line)
  infixOf {_ line r} h :=
    show (∀ t ∈ r.sequence, t <:+: line) ∧ ∀ ts ∈ r.values, ∀ t ∈ ts, t <:+: line from
      of_decide_eq_true (Option.filter_eq_some_iff.mp h).2

end Abnf

open Abnf

variable [Libcpp]

namespace Server

variable {M : Matcher} {s : Server}

/-- The server after lines from several clients, one after another. -/
def session (M : Matcher) (s : Server) (lines : List (ClientId × Str)) : Server :=
  lines.foldl (fun s e => s.handleMessage M e.1 e.2) s

/-- Whether every line of a session is one, of a client that is there when it arrives. -/
def sessionOk (M : Matcher) : Server → List (ClientId × Str) → Bool
  | _, [] => true
  | s, (p, raw) :: rest =>
    decide (s.clients.get? (s.deref p).fd = some p ∧ (s.deref p).tearingDown = false ∧
      OneLine raw) && sessionOk M (s.handleMessage M p raw) rest

/-- **A session is a run.** -/
theorem steps_session {lines : List (ClientId × Str)} (hok : sessionOk M s lines = true) :
    Steps M s (session M s lines) := by
  induction lines generalizing s with
  | nil => exact .refl
  | cons e lines ih =>
    obtain ⟨hline, hrest⟩ := (Bool.and_eq_true _ _).mp hok
    obtain ⟨hclients, htd, hraw⟩ := of_decide_eq_true hline
    exact .head (.client e.1 (.line s e.2 ⟨hclients, htd⟩ hraw)) (ih hrest)

theorem Reachable.steps {t : Server} (h : Reachable M s) (hrun : Steps M s t) : Reachable M t := by
  induction hrun with
  | refl => exact h
  | tail _ hstep ih => exact ih.step hstep

/-- **What a session leads to is reachable.** -/
theorem Reachable.session {lines : List (ClientId × Str)} (h : Reachable M s)
    (hok : sessionOk M s lines = true) : Reachable M (session M s lines) :=
  h.steps (steps_session hok)

/-! ### A rehearsal -/

/-- The rules and captures of the grammar that the rehearsed lines need. -/
def rehearsalGrammar : Grammar where
  ruleNames := [str "message", str "join-cmd"]
  captureNames := [str "command", str "prefix", str "middle", str "trail", str "chanlist"]

/-- The captures of a command with middle parameters. -/
def middles (command : String) (params : List String) : List (Str × Str) :=
  (str "command", str command) :: params.map fun param => (str "middle", str param)

/-- The lines of the rehearsal, and what is caught in them. -/
def rehearsalMatcher : Matcher := .ofTable rehearsalGrammar
  [(str "message", str "PASS secret", middles "PASS" ["secret"]),
    (str "message", str "NICK alice", middles "NICK" ["alice"]),
    (str "message", str "NICK bob", middles "NICK" ["bob"]),
    (str "message", str "USER u 0 * :U",
      middles "USER" ["u", "0", "*"] ++ [(str "trail", str "U")]),
    (str "join-cmd", str "JOIN #a",
      [(str "command", str "JOIN"), (str "chanlist", str "#a")]),
    (str "message", str "MODE #a +i", middles "MODE" ["#a", "+i"]),
    (str "message", str "MODE #a +o bob", middles "MODE" ["#a", "+o", "bob"]),
    (str "message", str "MODE #a +klo , , ,", middles "MODE" ["#a", "+klo", ",", ",", ","]),
    (str "message", str "MODE #a -k+o key bob", middles "MODE" ["#a", "-k+o", "key", "bob"]),
    (str "message", str "PRIVMSG #a", middles "PRIVMSG" ["#a"]),
    (str "message", str "FILE SEND bob f 3", middles "FILE" ["SEND", "bob", "f", "3"]),
    (str "message", str "FILE ACCEPT 1", middles "FILE" ["ACCEPT", "1"]),
    (str "message", str "FILE DATA 1 QUJD", middles "FILE" ["DATA", "1", "QUJD"]),
    (str "message", str "FILE END 1", middles "FILE" ["END", "1"])]

omit [Libcpp] in
/-- Two clients were accepted, on the descriptors 4 and 5. -/
def doorway : letI := referenceLibcpp; Server :=
  letI := referenceLibcpp
  ((started (str "secret") 30 0 []).acceptClient 4 (inetNtoa 127 0 0 1)).acceptClient 5
    (inetNtoa 127 0 0 1)

/-- What the two say: they register, and one of them joins a channel. -/
def script : List (ClientId × Str) :=
  [(0, str "PASS secret"), (0, str "NICK alice"), (0, str "USER u 0 * :U"), (0, str "JOIN #a"),
    (1, str "PASS secret"), (1, str "NICK bob"), (1, str "USER u 0 * :U")]

/-- A channel with its founder, and somebody at the door. -/
def threshold : letI := referenceLibcpp; Server :=
  letI := referenceLibcpp
  session rehearsalMatcher doorway script

omit [Libcpp] in
theorem reachable_threshold : letI := referenceLibcpp; Reachable rehearsalMatcher threshold :=
  letI := referenceLibcpp
  Reachable.session (((Reachable.start (str "secret") 30 0 []).step (.accept _ 4 127 0 0 1 rfl)).step
    (.accept _ 5 127 0 0 1 rfl)) (by decide)

/-- **Two clients on a channel**, the first of them its operator. -/
def rehearsal : letI := referenceLibcpp; Server :=
  letI := referenceLibcpp
  threshold.handleMessage rehearsalMatcher 1 (str "JOIN #a")

omit [Libcpp] in
theorem step_rehearsal : letI := referenceLibcpp; Step rehearsalMatcher threshold rehearsal :=
  letI := referenceLibcpp
  .client 1 (.line threshold (str "JOIN #a") ⟨by decide, by decide⟩ (by decide))

omit [Libcpp] in
theorem reachable_rehearsal : letI := referenceLibcpp; Reachable rehearsalMatcher rehearsal :=
  letI := referenceLibcpp
  reachable_threshold.step step_rehearsal

end Server

end FtIrc
