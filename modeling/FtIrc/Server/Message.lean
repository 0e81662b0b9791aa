import FtIrc.Grammar.Arena
import FtIrc.Libcpp

/-!
# From a line to a message

The part of `Server::handleMessage` that turns a line into a
`FtIrc.Message`, before any command runs: the production of the command if there
is one and it matches, the generic `message` production otherwise.
-/

namespace FtIrc

open Abnf

/-- `struct Message`. -/
structure Message where
  command : Str := []
  params : List Str := []
  trailingIndex : ℤ := -1
  /-- The fields of a command production, `NULL` when only the generic production
  matched. -/
  fields : Option MatchResult := none

namespace Message

variable (msg : Message)

def matched : Bool := msg.fields.isSome

/-- `Message::has`. -/
def has (name : String) : Bool :=
  match msg.fields with
  | some r => r.has (str name)
  | none => false

/-- `Message::field`: the first text of a capture, empty if there is none. -/
def field (name : String) : Str :=
  match msg.fields with
  | some r => r.get (str name)
  | none => []

/-- `params[i]`. -/
def param (i : ℕ) : Str := msg.params.getD i []

variable {msg} in
/-- A message whose first parameter begins with an octet has one. -/
theorem some_of_head {c : Octet} (h : (msg.param 0).head? = some c) :
    ¬(msg.params = [] ∨ msg.param 0 = []) := by
  rintro (hnil | hnil)
  · simp [param, hnil] at h
  · simp [hnil] at h

variable [Libcpp]

/-- `Message::list`. -/
def list (name : String) (separator : Octet) : List Str :=
  match msg.fields with
  | some r => Libcpp.splitNonempty (r.get (str name)) separator
  | none => []

/-- `Message::listKeepEmpty`. -/
def listKeepEmpty (name : String) (separator : Octet) : List Str :=
  match msg.fields with
  | some r => Libcpp.split (r.get (str name)) separator
  | none => []

end Message

/-! ### Building a message -/

namespace Abnf.Matcher

variable (M : Matcher)

/-- `Server::bindCommandRules`: the command rules of the grammar by the name of
the command. -/
def commandRules : OrdMap Str ℤ :=
  M.grammar.ruleNames.zipIdx.foldl
    (fun rules e =>
      let suffix := str "-cmd"
      if e.1.length ≤ suffix.length then rules
      else if e.1.drop (e.1.length - suffix.length) ≠ suffix then rules
      else rules.insert (asciiRaise (e.1.take (e.1.length - suffix.length))) e.2)
    OrdMap.empty

/-- `Server::commandRule`. -/
def commandRule (command : Str) : ℤ := (M.commandRules.get? command).getD kNoRule

/-- `Server::_messageRule`. -/
def messageRule : ℤ := M.grammar.ruleIndex (str "message")

/-- `Server::firstToken`: the command of a line without a prefix, in upper case. -/
def firstToken (raw : Str) : Str :=
  let rest := raw.dropWhile (· == SPACE)
  if rest.head? = some COLON then [] else asciiRaise (rest.takeWhile (· != SPACE))

/-- `Server::fillParams`: everything captured but the command and the prefix. -/
def fillParams (fields : MatchResult) : List Str :=
  let commandSlot := M.grammar.captureIndex (str "command")
  let prefixSlot := M.grammar.captureIndex (str "prefix")
  ((fields.sequence.zip fields.owners).filter fun e =>
    !(e.2 == commandSlot || e.2 == prefixSlot)).map Prod.fst

/-- `Server::parseLine`: the generic production. -/
def parseLine (raw : Str) : Option Message :=
  (M.run M.messageRule raw).map fun result =>
    let params := M.fillParams result
    { command := asciiRaise (result.get (str "command"))
      params := params
      trailingIndex := if result.count (str "trail") > 0 then (params.length : ℤ) - 1 else -1 }

/-- The message of a line that matches the production of its command. -/
def commandMessage (raw : Str) : Option Message :=
  let name := firstToken raw
  let rule := if name = [] then kNoRule else M.commandRule name
  if rule = kNoRule then none
  else (M.run rule raw).map fun fields =>
    { command := name, params := M.fillParams fields, fields := some fields }

/-- **The message `Server::handleMessage` builds from a line**, `none` where it
gives the line up. -/
def buildMessage (raw : Str) : Option Message :=
  ((M.commandMessage raw).or (M.parseLine raw)).filter fun msg => decide (msg.command ≠ [])

end Abnf.Matcher

/-! ### A message of a one-line text is made of one-line texts -/

/-- **Every text of the message is one line.** -/
structure Message.OneLine (msg : Message) : Prop where
  command : FtIrc.OneLine msg.command
  params : ∀ t ∈ msg.params, FtIrc.OneLine t
  fields : ∀ r, msg.fields = some r → ∀ name i, FtIrc.OneLine (r.textAt name i)

namespace Message.OneLine

variable {msg : Message} (h : msg.OneLine)

include h

theorem param (i : ℕ) : FtIrc.OneLine (msg.param i) :=
  getD_of_forall FtIrc.OneLine.nil h.params i

theorem field (name : String) : FtIrc.OneLine (msg.field name) := by
  rw [Message.field]
  rcases hf : msg.fields with _ | r
  · exact FtIrc.OneLine.nil
  · exact h.fields r hf _ _

end Message.OneLine

/-- The pieces of a split text are made of its octets. -/
theorem subset_of_mem_splitOnP {p : Octet → Bool} {s t : Str} (ht : t ∈ s.splitOnP p) : t ⊆ s := by
  induction s generalizing t with
  | nil =>
    rw [List.splitOnP_nil, List.mem_singleton] at ht
    exact ht ▸ List.Subset.refl _
  | cons c s ih =>
    rw [List.splitOnP_cons_eq_if_modifyHead] at ht
    split_ifs at ht
    · rcases List.mem_cons.mp ht with rfl | ht
      · exact List.nil_subset _
      · exact List.Subset.trans (ih ht) (List.subset_cons_self c s)
    · obtain ⟨u, us, hus⟩ := List.exists_cons_of_ne_nil (List.splitOnP_ne_nil p s)
      rw [hus, List.modifyHead_cons] at ht
      rcases List.mem_cons.mp ht with rfl | ht
      · exact List.cons_subset_cons c (ih (hus ▸ List.mem_cons_self))
      · exact List.Subset.trans (ih (hus ▸ List.mem_cons_of_mem _ ht)) (List.subset_cons_self c s)

/-- No piece of a split text holds a separator. -/
theorem not_of_mem_splitOnP {p : Octet → Bool} {s t : Str} {c : Octet} (ht : t ∈ s.splitOnP p)
    (hc : c ∈ t) : p c = false := by
  induction s generalizing t with
  | nil =>
    rw [List.splitOnP_nil, List.mem_singleton] at ht
    exact absurd (ht ▸ hc) (by simp)
  | cons d s ih =>
    rw [List.splitOnP_cons_eq_if_modifyHead] at ht
    split_ifs at ht with hd
    · rcases List.mem_cons.mp ht with rfl | ht
      · exact absurd hc (by simp)
      · exact ih ht hc
    · obtain ⟨u, us, hus⟩ := List.exists_cons_of_ne_nil (List.splitOnP_ne_nil p s)
      rw [hus, List.modifyHead_cons] at ht
      rcases List.mem_cons.mp ht with rfl | ht
      · rcases List.mem_cons.mp hc with rfl | hc
        · exact Bool.not_eq_true _ ▸ hd
        · exact ih (hus ▸ List.mem_cons_self) hc
      · exact ih (hus ▸ List.mem_cons_of_mem _ ht) hc

namespace Message.OneLine

variable [Libcpp] {msg : Message} (h : msg.OneLine)

include h

theorem list {name : String} {separator : Octet} {t : Str} (ht : t ∈ msg.list name separator) :
    FtIrc.OneLine t := by
  rw [Message.list] at ht
  rcases hf : msg.fields with _ | r
  · rw [hf] at ht
    exact absurd ht (by simp)
  · rw [hf] at ht
    simp only [Libcpp.splitNonempty_eq, List.mem_filter] at ht
    exact (h.fields r hf _ 0).of_subset (subset_of_mem_splitOnP ht.1)

end Message.OneLine

/-- **A message built from a one-line text is made of one-line texts**, whatever
the strategy: everything it holds is cut out of the line, and the command is
raised to upper case. -/
theorem Abnf.Matcher.oneLine_buildMessage (M : Matcher) {raw : Str} {msg : Message}
    (hraw : FtIrc.OneLine raw) (h : M.buildMessage raw = some msg) : msg.OneLine := by
  have hcut : ∀ {t : Str}, t <:+: raw → FtIrc.OneLine t := fun ht => hraw.of_subset ht.subset
  have hparams : ∀ {r : MatchResult}, r.InfixOf raw → ∀ t ∈ M.fillParams r, FtIrc.OneLine t := by
    intro r hr t ht
    obtain ⟨e, he, rfl⟩ := List.mem_map.mp ht
    exact hcut (hr.1 _ (List.of_mem_zip (List.mem_of_mem_filter he)).1)
  obtain ⟨hor, -⟩ := Option.filter_eq_some_iff.mp h
  rcases Option.or_eq_some_iff.mp hor with hcmd | ⟨-, hparse⟩
  · have hname : FtIrc.OneLine (firstToken raw) := by
      rw [firstToken]
      split_ifs
      · exact FtIrc.OneLine.nil
      · exact ((hraw.dropWhile _).takeWhile _).asciiRaise
    rw [commandMessage] at hcmd
    split_ifs at hcmd
    all_goals
      obtain ⟨r, hr, rfl⟩ := Option.map_eq_some_iff.mp hcmd
      have hinf := M.infixOf hr
      refine ⟨hname, hparams hinf, fun r' hr' name i => ?_⟩
      rw [Option.some.injEq] at hr'
      exact hr' ▸ hcut (hinf.textAt name i)
  · obtain ⟨r, hr, rfl⟩ := Option.map_eq_some_iff.mp hparse
    have hinf := M.infixOf hr
    exact ⟨(hcut (hinf.textAt _ 0)).asciiRaise, hparams hinf, fun r hf => absurd hf (by simp)⟩

end FtIrc
