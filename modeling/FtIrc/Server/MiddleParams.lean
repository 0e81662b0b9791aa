import FtIrc.Server.ErrorLines
import FtIrc.Server.Names

/-!
# Replies without a hole

A reply names its parameters one after another with single spaces between, and the last
may be a text behind a colon. A client that splits the line at the spaces loses count if
two of them stand side by side before that text (`FtIrc.hasEmptyMiddleParam`, the detector
of the conformance tests).

What the server itself puts into a reply never makes such a hole: names, hosts, topic
setters, keys and numbers are words with at least one octet (`FtIrc.Server.Presented`).
What a client asked for and the server repeats in an error may. So each handler is gone
through here for the values it repeats, and answers without holes if they are tidy
(`FtIrc.Tidy`); which values those are is put together in `FtIrc.Server.Echoes`.
-/

namespace FtIrc

open Abnf

variable [Libcpp]

/-! ### Two spaces side by side -/

/-- **Two adjacent spaces before the trailing parameter**, that is before the first space
with a colon behind it. -/
def hasEmptyMiddleParam : Str → Bool
  | a :: b :: rest =>
    if a = SPACE ∧ b = SPACE then true
    else if a = SPACE ∧ b = COLON then false
    else hasEmptyMiddleParam (b :: rest)
  | _ => false

/-- What stands behind a space in a reply, and is in order there. -/
def Neat (a : Str) : Prop := hasEmptyMiddleParam (SPACE :: a) = false

/-- **A value that may stand between two spaces**. -/
def Tidy (v : Str) : Prop := hasEmptyMiddleParam (SPACE :: (v ++ [SPACE])) = false

instance : DecidablePred Neat := fun a => inferInstanceAs (Decidable (hasEmptyMiddleParam (SPACE :: a) = false))

instance : DecidablePred Tidy := fun v =>
  inferInstanceAs (Decidable (hasEmptyMiddleParam (SPACE :: (v ++ [SPACE])) = false))

section Scanning

variable {a v w x : Str} {c : Octet}

omit [Libcpp] in
/-- An octet that is no space is passed over. -/
theorem hasEmptyMiddleParam_cons (hc : c ≠ SPACE) : hasEmptyMiddleParam (c :: w) = hasEmptyMiddleParam w := by
  rcases w with _ | ⟨d, w⟩
  · rfl
  · rw [hasEmptyMiddleParam, if_neg fun h => hc h.1, if_neg fun h => hc h.1]

omit [Libcpp] in
/-- A word is passed over. -/
theorem hasEmptyMiddleParam_append (hw : IsWord w) : hasEmptyMiddleParam (w ++ x) = hasEmptyMiddleParam x := by
  induction w with
  | nil => rfl
  | cons c w ih =>
    obtain ⟨hc, hw⟩ := IsWord.cons_iff.mp hw
    rw [List.cons_append, hasEmptyMiddleParam_cons hc, ih hw]

omit [Libcpp] in
/-- **What is cut off makes no hole.** -/
theorem hasEmptyMiddleParam_take (k : ℕ) (h : hasEmptyMiddleParam w = false) :
    hasEmptyMiddleParam (w.take k) = false := by
  induction w using hasEmptyMiddleParam.induct generalizing k with
  | case1 a b rest hspaces =>
    rw [hasEmptyMiddleParam, if_pos hspaces] at h
    exact absurd h (by simp)
  | case2 a b rest hspaces hcolon =>
    rcases k with _ | _ | k
    · rfl
    · rfl
    · rw [List.take_succ_cons, List.take_succ_cons, hasEmptyMiddleParam, if_neg hspaces, if_pos hcolon]
  | case3 a b rest hspaces hcolon ih =>
    rw [hasEmptyMiddleParam, if_neg hspaces, if_neg hcolon] at h
    rcases k with _ | _ | k
    · rfl
    · rfl
    · have hrest := ih (k + 1) h
      rw [List.take_succ_cons] at hrest
      rw [List.take_succ_cons, List.take_succ_cons, hasEmptyMiddleParam, if_neg hspaces, if_neg hcolon]
      exact hrest
  | case4 t hshort =>
    rcases t with _ | ⟨a, _ | ⟨b, rest⟩⟩
    · rw [List.take_nil]
      rfl
    · rcases k with _ | k
      · rfl
      · rw [List.take_succ_cons, List.take_nil]
        rfl
    · exact absurd rfl (hshort a b rest)

omit [Libcpp] in
/-- The trailing parameter. -/
theorem Neat.trailing : Neat (COLON :: x) := rfl

omit [Libcpp] in
/-- **A value between two spaces** makes no hole if it is tidy. -/
theorem Tidy.append (hv : Tidy v) (ha : Neat a) : Neat (v ++ SPACE :: a) := by
  have hscan : ∀ u : Str, hasEmptyMiddleParam (u ++ [SPACE]) = false →
      hasEmptyMiddleParam (u ++ SPACE :: a) = false := by
    intro u hu
    induction u using hasEmptyMiddleParam.induct with
    | case1 b c rest hspaces =>
      rw [List.cons_append, List.cons_append, hasEmptyMiddleParam, if_pos hspaces] at hu
      exact absurd hu (by simp)
    | case2 b c rest hspaces hcolon =>
      rw [List.cons_append, List.cons_append, hasEmptyMiddleParam, if_neg hspaces, if_pos hcolon]
    | case3 b c rest hspaces hcolon ih =>
      rw [List.cons_append, List.cons_append, hasEmptyMiddleParam, if_neg hspaces, if_neg hcolon] at hu ⊢
      exact ih hu
    | case4 t hshort =>
      rcases t with _ | ⟨b, _ | ⟨c, rest⟩⟩
      · exact ha
      · rcases eq_or_ne b SPACE with rfl | hb
        · exact absurd hu (by simp [hasEmptyMiddleParam])
        · rw [List.singleton_append, hasEmptyMiddleParam_cons hb]
          exact ha
      · exact absurd rfl (hshort b c rest)
  exact hscan (SPACE :: v) hv

omit [Libcpp] in
/-- A tidy value at the end. -/
theorem Tidy.neat (hv : Tidy v) : Neat v := by
  have hcut := hasEmptyMiddleParam_take (v.length + 1) hv
  rwa [List.take_succ_cons, List.take_left' rfl] at hcut

omit [Libcpp] in
/-- A word that is not empty is tidy. -/
theorem Tidy.of_isWord (hv : IsWord v) (hne : v ≠ []) : Tidy v := by
  obtain ⟨c, v, rfl⟩ := List.exists_cons_of_ne_nil hne
  have hc := (IsWord.cons_iff.mp hv).1
  rw [Tidy, List.cons_append, hasEmptyMiddleParam, if_neg fun h => hc h.2]
  split_ifs
  · rfl
  · rw [← List.cons_append, hasEmptyMiddleParam_append hv]
    rfl

omit [Libcpp] in
/-- A word at the end. -/
theorem Neat.of_isWord (hv : IsWord v) : Neat v := by
  rcases v with _ | ⟨c, v⟩
  · rfl
  · have hc := (IsWord.cons_iff.mp hv).1
    rw [Neat, hasEmptyMiddleParam, if_neg fun h => hc h.2]
    split_ifs
    · rfl
    · have hall := hasEmptyMiddleParam_append (x := []) hv
      rw [List.append_nil] at hall
      exact hall

omit [Libcpp] in
/-- Only a space makes an octet untidy. -/
theorem Tidy.singleton (hc : c ≠ SPACE) : Tidy [c] :=
  .of_isWord (fun d hd => by rw [List.mem_singleton.mp hd]; exact hc) (by simp)

omit [Libcpp] in
/-- A tidy value, and a text behind a colon. -/
theorem Tidy.colon (hv : Tidy v) {y : String} (hy : str " :" <+: str y) : Neat (v ++ str y) := by
  obtain ⟨rest, hrest⟩ := hy
  rw [← hrest]
  exact hv.append .trailing

end Scanning

namespace Server

variable {M : Matcher} {s₀ s t u : Server} {p q : ClientId} {ch : ChannelRef} {c : Channel} {cl : Client}
  {raw : Str} {msg : Message} {name text reason : Str} {v w : Str} {n : String} {a : Str}

/-! ### What the server puts into a reply -/

/-- What is repeated of a client is a word with at least one octet. -/
structure PresentedClient (cl : Client) : Prop where
  nickname : cl.nickname ≠ []
  username : cl.userSet = true → cl.username ≠ []
  hostname : cl.hostname ≠ []

/-- **What the server puts into a reply makes no hole.** -/
structure Presented (s : Server) : Prop where
  client : ∀ p cl, s.heap.get? p = some cl → PresentedClient cl
  topicSetter : ∀ ch c, s.channels.get? ch = some c → c.topic ≠ [] → IsWord c.topicSetter ∧ c.topicSetter ≠ []

theorem Presented.run {op : Op} (h : s.Presented) (ht : s.Table) (ho : op.Allowed s) : (op.run s).Presented where
  client := by
    refine forall_client_run ht ho h.client (fun q f hf cl hc hP => ?_) ?_
    · cases op <;> simp only [Op.edit, Option.some.injEq, Prod.mk.injEq, reduceCtorEq] at hf <;>
        obtain ⟨rfl, rfl⟩ := hf
      case nick p nick =>
        refine ⟨?_, hP.2, hP.3⟩
        rintro rfl
        exact absurd ho.1 (by simp [isValidNickname])
      case user p name mode real =>
        obtain ⟨i, w, hbits⟩ := applyUserModeBitmask_eq mode { cl with username := name }
        beta_reduce
        rw [hbits]
        refine ⟨hP.1, fun _ => ?_, hP.3⟩
        rintro rfl
        exact absurd ho.2.2.1 (by simp [isValidUsername])
      case userMode p flag b => cases flag <;> exact ⟨hP.1, hP.2, hP.3⟩
      all_goals exact ⟨hP.1, hP.2, hP.3⟩
    · rintro fd hostname rfl
      have hstar : str "*" ≠ [] := by decide
      exact ⟨hstar, fun hset => absurd hset (by simp [Client.new]), ho.2.2.2⟩
  topicSetter := by
    intro ch c hget
    rcases get?_channels_run hget with ⟨old, hold, ⟨f, hf, rfl⟩ | ⟨-, rfl⟩⟩ | ⟨q, name, rfl, -, rfl⟩
    · have hP := h.topicSetter ch old hold
      cases op <;> simp only [Op.editChannel, Option.some.injEq, Prod.mk.injEq, reduceCtorEq] at hf <;>
        obtain ⟨rfl, rfl⟩ := hf
      case topic ch text setter => exact fun _ => ho.2.2
      case setting ch set => cases set <;> exact hP
      all_goals exact hP
    · exact h.topicSetter ch c hold
    · exact fun htopic => absurd rfl htopic

theorem Presented.runs {P : Op → Prop} (h : s.Presented) (hi : s.Inv) (hrun : serverMachine.Runs P s t) :
    t.Presented :=
  (hrun.invariant (I := fun u : Server => u.Inv ∧ u.Presented)
    (fun _ _ _ ho hu => ⟨hu.1.run ho, hu.2.run hu.1.table ho⟩) ⟨hi, h⟩).2

theorem Reachable.presented (h : Reachable M s) : s.Presented := by
  induction h with
  | start password pendingCloseTimeout now reentrant =>
    exact ⟨fun p cl hget => absurd hget (by simp [started]), fun ch c hget => absurd hget (by simp [started])⟩
  | step hreach hstep ih => exact ih.runs hreach.inv (hstep.runs hreach.inv)

namespace Presented

variable (h : s.Presented)

include h

/-- Everybody's nickname. -/
theorem tidy_nickname (hi : s.Inv) (q : ClientId) : Tidy (s.deref q).nickname := by
  refine .of_isWord (hi.clientNames q).nickname.1 ?_
  rcases hget : s.heap.get? q with _ | cl
  · have hstar : str "*" ≠ [] := by decide
    rw [deref_of_none hget]
    exact hstar
  · rw [deref_of_get? hget]
    exact (h.client q cl hget).nickname

/-- What a registered client is asked about. -/
theorem tidy_client (hi : s.Inv) (hreg : (s.deref q).registered = true) :
    Tidy (s.deref q).username ∧ Tidy (s.deref q).hostname := by
  have hnames := hi.clientNames q
  have hget : s.heap.get? q = some (s.deref q) := get?_of_registered hreg
  have hP := h.client q _ hget
  exact ⟨.of_isWord hnames.username.1 (hP.username (hi.gate q _ hget hreg).2.2.1),
    .of_isWord hnames.hostname.1 hP.hostname⟩

end Presented

/-! ### Lines that are replies -/

/-- A numeric reply of the server. -/
def IsReply (w : Str) : Prop :=
  ∃ n rest, words w = (COLON :: SERVER_NAME) :: n :: rest ∧ n.length = 3 ∧ ∀ c ∈ n, isDigitOctet c = true

/-- If it is a reply, it has no hole. -/
def WellSpaced (w : Str) : Prop := IsReply w → hasEmptyMiddleParam w = false

/-- **Nothing was said but lines without holes**. -/
abbrev Tidily (s t : Server) : Prop := Utters (fun _ w => WellSpaced w) s t

omit [Libcpp] in
/-- What is no reply. -/
theorem wellSpaced_of_source {source verb : Str} (h : Says source verb w)
    (hno : source = COLON :: SERVER_NAME → ¬(verb.length = 3 ∧ ∀ c ∈ verb, isDigitOctet c = true)) :
    WellSpaced (wire w) := by
  rintro ⟨n, rest, hwords, hn⟩
  obtain ⟨rest', hrest⟩ := h.wire.words
  rw [hrest, List.cons.injEq, List.cons.injEq] at hwords
  exact absurd (hwords.2.1 ▸ hn) (hno hwords.1)

/-- What a client says is no reply. -/
theorem Inv.wellSpaced (hi : s.Inv) (q : ClientId) {x : String} (hx : HasVerb x)
    (hw : str ":" ++ (s.deref q).getPrefix ++ str x <+: w) : WellSpaced (wire w) := by
  obtain ⟨rest, rfl⟩ := hw
  have hsays := (says_name (hi.isWord_getPrefix q).1 ((hi.isWord_getPrefix q).2.trans (by decide)) hx).append
    (t := rest)
  exact wellSpaced_of_source hsays fun h => absurd (List.cons.inj h).2 getPrefix_ne_SERVER_NAME

omit [Libcpp] in
/-- **A reply in order.** -/
theorem wellSpaced_reply {nick : Str} (hnick : Tidy nick) (hn : IsNumeric n) (ha : Neat a) :
    WellSpaced (wire (replyText nick n a)) := by
  have hnum : Tidy (str n) := by
    refine .of_isWord (fun c hc hspace => ?_) fun hnil => ?_
    · rw [hspace] at hc
      exact absurd (hn.2 _ hc) (by decide)
    · have hlen := hn.1
      rw [hnil] at hlen
      exact absurd hlen (by decide)
  have hserver : IsWord (COLON :: SERVER_NAME) := by decide
  have hwhole : hasEmptyMiddleParam (replyText nick n a) = false := by
    have htext : replyText nick n a = (COLON :: SERVER_NAME) ++ SPACE :: (str n ++ SPACE :: (nick ++ SPACE :: a)) := by
      simp only [replyText, List.append_assoc]
      rfl
    rw [htext, hasEmptyMiddleParam_append hserver]
    exact hnum.append (hnick.append ha)
  intro _
  rw [wire]
  split_ifs
  · exact hasEmptyMiddleParam_take _ hwhole
  · exact hwhole

theorem Tidily.message (h : WellSpaced (wire w)) : Tidily s (s.queueMessage q w) := Utters.message h

theorem Tidily.reply (hnick : Tidy (s.deref p).nickname) (hn : IsNumeric n) (ha : Neat a) :
    Tidily s (s.sendReply p n a) :=
  .message (wellSpaced_reply hnick hn ha)

theorem Tidily.tells (h : Tells (fun _ w => WellSpaced (wire w)) s t) : Tidily s t := by
  obtain ⟨msgs, hmsgs, rfl⟩ := h
  refine ⟨_, spoken_queueMany msgs, fun e he => ?_⟩
  obtain ⟨e', he', rfl⟩ := List.mem_map.mp (List.mem_reverse.mp he)
  exact hmsgs e' he'

/-- Several replies. -/
theorem Tidily.replies {l : List (String × Str)} (hnick : Tidy (s.deref p).nickname)
    (hl : ∀ r ∈ l, IsNumeric r.1 ∧ Neat r.2) :
    Tidily s (s.queueMany (l.map fun r => (p, replyText (s.deref p).nickname r.1 r.2))) := by
  refine .tells ⟨_, fun e he => ?_, rfl⟩
  obtain ⟨r, hr, rfl⟩ := List.mem_map.mp he
  exact wellSpaced_reply hnick (hl r hr).1 (hl r hr).2

/-- A notice of the FILE extension. -/
theorem Tidily.fileNotice : Tidily s (s.fileNotice q text) := by
  have hsays : Says (COLON :: SERVER_NAME) (str "NOTICE")
      (str ":ft_irc NOTICE " ++ (s.deref q).nickname ++ str " :" ++ text) := by
    refine ⟨by decide, by decide, by decide, (s.deref q).nickname ++ str " :" ++ text, ?_⟩
    simp only [List.append_assoc]
    rfl
  exact .message (wellSpaced_of_source hsays fun _ => by decide)

/-! ### Registration -/

/-- The end of a session. -/
theorem tidily_disconnectClient (hi : s.Inv) (hp : s.Live p) (hreason : OneLine reason) :
    Tidily s (s.disconnectClient (s.deref p).fd reason) := by
  have hverb : HasVerb " QUIT :" := by decide
  have hgone : Tidily s (s.clearAway p reason) := utters_clearAway (fun _ _ _ => Tidily.fileNotice)
    fun _ => hi.wellSpaced p hverb (List.prefix_append _ _)
  rw [disconnectClient, nesting, disconnectNested_live hi hp hreason]
  split_ifs
  · exact hgone.trans (.of_eq spoken_finalizeDisconnect)
  · exact hgone.trans (.of_eq rfl)

theorem tidily_cmdCap : Tidily s (s.cmdCap p msg) := by
  rw [cmdCap]
  split_ifs
  · exact .refl s
  · have hsays : Says (COLON :: SERVER_NAME) (str "CAP") (str ":ft_irc CAP * LS :") :=
      ⟨by decide, by decide, by decide, str "* LS :", rfl⟩
    exact .message (wellSpaced_of_source hsays fun _ => by decide)
  · exact .refl s

theorem tidily_cmdPass (hnick : Tidy (s.deref p).nickname) : Tidily s (s.cmdPass p msg) := by
  rw [cmdPass]
  split_ifs
  · exact .reply hnick (by decide) (by decide)
  · exact .reply hnick (by decide) (by decide)
  all_goals exact .of_eq rfl

theorem tidily_welcomeBurst (hnick : Tidy (s.deref p).nickname) : Tidily s (s.welcomeBurst p) := by
  have hburst : s.welcomeBurst p = s.queueMany
      ([("001", str ":Welcome to the " ++ SERVER_NAME ++ str " Network " ++ (s.deref p).getPrefix),
        ("002", str ":Your host is " ++ SERVER_NAME ++ str ", running version " ++ SERVER_VERSION),
        ("003", str ":This server was created " ++ SERVER_CREATED),
        ("004", SERVER_NAME ++ str " " ++ SERVER_VERSION ++ str " o itkol"),
        ("005", str "CHANTYPES=# PREFIX=(o)@ CHANMODES=,,kl,it " ++
          str "NICKLEN=9 CHANNELLEN=50 TOPICLEN=390 " ++ str "NETWORK=" ++ SERVER_NAME ++
          str " CASEMAPPING=ascii " ++ str ":are supported by this server"),
        ("422", str ":MOTD File is missing")].map fun r =>
          (p, replyText (s.deref p).nickname r.1 r.2)) := by
    rw [welcomeBurst]
    simp only [sendReply_eq, nickname_queueMany, ← queueMany_append]
    rfl
  have hnumeric : ∀ n ∈ ["001", "002", "003", "004", "005", "422"], IsNumeric n := by decide
  rw [hburst]
  refine .replies hnick fun r hr => ?_
  simp only [List.mem_cons, List.not_mem_nil, or_false] at hr
  rcases hr with rfl | rfl | rfl | rfl | rfl | rfl
  · exact ⟨hnumeric _ (by simp), rfl⟩
  all_goals exact ⟨hnumeric _ (by simp), by decide⟩

theorem tidily_completeRegistration (hi : s.Inv) (hp : s.Live p) (hnick : Tidy (s.deref p).nickname) :
    Tidily s (s.completeRegistration p) := by
  rw [completeRegistration]
  split_ifs
  · have hsend : Complies s p .acting s (s.sendReply p "464" (str ":Password incorrect")) :=
      (Turn.start hi hp).reply (by decide)
    have hturn := (Turn.start hi hp).runs hsend (by decide)
    have hclosed := tidily_disconnectClient hturn.inv hturn.live
      (show OneLine (str "Password mismatch") by decide)
    rw [hturn.fd] at hclosed
    exact (Tidily.reply hnick (by decide) (by decide)).trans hclosed
  · have hset : Tidily s (s.update p fun c => { c with registered := true }) := .of_eq rfl
    refine hset.trans (tidily_welcomeBurst ?_)
    rw [deref_update_self (hi.table.live_get? hp)]
    exact hnick

/-- What a client says to its channels. -/
theorem tidily_broadcastToChannels (h : WellSpaced (wire w)) : Tidily s (s.broadcastToChannels q w) := by
  rw [broadcastToChannels_eq]
  refine .tells ⟨_, fun e he => ?_, rfl⟩
  obtain ⟨q, -, rfl⟩ := List.mem_map.mp he
  exact h

/-- The nickname a `NICK` asks for. -/
def nickAsked (msg : Message) : Str := if msg.matched then msg.field "newnick" else msg.param 0

theorem tidily_cmdNick (hi : s.Inv) (hs : s.Presented) (hp : s.Live p)
    (hasked : msg.params ≠ [] → Tidy (nickAsked msg)) : Tidily s (s.cmdNick p msg) := by
  have hnick := hs.tidy_nickname hi p
  rw [cmdNick]
  dsimp only
  rw [← nickAsked]
  generalize nickAsked msg = asked at hasked ⊢
  split
  · exact .reply hnick (by decide) (by decide)
  rename_i hsome
  split
  · exact .reply hnick (by decide) ((hasked hsome).colon (by decide))
  rename_i _ hvalid
  rw [Bool.not_eq_true, Bool.not_eq_false'] at hvalid
  generalize hcut : (if asked.length > MAX_NICKLEN then asked.take MAX_NICKLEN else asked) = nick
  have hnew : Tidy nick := by
    have hshort : isValidNickname nick = true := by
      rw [← hcut]
      split_ifs
      · exact isValidNickname_take hvalid (by decide)
      · exact hvalid
    refine .of_isWord (isWord_of_isValidNickname hshort) ?_
    rintro rfl
    exact absurd hshort (by simp [isValidNickname])
  split_ifs with huse hres hreg huser
  · exact .reply hnick (by decide) (hnew.colon (by decide))
  · exact .reply hnick (by decide) (hnew.colon (by decide))
  · have hverb : HasVerb " NICK :" := by decide
    have hsay := hi.wellSpaced p hverb
      (List.prefix_append (str ":" ++ (s.deref p).getPrefix ++ str " NICK :") nick)
    exact ((Tidily.message hsay).trans (tidily_broadcastToChannels hsay)).trans (.of_eq rfl)
  · have hset : Complies s p .acting s _ := Complies.op (.nick p nick) rfl
      (hi.allowed_nick hvalid hcut.symm (Bool.not_eq_true _ ▸ huse) (Bool.not_eq_true _ ▸ hres))
    have hturn := (Turn.start hi hp).runs hset (by decide)
    refine Utters.trans (.of_eq rfl) (tidily_completeRegistration hturn.inv hturn.live ?_)
    exact (congrArg Client.nickname (deref_update_self (hi.table.live_get? hp))) ▸ hnew
  · exact .of_eq rfl

theorem tidily_cmdUser (hi : s.Inv) (hs : s.Presented) (hp : s.Live p) (hmsg : msg.OneLine) :
    Tidily s (s.cmdUser p msg) := by
  have hnick := hs.tidy_nickname hi p
  have hreal : OneLine (if msg.matched then msg.field "realname" else msg.param 3) := by
    split_ifs
    · exact hmsg.field _
    · exact hmsg.param 3
  have hname : OneLine (if msg.matched then msg.field "username" else msg.param 0) := by
    split_ifs
    · exact hmsg.field _
    · exact hmsg.param 0
  rw [cmdUser]
  dsimp only
  generalize (if msg.matched then msg.field "realname" else msg.param 3) = real at hreal ⊢
  generalize (if msg.matched then msg.field "username" else msg.param 0) = asked at hname ⊢
  generalize hcut : (if asked.length > MAX_USERLEN then asked.take MAX_USERLEN else asked) = name
  generalize (if msg.matched then false else decide (msg.trailingIndex ≠ 3)) = misplaced
  split
  · exact .reply hnick (by decide) (by decide)
  split
  · exact .reply hnick (by decide) (by decide)
  split
  · exact .reply hnick (by decide) (by decide)
  split
  · exact .reply hnick (by decide) (by decide)
  rename_i hvalid
  split_ifs
  · have hallowed : Complies s p .acting s _ := Complies.op (.user p name (msg.param 1) real) rfl
      (allowed_user hname hreal hcut.symm (by simpa using hvalid))
    have hturn := (Turn.start hi hp).runs hallowed (by decide)
    have hset : Tidily s ((Op.user p name (msg.param 1) real).run s) := .of_eq rfl
    refine hset.trans (tidily_completeRegistration hturn.inv hturn.live ?_)
    obtain ⟨i, w, hbits⟩ := applyUserModeBitmask_eq (msg.param 1) { s.deref p with username := name }
    have hsame : ((Op.user p name (msg.param 1) real).run s).deref p =
        { applyUserModeBitmask (msg.param 1) { s.deref p with username := name } with
          realname := real, userSet := true } := deref_update_self (hi.table.live_get? hp)
    rw [hsame, hbits]
    exact hnick
  · exact .of_eq rfl

/-! ### Channels -/

omit [Libcpp] in
/-- The name of a channel. -/
theorem tidy_of_isValidChannelName (h : isValidChannelName name = true) : Tidy name := by
  simp only [isValidChannelName, Bool.and_eq_true, decide_eq_true_eq, List.all_eq_true] at h
  refine .of_isWord ?_ ?_
  · rintro c hc rfl
    exact absurd (h.2 SPACE hc) (by simp)
  · rintro rfl
    exact absurd h.1.2 (by simp)

/-- **A name that finds a channel** is one. -/
theorem Inv.tidy_of_findChannel (hi : s.Inv) (hfind : s.findChannel name = some ch) :
    Tidy name ∧ Tidy (s.channel ch).name ∧ s.channels.get? ch = some (s.channel ch) := by
  obtain ⟨rfl, c, hget⟩ := findChannel_eq_some hfind
  have hsound := hi.channelTable _ c hget
  rw [channel_of_get? hget]
  refine ⟨tidy_of_isValidChannelName ?_, tidy_of_isValidChannelName hsound.name, hget⟩
  rw [isValidChannelName_congr hsound.named]
  exact hsound.name

/-- The modes of a channel. -/
theorem neat_modes (hkey : c.key = [] ∨ isValidChannelKey c.key = true) (hname : Tidy name) :
    Neat (name ++ str " " ++ c.getModeString ++
      (if c.getModeParams ≠ [] then str " " ++ c.getModeParams else [])) := by
  have hword : IsWord c.key := by
    rcases hkey with hnil | hvalid
    · rw [hnil]
      exact .nil
    · simp only [isValidChannelKey, Bool.and_eq_true, List.all_eq_true] at hvalid
      rintro d hd rfl
      exact absurd (hvalid.2 SPACE hd) (by simp)
  have hnumber := isWord_toDecimal c.userLimit
  have hstring : IsWord c.getModeString := by
    have hletters : ∀ x ∈ ["+", "i", "t", "k", "l"], IsWord (str x) := by decide
    rw [Channel.getModeString]
    split_ifs <;> simp [hletters]
  have hparams : Neat c.getModeParams := by
    rw [Channel.getModeParams]
    by_cases hnil : c.key = [] <;> by_cases hlimit : c.userLimit > 0
    · simpa [hnil, hlimit] using Neat.of_isWord hnumber
    · simpa [hnil, hlimit] using Neat.of_isWord IsWord.nil
    · simp only [ne_eq, hnil, not_false_eq_true, if_true, hlimit, List.append_assoc]
      exact (Tidy.of_isWord hword hnil).append (.of_isWord hnumber)
    · simpa [hnil, hlimit] using Neat.of_isWord hword
  rw [List.append_assoc, List.append_assoc]
  refine hname.append ?_
  split_ifs
  · exact Tidy.append (.of_isWord hstring (by simp [Channel.getModeString, show str "+" = [43] from rfl])) hparams
  · rw [List.append_nil]
    exact .of_isWord hstring

/-- The topic of a channel, and who set it. -/
theorem neat_topic (hs : s.Presented) (hget : s.channels.get? ch = some c) (hname : Tidy name) :
    Neat (name ++ str " :" ++ c.topic) ∧ (c.topic ≠ [] →
      Neat (name ++ str " " ++ c.topicSetter ++ str " " ++ Libcpp.toDecimal c.topicTime)) := by
  refine ⟨?_, fun htopic => ?_⟩
  · rw [List.append_assoc]
    exact hname.append .trailing
  · obtain ⟨hword, hne⟩ := hs.topicSetter ch c hget htopic
    simp only [List.append_assoc]
    exact hname.append (Tidy.append (.of_isWord hword hne) (.of_isWord (isWord_toDecimal _)))

/-- **The replies to a join** have no holes. -/
theorem tidily_joinReplies (hi : s.Inv) (hs : s.Presented) (hget : s.channels.get? ch = some c) (hname : Tidy name)
    (msgs : List (ClientId × Str)) :
    Tidily (s.queueMany msgs) ((s.queueMany msgs).joinReplies p ch name) := by
  have hchan := channel_of_get? hget
  have hnumeric : ∀ n ∈ ["331", "332", "333", "353", "366", "324", "329"], IsNumeric n := by decide
  rw [joinReplies_eq]
  refine .replies (by rw [nickname_queueMany]; exact hs.tidy_nickname hi p) fun r hr => ?_
  simp only [joinTalk, List.mem_append, List.mem_cons, List.mem_map, List.not_mem_nil, or_false,
    channel_queueMany, hchan] at hr
  obtain ⟨htopic, hsetter⟩ := neat_topic hs hget hname
  rcases hr with (hr | ⟨chunk, -, rfl⟩) | rfl | rfl | rfl
  · split_ifs at hr with hset
    · simp only [List.mem_cons, List.not_mem_nil, or_false] at hr
      rcases hr with rfl | rfl
      · exact ⟨hnumeric _ (by simp), htopic⟩
      · exact ⟨hnumeric _ (by simp), hsetter hset⟩
    · rw [List.mem_singleton] at hr
      subst hr
      exact ⟨hnumeric _ (by simp), hname.colon (by decide)⟩
  · have hequals : Tidy (str "=") := by decide
    refine ⟨hnumeric _ (by simp), ?_⟩
    simp only [namesHead, List.append_assoc]
    exact hequals.append (hname.append .trailing)
  · exact ⟨hnumeric _ (by simp), hname.colon (by decide)⟩
  · exact ⟨hnumeric _ (by simp), neat_modes (hi.channelTable ch c hget).key hname⟩
  · refine ⟨hnumeric _ (by simp), ?_⟩
    rw [List.append_assoc]
    exact hname.append (.of_isWord (isWord_toDecimal _))

/-- The announcement of a join, and the replies to it. -/
theorem tidily_announceJoin (hi : s.Inv) (hs : s.Presented) (hget : s.channels.get? ch = some c) (hname : Tidy name) :
    Tidily s (s.announceJoin p ch name) := by
  have hverb : HasVerb " JOIN " := by decide
  have hcast : Tidily s (s.broadcastMessage ch
      (str ":" ++ (s.deref p).getPrefix ++ str " JOIN " ++ (s.channel ch).name) none) :=
    .tells (.broadcast fun q _ _ => hi.wellSpaced p hverb (List.prefix_append _ _))
  refine hcast.trans ?_
  rw [announceJoin, broadcastMessage_eq]
  exact tidily_joinReplies hi hs hget hname _

/-- **One channel of a `JOIN`**. -/
theorem tidily_joinOne (hs : s.Presented) (h : Turn s₀ p s) (hreg : (s₀.deref p).registered = true)
    {target : Str × Str} (hone : OneLine target.1) (htidy : Tidy target.1) :
    Tidily s (joinOne p s target) := by
  have hnick := hs.tidy_nickname h.inv p
  rw [joinOne]
  dsimp only
  split_ifs with hvalid
  · exact .reply hnick (by decide) (htidy.colon (by decide))
  rcases hfind : s.findChannel target.1 with _ | ch
  · have hcreate : Complies s₀ p .joining s (s.createChannel target.1 p) :=
      .op (.create p target.1) ⟨rfl, rfl, hreg⟩
        ⟨h.entitled hreg, hone, findChannel_eq_none hfind, by simpa using hvalid⟩
    have hset : Tidily s (s.createChannel target.1 p) := .of_eq rfl
    exact hset.trans (tidily_announceJoin (h.runs hcreate (by decide)).inv (hs.runs h.inv hcreate)
      (OrdMap.get?_insert_self _ _ _) htidy)
  obtain ⟨rfl, old, hold⟩ := findChannel_eq_some hfind
  dsimp only
  split_ifs
  · exact .refl s
  · exact .reply hnick (by decide) (htidy.colon (by decide))
  · exact .reply hnick (by decide) (htidy.colon (by decide))
  · exact .reply hnick (by decide) (htidy.colon (by decide))
  · have hjoin := Complies.op (m := .joining) (.join p (s.deref p).fd (Libcpp.asciiToLower target.1))
      ⟨rfl, rfl, h.fd, hreg⟩ ⟨h.entitled hreg, old, hold⟩
    have hset : Tidily s ((Op.join p (s.deref p).fd (Libcpp.asciiToLower target.1)).run s) := .of_eq rfl
    exact hset.trans (tidily_announceJoin (h.runs hjoin (by decide)).inv (hs.runs h.inv hjoin)
      ((OrdMap.get?_modify_self _ _ _).trans (congrArg (Option.map _) hold)) htidy)

/-- A client that leaves a channel is announced. -/
theorem tidily_leaveChannel (h : WellSpaced (wire text)) : Tidily s (s.leaveChannel q ch name text) := by
  have hcast : Tidily s (s.broadcastMessage ch text none) := .tells (.broadcast fun _ _ _ => h)
  refine hcast.trans (.of_eq ?_)
  rw [leaveChannel]
  split_ifs <;> rfl

theorem tidily_partAllChannels (hi : s.Inv) : Tidily s (s.partAllChannels p) := by
  have hverb : HasVerb " PART " := by decide
  rw [partAllChannels]
  refine (List.foldlRecOn _ _ (motive := fun u =>
    Tidily s u ∧ (u.deref p).getPrefix = (s.deref p).getPrefix) ⟨.refl s, rfl⟩
    fun u hu name _ => ?_).1
  rcases u.findChannel name with _ | chan
  · exact hu
  refine ⟨hu.1.trans (tidily_leaveChannel (hi.wellSpaced p hverb ?_)), ?_⟩
  · rw [← hu.2]
    exact List.prefix_append _ _
  · rw [← hu.2]
    dsimp only
    rw [leaveChannel, broadcastMessage_eq]
    split_ifs <;> exact getPrefix_queueMany

theorem tidily_cmdJoin (hs : s.Presented) (h : Turn s p s) (hreg : (s.deref p).registered = true)
    (hmsg : msg.OneLine) (htidy : ∀ v ∈ msg.list "chanlist" COMMA, Tidy v) : Tidily s (s.cmdJoin p msg) := by
  rw [cmdJoin]
  split_ifs
  · exact .reply (hs.tidy_nickname h.inv p) (by decide) (by decide)
  · exact tidily_partAllChannels h.inv
  change Tidily s ((joinTargets msg).foldl (joinOne p) s)
  have hlist : ∀ target ∈ joinTargets msg, OneLine target.1 ∧ Tidy target.1 := by
    intro target htarget
    obtain ⟨e, he, rfl⟩ := List.mem_map.mp htarget
    have hmem := List.fst_mem_of_mem_zipIdx he
    exact ⟨hmsg.list hmem, htidy _ hmem⟩
  refine (List.foldlRecOn _ _ (motive := fun u => Tidily s u ∧ Turn s p u ∧ u.Presented)
    ⟨.refl s, h, hs⟩ fun u hu target htarget => ?_).1
  obtain ⟨hsaid, hturn, hpres⟩ := hu
  obtain ⟨hone, hname⟩ := hlist target htarget
  have hrun := hturn.joinOne hreg hone
  exact ⟨hsaid.trans (tidily_joinOne hpres hturn hreg hone hname), hturn.runs hrun (by decide),
    hpres.runs hturn.inv hrun⟩

theorem tidily_partOne (hi : s.Inv) (hnick : Tidy (s.deref p).nickname) (htidy : Tidy name) :
    Tidily s (partOne p reason s name) := by
  have hverb : HasVerb " PART " := by decide
  rw [partOne]
  rcases s.findChannel name with _ | chan
  · exact .reply hnick (by decide) (htidy.colon (by decide))
  dsimp only
  split_ifs
  · exact .reply hnick (by decide) (htidy.colon (by decide))
  all_goals
    refine tidily_leaveChannel (hi.wellSpaced p hverb ?_)
    simp

theorem tidily_cmdPart (hs : s.Presented) (h : Turn s p s) (hreg : (s.deref p).registered = true)
    (hmsg : msg.OneLine) (htidy : ∀ v ∈ msg.list "chanlist" COMMA, Tidy v) : Tidily s (s.cmdPart p msg) := by
  rw [cmdPart]
  split_ifs
  · exact .reply (hs.tidy_nickname h.inv p) (by decide) (by decide)
  refine (List.foldlRecOn _ _ (motive := fun u => Tidily s u ∧ Turn s p u ∧ u.Presented)
    ⟨.refl s, h, hs⟩ fun u hu name hname => ?_).1
  obtain ⟨hsaid, hturn, hpres⟩ := hu
  have hrun := hturn.partOne hreg (hmsg.list hname) (hmsg.field "partmsg")
  exact ⟨hsaid.trans (tidily_partOne hturn.inv (hpres.tidy_nickname hturn.inv p) (htidy name hname)),
    hturn.runs hrun (by decide), hpres.runs hturn.inv hrun⟩

/-! ### KICK, INVITE and TOPIC -/

theorem tidily_cmdKick (hi : s.Inv) (hs : s.Presented)
    (hchan : msg.matched = true → Tidy (msg.field "kickchans"))
    (huser : ∀ ch, s.findChannel (msg.field "kickchans") = some ch → s.isOperator ch p = true →
      Tidy (msg.field "kickusers")) : Tidily s (s.cmdKick p msg) := by
  have hverb : HasVerb " KICK " := by decide
  have hnick := hs.tidy_nickname hi p
  rw [cmdKick]
  dsimp only
  generalize (if msg.has "kickreason" then msg.field "kickreason" else (s.deref p).nickname) = why
  split
  · exact .reply hnick (by decide) (by decide)
  rename_i hmatched
  have hchan := hchan (by simpa using hmatched)
  rcases hfind : s.findChannel (msg.field "kickchans") with _ | ch
  · exact .reply hnick (by decide) (hchan.colon (by decide))
  dsimp only
  split_ifs with hmem hop
  · exact .reply hnick (by decide) (hchan.colon (by decide))
  · exact .reply hnick (by decide) (hchan.colon (by decide))
  rcases s.findMember ch (msg.field "kickusers") with _ | q
  · have huser := huser ch hfind (by simpa using hop)
    refine .reply hnick (by decide) ?_
    simp only [List.append_assoc]
    exact huser.append (hchan.colon (by decide))
  · refine tidily_leaveChannel (hi.wellSpaced p hverb ?_)
    simp

theorem tidily_cmdInvite (hi : s.Inv) (hs : s.Presented)
    (hchan : msg.matched = true → Tidy (msg.field "invchan"))
    (huser : ∀ ch, s.findChannel (msg.field "invchan") = some ch → s.isMember ch p = true →
      ((s.channel ch).inviteOnly = true → s.isOperator ch p = true) → Tidy (msg.field "invnick")) :
    Tidily s (s.cmdInvite p msg) := by
  have hverb : HasVerb " INVITE " := by decide
  have hnick := hs.tidy_nickname hi p
  rw [cmdInvite]
  split_ifs with hmatched
  · exact .reply hnick (by decide) (by decide)
  have hchan := hchan (by simpa using hmatched)
  dsimp only
  rcases hfind : s.findChannel (msg.field "invchan") with _ | ch
  · exact .reply hnick (by decide) (hchan.colon (by decide))
  dsimp only
  split_ifs with hmem hop
  · exact .reply hnick (by decide) (hchan.colon (by decide))
  · exact .reply hnick (by decide) (hchan.colon (by decide))
  have huser := huser ch hfind (by simpa using hmem) (by simpa using hop)
  rcases s.findClientByNick (msg.field "invnick") with _ | q
  · exact .reply hnick (by decide) (huser.colon (by decide))
  dsimp only
  split_ifs
  · refine .reply hnick (by decide) ?_
    simp only [List.append_assoc]
    exact huser.append (hchan.colon (by decide))
  · have hinvited : Tidily s (s.updateChannel ch fun c => c.addInvite (s.deref q).fd) := .of_eq rfl
    have htold : Tidily (s.updateChannel ch fun c => c.addInvite (s.deref q).fd) _ :=
      .reply (n := "341") (a := msg.field "invnick" ++ str " " ++ msg.field "invchan") hnick (by decide) (by
        rw [List.append_assoc]
        exact huser.append hchan.neat)
    refine (hinvited.trans htold).trans (.message (hi.wellSpaced p hverb ?_))
    have hname : ((((s.updateChannel ch fun c => c.addInvite (s.deref q).fd).sendReply p "341"
        (msg.field "invnick" ++ str " " ++ msg.field "invchan")).deref p)).getPrefix =
          (s.deref p).getPrefix := by
      rw [sendReply_eq]
      exact getPrefix_queueMany
    rw [hname]
    simp

theorem tidily_cmdTopic (hi : s.Inv) (hs : s.Presented)
    (hchan : ¬(msg.params = [] ∨ msg.param 0 = []) → Tidy (msg.param 0)) : Tidily s (s.cmdTopic p msg) := by
  have hverb : HasVerb " TOPIC " := by decide
  have hnick := hs.tidy_nickname hi p
  rw [cmdTopic]
  dsimp only
  generalize (if msg.matched then msg.field "topictext" else msg.param 1) = asked
  generalize (if asked.length > MAX_TOPICLEN then asked.take MAX_TOPICLEN else asked) = topic
  split
  · exact .reply hnick (by decide) (by decide)
  rename_i hsome
  have hchan := hchan hsome
  rcases hfind : s.findChannel (msg.param 0) with _ | ch
  · exact .reply hnick (by decide) (hchan.colon (by decide))
  dsimp only
  obtain ⟨htopic, hsetter⟩ := neat_topic hs (hi.tidy_of_findChannel hfind).2.2 hchan
  split_ifs with hmem hone hnone hop
  · exact .reply hnick (by decide) (hchan.colon (by decide))
  · exact .reply hnick (by decide) (hchan.colon (by decide))
  · exact .tells (.andReply (.reply (wellSpaced_reply hnick (by decide) htopic))
      (wellSpaced_reply hnick (by decide) (hsetter hnone)))
  · exact .reply hnick (by decide) (hchan.colon (by decide))
  · have hset : Tidily s (s.updateChannel ch fun c => c.setTopic topic (s.deref p).nickname s.clock) :=
      .of_eq rfl
    refine hset.trans (Tidily.tells (.broadcast fun q _ _ => hi.wellSpaced p hverb ?_))
    simp only [List.append_assoc]
    exact List.prefix_append_right_inj _ |>.mpr (List.prefix_append_right_inj _ |>.mpr
      (List.prefix_append _ _))

/-! ### Queries -/

/-- What a `WHO` tells of a client. -/
theorem neat_who {flags : Str} (hi : s.Inv) (hs : s.Presented) (hv : Tidy v) (hreg : (s.deref q).registered = true)
    (hflags : Tidy flags) :
    Neat (v ++ str " " ++ (s.deref q).username ++ str " " ++ (s.deref q).hostname ++ str " " ++ SERVER_NAME ++
      str " " ++ (s.deref q).nickname ++ str " " ++ flags ++ str " :0 " ++ (s.deref q).realname) := by
  obtain ⟨huser, hhost⟩ := hs.tidy_client hi hreg
  have hserver : Tidy SERVER_NAME := by decide
  simp only [List.append_assoc]
  exact hv.append (huser.append (hhost.append (hserver.append ((hs.tidy_nickname hi q).append
    (hflags.append .trailing)))))

/-- Who is found by a name is registered. -/
theorem registered_of_findClientByNick (hfind : s.findClientByNick name = some q) :
    (s.deref q).registered = true := by
  have hfound := List.find?_some hfind
  simp only [Bool.and_eq_true] at hfound
  exact hfound.1.1

theorem tidily_cmdWho (hi : s.Inv) (hs : s.Presented)
    (htarget : ¬(msg.params = [] ∨ msg.param 0 = []) → Tidy (msg.param 0)) : Tidily s (s.cmdWho p msg) := by
  have hnick := hs.tidy_nickname hi p
  have hstar : Tidy (str "*") := by decide
  rw [cmdWho]
  dsimp only
  split
  · exact .reply hnick (by decide) (by decide)
  rename_i hsome
  have htarget := htarget hsome
  have hend := wellSpaced_reply hnick (n := "315") (by decide) (htarget.colon (y := " :End of WHO list") (by decide))
  split_ifs
  · rcases hfind : s.findChannel (msg.param 0) with _ | ch
    · exact .tells (.reply hend)
    dsimp only
    refine .tells (Tells.andReply (.foldl _ fun u hu q hq => .reply ?_) hend)
    -- who is on the channel is registered, and reads as before the replies
    obtain ⟨c, fd, hget, hfd⟩ := mem_members.mp hq
    have hreg : (s.deref q).registered = true := ((hi.authority.channel ch c hget).member fd q hfd).2.1
    have hflags : Tidy (str "H" ++ if s.isOperator ch q = true then str "@" else []) := by
      split_ifs <;> decide
    obtain ⟨msgs, -, rfl⟩ := hu
    obtain ⟨io, hio⟩ := deref_queueMany (s := s) msgs q
    rw [isOperator_queueMany, nickname_queueMany, hio]
    exact wellSpaced_reply hnick (by decide) (neat_who hi hs htarget hreg hflags)
  · rcases hfind : s.findClientByNick (msg.param 0) with _ | q
    · exact .tells (.reply hend)
    dsimp only
    have hflags : Tidy (str "H") := by decide
    refine .tells (Tells.andReply (.reply (wellSpaced_reply hnick (by decide) ?_)) hend)
    have hline := neat_who hi hs hstar (registered_of_findClientByNick hfind) hflags
    simp only [List.append_assoc] at hline ⊢
    exact hline

theorem tidily_cmdWhois (hi : s.Inv) (hs : s.Presented) (htarget : whoisNick msg ≠ [] → Tidy (whoisNick msg)) :
    Tidily s (s.cmdWhois p msg) := by
  have hnick := hs.tidy_nickname hi p
  by_cases hnone : msg.params = [] ∨ whoisNick msg = []
  · rw [cmdWhois]
    dsimp only
    rw [← whoisNick, if_pos hnone]
    exact .reply hnick (by decide) (by decide)
  push Not at hnone
  have htarget := htarget hnone.2
  rcases hfind : s.findClientByNick (whoisNick msg) with _ | q
  · rw [cmdWhois]
    dsimp only
    rw [← whoisNick, if_neg (by push Not; exact hnone), hfind]
    exact .reply hnick (by decide) (htarget.colon (by decide))
  rw [cmdWhois_eq hnone.2 hfind]
  refine .replies hnick fun r hr => ⟨isNumeric_whoisReplies r hr, ?_⟩
  obtain ⟨huser, hhost⟩ := hs.tidy_client hi (registered_of_findClientByNick hfind)
  have hname := hs.tidy_nickname hi q
  have hserver : Tidy SERVER_NAME := by decide
  have hstar : Tidy (str "*") := by decide
  simp only [whoisReplies, List.mem_append, List.mem_cons, List.not_mem_nil, or_false] at hr
  rcases hr with ((rfl | rfl) | hr) | rfl
  · simp only [List.append_assoc]
    exact hname.append (huser.append (hhost.append (hstar.append .trailing)))
  · simp only [List.append_assoc]
    exact hname.append (hserver.colon (by decide))
  · split_ifs at hr
    · rw [List.mem_singleton] at hr
      subst hr
      rw [List.append_assoc]
      exact hname.append .trailing
    · exact absurd hr List.not_mem_nil
  · exact hname.colon (by decide)

theorem tidily_cmdUserhost (hnick : Tidy (s.deref p).nickname) : Tidily s (s.cmdUserhost p msg) := by
  rw [cmdUserhost]
  split_ifs
  · exact .reply hnick (by decide) (by decide)
  · exact .reply hnick (by decide) .trailing

/-! ### Messages -/

/-- What the bot says is no reply. -/
theorem tidily_botReply : Tidily s (s.botReply q text) := by
  have hsays : Says (COLON :: botNickname) (str "PRIVMSG")
      (str ":" ++ botNickname ++ str " PRIVMSG " ++ (s.deref q).nickname ++ str " :" ++ text) := by
    refine ⟨by decide, by decide, by decide, (s.deref q).nickname ++ str " :" ++ text, ?_⟩
    simp only [List.append_assoc]
    rfl
  exact .message (wellSpaced_of_source hsays fun h => absurd h (by decide))

theorem tidily_botHandleMessage : Tidily s (s.botHandleMessage q text) := by
  rw [botHandleMessage]
  dsimp only
  split_ifs
  · exact .refl s
  · rw [botHelp]
    exact tidily_botReply.trans (tidily_botReply.trans (tidily_botReply.trans
      (tidily_botReply.trans tidily_botReply)))
  · exact tidily_botReply
  · rw [botInfo]
    split_ifs
    · exact tidily_botReply
    rcases s.findChannel (botWords text).2 with _ | chan
    · exact tidily_botReply
    · dsimp only
      split_ifs
      · exact tidily_botReply.trans tidily_botReply
      · exact tidily_botReply
  · exact tidily_botReply.trans (.of_eq rfl)
  · exact tidily_botReply

theorem tidily_privmsgOne (hi : s.Inv) (hs : s.Presented) (hname : Tidy name) :
    Tidily s (privmsgOne p text s name) := by
  have hverb : HasVerb " PRIVMSG " := by decide
  have hnick := hs.tidy_nickname hi p
  have hline : WellSpaced (wire (str ":" ++ (s.deref p).getPrefix ++ str " PRIVMSG " ++ name ++ str " :" ++ text)) :=
    hi.wellSpaced p hverb (by simp)
  rw [privmsgOne]
  split_ifs
  · rcases s.findChannel name with _ | chan
    · exact .reply hnick (by decide) (hname.colon (by decide))
    dsimp only
    split_ifs
    · exact .reply hnick (by decide) (hname.colon (by decide))
    · exact .tells (.broadcast fun _ _ _ => hline)
  · exact tidily_botHandleMessage
  · rcases s.findClientByNick name with _ | q
    · exact .reply hnick (by decide) (hname.colon (by decide))
    · exact .message hline

theorem tidily_noticeOne (hi : s.Inv) : Tidily s (noticeOne p text s name) := by
  have hverb : HasVerb " NOTICE " := by decide
  have hline : WellSpaced (wire (str ":" ++ (s.deref p).getPrefix ++ str " NOTICE " ++ name ++ str " :" ++ text)) :=
    hi.wellSpaced p hverb (by simp)
  rw [noticeOne]
  split_ifs
  · rcases s.findChannel name with _ | chan
    · exact .refl s
    dsimp only
    split_ifs
    · exact .refl s
    · exact .tells (.broadcast fun _ _ _ => hline)
  · rcases s.findClientByNick name with _ | q
    · exact .refl s
    · exact .message hline

theorem tidily_cmdPrivmsg (hs : s.Presented) (h : Turn s p s) (hreg : (s.deref p).registered = true)
    (hmsg : msg.OneLine) (htidy : HasText msg → ∀ v ∈ messageTargets msg, Tidy v) :
    Tidily s (s.cmdPrivmsg p msg) := by
  have hnick := hs.tidy_nickname h.inv p
  rw [cmdPrivmsg]
  split_ifs with hnone hfew
  · exact .reply hnick (by decide) (by decide)
  · exact .reply hnick (by decide) (by decide)
  push Not at hnone hfew
  have htidy := htidy ⟨hfew.1, hnone.2, hfew.2⟩
  refine (List.foldlRecOn _ _ (motive := fun u => Tidily s u ∧ Turn s p u ∧ u.Presented)
    ⟨.refl s, h, hs⟩ fun u hu target htarget => ?_).1
  obtain ⟨hsaid, hturn, hpres⟩ := hu
  have hrun := hturn.privmsgOne hreg (oneLine_messageTargets hmsg htarget) (oneLine_messageText hmsg)
  exact ⟨hsaid.trans (tidily_privmsgOne hturn.inv hpres (htidy target htarget)),
    hturn.runs hrun (by decide), hpres.runs hturn.inv hrun⟩

theorem tidily_cmdNotice (h : Turn s p s) (hreg : (s.deref p).registered = true) (hmsg : msg.OneLine) :
    Tidily s (s.cmdNotice p msg) := by
  rw [cmdNotice]
  split_ifs
  · exact .refl s
  refine (List.foldlRecOn _ _ (motive := fun u => Tidily s u ∧ Turn s p u)
    ⟨.refl s, h⟩ fun u hu target htarget => ?_).1
  obtain ⟨hsaid, hturn⟩ := hu
  have hrun := hturn.noticeOne hreg (oneLine_messageTargets hmsg htarget) (oneLine_messageText hmsg)
  exact ⟨hsaid.trans (tidily_noticeOne hturn.inv), hturn.runs hrun (by decide)⟩

theorem tidily_cmdPing (hnick : Tidy (s.deref p).nickname) : Tidily s (s.cmdPing p msg) := by
  rw [cmdPing]
  split_ifs
  · exact .reply hnick (by decide) (by decide)
  · have hsays : Says (COLON :: SERVER_NAME) (str "PONG")
        (str ":" ++ SERVER_NAME ++ str " PONG " ++ SERVER_NAME ++ str " :" ++ msg.param 0) := by
      refine ⟨by decide, by decide, by decide, SERVER_NAME ++ str " :" ++ msg.param 0, ?_⟩
      simp only [List.append_assoc]
      rfl
    exact .message (wellSpaced_of_source hsays fun _ => by decide)

theorem tidily_cmdQuit (hi : s.Inv) (hp : s.Live p) (hmsg : msg.OneLine) : Tidily s (s.cmdQuit p msg) := by
  rw [cmdQuit]
  refine tidily_disconnectClient hi hp ?_
  split_ifs
  · exact hmsg.field _
  · exact hmsg.param 0
  · decide

/-! ### MODE -/

/-- **What is wrong with a mode string** is told in order, if the letters and the parameters they
took are tidy. -/
theorem neat_complaint {find : Str → Option Str} {params : List Str} {modes : Str} {x : Complaint}
    (hx : x ∈ complaints find name true params modes) (hname : Tidy name) (hspace : SPACE ∉ modes)
    (hbound : ∀ e ∈ boundPairs modes params, e.1 ≠ 107 → Tidy e.2) : Neat x.text := by
  have htaken : ∀ {y : Bool × Octet} {v}, (y, some v) ∈ (modeLetters true modes).zip
      (dealt letterNeed (modeLetters true modes) params) → y.2 ≠ 107 → Tidy v := fun {y v} hmem hy =>
    hbound (y.2, v) (List.mem_toFinset.mpr (List.mem_filterMap.mpr ⟨_, hmem, rfl⟩)) hy
  rcases complaints_cases hx with rfl | ⟨y, bound, hmem, ⟨key, -, -, rfl⟩ | ⟨nick, hy, rfl, rfl⟩ |
    ⟨limitStr, hy, rfl, rfl⟩ | ⟨-, rfl⟩⟩
  · show Neat (str "MODE :Not enough parameters")
    decide
  · exact hname.colon (by decide)
  · have hnick := htaken hmem (by rw [hy]; decide)
    simp only [notThere, List.append_assoc]
    exact hnick.append (hname.colon (by decide))
  · have hlimit := htaken hmem (by rw [hy]; decide)
    have hletter : Tidy (str "l") := by decide
    simp only [badLimit, List.append_assoc]
    exact hname.append (hletter.append (hlimit.colon (by decide)))
  · have hletter := mem_of_mem_modeLetters (List.of_mem_zip hmem).1
    exact Tidy.colon (.singleton fun h => hspace (h ▸ hletter)) (by decide)

/-- **A mode change of a channel.** -/
theorem tidily_handleChannelMode (hi : s.Inv) (hs : s.Presented) (hname : Tidy (s.channel ch).name)
    (hsafe : s.isMember ch p = true → s.isOperator ch p = true → Signed (msg.param 1) →
      SPACE ∉ msg.param 1 ∧ ∀ e ∈ boundPairs (msg.param 1) (msg.params.drop 2), e.1 ≠ 107 → Tidy e.2) :
    Tidily s (s.handleChannelMode p ch msg) := by
  have hnick := hs.tidy_nickname hi p
  by_cases hmem : s.isMember ch p = true
  swap
  · rw [handleChannelMode, if_pos (by simp [hmem])]
    exact .reply hnick (by decide) (hname.colon (by decide))
  by_cases hop : s.isOperator ch p = true
  swap
  · rw [handleChannelMode, if_neg (by simp [hmem]), if_pos (by simp [hop])]
    exact .reply hnick (by decide) (hname.colon (by decide))
  by_cases hsign : Signed (msg.param 1)
  swap
  · rw [handleChannelMode, if_neg (by simp [hmem]), if_neg (by simp [hop])]
    dsimp only
    rw [Signed, not_or] at hsign
    rw [if_pos (Or.inr hsign)]
    exact .refl s
  obtain ⟨hspace, hbound⟩ := hsafe hmem hop hsign
  rw [handleChannelMode_eq hmem hop hsign]
  have hset : Tidily s (s.withModes ch (s.modesMade ch (msg.params.drop 2) (msg.param 1))) := .of_eq rfl
  refine hset.trans (Tidily.tells ⟨_, fun e he => ?_, rfl⟩)
  rcases List.mem_append.mp he with he | he
  · obtain ⟨x, hx, rfl⟩ := List.mem_map.mp he
    have hx := (of_mem_once hx).1
    exact wellSpaced_reply hnick (isNumeric_complaint hx) (neat_complaint hx hname hspace hbound)
  · obtain ⟨rest, hrest⟩ := hi.words_modeLines (List.mem_map_of_mem he)
    rintro ⟨n, more, hwords, -⟩
    rw [hrest, List.cons.injEq, List.cons.injEq] at hwords
    exact absurd hwords.1.2 getPrefix_ne_SERVER_NAME

/-- **One letter of a user mode string.** The client keeps its name. -/
theorem tidily_userModeLetter {m : ModeLoop} {c : Octet} (hc : c ≠ SPACE)
    (hnick : Tidy (m.server.deref p).nickname) :
    Tidily m.server (userModeLetter p m c).server ∧
      ((userModeLetter p m c).server.deref p).nickname = (m.server.deref p).nickname ∧
        ((userModeLetter p m c).server.deref p).getPrefix = (m.server.deref p).getPrefix := by
  have hset : ∀ f : Client → Client, (∀ cl, (f cl).nickname = cl.nickname) →
      (∀ cl, (f cl).getPrefix = cl.getPrefix) → Tidily m.server (m.server.update p f) ∧
        ((m.server.update p f).deref p).nickname = (m.server.deref p).nickname ∧
          ((m.server.update p f).deref p).getPrefix = (m.server.deref p).getPrefix := fun f hn hp =>
    ⟨.of_eq rfl, deref_update_field Client.nickname hn p, deref_update_field Client.getPrefix hp p⟩
  rw [userModeLetter]
  split_ifs
  · exact ⟨.refl _, rfl, rfl⟩
  · exact ⟨.refl _, rfl, rfl⟩
  · exact hset _ (fun _ => rfl) fun _ => rfl
  · exact hset _ (fun _ => rfl) fun _ => rfl
  · rw [ModeLoop.reportOnce]
    split_ifs
    · exact ⟨.refl _, rfl, rfl⟩
    · refine ⟨.reply hnick (by decide) (Tidy.colon (.singleton hc) (by decide)), ?_, ?_⟩
      · rw [sendReply_eq]
        exact nickname_queueMany
      · rw [sendReply_eq]
        exact getPrefix_queueMany

/-- **A mode change of a client.** -/
theorem tidily_handleUserMode (hi : s.Inv) (hs : s.Presented)
    (hsafe : Libcpp.eqAsciiNocase (msg.param 0) (s.deref p).nickname = true → Signed (msg.param 1) →
      SPACE ∉ msg.param 1) : Tidily s (s.handleUserMode p msg) := by
  have hnick := hs.tidy_nickname hi p
  have hverb : HasVerb " MODE " := by decide
  rw [handleUserMode]
  dsimp only
  split_ifs with hother hone hbad
  · exact .reply hnick (by decide) (by decide)
  · refine .reply hnick (by decide) (.of_isWord ?_)
    have hletters : ∀ x ∈ ["+", "i", "w"], IsWord (str x) := by decide
    rw [Client.getUserModeString]
    split_ifs <;> simp [hletters]
  · exact .refl s
  have hsigned : Signed (msg.param 1) := by
    rw [Signed]
    tauto
  have hspace := hsafe (by simpa using hother) hsigned
  -- the loop over the letters reports the unknown ones
  obtain ⟨hsaid, hname, hpre⟩ := List.foldlRecOn (msg.param 1) (userModeLetter p)
    (motive := fun m => Tidily s m.server ∧ (m.server.deref p).nickname = (s.deref p).nickname ∧
      (m.server.deref p).getPrefix = (s.deref p).getPrefix)
    (⟨.refl s, rfl, rfl⟩ : Tidily s ({ server := s } : ModeLoop).server ∧ _ ∧ _)
    fun m hm c hc => by
      have hletter := tidily_userModeLetter (ne_of_mem_of_not_mem hc hspace) (hm.2.1 ▸ hnick)
      exact ⟨hm.1.trans hletter.1, hletter.2.1.trans hm.2.1, hletter.2.2.trans hm.2.2⟩
  generalize (msg.param 1).foldl (userModeLetter p) { server := s } = m at hsaid hname hpre ⊢
  rw [hname, hpre]
  refine hsaid.trans (Tidily.tells (.foldl _ fun u _ line hline => .message ?_))
  refine hi.wellSpaced p hverb (List.IsPrefix.trans ?_ (prefix_renderModeLines line hline))
  simp

/-- **The modes of a channel, asked for or changed.** -/
theorem tidily_cmdMode (hi : s.Inv) (hs : s.Presented)
    (htarget : ¬(msg.params = [] ∨ msg.param 0 = []) → (msg.param 0).head? = some HASH → Tidy (msg.param 0))
    (hchan : ∀ ch, (msg.param 0).head? = some HASH → s.findChannel (msg.param 0) = some ch →
      s.isMember ch p = true → s.isOperator ch p = true → msg.params.length ≠ 1 → Signed (msg.param 1) →
        SPACE ∉ msg.param 1 ∧ ∀ e ∈ boundPairs (msg.param 1) (msg.params.drop 2), e.1 ≠ 107 → Tidy e.2)
    (huser : (msg.param 0).head? ≠ some HASH →
      Libcpp.eqAsciiNocase (msg.param 0) (s.deref p).nickname = true → Signed (msg.param 1) →
        SPACE ∉ msg.param 1) : Tidily s (s.cmdMode p msg) := by
  have hnick := hs.tidy_nickname hi p
  rw [cmdMode]
  dsimp only
  split_ifs with hnone hhash hone
  · exact .reply hnick (by decide) (by decide)
  · have htarget := htarget hnone hhash
    rcases hfind : s.findChannel (msg.param 0) with _ | ch
    · exact .reply hnick (by decide) (htarget.colon (by decide))
    obtain ⟨-, -, hget⟩ := hi.tidy_of_findChannel hfind
    have hmodes := neat_modes (hi.channelTable ch _ hget).key htarget
    have hmade : Neat (msg.param 0 ++ str " " ++ Libcpp.toDecimal (s.channel ch).creationTime) := by
      rw [List.append_assoc]
      exact htarget.append (.of_isWord (isWord_toDecimal _))
    dsimp only
    split
    · exact .reply hnick (by decide) (htarget.colon (by decide))
    · exact Tidily.tells (.andReply (.reply (wellSpaced_reply hnick (by decide) hmodes))
        (wellSpaced_reply hnick (by decide) hmade))
  · have htarget := htarget hnone hhash
    rcases hfind : s.findChannel (msg.param 0) with _ | ch
    · exact .reply hnick (by decide) (htarget.colon (by decide))
    · exact tidily_handleChannelMode hi hs (hi.tidy_of_findChannel hfind).2.1 fun hmem hop hsign =>
        hchan ch hhash hfind hmem hop hone hsign
  · exact tidily_handleUserMode hi hs (huser hhash)

end Server

end FtIrc
