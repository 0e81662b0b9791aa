import FtIrc.Grammar.SameWalk
import FtIrc.Grammar.Stored

/-!
# The branch for single octets

A repetition whose body matches a single octet is matched by a table of octets. That branch tries
what is to come where the branch through the body does
(`FtIrc.Abnf.TreeMatcher.exists_tries`), but for one thing: an octet that several alternatives of
the body match is tried once for each of them by the branch through the body, and what is to come
once again with it. A line that does not match is not matched by trying again, so both branches come
to the same (`FtIrc.Abnf.bitmapBranch_tries`).
-/

namespace FtIrc

namespace Abnf

open Fuel Ways

namespace TreeMatcher

variable {g : Grammar} {line : Str} {last : ℕ → Walk → Option Outcome} {node count start pos i : ℕ}
  {next : List Frame} {W W' W'' : Way Walk}

/-- What is tried where, one position after the other. -/
def tryEach (g : Grammar) (line : Str) (last : ℕ → Walk → Option Outcome) (next : List Frame) (ps : List ℕ) : Way Walk :=
  first (ps.map fun p => way g line last (.continuation next p))

theorem equal_of_within (h : Within (Walk.Alike g) W W) : Equal (Walk.Alike g) W W := ⟨h, h⟩

theorem equal_trans (h : Equal (Walk.Alike g) W W') (h' : Equal (Walk.Alike g) W' W'') : Equal (Walk.Alike g) W W'' :=
  h.trans Walk.Alike.trans Walk.Alike.symm h'

/-- Nothing to try fails. -/
theorem first_nil : first [] = (fails : Way Walk) := by
  funext walk r
  refine propext ⟨fun h => ?_, fun h => ?_⟩
  · cases h
    rfl
  · obtain rfl := h
    exact .none

/-! ### Positions -/

/-- Lists after another have the elements of the one once. -/
theorem eraseDups_copies (qs : List ℕ) (n : ℕ) : (List.replicate (n + 1) qs).flatten.eraseDups = qs.eraseDups := by
  have hnew : (List.replicate n qs).flatten.removeAll qs = [] := by
    refine List.filter_eq_nil_iff.mpr fun p hp => ?_
    obtain ⟨l, hl, hpl⟩ := List.mem_flatten.mp hp
    obtain rfl := List.eq_of_mem_replicate hl
    simpa using hpl
  rw [List.replicate_succ, List.flatten_cons, List.eraseDups_append, hnew, List.eraseDups_nil, List.append_nil]

theorem eraseDups_concat {qs : List ℕ} (h : pos ∉ qs) : (qs ++ [pos]).eraseDups = qs.eraseDups ++ [pos] := by
  have hnew : [pos].removeAll qs = [pos] := by simp [List.removeAll, h]
  rw [List.eraseDups_append, hnew]
  rfl

theorem countdown_succ_zero (most : ℕ) : countdown (most + 1) 0 = (countdown most 0).map (· + 1) ++ [0] := by
  rw [countdown, countdown, List.range_succ_eq_map, List.drop_zero, List.drop_zero, List.reverse_cons, List.map_reverse]

theorem countdown_succ_succ (most least : ℕ) : countdown (most + 1) (least + 1) = (countdown most least).map (· + 1) := by
  rw [countdown, countdown, List.range_succ_eq_map, List.drop_succ_cons, List.map_reverse, List.map_drop]

/-- How many octets of a table there are from a position on, but for so many. -/
def takenAtMost (line : Str) (bits : List Octet) (most pos : ℕ) : ℕ :=
  (((line.drop pos).take most).takeWhile fun c => decide (c ∈ bits)).length

variable {bits : List Octet} {most : ℕ} {c : Octet}

theorem takenAtMost_succ (hget : (line)[pos]? = some c) (hc : c ∈ bits) :
    takenAtMost line bits (most + 1) pos = takenAtMost line bits most (pos + 1) + 1 := by
  obtain ⟨hlt, hget⟩ := List.getElem?_eq_some_iff.mp hget
  rw [takenAtMost, takenAtMost, List.drop_eq_getElem_cons hlt, hget, List.take_succ_cons,
    List.takeWhile_cons_of_pos (p := fun c => decide (c ∈ bits)) (decide_eq_true hc), List.length_cons]

theorem takenAtMost_none (h : ¬ ∃ c, (line)[pos]? = some c ∧ c ∈ bits) : takenAtMost line bits most pos = 0 := by
  rw [takenAtMost, List.length_eq_zero_iff]
  rcases most with _ | most
  · rw [List.take_zero, List.takeWhile_nil]
  rcases hget : (line)[pos]? with _ | c
  · rw [List.drop_eq_nil_of_le (List.getElem?_eq_none_iff.mp hget), List.take_nil, List.takeWhile_nil]
  · obtain ⟨hlt, hc⟩ := List.getElem?_eq_some_iff.mp hget
    rw [List.drop_eq_getElem_cons hlt, hc, List.take_succ_cons]
    refine List.takeWhile_cons_of_neg ?_
    rw [decide_eq_true_eq]
    exact fun hbits => h ⟨c, hget, hbits⟩

/-- How often a body of one octet may be matched from here on. -/
def mostMore (line : Str) (hi : ℤ) (count pos : ℕ) : ℕ :=
  if hi = kUnbounded then line.length - pos else (hi - count).toNat

/-- The positions that a repetition of one octet may end at. -/
def endings (line : Str) (bits : List Octet) (n : GrammarNode) (count pos : ℕ) : List ℕ :=
  (countdown (takenAtMost line bits (mostMore line n.hi count pos) pos) (n.lo - count).toNat).map (pos + ·)

variable {n : GrammarNode}

/-- No octet is taken. -/
theorem endings_none (h : takenAtMost line bits (mostMore line n.hi count pos) pos = 0) :
    endings line bits n count pos = if n.lo ≤ count then [pos] else [] := by
  rw [endings, h]
  split_ifs with hlo
  · rw [Int.toNat_of_nonpos (by omega)]
    rfl
  · obtain ⟨least, hleast⟩ : ∃ least, (n.lo - count).toNat = least + 1 := ⟨(n.lo - count).toNat - 1, by omega⟩
    rw [hleast]
    simp [countdown]

/-- An octet is taken, and it goes on behind it. -/
theorem endings_cons (hmore : n.hi = kUnbounded ∨ count < n.hi) (hget : (line)[pos]? = some c) (hc : c ∈ bits) :
    endings line bits n count pos =
      endings line bits n (count + 1) (pos + 1) ++ if n.lo ≤ count then [pos] else [] := by
  have hmost : mostMore line n.hi count pos = mostMore line n.hi (count + 1) (pos + 1) + 1 := by
    have hlt := (List.getElem?_eq_some_iff.mp hget).1
    rw [mostMore, mostMore]
    split_ifs with hhi
    · omega
    · have := hmore.resolve_left hhi
      omega
  have hshift : ∀ ts : List ℕ, (ts.map (· + 1)).map (pos + ·) = ts.map (pos + 1 + ·) := by
    intro ts
    rw [List.map_map]
    exact List.map_congr_left fun t _ => by simp only [Function.comp_apply]; omega
  rw [endings, endings, hmost, takenAtMost_succ hget hc]
  split_ifs with hlo
  · rw [Int.toNat_of_nonpos (by omega), Int.toNat_of_nonpos (by push_cast; omega), countdown_succ_zero, List.map_append, hshift]
    rfl
  · have hleast : (n.lo - count).toNat = (n.lo - (count + 1 : ℕ)).toNat + 1 := by omega
    rw [hleast, countdown_succ_succ, hshift, List.append_nil]

/-- Endings are behind where it began. -/
theorem le_of_mem_endings {p : ℕ} (h : p ∈ endings line bits n count pos) : pos ≤ p := by
  obtain ⟨t, -, rfl⟩ := List.mem_map.mp h
  exact Nat.le_add_right pos t

/-! ### A single octet -/

section Calls

variable (hg : g.Accepted)
include hg

/-- A node is matched as it is inside of it. -/
theorem equal_node (hlast : LooksAtCaptures g last) : Equal (Walk.Alike g) (way g line last (.node i pos next))
    (insideStep g line (way g line last) i pos next) := by
  have hinside : Within (Walk.Alike g) (insideStep g line (way g line last) i pos next)
      (insideStep g line (way g line last) i pos next) := within_insideStep (within_way hg hlast)
  refine equal_trans (equal_step hg hlast _) ⟨?_, ?_⟩
  · rintro walk walk' _ halike ⟨r, h, rfl⟩
    have hentered : walk.entered.Alike g walk' := ⟨halike.left.entered, halike.right, halike.captures⟩
    obtain ⟨r', h', hbool, hsame⟩ := hinside.go hentered h
    exact ⟨r', h', hbool, ⟨hsame.left.going, hsame.left.tables⟩, hsame.right, hsame.captures⟩
  · intro walk walk' r halike h
    have hentered : walk.Alike g walk'.entered := ⟨halike.left, halike.right.entered, halike.captures⟩
    obtain ⟨r', h', hbool, hsame⟩ := hinside.go hentered h
    exact ⟨Outcome.returned r', ⟨r', h', rfl⟩, hbool, hsame.left, ⟨hsame.right.going, hsame.right.tables⟩, hsame.captures⟩

/-- A node is matched in so many ways: what is to come behind one octet is tried so often. -/
def MatchedInWays (g : Grammar) (line : Str) (pos i n : ℕ) : Prop :=
  ∀ {last : ℕ → Walk → Option Outcome}, LooksAtCaptures g last → ∀ next,
    Equal (Walk.Alike g) (way g line last (.node i pos next))
      (first (List.replicate n (way g line last (.continuation next (pos + 1)))))

/-- A node that is matched in one way, if at all. -/
theorem exists_way {p : Prop} [Decidable p] (hp : p ↔ ∃ c, (line)[pos]? = some c ∧ g.Takes c i)
    (hinside : ∀ last next, insideStep g line (way g line last) i pos next =
      if p then way g line last (.continuation next (pos + 1)) else fails) :
    ∃ n, (0 < n ↔ ∃ c, (line)[pos]? = some c ∧ g.Takes c i) ∧ MatchedInWays g line pos i n := by
  refine ⟨if p then 1 else 0, ?_, fun hlast next => equal_trans (equal_node hg hlast) ?_⟩
  · rw [← hp]
    split_ifs with h
    · exact ⟨fun _ => h, fun _ => one_pos⟩
    · exact ⟨fun h0 => absurd h0 (lt_irrefl 0), fun hp => absurd hp h⟩
  · rw [hinside]
    split_ifs
    · rw [List.replicate_one, first_singleton]
      exact equal_of_within (within_way hg hlast _)
    · rw [List.replicate_zero, first_nil]
      exact equal_of_within within_fails

/-- **A node that matches a single octet** tries what is to come behind it, once for each way in which
it matches the octet. -/
theorem exists_ways (hi : g.Single i) :
    ∃ n, (0 < n ↔ ∃ c, (line)[pos]? = some c ∧ g.Takes c i) ∧ MatchedInWays g line pos i n := by
  induction hi with
  | @octetRange i hkind =>
    refine exists_way hg (p := (line)[pos]?.any fun c =>
      decide ((g.node i).lo ≤ c.toNat ∧ (c.toNat : ℤ) ≤ (g.node i).hi)) ?_ fun last next => ?_
    · simp only [Option.any_eq_true, decide_eq_true_eq, Grammar.takes_octetRange_iff hkind]
    · rw [insideStep, hkind]
  | @literal i hkind hlen =>
    refine exists_way hg (p := pos + (g.literal (g.node i).literal).length ≤ line.length ∧
      asciiFold ((line.drop pos).take (g.literal (g.node i).literal).length) = asciiFold (g.literal (g.node i).literal))
      ?_ fun last next => ?_
    · simp only [Grammar.takes_literal_iff hkind, hlen]
      rcases hget : (line)[pos]? with _ | c
      · have hle := List.getElem?_eq_none_iff.mp hget
        refine ⟨fun h => absurd h.1 (by omega), fun h => ?_⟩
        obtain ⟨c, hsome, -⟩ := h
        cases hsome
      · obtain ⟨hlt, hc⟩ := List.getElem?_eq_some_iff.mp hget
        have htake : (line.drop pos).take 1 = [c] := by
          rw [List.drop_eq_getElem_cons hlt, hc, List.take_succ_cons, List.take_zero]
        rw [htake]
        refine ⟨fun h => ⟨c, rfl, h.2.symm⟩, fun h => ?_⟩
        obtain ⟨_, hsome, htext⟩ := h
        obtain rfl := Option.some.inj hsome
        exact ⟨hlt, htext.symm⟩
    · rw [insideStep, hkind]
      dsimp only
      rw [hlen]
  | @reference i hkind hcapture hroot _ ih =>
    obtain ⟨n, hn, hways⟩ := ih
    refine ⟨n, ?_, fun hlast next => equal_trans (equal_node hg hlast) ?_⟩
    · simp only [hn, Grammar.takes_reference_iff hkind, ne_eq, hroot, not_false_iff, true_and]
    · rw [insideStep, hkind]
      dsimp only
      rw [if_neg hroot, if_pos hcapture]
      exact hways hlast next
  | @alternation i hkind _ _ ih =>
    -- the ways of the branches are tried one after the other
    have hbranches : ∀ cs : List ℕ, (∀ child ∈ cs, child ∈ g.childrenOf (g.node i)) →
        ∃ n, (0 < n ↔ ∃ c, (line)[pos]? = some c ∧ ∃ child ∈ cs, g.Takes c child) ∧
          ∀ {last : ℕ → Walk → Option Outcome}, LooksAtCaptures g last → ∀ next,
            Equal (Walk.Alike g) (first (cs.map fun child => way g line last (.node child pos next)))
              (first (List.replicate n (way g line last (.continuation next (pos + 1))))) := by
      intro cs hcs
      induction cs with
      | nil =>
        refine ⟨0, by simp, fun _ next => ?_⟩
        rw [List.map_nil, List.replicate_zero, first_nil]
        exact equal_of_within within_fails
      | cons child cs ihcs =>
        obtain ⟨n, hn, hways⟩ := ih child (hcs child List.mem_cons_self)
        obtain ⟨m, hm, hrest⟩ := ihcs fun c hc => hcs c (List.mem_cons_of_mem child hc)
        refine ⟨n + m, ?_, fun hlast next => ?_⟩
        · simp only [Nat.add_pos_iff_pos_or_pos, hn, hm, List.exists_mem_cons_iff, and_or_left, exists_or]
        · rw [List.map_cons, List.replicate_add, ← first_pair, ← List.singleton_append, ← first_pair, first_singleton]
          exact equal_first (.cons (hways hlast next) (.cons (hrest hlast next) .nil))
    obtain ⟨n, hn, hways⟩ := hbranches _ fun _ h => h
    refine ⟨n, ?_, fun hlast next => equal_trans (equal_node hg hlast) ?_⟩
    · simp only [hn, Grammar.takes_alternation_iff hkind]
    · rw [insideStep, hkind]
      exact hways hlast next

/-! ### The branch through the body -/

omit hg in
/-- From the second time on, a repetition goes through its body. -/
theorem step_repetition_succ : step g line last (way g line last) (.repetition node (count + 1) start pos next) =
    first (generalWays g (way g line last) node (count + 1) start pos next) := by
  funext walk r
  have hasked : ∀ k, asksSingleOctet g k (g.child (g.node node).first) (count + 1) walk = some (false, walk) :=
    fun k => if_neg count.succ_ne_zero
  refine propext ⟨?_, fun h => ⟨(false, walk), ⟨0, hasked 0⟩, ?_⟩⟩
  · rintro ⟨asked, ⟨k, hk⟩, h⟩
    obtain rfl := Option.some.inj ((hasked k).symm.trans hk)
    exact h
  · exact h

/-- **The branch through a body of one octet** tries what is to come where the octets of the body end,
and some positions again. -/
theorem exists_tries (hsingle : g.Single (g.child (g.node node).first))
    (hbits : ∀ c, c ∈ bits ↔ g.Takes c (g.child (g.node node).first)) (hfree : ¬ (0 < count ∧ pos = start)) :
    ∃ ps, ps.eraseDups = endings line bits (g.node node) count pos ∧
      ∀ {last : ℕ → Walk → Option Outcome}, LooksAtCaptures g last → ∀ next,
        Equal (Walk.Alike g) (first (generalWays g (way g line last) node count start pos next))
          (tryEach g line last next ps) := by
  induction hlen : line.length - pos using Nat.strong_induction_on generalizing count start pos with
  | _ len ih =>
    -- what is tried behind the last time the body matches
    have hstop : ∀ {last : ℕ → Walk → Option Outcome}, LooksAtCaptures g last → ∀ next, Equal (Walk.Alike g)
        (first (if (g.node node).lo ≤ count then [way g line last (.continuation next pos)] else []))
        (tryEach g line last next (if (g.node node).lo ≤ count then [pos] else [])) := by
      intro last hlast next
      rw [tryEach]
      split_ifs
      · exact equal_first (.cons (equal_of_within (within_way hg hlast _)) .nil)
      · exact equal_first .nil
    by_cases hmore : (g.node node).hi = kUnbounded ∨ count < (g.node node).hi
    swap
    · have hnone : takenAtMost line bits (mostMore line (g.node node).hi count pos) pos = 0 := by
        obtain ⟨hbound, hle⟩ := not_or.mp hmore
        rw [mostMore, if_neg hbound, Int.toNat_of_nonpos (by omega), takenAtMost, List.take_zero]
        rfl
      refine ⟨if (g.node node).lo ≤ count then [pos] else [], ?_, fun hlast next => ?_⟩
      · rw [endings_none hnone]
        split_ifs <;> rfl
      · rw [generalWays, if_neg fun h : Repeats g node count start pos => hmore h.1, List.nil_append]
        exact hstop hlast next
    -- the body is matched at one octet, in so many ways
    obtain ⟨n, hn, hways⟩ : ∃ n, (0 < n ↔ ∃ c, (line)[pos]? = some c ∧ g.Takes c (g.child (g.node node).first)) ∧
        MatchedInWays g line pos (g.child (g.node node).first) n := exists_ways hg hsingle
    have hbody : ∀ qs : List ℕ, (0 < n → ∀ {last : ℕ → Walk → Option Outcome}, LooksAtCaptures g last → ∀ next,
        Equal (Walk.Alike g) (way g line last (.continuation (.repetition node (count + 1) pos :: next) (pos + 1)))
          (tryEach g line last next qs)) →
        ∀ {last : ℕ → Walk → Option Outcome}, LooksAtCaptures g last → ∀ next, Equal (Walk.Alike g)
          (first (generalWays g (way g line last) node count start pos next))
          (tryEach g line last next ((List.replicate n qs).flatten ++ if (g.node node).lo ≤ count then [pos] else [])) := by
      intro qs hqs last hlast next
      rw [generalWays, if_pos ⟨hmore, hfree⟩, ← first_pair, first_singleton, tryEach, List.map_append, ← first_pair,
        List.map_flatten, List.map_replicate, ← first_flatten, List.map_replicate]
      exact equal_first (.cons (equal_trans (hways hlast _) (equal_copies n fun h => hqs h hlast next))
        (.cons (hstop hlast next) .nil))
    rcases n with _ | n
    · refine ⟨_, ?_, hbody [] fun h => absurd h (lt_irrefl 0)⟩
      have hnone : ¬ ∃ c, (line)[pos]? = some c ∧ c ∈ bits := by
        simpa [hbits] using hn
      rw [endings_none (takenAtMost_none hnone), List.replicate_zero, List.flatten_nil, List.nil_append]
      split_ifs <;> rfl
    · obtain ⟨c, hget, hc⟩ := hn.mp n.succ_pos
      have hlt := (List.getElem?_eq_some_iff.mp hget).1
      obtain ⟨qs, hqs, htries⟩ : ∃ qs, qs.eraseDups = endings line bits (g.node node) (count + 1) (pos + 1) ∧
          ∀ {last : ℕ → Walk → Option Outcome}, LooksAtCaptures g last → ∀ next,
            Equal (Walk.Alike g) (first (generalWays g (way g line last) node (count + 1) pos (pos + 1) next))
              (tryEach g line last next qs) := ih (line.length - (pos + 1)) (by omega) (by omega) rfl
      refine ⟨_, ?_, hbody qs fun _ {last} hlast next => ?_⟩
      · rw [endings_cons hmore hget ((hbits c).mpr hc), ← hqs]
        split_ifs
        · rw [eraseDups_concat, eraseDups_copies]
          intro hmem
          obtain ⟨l, hl, hpos⟩ := List.mem_flatten.mp hmem
          obtain rfl := List.eq_of_mem_replicate hl
          have hle := le_of_mem_endings (hqs ▸ List.mem_eraseDups.mpr hpos)
          omega
        · rw [List.append_nil, List.append_nil, eraseDups_copies]
      · refine equal_trans (equal_trans (equal_step hg hlast _) (equal_step hg hlast _)) ?_
        rw [step_repetition_succ]
        exact htries hlast next

/-! ### The branch by a bitmap -/

omit hg in
theorem takenFrom_eq (hlow : kUnbounded ≤ (g.node node).hi) (hhigh : (g.node node).hi < 2 ^ 64) {bits' : List Octet}
    (hbits : ∀ c, c ∈ bits' ↔ c ∈ bits) :
    takenFrom line bits' (g.node node).hi pos = takenAtMost line bits (mostMore line (g.node node).hi 0 pos) pos := by
  have hmember : (fun c => decide (c ∈ bits')) = fun c => decide (c ∈ bits) :=
    funext fun c => decide_eq_decide.mpr (hbits c)
  rw [takenFrom, takenAtMost, mostMore, hmember]
  split_ifs with hhi
  · rw [List.take_of_length_le (by rw [List.length_drop]; omega),
      List.take_of_length_le (by rw [List.length_drop])]
  · have hnonneg : 0 ≤ (g.node node).hi := by
      rw [kUnbounded] at hlow hhi
      omega
    rw [Int.emod_eq_of_lt hnonneg hhigh, Nat.cast_zero, sub_zero]

variable (hlast : LooksAtCaptures g last)
include hlast

/-- **The branch by a bitmap** tries what is to come where the octets of the body end, each position
once. -/
theorem equal_bitmapStep (hbits : ∀ c, c ∈ bits ↔ g.Takes c (g.child (g.node node).first))
    (hlow : kUnbounded ≤ (g.node node).hi) (hhigh : (g.node node).hi < 2 ^ 64) :
    Equal (Walk.Alike g) (bitmapStep g line (way g line last) node pos next)
      (tryEach g line last next (endings line bits (g.node node) 0 pos)) := by
  have htries : ∀ bits' : List Octet, (∀ c, c ∈ bits' ↔ g.Takes c (g.child (g.node node).first)) →
      first ((countdown (takenFrom line bits' (g.node node).hi pos) (g.node node).lo.toNat).map fun take =>
        way g line last (.continuation next (pos + take))) =
        tryEach g line last next (endings line bits (g.node node) 0 pos) := by
    intro bits' hbits'
    rw [tryEach, endings, takenFrom_eq hlow hhigh fun c => (hbits' c).trans (hbits c).symm, Nat.cast_zero, sub_zero,
      List.map_map]
    rfl
  have hwithin : Within (Walk.Alike g) (tryEach g line last next (endings line bits (g.node node) 0 pos))
      (tryEach g line last next (endings line bits (g.node node) 0 pos)) :=
    within_first_map (within_way hg hlast) _
  have hright : ∀ {walk : Walk} {bitmap}, walk.Fit g →
      Gives (fun k => g.octetBitmap k (g.child (g.node node).first) walk.tables) bitmap →
      (∀ c, c ∈ bitmap.1 ↔ g.Takes c (g.child (g.node node).first)) ∧ g.TablesRight bitmap.2 := by
    rintro walk bitmap hfit ⟨k, hk⟩
    obtain ⟨⟨m, hm⟩, htables⟩ := hfit.tables.looked hk
    refine ⟨fun c => (Grammar.mem_matchedOctets hm).trans ?_, htables⟩
    exact ⟨fun h => h.2, fun h => ⟨Grammar.mem_allOctets c, h⟩⟩
  constructor
  · rintro walk walk' r halike ⟨bitmap, hbitmap, hfirst⟩
    obtain ⟨hmember, htables⟩ := hright halike.left hbitmap
    rw [htries _ hmember] at hfirst
    exact hwithin.go ⟨halike.left.scanned htables _, halike.right, halike.captures⟩ hfirst
  · intro walk walk' r halike hfirst
    obtain ⟨k, bitmap, hbitmap⟩ := Grammar.ends_octetBitmap (hg.acc_left (g.child (g.node node).first)) walk'.tables
    obtain ⟨hmember, htables⟩ := hright halike.right ⟨k, hbitmap⟩
    obtain ⟨r', hfirst', hsame⟩ := hwithin.go
      ⟨halike.left, halike.right.scanned htables (takenFrom line bitmap.1 (g.node node).hi pos), halike.captures⟩ hfirst
    refine ⟨r', ⟨bitmap, ⟨k, hbitmap⟩, ?_⟩, hsame⟩
    rw [htries _ hmember]
    exact hfirst'

/-! ### Both branches -/

/-- What the branch by a bitmap comes to. -/
def bitmapWay (g : Grammar) (line : Str) (last : ℕ → Walk → Option Outcome) (node pos : ℕ) (next : List Frame) : Way Walk :=
  fun walk r => Gives (fun k => bitmapBranch .unlimited g line last k node pos next walk) r

/-- What the branch through the body comes to, the first time. -/
def generalWay (g : Grammar) (line : Str) (last : ℕ → Walk → Option Outcome) (node pos : ℕ) (next : List Frame) : Way Walk :=
  fun walk r => Gives (fun k => generalBranch .unlimited g line last k node 0 pos pos next walk) r

theorem equal_bitmapWay : Equal (Walk.Alike g) (bitmapWay g line last node pos next)
    (bitmapStep g line (way g line last) node pos next) := by
  have hkeeps : ∀ pos, KeepsFit g fun walk r => last pos walk = some r := fun pos => keepsFit_of_within (hlast pos)
  have hwithin : Within (Walk.Alike g) (bitmapStep g line (way g line last) node pos next)
      (bitmapStep g line (way g line last) node pos next) := within_bitmapStep hg (within_way hg hlast)
  constructor
  · rintro walk walk' r halike ⟨k, h⟩
    exact hwithin.go halike (bitmapStep_of_bitmapBranch (fun call => keepsFit_way hg hkeeps call) halike.left
      (fun _ _ _ h => ⟨k, h⟩) h)
  · intro walk walk' r halike h
    obtain ⟨r', h', hsame⟩ := hwithin.go halike h
    exact ⟨r', gives_bitmapBranch hg hkeeps halike.right h', hsame⟩

theorem equal_generalWay : Equal (Walk.Alike g) (generalWay g line last node pos next)
    (first (generalWays g (way g line last) node 0 pos pos next)) := by
  have hkeeps : ∀ pos, KeepsFit g fun walk r => last pos walk = some r := fun pos => keepsFit_of_within (hlast pos)
  have hwithin : Within (Walk.Alike g) (first (generalWays g (way g line last) node 0 pos pos next))
      (first (generalWays g (way g line last) node 0 pos pos next)) := within_generalWays (within_way hg hlast)
  constructor
  · rintro walk walk' r halike ⟨k, h⟩
    exact hwithin.go halike (first_of_generalBranch (fun call => keepsFit_way hg hkeeps call) halike.left
      (fun _ _ _ h => ⟨k, h⟩) h)
  · intro walk walk' r halike h
    obtain ⟨r', h', hsame⟩ := hwithin.go halike h
    exact ⟨r', gives_generalBranch hg hkeeps halike.right h', hsame⟩

/-- **What fails need not be tried again.** -/
theorem repeatable_continuation (hback : ∀ pos, Restores g fun walk r => last pos walk = some r) :
    Repeatable (Walk.Alike g) Walk.Even fun p => way g line last (.continuation next p) where
  symm := Walk.Alike.symm
  trans := Walk.Alike.trans
  keeps halike heven := heven.congr halike.captures.symm
  within p := within_way hg hlast _
  unique h h' := (steady_perform _ _).gives_unique h h'
  back {p walk r} heven hfit h hr := by
    have hkeeps : ∀ pos, KeepsFit g fun walk r => last pos walk = some r := fun pos => keepsFit_of_within (hlast pos)
    have hcaptures := restores_way hg hkeeps hback _ walk r hfit.left heven h hr
    exact ⟨hfit.left, keepsFit_way hg hkeeps _ hfit.left h, hcaptures.symm⟩

end Calls

/-! ### What is tried -/

/-- What is done where no frame is left, by what was captured. -/
def onCaptures (cont : ℕ → Captures → Bool × Captures) (pos : ℕ) (walk : Walk) : Option Outcome :=
  let r := cont pos walk.captures
  some (r.1, { walk with values := r.2.1, sequence := r.2.2.1, owners := r.2.2.2 })

theorem looksAtCaptures_onCaptures (cont : ℕ → Captures → Bool × Captures) : LooksAtCaptures g (onCaptures cont) := by
  intro pos walk walk' r halike h
  obtain rfl := Option.some.inj h
  refine ⟨_, rfl, ?_, ⟨halike.left.going, halike.left.tables⟩, ⟨halike.right.going, halike.right.tables⟩, ?_⟩
  · rw [halike.captures]
  · change (cont pos walk.captures).2 = (cont pos walk'.captures).2
    rw [halike.captures]

/-- **A branch tries what is to come at these positions**, one after the other, whatever is to come. -/
def Tries (g : Grammar) (line : Str) (branch : (ℕ → Walk → Option Outcome) → List Frame → Way Walk) (ps : List ℕ) : Prop :=
  ∀ cont next, Equal (Walk.Alike g) (branch (onCaptures cont) next) (tryEach g line (onCaptures cont) next ps)

/-- A continuation that writes down where it was tried, and fails. -/
def notes (pos : ℕ) (captures : Captures) : Bool × Captures :=
  (false, captures.1, captures.2.1, captures.2.2 ++ [(pos : ℤ)])

theorem owners_of_tryEach_notes {walk : Walk} {r : Outcome} {ps : List ℕ} (hfit : walk.Fit g)
    (h : tryEach g line (onCaptures notes) [] ps walk r) : r.2.owners = walk.owners ++ ps.map Nat.cast := by
  induction ps generalizing walk with
  | nil =>
    cases h
    exact (List.append_nil _).symm
  | cons p ps ih =>
    have hnoted : ∀ {r : Outcome}, way g line (onCaptures notes) (.continuation [] p) walk r →
        r = (false, { walk with owners := walk.owners ++ [(p : ℤ)] }) := by
      rintro r ⟨_ | k, hk⟩
      · simp [perform, matchContinuation] at hk
      · simp only [perform, matchContinuation, hfit.going, Bool.false_eq_true, if_false] at hk
        exact (Option.some.inj hk).symm
    cases h with
    | hit hgo htrue =>
      obtain rfl := hnoted hgo
      cases htrue
    | miss hgo _ hrest =>
      obtain rfl := hnoted hgo
      have hfit' : Walk.Fit g { walk with owners := walk.owners ++ [(p : ℤ)] } := ⟨hfit.going, hfit.tables⟩
      rw [ih hfit' hrest, List.map_cons, List.append_assoc]
      rfl

/-- **What a branch tries can be seen** from what is written down. -/
theorem Tries.noted {branch : (ℕ → Walk → Option Outcome) → List Frame → Way Walk} {ps : List ℕ}
    (h : Tries g line branch ps) {walk : Walk} (hfit : walk.Fit g) {r : Outcome} (hbranch : branch (onCaptures notes) [] walk r) :
    r.2.owners = walk.owners ++ ps.map Nat.cast := by
  obtain ⟨r', htry, -, hsame⟩ := (h notes []).within.go ⟨hfit, hfit, rfl⟩ hbranch
  have howners : r.2.owners = r'.2.owners := congrArg (fun c => c.2.2) hsame.captures
  rw [howners, owners_of_tryEach_notes hfit htry]

/-- **What fails need not be tried again at the end of a line**: two branches that try the same
positions, one of them some of these again, come to the same. -/
theorem Tries.same (hg : g.Accepted) {branch branch' : (ℕ → Walk → Option Outcome) → List Frame → Way Walk} {ps : List ℕ}
    (h : Tries g line branch ps) (h' : Tries g line branch' ps.eraseDups) {walk : Walk} (hfit : walk.Fit g)
    (heven : walk.Even) (found : Bool) (captures : Captures) :
    (∃ after, branch (atEnd line) next walk (found, after) ∧ after.captures = captures) ↔
      ∃ after, branch' (atEnd line) next walk (found, after) ∧ after.captures = captures := by
  have hcont : atEnd line = onCaptures fun pos captures => (decide (pos = line.length), captures) := rfl
  have hself : walk.Alike g walk := ⟨hfit, hfit, rfl⟩
  have hback : ∀ pos, Restores g fun walk r => atEnd line pos walk = some r := by
    intro pos walk r _ _ hend _
    obtain rfl := Option.some.inj hend
    rfl
  have hrepeat : Repeatable (Walk.Alike g) Walk.Even fun p => way g line (atEnd line) (.continuation next p) :=
    repeatable_continuation hg (hcont ▸ looksAtCaptures_onCaptures _) hback
  rw [hcont] at hrepeat ⊢
  constructor
  · rintro ⟨after, hgo, rfl⟩
    obtain ⟨r₁, htry, hbool₁, hsame₁⟩ := (h _ next).within.go hself hgo
    obtain ⟨r₂, htry', hbool₂, hsame₂⟩ := hrepeat.once heven hself htry
    obtain ⟨r₃, hgo', hbool₃, hsame₃⟩ := (h' _ next).converse.go hself htry'
    refine ⟨r₃.2, ?_, (hsame₁.trans (hsame₂.trans hsame₃)).captures.symm⟩
    rwa [show found = r₃.1 from hbool₁.trans (hbool₂.trans hbool₃)]
  · rintro ⟨after, hgo, rfl⟩
    obtain ⟨r₁, htry, hbool₁, hsame₁⟩ := (h' _ next).within.go hself hgo
    obtain ⟨r₂, htry', hbool₂, hsame₂⟩ := hrepeat.again heven hself htry
    obtain ⟨r₃, hgo', hbool₃, hsame₃⟩ := (h _ next).converse.go hself htry'
    refine ⟨r₃.2, ?_, (hsame₁.trans (hsame₂.trans hsame₃)).captures.symm⟩
    rwa [show found = r₃.1 from hbool₁.trans (hbool₂.trans hbool₃)]

end TreeMatcher

/-! ### Grammars that were compiled -/

/-- An upper bound is stored in an `int`. -/
theorem Bounds.read_lt {bounds : Bounds} {read : ℤ × ℤ} (hread : bounds.read .machine = some read) :
    read.2 < 2 ^ 64 := by
  have hcount : ∀ digits, Numbers.machine.count digits < 2 ^ 64 := by
    intro digits
    have hlt : strtolInt 10 digits < (2 ^ 32 + 1) / 2 := Int.bmod_lt (by decide)
    change strtolInt 10 digits < 2 ^ 64
    omega
  cases bounds with
  | exactly times =>
    obtain rfl := Option.some.inj hread
    exact hcount times
  | between least most =>
    rw [Bounds.read] at hread
    obtain ⟨-, hread⟩ := Option.ite_none_left_eq_some.mp hread
    obtain rfl := Option.some.inj hread
    change (if most = [] then kUnbounded else Numbers.machine.count most) < 2 ^ 64
    split_ifs
    · decide
    · exact hcount most

/-- Upper bounds are those of an `int`. -/
theorem hi_lt_of_compile {text : Str} {g : Grammar} (h : compile .machine text = .ok g) {node : ℕ}
    (hkind : (g.node node).kind = .repetition) : (g.node node).hi < 2 ^ 64 := by
  obtain ⟨rules, -, hwrite, -⟩ := compile_eq_ok_iff.mp h
  have hone : (1 : ℤ) < 2 ^ 64 := by decide
  have hevery : g.EveryNode fun n => n.kind = .repetition → n.hi < 2 ^ 64 := by
    refine everyNode_writeRules (fun n _ hne hkind => absurd hkind hne) (fun _ _ _ => hone)
      (fun n hn => absurd hn List.not_mem_nil) (fun r _ => ⟨fun _ _ hkind => (nomatch hkind), fun _ hread _ _ _ => ?_⟩) hwrite
    exact Bounds.read_lt hread
  by_cases hnode : node < g.nodes.length
  · exact hevery _ (Grammar.node_mem hnode) hkind
  · rw [Grammar.node, List.getD_eq_default _ _ (not_lt.mp hnode)] at hkind
    cases hkind

/-! ### The table of octets and the body -/

section Compiled

open TreeMatcher

variable {g : Grammar} {text : Str} {node : ℕ}

/-- **Both branches of a repetition of single octets come to the same.** The branch by a bitmap tries
what is to come at the positions the branch through the body tries it at, in this order, but each
once; and what a question about single octets is answered does not depend on earlier ones. -/
theorem bitmapBranch_tries (h : compile .machine text = .ok g) (hkind : (g.node node).kind = .repetition)
    (hhi : kUnbounded ≤ (g.node node).hi) {tables : Grammar.OctetTables} (htables : g.Filled tables) {k : ℕ} {memo : Memo}
    (hasked : g.isSingleOctet k (g.child (g.node node).first) tables.single = some (true, memo)) (line : Str) (pos : ℕ) :
    (∃ tries, Tries g line (fun last next => generalWay g line last node pos next) tries ∧
      Tries g line (fun last next => bitmapWay g line last node pos next) tries.eraseDups) ∧
    (∀ (next : List Frame) (walk : Walk), walk.Fit g → walk.Even → ∀ found captures,
      (∃ after, generalWay g line (atEnd line) node pos next walk (found, after) ∧ after.captures = captures) ↔
        ∃ after, bitmapWay g line (atEnd line) node pos next walk (found, after) ∧ after.captures = captures) ∧
    ∀ tables tables', g.Filled tables → g.Filled tables' → ∀ i,
      (∃ yes memo memo', Gives (fun k => g.isSingleOctet k i tables.single) (yes, memo) ∧
        Gives (fun k => g.isSingleOctet k i tables'.single) (yes, memo')) ∧
      ∃ bits after after', Gives (fun k => g.octetBitmap k i tables) (bits, after) ∧
        Gives (fun k => g.octetBitmap k i tables') (bits, after') := by
  have hg := accepted_compile h
  have hsingle := (((htables.right hg).asked hg hasked).1).mp rfl
  obtain ⟨m, bitmap, hbitmap⟩ := Grammar.ends_octetBitmap (hg.acc_left (g.child (g.node node).first)) tables
  obtain ⟨⟨m', hmatched⟩, -⟩ := (htables.right hg).looked hbitmap
  have hbits : ∀ c, c ∈ bitmap.1 ↔ g.Takes c (g.child (g.node node).first) := fun c =>
    (Grammar.mem_matchedOctets hmatched).trans ⟨fun h => h.2, fun h => ⟨Grammar.mem_allOctets c, h⟩⟩
  obtain ⟨tries, htries, hgeneral⟩ : ∃ ps, ps.eraseDups = endings line bitmap.1 (g.node node) 0 pos ∧
      ∀ {last : ℕ → Walk → Option Outcome}, LooksAtCaptures g last → ∀ next,
        Equal (Walk.Alike g) (first (generalWays g (way g line last) node 0 pos pos next))
          (tryEach g line last next ps) := exists_tries hg hsingle hbits fun h => absurd h.1 (lt_irrefl 0)
  have hbody : Tries g line (fun last next => generalWay g line last node pos next) tries := fun cont next =>
    equal_trans (equal_generalWay hg (looksAtCaptures_onCaptures cont)) (hgeneral (looksAtCaptures_onCaptures cont) next)
  have htable : Tries g line (fun last next => bitmapWay g line last node pos next) tries.eraseDups := by
    intro cont next
    rw [htries]
    exact equal_trans (equal_bitmapWay hg (looksAtCaptures_onCaptures cont))
      (equal_bitmapStep hg (looksAtCaptures_onCaptures cont) hbits hhi (hi_lt_of_compile h hkind))
  refine ⟨⟨tries, hbody, htable⟩, fun next walk hfit heven found captures => ?_, fun tables tables' ht ht' i => ⟨?_, ?_⟩⟩
  · exact Tries.same hg hbody htable hfit heven found captures
  · obtain ⟨k, ⟨yes, memo⟩, hyes⟩ := Grammar.ends_isSingleOctet (hg.acc_left i) tables.single
    obtain ⟨k', ⟨yes', memo'⟩, hyes'⟩ := Grammar.ends_isSingleOctet (hg.acc_left i) tables'.single
    have hright := ((ht.right hg).asked hg hyes).1
    have hright' := ((ht'.right hg).asked hg hyes').1
    obtain rfl : yes = yes' := Bool.eq_iff_iff.mpr (hright.trans hright'.symm)
    exact ⟨yes, memo, memo', ⟨k, hyes⟩, k', hyes'⟩
  · obtain ⟨k, ⟨bits, after⟩, hlook⟩ := Grammar.ends_octetBitmap (hg.acc_left i) tables
    obtain ⟨k', ⟨bits', after'⟩, hlook'⟩ := Grammar.ends_octetBitmap (hg.acc_left i) tables'
    obtain ⟨⟨l, hl⟩, -⟩ := (ht.right hg).looked hlook
    obtain ⟨⟨l', hl'⟩, -⟩ := (ht'.right hg).looked hlook'
    obtain rfl : bits = bits' := (g.steady_matchedOctets i _).unique hl hl'
    exact ⟨bits, after, after', ⟨k, hlook⟩, k', hlook'⟩

set_option maxRecDepth 4000 in
theorem bitmapBranch_tries_nested : ∃ g, compile .machine (str "a=1*3b *b\nb=\"x\"/%x30-39") = .ok g ∧
    ∃ tries, Tries g (str "x7") (fun last next => generalWay g (str "x7") last 1 0 next) tries ∧
      Tries g (str "x7") (fun last next => bitmapWay g (str "x7") last 1 0 next) tries.eraseDups := by
  have hcompiled : compile .machine (str "a=1*3b *b\nb=\"x\"/%x30-39") = .ok _ := rfl
  exact ⟨_, hcompiled, (bitmapBranch_tries hcompiled rfl (by decide) .empty (k := 20) rfl _ _).1⟩

/-- The grammar of `a=*("x"/"X")`. -/
def overlapping : Grammar where
  nodes := [{ kind := .literal, literal := 0 }, { kind := .literal, literal := 1 },
    { kind := .alternation, first := 0, count := 2 }, { kind := .repetition, hi := kUnbounded, first := 2, count := 1 }]
  children := [0, 1, 2]
  literals := [str "x", str "X"]
  ruleNames := [str "a"]
  ruleRoots := [3]

set_option maxRecDepth 4000 in
/-- An octet that two alternatives match is tried twice by the branch through the body. -/
theorem overlapping_tries : compile .machine (str "a=*(\"x\"/\"X\")") = .ok overlapping ∧
    (overlapping.node 3).kind = .repetition ∧
    (∃ k memo, overlapping.isSingleOctet k (overlapping.child (overlapping.node 3).first) [] = some (true, memo)) ∧
    ¬ ∃ tries, Tries overlapping (str "x") (fun last next => generalWay overlapping (str "x") last 3 0 next) tries ∧
      Tries overlapping (str "x") (fun last next => bitmapWay overlapping (str "x") last 3 0 next) tries := by
  have hcompiled : compile .machine (str "a=*(\"x\"/\"X\")") = .ok overlapping := rfl
  refine ⟨hcompiled, rfl, ⟨3, _, rfl⟩, ?_⟩
  rintro ⟨tries, hbody, htable⟩
  have hfit : Walk.Fit overlapping {} := ⟨rfl, Grammar.Filled.empty.right (accepted_compile hcompiled)⟩
  have hmore : (generalBranch .unlimited overlapping (str "x") (onCaptures notes) 10 3 0 0 0 [] {}).map
      (fun r : Outcome => r.2.owners) = some [1, 1, 0] := by decide +kernel
  have honce : (bitmapBranch .unlimited overlapping (str "x") (onCaptures notes) 10 3 0 [] {}).map
      (fun r : Outcome => r.2.owners) = some [1, 0] := by decide +kernel
  obtain ⟨r, hr, howners⟩ := Option.map_eq_some_iff.mp hmore
  obtain ⟨r', hr', howners'⟩ := Option.map_eq_some_iff.mp honce
  have htries := hbody.noted hfit ⟨10, hr⟩
  have htries' := htable.noted hfit ⟨10, hr'⟩
  rw [howners] at htries
  rw [howners', ← htries] at htries'
  cases htries'

end Compiled

end Abnf

end FtIrc
