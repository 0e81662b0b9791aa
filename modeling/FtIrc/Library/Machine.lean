import Mathlib.Data.Finset.Card
import Mathlib.Logic.Relation

/-!
# A matching machine run in lockstep

A program of jumps, prioritised splits, saves and symbol tests
(`FtIrc.Machine.Instr`), run over an input by all its threads at once
(`FtIrc.Machine.search`): the threads that wait for the next symbol are kept in
order of priority, and an address is entered at most once at each position.

Two things are proved about it. Whatever the program, the run ends in success
exactly when some path through the program accepts the input
(`FtIrc.Machine.search_isSome_iff`); loops that take no symbol do no harm here.
And when the backtracking search through the program ends everywhere
(`FtIrc.Machine.Yields`), the run finds what that search finds first
(`FtIrc.Machine.search_eq`).
-/

namespace FtIrc

namespace Machine

/-- An instruction of the machine. -/
inductive Instr (α : Type)
  /-- Take a symbol. -/
  | symbol (p : α → Bool)
  /-- Go on at `x`, or else at `y`. -/
  | split (x y : ℕ)
  | jump (x : ℕ)
  /-- Note the position in a register. -/
  | save (r : ℕ)
  | accept
  | reject

/-- What a thread has noted: registers and positions, in order. -/
abbrev Saves := List (ℕ × ℕ)

/-- A thread: where it stands and what it has noted. -/
structure Thread where
  pc : ℕ
  saves : Saves

variable {α : Type}

/-- Where an instruction leads without a symbol taken, in order of priority. -/
def Instr.successors (pc : ℕ) : Instr α → List ℕ
  | split x y => [x, y]
  | jump x => [x]
  | save _ => [pc + 1]
  | _ => []

/-- An instruction a thread waits at. -/
def Instr.isLeaf : Instr α → Bool
  | symbol _ => true
  | accept => true
  | _ => false

variable (code : ℕ → Instr α)

/-- One move without a symbol taken. -/
def Eps (pc q : ℕ) : Prop := q ∈ (code pc).successors pc

/-! ### The run -/

/-- The threads an address leads to at position `pos`, and the addresses entered
on the way; an address of `visited` is not entered again. -/
def explore (pos : ℕ) : ℕ → ℕ → Saves → Finset ℕ → List Thread × Finset ℕ
  | 0, _, _, visited => ([], visited)
  | fuel + 1, pc, saves, visited =>
    if pc ∈ visited then ([], visited)
    else match code pc with
      | .jump x => explore pos fuel x saves (insert pc visited)
      | .split x y =>
        let r := explore pos fuel x saves (insert pc visited)
        let r' := explore pos fuel y saves r.2
        (r.1 ++ r'.1, r'.2)
      | .save i => explore pos fuel (pc + 1) (saves ++ [(i, pos)]) (insert pc visited)
      | .symbol _ => ([⟨pc, saves⟩], insert pc visited)
      | .accept => ([⟨pc, saves⟩], insert pc visited)
      | .reject => ([], insert pc visited)

/-- The threads after one more symbol. -/
def advance (fuel pos : ℕ) (c : α) : List Thread → Finset ℕ → List Thread × Finset ℕ
  | [], visited => ([], visited)
  | t :: ts, visited =>
    match code t.pc with
    | .symbol p =>
      if p c then
        let r := explore code (pos + 1) fuel (t.pc + 1) t.saves visited
        let r' := advance fuel pos c ts r.2
        (r.1 ++ r'.1, r'.2)
      else advance fuel pos c ts visited
    | _ => advance fuel pos c ts visited

/-- Whether a thread stands at the end of the program. -/
def Thread.done (t : Thread) : Bool :=
  match code t.pc with
  | .accept => true
  | _ => false

/-- The run of a list of threads over the rest of the input: what the first thread
noted that stands at the end of the program when the input ends. -/
def run (fuel : ℕ) : ℕ → List Thread → List α → Option Saves
  | _, ts, [] => (ts.find? (Thread.done code)).map Thread.saves
  | pos, ts, c :: w => run fuel (pos + 1) (advance code fuel pos c ts ∅).1 w

/-- **The run of a program** of `size` instructions over an input. -/
def search (size : ℕ) (w : List α) : Option Saves :=
  run code (size + 1) 0 (explore code 0 (size + 1) 0 [] ∅).1 w

/-- A run without threads finds nothing. -/
theorem run_nil (fuel pos : ℕ) (w : List α) : run code fuel pos [] w = none := by
  induction w generalizing pos with
  | nil => rfl
  | cons c w ih => exact ih (pos + 1)

variable {code}

/-! ### One closure -/

/-- How many addresses of the program were not entered. -/
def unvisited (size : ℕ) (visited : Finset ℕ) : ℕ := (Finset.range size \ visited).card

theorem unvisited_anti {size : ℕ} {v v' : Finset ℕ} (h : v ⊆ v') :
    unvisited size v' ≤ unvisited size v :=
  Finset.card_le_card (Finset.sdiff_subset_sdiff (Finset.Subset.refl _) h)

theorem unvisited_insert {size pc : ℕ} {v : Finset ℕ} (hpc : pc < size) (h : pc ∉ v) :
    unvisited size (insert pc v) < unvisited size v := by
  refine Finset.card_lt_card (Finset.ssubset_iff_subset_ne.mpr ⟨?_, fun hcon => ?_⟩)
  · exact Finset.sdiff_subset_sdiff (Finset.Subset.refl _) (Finset.subset_insert _ _)
  · have hmem : pc ∈ Finset.range size \ v := Finset.mem_sdiff.mpr ⟨Finset.mem_range.mpr hpc, h⟩
    rw [← hcon] at hmem
    exact (Finset.mem_sdiff.mp hmem).2 (Finset.mem_insert_self _ _)

/-- The addresses from `size` on hold no instruction. -/
def Within (code : ℕ → Instr α) (size : ℕ) : Prop := ∀ pc, size ≤ pc → code pc = .reject

theorem Within.lt_of_ne {size pc : ℕ} (h : Within code size) (hne : code pc ≠ .reject) :
    pc < size := by
  by_contra hge
  exact hne (h pc (by omega))

/-- What one closure does: `l` and `v'` from `pc` and `v`. -/
structure Explored (code : ℕ → Instr α) (pc : ℕ) (v : Finset ℕ) (l : List Thread)
    (v' : Finset ℕ) : Prop where
  subset : v ⊆ v'
  entered : pc ∈ v'
  /-- An address entered on the way has its successors entered, and its thread if it
  is one to wait at. -/
  closed : ∀ q ∈ v', q ∉ v → (∀ q', Eps code q q' → q' ∈ v') ∧
    ((code q).isLeaf = true → ∃ t ∈ l, t.pc = q)
  reached : ∀ t ∈ l, (code t.pc).isLeaf = true ∧ Relation.ReflTransGen (Eps code) pc t.pc

theorem isLeaf_of_mem_successors {pc q : ℕ} (h : Eps code pc q) : (code pc).isLeaf = false := by
  rw [Eps] at h
  rcases hcode : code pc with p | ⟨x, y⟩ | x | i | _ | _ <;>
    simp_all [Instr.successors, Instr.isLeaf]

namespace Explored

variable {pc x y : ℕ} {v v₁ v₂ : Finset ℕ} {l l₁ l₂ : List Thread}

/-- An address that leads nowhere without a symbol. -/
theorem stop (hsucc : (code pc).successors pc = [])
    (hleaf : (code pc).isLeaf = true → ∃ t ∈ l, t.pc = pc)
    (hl : ∀ t ∈ l, t.pc = pc ∧ (code pc).isLeaf = true) : Explored code pc v l (insert pc v) where
  subset := Finset.subset_insert _ _
  entered := Finset.mem_insert_self _ _
  closed q hq hq' := by
    obtain rfl : q = pc := (Finset.mem_insert.mp hq).resolve_right hq'
    exact ⟨fun q' h => absurd h (by rw [Eps, hsucc]; simp), hleaf⟩
  reached t ht := by
    obtain ⟨hpc, hleaf⟩ := hl t ht
    rw [hpc]
    exact ⟨hleaf, .refl⟩

/-- An address that leads to one other. -/
theorem single (hsucc : (code pc).successors pc = [x])
    (h : Explored code x (insert pc v) l v₁) : Explored code pc v l v₁ where
  subset := (Finset.subset_insert _ _).trans h.subset
  entered := h.subset (Finset.mem_insert_self _ _)
  closed q hq hq' := by
    by_cases hqpc : q = pc
    · subst hqpc
      have hx : Eps code q x := by rw [Eps, hsucc]; exact List.mem_singleton_self x
      refine ⟨fun q' h' => ?_, fun hl => absurd hl (by rw [isLeaf_of_mem_successors hx]; simp)⟩
      rw [Eps, hsucc, List.mem_singleton] at h'
      exact h' ▸ h.entered
    · exact h.closed q hq fun hcon => (Finset.mem_insert.mp hcon).elim hqpc hq'
  reached t ht :=
    ⟨(h.reached t ht).1, .head (by rw [Eps, hsucc]; exact List.mem_singleton_self x) (h.reached t ht).2⟩

/-- An address that leads to two others. -/
theorem pair (hsucc : (code pc).successors pc = [x, y])
    (h₁ : Explored code x (insert pc v) l₁ v₁) (h₂ : Explored code y v₁ l₂ v₂) :
    Explored code pc v (l₁ ++ l₂) v₂ where
  subset := ((Finset.subset_insert _ _).trans h₁.subset).trans h₂.subset
  entered := h₂.subset (h₁.subset (Finset.mem_insert_self _ _))
  closed q hq hq' := by
    by_cases hqpc : q = pc
    · subst hqpc
      have hx : Eps code q x := by rw [Eps, hsucc]; simp
      refine ⟨fun q' h' => ?_, fun hl => absurd hl (by rw [isLeaf_of_mem_successors hx]; simp)⟩
      rw [Eps, hsucc, List.mem_cons, List.mem_singleton] at h'
      rcases h' with rfl | rfl
      · exact h₂.subset h₁.entered
      · exact h₂.entered
    · by_cases hmid : q ∈ v₁
      · obtain ⟨hmove, hleaf⟩ := h₁.closed q hmid fun hcon =>
          (Finset.mem_insert.mp hcon).elim hqpc hq'
        refine ⟨fun q' h' => h₂.subset (hmove q' h'), fun hl => ?_⟩
        obtain ⟨t, ht, htq⟩ := hleaf hl
        exact ⟨t, List.mem_append_left _ ht, htq⟩
      · obtain ⟨hmove, hleaf⟩ := h₂.closed q hq hmid
        refine ⟨hmove, fun hl => ?_⟩
        obtain ⟨t, ht, htq⟩ := hleaf hl
        exact ⟨t, List.mem_append_right _ ht, htq⟩
  reached t ht := by
    rcases List.mem_append.mp ht with ht | ht
    · exact ⟨(h₁.reached t ht).1, .head (by rw [Eps, hsucc]; simp) (h₁.reached t ht).2⟩
    · exact ⟨(h₂.reached t ht).1, .head (by rw [Eps, hsucc]; simp) (h₂.reached t ht).2⟩

end Explored

/-- **The closure of an address is complete and sound.** -/
theorem explored_explore {size : ℕ} (hsize : Within code size) (pos : ℕ) {fuel : ℕ} (pc : ℕ)
    (saves : Saves) {v : Finset ℕ} (hfuel : unvisited size v < fuel) :
    Explored code pc v (explore code pos fuel pc saves v).1
      (explore code pos fuel pc saves v).2 := by
  induction fuel generalizing pc saves v with
  | zero => omega
  | succ fuel ih =>
    rw [explore]
    split_ifs with hv
    · exact ⟨Finset.Subset.refl _, hv, fun q hq hq' => absurd hq hq', by simp⟩
    have hless : code pc ≠ .reject → unvisited size (insert pc v) < fuel := fun hne => by
      have := unvisited_insert (hsize.lt_of_ne hne) hv
      omega
    rcases hcode : code pc with p | ⟨x, y⟩ | x | i | _ | _
    case symbol | accept =>
      exact .stop (by rw [hcode]; rfl) (fun _ => ⟨_, List.mem_singleton_self _, rfl⟩)
        fun t ht => by rw [List.mem_singleton.mp ht, hcode]; exact ⟨rfl, rfl⟩
    case reject =>
      exact .stop (by rw [hcode]; rfl) (by rw [hcode]; simp [Instr.isLeaf]) (by simp)
    case split =>
      have h₁ := ih x saves (hless (by rw [hcode]; simp))
      exact .pair (by rw [hcode]; rfl) h₁
        (ih y saves (lt_of_le_of_lt (unvisited_anti h₁.subset) (hless (by rw [hcode]; simp))))
    case jump => exact .single (by rw [hcode]; rfl) (ih x saves (hless (by rw [hcode]; simp)))
    case save => exact .single (by rw [hcode]; rfl) (ih (pc + 1) _ (hless (by rw [hcode]; simp)))

/-! ### The verdict -/

/-- **A path of `k` moves through the program that accepts the input.** -/
inductive AcceptsIn (code : ℕ → Instr α) : ℕ → ℕ → List α → Prop
  | accept {pc : ℕ} (h : code pc = .accept) : AcceptsIn code 0 pc []
  | move {k pc q : ℕ} {w : List α} (h : Eps code pc q) (hq : AcceptsIn code k q w) :
      AcceptsIn code (k + 1) pc w
  | take {k pc : ℕ} {c : α} {w : List α} {p : α → Bool} (h : code pc = .symbol p)
      (hc : p c = true) (hq : AcceptsIn code k (pc + 1) w) : AcceptsIn code (k + 1) pc (c :: w)

/-- Some path from `pc` accepts the input. -/
def Accepts (code : ℕ → Instr α) (pc : ℕ) (w : List α) : Prop := ∃ k, AcceptsIn code k pc w

theorem Accepts.move {pc q : ℕ} {w : List α} (h : Eps code pc q) (hq : Accepts code q w) :
    Accepts code pc w :=
  hq.imp' (· + 1) fun _ hk => .move h hk

theorem Accepts.of_reach {pc q : ℕ} {w : List α} (h : Relation.ReflTransGen (Eps code) pc q)
    (hq : Accepts code q w) : Accepts code pc w := by
  induction h using Relation.ReflTransGen.head_induction_on with
  | refl => exact hq
  | head hmove _ ih => exact .move hmove ih

/-- The addresses `v` are closed under moves, and the threads `l` wait at all of
them that are to be waited at. -/
def Saturated (code : ℕ → Instr α) (v : Finset ℕ) (l : List Thread) : Prop :=
  ∀ q ∈ v, (∀ q', Eps code q q' → q' ∈ v) ∧ ((code q).isLeaf = true → ∃ t ∈ l, t.pc = q)

theorem Saturated.explored {pc : ℕ} {v v' : Finset ℕ} {l l' : List Thread}
    (h : Saturated code v l) (he : Explored code pc v l' v') : Saturated code v' (l ++ l') := by
  intro q hq
  by_cases hqv : q ∈ v
  · refine ⟨fun q' hq' => he.subset ((h q hqv).1 q' hq'), fun hl => ?_⟩
    obtain ⟨t, ht, htq⟩ := (h q hqv).2 hl
    exact ⟨t, List.mem_append_left _ ht, htq⟩
  · refine ⟨(he.closed q hq hqv).1, fun hl => ?_⟩
    obtain ⟨t, ht, htq⟩ := (he.closed q hq hqv).2 hl
    exact ⟨t, List.mem_append_right _ ht, htq⟩

/-- A path from an entered address goes through one of the threads. -/
theorem Saturated.exists_thread {v : Finset ℕ} {l : List Thread} (h : Saturated code v l) {k q : ℕ}
    {w : List α} (hq : q ∈ v) (hk : AcceptsIn code k q w) : ∃ t ∈ l, Accepts code t.pc w := by
  induction hk with
  | accept hcode =>
    obtain ⟨t, ht, rfl⟩ := (h _ hq).2 (by rw [hcode]; rfl)
    exact ⟨t, ht, 0, .accept hcode⟩
  | move hmove _ ih => exact ih ((h _ hq).1 _ hmove)
  | take hcode hc hrest =>
    obtain ⟨t, ht, rfl⟩ := (h _ hq).2 (by rw [hcode]; rfl)
    exact ⟨t, ht, _, .take hcode hc hrest⟩

/-- One more symbol: the closure stays saturated, holds what every thread leads
to, and nothing else. -/
theorem advance_spec {size : ℕ} (hsize : Within code size) (pos : ℕ) (c : α) (ts : List Thread)
    {v : Finset ℕ} {l : List Thread} (hv : Saturated code v l) :
    v ⊆ (advance code (size + 1) pos c ts v).2 ∧
      Saturated code (advance code (size + 1) pos c ts v).2
        (l ++ (advance code (size + 1) pos c ts v).1) ∧
      (∀ t ∈ ts, ∀ p, code t.pc = .symbol p → p c = true →
        t.pc + 1 ∈ (advance code (size + 1) pos c ts v).2) ∧
      ∀ t' ∈ (advance code (size + 1) pos c ts v).1, (code t'.pc).isLeaf = true ∧
        ∃ t ∈ ts, ∃ p, code t.pc = .symbol p ∧ p c = true ∧
          Relation.ReflTransGen (Eps code) (t.pc + 1) t'.pc := by
  have hfull : ∀ v, unvisited size v < size + 1 := fun v => by
    have := Finset.card_le_card (Finset.sdiff_subset (s := Finset.range size) (t := v))
    rw [Finset.card_range] at this
    exact Nat.lt_succ_of_le this
  induction ts generalizing v l with
  | nil => exact ⟨Finset.Subset.refl _, by simpa [advance] using hv, by simp, by simp [advance]⟩
  | cons t ts ih =>
    have hskip : (∀ p, code t.pc = .symbol p → p c = false) →
        advance code (size + 1) pos c (t :: ts) v = advance code (size + 1) pos c ts v := by
      intro h
      rw [advance]
      rcases hcode : code t.pc with p | ⟨x, y⟩ | x | i | _ | _ <;> try rfl
      simp [h p hcode]
    by_cases htake : ∃ p, code t.pc = .symbol p ∧ p c = true
    · obtain ⟨p, hcode, hc⟩ := htake
      have he := explored_explore hsize (pos + 1) (t.pc + 1) t.saves (hfull v)
      obtain ⟨hsub, hsat, hin, hout⟩ := ih (hv.explored he)
      simp only [advance, hcode, hc, if_true]
      refine ⟨he.subset.trans hsub, ?_, fun t' ht' p' hp' hc' => ?_, fun t' ht' => ?_⟩
      · rw [← List.append_assoc]
        exact hsat
      · rcases List.mem_cons.mp ht' with rfl | ht'
        · exact hsub he.entered
        · exact hin t' ht' p' hp' hc'
      · rcases List.mem_append.mp ht' with ht' | ht'
        · exact ⟨(he.reached t' ht').1, t, List.mem_cons_self, p, hcode, hc, (he.reached t' ht').2⟩
        · obtain ⟨hl, t'', ht'', hrest⟩ := hout t' ht'
          exact ⟨hl, t'', List.mem_cons_of_mem _ ht'', hrest⟩
    · rw [hskip fun p hp => by_contra fun hcon => htake ⟨p, hp, by simpa using hcon⟩]
      obtain ⟨hsub, hsat, hin, hout⟩ := ih hv
      refine ⟨hsub, hsat, fun t' ht' p' hp' hc' => ?_, fun t' ht' => ?_⟩
      · rcases List.mem_cons.mp ht' with rfl | ht'
        · exact absurd ⟨p', hp', hc'⟩ htake
        · exact hin t' ht' p' hp' hc'
      · obtain ⟨hl, t'', ht'', hrest⟩ := hout t' ht'
        exact ⟨hl, t'', List.mem_cons_of_mem _ ht'', hrest⟩

theorem saturated_empty : Saturated code ∅ [] := fun q hq => absurd hq (by simp)

/-- Where a leaf stands decides how a path from it starts. -/
theorem accepts_leaf_cons {pc : ℕ} {c : α} {w : List α} (hl : (code pc).isLeaf = true) :
    Accepts code pc (c :: w) ↔
      ∃ p, code pc = .symbol p ∧ p c = true ∧ Accepts code (pc + 1) w := by
  constructor
  · rintro ⟨_, _ | hmove | ⟨hcode, hc, hrest⟩⟩
    · exact absurd (isLeaf_of_mem_successors hmove) (by rw [hl]; simp)
    · exact ⟨_, hcode, hc, _, hrest⟩
  · rintro ⟨p, hcode, hc, k, hrest⟩
    exact ⟨k + 1, .take hcode hc hrest⟩

theorem accepts_leaf_nil {t : Thread} (hl : (code t.pc).isLeaf = true) :
    Accepts code t.pc [] ↔ t.done code = true := by
  rw [Thread.done]
  constructor
  · rintro ⟨_, hcode | hmove | _⟩
    · rw [hcode]
    · exact absurd (isLeaf_of_mem_successors hmove) (by rw [hl]; simp)
  · intro h
    rcases hcode : code t.pc with p | ⟨x, y⟩ | x | i | _ | _ <;>
      first | exact ⟨0, .accept hcode⟩ | exact absurd h (by rw [hcode]; simp)

/-- **A run succeeds exactly when a path from one of its threads does.** -/
theorem run_isSome_iff {size : ℕ} (hsize : Within code size) {pos : ℕ} {ts : List Thread}
    {w : List α} (hts : ∀ t ∈ ts, (code t.pc).isLeaf = true) :
    (run code (size + 1) pos ts w).isSome = true ↔ ∃ t ∈ ts, Accepts code t.pc w := by
  induction w generalizing pos ts with
  | nil =>
    rw [run, Option.isSome_map, List.find?_isSome]
    refine exists_congr fun t => and_congr_right fun ht => ?_
    exact (accepts_leaf_nil (hts t ht)).symm
  | cons c w ih =>
    obtain ⟨-, hsat, hin, hout⟩ := advance_spec hsize pos c ts (show Saturated code ∅ [] from saturated_empty)
    rw [List.nil_append] at hsat
    rw [run, ih fun t ht => (hout t ht).1]
    constructor
    · rintro ⟨t', ht', hacc⟩
      obtain ⟨-, t, ht, p, hcode, hc, hreach⟩ := hout t' ht'
      exact ⟨t, ht, (accepts_leaf_cons (hts t ht)).mpr ⟨p, hcode, hc, hacc.of_reach hreach⟩⟩
    · rintro ⟨t, ht, hacc⟩
      obtain ⟨p, hcode, hc, k, hrest⟩ := (accepts_leaf_cons (hts t ht)).mp hacc
      exact hsat.exists_thread (hin t ht p hcode hc) hrest

theorem unvisited_empty_lt (size : ℕ) : unvisited size ∅ < size + 1 := by
  rw [unvisited, Finset.sdiff_empty, Finset.card_range]
  exact Nat.lt_succ_self size

/-- **The lockstep run decides acceptance**, whatever loops the program has. -/
theorem search_isSome_iff {size : ℕ} (hsize : Within code size) {w : List α} :
    (search code size w).isSome = true ↔ Accepts code 0 w := by
  have he := explored_explore hsize 0 0 [] (unvisited_empty_lt size)
  rw [search, run_isSome_iff hsize fun t ht => (he.reached t ht).1]
  constructor
  · rintro ⟨t, ht, hacc⟩
    exact hacc.of_reach (he.reached t ht).2
  · rintro ⟨k, hk⟩
    have hsat := saturated_empty.explored he
    rw [List.nil_append] at hsat
    exact hsat.exists_thread he.entered hk

/-! ### The first success -/

/-- **The backtracking search through the program ends**, from `pc` at position
`pos` with `w` to go: with what the first accepting path notes, or with none. -/
inductive Yields (code : ℕ → Instr α) : ℕ → ℕ → List α → Option Saves → Prop
  | jump {pc x pos : ℕ} {w : List α} {r : Option Saves} (h : code pc = .jump x)
      (hx : Yields code x pos w r) : Yields code pc pos w r
  | split {pc x y pos : ℕ} {w : List α} {r r' : Option Saves} (h : code pc = .split x y)
      (hx : Yields code x pos w r) (hy : Yields code y pos w r') :
      Yields code pc pos w (r.or r')
  | save {pc i pos : ℕ} {w : List α} {r : Option Saves} (h : code pc = .save i)
      (hq : Yields code (pc + 1) pos w r) : Yields code pc pos w (r.map ((i, pos) :: ·))
  | take {pc pos : ℕ} {c : α} {w : List α} {p : α → Bool} {r : Option Saves}
      (h : code pc = .symbol p) (hc : p c = true) (hq : Yields code (pc + 1) (pos + 1) w r) :
      Yields code pc pos (c :: w) r
  | miss {pc pos : ℕ} {c : α} {w : List α} {p : α → Bool} (h : code pc = .symbol p)
      (hc : p c = false) : Yields code pc pos (c :: w) none
  | short {pc pos : ℕ} {p : α → Bool} (h : code pc = .symbol p) : Yields code pc pos [] none
  | accept {pc pos : ℕ} (h : code pc = .accept) : Yields code pc pos [] (some [])
  | early {pc pos : ℕ} {c : α} {w : List α} (h : code pc = .accept) :
      Yields code pc pos (c :: w) none
  | reject {pc pos : ℕ} {w : List α} (h : code pc = .reject) : Yields code pc pos w none

/-- The search through the program has one result. -/
theorem Yields.unique {pc pos : ℕ} {w : List α} {r r' : Option Saves} (h : Yields code pc pos w r)
    (h' : Yields code pc pos w r') : r = r' := by
  induction h generalizing r' with
  | jump hcode _ ih =>
    cases h' <;> simp_all
    exact ih ‹_›
  | split hcode _ _ ihx ihy =>
    cases h' <;> simp_all
    congr 1
    · exact ihx ‹_›
    · exact ihy ‹_›
  | save hcode _ ih =>
    cases h' <;> simp_all
    congr 1
    exact ih ‹_›
  | take hcode hc _ ih =>
    cases h' <;> simp_all
    exact ih ‹_›
  | miss hcode hc => cases h' <;> simp_all
  | short hcode => cases h' <;> simp_all
  | accept hcode => cases h' <;> simp_all
  | early hcode => cases h' <;> simp_all
  | reject hcode => cases h' <;> simp_all

/-- **A search that ends goes round no loop without taking a symbol.** -/
theorem Yields.acyclic {pc pos : ℕ} {w : List α} {r : Option Saves} (h : Yields code pc pos w r) :
    ¬Relation.TransGen (Eps code) pc pc := by
  -- a loop through `pc` is a loop through the address it moves to
  have hturn : ∀ {pc : ℕ}, Relation.TransGen (Eps code) pc pc →
      ∃ q, Eps code pc q ∧ Relation.TransGen (Eps code) q q := by
    intro pc hloop
    obtain ⟨q, hmove, hback⟩ := Relation.TransGen.head'_iff.mp hloop
    exact ⟨q, hmove, Relation.TransGen.tail' hback hmove⟩
  induction h with
  | jump hcode _ ih =>
    intro hloop
    obtain ⟨q, hmove, hq⟩ := hturn hloop
    rw [Eps, hcode] at hmove
    exact ih (List.mem_singleton.mp hmove ▸ hq)
  | split hcode _ _ ihx ihy =>
    intro hloop
    obtain ⟨q, hmove, hq⟩ := hturn hloop
    rw [Eps, hcode] at hmove
    rcases List.mem_pair.mp hmove with rfl | rfl
    · exact ihx hq
    · exact ihy hq
  | save hcode _ ih =>
    intro hloop
    obtain ⟨q, hmove, hq⟩ := hturn hloop
    rw [Eps, hcode] at hmove
    exact ih (List.mem_singleton.mp hmove ▸ hq)
  | take hcode | miss hcode | short hcode | accept hcode | early hcode | reject hcode =>
    intro hloop
    obtain ⟨q, hmove, -⟩ := hturn hloop
    rw [Eps, hcode] at hmove
    exact absurd hmove (by simp [Instr.successors])

section First

variable {V : ℕ → ℕ → List α → Option Saves} (hV : ∀ pc pos w, Yields code pc pos w (V pc pos w))

/-- The first success among threads in order of priority. -/
def best (V : ℕ → ℕ → List α → Option Saves) (pos : ℕ) (w : List α) (ts : List Thread) :
    Option Saves :=
  ts.findSome? fun t => (V t.pc pos w).map (t.saves ++ ·)

theorem best_append (pos : ℕ) (w : List α) (ts us : List Thread) :
    best V pos w (ts ++ us) = (best V pos w ts).or (best V pos w us) :=
  List.findSome?_append

theorem best_singleton (pos : ℕ) (w : List α) (pc : ℕ) (saves : Saves) :
    best V pos w [⟨pc, saves⟩] = (V pc pos w).map (saves ++ ·) := by
  simp only [best, List.findSome?_cons, List.findSome?_nil]
  cases V pc pos w <;> rfl

/-- What has a success behind an address entered has one among the threads. -/
def Resolved (V : ℕ → ℕ → List α → Option Saves) (pos : ℕ) (w : List α) (ts : List Thread)
    (q : ℕ) : Prop := (V q pos w).isSome = true → (best V pos w ts).isSome = true

theorem Resolved.append {pos : ℕ} {w : List α} {ts : List Thread} {q : ℕ}
    (h : Resolved V pos w ts q) (us : List Thread) : Resolved V pos w (ts ++ us) q := by
  intro hq
  rw [best_append, Option.isSome_or, h hq, Bool.true_or]

include hV

/-- **One closure keeps the first success**: the threads of an address come after
those there are, and stand for all that lies behind it. -/
theorem best_explore {size : ℕ} (hsize : Within code size) (pos : ℕ) (w : List α) {fuel : ℕ}
    (pc : ℕ) (saves : Saves) {v : Finset ℕ} {l : List Thread} (hfuel : unvisited size v < fuel)
    (hv : ∀ q ∈ v, Relation.ReflTransGen (Eps code) pc q → Resolved V pos w l q) :
    best V pos w (l ++ (explore code pos fuel pc saves v).1) =
        (best V pos w l).or ((V pc pos w).map (saves ++ ·)) ∧
      ∀ q ∈ (explore code pos fuel pc saves v).2, q ∉ v →
        Resolved V pos w (l ++ (explore code pos fuel pc saves v).1) q := by
  induction fuel generalizing pc saves v l with
  | zero => omega
  | succ fuel ih =>
    rw [explore]
    split_ifs with hpc
    · refine ⟨?_, fun q hq hq' => absurd hq hq'⟩
      rw [List.append_nil]
      rcases hval : V pc pos w with _ | r
      · rw [Option.map_none, Option.or_none]
      · obtain ⟨b, hb⟩ := Option.isSome_iff_exists.mp (hv pc hpc .refl (by rw [hval]; rfl))
        rw [hb]
        rfl
    have hless : code pc ≠ .reject → unvisited size (insert pc v) < fuel := fun hne => by
      have := unvisited_insert (hsize.lt_of_ne hne) hpc
      omega
    -- no move leads back to `pc`, which is entered but not done
    have hsub : ∀ {q ts'}, Eps code pc q → (∀ r ∈ v, Resolved V pos w l r → Resolved V pos w ts' r) →
        ∀ r ∈ insert pc v, Relation.ReflTransGen (Eps code) q r → Resolved V pos w ts' r := by
      intro q ts' hmove hmono r hr hreach
      rcases Finset.mem_insert.mp hr with rfl | hr
      · exact absurd (.head' hmove hreach) (hV r pos w).acyclic
      · exact hmono r hr (hv r hr (.head hmove hreach))
    -- an address entered is `pc` itself or entered later
    have hself : ∀ {ts' : List Thread} {v' : Finset ℕ},
        best V pos w ts' = (best V pos w l).or ((V pc pos w).map (saves ++ ·)) →
        (∀ q ∈ v', q ∉ insert pc v → Resolved V pos w ts' q) →
        ∀ q ∈ v', q ∉ v → Resolved V pos w ts' q := by
      intro ts' v' hbest hlater q hq hqv
      by_cases hqpc : q = pc
      · subst hqpc
        intro hsome
        rw [hbest, Option.isSome_or, Option.isSome_map, hsome, Bool.or_true]
      · exact hlater q hq fun hcon => (Finset.mem_insert.mp hcon).elim hqpc hqv
    have hleaf : ∀ q ∈ insert pc v, q ∉ insert pc v → Resolved V pos w (l ++ [⟨pc, saves⟩]) q :=
      fun q hq hq' => absurd hq hq'
    rcases hcode : code pc with p | ⟨x, y⟩ | x | i | _ | _
    case symbol | accept =>
      have hbest : best V pos w (l ++ [⟨pc, saves⟩]) =
          (best V pos w l).or ((V pc pos w).map (saves ++ ·)) := by
        rw [best_append, best_singleton]
      exact ⟨hbest, hself hbest hleaf⟩
    case reject =>
      have hval : V pc pos w = none := (hV pc pos w).unique (.reject hcode)
      have hbest : best V pos w (l ++ []) =
          (best V pos w l).or ((V pc pos w).map (saves ++ ·)) := by
        rw [hval, List.append_nil, Option.map_none, Option.or_none]
      exact ⟨hbest, hself hbest fun q hq hq' => absurd hq hq'⟩
    case jump =>
      have hval : V pc pos w = V x pos w := (hV pc pos w).unique (.jump hcode (hV x pos w))
      obtain ⟨hbest, hlater⟩ := ih x saves (hless (by rw [hcode]; simp))
        (hsub (by simp [Eps, hcode, Instr.successors]) fun _ _ h => h)
      rw [← hval] at hbest
      exact ⟨hbest, hself hbest hlater⟩
    case save =>
      have hval : V pc pos w = (V (pc + 1) pos w).map ((i, pos) :: ·) :=
        (hV pc pos w).unique (.save hcode (hV (pc + 1) pos w))
      obtain ⟨hbest, hlater⟩ := ih (pc + 1) (saves ++ [(i, pos)]) (hless (by rw [hcode]; simp))
        (hsub (by simp [Eps, hcode, Instr.successors]) fun _ _ h => h)
      have hbest' : best V pos w
          (l ++ (explore code pos fuel (pc + 1) (saves ++ [(i, pos)]) (insert pc v)).1) =
          (best V pos w l).or ((V pc pos w).map (saves ++ ·)) := by
        rw [hbest, hval, Option.map_map]
        congr 2
        funext r
        simp
      exact ⟨hbest', hself hbest' hlater⟩
    case split =>
      have hval : V pc pos w = (V x pos w).or (V y pos w) :=
        (hV pc pos w).unique (.split hcode (hV x pos w) (hV y pos w))
      have h₁ := explored_explore hsize pos x saves (hless (by rw [hcode]; simp))
      obtain ⟨hbest₁, hlater₁⟩ := ih x saves (hless (by rw [hcode]; simp))
        (hsub (by simp [Eps, hcode, Instr.successors]) fun _ _ h => h)
      have hsub₂ : ∀ r ∈ (explore code pos fuel x saves (insert pc v)).2,
          Relation.ReflTransGen (Eps code) y r →
          Resolved V pos w (l ++ (explore code pos fuel x saves (insert pc v)).1) r := by
        intro r hr hreach
        by_cases hr' : r ∈ insert pc v
        · exact hsub (by simp [Eps, hcode, Instr.successors]) (fun _ _ h => h.append _) r hr' hreach
        · exact hlater₁ r hr hr'
      obtain ⟨hbest₂, hlater₂⟩ := ih y saves
        (lt_of_le_of_lt (unvisited_anti h₁.subset) (hless (by rw [hcode]; simp))) hsub₂
      have hbest : best V pos w (l ++ ((explore code pos fuel x saves (insert pc v)).1 ++
          (explore code pos fuel y saves (explore code pos fuel x saves (insert pc v)).2).1)) =
          (best V pos w l).or ((V pc pos w).map (saves ++ ·)) := by
        rw [← List.append_assoc, hbest₂, hbest₁, hval, Option.or_assoc]
        congr 1
        cases V x pos w <;> rfl
      refine ⟨hbest, hself hbest fun q hq hq' => ?_⟩
      rw [← List.append_assoc]
      by_cases hmid : q ∈ (explore code pos fuel x saves (insert pc v)).2
      · exact (hlater₁ q hmid hq').append _
      · exact hlater₂ q hq hmid

/-- **One more symbol keeps the first success.** -/
theorem best_advance {size : ℕ} (hsize : Within code size) (pos : ℕ) (c : α) (w : List α)
    (ts : List Thread) (hts : ∀ t ∈ ts, (code t.pc).isLeaf = true) {v : Finset ℕ}
    {l : List Thread} (hv : ∀ q ∈ v, Resolved V (pos + 1) w l q) :
    best V (pos + 1) w (l ++ (advance code (size + 1) pos c ts v).1) =
      (best V (pos + 1) w l).or (best V pos (c :: w) ts) := by
  induction ts generalizing v l with
  | nil => rw [advance, List.append_nil, best, best, List.findSome?_nil, Option.or_none]
  | cons t ts ih =>
    have hbest : best V pos (c :: w) (t :: ts) =
        ((V t.pc pos (c :: w)).map (t.saves ++ ·)).or (best V pos (c :: w) ts) :=
      best_append pos (c :: w) [t] ts ▸ best_singleton pos (c :: w) t.pc t.saves ▸ rfl
    have hskip : V t.pc pos (c :: w) = none →
        advance code (size + 1) pos c (t :: ts) v = advance code (size + 1) pos c ts v →
        best V (pos + 1) w (l ++ (advance code (size + 1) pos c (t :: ts) v).1) =
          (best V (pos + 1) w l).or (best V pos (c :: w) (t :: ts)) := by
      intro hval hadv
      rw [hadv, ih (fun t' ht' => hts t' (List.mem_cons_of_mem _ ht')) hv, hbest, hval]
      rfl
    have hleaf := hts t List.mem_cons_self
    rcases hcode : code t.pc with p | ⟨x, y⟩ | x | i | _ | _
    case split | jump | save | reject => exact absurd hleaf (by rw [hcode]; simp [Instr.isLeaf])
    case accept =>
      exact hskip ((hV _ _ _).unique (.early hcode)) (by simp only [advance, hcode])
    case symbol =>
      by_cases hc : p c = true
      · have hval : V t.pc pos (c :: w) = V (t.pc + 1) (pos + 1) w :=
          (hV _ _ _).unique (.take hcode hc (hV _ _ _))
        have hfuel := unvisited_empty_lt size
        have hfuel' := show unvisited size v ≤ unvisited size ∅ from unvisited_anti (Finset.empty_subset v)
        obtain ⟨hfirst, hlater⟩ := best_explore hV hsize (pos + 1) w (t.pc + 1) t.saves
          (v := v) (l := l) (show unvisited size v < size + 1 by omega) fun q hq _ => hv q hq
        have hrest := ih (fun t' ht' => hts t' (List.mem_cons_of_mem _ ht'))
          (v := (explore code (pos + 1) (size + 1) (t.pc + 1) t.saves v).2)
          (l := l ++ (explore code (pos + 1) (size + 1) (t.pc + 1) t.saves v).1)
          fun q hq => by
            by_cases hqv : q ∈ v
            · exact (hv q hqv).append _
            · exact hlater q hq hqv
        simp only [advance, hcode, hc, if_true]
        rw [← List.append_assoc, hrest, hfirst, hbest, hval, Option.or_assoc]
      · exact hskip ((hV _ _ _).unique (.miss hcode (by simpa using hc)))
          (by simp only [advance, hcode, hc]; rfl)

/-- **A run finds the first success among its threads.** -/
theorem run_eq_best {size : ℕ} (hsize : Within code size) {pos : ℕ} {ts : List Thread} {w : List α}
    (hts : ∀ t ∈ ts, (code t.pc).isLeaf = true) : run code (size + 1) pos ts w = best V pos w ts := by
  induction w generalizing pos ts with
  | nil =>
    induction ts with
    | nil => rfl
    | cons t ts ih =>
      have ih := ih fun t' ht' => hts t' (List.mem_cons_of_mem _ ht')
      have hleaf := hts t List.mem_cons_self
      rw [run, best, List.findSome?_cons]
      rw [run, best] at ih
      rcases hcode : code t.pc with p | ⟨x, y⟩ | x | i | _ | _
      case split | jump | save | reject => exact absurd hleaf (by rw [hcode]; simp [Instr.isLeaf])
      case symbol =>
        rw [List.find?_cons_of_neg (by simp [Thread.done, hcode]), ih,
          (hV t.pc pos []).unique (.short hcode)]
        rfl
      case accept =>
        rw [List.find?_cons_of_pos (by simp [Thread.done, hcode]),
          (hV t.pc pos []).unique (.accept hcode)]
        simp
  | cons c w ih =>
    have hadv := best_advance hV hsize pos c w ts hts (v := ∅) (l := []) (by simp)
    obtain ⟨-, -, -, hout⟩ := advance_spec hsize pos c ts (show Saturated code ∅ [] from saturated_empty)
    rw [run, ih fun t ht => (hout t ht).1]
    simpa [best] using hadv

/-- **The lockstep run finds what the backtracking search finds first.** -/
theorem search_eq {size : ℕ} (hsize : Within code size) (w : List α) :
    search code size w = V 0 0 w := by
  have he := explored_explore hsize 0 0 [] (unvisited_empty_lt size)
  obtain ⟨hbest, -⟩ := best_explore hV hsize 0 w 0 [] (v := ∅) (l := []) (unvisited_empty_lt size)
    (by simp)
  rw [search, run_eq_best hV hsize fun t ht => (he.reached t ht).1]
  simpa [best] using hbest

end First

end Machine

end FtIrc
