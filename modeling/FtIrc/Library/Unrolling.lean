import FtIrc.Library.Fragments
import FtIrc.Library.Pattern
import Mathlib.Algebra.BigOperators.Group.List.Basic

/-!
# Patterns written out

A repetition can be written out: the copies that must match one behind the other, and then those that
may match, or a loop where there is no limit to them; and a choice of single symbols is a single symbol
of a larger class (`FtIrc.Pattern.Unrolls`). The copies may name their captures apart.

What is written out takes the same texts (`FtIrc.Pattern.Unrolls.language_eq`). That it also finds the
same first needs more of a repetition: no iteration may stop it early, as one does that matches nothing
(`FtIrc.Pattern.Unrolls.eval_eq`).
-/

namespace FtIrc

namespace Pattern

open scoped Computability

variable {α S K L C : Type}

/-! ### The language of a pattern -/

/-- **The texts that a pattern takes.** -/
def language (mem : S → α → Bool) : Pattern S K → Language α
  | empty => 1
  | never => 0
  | symbol s => {w | ∃ c, mem s c = true ∧ w = [c]}
  | seq a b => a.language mem * b.language mem
  | alt a b => a.language mem + b.language mem
  | rep least most a => {w | ∃ n, least ≤ n ∧ (∀ m ∈ most, n ≤ m) ∧ w ∈ a.language mem ^ n}
  | capture _ a => a.language mem

variable {mem : S → α → Bool} {f : L → K} {a b : Pattern S K} {q : Pattern S L} {w : List α}

theorem mem_language_rep {least : ℕ} {most : Option ℕ} :
    w ∈ (rep least most a).language mem ↔ ∃ n, least ≤ n ∧ (∀ m ∈ most, n ≤ m) ∧ w ∈ a.language mem ^ n := Iff.rfl

theorem language_seqs (ps : List (Pattern S K)) : (seqs ps).language mem = (ps.map (language mem)).prod := by
  induction ps with
  | nil => rfl
  | cons p ps ih => rw [seqs, language, ih, List.map_cons, List.prod_cons]

theorem mem_language_alts {ps : List (Pattern S K)} : w ∈ (alts ps).language mem ↔ ∃ p ∈ ps, w ∈ p.language mem := by
  induction ps with
  | nil => exact ⟨fun h => absurd h (Language.notMem_zero w), fun h => by simp at h⟩
  | cons p ps ih =>
    rw [List.exists_mem_cons_iff]
    rcases ps with _ | ⟨q, ps⟩
    · simp [alts]
    · rw [alts, language, Language.mem_add, ih]

/-- Copies that take the same texts. -/
theorem language_copies {ps : List (Pattern S K)} {M : Language α} (h : ∀ p ∈ ps, p.language mem = M) :
    (seqs ps).language mem = M ^ ps.length := by
  rw [language_seqs, List.map_congr_left h, List.map_const', List.prod_replicate]

theorem language_optionals {ps : List (Pattern S K)} {M : Language α} (h : ∀ p ∈ ps, p.language mem = M) :
    (optionals ps).language mem = Machine.upTo M ps.length := by
  induction ps with
  | nil => rfl
  | cons p ps ih =>
    rw [List.length_cons, Machine.upTo, ← ih fun q hq => h q (List.mem_cons_of_mem p hq), ← h p List.mem_cons_self]
    rfl

/-- A loop takes any number of texts of its body. -/
theorem language_loop : (rep 0 none a).language mem = (a.language mem)∗ := by
  ext w
  rw [mem_language_rep, Language.kstar_eq_iSup_pow, Language.mem_iSup]
  simp

/-- A choice of single symbols takes a text of one symbol. -/
theorem mem_language_of_isSymbol (h : a.isSymbol = true) : w ∈ a.language mem ↔ ∃ c, a.accepts mem c = true ∧ w = [c] := by
  induction a with
  | symbol s => rfl
  | alt a b iha ihb =>
    rw [isSymbol, Bool.and_eq_true] at h
    rw [language, Language.mem_add, iha h.1, ihb h.2, ← exists_or]
    simp only [accepts, Bool.or_eq_true, or_and_right]
  | empty | never | seq a b | rep l m a | capture k a => exact absurd h (by simp [isSymbol])

/-! ### What is written out -/

/-- **A pattern is written out as another one.** -/
inductive Unrolls (mem : S → α → Bool) (f : L → K) : Pattern S K → Pattern S L → Prop
  | empty : Unrolls mem f empty empty
  | symbol (s : S) : Unrolls mem f (symbol s) (symbol s)
  /-- A choice of single symbols is a symbol of a larger class. -/
  | choice {a : Pattern S K} {s : S} : a.isSymbol = true → (∀ c, mem s c = a.accepts mem c) → Unrolls mem f a (.symbol s)
  | seq {a b : Pattern S K} {p q : Pattern S L} : Unrolls mem f a p → Unrolls mem f b q → Unrolls mem f (.seq a b) (.seq p q)
  | alt {a b : Pattern S K} {p q : Pattern S L} : Unrolls mem f a p → Unrolls mem f b q → Unrolls mem f (.alt a b) (.alt p q)
  | capture {l : L} {a : Pattern S K} {q : Pattern S L} : Unrolls mem f a q → Unrolls mem f (.capture (f l) a) (.capture l q)
  /-- A repetition with a limit. -/
  | bounded {least most : ℕ} {a : Pattern S K} {ps qs : List (Pattern S L)} : least ≤ most → ps.length = least →
      qs.length = most - least → (∀ p ∈ ps, Unrolls mem f a p) → (∀ q ∈ qs, Unrolls mem f a q) →
      Unrolls mem f (.rep least (some most) a) (.seq (seqs ps) (optionals qs))
  /-- A repetition without one, of what captures nothing. -/
  | unlimited {least : ℕ} {a : Pattern S K} {ps : List (Pattern S L)} {q : Pattern S L} : a.labels = [] →
      ps.length = least → (∀ p ∈ ps, Unrolls mem f a p) → Unrolls mem f a q →
      Unrolls mem f (.rep least none a) (.seq (seqs ps) (.rep 0 none q))

/-- **What is written out takes the same texts.** -/
theorem Unrolls.language_eq (h : Unrolls mem f a q) : q.language mem = a.language mem := by
  induction h with
  | empty => rfl
  | symbol s => rfl
  | choice hsymbol hs =>
    ext w
    refine Iff.trans (exists_congr fun c => ?_) (mem_language_of_isSymbol hsymbol).symm
    rw [hs]
  | seq _ _ iha ihb => rw [language, language, iha, ihb]
  | alt _ _ iha ihb => rw [language, language, iha, ihb]
  | capture _ ih => exact ih
  | bounded hle hps hqs _ _ ihps ihqs =>
    ext w
    rw [language, language_copies ihps, language_optionals ihqs, hps, hqs, Machine.mem_pow_mul_upTo, mem_language_rep]
    simp only [Option.mem_some_iff, forall_eq']
    refine exists_congr fun n => ?_
    constructor
    · rintro ⟨hn, hn', hw⟩
      exact ⟨hn, by omega, hw⟩
    · rintro ⟨hn, hn', hw⟩
      exact ⟨hn, by omega, hw⟩
  | unlimited _ hps _ _ ihps ihq =>
    ext w
    rw [language, language_copies ihps, language_loop, ihq, hps, Machine.mem_pow_mul_kstar, mem_language_rep]
    simp

/-! ### Where nothing stops early -/

/-- No iteration of a repetition can stop it early. -/
def AllSteady (p : Pattern S K) : Prop := p.Every fun
  | rep least most a => Steady least most a
  | _ => True

section Turns

variable {N : Notes α K C} {N' : Notes α L C} {least count : ℕ} {most : Option ℕ} {κ : List α → Option C} {ps : List (Pattern S L)}

/-- The copies that must match are the first turns of a repetition. -/
theorem eval_copies (hsteady : Steady least most a) (hmost : ∀ n ∈ most, least ≤ n)
    (hps : ∀ p ∈ ps, p.eval mem N' = a.eval mem N) (hlen : count + ps.length = least) :
    turns mem N a least most κ count w = (seqs ps).eval mem N' (turns mem N a least most κ least) w := by
  induction ps generalizing count w with
  | nil =>
    obtain rfl : count = least := hlen
    rfl
  | cons p ps ih =>
    rw [List.length_cons] at hlen
    have hmore : ∀ n ∈ most, count < n := fun n hn => by
      have := hmost n hn
      omega
    have hnext : turns mem N a least most κ (count + 1) = (seqs ps).eval mem N' (turns mem N a least most κ least) :=
      funext fun w => ih (fun p hp => hps p (List.mem_cons_of_mem _ hp)) (by omega)
    rw [turns_of_steady hsteady, if_pos hmore, if_neg (show ¬ least ≤ count by omega), Option.or_none, hnext,
      ← hps p List.mem_cons_self]
    rfl

/-- The copies that may match are the turns up to the limit. -/
theorem eval_optionals {limit : ℕ} (hsteady : Steady least (some limit) a) (hps : ∀ p ∈ ps, p.eval mem N' = a.eval mem N)
    (hcount : least ≤ count) (hlen : count + ps.length = limit) :
    turns mem N a least (some limit) κ count w = (optionals ps).eval mem N' κ w := by
  induction ps generalizing count w with
  | nil =>
    have hlast : ¬ ∀ n ∈ some limit, count < n := fun h => lt_irrefl _ (hlen ▸ h limit rfl)
    rw [turns_eq, if_neg hlast, if_pos hcount, Option.none_or]
    rfl
  | cons p ps ih =>
    rw [List.length_cons] at hlen
    have hmore : ∀ n ∈ some limit, count < n := by
      rintro n ⟨⟩
      omega
    have hnext : turns mem N a least (some limit) κ (count + 1) = (optionals ps).eval mem N' κ :=
      funext fun w => ih (fun p hp => hps p (List.mem_cons_of_mem _ hp)) (by omega) (by omega)
    rw [turns_of_steady hsteady, if_pos hmore, if_pos hcount, hnext, ← hps p List.mem_cons_self]
    rfl

end Turns

/-- **What is written out finds the same first**, if no iteration stops a repetition early. -/
theorem Unrolls.eval_eq (h : Unrolls mem f a q) (hsteady : a.AllSteady) (N : Notes α K C) :
    q.eval mem (N.comap f) = a.eval mem N := by
  induction h with
  | empty => rfl
  | symbol s =>
    funext κ w
    cases w <;> rfl
  | choice hsymbol hs =>
    funext κ w
    rcases w with _ | ⟨c, w⟩
    · rw [eval_nil_of_isSymbol hsymbol]
      rfl
    · rw [eval_cons_of_isSymbol hsymbol, ← hs]
      rfl
  | seq _ _ iha ihb =>
    funext κ w
    rw [eval, eval, iha hsteady.1, ihb hsteady.2]
  | alt _ _ iha ihb =>
    funext κ w
    rw [eval, eval, iha hsteady.1, ihb hsteady.2]
  | capture _ ih =>
    funext κ w
    rw [eval, eval, ih hsteady.2]
    rfl
  | bounded hle hps hqs _ _ ihps ihqs =>
    funext κ w
    have hmust := eval_copies (κ := κ) (w := w) hsteady.1 (by rintro n ⟨⟩; exact hle)
      (fun p hp => ihps p hp hsteady.2) ((Nat.zero_add _).trans hps)
    have hmay : turns mem N _ _ (some _) κ _ = _ := funext fun w =>
      eval_optionals (κ := κ) (w := w) hsteady.1 (fun p hp => ihqs p hp hsteady.2) le_rfl (by omega)
    rw [hmay] at hmust
    exact hmust.symm
  | @unlimited least a ps q _ hps _ _ ihps ihq =>
    funext κ w
    have hnull : a.nullable = false := by
      rcases hsteady.1 with hnull | ⟨n, hn, -⟩
      · exact hnull
      · cases hn
    have hmust := eval_copies (κ := κ) (w := w) hsteady.1 (by rintro n ⟨⟩)
      (fun p hp => ihps p hp hsteady.2) ((Nat.zero_add _).trans hps)
    have hloop : turns mem N a least none κ least = (rep 0 none q).eval mem (N.comap f) κ := by
      funext w
      rw [turns_unlimited hnull le_rfl (Nat.zero_le 0), eval, ihq hsteady.2]
      rfl
    rw [hloop] at hmust
    exact hmust.symm

/-! ### What else is kept -/

theorem nullable_seqs (ps : List (Pattern S K)) : (seqs ps).nullable = ps.all nullable := by
  induction ps with
  | nil => rfl
  | cons p ps ih => rw [seqs, nullable, ih, List.all_cons]

theorem nullable_optionals (ps : List (Pattern S K)) : (optionals ps).nullable = true := by
  rcases ps with _ | ⟨p, ps⟩
  · rfl
  · rw [optionals, nullable, nullable, Bool.or_true]

theorem nullable_copies {ps : List (Pattern S L)} (h : ∀ p ∈ ps, p.nullable = a.nullable) :
    (seqs ps).nullable = (decide (ps.length = 0) || a.nullable) := by
  rw [nullable_seqs]
  rcases ps with _ | ⟨p, ps⟩
  · rfl
  · have hlen : ¬ (p :: ps).length = 0 := by simp
    rw [decide_eq_false hlen, Bool.false_or]
    cases hnull : a.nullable with
    | true =>
      rw [List.all_eq_true]
      intro q hq
      rw [h q hq, hnull]
    | false =>
      rw [List.all_eq_false]
      exact ⟨p, List.mem_cons_self, by rw [h p List.mem_cons_self, hnull]; exact Bool.false_ne_true⟩

theorem Unrolls.nullable_eq (h : Unrolls mem f a q) : q.nullable = a.nullable := by
  induction h with
  | empty => rfl
  | symbol s => rfl
  | choice hsymbol _ => exact (nullable_of_isSymbol hsymbol).symm
  | seq _ _ iha ihb => rw [nullable, nullable, iha, ihb]
  | alt _ _ iha ihb => rw [nullable, nullable, iha, ihb]
  | capture _ ih => exact ih
  | bounded _ hps _ _ _ ihps _ => rw [nullable, nullable_copies ihps, nullable_optionals, Bool.and_true, hps, nullable]
  | unlimited _ hps _ _ ihps _ => rw [nullable, nullable_copies ihps, nullable, nullable, hps]; simp

/-- Loops are steady, where repetitions were. -/
theorem Unrolls.allSteady (h : Unrolls mem f a q) (hsteady : a.AllSteady) : q.AllSteady := by
  induction h with
  | empty | symbol s => trivial
  | choice _ _ => trivial
  | seq _ _ iha ihb => exact ⟨iha hsteady.1, ihb hsteady.2⟩
  | alt _ _ iha ihb => exact ⟨iha hsteady.1, ihb hsteady.2⟩
  | capture _ ih => exact ⟨trivial, ih hsteady.2⟩
  | bounded _ _ _ _ _ ihps ihqs =>
    exact ⟨every_seqs fun p hp => ihps p hp hsteady.2, every_optionals fun q hq => ihqs q hq hsteady.2⟩
  | unlimited _ _ _ hq ihps ihq =>
    refine ⟨every_seqs fun p hp => ihps p hp hsteady.2, .inl ?_, ihq hsteady.2⟩
    rcases hsteady.1 with hnull | ⟨n, hn, -⟩
    · rw [hq.nullable_eq, hnull]
    · cases hn

/-- No capture is inside of another. -/
def Flat (p : Pattern S K) : Prop := p.Every fun
  | capture _ a => a.labels = []
  | _ => True

/-- What is written out captures what the pattern does. -/
theorem Unrolls.mem_labels (h : Unrolls mem f a q) {l : L} (hl : l ∈ q.labels) : f l ∈ a.labels := by
  induction h with
  | empty | symbol s => cases hl
  | choice _ _ => cases hl
  | seq _ _ iha ihb | alt _ _ iha ihb => exact List.mem_append.mpr ((List.mem_append.mp hl).imp iha ihb)
  | @capture k a q _ ih =>
    refine List.mem_cons.mpr ((List.mem_cons.mp hl).imp (fun hk => ?_) ih)
    rw [hk]
  | bounded _ _ _ _ _ ihps ihqs =>
    rcases List.mem_append.mp hl with hl | hl
    · obtain ⟨p, hp, hl⟩ := mem_labels_seqs hl
      exact ihps p hp hl
    · obtain ⟨q, hq, hl⟩ := mem_labels_optionals hl
      exact ihqs q hq hl
  | unlimited _ _ _ _ ihps ihq =>
    rcases List.mem_append.mp hl with hl | hl
    · obtain ⟨p, hp, hl⟩ := mem_labels_seqs hl
      exact ihps p hp hl
    · exact ihq hl

theorem Unrolls.labels_nil (h : Unrolls mem f a q) (hlabels : a.labels = []) : q.labels = [] := by
  refine List.eq_nil_iff_forall_not_mem.mpr fun l hl => ?_
  have hmem := h.mem_labels hl
  rw [hlabels] at hmem
  cases hmem

/-- What is written out captures everything once. -/
theorem Unrolls.once (h : Unrolls mem f a q) (hflat : a.Flat) : q.Once := by
  induction h with
  | empty | symbol s => trivial
  | choice _ _ => trivial
  | seq _ _ iha ihb => exact ⟨iha hflat.1, ihb hflat.2⟩
  | alt _ _ iha ihb => exact ⟨iha hflat.1, ihb hflat.2⟩
  | capture hq ih => exact ⟨hq.labels_nil hflat.1, ih hflat.2⟩
  | bounded _ _ _ _ _ ihps ihqs => exact ⟨every_seqs fun p hp => ihps p hp hflat.2, every_optionals fun q hq => ihqs q hq hflat.2⟩
  | unlimited hlabels _ _ hq ihps ihq => exact ⟨every_seqs fun p hp => ihps p hp hflat.2, hq.labels_nil hlabels, ihq hflat.2⟩

end Pattern

end FtIrc
