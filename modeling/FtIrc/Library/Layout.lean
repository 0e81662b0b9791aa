import FtIrc.Library.Unrolling

/-!
# Patterns laid out as programs

A pattern laid out in a program (`FtIrc.Machine.Laid`): symbols are tests, what is captured stands
between two saves, and alternatives and loops stand behind splits. The first part of the program is the
first choice.

A program that a pattern is laid out in takes the texts of the pattern (`FtIrc.Machine.Laid.fragment`).
If moreover the bodies of its loops take a symbol each, the search through the program ends everywhere
(`FtIrc.Machine.Laid.ends_inside`), and finds what the search through the pattern does
(`FtIrc.Machine.Laid.yields`). So does the run in lockstep (`FtIrc.Machine.Laid.search_eq`).
-/

namespace FtIrc

namespace Machine

open Pattern

variable {α S K : Type} {code : ℕ → Instr α} {mem : S → α → Bool} {slot : K → ℕ} {p q : Pattern S K} {a b c n pc pos : ℕ}
  {w : List α}

/-- **A pattern is laid out in a program** from `a` on, and goes on at `b`. A capture is saved in two
registers, those of its slot. -/
inductive Laid (code : ℕ → Instr α) (mem : S → α → Bool) (slot : K → ℕ) : Pattern S K → ℕ → ℕ → Prop
  | empty {a : ℕ} : Laid code mem slot .empty a a
  | symbol {s : S} {a : ℕ} : code a = .symbol (mem s) → Laid code mem slot (.symbol s) a (a + 1)
  | seq {p q : Pattern S K} {a b c : ℕ} : Laid code mem slot p a b → Laid code mem slot q b c → Laid code mem slot (.seq p q) a c
  /-- One alternative, a jump over the others, and these. -/
  | branch {p q : Pattern S K} {a b c : ℕ} : code a = .split (a + 1) (b + 1) → Laid code mem slot p (a + 1) b →
      code b = .jump c → Laid code mem slot q (b + 1) c → Laid code mem slot (.alt p q) a c
  | optional {p : Pattern S K} {a b : ℕ} : code a = .split (a + 1) b → Laid code mem slot p (a + 1) b →
      Laid code mem slot (.alt p .empty) a b
  | loop {p : Pattern S K} {a b : ℕ} : code a = .split (a + 1) (b + 1) → Laid code mem slot p (a + 1) b →
      code b = .jump a → Laid code mem slot (.rep 0 none p) a (b + 1)
  | capture {k : K} {p : Pattern S K} {a b : ℕ} : code a = .save (slot k * 2) → Laid code mem slot p (a + 1) b →
      code b = .save (slot k * 2 + 1) → Laid code mem slot (.capture k p) a (b + 1)

theorem Laid.le (h : Laid code mem slot p a b) : a ≤ b := by
  induction h with
  | empty => exact le_rfl
  | symbol _ => exact Nat.le_succ _
  | seq _ _ ihp ihq => exact ihp.trans ihq
  | branch _ _ _ _ ihp ihq => omega
  | optional _ _ ih => omega
  | loop _ _ _ ih => omega
  | capture _ _ _ ih => omega

/-- **What a pattern takes is what its program takes.** -/
theorem Laid.fragment (h : Laid code mem slot p a b) : Fragment code (p.language mem) a b := by
  induction h with
  | empty => exact .nil
  | symbol hcode => exact .symbol hcode
  | seq _ _ ihp ihq => exact ihp.append ihq
  | branch hsplit _ hjump _ ihp ihq => exact .split (by rw [hsplit]; rfl) (ihp.leave (by rw [hjump]; rfl)) ihq
  | optional hsplit _ ih => exact .split (by rw [hsplit]; rfl) ih .nil
  | loop hsplit _ hjump ih =>
    rw [language_loop]
    exact .loop (by rw [hsplit]; rfl) ih (by rw [hjump]; rfl)
  | capture hopen _ hclose ih => exact (ih.enter (by rw [hopen]; rfl)).leave (by rw [hclose]; rfl)

/-! ### The search through the program -/

/-- **What a program notes** in an input of `n` symbols: where a capture begins and where it ends. -/
def saving (slot : K → ℕ) (n : ℕ) : Notes α K Saves where
  opened k w x := (slot k * 2, n - w.length) :: x
  closed k _ rest x := (slot k * 2 + 1, n - rest.length) :: x

/-- **The search through a program finds what the search through its pattern does**, if that is so of
what comes behind it. -/
theorem Laid.yields (h : Laid code mem slot p a b) (hsteady : p.AllSteady) {κ : List α → Option Saves} (hw : w.length ≤ n)
    (hκ : ∀ rest, p.Reaches w rest → Yields code b (n - rest.length) rest (κ rest)) :
    Yields code a (n - w.length) w (p.eval mem (saving slot n) κ w) := by
  induction h generalizing κ w with
  | empty => exact hκ w ⟨List.suffix_refl w, fun hn => absurd hn (by simp [nullable])⟩
  | @symbol s a hcode =>
    rcases w with _ | ⟨x, w⟩
    · exact .short hcode
    · rw [eval]
      split_ifs with hx
      · have hrest := hκ w ⟨List.suffix_cons x w, fun _ => by simp⟩
        have hpos : n - (x :: w).length + 1 = n - w.length := by
          rw [List.length_cons] at hw ⊢
          omega
        exact .take hcode hx (hpos ▸ hrest)
      · exact .miss hcode (by simpa using hx)
  | @seq p q a b c hp hq ihp ihq =>
    refine ihp hsteady.1 hw fun rest hrest => ihq hsteady.2 (hrest.1.length_le.trans hw) fun last hlast => hκ last ?_
    refine ⟨hlast.1.trans hrest.1, fun hn => ?_⟩
    have hlen := hrest.1.length_le
    have hlen' := hlast.1.length_le
    rcases Bool.and_eq_false_iff.mp hn with hn | hn
    · exact lt_of_le_of_lt hlen' (hrest.2 hn)
    · exact lt_of_lt_of_le (hlast.2 hn) hlen
  | @branch p q a b c hsplit hp hjump hq ihp ihq =>
    refine .split hsplit (ihp hsteady.1 hw fun rest hrest => .jump hjump (hκ rest ?_)) (ihq hsteady.2 hw fun rest hrest => hκ rest ?_)
    · exact ⟨hrest.1, fun hn => hrest.2 (Bool.or_eq_false_iff.mp hn).1⟩
    · exact ⟨hrest.1, fun hn => hrest.2 (Bool.or_eq_false_iff.mp hn).2⟩
  | @optional p a b hsplit hp ih =>
    have hall : (Pattern.alt p .empty).nullable = true := Bool.or_true _
    refine .split hsplit (ih hsteady.1 hw fun rest hrest => hκ rest ⟨hrest.1, fun hn => ?_⟩) (hκ w ⟨List.suffix_refl w, fun hn => ?_⟩)
    · exact absurd (hall.symm.trans hn) (by simp)
    · exact absurd (hall.symm.trans hn) (by simp)
  | @loop p a b hsplit hp hjump ih =>
    have hnull : p.nullable = false := by
      rcases hsteady.1 with hnull | ⟨m, hm, -⟩
      · exact hnull
      · cases hm
    have hall : (Pattern.rep 0 none p).nullable = true := rfl
    rw [eval_rep]
    induction hlen : w.length using Nat.strong_induction_on generalizing w with
    | _ len ihw =>
      subst hlen
      rw [turns_of_steady hsteady.1, if_pos (by simp), if_pos le_rfl]
      refine .split hsplit (ih hsteady.2 hw fun rest hrest => .jump hjump ?_) ?_
      · have hlt := hrest.2 hnull
        rw [turns_unlimited hnull (Nat.zero_le _) (le_refl 0)]
        exact ihw _ hlt (by omega) (fun last hlast => hκ last ⟨hlast.1.trans hrest.1, fun hn => absurd (hall.symm.trans hn) (by simp)⟩) rfl
      · exact hκ w ⟨List.suffix_refl w, fun hn => absurd (hall.symm.trans hn) (by simp)⟩
  | @capture k p a b hopen hp hclose ih =>
    exact .save hopen (ih hsteady.2 hw fun rest hrest => .save hclose (hκ rest hrest))

/-- The search from an address ends, whatever the input. -/
def EndsAt (code : ℕ → Instr α) (pc : ℕ) : Prop := ∀ pos w, ∃ r, Yields code pc pos w r

theorem Laid.ends_start (h : Laid code mem slot p a b) (hsteady : p.AllSteady) (hb : EndsAt code b) : EndsAt code a := by
  intro pos w
  choose κ hκ using fun rest : List α => hb (pos + w.length - rest.length) rest
  have hyields := h.yields hsteady (n := pos + w.length) (κ := κ) (Nat.le_add_left w.length pos) fun rest _ => hκ rest
  rw [Nat.add_sub_cancel] at hyields
  exact ⟨_, hyields⟩

theorem EndsAt.jump (hcode : code a = .jump b) (h : EndsAt code b) : EndsAt code a := by
  intro pos w
  obtain ⟨r, hr⟩ := h pos w
  exact ⟨r, .jump hcode hr⟩

theorem EndsAt.save {r : ℕ} (hcode : code a = .save r) (h : EndsAt code (a + 1)) : EndsAt code a := by
  intro pos w
  obtain ⟨x, hx⟩ := h pos w
  exact ⟨_, .save hcode hx⟩

/-- **The search ends everywhere in a program** that a pattern is laid out in. -/
theorem Laid.ends_inside (h : Laid code mem slot p a b) (hsteady : p.AllSteady) (hb : EndsAt code b) (hlo : a ≤ pc) (hhi : pc ≤ b) :
    EndsAt code pc := by
  induction h with
  | empty => rwa [le_antisymm hhi hlo]
  | @symbol s a hcode =>
    rcases Nat.lt_or_ge a pc with hlt | hge
    · rwa [le_antisymm hhi hlt]
    · rw [le_antisymm hge hlo]
      exact (Laid.symbol hcode : Laid code mem slot _ a (a + 1)).ends_start trivial hb
  | @seq p q a b c hp hq ihp ihq =>
    rcases Nat.le_total pc b with hle | hge
    · exact ihp hsteady.1 (hq.ends_start hsteady.2 hb) hlo hle
    · exact ihq hsteady.2 hb hge hhi
  | @branch p q a b c hsplit hp hjump hq ihp ihq =>
    have hjumps : EndsAt code b := .jump hjump hb
    rcases Nat.lt_or_ge b pc with hlt | hge
    · exact ihq hsteady.2 hb hlt hhi
    rcases Nat.lt_or_ge a pc with hlt | hge'
    · exact ihp hsteady.1 hjumps hlt hge
    · rw [le_antisymm hge' hlo]
      exact (Laid.branch hsplit hp hjump hq).ends_start hsteady hb
  | @optional p a b hsplit hp ih =>
    rcases Nat.lt_or_ge a pc with hlt | hge
    · exact ih hsteady.1 hb hlt hhi
    · rw [le_antisymm hge hlo]
      exact (Laid.optional hsplit hp).ends_start hsteady hb
  | @loop p a b hsplit hp hjump ih =>
    have hstart : EndsAt code a := (Laid.loop hsplit hp hjump).ends_start hsteady hb
    rcases Nat.lt_or_ge b pc with hlt | hge
    · rwa [le_antisymm hhi hlt]
    rcases Nat.lt_or_ge a pc with hlt | hge'
    · exact ih hsteady.2 (.jump hjump hstart) hlt hge
    · rwa [le_antisymm hge' hlo]
  | @capture k p a b hopen hp hclose ih =>
    rcases Nat.lt_or_ge b pc with hlt | hge
    · rwa [le_antisymm hhi hlt]
    rcases Nat.lt_or_ge a pc with hlt | hge'
    · exact ih hsteady.2 (.save hclose hb) hlt hge
    · rw [le_antisymm hge' hlo]
      exact (Laid.capture hopen hp hclose).ends_start hsteady hb

/-! ### A whole program -/

theorem endsAt_accept (hcode : code b = .accept) : EndsAt code b := by
  intro pos w
  rcases w with _ | ⟨x, w⟩
  · exact ⟨_, .accept hcode⟩
  · exact ⟨_, .early hcode⟩

/-- What is found where the whole input must be taken. -/
def whenDone {C : Type} (x : C) : List α → Option C
  | [] => some x
  | _ :: _ => none

/-- **The run of a program finds what the search through its pattern finds first.** -/
theorem Laid.search_eq (h : Laid code mem slot p 0 b) (hsteady : p.AllSteady) (hend : code b = .accept)
    (hsize : Within code (b + 1)) (w : List α) :
    search code (b + 1) w = p.eval mem (saving slot w.length) (whenDone []) w := by
  have hends : ∀ pc, EndsAt code pc := by
    intro pc
    rcases Nat.lt_or_ge b pc with hlt | hge
    · exact fun pos w => ⟨_, .reject (hsize pc hlt)⟩
    · exact h.ends_inside hsteady (endsAt_accept hend) (Nat.zero_le pc) hge
  choose V hV using hends
  have hdone : ∀ rest : List α, Yields code b (w.length - rest.length) rest (whenDone [] rest) := by
    intro rest
    rcases rest with _ | ⟨x, rest⟩
    · exact .accept hend
    · exact .early hend
  have hyields := h.yields hsteady (n := w.length) (κ := whenDone []) le_rfl fun rest _ => hdone rest
  rw [Nat.sub_self] at hyields
  rw [Machine.search_eq hV hsize, (hV 0 0 w).unique hyields]

/-- Whether a program accepts an input does not depend on its loops. -/
theorem Laid.search_isSome_iff (h : Laid code mem slot p 0 b) (hend : code b = .accept) {size : ℕ} (hsize : Within code size) :
    (search code size w).isSome = true ↔ w ∈ p.language mem := h.fragment.search_isSome_iff hsize hend

end Machine

end FtIrc
