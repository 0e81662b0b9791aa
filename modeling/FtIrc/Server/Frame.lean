import FtIrc.Server.Operations

/-!
# Reading what was written

The lookups of a state after each of the ways there are to write to it: through
the pointer to a client, through the pointer to a channel, and by recording an
event. They are what the proofs below use in place of unfolding
`FtIrc.Server.update` and its companions.
-/

namespace FtIrc

variable [Libcpp]

namespace Server

variable {s : Server} {p q : ClientId} {f : Client → Client} {c : Client}

/-! ### Clients -/

theorem deref_of_get? (h : s.heap.get? p = some c) : s.deref p = c := by
  rw [deref, h, Option.getD_some]

theorem deref_of_none (h : s.heap.get? p = none) : s.deref p = default := by
  rw [deref, h, Option.getD_none]

/-- A client that is not the default one is there. -/
theorem get?_of_registered (h : (s.deref p).registered = true) :
    s.heap.get? p = some (s.deref p) := by
  rcases hp : s.heap.get? p with _ | c
  · rw [deref_of_none hp] at h
    exact absurd h Bool.false_ne_true
  · rw [deref_of_get? hp]

theorem get?_of_pendingClose (h : (s.deref p).pendingClose = true) :
    s.heap.get? p = some (s.deref p) := by
  rcases hp : s.heap.get? p with _ | c
  · rw [deref_of_none hp] at h
    exact absurd h Bool.false_ne_true
  · rw [deref_of_get? hp]

theorem get?_update_self : (s.update p f).heap.get? p = (s.heap.get? p).map f :=
  OrdMap.get?_modify_self _ _ _

theorem get?_update_of_ne (h : q ≠ p) : (s.update p f).heap.get? q = s.heap.get? q :=
  OrdMap.get?_modify_of_ne _ _ h

/-- Every client after a write is the one from before, written to or not. -/
theorem get?_update_eq_some (h : (s.update p f).heap.get? q = some c) :
    ∃ d, s.heap.get? q = some d ∧ (q = p ∧ c = f d ∨ q ≠ p ∧ c = d) := by
  have h' := (OrdMap.get?_modify s.heap p f q).symm.trans h
  obtain ⟨d, hd, hc⟩ := Option.map_eq_some_iff.mp h'
  by_cases hq : q = p
  · exact ⟨d, hd, Or.inl ⟨hq, by rw [← hc, if_pos hq]⟩⟩
  · exact ⟨d, hd, Or.inr ⟨hq, by rw [← hc, if_neg hq]⟩⟩

theorem get?_update_eq_none : (s.update p f).heap.get? q = none ↔ s.heap.get? q = none := by
  rw [update, OrdMap.get?_modify, Option.map_eq_none_iff]

theorem deref_update_self (h : s.heap.get? p = some c) : (s.update p f).deref p = f c := by
  rw [deref, get?_update_self, h, Option.map_some, Option.getD_some]

theorem deref_update_of_ne (h : q ≠ p) : (s.update p f).deref q = s.deref q := by
  rw [deref, get?_update_of_ne h, deref]

/-- **What a write leaves alone reads the same afterwards.** -/
theorem deref_update_field {β : Type} (g : Client → β) (hg : ∀ c, g (f c) = g c) (q : ClientId) :
    g ((s.update p f).deref q) = g (s.deref q) := by
  by_cases hq : q = p
  · subst hq
    rcases hp : s.heap.get? q with _ | c
    · rw [deref_of_none (get?_update_eq_none.mpr hp), deref_of_none hp]
    · rw [deref_update_self hp, deref_of_get? hp, hg]
  · rw [deref_update_of_ne hq]

/-- Writing twice is writing once. -/
theorem update_update (g : Client → Client) :
    (s.update p f).update p g = s.update p fun c => g (f c) := by
  rw [update, update, update]
  exact congrArg (fun h => { s with heap := h }) (OrdMap.modify_modify s.heap p f g)

/-- Writes that commute as functions commute. -/
theorem update_comm {g : Client → Client} (h : ∀ c, g (f c) = f (g c)) :
    (s.update p f).update q g = (s.update q g).update p f := by
  have : (s.heap.modify p f).modify q g = (s.heap.modify q g).modify p f :=
    OrdMap.ext_get? fun k => by
      simp only [OrdMap.get?_modify, Option.map_map]
      congr 1
      funext c
      by_cases hp : k = p
      · by_cases hq : k = q
        · simp only [Function.comp_apply, if_pos hp, if_pos hq, h]
        · simp only [Function.comp_apply, if_pos hp, if_neg hq]
      · simp only [Function.comp_apply, if_neg hp]
  rw [update, update, update, update]
  exact congrArg (fun h => { s with heap := h }) this

/-- A write by a function that changes nothing at that client changes nothing. -/
theorem update_eq_self (h : ∀ c, s.heap.get? p = some c → f c = c) : s.update p f = s := by
  rw [update, OrdMap.modify_eq_self h]

/-- Two writes that agree at that client are the same. -/
theorem update_congr {g : Client → Client} (h : ∀ c, s.heap.get? p = some c → f c = g c) :
    s.update p f = s.update p g := by
  have : s.heap.modify p f = s.heap.modify p g :=
    OrdMap.ext_get? fun k => by
      simp only [OrdMap.get?_modify]
      rcases hk : s.heap.get? k with _ | c
      · rfl
      · by_cases hkp : k = p
        · rw [Option.map_some, Option.map_some, if_pos hkp, if_pos hkp, h c (hkp ▸ hk)]
        · rw [Option.map_some, Option.map_some, if_neg hkp, if_neg hkp]
  rw [update, update, this]

/-! ### Channels -/

variable {ch ch' : ChannelRef} {fc : Channel → Channel} {chan : Channel}

theorem channel_of_get? (h : s.channels.get? ch = some chan) : s.channel ch = chan := by
  rw [channel, h, Option.getD_some]

theorem channel_of_none (h : s.channels.get? ch = none) : s.channel ch = default := by
  rw [channel, h, Option.getD_none]

/-- What is there is read through the pointer. -/
theorem get?_channel (h : s.channels.contains ch = true) :
    s.channels.get? ch = some (s.channel ch) := by
  obtain ⟨c, hc⟩ := OrdMap.contains_iff.mp h
  rw [channel_of_get? hc, hc]

/-- Every channel after a write is the one from before, written to or not. -/
theorem get?_updateChannel_eq_some (h : (s.updateChannel ch fc).channels.get? ch' = some chan) :
    ∃ old, s.channels.get? ch' = some old ∧ (ch' = ch ∧ chan = fc old ∨ ch' ≠ ch ∧ chan = old) := by
  have h' := (OrdMap.get?_modify s.channels ch fc ch').symm.trans h
  obtain ⟨old, hold, hc⟩ := Option.map_eq_some_iff.mp h'
  by_cases hch : ch' = ch
  · exact ⟨old, hold, Or.inl ⟨hch, by rw [← hc, if_pos hch]⟩⟩
  · exact ⟨old, hold, Or.inr ⟨hch, by rw [← hc, if_neg hch]⟩⟩

theorem channel_updateChannel_self (h : s.channels.get? ch = some chan) :
    (s.updateChannel ch fc).channel ch = fc chan := by
  rw [channel, updateChannel, OrdMap.get?_modify_self, h, Option.map_some, Option.getD_some]

/-- Writing to a channel twice is writing once. -/
theorem updateChannel_updateChannel (gc : Channel → Channel) :
    (s.updateChannel ch fc).updateChannel ch gc = s.updateChannel ch fun c => gc (fc c) := by
  rw [updateChannel, updateChannel, updateChannel]
  exact congrArg (fun h => { s with channels := h }) (OrdMap.modify_modify s.channels ch fc gc)

/-- A write to a channel that changes nothing there changes nothing. -/
theorem updateChannel_eq_self (h : ∀ c, s.channels.get? ch = some c → fc c = c) :
    s.updateChannel ch fc = s := by
  rw [updateChannel, OrdMap.modify_eq_self h]

end Server

end FtIrc
