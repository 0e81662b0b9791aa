import FtIrc.Libcpp
import Mathlib.Data.List.TakeWhile

/-!
# An implementation of the vendored library

`FtIrc.Libcpp` is satisfiable: `FtIrc.referenceLibcpp` implements it over lists, a
socket with one list of octets for each direction. It is what concrete runs of the
server below are computed with.
-/

namespace FtIrc

/-- A socket buffer over lists. -/
structure ReferenceSocket where
  maxSendQ : ℕ
  received : Str := []
  pending : Str := []
  overflowed : Bool := false

namespace ReferenceSocket

variable (s : ReferenceSocket)

/-- The next line without its line end, once it is complete. -/
def nextLine : Option (Str × ReferenceSocket) :=
  if LF ∈ s.received then
    some ((s.received.takeWhile (· != LF)).filter (· != CR),
      { s with received := (s.received.dropWhile (· != LF)).tail })
  else none

/-- Append a line, or drop it when the queue is full. -/
def queue (line : Str) : ReferenceSocket :=
  if s.overflowed = true ∨ s.maxSendQ < s.pending.length + line.length + 2 then
    { s with overflowed := true }
  else { s with pending := s.pending ++ line ++ CRLF }

theorem noLF_of_nextLine {s s' : ReferenceSocket} {l : Str} (h : s.nextLine = some (l, s')) :
    LF ∉ l := by
  rw [nextLine] at h
  split_ifs at h
  simp only [Option.some.injEq, Prod.mk.injEq] at h
  obtain ⟨rfl, -⟩ := h
  intro hmem
  exact absurd (List.mem_takeWhile_imp (List.mem_of_mem_filter hmem)) (by simp)

theorem inSize_of_nextLine {s s' : ReferenceSocket} {l : Str} (h : s.nextLine = some (l, s')) :
    s'.received.length < s.received.length := by
  rw [nextLine] at h
  split_ifs at h with hLF
  simp only [Option.some.injEq, Prod.mk.injEq] at h
  obtain ⟨-, rfl⟩ := h
  have hle := (List.dropWhile_suffix (l := s.received) (· != LF)).length_le
  have hne : s.received.dropWhile (· != LF) ≠ [] := fun hnil => by
    have := List.dropWhile_eq_nil_iff.mp hnil LF hLF
    simp at this
  have hpos := List.length_pos_iff.mpr hne
  rw [List.length_tail]
  omega

theorem output_of_nextLine {s s' : ReferenceSocket} {l : Str} (h : s.nextLine = some (l, s')) :
    s'.pending = s.pending ∧ s'.overflowed = s.overflowed := by
  rw [nextLine] at h
  split_ifs at h
  simp only [Option.some.injEq, Prod.mk.injEq] at h
  obtain ⟨-, rfl⟩ := h
  exact ⟨rfl, rfl⟩

theorem pending_queue (line : Str) : (s.queue line).pending = s.pending ++ line ++ CRLF ∨
    (s.queue line).pending = s.pending ∧ (s.queue line).overflowed = true := by
  rw [queue]
  split_ifs
  · exact .inr ⟨rfl, rfl⟩
  · exact .inl rfl

theorem overflowed_queue {s : ReferenceSocket} (line : Str) (h : s.overflowed = true) :
    (s.queue line).overflowed = true := by
  rw [queue, if_pos (.inl h)]

end ReferenceSocket

/-- A number a parser yields only inside a range. -/
theorem filter_range_iff {α : Type} [LE α] [DecidableLE α] {x : Option α} {lo hi v : α} :
    (x.filter fun v => decide (lo ≤ v ∧ v ≤ hi)) = some v ↔ x = some v ∧ lo ≤ v ∧ v ≤ hi := by
  rw [Option.filter_eq_some_iff, decide_eq_true_iff]

/-- **The library over lists.** -/
@[reducible] def referenceLibcpp : Libcpp where
  Socket := ReferenceSocket
  newSocket _ maxSendQ := { maxSendQ := maxSendQ }
  feed s data := { s with received := s.received ++ data }
  nextLine := ReferenceSocket.nextLine
  inSize s := s.received.length
  queue := ReferenceSocket.queue
  outData := ReferenceSocket.pending
  consume s n := { s with pending := s.pending.drop n }
  hasPending s := decide (s.pending ≠ [])
  overflowed := ReferenceSocket.overflowed
  asciiToLower := asciiFold
  eqAsciiNocase a b := decide (asciiFold a = asciiFold b)
  toUpper := asciiRaise
  split s c := s.splitOn c
  splitNonempty s c := (s.splitOn c).filter fun t => decide (t ≠ [])
  parseLong s lo hi := (signedValue s).filter fun v => decide (lo ≤ v ∧ v ≤ hi)
  parseUlong s lo hi := (digitsValue s).filter fun v => decide (lo ≤ v ∧ v ≤ hi)
  toDecimal := signedDecimal
  eqConsttime a b := decide (a = b)
  localTime := signedDecimal
  outData_new _ _ := rfl
  overflowed_new _ _ := rfl
  outData_feed _ _ := rfl
  overflowed_feed _ _ := rfl
  noLF_of_nextLine := ReferenceSocket.noLF_of_nextLine
  inSize_of_nextLine := ReferenceSocket.inSize_of_nextLine
  outData_of_nextLine h := (ReferenceSocket.output_of_nextLine h).1
  overflowed_of_nextLine h := (ReferenceSocket.output_of_nextLine h).2
  outData_queue := ReferenceSocket.pending_queue
  overflowed_queue := ReferenceSocket.overflowed_queue
  outData_consume _ _ := rfl
  overflowed_consume _ _ := rfl
  hasPending_iff _ := decide_eq_true_iff
  asciiToLower_eq _ := rfl
  eqAsciiNocase_iff _ _ := decide_eq_true_iff
  oneLine_toUpper := OneLine.asciiRaise
  split_eq _ _ := rfl
  splitNonempty_eq _ _ := rfl
  parseLong_iff _ _ _ _ := filter_range_iff
  parseUlong_iff _ _ _ _ := filter_range_iff
  toDecimal_eq _ := rfl
  eqConsttime_iff _ _ := decide_eq_true_iff
  oneLine_localTime := OneLine.signedDecimal

end FtIrc
