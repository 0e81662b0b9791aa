import FtIrc.Octets

/-!
# The vendored library, as a parameter

`vendor/libcpp` is a submodule whose sources are not part of this repository, so
the server is modelled over *any* implementation of what it calls:
`FtIrc.Libcpp` bundles the operations together with what the tests of
`tests/test_libcpp98.cpp` and `tests/test_libcpp_str.cpp` document about them. No
proof below looks behind these laws.

* The socket buffer (`libcpp98::BufferedSocket`) frames what is received into
  lines at LF and collects what is to be sent. Of the input half only two things
  are assumed: a line it returns holds no LF, and returning one uses up some of
  what was received. Of the output half: queueing appends the text and CRLF, or
  drops the text whole and latches the overflow flag.
* The string functions of `libcpp::str` are pinned down completely, except
  `to_upper`, of which only “no line break or NUL appears” is ever used.
-/

namespace FtIrc

/-- `time_t`, in seconds. -/
abbrev Time := ℤ

/-- **What the server calls in `vendor/libcpp`**, with the documented behaviour of
each operation. -/
class Libcpp where
  /-- A `libcpp98::BufferedSocket`. -/
  Socket : Type
  /-- `BufferedSocket(maxLine, maxSendQ)`. -/
  newSocket : ℕ → ℕ → Socket
  /-- `BufferedSocket::feed`: received octets go into the line buffer. -/
  feed : Socket → Str → Socket
  /-- `BufferedSocket::nextLine`: the next complete line, if there is one. -/
  nextLine : Socket → Option (Str × Socket)
  /-- How many received octets wait in the line buffer. -/
  inSize : Socket → ℕ
  /-- `BufferedSocket::queue`: a line to be sent. -/
  queue : Socket → Str → Socket
  /-- `BufferedSocket::outData`: what waits to be sent. -/
  outData : Socket → Str
  /-- `BufferedSocket::consume`: that many octets have been sent. -/
  consume : Socket → ℕ → Socket
  /-- `BufferedSocket::hasPending`. -/
  hasPending : Socket → Bool
  /-- `BufferedSocket::overflowed`. -/
  overflowed : Socket → Bool
  /-- `str::ascii_to_lower`. -/
  asciiToLower : Str → Str
  /-- `str::eq_ascii_nocase`. -/
  eqAsciiNocase : Str → Str → Bool
  /-- `str::to_upper`. -/
  toUpper : Str → Str
  /-- `str::split`, the vector form. -/
  split : Str → Octet → List Str
  /-- `str::split_nonempty`. -/
  splitNonempty : Str → Octet → List Str
  /-- `str::parse_long` with its inclusive range. -/
  parseLong : Str → ℤ → ℤ → Option ℤ
  /-- `str::parse_ulong` with its inclusive range. -/
  parseUlong : Str → ℕ → ℕ → Option ℕ
  /-- `str::to_string` of an integer. -/
  toDecimal : ℤ → Str
  /-- `str::eq_consttime`. -/
  eqConsttime : Str → Str → Bool
  /-- `std::strftime` of the local time, whose time zone is not fixed. -/
  localTime : Time → Str
  outData_new : ∀ a b, outData (newSocket a b) = []
  overflowed_new : ∀ a b, overflowed (newSocket a b) = false
  outData_feed : ∀ s d, outData (feed s d) = outData s
  overflowed_feed : ∀ s d, overflowed (feed s d) = overflowed s
  noLF_of_nextLine : ∀ {s l s'}, nextLine s = some (l, s') → LF ∉ l
  inSize_of_nextLine : ∀ {s l s'}, nextLine s = some (l, s') → inSize s' < inSize s
  outData_of_nextLine : ∀ {s l s'}, nextLine s = some (l, s') → outData s' = outData s
  overflowed_of_nextLine : ∀ {s l s'}, nextLine s = some (l, s') → overflowed s' = overflowed s
  outData_queue : ∀ s l, outData (queue s l) = outData s ++ l ++ CRLF ∨
    (outData (queue s l) = outData s ∧ overflowed (queue s l) = true)
  overflowed_queue : ∀ {s} l, overflowed s = true → overflowed (queue s l) = true
  outData_consume : ∀ s n, outData (consume s n) = (outData s).drop n
  overflowed_consume : ∀ s n, overflowed (consume s n) = overflowed s
  hasPending_iff : ∀ s, hasPending s = true ↔ outData s ≠ []
  asciiToLower_eq : ∀ s, asciiToLower s = asciiFold s
  eqAsciiNocase_iff : ∀ a b, eqAsciiNocase a b = true ↔ asciiFold a = asciiFold b
  oneLine_toUpper : ∀ {s}, OneLine s → OneLine (toUpper s)
  split_eq : ∀ s c, split s c = s.splitOn c
  splitNonempty_eq : ∀ s c, splitNonempty s c = (s.splitOn c).filter fun t => decide (t ≠ [])
  parseLong_iff : ∀ s lo hi v,
    parseLong s lo hi = some v ↔ signedValue s = some v ∧ lo ≤ v ∧ v ≤ hi
  parseUlong_iff : ∀ s lo hi v,
    parseUlong s lo hi = some v ↔ digitsValue s = some v ∧ lo ≤ v ∧ v ≤ hi
  toDecimal_eq : ∀ n, toDecimal n = signedDecimal n
  eqConsttime_iff : ∀ a b, eqConsttime a b = true ↔ a = b
  oneLine_localTime : ∀ t, OneLine (localTime t)

/-- A number printed is one line. -/
@[simp] theorem OneLine.toDecimal [Libcpp] (n : ℤ) : OneLine (Libcpp.toDecimal n) := by
  rw [Libcpp.toDecimal_eq]
  exact signedDecimal n

end FtIrc
