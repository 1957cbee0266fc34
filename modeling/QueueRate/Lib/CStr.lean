import Mathlib.Data.List.Basic

/-!
# C strings in fixed buffers

A buffer of `cap` bytes holds a C string's chars and then its NUL, so at most
`cap - 1` chars. `strncat (dst, src, n)` copies at most `n` chars of `src`
after those of `dst` and then writes a NUL; here it is `none` when a byte it
writes would lie past the buffer. With the bound `cap - strlen (dst) - 1`
that never happens and the text is cut instead (`strncat_reserve`); with
`cap - strlen (dst)` it happens exactly when the whole text does not fit
(`strncat_full`), and a run of such appends is the whole text while it fits
and then fails for good (`fit_bind_strncat`).
-/

namespace CStr

variable {α : Type*}

/-- `strncat (dst, src, n)` on a buffer of `cap` bytes holding `dst`: the
chars copied and the NUL after them must lie in the buffer. -/
def strncat (cap : ℕ) (dst src : List α) (n : ℕ) : Option (List α) :=
  if dst.length + min n src.length < cap then some (dst ++ src.take n) else none

/-- What `snprintf (buf, size, ...)` leaves in `buf` for the text `s`: at
most `size - 1` chars, then a NUL (every call modelled has `0 < size`). -/
def snprintf (size : ℕ) (s : List α) : List α := s.take (size - 1)

/-- The text `t` in a buffer of `cap` bytes, when it fits with its NUL. -/
def fit (cap : ℕ) (t : List α) : Option (List α) := if t.length < cap then some t else none

variable {cap : ℕ}

theorem snprintf_of_length_lt {size : ℕ} {s : List α} (h : s.length < size) : snprintf size s = s :=
  List.take_of_length_le (by omega)

theorem fit_of_length_lt {t : List α} (h : t.length < cap) : fit cap t = some t := if_pos h

/-- Leaving room for the NUL, `strncat` stays in the buffer and cuts the text. -/
theorem strncat_reserve {dst : List α} (h : dst.length < cap) (src : List α) :
    strncat cap dst src (cap - dst.length - 1) = some (dst ++ src.take (cap - dst.length - 1)) :=
  if_pos (by omega)

theorem strncat_reserve_of_fits {dst src : List α} (h : dst.length + src.length < cap) :
    strncat cap dst src (cap - dst.length - 1) = some (dst ++ src) := by
  rw [strncat_reserve (by omega), List.take_of_length_le (by omega)]

/-- Without room for the NUL, `strncat` writes past the buffer exactly when
the text does not fit. -/
theorem strncat_full (dst src : List α) : strncat cap dst src (cap - dst.length) = fit cap (dst ++ src) := by
  unfold strncat fit
  rw [List.length_append]
  by_cases h : dst.length + src.length < cap
  · rw [if_pos (by omega), if_pos h, List.take_of_length_le (by omega)]
  · rw [if_neg (by omega), if_neg h]

theorem fit_bind_strncat (t s : List α) :
    (fit cap t).bind (fun d => strncat cap d s (cap - d.length)) = fit cap (t ++ s) := by
  by_cases h : t.length < cap
  · rw [fit_of_length_lt h, Option.bind_some, strncat_full]
  · have h' : ¬ (t ++ s).length < cap := by
      rw [List.length_append]
      omega
    rw [fit, if_neg h, fit, if_neg h', Option.bind_none]

theorem fit_bind_strncat_map {β : Type*} (t s : List α) (f : List α → β) :
    (fit cap t).bind (fun d => (strncat cap d s (cap - d.length)).map f) = (fit cap (t ++ s)).map f := by
  rw [← fit_bind_strncat, Option.map_bind]
  rfl

end CStr
