import Gwems.Library.Numeral

/-!
# `HTTP_DATE_FORMAT`: times in headers

Times are written without milliseconds, and are read as they were written. `firstDay` writes those
of the first day of 1970 as `SimpleDateFormat` does.
-/

namespace Gwems

namespace HttpHandler

/-- The texts of times in headers, as `SimpleDateFormat` with `HTTP_DATE_FORMAT` writes and reads
them: they have no milliseconds. -/
structure DateFormat where
  format : ℤ → String
  parse : String → Option ℤ
  format_ne : ∀ time, format time ≠ ""
  parse_format : ∀ {time}, 0 ≤ time →
    ∃ date, parse (format time) = some date ∧ date.tdiv 1000 = time.tdiv 1000

/-- A number below 100. -/
def twoDigits (n : ℕ) : List Char := [(n / 10).digitChar, (n % 10).digitChar]

theorem nat?_twoDigits {n : ℕ} (h : n < 100) : Numeral.nat? 10 (twoDigits n) = some n := by
  have hfirst : Numeral.digit? 10 (n / 10).digitChar = some (n / 10) :=
    Numeral.digit?_digitChar (by omega) (by decide)
  have hsecond : Numeral.digit? 10 (n % 10).digitChar = some (n % 10) :=
    Numeral.digit?_digitChar (by omega) (by decide)
  simp [Numeral.nat?, twoDigits, Numeral.push?, hfirst, hsecond, Nat.div_add_mod]

/-- The time of the day, in seconds. -/
def clock (t : ℕ) : List Char :=
  twoDigits (t / 3600) ++ ':' :: (twoDigits (t / 60 % 60) ++ ':' :: (twoDigits (t % 60) ++
    " GMT".toList))

/-- A time of the day is read. -/
def readClock (l : List Char) : Option ℕ := do
  let h ← Numeral.nat? 10 (l.take 2)
  let m ← Numeral.nat? 10 ((l.drop 3).take 2)
  let s ← Numeral.nat? 10 ((l.drop 6).take 2)
  return h * 3600 + m * 60 + s

theorem readClock_clock {t : ℕ} (h : t < 86400) : readClock (clock t) = some t := by
  have hhours : (clock t).take 2 = twoDigits (t / 3600) := rfl
  have hminutes : ((clock t).drop 3).take 2 = twoDigits (t / 60 % 60) := rfl
  have hseconds : ((clock t).drop 6).take 2 = twoDigits (t % 60) := rfl
  have hsplit : t / 3600 * 3600 + t / 60 % 60 * 60 + t % 60 = t := by omega
  rw [readClock, hhours, hminutes, hseconds, nat?_twoDigits (by omega), nat?_twoDigits (by omega),
    nat?_twoDigits (by omega)]
  simp [hsplit]

/-- The first day as `SimpleDateFormat` has it. The others have a number. -/
def day (d : ℕ) : List Char :=
  if d = 0 then "Thu, 01 Jan 1970 ".toList else Nat.toDigits 10 d ++ [' ']

/-- A day is read. -/
def readDay (l : List Char) : Option ℕ :=
  if l = "Thu, 01 Jan 1970 ".toList then some 0 else Numeral.nat? 10 l.dropLast

theorem readDay_day (d : ℕ) : readDay (day d) = some d := by
  rw [day]
  split
  next h => rw [readDay, if_pos rfl, h]
  next h =>
    have hne : Nat.toDigits 10 d ++ [' '] ≠ "Thu, 01 Jan 1970 ".toList := by
      intro heq
      have hmem : 'T' ∈ Nat.toDigits 10 d ++ [' '] := by rw [heq]; decide
      rcases List.mem_append.mp hmem with hmem | hmem
      · have hdigit := (Numeral.of_nat?_eq_some (Numeral.nat?_toDigits (by decide) (by decide) d)).2
          _ hmem
        revert hdigit
        decide
      · revert hmem
        decide
    rw [readDay, if_neg hne, List.dropLast_concat, Numeral.nat?_toDigits (by decide) (by decide)]

/-- Times as they are written on the first day of 1970. -/
def firstDay : DateFormat where
  format time :=
    let t := (time.tdiv 1000).toNat
    String.ofList (day (t / 86400) ++ clock (t % 86400))
  parse text := do
    let d ← readDay (text.toList.rdrop 12)
    let t ← readClock (text.toList.drop (text.toList.length - 12))
    return (d * 86400 + t : ℕ) * 1000
  format_ne time heq := by
    have hlength := congrArg (fun s : String => s.toList.length) heq
    simp [clock, twoDigits] at hlength
  parse_format {time} htime := by
    set t := (time.tdiv 1000).toNat with ht
    refine ⟨(t : ℤ) * 1000, ?_, ?_⟩
    · have hclock : (clock (t % 86400)).length = 12 := rfl
      have hdrop : (day (t / 86400) ++ clock (t % 86400)).drop
          ((day (t / 86400) ++ clock (t % 86400)).length - 12) = clock (t % 86400) := by
        rw [List.length_append, hclock, Nat.add_sub_cancel, List.drop_left]
      have hrdrop : (day (t / 86400) ++ clock (t % 86400)).rdrop 12 = day (t / 86400) := by
        rw [← hclock, List.rdrop_append_length]
      simp only [String.toList_ofList, hrdrop, hdrop, readDay_day,
        readClock_clock (Nat.mod_lt t (by decide)), Option.bind_eq_bind, Option.bind_some]
      rw [Nat.div_add_mod']
      rfl
    · have hnonneg : 0 ≤ time.tdiv 1000 := Int.tdiv_nonneg htime (by decide)
      rw [Int.mul_tdiv_cancel _ (by decide), ht, Int.toNat_of_nonneg hnonneg]

end HttpHandler

end Gwems
