import BoundedPlanning.Calendar.Timestamp
import BoundedPlanning.Proofs.Decimals

namespace BoundedPlanning

theorem isBlankChar_of_isDigit {c : Char} (h : c.isDigit = true) : isBlankChar c = false := by
  rw [Char.isDigit_iff_toNat] at h
  simp [isBlankChar, blankRanges] at h ⊢
  omega

theorem daysInMonth_le (year : Int) (month : Nat) : daysInMonth year month ≤ 31 := by
  unfold daysInMonth
  repeat' split
  all_goals omega

namespace Timestamp

variable {width n : Nat} {rest : List Char}

/-! ### Numbers of a fixed width -/

theorem length_toDigits_of_lt_100 (h : n < 100) : (Nat.toDigits 10 n).length ≤ 2 :=
  (Nat.length_toDigits_le_iff (by decide) (by decide)).mpr (by omega)

theorem padded_eq (width n : Nat) :
    padded width n =
      List.replicate (width - (Nat.toDigits 10 n).length) '0' ++ Nat.toDigits 10 n := by
  rw [padded, toList_toString]

theorem length_padded (h : (Nat.toDigits 10 n).length ≤ width) : (padded width n).length = width := by
  rw [padded_eq, List.length_append, List.length_replicate]
  omega

theorem isDigit_of_mem_padded {c : Char} (h : c ∈ padded width n) : c.isDigit = true := by
  rw [padded_eq, List.mem_append] at h
  rcases h with hzero | hdigit
  · rw [List.eq_of_mem_replicate hzero]
    decide
  · exact isDigit_of_mem_toDigits hdigit

theorem decimalValue_padded (width n : Nat) : decimalValue (padded width n) = n := by
  rw [padded_eq, decimalValue_replicate_append, decimalValue_toDigits]

theorem exists_padded_eq_cons (width n : Nat) :
    ∃ c tail, padded width n = c :: tail ∧ c.isDigit = true := by
  have hne : padded width n ≠ [] := by
    rw [padded_eq]
    exact List.append_ne_nil_of_right_ne_nil _ Nat.toDigits_ne_nil
  obtain ⟨c, tail, hpadded⟩ := List.exists_cons_of_ne_nil hne
  exact ⟨c, tail, hpadded, isDigit_of_mem_padded (hpadded ▸ List.mem_cons_self)⟩

theorem skipBlanks_padded : skipBlanks (padded width n ++ rest) = padded width n ++ rest := by
  obtain ⟨c, tail, hpadded, hc⟩ := exists_padded_eq_cons width n
  rw [hpadded, List.cons_append, skipBlanks, List.dropWhile_cons_of_neg]
  simp [isBlankChar_of_isDigit hc]

theorem scanNumber_padded (h : (Nat.toDigits 10 n).length ≤ width) :
    scanNumber width (padded width n ++ rest) = some (n, rest) := by
  have hdigits : ((padded width n ++ rest).take width).takeWhile Char.isDigit = padded width n := by
    rw [List.take_left' (length_padded h)]
    exact List.takeWhile_eq_self_iff.mpr fun c => isDigit_of_mem_padded
  obtain ⟨c, tail, hpadded, -⟩ := exists_padded_eq_cons width n
  have hempty : (padded width n).isEmpty = false := by simp [hpadded]
  simp only [scanNumber, hdigits, hempty, decimalValue_padded, List.drop_left]
  simp

theorem scanField_padded (h : (Nat.toDigits 10 n).length ≤ width) :
    scanField width (padded width n ++ rest) = some (n, rest) := by
  rw [scanField, skipBlanks_padded, scanNumber_padded h]

theorem scanYear_yearChars {year : Int} (h : 0 ≤ year) (h' : year ≤ 9999) :
    scanYear (yearChars year ++ rest) = some (year, rest) := by
  obtain ⟨n, rfl⟩ := Int.eq_ofNat_of_zero_le h
  have hdigits : (Nat.toDigits 10 n).length ≤ 4 :=
    (Nat.length_toDigits_le_iff (by decide) (by decide)).mpr (by omega)
  have hnumber : scanNumber 4 (padded 4 n ++ rest) = some (n, rest) := scanNumber_padded hdigits
  obtain ⟨c, tail, hpadded, hc⟩ := exists_padded_eq_cons 4 n
  have hminus : c ≠ '-' := by
    rintro rfl
    cases hc
  have hplus : c ≠ '+' := by
    rintro rfl
    cases hc
  rw [yearChars, if_pos ⟨h, h'⟩, Int.toNat_natCast, scanYear, skipBlanks_padded]
  rw [hpadded, List.cons_append] at hnumber ⊢
  split
  · simp_all
  · simp_all
  · rw [hnumber]
    rfl

/-! ### The parts -/

theorem scanDate_written {date : Date} (h : 0 ≤ date.year) (h' : date.year ≤ 9999) :
    scanDate (yearChars date.year ++ '-' :: (padded 2 date.month ++ '-' :: (padded 2 date.day ++
      rest))) = some (date, rest) := by
  have hmonth : (Nat.toDigits 10 date.month).length ≤ 2 :=
    length_toDigits_of_lt_100 (by have := date.month_bounds; omega)
  have hday : (Nat.toDigits 10 date.day).length ≤ 2 := by
    apply length_toDigits_of_lt_100
    have := date.day_le
    have := daysInMonth_le date.year date.month
    omega
  have hknown : isKnownYear date.year = true := by
    simp only [isKnownYear, Bool.and_eq_true, decide_eq_true_eq]
    omega
  have hsign : ∀ cs, scanSign '-' ('-' :: cs) = some cs := fun cs => rfl
  have hdate : Date.ofNumbers? date.year date.month date.day = some date :=
    dif_pos ⟨date.day_pos, date.day_le⟩
  simp only [scanDate, scanYear_yearChars h h', hsign, scanField_padded hmonth,
    scanField_padded hday, hknown, hdate, Option.bind_eq_bind, Option.bind_some, if_true]
  rfl

theorem scanFraction_padded (h : (Nat.toDigits 10 n).length ≤ width) (hwidth : width ≤ 9) :
    scanFraction ('.' :: (padded width n ++ 'Z' :: rest)) =
      some (n * decimalValue ('1' :: List.replicate (9 - width) '0'), 'Z' :: rest) := by
  have hlength := length_padded h
  have hafter : ∀ c ∈ (('Z' :: rest).take (9 - width)).head?, c.isDigit = false := by
    cases 9 - width with
    | zero => simp
    | succ count => simp
  have hdigits : ((padded width n ++ 'Z' :: rest).take 9).takeWhile Char.isDigit =
      padded width n := by
    rw [List.take_append, List.take_of_length_le (by omega), hlength]
    exact (takeWhile_append_of_head (fun c => isDigit_of_mem_padded) hafter).1
  obtain ⟨c, tail, hpadded, -⟩ := exists_padded_eq_cons width n
  have hempty : (padded width n).isEmpty = false := by simp [hpadded]
  have hdrop : (padded width n ++ 'Z' :: rest).drop width = 'Z' :: rest := by
    rw [List.drop_left' hlength]
  have hvalue := decimalValue_append_replicate (padded width n) (9 - width)
  rw [decimalValue_padded] at hvalue
  simp only [scanFraction, hdigits, hempty, hlength, hdrop, hvalue]
  rfl

theorem scanFraction_fractionChars {nano : Nat} (h : nano < 1000000000) :
    scanFraction (fractionChars nano ++ 'Z' :: rest) = some (nano, 'Z' :: rest) := by
  have hthree : decimalValue ('1' :: List.replicate (9 - 3) '0') = 1000000 := by decide
  have hsix : decimalValue ('1' :: List.replicate (9 - 6) '0') = 1000 := by decide
  have hnine : decimalValue ('1' :: List.replicate (9 - 9) '0') = 1 := by decide
  unfold fractionChars
  split
  · rename_i hzero
    subst hzero
    rfl
  split
  · have hlength : (Nat.toDigits 10 (nano / 1000000)).length ≤ 3 :=
      (Nat.length_toDigits_le_iff (by decide) (by decide)).mpr (by omega)
    rw [List.cons_append, scanFraction_padded hlength (by decide), hthree]
    congr 2
    omega
  split
  · have hlength : (Nat.toDigits 10 (nano / 1000)).length ≤ 6 :=
      (Nat.length_toDigits_le_iff (by decide) (by decide)).mpr (by omega)
    rw [List.cons_append, scanFraction_padded hlength (by decide), hsix]
    congr 2
    omega
  · have hlength : (Nat.toDigits 10 nano).length ≤ 9 :=
      (Nat.length_toDigits_le_iff (by decide) (by decide)).mpr (by omega)
    rw [List.cons_append, scanFraction_padded hlength (by decide), hnine, Nat.mul_one]

/-- The second that is written is 60 in a leap second. -/
def writtenSecond (time : TimeOfDay) : Nat :=
  if decide (1000000000 ≤ time.nano) then time.second + 1 else time.second

theorem ofNumbers?_written (time : TimeOfDay) :
    TimeOfDay.ofNumbers? time.hour time.minute (writtenSecond time) (time.nano % 1000000000) =
      some time := by
  obtain ⟨hour, minute, second, nano, hhour, hminute, hsecond, hnano⟩ := time
  unfold writtenSecond TimeOfDay.ofNumbers?
  by_cases hleap : 1000000000 ≤ nano
  · obtain rfl : second = 59 := by
      split at hnano <;> omega
    have hshift : nano % 1000000000 + 1000000000 = nano := by
      rw [if_pos rfl] at hnano
      omega
    simp only [hleap, decide_true, if_true, hshift]
    exact dif_pos ⟨hhour, hminute, hsecond, hnano⟩
  · have hbelow : nano % 1000000000 = nano := Nat.mod_eq_of_lt (by omega)
    have hne : second ≠ 60 := by omega
    simp only [hleap, decide_false, Bool.false_eq_true, if_false, hne, hbelow]
    exact dif_pos ⟨hhour, hminute, hsecond, hnano⟩

theorem scanTime_written (time : TimeOfDay) :
    scanTime (padded 2 time.hour ++ ':' :: (padded 2 time.minute ++ ':' ::
      (padded 2 (writtenSecond time) ++ (fractionChars (time.nano % 1000000000) ++ 'Z' :: rest)))) =
      some (time, 'Z' :: rest) := by
  have hhour : (Nat.toDigits 10 time.hour).length ≤ 2 :=
    length_toDigits_of_lt_100 (by have := time.hour_lt; omega)
  have hminute : (Nat.toDigits 10 time.minute).length ≤ 2 :=
    length_toDigits_of_lt_100 (by have := time.minute_lt; omega)
  have hsecond : (Nat.toDigits 10 (writtenSecond time)).length ≤ 2 := by
    apply length_toDigits_of_lt_100
    have := time.second_lt
    unfold writtenSecond
    split <;> omega
  have hsign : ∀ cs, scanSign ':' (':' :: cs) = some cs := fun cs => rfl
  have hnano : time.nano % 1000000000 < 1000000000 := by omega
  simp only [scanTime, scanField_padded hhour, hsign, scanField_padded hminute,
    scanField_padded hsecond, scanFraction_fractionChars hnano, ofNumbers?_written,
    Option.bind_eq_bind, Option.bind_some]
  rfl

theorem ofLocal_zero (date : Date) (time : TimeOfDay) : ofLocal date time 0 = ⟨date, time⟩ := by
  obtain ⟨hour, minute, second, nano, hhour, hminute, hsecond, hnano⟩ := time
  have hbefore : ¬ ((hour * 60 + minute : Int) - 0 < 0) := by omega
  have hafter : ¬ (1440 ≤ (hour * 60 + minute : Int) - 0) := by omega
  have hminutes : (((hour * 60 + minute : Int) - 0) % 1440).toNat = hour * 60 + minute := by omega
  have hhours : (hour * 60 + minute) / 60 % 24 = hour := by omega
  have hrest : (hour * 60 + minute) % 60 = minute := by omega
  simp only [ofLocal, hbefore, hafter, if_false, hminutes, TimeOfDay.withMinutes, hhours, hrest]

theorem ofText?_text {stamp : Timestamp} (h : 0 ≤ stamp.date.year) (h' : stamp.date.year ≤ 9999) :
    ofText? stamp.text = some stamp := by
  have hchars : stamp.chars = yearChars stamp.date.year ++ '-' :: (padded 2 stamp.date.month ++
      '-' :: (padded 2 stamp.date.day ++ ('T' :: (padded 2 stamp.time.hour ++ ':' ::
      (padded 2 stamp.time.minute ++ ':' :: (padded 2 (writtenSecond stamp.time) ++
      (fractionChars (stamp.time.nano % 1000000000) ++ 'Z' :: []))))))) := by
    simp [chars, writtenSecond]
  have hend : ∀ cs, scanDateEnd ('T' :: cs) = some cs := fun cs => rfl
  have hoffset : scanOffset (skipBlanks ['Z']) = some (0, []) := by decide
  have hknown : isKnownYear stamp.date.year = true := by
    simp only [isKnownYear, Bool.and_eq_true, decide_eq_true_eq]
    omega
  rw [ofText?, text, String.toList_ofList, hchars, ofChars?]
  simp only [scanDate_written h h', hend, scanTime_written, hoffset, ofLocal_zero, hknown,
    Option.bind_eq_bind, Option.bind_some]
  rfl

end Timestamp

end BoundedPlanning
