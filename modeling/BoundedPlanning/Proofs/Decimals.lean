import BoundedPlanning.Json.Token
import Mathlib.Data.List.TakeWhile

namespace BoundedPlanning

/-- A run of characters with a property ends where something else follows. -/
theorem takeWhile_append_of_head {p : Char → Bool} {cs rest : List Char}
    (hcs : ∀ c ∈ cs, p c = true) (hrest : ∀ c ∈ rest.head?, p c = false) :
    (cs ++ rest).takeWhile p = cs ∧ (cs ++ rest).dropWhile p = rest := by
  rw [List.takeWhile_append_of_pos hcs, List.dropWhile_append_of_pos hcs]
  cases rest with
  | nil => simp
  | cons c rest => simp [hrest c rfl]

theorem toList_toString (n : Nat) : (toString n).toList = Nat.toDigits 10 n := by
  rw [Nat.toString_eq_ofList_toDigits, String.toList_ofList]

theorem isDigit_of_mem_toDigits {n : Nat} {c : Char} (h : c ∈ Nat.toDigits 10 n) :
    c.isDigit = true :=
  Nat.isDigit_of_mem_toDigits (by decide) (by decide) h

theorem exists_toDigits_eq_cons (n : Nat) :
    ∃ c rest, Nat.toDigits 10 n = c :: rest ∧ c.isDigit = true ∧
      ∀ d ∈ rest, d.isDigit = true := by
  obtain ⟨c, rest, hdigits⟩ := List.exists_cons_of_ne_nil (Nat.toDigits_ne_nil (n := n) (b := 10))
  refine ⟨c, rest, hdigits, ?_, fun d hd => ?_⟩
  · exact isDigit_of_mem_toDigits (hdigits ▸ List.mem_cons_self)
  · exact isDigit_of_mem_toDigits (hdigits ▸ List.mem_cons_of_mem _ hd)

/-- Only 0 is written with a zero in front. -/
theorem head?_toDigits_ne_zero {n : Nat} (h : n ≠ 0) : (Nat.toDigits 10 n).head? ≠ some '0' := by
  induction n using Nat.strongRecOn with
  | _ n ih =>
      rcases Nat.lt_or_ge n 10 with hlt | hge
      · rw [Nat.toDigits_of_lt_base hlt, List.head?_cons]
        simpa [Nat.digitChar_eq_zero] using h
      · obtain ⟨c, rest, hdigits, -⟩ := exists_toDigits_eq_cons (n / 10)
        have hhead := ih (n / 10) (by omega) (by omega)
        rw [hdigits, List.head?_cons] at hhead
        rw [Nat.toDigits_of_base_le (by decide) hge, hdigits, List.cons_append, List.head?_cons]
        exact hhead

theorem decimalValue_eq_ofDigitChars (digits : List Char) :
    decimalValue digits = Nat.ofDigitChars 10 digits 0 := by
  rw [Nat.ofDigitChars_eq_foldl, decimalValue]
  simp only [Nat.mul_comm]

@[simp] theorem decimalValue_toDigits (n : Nat) : decimalValue (Nat.toDigits 10 n) = n := by
  rw [decimalValue_eq_ofDigitChars, Nat.ofDigitChars_ten_toDigits]

theorem decimalValue_replicate_append (count : Nat) (digits : List Char) :
    decimalValue (List.replicate count '0' ++ digits) = decimalValue digits := by
  simp only [decimalValue_eq_ofDigitChars, Nat.ofDigitChars_append,
    Nat.ofDigitChars_replicate_zero, Nat.mul_zero]

theorem decimalValue_append_replicate (digits : List Char) (count : Nat) :
    decimalValue (digits ++ List.replicate count '0') =
      decimalValue digits * decimalValue ('1' :: List.replicate count '0') := by
  rw [← List.singleton_append]
  simp only [decimalValue_eq_ofDigitChars, Nat.ofDigitChars_append,
    Nat.ofDigitChars_replicate_zero]
  rw [Nat.mul_comm (Nat.ofDigitChars 10 digits 0)]
  exact congrArg (· * _) (Nat.mul_one _).symm

namespace JsonToken

theorem isNumberChar_of_isDigit {c : Char} (h : c.isDigit = true) : isNumberChar c = true := by
  simp [isNumberChar, h]

theorem afterDigits?_of_isDigit {c : Char} {rest : List Char} (hc : c.isDigit = true)
    (hrest : ∀ d ∈ rest, d.isDigit = true) : afterDigits? (c :: rest) = some [] := by
  have hdrop : rest.dropWhile Char.isDigit = [] := List.dropWhile_eq_nil_iff.mpr hrest
  rw [afterDigits?, if_pos hc, hdrop]

theorem isNumber_toDigits (n : Nat) : isNumber (Nat.toDigits 10 n) = true := by
  by_cases hn : n = 0
  · subst hn
    decide
  · obtain ⟨c, rest, hdigits, hc, hrest⟩ := exists_toDigits_eq_cons n
    have hzero : c ≠ '0' := by
      have hhead := head?_toDigits_ne_zero hn
      rw [hdigits, List.head?_cons] at hhead
      simpa using hhead
    have hinteger : afterInteger? (c :: rest) = afterDigits? (c :: rest) := by
      unfold afterInteger?
      split
      · simp_all
      · rfl
    have hminus : c ≠ '-' := by
      rintro rfl
      cases hc
    simp [isNumber, hdigits, hminus, hinteger, afterDigits?_of_isDigit hc hrest, afterFraction?,
      afterExponent?]

theorem ofNumber?_toDigits (n : Nat) : ofNumber? (Nat.toDigits 10 n) = some (.natural n) := by
  have hdigits : (Nat.toDigits 10 n).all Char.isDigit = true :=
    List.all_eq_true.mpr fun c => isDigit_of_mem_toDigits
  rw [ofNumber?, if_pos (isNumber_toDigits n), if_pos hdigits, decimalValue_toDigits]

end JsonToken

end BoundedPlanning
