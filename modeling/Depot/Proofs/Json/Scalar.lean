import Depot.Json.Reader
import Depot.Json.Text
import Mathlib.Data.List.Basic

/-!
# Strings and numbers in JSON text

What is written for a string or a natural number is read as just that, whatever text comes behind
it; behind a number there may only be what cannot go on with it (`EndsNumber`).

* A character is written in one of three ways (`escape_cases`), and each of them is read as the
  character (`stringBody_escape`), since no way of writing is the beginning of another one.
* The digits of a number are taken one by one as long as the value fits (`takeDigits_append`). The
  values on the way are no larger than the last one, so a number that fits is taken as a whole.
-/

namespace Depot.Json

/-! ## Strings -/

/-- A character is written with a short escape, with four digits, or as it is. -/
theorem escape_cases (c : Char) :
    (∃ letter, letter ≠ 'u' ∧ shortEscape? letter = some c ∧ escape c = ['\\', letter]) ∨
      (c.toNat < 0x20 ∧
        escape c = ['\\', 'u', '0', '0', hexDigit (c.toNat / 16), hexDigit c.toNat]) ∨
      c ≠ '"' ∧ c ≠ '\\' ∧ 0x20 ≤ c.toNat ∧ escape c = [c] := by
  by_cases hshort : c ∈ ['"', '\\', '\x08', '\x0c', '\n', '\r', '\t']
  · simp only [List.mem_cons, List.not_mem_nil, or_false] at hshort
    rcases hshort with rfl | rfl | rfl | rfl | rfl | rfl | rfl <;>
      exact .inl ⟨_, by decide, rfl, rfl⟩
  · simp only [List.mem_cons, List.not_mem_nil, or_false, not_or] at hshort
    by_cases hcontrol : c.toNat < 0x20
    · exact .inr (.inl ⟨hcontrol, by simp [escape, hshort, hcontrol]⟩)
    · exact .inr (.inr ⟨hshort.1, hshort.2.1, Nat.le_of_not_lt hcontrol,
        by simp [escape, hshort, hcontrol]⟩)

theorem hexValue4?_hexDigit :
    ∀ n < 0x20, hexValue4? '0' '0' (hexDigit (n / 16)) (hexDigit n) = some n := by
  decide

/-- A character is read as it is written. -/
theorem stringBody_escape (c : Char) (rest : List Char) :
    stringBody (escape c ++ rest) = consChar c (stringBody rest) := by
  obtain ⟨letter, hletter, hshort, he⟩ | ⟨hcontrol, he⟩ | ⟨hquote, hslash, hplain, he⟩ :=
    escape_cases c
  · simp [he, stringBody, hletter, hshort]
  · have hlow : isLowSurrogate c.toNat = false := by simp [isLowSurrogate]; omega
    have hhigh : isHighSurrogate c.toNat = false := by simp [isHighSurrogate]; omega
    simp [he, stringBody, hexValue4?_hexDigit _ hcontrol, hlow, hhigh]
  · simp [he, stringBody, hslash, Nat.not_lt.mpr hplain]

theorem stringBody_quote (cs rest : List Char) :
    stringBody (cs.flatMap escape ++ '"' :: rest) = .ok (cs, rest) := by
  induction cs with
  | nil => rfl
  | cons c cs ih =>
    rw [List.flatMap_cons, List.append_assoc, stringBody_escape, ih]
    rfl

theorem quote_append (s : String) (rest : List Char) :
    quote s ++ rest = '"' :: (s.toList.flatMap escape ++ '"' :: rest) := by
  simp [quote]

theorem stringValue_quote (s : String) (rest : List Char) :
    stringValue (quote s ++ rest) = .ok (s, rest) := by
  rw [quote_append]
  change (stringBody _).map _ = _
  rw [stringBody_quote]
  exact congrArg (fun t => Except.ok (t, rest)) String.ofList_toList

/-! ## Numbers -/

/-- What does not go on with a number. -/
def EndsNumber (rest : List Char) : Prop :=
  ∀ c ∈ rest.head?, c.isDigit = false ∧ c ≠ '.' ∧ c ≠ 'e' ∧ c ≠ 'E'

theorem le_ofDigitChars (ds : List Char) (s : Nat) : s ≤ Nat.ofDigitChars 10 ds s := by
  rw [Nat.ofDigitChars_eq_ofDigitChars_zero]
  exact Nat.le_trans (Nat.le_mul_of_pos_left s (Nat.pow_pos (by decide))) (Nat.le_add_right _ _)

/-- Digits are taken as a whole if their value fits. -/
theorem takeDigits_append {ds rest : List Char} {s : Nat} (hdigits : ∀ c ∈ ds, c.isDigit = true)
    (hfits : Nat.ofDigitChars 10 ds s < UInt64.size) (hrest : EndsNumber rest) :
    takeDigits s (ds ++ rest) = (Nat.ofDigitChars 10 ds s, ds.length, rest) := by
  induction ds generalizing s with
  | nil =>
    cases rest with
    | nil => rfl
    | cons c cs => simp [takeDigits, (hrest c rfl).1]
  | cons d ds ih =>
    obtain ⟨hd, hds⟩ := List.forall_mem_cons.mp hdigits
    have hvalue : Nat.ofDigitChars 10 (d :: ds) s
        = Nat.ofDigitChars 10 ds (s * 10 + digitValue d) := by
      rw [Nat.ofDigitChars_cons, Nat.mul_comm]
      rfl
    rw [hvalue] at hfits ⊢
    have hhere : s * 10 + digitValue d < UInt64.size :=
      Nat.lt_of_le_of_lt (le_ofDigitChars ds _) hfits
    rw [List.cons_append, takeDigits, if_pos ⟨hd, hhere⟩, ih hds hfits]
    rfl

theorem digits_eq (n : Nat) : digits n = Nat.toDigits 10 n :=
  Nat.toList_repr

theorem isDigit_of_mem_digits {n : Nat} {c : Char} (h : c ∈ digits n) : c.isDigit = true :=
  Nat.isDigit_of_mem_toDigits (b := 10) (by decide) (by decide) (digits_eq n ▸ h)

/-- No number but zero is written with a zero in front. -/
theorem head_digits_ne_zero {n : Nat} (h : 0 < n) : (digits n).head? ≠ some '0' := by
  rw [digits_eq]
  induction n using Nat.strongRecOn with
  | ind n ih =>
    rw [Nat.toDigits_eq_if (by decide)]
    split
    · next hlt =>
      have hone : ∀ k < 10, 0 < k → [k.digitChar].head? ≠ some '0' := by decide
      exact hone n hlt h
    · next hge =>
      rw [List.head?_append_of_ne_nil _ Nat.toDigits_ne_nil]
      exact ih (n / 10) (by omega) (by omega)

/-- A number begins with a digit, which is no zero if the number is none. -/
theorem exists_digits_eq_cons (n : Nat) :
    ∃ d ds, digits n = d :: ds ∧ d.isDigit = true ∧ (0 < n → d ≠ '0') := by
  cases hd : digits n with
  | nil => exact absurd (digits_eq n ▸ hd) Nat.toDigits_ne_nil
  | cons d ds =>
    have hdigit : d.isDigit = true := isDigit_of_mem_digits (hd ▸ List.mem_cons_self)
    refine ⟨d, ds, rfl, hdigit, fun hpos he => head_digits_ne_zero hpos ?_⟩
    rw [hd, he, List.head?_cons]

theorem afterWhole_of_ends {rest : List Char} (n : Nat) (h : EndsNumber rest) :
    afterWhole false n rest = .ok (.natural (UInt64.ofNat n), rest) := by
  cases rest with
  | nil => rfl
  | cons c cs =>
    obtain ⟨-, hpoint, he, hE⟩ := h c rfl
    simp [afterWhole, hpoint, he, hE]

theorem number_digits {n : Nat} {rest : List Char} (hfits : n < UInt64.size)
    (hrest : EndsNumber rest) :
    number false (digits n ++ rest) = .ok (.natural (UInt64.ofNat n), rest) := by
  obtain rfl | hpos := Nat.eq_zero_or_pos n
  · cases rest with
    | nil => rfl
    | cons c cs =>
      have hzero : number false ('0' :: c :: cs)
          = if c.isDigit then .error .malformed else afterWhole false 0 (c :: cs) := rfl
      rw [show digits 0 = ['0'] from rfl, List.singleton_append, hzero, (hrest c rfl).1,
        if_neg Bool.false_ne_true, afterWhole_of_ends 0 hrest]
  · have htake : takeDigits 0 (digits n ++ rest) = (n, (digits n).length, rest) := by
      have hvalue : Nat.ofDigitChars 10 (digits n) 0 = n :=
        (digits_eq n).symm ▸ Nat.ofDigitChars_ten_toDigits
      rw [takeDigits_append (fun c => isDigit_of_mem_digits) (hvalue.symm ▸ hfits) hrest, hvalue]
    obtain ⟨d, ds, hd, hdigit, hne⟩ := exists_digits_eq_cons n
    rw [hd, List.cons_append] at htake ⊢
    rw [number, if_pos hdigit, htake]
    · cases rest with
      | nil => exact afterWhole_of_ends n hrest
      | cons c cs => simp [(hrest c rfl).1, afterWhole_of_ends n hrest]
    · exact hne hpos

/-- A digit neither stands between two tokens nor is a sign. -/
theorem digit_begins {d : Char} (h : d.isDigit = true) : isBlank d = false ∧ d ≠ '-' := by
  have hsign : d ≠ '-' := by rintro rfl; revert h; decide
  have hspace : d ≠ ' ' := by rintro rfl; revert h; decide
  have hline : d ≠ '\n' := by rintro rfl; revert h; decide
  have htab : d ≠ '\t' := by rintro rfl; revert h; decide
  have hreturn : d ≠ '\r' := by rintro rfl; revert h; decide
  exact ⟨by simp [isBlank, hspace, hline, htab, hreturn], hsign⟩

theorem naturalValue_digits {n : Nat} {rest : List Char} (hfits : n < UInt64.size)
    (hrest : EndsNumber rest) :
    naturalValue (digits n ++ rest) = .ok (UInt64.ofNat n, rest) := by
  obtain ⟨d, ds, hd, hdigit, -⟩ := exists_digits_eq_cons n
  obtain ⟨hblank, hsign⟩ := digit_begins hdigit
  have hnumber := number_digits hfits hrest
  have hskip : skipBlank (d :: (ds ++ rest)) = d :: (ds ++ rest) :=
    List.dropWhile_cons_of_neg (by simp [hblank])
  rw [hd, List.cons_append] at hnumber ⊢
  simp only [naturalValue, hskip]
  rw [if_pos hdigit, hnumber]
  rfl

end Depot.Json
