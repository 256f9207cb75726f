-- How numbers and identifiers are spelled. A number is written in one way, and
-- is read off the front of a text just when it is written there and no digit
-- comes behind it. An identifier is told from a number at its first character.
import ShaderMorph.Number.Decimal
import ShaderMorph.Text.Identifier

namespace ShaderMorph

/-! ## Runs of characters -/

namespace Text

variable {p : Char → Bool} {run rest : List Char}

/-- A run is read up to where it ends. -/
theorem takeWhile_run (hrun : ∀ c ∈ run, p c = true) (hrest : ∀ c ∈ rest.head?, p c = false) :
    (run ++ rest).takeWhile p = run := by
  rw [List.takeWhile_append_of_pos hrun]
  cases rest with
  | nil => exact List.append_nil run
  | cons c rest =>
    rw [List.takeWhile_cons_of_neg (Bool.eq_false_iff.1 (hrest c rfl)), List.append_nil]

theorem dropWhile_run (hrun : ∀ c ∈ run, p c = true) (hrest : ∀ c ∈ rest.head?, p c = false) :
    (run ++ rest).dropWhile p = rest := by
  rw [List.dropWhile_append_of_pos hrun]
  cases rest with
  | nil => rfl
  | cons c rest => rw [List.dropWhile_cons_of_neg (Bool.eq_false_iff.1 (hrest c rfl))]

end Text

/-! ## Numbers -/

namespace Decimal

theorem digits_ne_nil (n : Nat) : digits n ≠ [] := Nat.toDigits_ne_nil

theorem isDigit_of_mem_digits {n : Nat} {c : Char} (h : c ∈ digits n) : c.isDigit = true :=
  Nat.isDigit_of_mem_toDigits (by decide) (by decide) h

theorem digitChar_value {c : Char} (h : c.isDigit = true) :
    Nat.digitChar (c.toNat - '0'.toNat) = c := by
  obtain ⟨hlow, hhigh⟩ := Char.isDigit_iff_toNat.1 h
  simp only [Char.reduceToNat] at hlow hhigh ⊢
  rw [← Char.toNat_inj, Nat.toNat_digitChar_of_lt_ten (by omega)]
  omega

/-- Only zero is written with a zero in front. -/
theorem head?_digits_ne_zero {n : Nat} (h : 0 < n) : (digits n).head? ≠ some '0' := by
  induction n using Nat.strongRecOn with
  | ind n ih =>
    rw [digits, Nat.toDigits_eq_if (by decide)]
    split
    · simpa [Nat.digitChar_eq_zero] using Nat.ne_of_gt h
    · have hhead := ih (n / 10) (by omega) (by omega)
      rw [digits] at hhead
      rwa [List.head?_append, Option.or_of_isSome]
      exact List.isSome_head?.2 Nat.toDigits_ne_nil

theorem hasLeadingZero_digits (n : Nat) : hasLeadingZero (digits n) = false := by
  rcases Nat.eq_zero_or_pos n with rfl | hn
  · rfl
  · have hhead := head?_digits_ne_zero hn
    unfold hasLeadingZero
    split
    · next heq => simp [heq] at hhead
    · rfl

/-- Digits that are added behind a number continue its digits. -/
theorem digits_append {text : List Char} (h : ∀ c ∈ text, c.isDigit = true) {n : Nat}
    (hn : 0 < n) : digits n ++ text = digits (Nat.ofDigitChars 10 text n) := by
  induction text generalizing n with
  | nil => simp
  | cons c text ih =>
    obtain ⟨hc, htext⟩ := List.forall_mem_cons.1 h
    obtain ⟨-, hhigh⟩ := Char.isDigit_iff_toNat.1 hc
    simp only [Char.reduceToNat] at hhigh
    have hvalue : c.toNat - '0'.toNat < 10 := by
      simp only [Char.reduceToNat]
      omega
    have hlast : digits n ++ [c] = digits (10 * n + (c.toNat - '0'.toNat)) := by
      rw [digits, digits, ← Nat.toDigits_append_toDigits (by decide) hn hvalue,
        Nat.toDigits_of_lt_base hvalue, digitChar_value hc]
    rw [Nat.ofDigitChars_cons, ← ih htext (by omega), ← hlast]
    simp

/-- A number is written again as it was read. -/
theorem digits_valueIn {text : List Char} (hne : text ≠ []) (h : ∀ c ∈ text, c.isDigit = true)
    (hzero : hasLeadingZero text = false) : digits (valueIn 10 text) = text := by
  cases text with
  | nil => exact absurd rfl hne
  | cons c text =>
    obtain ⟨hc, htext⟩ := List.forall_mem_cons.1 h
    have hfirst : digits (c.toNat - '0'.toNat) = [c] := by
      obtain ⟨-, hhigh⟩ := Char.isDigit_iff_toNat.1 hc
      simp only [Char.reduceToNat] at hhigh ⊢
      rw [digits, Nat.toDigits_of_lt_base (by omega)]
      simpa using digitChar_value hc
    rw [valueIn, Nat.ofDigitChars_cons, Nat.mul_zero, Nat.zero_add]
    by_cases hpos : 0 < c.toNat - '0'.toNat
    · rw [← digits_append htext hpos, hfirst]
      rfl
    · have hc0 : c = '0' := by
        rw [← digitChar_value hc, Nat.eq_zero_of_not_pos hpos]
        rfl
      cases text with
      | nil => exact hfirst
      | cons d text =>
        subst hc0
        cases hzero

/-! ### Zeros in front -/

/-- A number with zeros in front of its digits. -/
def padded (zeros n : Nat) : List Char := List.replicate zeros '0' ++ digits n

theorem padded_zero (n : Nat) : padded 0 n = digits n := rfl

theorem padded_succ (zeros n : Nat) : padded (zeros + 1) n = '0' :: padded zeros n := rfl

theorem padded_ne_nil (zeros n : Nat) : padded zeros n ≠ [] :=
  List.append_ne_nil_of_right_ne_nil _ (digits_ne_nil n)

theorem isDigit_of_mem_padded {zeros n : Nat} {c : Char} (h : c ∈ padded zeros n) :
    c.isDigit = true := by
  rcases List.mem_append.1 h with h | h
  · rw [List.eq_of_mem_replicate h]
    rfl
  · exact isDigit_of_mem_digits h

theorem valueIn_padded (zeros n : Nat) : valueIn 10 (padded zeros n) = n := by
  induction zeros with
  | zero => exact valueIn_digits n
  | succ zeros ih =>
    rw [padded_succ, valueIn, Nat.ofDigitChars_cons]
    exact ih

/-- Zeros in front of a number are passed over when it is read, and nothing
else is. -/
theorem readDigits?_eq_some {text : List Char} {n : Nat} :
    readDigits? text = some n ↔ ∃ zeros, text = padded zeros n := by
  constructor
  · intro h
    obtain ⟨⟨hne, hdigits⟩, hvalue⟩ := Option.ite_none_right_eq_some.1 h
    obtain rfl := Option.some.inj hvalue
    rw [List.all_eq_true] at hdigits
    clear h hvalue
    induction text with
    | nil => exact absurd rfl hne
    | cons c text ih =>
      cases hzero : hasLeadingZero (c :: text) with
      | false => exact ⟨0, (digits_valueIn hne hdigits hzero).symm⟩
      | true =>
        obtain ⟨rfl, hrest⟩ : c = '0' ∧ text ≠ [] := by
          unfold hasLeadingZero at hzero
          split at hzero
          · next heq =>
            obtain ⟨rfl, rfl⟩ := List.cons.inj heq
            exact ⟨rfl, List.cons_ne_nil _ _⟩
          · cases hzero
        obtain ⟨zeros, htext⟩ := ih hrest (List.forall_mem_cons.1 hdigits).2
        have hvalue : valueIn 10 ('0' :: text) = valueIn 10 text := by
          rw [valueIn, Nat.ofDigitChars_cons]
          rfl
        rw [hvalue]
        exact ⟨zeros + 1, congrArg ('0' :: ·) htext⟩
  · rintro ⟨zeros, rfl⟩
    have hdigits : (padded zeros n).all Char.isDigit = true :=
      List.all_eq_true.2 fun c hc => isDigit_of_mem_padded hc
    rw [readDigits?, if_pos ⟨padded_ne_nil zeros n, hdigits⟩, valueIn_padded]

/-! ### The front of a text -/

/-- No digit stands at the front of a text. -/
def Ends (text : List Char) : Prop := ∀ c ∈ text.head?, c.isDigit = false

theorem ends_cons {c : Char} {text : List Char} : Ends (c :: text) ↔ c.isDigit = false := by
  simp [Ends]

/-- What is read off the front of a text is what is written there, up to the
last digit. -/
theorem readFront?_eq_some {text rest : List Char} {n : Nat} :
    readFront? text = some (n, rest) ↔ text = digits n ++ rest ∧ Ends rest := by
  unfold readFront?
  constructor
  · intro h
    dsimp only at h
    split at h
    · cases h
    · next hrun =>
      obtain ⟨hne, hzero⟩ := not_or.1 hrun
      simp only [Option.some.injEq, Prod.mk.injEq] at h
      obtain ⟨rfl, rfl⟩ := h
      have hdigits : ∀ c ∈ text.takeWhile Char.isDigit, c.isDigit = true :=
        List.all_eq_true.1 List.all_takeWhile
      rw [digits_valueIn hne hdigits (by simpa using hzero), List.takeWhile_append_dropWhile]
      refine ⟨rfl, fun c hc => ?_⟩
      have hstop := List.head?_dropWhile_not Char.isDigit text
      rw [Option.mem_def.1 hc] at hstop
      exact hstop
  · rintro ⟨rfl, hends⟩
    have hdigits : ∀ c ∈ digits n, c.isDigit = true := fun c hc => isDigit_of_mem_digits hc
    rw [Text.takeWhile_run hdigits hends, Text.dropWhile_run hdigits hends]
    simp [digits_ne_nil, hasLeadingZero_digits, valueIn_digits]

end Decimal

/-! ## Identifiers -/

namespace Text

theorem isDigit_of_startsIdentifier {c : Char} (h : startsIdentifier c = true) :
    c.isDigit = false := by
  refine Bool.eq_false_iff.2 fun hdigit => ?_
  obtain ⟨-, hhigh⟩ := Char.isDigit_iff_toNat.1 hdigit
  change (decide (c.val ≥ 'A'.val ∧ c.val ≤ 'Z'.val) ||
    (decide (c.val ≥ 'a'.val) && decide (c.val ≤ 'z'.val)) || c == '_') = true at h
  simp only [Bool.or_eq_true, Bool.and_eq_true, decide_eq_true_eq, beq_iff_eq] at h
  rcases h with (⟨hlow, -⟩ | ⟨hlow, -⟩) | rfl
  · exact absurd (Nat.le_trans hlow hhigh) (by decide)
  · exact absurd (Nat.le_trans hlow hhigh) (by decide)
  · exact absurd hhigh (by decide)

theorem continuesIdentifier_of_isDigit {c : Char} (h : c.isDigit = true) :
    continuesIdentifier c = true := by
  simp [continuesIdentifier, Char.isAlphanum, h]

theorem forall_of_isIdentifier {name : List Char} (h : isIdentifier name = true) :
    ∀ c ∈ name, continuesIdentifier c = true := by
  cases name with
  | nil => cases h
  | cons c name =>
    rw [isIdentifier, Bool.and_eq_true, List.all_eq_true] at h
    refine List.forall_mem_cons.2 ⟨?_, h.2⟩
    have hstart := h.1
    rw [startsIdentifier, Bool.or_eq_true] at hstart
    rcases hstart with hletter | hbar
    · simp [continuesIdentifier, Char.isAlphanum, hletter]
    · rw [continuesIdentifier, hbar, Bool.or_true]

theorem ne_nil_of_isIdentifier {name : List Char} (h : isIdentifier name = true) :
    name ≠ [] := by
  rintro rfl
  cases h

/-- An identifier is told from a number at its first character. -/
theorem ends_of_isIdentifier {name : List Char} (h : isIdentifier name = true)
    (rest : List Char) : Decimal.Ends (name ++ rest) := by
  cases name with
  | nil => cases h
  | cons c name =>
    rw [isIdentifier, Bool.and_eq_true] at h
    exact Decimal.ends_cons.2 (isDigit_of_startsIdentifier h.1)

end Text

end ShaderMorph
