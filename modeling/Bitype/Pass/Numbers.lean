import Mathlib.Algebra.Order.Group.Int
import Mathlib.Data.List.TakeWhile
import Bitype.Tool.Text

/-!
# Numbers in text

The pass reads a number with `StringRef::getAsInteger`, the front end with `std::stoi`.
The first wants nothing but the number, the second skips blanks before it, takes a plus
sign and ignores what follows.  What the first reads, the second reads as well
(`stoi_of_getAsInteger`), and both read what an output stream writes.
-/

namespace Bitype.Pass

open Bitype.Tool

/-! ## `getAsInteger` -/

/-- The loop of `consumeUnsignedInteger` with radix ten. -/
def consumeDigits : ℕ → Name → Option (ℕ × Name)
  | result, [] => some (result, [])
  | prevResult, c :: str =>
      if c.isDigit then
        let result := (10 * prevResult + (c.toNat - '0'.toNat)) % 2 ^ 64
        if result / 10 < prevResult then none else consumeDigits result str
      else some (prevResult, c :: str)

/-- `consumeUnsignedInteger` with radix ten. -/
def consumeUnsignedInteger (str : Name) : Option (ℕ × Name) :=
  match consumeDigits 0 str with
  | none => none
  | some (result, str2) => if str.length = str2.length then none else some (result, str2)

/-- `consumeSignedInteger`.  The comparisons are those of the values as `long long`. -/
def consumeSignedInteger : Name → Option (ℤ × Name)
  | '-' :: str2 =>
      match consumeUnsignedInteger str2 with
      | none => none
      | some (value, rest) => if 2 ^ 63 < value then none else some (-value, rest)
  | str =>
      match consumeUnsignedInteger str with
      | none => none
      | some (value, rest) => if 2 ^ 63 ≤ value then none else some (value, rest)

/-- A value of type `int`. -/
def IsInt (value : ℤ) : Prop := -2 ^ 31 ≤ value ∧ value < 2 ^ 31

instance (value : ℤ) : Decidable (IsInt value) := inferInstanceAs (Decidable (_ ∧ _))

/-- `getAsInteger` for an `int`: the whole string is the number. -/
def getAsInteger (str : Name) : Option ℤ :=
  match consumeSignedInteger str with
  | some (value, []) => if IsInt value then some value else none
  | _ => none

/-! ## `stoi` -/

/-- `isspace`. -/
def isSpace (c : Char) : Bool :=
  c = ' ' || (9 ≤ c.toNat && c.toNat ≤ 13)

/-- The sign and the digits `strtol` finds. -/
def signedDigits : Name → Bool × Name
  | '-' :: str => (true, str.takeWhile Char.isDigit)
  | '+' :: str => (false, str.takeWhile Char.isDigit)
  | str => (false, str.takeWhile Char.isDigit)

/-- `std::stoi`; it throws when there is no number or the number is no `int`. -/
def stoi (str : Name) : Option ℤ :=
  let (negative, digits) := signedDigits (str.dropWhile isSpace)
  if digits = [] then none
  else
    let magnitude : ℤ := Nat.ofDigitChars 10 digits 0
    let value := if negative then -magnitude else magnitude
    if IsInt value then some value else none

/-! ## What they read -/

/-- A decimal number without a sign. -/
def Digits (str : Name) : Prop := str ≠ [] ∧ ∀ c ∈ str, c.isDigit = true

theorem takeWhile_digits {str : Name} (h : ∀ c ∈ str, c.isDigit = true) :
    str.takeWhile Char.isDigit = str :=
  List.takeWhile_eq_self_iff.mpr h

theorem le_ofDigitChars (digits : Name) (init : ℕ) : init ≤ Nat.ofDigitChars 10 digits init := by
  induction digits generalizing init with
  | nil => simp
  | cons c digits ih =>
      rw [Nat.ofDigitChars_cons]
      exact le_trans (by omega) (ih _)

/-- The loop reads the digits in front, unless their value takes more than 64 bits. -/
theorem consumeDigits_eq (str : Name) :
    ∀ result < 2 ^ 64, consumeDigits result str =
      if Nat.ofDigitChars 10 (str.takeWhile Char.isDigit) result < 2 ^ 64 then
        some (Nat.ofDigitChars 10 (str.takeWhile Char.isDigit) result,
          str.dropWhile Char.isDigit)
      else none := by
  induction str with
  | nil =>
      intro result hresult
      rw [List.takeWhile_nil, Nat.ofDigitChars_nil, if_pos hresult]
      rfl
  | cons c str ih =>
      intro result hresult
      by_cases hdigit : c.isDigit = true
      · have hval : c.toNat - '0'.toNat < 10 := by
          simp only [Char.isDigit, Bool.and_eq_true, decide_eq_true_eq] at hdigit
          have h₁ : 48 ≤ c.toNat := hdigit.1
          have h₂ : c.toNat ≤ 57 := hdigit.2
          show c.toNat - 48 < 10
          omega
        rw [consumeDigits, if_pos hdigit, List.takeWhile_cons_of_pos hdigit,
          List.dropWhile_cons_of_pos hdigit, Nat.ofDigitChars_cons]
        generalize c.toNat - '0'.toNat = d at hval
        by_cases hfits : 10 * result + d < 2 ^ 64
        · have hno : ¬ (10 * result + d) % 2 ^ 64 / 10 < result := by omega
          simp only [if_neg hno]
          rw [Nat.mod_eq_of_lt hfits]
          exact ih _ hfits
        · -- the shift back notices every overflow
          have hyes : (10 * result + d) % 2 ^ 64 / 10 < result := by omega
          have hmore := le_ofDigitChars (str.takeWhile Char.isDigit) (10 * result + d)
          simp only [if_pos hyes]
          rw [if_neg (by omega)]
      · rw [consumeDigits, if_neg hdigit, List.takeWhile_cons_of_neg hdigit,
          List.dropWhile_cons_of_neg hdigit, Nat.ofDigitChars_nil, if_pos hresult]

/-- Reading the whole string. -/
theorem consumeUnsignedInteger_all {str : Name} {value : ℕ} :
    consumeUnsignedInteger str = some (value, []) ↔
      Digits str ∧ Nat.ofDigitChars 10 str 0 = value ∧ value < 2 ^ 64 := by
  unfold consumeUnsignedInteger
  rw [consumeDigits_eq str 0 (by decide)]
  constructor
  · intro h
    split at h
    · cases h
    · next heq =>
        split at heq
        · next hfits =>
            obtain ⟨hvalue, hrest⟩ := Prod.mk.inj (Option.some.inj heq)
            split at h
            · cases h
            · next hlength =>
                obtain ⟨rfl, rfl⟩ := Prod.mk.inj (Option.some.inj h)
                have hall : ∀ c ∈ str, c.isDigit = true := List.dropWhile_eq_nil_iff.mp hrest
                rw [takeWhile_digits hall] at hvalue hfits
                refine ⟨⟨fun hnil => hlength (by rw [hnil]), hall⟩, hvalue, hvalue ▸ hfits⟩
        · cases heq
  · rintro ⟨⟨hne, hall⟩, rfl, hfits⟩
    rw [takeWhile_digits hall, if_pos hfits, List.dropWhile_eq_nil_iff.mpr hall]
    simp only [List.length_nil, List.length_eq_zero_iff]
    exact if_neg hne

/-- A value in range, with a sign. -/
theorem signed_eq_some {parsed : Option (ℕ × Name)} {tooLarge : ℕ → Prop} [DecidablePred tooLarge]
    {sign : ℕ → ℤ} {value : ℤ} :
    (match parsed with
      | none => none
      | some (n, rest) => if tooLarge n then none else some (sign n, rest)) = some (value, []) ↔
      ∃ n, parsed = some (n, []) ∧ ¬ tooLarge n ∧ value = sign n := by
  cases parsed with
  | none => simp
  | some result =>
      obtain ⟨n, rest⟩ := result
      by_cases hlarge : tooLarge n
      · simp only [if_pos hlarge]
        constructor
        · intro h
          cases h
        · rintro ⟨n', h, hfits, -⟩
          obtain ⟨rfl, -⟩ := Prod.mk.inj (Option.some.inj h)
          exact absurd hlarge hfits
      · simp only [if_neg hlarge]
        constructor
        · intro h
          obtain ⟨rfl, rfl⟩ := Prod.mk.inj (Option.some.inj h)
          exact ⟨n, rfl, hlarge, rfl⟩
        · rintro ⟨n', h, -, rfl⟩
          obtain ⟨rfl, rfl⟩ := Prod.mk.inj (Option.some.inj h)
          rfl

/-- The whole string read as a signed number. -/
theorem consumeSignedInteger_all {str : Name} {value : ℤ} (hint : IsInt value) :
    consumeSignedInteger str = some (value, []) ↔
      (Digits str ∧ value = Nat.ofDigitChars 10 str 0) ∨
        ∃ digits, str = '-' :: digits ∧ Digits digits ∧
          value = -(Nat.ofDigitChars 10 digits 0 : ℕ) := by
  obtain ⟨hlow, hhigh⟩ := hint
  unfold consumeSignedInteger
  split
  · next digits =>
      have hsign : ¬ Digits ('-' :: digits) :=
        fun h => absurd (h.2 '-' List.mem_cons_self) (by decide)
      rw [signed_eq_some]
      constructor
      · rintro ⟨n, hparsed, -, rfl⟩
        obtain ⟨hdigits, rfl, -⟩ := consumeUnsignedInteger_all.mp hparsed
        exact .inr ⟨digits, rfl, hdigits, rfl⟩
      · rintro (⟨hdigits, -⟩ | ⟨digits', heq, hdigits, rfl⟩)
        · exact absurd hdigits hsign
        · obtain rfl := (List.cons.inj heq).2
          exact ⟨_, consumeUnsignedInteger_all.mpr ⟨hdigits, rfl, by omega⟩, by omega, rfl⟩
  · next hplain =>
      rw [signed_eq_some]
      constructor
      · rintro ⟨n, hparsed, -, rfl⟩
        obtain ⟨hdigits, rfl, -⟩ := consumeUnsignedInteger_all.mp hparsed
        exact .inl ⟨hdigits, rfl⟩
      · rintro (⟨hdigits, rfl⟩ | ⟨digits, rfl, -⟩)
        · exact ⟨_, consumeUnsignedInteger_all.mpr ⟨hdigits, rfl, by omega⟩, by omega, rfl⟩
        · exact absurd rfl (hplain digits)

/-- **What `getAsInteger` reads.** -/
theorem getAsInteger_eq_some {str : Name} {value : ℤ} :
    getAsInteger str = some value ↔
      IsInt value ∧
        ((Digits str ∧ value = Nat.ofDigitChars 10 str 0) ∨
          ∃ digits, str = '-' :: digits ∧ Digits digits ∧
            value = -(Nat.ofDigitChars 10 digits 0 : ℕ)) := by
  have hwhole : getAsInteger str = some value ↔
      IsInt value ∧ consumeSignedInteger str = some (value, []) := by
    unfold getAsInteger
    split
    · next value' heq =>
        rw [heq, Option.ite_none_right_eq_some]
        simp only [Option.some.injEq, Prod.mk.injEq, and_true]
        constructor
        · rintro ⟨hint, rfl⟩
          exact ⟨hint, rfl⟩
        · rintro ⟨hint, rfl⟩
          exact ⟨hint, rfl⟩
    · next hother =>
        constructor
        · intro h
          cases h
        · exact fun h => absurd h.2 (hother value)
  rw [hwhole]
  exact and_congr_right consumeSignedInteger_all

/-! ## Both readers -/

theorem dropWhile_isSpace {c : Char} {str : Name} (h : isSpace c = false) :
    (c :: str).dropWhile isSpace = c :: str :=
  List.dropWhile_cons_of_neg (by rw [h]; exact Bool.false_ne_true)

theorem not_isSpace_of_isDigit {c : Char} (h : c.isDigit = true) : isSpace c = false := by
  simp only [Char.isDigit, Bool.and_eq_true, decide_eq_true_eq] at h
  have hlow : 48 ≤ c.toNat := h.1
  have hne : c ≠ ' ' := by
    rintro rfl
    exact absurd hlow (by decide)
  simp only [isSpace, Bool.or_eq_false_iff, decide_eq_false_iff_not, Bool.and_eq_false_iff]
  exact ⟨hne, .inr (by omega)⟩

/-- The digits of a number without a sign. -/
theorem signedDigits_digits {str : Name} (h : Digits str) :
    signedDigits (str.dropWhile isSpace) = (false, str) := by
  obtain ⟨hne, hall⟩ := h
  cases str with
  | nil => exact absurd rfl hne
  | cons c str =>
      have hc := hall c List.mem_cons_self
      rw [dropWhile_isSpace (not_isSpace_of_isDigit hc)]
      unfold signedDigits
      split
      · next heq =>
          rw [(List.cons.inj heq).1] at hc
          exact absurd hc (by decide)
      · next heq =>
          rw [(List.cons.inj heq).1] at hc
          exact absurd hc (by decide)
      · rw [takeWhile_digits hall]

/-- **`stoi` reads what `getAsInteger` reads.** -/
theorem stoi_of_getAsInteger {str : Name} {value : ℤ} (h : getAsInteger str = some value) :
    stoi str = some value := by
  obtain ⟨hint, ⟨hdigits, rfl⟩ | ⟨digits, rfl, hdigits, rfl⟩⟩ := getAsInteger_eq_some.mp h
  · unfold stoi
    rw [signedDigits_digits hdigits]
    simp only [if_neg hdigits.1, Bool.false_eq_true, if_false, if_pos hint]
  · have hsign : signedDigits (('-' :: digits).dropWhile isSpace) = (true, digits) := by
      rw [dropWhile_isSpace (by decide)]
      exact congrArg (Prod.mk true) (takeWhile_digits hdigits.2)
    unfold stoi
    rw [hsign]
    simp only [if_neg hdigits.1, if_true, if_pos hint]

/-- A number has one column. -/
theorem comma_notMem_of_getAsInteger {str : Name} {value : ℤ} (h : getAsInteger str = some value) :
    ',' ∉ str := by
  have hdigits : ∀ digits, Digits digits → ',' ∉ digits :=
    fun digits hdigits hmem => absurd (hdigits.2 ',' hmem) (by decide)
  obtain ⟨-, ⟨hstr, -⟩ | ⟨digits, rfl, hstr, -⟩⟩ := getAsInteger_eq_some.mp h
  · exact hdigits str hstr
  · rw [List.mem_cons, not_or]
    exact ⟨by decide, hdigits digits hstr⟩

theorem isInt_of_getAsInteger {str : Name} {value : ℤ} (h : getAsInteger str = some value) :
    IsInt value :=
  (getAsInteger_eq_some.mp h).1

theorem isInt_of_stoi {str : Name} {value : ℤ} (h : stoi str = some value) : IsInt value := by
  unfold stoi at h
  dsimp only at h
  split at h
  · cases h
  · rw [Option.ite_none_right_eq_some] at h
    obtain ⟨hint, heq⟩ := h
    exact Option.some.inj heq ▸ hint

/-! ## What a stream writes -/

theorem digits_decimal (value : ℕ) : Digits (decimal value) :=
  ⟨Nat.toDigits_ne_nil, fun _ hc => isDigit_of_mem_decimal hc⟩

/-- **A number that has been written is read back.** -/
theorem getAsInteger_decimal {value : ℕ} (h : value < 2 ^ 31) :
    getAsInteger (decimal value) = some (value : ℤ) := by
  rw [getAsInteger_eq_some]
  refine ⟨⟨by omega, by omega⟩, .inl ⟨digits_decimal value, ?_⟩⟩
  rw [decimal, Nat.ofDigitChars_ten_toDigits]

end Bitype.Pass
