namespace JavaAbi

/-!
# Digits

The numbers that digits write, and the characters that such numbers name.
-/

/-- The value of a hexadecimal digit. -/
def hexValue? (c : Char) : Option Nat :=
  if '0' ≤ c ∧ c ≤ '9' then some (c.toNat - '0'.toNat)
  else if 'a' ≤ c ∧ c ≤ 'f' then some (c.toNat - 'a'.toNat + 10)
  else if 'A' ≤ c ∧ c ≤ 'F' then some (c.toNat - 'A'.toNat + 10)
  else none

/-- Whether a character is a digit of a base up to 16. -/
def isDigitOf (base : Nat) (c : Char) : Bool :=
  match hexValue? c with
  | some n => n < base
  | none => false

/-- The number that digits write in a base, the most significant digit first. -/
def digitsValue (base : Nat) (digits : List Char) : Nat :=
  digits.foldl (fun n c => n * base + (hexValue? c).getD 0) 0

/-- The character that hexadecimal digits name. Surrogates are no characters. -/
def codePoint? (digits : List Char) : Option Char :=
  let n := digitsValue 16 digits
  if digits.all (isDigitOf 16) && decide n.isValidChar then some (Char.ofNat n) else none

/-! ### Laws -/

theorem foldl_digits (base n : Nat) (ds : List Char) :
    ds.foldl (fun n c => n * base + (hexValue? c).getD 0) n
      = n * base.pow ds.length + digitsValue base ds := by
  induction ds generalizing n with
  | nil => exact (Nat.mul_one n).symm
  | cons d ds ih =>
    have hpow : base.pow (ds.length + 1) = base.pow ds.length * base := rfl
    rw [digitsValue, List.foldl_cons, List.foldl_cons, ih, ih (0 * base + _), List.length_cons,
      hpow, Nat.zero_mul, Nat.zero_add, Nat.add_mul, Nat.mul_assoc, Nat.mul_comm base,
      Nat.add_assoc]

/-- The digits in front count more, by one place for each digit behind them. -/
theorem digitsValue_append (base : Nat) (front back : List Char) :
    digitsValue base (front ++ back)
      = digitsValue base front * base.pow back.length + digitsValue base back := by
  rw [digitsValue, List.foldl_append, foldl_digits, ← digitsValue]

end JavaAbi
