/-!
# Numerals of a fixed width

A character that cannot be shown is written by its number, in hexadecimal digits and in a fixed
number of them; the same numerals, and octal ones, are read back in quoted literals.  Both
directions stand here side by side:

* `numeral b w n` writes the last `w` digits of `n` in base `b`, lower-case;
* `numeralValue? b ds` reads digits of either case, and refuses anything else.

`numeralValue?_numeral` says that what is written in enough digits is read back.
-/

namespace Lookahead.Text

/-- The digit with the value `d`, for `d < 16`; lower-case letters follow the nine. -/
def digitChar (d : Nat) : Char :=
  if d < 10 then Char.ofNat (48 + d) else Char.ofNat (87 + d)

/-- The value of a digit of the base; letters of either case follow the nine. -/
def digitValue? (base : Nat) (c : Char) : Option Nat :=
  let value :=
    if 48 ≤ c.toNat ∧ c.toNat ≤ 57 then c.toNat - 48
    else if 97 ≤ c.toNat ∧ c.toNat ≤ 102 then c.toNat - 87
    else if 65 ≤ c.toNat ∧ c.toNat ≤ 70 then c.toNat - 55
    else base
  if value < base then some value else none

theorem digitValue?_digitChar {base d : Nat} (hb : base ≤ 16) (hd : d < base) :
    digitValue? base (digitChar d) = some d := by
  have h : ∀ e : Fin 16, 48 ≤ (digitChar e).toNat ∧ (digitChar e).toNat ≤ 57 ∧
      (digitChar e).toNat - 48 = e ∨ ¬ (48 ≤ (digitChar e).toNat ∧ (digitChar e).toNat ≤ 57) ∧
      97 ≤ (digitChar e).toNat ∧ (digitChar e).toNat ≤ 102 ∧ (digitChar e).toNat - 87 = e := by
    decide
  have hd' : d < 16 := by omega
  rcases h ⟨d, hd'⟩ with ⟨h₁, h₂, h₃⟩ | ⟨h₁, h₂, h₃, h₄⟩
  · simp only at h₁ h₂ h₃
    simp [digitValue?, h₁, h₂, h₃, hd]
  · simp only at h₁ h₂ h₃ h₄
    simp [digitValue?, h₁, h₂, h₃, h₄, hd]

/-- The last `width` digits of a number. -/
def numeral (base : Nat) : Nat → Nat → List Char
  | 0, _ => []
  | width + 1, n => numeral base width (n / base) ++ [digitChar (n % base)]

@[simp] theorem length_numeral (base width n : Nat) : (numeral base width n).length = width := by
  induction width generalizing n with
  | zero => rfl
  | succ w ih => simp [numeral, ih]

/-- The value of a numeral, the first digit being the highest; `high` is the value of what
stands before it. -/
def numeralFrom? (base : Nat) (high : Nat) : List Char → Option Nat
  | [] => some high
  | c :: cs => (digitValue? base c).bind fun d => numeralFrom? base (high * base + d) cs

/-- The value of a numeral. -/
def numeralValue? (base : Nat) (cs : List Char) : Option Nat := numeralFrom? base 0 cs

theorem numeralFrom?_append (base high : Nat) (cs ds : List Char) :
    numeralFrom? base high (cs ++ ds) =
      (numeralFrom? base high cs).bind fun h => numeralFrom? base h ds := by
  induction cs generalizing high with
  | nil => rfl
  | cons c cs ih =>
    simp only [List.cons_append, numeralFrom?]
    cases digitValue? base c with
    | none => rfl
    | some d => simp [ih]

theorem numeralValue?_numeral {base : Nat} (hb : base ≤ 16) (hpos : 0 < base) (width n : Nat)
    (h : n < Nat.pow base width) : numeralValue? base (numeral base width n) = some n := by
  induction width generalizing n with
  | zero =>
    obtain rfl : n = 0 := Nat.lt_one_iff.1 h
    rfl
  | succ w ih =>
    have hq : n / base < Nat.pow base w := (Nat.div_lt_iff_lt_mul hpos).2 h
    rw [numeralValue?, numeral, numeralFrom?_append, ← numeralValue?, ih _ hq]
    simp only [Option.bind_some, numeralFrom?]
    rw [digitValue?_digitChar hb (Nat.mod_lt _ hpos), Option.bind_some, Nat.mul_comm]
    rw [Nat.div_add_mod]

end Lookahead.Text
