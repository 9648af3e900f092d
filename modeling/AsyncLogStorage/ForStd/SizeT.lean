/-!
# Wrapping `size_t` arithmetic

A `size_t` is modelled by the natural number it holds. Sums and differences are
taken modulo `2 ^ 64`, as C++ takes them, so an index computed past either end
comes out as the value the machine would hold.
-/

namespace SizeT

/-- The number of values of a 64-bit `size_t`. -/
def modulus : Nat := 18446744073709551616

/-- `a + b` on `size_t`. -/
def add (a b : Nat) : Nat := (a + b) % modulus

/-- `a * b` on `size_t`. -/
def mul (a b : Nat) : Nat := (a * b) % modulus

/-- `a - b` on `size_t`. -/
def sub (a b : Nat) : Nat := (a + (modulus - b % modulus)) % modulus

/-- A sum that fits is the sum. -/
theorem add_eq {a b : Nat} (h : a + b < modulus) : add a b = a + b :=
  Nat.mod_eq_of_lt h

/-- A sum that does not fit comes out short by the modulus. -/
theorem add_eq_of_wrap {a b : Nat} (ha : a < modulus) (hb : b < modulus)
    (h : modulus ≤ a + b) : add a b = a + b - modulus := by
  simp only [add, modulus] at *
  omega

/-- A difference that does not go below zero is the difference. -/
theorem sub_eq {a b : Nat} (hb : b ≤ a) (ha : a < modulus) : sub a b = a - b := by
  simp only [sub, modulus] at *
  omega

/-- Taking `size - pos` places after position `pos` of a range that has grown by
    `g` leaves `g` places free, whatever the wrapping did on the way. -/
theorem sub_add_of_fill {size pos g : Nat} (hg : g < modulus) :
    sub (add size g) (add pos (sub size pos)) = g := by
  simp only [sub, add, modulus] at *
  omega

/-- Filling `len` of the free places leaves `len` fewer. -/
theorem sub_add_of_le {size pos len : Nat} (h : len ≤ sub size pos) :
    sub size (add pos len) = sub size pos - len := by
  simp only [sub, add, modulus] at *
  omega

end SizeT
