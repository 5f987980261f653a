import Mathlib.Tactic

/-!
Unsigned 64-bit arithmetic on natural numbers. A machine word is a `Nat`
below `2 ^ 64`; addition and subtraction wrap, as those of a Go `uint64` do.
The lemmas say when the wrapped operation is the ordinary one.
-/

namespace Qmux.Word

def add (a b : Nat) : Nat :=
  (a + b) % 2 ^ 64

def sub (a b : Nat) : Nat :=
  (a + (2 ^ 64 - b % 2 ^ 64)) % 2 ^ 64

theorem add_of_lt {a b : Nat} (hlt : a + b < 2 ^ 64) : add a b = a + b := by
  unfold add
  exact Nat.mod_eq_of_lt hlt

theorem sub_of_le {a b : Nat} (hle : b ≤ a) (ha : a < 2 ^ 64) :
    sub a b = a - b := by
  unfold sub
  omega

end Qmux.Word
