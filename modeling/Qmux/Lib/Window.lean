import Mathlib.Tactic

/-!
A sliding credit window. The owner of a buffer of `size` lets the other side
use up to `limit` in total, and moves the limit on as the buffer is emptied:
once less than half of the window is left beyond what is `consumed`, the limit
is set to a whole window beyond it. Half is rounded down, so that a window of
one never moves.
-/

namespace Qmux

structure Window where
  limit : Nat
  consumed : Nat

namespace Window

/-- At least half a window is left, and at most a whole one. -/
structure Ample (size : Nat) (w : Window) : Prop where
  half : w.consumed + size / 2 ≤ w.limit
  whole : w.limit ≤ w.consumed + size
  still : size < 2 → w.limit = size

/-- `n` more leave the buffer. -/
def consume (size n : Nat) (w : Window) : Window :=
  if w.limit - (w.consumed + n) < size / 2 then ⟨w.consumed + n + size, w.consumed + n⟩
  else ⟨w.limit, w.consumed + n⟩

variable {size n : Nat} {w : Window}

@[simp] theorem consume_consumed : (w.consume size n).consumed = w.consumed + n := by
  unfold consume
  split_ifs <;> rfl

theorem consume_zero (h : w.Ample size) : w.consume size 0 = w := by
  have hhalf := h.half
  unfold consume
  rw [if_neg (by omega)]
  rfl

/-- The limit never moves back. -/
theorem le_consume_limit (h : w.Ample size) : w.limit ≤ (w.consume size n).limit := by
  have hwhole := h.whole
  unfold consume
  split_ifs
  · dsimp only
    omega
  · exact Nat.le_refl _

/-- A window stays ample as long as nothing leaves the buffer that the limit
did not let in. -/
theorem Ample.consume (h : w.Ample size) (hn : w.consumed + n ≤ w.limit) :
    (w.consume size n).Ample size := by
  have hwhole := h.whole
  unfold Window.consume
  split_ifs with hlow
  · exact ⟨by dsimp only; omega, Nat.le_refl _, fun hsize => by omega⟩
  · exact ⟨by dsimp only; omega, by dsimp only; omega, h.still⟩

theorem ample_start (size : Nat) : Ample size ⟨size, 0⟩ :=
  ⟨by dsimp only; omega, by dsimp only; omega, fun _ => rfl⟩

/-- When everything was taken, the window is open, unless it is one that never
moves. -/
theorem Ample.lt_limit_iff (h : w.Ample size) (hsize : 1 ≤ size) :
    w.consumed < w.limit ↔ 2 ≤ size ∨ w.consumed = 0 := by
  have hhalf := h.half
  have hstill := h.still
  omega

end Window

end Qmux
