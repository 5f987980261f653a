import Mathlib.Data.Nat.Bitwise
import Qmux.Conn.State

/-!
Stream identifiers. An identifier packs the index of the stream, its
direction kind and its initiator. The packing is exact while the index is
below `2 ^ 62`, so an identifier names one stream and its parts can be read
back.
-/

namespace Qmux

theorem streamDir_eq_uni (id : Nat) : streamDir id = .uni ↔ id / 2 % 2 = 1 := by
  have hbit := Nat.and_two_pow id 1
  simp only [Nat.testBit, Nat.shiftRight_eq_div_pow, Nat.pow_one] at hbit
  unfold streamDir
  rw [hbit]
  rcases Nat.mod_two_eq_zero_or_one (id / 2) with h | h <;> simp [h]

theorem streamDir_eq_bidi (id : Nat) : streamDir id = .bidi ↔ id / 2 % 2 = 0 := by
  have huni := streamDir_eq_uni id
  cases hdir : streamDir id with
  | bidi =>
      simp only [hdir] at huni
      simp at huni ⊢
      omega
  | uni =>
      simp only [hdir] at huni
      simp at huni ⊢
      omega

theorem initiatedLocally_eq (isServer : Bool) (id : Nat) :
    initiatedLocally isServer id = (decide (id % 2 = 1) == isServer) := by
  unfold initiatedLocally
  rw [Nat.and_one_is_mod]
  rcases Nat.mod_two_eq_zero_or_one id with h | h <;> simp [h]

theorem streamID_eq (isServer : Bool) {index : Nat} (hindex : index < 2 ^ 62) (dir : Dir)
    (isLocal : Bool) :
    streamID isServer index dir isLocal =
      4 * index + (if dir = .uni then 2 else 0) +
        (if isLocal = isServer then 1 else 0) := by
  have hshift : (index <<< 2) % 2 ^ 64 = 4 * index := by
    rw [Nat.shiftLeft_eq]
    omega
  have hor (low : Nat) (hlow : low < 2 ^ 2) : 4 * index ||| low = 4 * index + low := by
    simpa using (Nat.two_pow_add_eq_or_of_lt hlow index).symm
  have hor' : (4 * index + 2) ||| 1 = 4 * index + 3 := by
    rw [← hor 2 (by decide), Nat.or_assoc, hor (2 ||| 1) (by decide)]
    rfl
  unfold streamID
  rw [hshift]
  split_ifs <;> simp only [hor 2 (by decide), hor 1 (by decide), hor', Nat.add_zero]

theorem streamID_lt (isServer : Bool) {index : Nat} (hindex : index < 2 ^ 60) (dir : Dir)
    (isLocal : Bool) : streamID isServer index dir isLocal < 2 ^ 62 := by
  rw [streamID_eq isServer (by omega)]
  split_ifs <;> omega

/-- The index of a stream whose identifier can be encoded. -/
theorem index_lt {id : Nat} (hbound : id ≤ Wire.maxVarint) : id >>> 2 < 2 ^ 60 := by
  have : Wire.maxVarint = 2 ^ 62 - 1 := rfl
  rw [Nat.shiftRight_eq_div_pow]
  omega

theorem streamID_index (isServer : Bool) {index : Nat} (hindex : index < 2 ^ 62) (dir : Dir)
    (isLocal : Bool) : streamID isServer index dir isLocal >>> 2 = index := by
  rw [streamID_eq isServer hindex, Nat.shiftRight_eq_div_pow]
  split_ifs <;> omega

theorem streamDir_streamID (isServer : Bool) {index : Nat} (hindex : index < 2 ^ 62) (dir : Dir)
    (isLocal : Bool) : streamDir (streamID isServer index dir isLocal) = dir := by
  rw [streamID_eq isServer hindex]
  cases dir with
  | bidi =>
      rw [streamDir_eq_bidi]
      simp only [reduceCtorEq, if_false]
      split_ifs <;> omega
  | uni =>
      rw [streamDir_eq_uni]
      simp only [if_true]
      split_ifs <;> omega

theorem initiatedLocally_streamID (isServer : Bool) {index : Nat} (hindex : index < 2 ^ 62)
    (dir : Dir) (isLocal : Bool) :
    initiatedLocally isServer (streamID isServer index dir isLocal) = isLocal := by
  rw [streamID_eq isServer hindex, initiatedLocally_eq]
  have hparity : (4 * index + (if dir = .uni then 2 else 0) +
      (if isLocal = isServer then 1 else 0)) % 2 =
      if isLocal = isServer then 1 else 0 := by
    split_ifs <;> omega
  rw [hparity]
  cases isLocal <;> cases isServer <;> rfl

/-- The parts of an identifier determine it. -/
theorem streamID_parts (isServer : Bool) {id : Nat} (hid : id < 2 ^ 64) :
    streamID isServer (id >>> 2) (streamDir id) (initiatedLocally isServer id) = id := by
  rw [Nat.shiftRight_eq_div_pow, streamID_eq isServer (by omega), initiatedLocally_eq]
  have hserver : ((decide (id % 2 = 1) == isServer) = isServer) ↔ id % 2 = 1 := by
    cases isServer <;> simp
  simp only [streamDir_eq_uni, hserver]
  split_ifs <;> omega

end Qmux
