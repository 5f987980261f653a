import Mathlib.Algebra.BigOperators.Fin
import Mathlib.Tactic

/-!
Totals over a heap of numbered objects. A heap is a function from references
with the number of references handed out; a total adds up one quantity of
every object. The lemmas say how a total, or a view of all objects, moves when
one object changes and when one is allocated.
-/

namespace Qmux.Heap

section View

variable {ι α β : Type*} [DecidableEq ι] (g : α → β) (heap : ι → α) (r : ι) (x : α)

/-- A view of every object, after one object changed. -/
theorem map_update :
    (fun i => g (Function.update heap r x i)) =
      Function.update (fun i => g (heap i)) r (g x) := by
  funext i
  rcases eq_or_ne i r with rfl | hne
  · simp only [Function.update_self]
  · simp only [Function.update_of_ne hne]

/-- A view that the change does not show in stays the same. -/
theorem map_update_of_eq (heq : g x = g (heap r)) :
    (fun i => g (Function.update heap r x i)) = fun i => g (heap i) := by
  rw [map_update, heq]
  exact Function.update_eq_self r (fun i => g (heap i))

end View

variable {α : Type*}

/-- The sum of `g` over the first `count` objects of `heap`. -/
def total (heap : Nat → α) (count : Nat) (g : α → Nat) : Nat :=
  ∑ r ∈ Finset.range count, g (heap r)

theorem total_update (heap : Nat → α) {count r : Nat} (hr : r < count)
    (g : α → Nat) (x : α) :
    total (Function.update heap r x) count g + g (heap r) =
      total heap count g + g x := by
  unfold total
  have hmem : r ∈ Finset.range count := Finset.mem_range.mpr hr
  rw [← Finset.add_sum_erase _ _ hmem,
    ← Finset.add_sum_erase (Finset.range count) (fun i => g (heap i)) hmem]
  have hrest : ∑ i ∈ (Finset.range count).erase r, g (Function.update heap r x i) =
      ∑ i ∈ (Finset.range count).erase r, g (heap i) := by
    apply Finset.sum_congr rfl
    intro i hi
    rw [Function.update_of_ne (Finset.ne_of_mem_erase hi)]
  rw [hrest, Function.update_self]
  omega

theorem total_alloc (heap : Nat → α) (count : Nat) (g : α → Nat) (x : α) :
    total (Function.update heap count x) (count + 1) g = total heap count g + g x := by
  unfold total
  rw [Finset.sum_range_succ, Function.update_self]
  congr 1
  apply Finset.sum_congr rfl
  intro i hi
  rw [Function.update_of_ne (by have := Finset.mem_range.mp hi; omega)]

theorem total_congr {heap heap' : Nat → α} {count : Nat} {g g' : α → Nat}
    (h : ∀ r < count, g (heap r) = g' (heap' r)) :
    total heap count g = total heap' count g' :=
  Finset.sum_congr rfl (fun r hr => h r (Finset.mem_range.mp hr))

/-- One object's share is within the total. -/
theorem le_total (heap : Nat → α) {count r : Nat} (hr : r < count) (g : α → Nat) :
    g (heap r) ≤ total heap count g :=
  Finset.single_le_sum (f := fun i => g (heap i)) (fun _ _ => Nat.zero_le _)
    (Finset.mem_range.mpr hr)

/-- If only one object has a share, its bound is a bound of the total. -/
theorem total_le_of_unique {heap : Nat → α} {count bound : Nat} {g : α → Nat}
    (hunique : ∀ r < count, ∀ i < count, g (heap r) ≠ 0 → g (heap i) ≠ 0 → i = r)
    (hbound : ∀ r < count, g (heap r) ≤ bound) : total heap count g ≤ bound := by
  by_cases hshare : ∃ r < count, g (heap r) ≠ 0
  · obtain ⟨r, hr, hne⟩ := hshare
    have hsingle : total heap count g = g (heap r) := by
      refine Finset.sum_eq_single_of_mem r (Finset.mem_range.mpr hr) (fun i hi hother => ?_)
      by_contra hcase
      exact hother (hunique r hr i (Finset.mem_range.mp hi) hne hcase)
    exact hsingle ▸ hbound r hr
  · have hzero : total heap count g = 0 := by
      refine Finset.sum_eq_zero (fun r hr => ?_)
      by_contra hcase
      exact hshare ⟨r, Finset.mem_range.mp hr, hcase⟩
    exact hzero ▸ Nat.zero_le bound

theorem total_mono {heap heap' : Nat → α} {count count' : Nat} {g g' : α → Nat}
    (hcount : count ≤ count') (h : ∀ r < count, g (heap r) ≤ g' (heap' r)) :
    total heap count g ≤ total heap' count' g' :=
  calc total heap count g
      ≤ total heap' count g' :=
        Finset.sum_le_sum (fun r hr => h r (Finset.mem_range.mp hr))
    _ ≤ total heap' count' g' :=
        Finset.sum_le_sum_of_subset (Finset.range_mono hcount)

end Qmux.Heap
