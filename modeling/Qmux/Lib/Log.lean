import Mathlib.Tactic

/-!
The largest number that a log mentions, such as the last value of a limit that
only ever grows.
-/

namespace Qmux.Log

variable {α : Type*} (g : α → Option Nat)

/-- The largest of the numbers `g` finds in the log, or zero. -/
def largest (log : List α) : Nat :=
  (log.filterMap g).foldr max 0

variable {g} {log more : List α}

theorem le_largest {x : α} {n : Nat} (hx : x ∈ log) (hn : g x = some n) :
    n ≤ largest g log := by
  induction log with
  | nil => cases hx
  | cons y rest ih =>
      unfold largest
      rcases List.mem_cons.mp hx with rfl | hrest
      · rw [List.filterMap_cons_some hn]
        exact le_max_left _ _
      · have hle := ih hrest
        cases hy : g y with
        | none =>
            rw [List.filterMap_cons_none hy]
            exact hle
        | some m =>
            rw [List.filterMap_cons_some hy]
            exact hle.trans (le_max_right _ _)

theorem largest_le {bound : Nat} (h : ∀ x ∈ log, ∀ n, g x = some n → n ≤ bound) :
    largest g log ≤ bound := by
  induction log with
  | nil => exact Nat.zero_le _
  | cons y rest ih =>
      have hle := ih (fun x hx => h x (List.mem_cons_of_mem y hx))
      unfold largest
      cases hy : g y with
      | none =>
          rw [List.filterMap_cons_none hy]
          exact hle
      | some m =>
          rw [List.filterMap_cons_some hy]
          exact max_le (h y List.mem_cons_self m hy) hle

theorem largest_mono (h : log ⊆ more) : largest g log ≤ largest g more :=
  largest_le (fun _ hx _ hn => le_largest (h hx) hn)

end Qmux.Log
