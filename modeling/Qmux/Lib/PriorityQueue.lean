import Mathlib.Data.List.Perm.Basic
import Mathlib.Order.Defs.Unbundled
import Mathlib.Tactic

/-!
Priority queues that are kept in a list. The queue is used through its
operations only: a list that they made is in the order they need, holds what
was pushed and not popped, and pops an element that no other one ranks before.
The instance keeps the list sorted.
-/

namespace Qmux

/-- A priority queue for any strict weak order `less`. -/
class PriorityQueue where
  /-- The list is as the operations leave it. -/
  Ordered : {α : Type} → (α → α → Bool) → List α → Prop
  push : {α : Type} → (α → α → Bool) → List α → α → List α
  pop : {α : Type} → (α → α → Bool) → List α → Option (α × List α)
  ordered_nil : ∀ {α : Type} (less : α → α → Bool), Ordered less []
  push_perm : ∀ {α : Type} (less : α → α → Bool) (q : List α) (x : α),
    (push less q x).Perm (x :: q)
  push_ordered : ∀ {α : Type} {less : α → α → Bool} {q : List α} (x : α),
    IsStrictWeakOrder α (fun a b => less a b = true) → Ordered less q →
      Ordered less (push less q x)
  pop_spec : ∀ {α : Type} {less : α → α → Bool} {q : List α},
    IsStrictWeakOrder α (fun a b => less a b = true) → Ordered less q → q ≠ [] →
      ∃ x rest, pop less q = some (x, rest) ∧ (x :: rest).Perm q ∧ Ordered less rest ∧
        ∀ y ∈ q, less y x = false

namespace PriorityQueue

variable {α : Type} {less : α → α → Bool}

/-- Nothing in the list ranks before what comes earlier in it. -/
def Sorted (less : α → α → Bool) (q : List α) : Prop :=
  q.Pairwise (fun a b => less b a = false)

/-- The element behind those it does not rank before. -/
def insert (less : α → α → Bool) : List α → α → List α
  | [], x => [x]
  | y :: q, x => if less x y then x :: y :: q else y :: insert less q x

theorem insert_perm (q : List α) (x : α) : (insert less q x).Perm (x :: q) := by
  induction q with
  | nil => exact .refl _
  | cons y q ih =>
      unfold insert
      split_ifs
      · exact .refl _
      · exact (ih.cons y).trans (.swap x y q)

theorem insert_sorted (hless : IsStrictWeakOrder α (fun a b => less a b = true)) {q : List α}
    (x : α) (h : Sorted less q) : Sorted less (insert less q x) := by
  have hasymm {a b : α} (hab : less a b = true) : less b a = false := by
    by_contra hba
    exact hless.irrefl a (hless.trans a b a hab (by simpa using hba))
  induction q with
  | nil => exact List.pairwise_singleton _ _
  | cons y q ih =>
      obtain ⟨hy, hq⟩ := List.pairwise_cons.mp h
      unfold insert
      split_ifs with hfirst
      · refine List.pairwise_cons.mpr ⟨fun z hz => ?_, h⟩
        rcases List.mem_cons.mp hz with rfl | hz
        · exact hasymm hfirst
        · by_contra hbefore
          have hzy := hless.trans z x y (by simpa using hbefore) hfirst
          rw [hy z hz] at hzy
          cases hzy
      · refine List.pairwise_cons.mpr ⟨fun z hz => ?_, ih hq⟩
        rcases List.mem_cons.mp ((insert_perm q x).mem_iff.mp hz) with rfl | hz
        · simpa using hfirst
        · exact hy z hz

/-- The queue that keeps its list sorted. -/
instance sorted : PriorityQueue where
  Ordered := Sorted
  push := insert
  pop _ q := q.head?.map (fun x => (x, q.tail))
  ordered_nil _ := List.Pairwise.nil
  push_perm _ := insert_perm
  push_ordered x hless h := insert_sorted hless x h
  pop_spec := by
    intro α less q hless h hne
    cases q with
    | nil => exact absurd rfl hne
    | cons x q =>
        obtain ⟨hx, hq⟩ := List.pairwise_cons.mp h
        refine ⟨x, q, rfl, .refl _, hq, fun y hy => ?_⟩
        rcases List.mem_cons.mp hy with rfl | hy
        · simpa using hless.irrefl y
        · exact hx y hy

end PriorityQueue

end Qmux
