import Qmux.Lib.Heap
import Qmux.Lib.Window

/-!
A ledger of many accounts behind one credit window. What arrives is posted to
an account and waits there until it is taken; the window bounds what may
arrive in total, and moves on with what was taken. In a balanced ledger
nothing is counted twice and nothing is lost.
-/

namespace Qmux

structure Ledger where
  /-- What arrived in total. -/
  received : Nat
  /-- The limit of what may arrive, over what was taken. -/
  window : Window
  count : Nat
  arrived : Nat → Nat
  waiting : Nat → Nat

namespace Ledger

structure Balanced (size : Nat) (l : Ledger) : Prop where
  arrived : l.received = Heap.total l.arrived l.count id
  waiting : l.received = l.window.consumed + Heap.total l.waiting l.count id
  within : l.received ≤ l.window.limit
  ample : l.window.Ample size

/-- `n` arrive on the account `r`, after which `waiting` are left there. -/
def post (l : Ledger) (r n waiting : Nat) (window : Window) : Ledger :=
  { l with
    received := l.received + n
    window := window
    arrived := Function.update l.arrived r (l.arrived r + n)
    waiting := Function.update l.waiting r waiting }

/-- A new account, on which nothing has arrived. -/
def alloc (l : Ledger) : Ledger :=
  { l with
    count := l.count + 1
    arrived := Function.update l.arrived l.count 0
    waiting := Function.update l.waiting l.count 0 }

variable {l : Ledger} {size r n waiting : Nat} {window : Window}

theorem total_post (hr : r < l.count) (n waiting : Nat) (window : Window) :
    Heap.total (l.post r n waiting window).arrived l.count id =
      Heap.total l.arrived l.count id + n := by
  have htotal := Heap.total_update l.arrived hr id (l.arrived r + n)
  simp only [id_eq] at htotal
  unfold post
  dsimp only
  omega

theorem total_alloc : Heap.total l.alloc.arrived l.alloc.count id =
    Heap.total l.arrived l.count id :=
  Heap.total_alloc l.arrived l.count id 0

/-- A posting keeps the ledger balanced if what was taken is what arrived and
what waited, less what is left. -/
theorem Balanced.post (h : l.Balanced size) (hr : r < l.count)
    (hwithin : l.received + n ≤ l.window.limit)
    (htaken : window.consumed + waiting = l.window.consumed + l.waiting r + n)
    (hlimit : l.window.limit ≤ window.limit) (hample : window.Ample size) :
    (l.post r n waiting window).Balanced size := by
  refine ⟨?_, ?_, hwithin.trans hlimit, hample⟩
  · have htotal := total_post hr n waiting window
    have harrived := h.arrived
    change l.received + n = Heap.total (l.post r n waiting window).arrived l.count id
    omega
  · have htotal := Heap.total_update l.waiting hr id waiting
    have hwaiting := h.waiting
    simp only [id_eq] at htotal
    change l.received + n =
      window.consumed + Heap.total (Function.update l.waiting r waiting) l.count id
    omega

theorem Balanced.alloc (h : l.Balanced size) : l.alloc.Balanced size := by
  refine ⟨?_, ?_, h.within, h.ample⟩
  · rw [total_alloc]
    exact h.arrived
  · have htotal := Heap.total_alloc l.waiting l.count id 0
    have hwaiting := h.waiting
    change l.received = l.window.consumed + Heap.total (Function.update l.waiting l.count 0)
      (l.count + 1) id
    rw [htotal]
    exact hwaiting

end Ledger

end Qmux
