import Mathlib.Data.List.Basic

/-!
A mailbox with room for so many messages, to which one offers messages without
waiting: a message that finds no room is dropped. What was received and what waits
are some of the messages that were offered, in order, and all of them as long as the
receiver is never too far behind.
-/

namespace Qmux.Mailbox

variable {α : Type*} {capacity : Nat}

/-- To offer a message. -/
def offer (capacity : Nat) (queue : List α) (x : α) : List α :=
  if queue.length < capacity then queue ++ [x] else queue

/-- What came of the messages that were offered. -/
structure Delivers (capacity : Nat) (offered received queue : List α) : Prop where
  sublist : (received ++ queue).Sublist offered
  room : queue.length ≤ capacity

namespace Delivers

variable {offered received queue : List α}

private theorem offer (h : Delivers capacity offered received queue) (x : α) :
    Delivers capacity (offered ++ [x]) received (Mailbox.offer capacity queue x) := by
  unfold Mailbox.offer
  split_ifs with hroom
  · refine ⟨?_, ?_⟩
    · rw [← List.append_assoc]
      exact h.sublist.append_right [x]
    · rw [List.length_append]
      exact hroom
  · exact ⟨h.sublist.trans (List.sublist_append_left _ _), h.room⟩

/-- Some of the messages come through to the mailbox. -/
theorem offers (h : Delivers capacity offered received queue) {xs ys : List α}
    (hsome : xs.Sublist ys) :
    Delivers capacity (offered ++ ys) received (xs.foldl (Mailbox.offer capacity) queue) := by
  have hall : Delivers capacity (offered ++ xs) received
      (xs.foldl (Mailbox.offer capacity) queue) := by
    clear hsome
    induction xs generalizing offered queue with
    | nil => simpa using h
    | cons x xs ih => simpa using ih (h.offer x)
  exact ⟨hall.sublist.trans (hsome.append_left offered), hall.room⟩

theorem receive {xs : List α} (h : Delivers capacity offered received (xs ++ queue)) :
    Delivers capacity offered (received ++ xs) queue where
  sublist := by simpa using h.sublist
  room := Nat.le_trans (List.sublist_append_right xs queue).length_le h.room

end Delivers

/-- Nothing is dropped while there is room. -/
theorem foldl_offer {queue xs : List α} (hroom : queue.length + xs.length ≤ capacity) :
    xs.foldl (offer capacity) queue = queue ++ xs := by
  induction xs generalizing queue with
  | nil => simp
  | cons x xs ih =>
      rw [List.length_cons] at hroom
      have hoffer : offer capacity queue x = queue ++ [x] := by
        unfold offer
        rw [if_pos (by omega)]
      rw [List.foldl_cons, hoffer, ih (by simp; omega), List.append_assoc]
      rfl

end Qmux.Mailbox
