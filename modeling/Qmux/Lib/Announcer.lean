import Mathlib.Tactic

/-!
A value that only grows and is announced from time to time. Raising it asks for
an announcement, and one announcement covers all that was asked for. The other
side knows `first` to begin with and then the last value announced, which is the
current one unless an announcement is due.
-/

namespace Qmux

structure Announcer where
  value : Nat
  due : Bool

namespace Announcer

/-- What an announcer does, with what it announces. -/
inductive Step (a : Announcer) : List Nat → Announcer → Prop where
  | still : Step a [] a
  | raise {value : Nat} (hlt : a.value < value) : Step a [] ⟨value, true⟩
  | announce (hdue : a.due = true) : Step a [a.value] { a with due := false }

/-- What is due is announced. -/
theorem Step.settle (a : Announcer) :
    a.Step (if a.due then [a.value] else []) { a with due := false } := by
  cases hdue : a.due with
  | true => exact .announce hdue
  | false =>
      have hsame : { a with due := false } = a := congrArg (Announcer.mk a.value) hdue.symm
      rw [hsame]
      exact .still

/-- The log of what was announced is in order, and up to date unless an
announcement is due. -/
structure Told (first : Nat) (log : List Nat) (a : Announcer) : Prop where
  ordered : (first :: log).Pairwise (· < ·)
  current : a.due = false → log.getLastD first = a.value
  behind : a.due = true → log.getLastD first < a.value

variable {first : Nat} {log more : List Nat} {a b : Announcer}

theorem told_start (first : Nat) : Told first [] ⟨first, false⟩ :=
  ⟨List.pairwise_singleton _ _, fun _ => rfl, nofun⟩

/-- Nothing in an ordered log is above its last entry. -/
private theorem le_last (h : (first :: log).Pairwise (· < ·)) {n : Nat} (hn : n ∈ first :: log) :
    n ≤ log.getLastD first := by
  induction log using List.reverseRecOn with
  | nil => exact (List.mem_singleton.mp hn).le
  | append_singleton log last _ =>
      rw [← List.cons_append] at hn h
      rw [List.getLastD_concat]
      rcases List.mem_append.mp hn with hn | hn
      · exact (List.pairwise_append.mp h).2.2 n hn last (List.mem_singleton_self last) |>.le
      · exact (List.mem_singleton.mp hn).le

/-- What was announced last is the most that was announced so far. -/
theorem last_le (h : (first :: (log ++ more)).Pairwise (· < ·)) :
    log.getLastD first ≤ (log ++ more).getLastD first := by
  refine le_last h ?_
  rw [← List.cons_append]
  exact List.mem_append_left _ List.getLastD_mem_cons

theorem Told.raise (h : a.Told first log) {value : Nat} (hlt : a.value < value) :
    Told first log ⟨value, true⟩ := by
  refine ⟨h.ordered, nofun, fun _ => ?_⟩
  cases hdue : a.due with
  | false => exact (h.current hdue).trans_lt hlt
  | true => exact (h.behind hdue).trans hlt

theorem Told.announce (h : a.Told first log) (hdue : a.due = true) :
    Told first (log ++ [a.value]) { a with due := false } := by
  have hbehind := h.behind hdue
  refine ⟨?_, fun _ => List.getLastD_concat .., nofun⟩
  rw [← List.cons_append]
  refine List.pairwise_append.mpr ⟨h.ordered, List.pairwise_singleton _ _, ?_⟩
  intro n hn m hm
  rw [List.mem_singleton.mp hm]
  exact (le_last h.ordered hn).trans_lt hbehind

theorem Told.step (h : a.Told first log) (hstep : a.Step more b) :
    b.Told first (log ++ more) := by
  cases hstep with
  | still => exact (List.append_nil log).symm ▸ h
  | raise hlt => exact (List.append_nil log).symm ▸ h.raise hlt
  | announce hdue => exact h.announce hdue

/-- A value that is raised and announced at once. -/
theorem Told.grant (h : a.Told first log) {value : Nat} (hlt : a.value < value) :
    Told first (log ++ [value]) ⟨value, false⟩ :=
  (h.raise hlt).announce rfl

/-- The value does not fall below the first. -/
theorem Told.first_le (h : a.Told first log) : first ≤ a.value := by
  have hlast := le_last h.ordered List.mem_cons_self
  cases hdue : a.due with
  | false => exact hlast.trans (h.current hdue).le
  | true => exact hlast.trans (h.behind hdue).le

theorem Told.value_mem (h : a.Told first log) (hdue : a.due = false) :
    a.value = first ∨ a.value ∈ log := by
  rw [← h.current hdue]
  exact List.mem_cons.mp List.getLastD_mem_cons

end Announcer

end Qmux
