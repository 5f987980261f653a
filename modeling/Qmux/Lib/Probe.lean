import Mathlib.Tactic

/-!
A monitor sends numbered probes and waits for their answers. It remembers the
time of the first probe since it was last satisfied, and is satisfied by the
answer to the latest probe only. If answers overtake no probe, a monitor that
waits since `time` has sent a probe then and has no answer to it, nor to a
later one.
-/

namespace Qmux.Probe

inductive Event (T : Type*) where
  | asked (sequence : Nat) (time : T)
  | answered (sequence : Nat) (time : T)
deriving DecidableEq, Repr

variable {T : Type*}

structure Monitor (T : Type*) where
  next : Nat
  waiting : Bool
  since : T

namespace Monitor

def ask (v : Monitor T) (now : T) : Monitor T :=
  ⟨v.next + 1, true, if v.waiting then v.since else now⟩

def answer (v : Monitor T) (sequence : Nat) : Monitor T :=
  { v with waiting := v.waiting && decide (sequence + 1 ≠ v.next) }

end Monitor

/-- What a monitor does, with the events of it. -/
inductive Step (v : Monitor T) : List (Event T) → Monitor T → Prop where
  | still : Step v [] v
  | ask (now : T) : Step v [.asked v.next now] (v.ask now)
  | answer (now : T) {sequence : Nat} (hlt : sequence < v.next) :
      Step v [.answered sequence now] (v.answer sequence)

/-- The monitor is not waiting for the probe, nor for one before it. -/
def Settled (n : Nat) (v : Monitor T) : Prop :=
  n < v.next ∧ (n + 1 = v.next → v.waiting = false)

theorem Settled.step {n : Nat} {v v' : Monitor T} {events : List (Event T)} (h : Settled n v)
    (hstep : Step v events v') : Settled n v' := by
  cases hstep with
  | still => exact h
  | ask =>
      obtain ⟨hlt, -⟩ := h
      exact ⟨Nat.lt_succ_of_lt hlt, fun hlast => absurd (Nat.succ.inj hlast) (Nat.ne_of_lt hlt)⟩
  | answer =>
      refine ⟨h.1, fun hlast => ?_⟩
      simp only [Monitor.answer, h.2 hlast, Bool.false_and]

/-- Every answer is to the latest probe of its time, or to one that is not
later than a probe answered before. -/
def Prompt (log : List (Event T)) : Prop :=
  ∀ before n time after, log = before ++ .answered n time :: after →
    (∀ k s, .asked k s ∈ before → k ≤ n) ∨ ∃ m s, .answered m s ∈ before ∧ n ≤ m

theorem Prompt.of_append {log more : List (Event T)} (h : Prompt (log ++ more)) :
    Prompt log := by
  rintro before n time after rfl
  exact h before n time (after ++ more) (by simp)

/-- The probe sent at `time` was not answered, and no later one was. -/
def Unanswered (log : List (Event T)) (time : T) : Prop :=
  ∃ n, .asked n time ∈ log ∧ ∀ m s, .answered m s ∈ log → m < n

structure Sound (log : List (Event T)) (v : Monitor T) : Prop where
  last : v.next = 0 ∨ ∃ s, .asked (v.next - 1) s ∈ log
  answered_lt : ∀ m s, .answered m s ∈ log → m < v.next
  unanswered : v.waiting = true → v.next ≠ 0 ∧ Unanswered log v.since

namespace Sound

variable {log events : List (Event T)} {v v' : Monitor T}

theorem start (since : T) : Sound [] ⟨0, false, since⟩ :=
  ⟨Or.inl rfl, (fun _ _ h => by cases h), (fun h => by cases h)⟩

private theorem ask (h : Sound log v) (now : T) :
    Sound (log ++ [.asked v.next now]) (v.ask now) := by
  have hold {m : Nat} {s : T} (hm : .answered m s ∈ log ++ [.asked v.next now]) :
      .answered m s ∈ log := by simpa using hm
  refine ⟨Or.inr ⟨now, by simp [Monitor.ask]⟩,
    fun m s hm => Nat.lt_succ_of_lt (h.answered_lt m s (hold hm)),
    fun _ => ⟨Nat.succ_ne_zero _, ?_⟩⟩
  unfold Monitor.ask
  split_ifs with hwaiting
  · obtain ⟨-, n, hasked, hnone⟩ := h.unanswered hwaiting
    exact ⟨n, List.mem_append_left _ hasked, fun m s hm => hnone m s (hold hm)⟩
  · exact ⟨v.next, by simp, fun m s hm => h.answered_lt m s (hold hm)⟩

private theorem answer (h : Sound log v) (now : T) {sequence : Nat} (hlt : sequence < v.next)
    (hprompt : Prompt (log ++ [.answered sequence now])) :
    Sound (log ++ [.answered sequence now]) (v.answer sequence) := by
  refine ⟨h.last.imp_right (fun ⟨s, hs⟩ => ⟨s, List.mem_append_left _ hs⟩), fun m s hm => ?_,
    fun hwaiting => ?_⟩
  · rcases List.mem_append.mp hm with hm | hm
    · exact h.answered_lt m s hm
    · cases List.mem_singleton.mp hm
      exact hlt
  · obtain ⟨hwait, hearlier⟩ :
        v.waiting = true ∧ decide (sequence + 1 ≠ v.next) = true := Bool.and_eq_true_iff.mp hwaiting
    obtain ⟨hsent, n, hasked, hnone⟩ := h.unanswered hwait
    obtain ⟨s, hlast⟩ := h.last.resolve_left hsent
    refine ⟨hsent, n, List.mem_append_left _ hasked, fun m s' hm => ?_⟩
    rcases List.mem_append.mp hm with hm | hm
    · exact hnone m s' hm
    · cases List.mem_singleton.mp hm
      rcases hprompt log sequence now [] rfl with hlatest | ⟨k, s'', hk, hle⟩
      · have hle := hlatest _ s hlast
        have hne := of_decide_eq_true hearlier
        omega
      · exact Nat.lt_of_le_of_lt hle (hnone k s'' hk)

theorem step (h : Sound log v) (hstep : Step v events v') (hprompt : Prompt (log ++ events)) :
    Sound (log ++ events) v' := by
  cases hstep with
  | still => exact (List.append_nil log).symm ▸ h
  | ask now => exact h.ask now
  | answer now hlt => exact h.answer now hlt hprompt

end Sound

end Qmux.Probe
