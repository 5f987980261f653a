import Mathlib.Data.List.Basic

/-!
A queue that is written at one end and read at the other, seen through the log
of its calls. What was put in is what was got out and what is left, in order, and
what was seen without being taken is what is got next.
-/

namespace Qmux.Fifo

variable {α : Type*}

/-- A call on a queue, with what it put in, got out or saw. -/
inductive Event (α : Type*) where
  | put (p : List α)
  | got (p : List α)
  | saw (p : List α)
deriving DecidableEq

/-- All that was put in. -/
def put (log : List (Event α)) : List α :=
  log.flatMap (fun
    | .put p => p
    | _ => [])

/-- All that was got out. -/
def got (log : List (Event α)) : List α :=
  log.flatMap (fun
    | .got p => p
    | _ => [])

/-- What is left of the queue `start` after the calls of the log. -/
inductive Run (start : List α) : List (Event α) → List α → Prop where
  | start : Run start [] start
  | put {log : List (Event α)} {queue : List α} (p : List α) (hrun : Run start log queue) :
      Run start (log ++ [.put p]) (queue ++ p)
  | got {log : List (Event α)} {p queue : List α} (hrun : Run start log (p ++ queue)) :
      Run start (log ++ [.got p]) queue
  | saw {log : List (Event α)} {p queue : List α} (hrun : Run start log queue)
      (hstart : p <+: queue) : Run start (log ++ [.saw p]) queue

namespace Run

variable {start queue : List α} {log first second : List (Event α)} {p : List α}

/-- What was there and was put in is what was got out and what is left. -/
theorem balance (hrun : Run start log queue) : start ++ Fifo.put log = Fifo.got log ++ queue := by
  induction hrun with
  | start => simp [Fifo.put, Fifo.got]
  | put p _ ih =>
      simp only [Fifo.put, Fifo.got, List.flatMap_append, List.flatMap_singleton,
        List.append_nil] at ih ⊢
      rw [← List.append_assoc, ih, List.append_assoc]
  | got _ ih =>
      simp only [Fifo.put, Fifo.got, List.flatMap_append, List.flatMap_singleton,
        List.append_nil] at ih ⊢
      rw [ih, List.append_assoc]
  | saw _ _ ih =>
      simp only [Fifo.put, Fifo.got, List.flatMap_append, List.flatMap_singleton,
        List.append_nil] at ih ⊢
      exact ih

private theorem last_cases {x last : Event α} {log : List (Event α)}
    (hlog : first ++ x :: second = log ++ [last]) :
    (second = [] ∧ x = last) ∨
      ∃ before, second = before ++ [last] ∧ first ++ x :: before = log := by
  rcases List.eq_nil_or_concat second with rfl | ⟨before, y, rfl⟩
  · exact Or.inl ⟨rfl, (List.append_inj_right' hlog rfl |> List.cons.inj).1⟩
  · have hsame : (first ++ x :: before) ++ [y] = log ++ [last] := by
      rw [← hlog, List.append_assoc, List.cons_append, List.concat_eq_append]
    obtain ⟨hbefore, hy⟩ := List.append_inj' hsame rfl
    obtain rfl := (List.cons.inj hy).1
    exact Or.inr ⟨before, List.concat_eq_append, hbefore⟩

/-- What was seen is the start of what is got from then on and what is left. -/
theorem seen (hrun : Run start (first ++ .saw p :: second) queue) :
    p <+: Fifo.got second ++ queue := by
  generalize hlog : first ++ .saw p :: second = log at hrun
  induction hrun generalizing second with
  | start => simp at hlog
  | put q _ ih =>
      rcases last_cases hlog with ⟨-, h⟩ | ⟨before, rfl, hbefore⟩
      · cases h
      · have hthere := ih hbefore
        simp only [Fifo.got, List.flatMap_append, List.flatMap_singleton, List.append_nil] at hthere ⊢
        rw [← List.append_assoc]
        exact hthere.trans (List.prefix_append _ _)
  | got _ ih =>
      rcases last_cases hlog with ⟨-, h⟩ | ⟨before, rfl, hbefore⟩
      · cases h
      · have hthere := ih hbefore
        simp only [Fifo.got, List.flatMap_append, List.flatMap_singleton] at hthere ⊢
        rw [List.append_assoc]
        exact hthere
  | saw _ hstart ih =>
      rcases last_cases hlog with ⟨rfl, h⟩ | ⟨before, rfl, hbefore⟩
      · obtain rfl := Event.saw.inj h
        exact hstart
      · have hthere := ih hbefore
        simp only [Fifo.got, List.flatMap_append, List.flatMap_singleton, List.append_nil] at hthere ⊢
        exact hthere

end Run

end Qmux.Fifo
