import Mathlib.Tactic

/-!
Deterministic labelled machines. A machine is a partial step function; the
label resolves every choice the environment or the scheduler makes, so that a
run is determined by its labels. A step that is not enabled has no successor.

Two rules package the induction over runs: an invariant of one step is an
invariant of every run, also when it relates the state to the labels taken so
far. A machine can be watched: then its states carry the log of what the steps
put out. And it can be guarded: then it takes only the steps that are allowed. A
machine may be a more detailed view of another one.

Steps that use up a potential cannot go on for longer than there is of it.
-/

namespace Qmux.Machine

variable {S A : Type*}

/-- The state a list of labels leads to, when every step is enabled. -/
def run (step : S → A → Option S) : S → List A → Option S
  | s, [] => some s
  | s, a :: rest => (step s a).bind (fun next => run step next rest)

theorem run_append (step : S → A → Option S) (s : S) (first second : List A) :
    run step s (first ++ second) =
      (run step s first).bind (fun mid => run step mid second) := by
  induction first generalizing s with
  | nil => rfl
  | cons a rest ih =>
      simp only [List.cons_append, run]
      cases step s a with
      | none => rfl
      | some next => exact ih next

theorem run_concat {step : S → A → Option S} {s mid t : S} {labels : List A} {a : A}
    (hrun : run step s labels = some mid) (hstep : step mid a = some t) :
    run step s (labels ++ [a]) = some t := by
  rw [run_append, hrun]
  simp [run, hstep]

theorem run_snoc {step : S → A → Option S} {s t : S} {labels : List A} {a : A}
    (hrun : run step s (labels ++ [a]) = some t) :
    ∃ mid, run step s labels = some mid ∧ step mid a = some t := by
  rw [run_append] at hrun
  cases hmid : run step s labels with
  | none => simp [hmid] at hrun
  | some mid =>
      refine ⟨mid, rfl, ?_⟩
      simpa [hmid, run] using hrun

/-- An invariant that may mention the labels taken so far. -/
theorem trace_invariant {step : S → A → Option S} {P : List A → S → Prop}
    {start : S} (hstart : P [] start)
    (hstep : ∀ labels s a t, P labels s → step s a = some t →
      P (labels ++ [a]) t) :
    ∀ labels s, run step start labels = some s → P labels s := by
  intro labels
  induction labels using List.reverseRecOn with
  | nil =>
      intro s hrun
      obtain rfl : start = s := Option.some.inj hrun
      exact hstart
  | append_singleton labels a ih =>
      intro t hrun
      obtain ⟨s, hprior, hlast⟩ := run_snoc hrun
      exact hstep labels s a t (ih s hprior) hlast

/-- The states a machine reaches from `start`. -/
def Reachable (step : S → A → Option S) (start s : S) : Prop :=
  ∃ labels, run step start labels = some s

theorem invariant {step : S → A → Option S} {P : S → Prop} {start s : S}
    (hstart : P start)
    (hstep : ∀ s a t, P s → step s a = some t → P t)
    (hreach : Reachable step start s) : P s := by
  obtain ⟨labels, hrun⟩ := hreach
  exact trace_invariant (P := fun _ s => P s) hstart
    (fun _ s a t hs ht => hstep s a t hs ht) labels s hrun

/-- The machine that also logs what each step puts out. -/
def watch {L : Type*} (step : S → A → Option S) (out : S → A → List L) (s : S × List L) (a : A) :
    Option (S × List L) :=
  (step s.1 a).map (fun next => (next, s.2 ++ out s.1 a))

theorem watch_step {L : Type*} {step : S → A → Option S} {out : S → A → List L}
    {s t : S × List L} {a : A} (hstep : watch step out s a = some t) :
    step s.1 a = some t.1 ∧ t.2 = s.2 ++ out s.1 a := by
  obtain ⟨next, hnext, rfl⟩ := Option.map_eq_some_iff.mp hstep
  exact ⟨hnext, rfl⟩

/-- A run that is watched is a run. -/
theorem run_of_watch {L : Type*} {step : S → A → Option S} {out : S → A → List L}
    {start s : S × List L} {labels : List A} (hrun : run (watch step out) start labels = some s) :
    run step start.1 labels = some s.1 := by
  induction labels generalizing start with
  | nil => exact congrArg (Option.map Prod.fst) hrun
  | cons a labels ih =>
      obtain ⟨mid, hmid, hrest⟩ := Option.bind_eq_some_iff.mp hrun
      rw [run, (watch_step hmid).1]
      exact ih hrest

/-- Every run can be watched. -/
theorem exists_watch {L : Type*} {step : S → A → Option S} (out : S → A → List L) {s t : S}
    (log : List L) {labels : List A} (hrun : run step s labels = some t) :
    ∃ log', run (watch step out) (s, log) labels = some (t, log') := by
  induction labels generalizing s log with
  | nil => exact ⟨log, congrArg (Option.map (fun t => (t, log))) hrun⟩
  | cons a labels ih =>
      obtain ⟨mid, hmid, hrest⟩ := Option.bind_eq_some_iff.mp hrun
      obtain ⟨log', hlog'⟩ := ih (log ++ out s a) hrest
      refine ⟨log', ?_⟩
      rw [run, watch, hmid]
      exact hlog'

/-- The machine that takes only the steps that `ok` allows. -/
def guard (ok : S → A → Bool) (step : S → A → Option S) (s : S) (a : A) : Option S :=
  if ok s a then step s a else none

theorem guard_step {ok : S → A → Bool} {step : S → A → Option S} {s t : S} {a : A}
    (hstep : guard ok step s a = some t) : ok s a = true ∧ step s a = some t :=
  Option.ite_none_right_eq_some.mp hstep

/-- A machine whose every step is a run of another machine, as far as `view` shows its states,
is that other machine over whole runs. -/
theorem run_view {T B : Type*} {step : S → A → Option S} {other : T → B → Option T}
    {view : S → T} {P : S → Prop}
    (hstep : ∀ s a t, P s → step s a = some t →
      P t ∧ ∃ labels, run other (view s) labels = some (view t))
    {s t : S} {labels : List A} (hs : P s) (hrun : run step s labels = some t) :
    P t ∧ ∃ labels, run other (view s) labels = some (view t) := by
  induction labels generalizing s with
  | nil =>
      obtain rfl := Option.some.inj hrun
      exact ⟨hs, [], rfl⟩
  | cons a labels ih =>
      obtain ⟨mid, hmid, hrest⟩ := Option.bind_eq_some_iff.mp hrun
      obtain ⟨hkept, first, hfirst⟩ := hstep s a mid hs hmid
      obtain ⟨ht, second, hsecond⟩ := ih hkept hrest
      refine ⟨ht, first ++ second, ?_⟩
      rw [run_append, hfirst]
      exact hsecond

/-- A run of steps that each use up some of the potential is no longer than the potential
it starts with, and keeps what each of its steps keeps. -/
theorem run_le_potential {step : S → A → Option S} {P : S → Prop} {own : A → Prop}
    {potential : S → Nat} {s t : S} {labels : List A}
    (hstep : ∀ s a mid rest, P s → own a → step s a = some mid → run step mid rest = some t →
      P mid ∧ potential mid < potential s)
    (hs : P s) (hown : ∀ a ∈ labels, own a) (hrun : run step s labels = some t) :
    P t ∧ labels.length + potential t ≤ potential s := by
  induction labels generalizing s with
  | nil =>
      obtain rfl := Option.some.inj hrun
      exact ⟨hs, (Nat.zero_add _).le⟩
  | cons a labels ih =>
      obtain ⟨mid, hmid, hrest⟩ := Option.bind_eq_some_iff.mp hrun
      obtain ⟨hkept, hlt⟩ := hstep s a mid labels hs (hown a List.mem_cons_self) hmid hrest
      obtain ⟨ht, hle⟩ := ih hkept (fun b hb => hown b (List.mem_cons_of_mem a hb)) hrest
      refine ⟨ht, ?_⟩
      rw [List.length_cons]
      omega

end Qmux.Machine
