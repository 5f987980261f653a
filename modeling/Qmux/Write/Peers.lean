import Qmux.Write.Calls

/-!
Two endpoints and the calls of `Write` on each. A run of theirs is a run of the
system of the two endpoints in which only calls of `write` reserve credit, and on
each side the calls have put what the endpoint has reserved.
-/

namespace Qmux

open Wire

namespace Peers

variable [Quicvarint] [GoAppend] {config : Bool → Config} {σ σ' : Peers} {s : Bool}
  {log : List (Bool × Ref × ReadResult)}

/-- Each side follows a run of its own, in which the calls of `write` reserve credit. -/
structure Follows (config : Bool → Config) (log : List (Bool × Ref × ReadResult)) (σ : Peers)
    (s : Bool) (labels : List Action) : Prop where
  system : System.Follows config log σ.system s labels
  reserved : Machine.run (Machine.watch Endpoint.step Endpoint.reservedBy)
    (.new (config s) s, []) labels = some (σ.system.ends s, (σ.writes s).reserved)
  sound : (σ.writes s).Sound (σ.system.ends s).writeMu

/-- What a step can be: one of a call alone, one of a side and its calls, or a delivery. -/
inductive Stepped (σ : Peers) : Event → Peers → Prop where
  | call {s : Bool} {ev : WriteEvent} {w : WriteCalls}
      (haction : (σ.writes s).action ev = none)
      (hnext : (σ.writes s).next (σ.system.ends s) (σ.system.ends s) ev = some w) :
      Stepped σ (.side s ev) { σ with writes := Function.update σ.writes s w }
  | act {s : Bool} {ev : WriteEvent} {a : Action} {system : System} {w : WriteCalls}
      (haction : (σ.writes s).action ev = some a)
      (hsystem : σ.system.step (.act s a) = some system)
      (hnext : (σ.writes s).next (σ.system.ends s) (system.ends s) ev = some w) :
      Stepped σ (.side s ev) ⟨system, Function.update σ.writes s w⟩
  | deliver {s : Bool} {now : Time} {system : System}
      (hsystem : σ.system.step (.deliver s now) = some system) :
      Stepped σ (.deliver s now) { σ with system := system }

theorem stepped {ev : Event} (hstep : σ.step ev = some σ') : σ.Stepped ev σ' := by
  cases ev with
  | side s ev =>
      simp only [step] at hstep
      split at hstep
      · rename_i haction
        obtain ⟨w, hnext, rfl⟩ := Option.map_eq_some_iff.mp hstep
        exact .call haction hnext
      · rename_i a haction
        obtain ⟨system, hsystem, hrest⟩ := Option.bind_eq_some_iff.mp hstep
        obtain ⟨w, hnext, rfl⟩ := Option.map_eq_some_iff.mp hrest
        exact .act haction hsystem hnext
  | deliver s now =>
      obtain ⟨system, hsystem, rfl⟩ := Option.map_eq_some_iff.mp hstep
      exact .deliver hsystem

omit [GoAppend] in
/-- The readers are returned what the step of the endpoint returns. -/
private theorem readsBy_act {ev : WriteEvent} {a : Action}
    (haction : (σ.writes s).action ev = some a) :
    σ.readsBy (.side s ev) = σ.system.readsBy (.act s a) := by
  cases ev with
  | trySend i now =>
      obtain ⟨c, -, rfl⟩ := Option.map_eq_some_iff.mp haction
      rfl
  | lock i =>
      obtain ⟨c, -, rfl⟩ := Option.map_eq_some_iff.mp haction
      rfl
  | act b =>
      obtain rfl := Option.some.inj haction
      rfl
  | _ => cases haction

omit [GoAppend] in
private theorem readsBy_call {ev : WriteEvent} (haction : (σ.writes s).action ev = none) :
    σ.readsBy (.side s ev) = [] := by
  cases ev with
  | act => cases haction
  | _ => rfl

private theorem system_step {ev : Event} (hstep : σ.step ev = some σ') :
    ∃ events, Machine.run (Machine.watch System.step System.readsBy) (σ.system, log) events =
      some (σ'.system, log ++ σ.readsBy ev) := by
  have hone {ev' : System.Event} (hsystem : σ.system.step ev' = some σ'.system)
      (hreads : σ.readsBy ev = σ.system.readsBy ev') :
      ∃ events, Machine.run (Machine.watch System.step System.readsBy) (σ.system, log) events =
        some (σ'.system, log ++ σ.readsBy ev) := by
    refine ⟨[ev'], ?_⟩
    simp [Machine.run, Machine.watch, hsystem, hreads]
  cases stepped hstep with
  | call haction =>
      refine ⟨[], ?_⟩
      rw [readsBy_call haction, List.append_nil]
      rfl
  | act haction hsystem => exact hone hsystem (readsBy_act haction)
  | deliver hsystem => exact hone hsystem rfl

/-- A run of the two sides is a run of the system of their endpoints. -/
theorem system_run {events : List Event}
    (hrun : Machine.run (Machine.watch step readsBy) (new config, []) events = some (σ, log)) :
    ∃ events, Machine.run (Machine.watch System.step System.readsBy) (System.new config, [])
      events = some (σ.system, log) := by
  have hview : ∀ (x : Peers × List (Bool × Ref × ReadResult)) ev x', True →
      Machine.watch step readsBy x ev = some x' →
      True ∧ ∃ events, Machine.run (Machine.watch System.step System.readsBy) (x.1.system, x.2)
        events = some (x'.1.system, x'.2) := by
    rintro ⟨σ, log⟩ ev ⟨σ', log'⟩ - hwatch
    obtain ⟨hstep, rfl⟩ := Machine.watch_step hwatch
    exact ⟨trivial, system_step hstep⟩
  exact (Machine.run_view hview trivial hrun).2

/-- One side moves, with its calls. -/
private theorem follows_moved (h : ∀ i, ∃ labels, Follows config log σ i labels)
    {ev : System.Event} {a : Action} (hmoved : σ.system.Moved ev s a σ'.system)
    (hother : σ'.writes (!s) = σ.writes (!s))
    (hsound : (σ'.writes s).Sound (σ'.system.ends s).writeMu)
    (hreserved : (σ'.writes s).reserved =
      (σ.writes s).reserved ++ (σ.system.ends s).reservedBy a) (i : Bool) :
    ∃ labels, Follows config (log ++ σ.system.readsBy ev) σ' i labels := by
  obtain ⟨labels, hfollows⟩ := h i
  rcases Bool.eq_or_eq_not i s with rfl | rfl
  · refine ⟨labels ++ [a], hfollows.system.step hmoved, ?_, hsound⟩
    rw [Machine.run_append, hfollows.reserved, hreserved]
    simp [Machine.run, Machine.watch, hmoved.step]
  · refine ⟨labels, hfollows.system.aside hmoved, ?_, ?_⟩
    · rw [hfollows.reserved, hmoved.other, hother]
    · rw [hmoved.other, hother]
      exact hfollows.sound

/-- Both sides follow their own runs. -/
theorem follows {events : List Event}
    (hrun : Machine.run (Machine.watch step readsBy) (new config, []) events = some (σ, log))
    (i : Bool) : ∃ labels, Follows config log σ i labels := by
  refine Machine.trace_invariant
    (P := fun _ (x : Peers × List (Bool × Ref × ReadResult)) =>
      ∀ i, ∃ labels, Follows config x.2 x.1 i labels) ?_ ?_ events (σ, log) hrun i
  · intro i
    refine ⟨[], ⟨rfl, by simp [System.heard, new, System.new], Nat.zero_le _⟩, rfl, ?_⟩
    exact WriteCalls.sound_start (fun r p => by simp [new, System.new, Endpoint.new])
  · rintro events ⟨σ, log⟩ ev ⟨σ', log'⟩ ih hstep
    obtain ⟨hstep, rfl⟩ := Machine.watch_step hstep
    dsimp only at ih hstep ⊢
    cases stepped hstep with
    | @call s ev w haction hnext =>
        intro i
        obtain ⟨labels, hfollows⟩ := ih i
        rw [readsBy_call haction, List.append_nil]
        rcases Bool.eq_or_eq_not i s with rfl | rfl
        · obtain ⟨hsound, hreserved⟩ := hfollows.sound.next hnext (fun _ => rfl)
            (fun a ha => by rw [haction] at ha; cases ha)
          rw [haction] at hreserved
          refine ⟨labels, hfollows.system, ?_, ?_⟩
          · rw [hfollows.reserved]
            simp [hreserved]
          · simpa using hsound
        · refine ⟨labels, hfollows.system, ?_, ?_⟩
          · simpa using hfollows.reserved
          · simpa using hfollows.sound
    | @act s ev a system w haction hsystem hnext =>
        obtain ⟨-, hmoved⟩ := System.act_moved hsystem
        obtain ⟨labels, hfollows⟩ := ih s
        obtain ⟨hsound, hreserved⟩ := hfollows.sound.next hnext
          (fun hnone => by rw [hnone] at haction; cases haction)
          (fun b hb => Option.some.inj (haction.symm.trans hb) ▸ hmoved.step)
        rw [haction] at hreserved
        rw [readsBy_act haction]
        exact follows_moved ih hmoved (by simp) (by simpa using hsound) (by simpa using hreserved)
    | @deliver s now system hsystem =>
        obtain ⟨rec, hmoved⟩ := System.deliver_moved hsystem
        obtain ⟨labels, hfollows⟩ := ih s
        have hsound : (σ.writes s).Sound (system.ends s).writeMu := by
          rw [Endpoint.step_writeMu hmoved.step rfl]
          exact hfollows.sound
        have hreads : σ.readsBy (.deliver s now) = σ.system.readsBy (.deliver s now) := rfl
        rw [hreads]
        exact follows_moved ih hmoved rfl hsound (List.append_nil _).symm

/-- A side, with traffic in which the data of a stream is what its calls have put. -/
theorem Follows.traced {labels : List Action} (hvalid : ∀ s, (config s).Valid)
    (h : Follows config log σ s labels) :
    ∃ t, System.Traced config σ.system s t ∧
      ∀ id, Transfer.payload (t.handed.filterMap (Frame.message? id)) = σ.written s id := by
  obtain ⟨-, t₀, c₀, t, htraced, hdata⟩ := Endpoint.traced_reserved (hvalid s) h.reserved
  rw [h.system.heard] at htraced
  exact ⟨t, ⟨t₀, c₀, htraced⟩, hdata⟩

end Peers

end Qmux
