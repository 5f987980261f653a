import Qmux.Clock.Basic
import Qmux.Reasons.Closing

/-!
The idle timeout is kept. A connection is closed for being idle only if no record was
sent or received for the idle timeout, or if the peer has left a ping unanswered for so
long; this as long as no response to a ping is overtaken by a later request. And when a
connection was idle for so long, the idle loop closes it as soon as it is run.
-/

namespace Qmux

open Wire

namespace Conn

variable [Quicvarint] [GoAppend] {heard : Parsed → Prop} {t₀ t : Traffic} {c₀ c c' : Conn}

/-- The idle timeout is settled with the handshake. -/
private theorem idleTimeout_of_move (hmove : Move heard c t c') (hready : c.ready = true) :
    c'.ready = true ∧ c'.idleTimeout = c.idleTimeout := by
  have hsame (hfields : (c'.ready, c'.idleTimeout) = (c.ready, c.idleTimeout)) :
      c'.ready = true ∧ c'.idleTimeout = c.idleTimeout := by
    obtain ⟨hready', htimeout⟩ := Prod.mk.inj hfields
    exact ⟨hready'.trans hready, htimeout⟩
  cases hmove with
  | still htook hhanded hpings hreads hcore =>
      exact hsame (congrArg (fun d : Conn => (d.ready, d.idleTimeout)) hcore :)
  | act hopen hact =>
      exact hsame (hact.touches.view (fun d => (d.ready, d.idleTimeout)) fun _ _ _ _ _ _ => rfl)
  | parameters hopen hunready =>
      rw [hready] at hunready
      cases hunready
  | accept =>
      exact hsame (completeLocked_view (fun d => (d.ready, d.idleTimeout))
        (fun _ _ _ _ _ => rfl) _ _)
  | @raiseStreams f =>
      apply hsame
      obtain ⟨out, hout⟩ := c.handleMaxStreams_frame f
      rw [hout]
  | @flush now =>
      apply hsame
      obtain ⟨_, _, _, _, hflush⟩ := c.flushed_frame now
      rw [hflush]
  | _ => exact hsame rfl

private theorem Since.idleTimeout (hsince : Since heard t₀ c₀ t c) (hready : c₀.ready = true) :
    c.ready = true ∧ c.idleTimeout = c₀.idleTimeout := by
  induction hsince with
  | start => exact ⟨hready, rfl⟩
  | move _ hmove ih =>
      obtain ⟨hready', htimeout⟩ := idleTimeout_of_move hmove ih.1
      exact ⟨hready', htimeout.trans ih.2⟩
  | terminate err _ ih =>
      unfold Conn.terminate
      split_ifs <;> exact ih

end Conn

namespace Endpoint

variable [Quicvarint] [GoAppend] {config : Config} {isServer : Bool} {labels : List Action}
  {e e' : Endpoint}

private theorem step_idleTimeout (hconfig : config.Valid)
    (hrun : Machine.run step (new config isServer) labels = some e) {a : Action}
    (hstep : e.step a = some e') (hready : e.conn.ready = true) :
    e'.conn.ready = true ∧ e'.conn.idleTimeout = e.conn.idleTimeout := by
  obtain ⟨_, _, t, htraced⟩ := traced hconfig hrun
  obtain ⟨more, hnext, -⟩ := htraced.restart.step hconfig.recordSize_le hstep
  exact hnext.past.since.idleTimeout hready

end Endpoint

namespace Clocked

variable [Quicvarint] [GoAppend] {config : Config} {isServer : Bool} {start : Time}
  {events : List Event} {k k' : Clocked} {ev : Event} {log : List Time}
  {pings : List PingEvent}

/-- The time at which a step sends or receives a record. -/
def activityBy (k : Clocked) : Event → List Time
  | .act a => if touches k.endpoint a then [k.now] else []
  | _ => []

/-- The connection with the log of its activity. -/
def active : Clocked × List Time → Event → Option (Clocked × List Time) :=
  Machine.watch step activityBy

/-- Nothing was sent or received for the idle timeout when the idle loop looked. -/
def Silent (start : Time) (k : Clocked) (log : List Time) (ev : Event) : Prop :=
  ev = .check ∧ ∀ time ∈ start :: log, time ≤ k.now - k.endpoint.conn.idleTimeout

/-- A ping that was sent the idle timeout ago had no response, nor had a later one, when the
keep-alive loop got a tick. -/
def Unresponsive (k : Clocked) (pings : List PingEvent) (ev : Event) : Prop :=
  ev = .tick ∧ ∃ time ≤ k.now - k.endpoint.conn.idleTimeout, Probe.Unanswered pings time

/-- In the course of the run the peer was silent or unresponsive for the idle timeout. -/
def Idle (config : Config) (isServer : Bool) (start : Time) (events : List Event) : Prop :=
  ∃ before ev after k log pings, events = before ++ ev :: after ∧
    Machine.run active (new config isServer start, []) before = some (k, log) ∧
    Machine.run pinging (new config isServer start, []) before = some (k, pings) ∧
    0 < k.endpoint.conn.idleTimeout ∧ (Silent start k log ev ∨ Unresponsive k pings ev)

theorem Idle.append (h : Idle config isServer start events) (more : List Event) :
    Idle config isServer start (events ++ more) := by
  obtain ⟨before, ev, after, k, log, pings, rfl, hrest⟩ := h
  exact ⟨before, ev, after ++ more, k, log, pings, by simp, hrest⟩

/-- The last activity is the last of the log. -/
theorem activity_le
    (hrun : Machine.run active (new config isServer start, []) events = some (k, log)) :
    (∀ time ∈ start :: log, time ≤ k.lastActivity) ∧ k.lastActivity ≤ k.now := by
  refine Machine.trace_invariant (P := fun _ (x : Clocked × List Time) =>
    (∀ time ∈ start :: x.2, time ≤ x.1.lastActivity) ∧ x.1.lastActivity ≤ x.1.now)
    ⟨by simp [new], le_refl _⟩ ?_ events (k, log) hrun
  rintro _ ⟨k, log⟩ ev ⟨k', log'⟩ ⟨hlog, hpast⟩ hwatch
  obtain ⟨hstep, rfl⟩ := Machine.watch_step hwatch
  dsimp only at hlog hpast ⊢
  cases stepped hstep with
  | passes hlater =>
      simp only [activityBy, List.append_nil]
      exact ⟨hlog, hpast.trans hlater⟩
  | @act a e _ _ =>
      cases htouches : touches k.endpoint a with
      | false =>
          simp only [activityBy, htouches, Bool.false_eq_true, if_false, List.append_nil]
          exact ⟨hlog, hpast⟩
      | true =>
          simp only [activityBy, htouches, if_true]
          refine ⟨fun time htime => ?_, le_refl _⟩
          rw [← List.cons_append, List.mem_append, List.mem_singleton] at htime
          rcases htime with hold | rfl
          · exact (hlog time hold).trans hpast
          · exact le_refl _
  | _ =>
      simp only [activityBy, List.append_nil]
      exact ⟨hlog, hpast⟩

/-- A loop that is about to close the connection has a reason. -/
private structure Warranted (config : Config) (isServer : Bool) (start : Time)
    (events : List Event) (k : Clocked) : Prop where
  idleLoop : k.idleLoop = .close false → Idle config isServer start events
  keepAliveLoop : k.keepAliveLoop = .close → Idle config isServer start events
  explained : k.endpoint.Explained (fun a => a = .idleTimeout → Idle config isServer start events)
    (fun _ => True) True

private theorem warranted (hconfig : config.Valid)
    (hrun : Machine.run pinging (new config isServer start, []) events = some (k, pings))
    (hprompt : Probe.Prompt pings) : Warranted config isServer start events k := by
  refine (Machine.trace_invariant (P := fun events (x : Clocked × List PingEvent) =>
    Machine.run pinging (new config isServer start, []) events = some x ∧
      (Probe.Prompt x.2 → Warranted config isServer start events x.1)) ⟨rfl, fun _ => ?_⟩ ?_
    events (k, pings) hrun).2 hprompt
  · refine ⟨(fun h => by cases h), fun h => ?_, (fun err h => by cases h), (fun err h => by cases h)⟩
    simp only [new] at h
    split_ifs at h
  · rintro events ⟨k, pings⟩ ev ⟨k', pings'⟩ ⟨hprior, h⟩ hwatch
    refine ⟨Machine.run_concat hprior hwatch, fun hprompt => ?_⟩
    obtain ⟨hstep, rfl⟩ := Machine.watch_step hwatch
    have hbefore : Probe.Prompt pings := hprompt.of_append
    have h := h hbefore
    have hbare := Machine.run_of_watch hprior
    obtain ⟨log, hactive⟩ := Machine.exists_watch activityBy [] hbare
    obtain ⟨labels, hlabels⟩ := run_endpoint hbare
    have hsize := Endpoint.recordSize_le hconfig hlabels
    have hmore (hidle : Idle config isServer start events) := hidle.append [ev]
    have hexplained : k.endpoint.Explained
        (fun a => a = .idleTimeout → Idle config isServer start (events ++ [ev]))
        (fun _ => True) True :=
      h.explained.mono (fun a ha hcase => hmore (ha hcase)) (fun _ h => h)
    have hlater {a : Action} {e : Endpoint} (ha : k.endpoint.step a = some e)
        (hcause : a = .idleTimeout → Idle config isServer start events) :
        e.Explained (fun a => a = .idleTimeout → Idle config isServer start (events ++ [ev]))
          (fun _ => True) True :=
      hexplained.step hsize (fun _ hcase => hmore (hcause hcase)) (fun _ _ => trivial)
        (fun _ _ => trivial) ha
    have hidle (hloop : k.idleLoop = .close false) := hmore (h.idleLoop hloop)
    have hkeepAlive (hloop : k.keepAliveLoop = .close) := hmore (h.keepAliveLoop hloop)
    -- a loop decides to close the connection by looking at the clock
    have hdecides (htimeout : 0 < k.endpoint.conn.idleTimeout)
        (hreason : Silent start k log ev ∨ Unresponsive k pings ev) :
        Idle config isServer start (events ++ [ev]) :=
      ⟨events, ev, [], k, log, pings, rfl, hactive, hprior, htimeout, hreason⟩
    cases stepped hstep with
    | @act a e hallows he =>
        refine ⟨hidle, hkeepAlive, hlater he (fun hcase => ?_)⟩
        rw [hcase] at hallows
        cases hallows
    | check hloop =>
        refine ⟨fun hclose => ?_, hkeepAlive, hexplained⟩
        simp only [checked] at hclose
        split_ifs at hclose with htimeout hremaining
        refine hdecides htimeout (Or.inl ⟨rfl, fun time htime => ?_⟩)
        exact ((activity_le hactive).1 time htime).trans (le_sub_comm.mp (sub_nonpos.mp hremaining))
    | @closes handshake e hloop he =>
        refine ⟨(fun hcase => by cases hcase), hkeepAlive, hlater he (fun hcase => ?_)⟩
        cases handshake with
        | false => exact h.idleLoop hloop
        | true => cases hcase
    | @tick tick e hloop hdue he =>
        refine ⟨hidle, fun hclose => ?_, hlater he (fun hcase => by cases hcase)⟩
        dsimp only at hclose
        split_ifs at hclose with hdead
        rw [Bool.not_eq_true] at hdead
        obtain ⟨hunanswered, htimeout, hlong⟩ := Conn.requestPing_false hdead
        obtain ⟨labels, hpinging⟩ := run_pinging hprior
        exact hdecides htimeout (Or.inr ⟨rfl, _, hlong,
          Endpoint.unanswered_of_pinging hconfig hpinging hbefore hunanswered⟩)
    | givesUp hloop he =>
        exact ⟨hidle, (fun hcase => by cases hcase), hlater he (fun _ => h.keepAliveLoop hloop)⟩
    | keepAliveEnds => exact ⟨hidle, (fun hcase => by cases hcase), hexplained⟩
    | passes => exact ⟨hidle, hkeepAlive, hexplained⟩
    | _ => exact ⟨(fun hcase => by cases hcase), hkeepAlive, hexplained⟩

/-- A connection is not closed for being idle before its time. In every run in which no
response to a ping was overtaken by a later request, whenever it was closed there was a
moment at which no record had been sent or received for the idle timeout, or a ping had been
unanswered for so long. -/
theorem idleTimeout_sound (config : Option Config) (isServer : Bool) (start : Time)
    {events : List Event} {k : Clocked} {pings : List PingEvent}
    (hrun : Machine.run pinging (new (Config.normalized config) isServer start, []) events =
      some (k, pings)) (hprompt : Probe.Prompt pings)
    (hclosed : k.endpoint.conn.closeErr = some .idleTimeout) :
    Idle (Config.normalized config) isServer start events :=
  (warranted (Config.normalized_valid config) hrun hprompt).explained.closed _ hclosed rfl

/-- The idle loop of an open connection goes on, and its timer is set for the time at which
the connection will have been idle for too long, or earlier. -/
def Armed (k : Clocked) : Prop :=
  match k.idleLoop with
  | .handshake _ | .close true => True
  | .check | .close false => k.endpoint.conn.ready = true
  | .sleep none => k.endpoint.conn.ready = true ∧ k.endpoint.conn.idleTimeout ≤ 0
  | .sleep (some deadline) => k.endpoint.conn.ready = true ∧
      deadline ≤ k.lastActivity + k.endpoint.conn.idleTimeout
  | .ended => False

omit [GoAppend] in
/-- More activity, and whatever the endpoint does. -/
private theorem Armed.later (h : k.Armed) (hloop : k'.idleLoop = k.idleLoop)
    (hactivity : k.lastActivity ≤ k'.lastActivity)
    (hkept : k.endpoint.conn.ready = true → k'.endpoint.conn.ready = true ∧
      k'.endpoint.conn.idleTimeout = k.endpoint.conn.idleTimeout) : k'.Armed := by
  unfold Armed at h ⊢
  rw [hloop]
  split at h
  · trivial
  · trivial
  · exact (hkept h).1
  · exact (hkept h).1
  · obtain ⟨hready, htimeout⟩ := hkept h.1
    exact ⟨hready, htimeout ▸ h.2⟩
  · obtain ⟨hready, htimeout⟩ := hkept h.1
    refine ⟨hready, h.2.trans ?_⟩
    rw [htimeout]
    exact Int.add_le_add_right hactivity _
  · exact h

theorem armed (hconfig : config.Valid)
    (hrun : Machine.run step (new config isServer start) events = some k)
    (hopen : k.endpoint.conn.closeErr = none) : k.Armed := by
  refine (Machine.trace_invariant (P := fun events k =>
    Machine.run step (new config isServer start) events = some k ∧
      (k.endpoint.conn.closeErr = none → k.Armed)) ⟨rfl, fun _ => trivial⟩ ?_ events k hrun).2 hopen
  rintro events k ev k' ⟨hprior, h⟩ hstep
  refine ⟨by simp [Machine.run_append, hprior, Machine.run, hstep], fun hopen => ?_⟩
  obtain ⟨labels, hlabels⟩ := run_endpoint hprior
  obtain ⟨log, hactive⟩ := Machine.exists_watch activityBy [] hprior
  obtain ⟨_, _, t, htraced⟩ := Endpoint.traced hconfig hlabels
  have hcause : k.endpoint.conn.cause = k.endpoint.conn.closeErr := htraced.cause
  have hover := htraced.past.history.handshakeOnce
  have hsize := Endpoint.recordSize_le hconfig hlabels
  have hbefore {a : Action} {e : Endpoint} (ha : k.endpoint.step a = some e)
      (hopen : e.conn.closeErr = none) : k.endpoint.conn.closeErr = none := by
    rw [Endpoint.step_closeErr hsize ha] at hopen
    exact (Option.or_eq_none_iff.mp hopen).1
  cases stepped hstep with
  | passes => exact (h hopen).later rfl (le_refl _) (fun hready => ⟨hready, rfl⟩)
  | act _ he =>
      refine (h (hbefore he hopen)).later rfl ?_ (Endpoint.step_idleTimeout hconfig hlabels he)
      dsimp only
      split_ifs
      · exact (activity_le hactive).2
      · exact le_refl _
  | tick _ _ he =>
      exact (h (hbefore he hopen)).later rfl (le_refl _)
        (Endpoint.step_idleTimeout hconfig hlabels he)
  | handshaken _ hclosed =>
      change k.endpoint.conn.closeErr = none at hopen
      change k.endpoint.conn.ready = true
      by_contra hunready
      rw [Conn.HandshakeOnce] at hover
      simp only [hunready, hopen, Option.isSome_none, Bool.false_eq_true, or_self, if_false] at hover
      omega
  | overdue => trivial
  | wakes hloop =>
      have harmed := h hopen
      simp only [Armed, hloop] at harmed
      exact harmed.1
  | idleEnds hended =>
      rw [hcause, hopen] at hended
      cases hended
  | check hloop =>
      have harmed := h hopen
      simp only [Armed, hloop] at harmed
      simp only [checked]
      split_ifs with htimeout hremaining
      · exact harmed
      · refine ⟨harmed, le_of_eq ?_⟩
        dsimp only
        ring
      · exact ⟨harmed, not_lt.mp htimeout⟩
  | @closes handshake e _ he =>
      refine absurd hopen ?_
      change e.conn.closeErr ≠ none
      rw [Endpoint.step_closeErr hsize he]
      cases handshake <;> exact fun hnone => by cases (Option.or_eq_none_iff.mp hnone).2
  | @givesUp e _ he =>
      refine absurd hopen ?_
      change e.conn.closeErr ≠ none
      rw [Endpoint.step_closeErr hsize he]
      exact fun hnone => by cases (Option.or_eq_none_iff.mp hnone).2
  | keepAliveEnds => exact (h hopen).later rfl (le_refl _) (fun hready => ⟨hready, rfl⟩)

/-- An idle connection is closed. In every state in which the connection is open and the
handshake is over, and no record was sent or received for the idle timeout, the idle loop
closes the connection with the steps it has before it, unless it is about to do so because
the handshake took too long. -/
theorem idleTimeout_complete (config : Option Config) (isServer : Bool) (start : Time)
    {events : List Event} {k : Clocked}
    (hrun : Machine.run step (new (Config.normalized config) isServer start) events = some k)
    (hopen : k.endpoint.conn.closeErr = none) (hready : k.endpoint.conn.ready = true)
    (htimeout : 0 < k.endpoint.conn.idleTimeout)
    (hidle : k.lastActivity + k.endpoint.conn.idleTimeout ≤ k.now)
    (hearly : k.idleLoop ≠ .close true) :
    ∃ steps k', (∀ ev ∈ steps, ev ∈ [.handshaken, .expires, .check, .closes]) ∧
      steps.length ≤ 3 ∧ Machine.run step k steps = some k' ∧
      k'.endpoint.conn.closeErr = some .idleTimeout := by
  have hvalid := Config.normalized_valid config
  have harmed := armed hvalid hrun hopen
  obtain ⟨labels, hlabels⟩ := run_endpoint hrun
  obtain ⟨_, _, t, htraced⟩ := Endpoint.traced hvalid hlabels
  have hover : k.endpoint.conn.handshake > 0 := by
    rw [htraced.past.history.handshakeOnce, if_pos (Or.inl hready)]
    exact Nat.one_pos
  have hclosed : (k.endpoint.closeGracefully .idleTimeout none).conn.closeErr =
      some .idleTimeout := by
    simp [Endpoint.closeGracefully, Conn.terminate, Conn.terminated, hopen]
  have hcheck : k.checked = .close false := by
    have hremaining : k.endpoint.conn.idleTimeout - (k.now - k.lastActivity) ≤ 0 := by
      rw [sub_nonpos, le_sub_iff_add_le, add_comm]
      exact hidle
    simp only [checked, gt_iff_lt, htimeout, if_true, hremaining]
  let closed : Clocked :=
    { k with endpoint := k.endpoint.closeGracefully .idleTimeout none, idleLoop := .ended }
  have hcloses : Machine.run step { k with idleLoop := .close false } [.closes] = some closed := rfl
  have hchecks : Machine.run step { k with idleLoop := .check } [.check, .closes] =
      some closed := by
    have hfirst : step { k with idleLoop := .check } .check =
        some { k with idleLoop := .close false } := by
      simp only [step, if_true]
      exact congrArg (fun loop => some { k with idleLoop := loop }) hcheck
    rw [Machine.run, hfirst]
    exact hcloses
  unfold Armed at harmed
  split at harmed
  · rename_i deadline hloop
    refine ⟨[.handshaken, .check, .closes], closed, by simp, le_refl _, ?_, hclosed⟩
    have hfirst : k.step .handshaken = some { k with idleLoop := .check } := by
      simp only [step, hloop, hover, if_true]
    rw [Machine.run, hfirst]
    exact hchecks
  · rename_i hloop
    exact absurd hloop hearly
  · rename_i hloop
    refine ⟨[.check, .closes], closed, by simp, by simp, ?_, hclosed⟩
    rw [← hloop] at hchecks
    exact hchecks
  · rename_i hloop
    refine ⟨[.closes], closed, by simp, by simp, ?_, hclosed⟩
    rw [← hloop] at hcloses
    exact hcloses
  · exact absurd harmed.2 (not_le.mpr htimeout)
  · rename_i deadline hloop
    refine ⟨[.expires, .check, .closes], closed, by simp, le_refl _, ?_, hclosed⟩
    have hfirst : k.step .expires = some { k with idleLoop := .check } := by
      simp only [step, hloop, harmed.2.trans hidle, if_true]
    rw [Machine.run, hfirst]
    exact hchecks
  · exact harmed.elim

end Clocked

section Runs

/-- The handshake is over at once, and then nothing happens for half a minute. -/
def fallsSilent : List Clocked.Event :=
  handshakes.map .act ++ [.handshaken, .check, .passes (30 * second)]

theorem idleTimeout_complete_fallsSilent :
    ∃ k, Machine.run Clocked.step (.new (Config.normalized none) true 0) fallsSilent = some k ∧
      ∃ steps k', (∀ ev ∈ steps, ev ∈ [.handshaken, .expires, .check, .closes]) ∧
        steps.length ≤ 3 ∧ Machine.run Clocked.step k steps = some k' ∧
        k'.endpoint.conn.closeErr = some .idleTimeout := by
  have hrun : (Machine.run Clocked.step (.new (Config.normalized none) true 0) fallsSilent).map
      (fun k => decide (k.endpoint.conn.closeErr = none ∧ k.endpoint.conn.ready = true ∧
        0 < k.endpoint.conn.idleTimeout ∧
        k.lastActivity + k.endpoint.conn.idleTimeout ≤ k.now ∧ k.idleLoop ≠ .close true)) =
      some true := by
    decide +kernel
  obtain ⟨k, hrun, hstate⟩ := Option.map_eq_some_iff.mp hrun
  obtain ⟨hopen, hready, htimeout, hidle, hearly⟩ := of_decide_eq_true hstate
  exact ⟨k, hrun,
    Clocked.idleTimeout_complete none true 0 hrun hopen hready htimeout hidle hearly⟩

theorem idleTimeout_sound_fallsSilent :
    ∃ k, Machine.run Clocked.pinging (.new (Config.normalized none) true 0, [])
        (fallsSilent ++ [.expires, .check, .closes]) = some (k, []) ∧
      k.endpoint.conn.closeErr = some .idleTimeout ∧
      Clocked.Idle (Config.normalized none) true 0
        (fallsSilent ++ [.expires, .check, .closes]) := by
  have hrun : (Machine.run Clocked.pinging (.new (Config.normalized none) true 0, [])
      (fallsSilent ++ [.expires, .check, .closes])).map
        (fun (k, pings) => decide (pings = [] ∧
          k.endpoint.conn.closeErr = some .idleTimeout)) = some true := by
    decide +kernel
  obtain ⟨⟨k, pings⟩, hrun, hstate⟩ := Option.map_eq_some_iff.mp hrun
  obtain ⟨rfl, hclosed⟩ := of_decide_eq_true hstate
  refine ⟨k, hrun, hclosed, Clocked.idleTimeout_sound none true 0 hrun ?_ hclosed⟩
  intro before n time after hlog
  simp at hlog

end Runs

end Qmux
