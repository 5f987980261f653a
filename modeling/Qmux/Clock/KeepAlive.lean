import Qmux.Clock.Idle
import Qmux.Conn.Aside

/-!
The keep-alive keeps a connection alive. As long as ticks are taken and pings are written
without too much delay, the idle loop never finds a connection idle. Unless a response is
overtaken by a later request, it is closed for being idle only if the peer leaves a ping
unanswered.
-/

namespace Qmux

open Wire

/-- The frame is a QX_PING request. -/
def Wire.Frame.isRequest : Frame → Bool
  | .ping f => !f.response
  | _ => false

namespace Endpoint

variable [Quicvarint]

/-- A ping was asked for that is not on the transport yet. -/
def owesPing (e : Endpoint) : Bool :=
  e.conn.pingPending ||
    match e.writeMu with
    | .writing .flush records => records.flatten.any Frame.isRequest
    | _ => false

variable {e e' : Endpoint}

private theorem owesPing_of_pending (hpending : e.conn.pingPending = true) :
    e.owesPing = true := by
  unfold owesPing
  rw [hpending]
  rfl

/-- What the writers do under `mu`. -/
private theorem enter_owesPing {now : Time} (henter : e.enter now = some e')
    (hopen : e'.conn.closeErr = none) (howes : e.owesPing = true) : e'.owesPing = true := by
  unfold enter at henter
  split at henter
  · rename_i r p hmu
    have hpending : e.conn.pingPending = true := by simpa [owesPing, hmu] using howes
    have haside := congrArg Prod.snd (e.conn.reserve_aside r p.length)
    rcases hresult : e.conn.reserve r p.length with ⟨c, _ | ⟨offset, n⟩⟩
    all_goals
      rw [hresult] at henter haside
      obtain rfl := Option.some.inj henter
      exact owesPing_of_pending (haside.trans hpending)
  · rename_i r hmu
    have hpending : e.conn.pingPending = true := by simpa [owesPing, hmu] using howes
    have haside := congrArg Prod.snd (e.conn.finish_aside r)
    rcases hresult : e.conn.finish r with ⟨c, _ | _ | finalSize⟩
    all_goals
      rw [hresult] at henter haside
      obtain rfl := Option.some.inj henter
      exact owesPing_of_pending (haside.trans hpending)
  · rename_i hmu
    have hpending : e.conn.pingPending = true := by simpa [owesPing, hmu] using howes
    have hclose := e.conn.takeControl_closeErr now
    -- the request is among the frames that are taken
    have hrequest : (e.conn.takeControl now).1.closeErr = none →
        (e.conn.takeControl now).2.any Frame.isRequest = true := by
      intro hopen
      rw [hclose.1] at hopen
      simp [Conn.takeControl, hopen, Conn.controlFrames, hpending, Frame.isRequest]
    have hflat := packControl_flatten (e.conn.takeControl now).2 [] 0
    rw [List.nil_append] at hflat
    dsimp only at henter
    split at henter
    · rename_i hnone
      obtain rfl := Option.some.inj henter
      have hany := hrequest hopen
      rw [← hflat, hnone] at hany
      cases hany
    · obtain rfl := Option.some.inj henter
      have hany := hrequest hopen
      rw [← hflat] at hany
      simp [owesPing, hany]
  · rename_i p hmu
    have hpending : e.conn.pingPending = true := by simpa [owesPing, hmu] using howes
    split_ifs at henter
    all_goals
      obtain rfl := Option.some.inj henter
      exact owesPing_of_pending hpending
  · cases henter

private theorem write_fails (hwrite : e.write false = some e') : e'.failed = true := by
  unfold write at hwrite
  split at hwrite
  · rename_i w frames rest hmu
    split at hwrite
    · cases hwrite
    · obtain rfl := Option.some.inj hwrite
      cases w <;> rfl
  · cases hwrite

private theorem write_sound (hwrite : e.write true = some e') : e.failed = false := by
  unfold write at hwrite
  split at hwrite
  · split at hwrite
    · cases hwrite
    · simp only [if_true] at hwrite
      split_ifs at hwrite with hdown
      simp only [Bool.or_eq_true, not_or, Bool.not_eq_true] at hdown
      exact hdown.2
  · cases hwrite

variable [GoAppend]

/-- A ping that was asked for is written, or the connection ends. -/
private theorem owesPing_step {a : Action} (hstep : e.step a = some e')
    (htouches : Clocked.touches e a = false) (hopen : e'.conn.closeErr = none)
    (hfailed : e'.failed = false) (howes : e.owesPing = true) : e'.owesPing = true := by
  cases stepped hstep with
  | @call op c hcall =>
      have hkept (hpending : e.conn.pingPending = true → c.pingPending = true) :
          owesPing { e with conn := c } = true := by
        simp only [owesPing, Bool.or_eq_true] at howes ⊢
        exact howes.imp_left hpending
      cases op with
      | requestPing now =>
          obtain rfl := Option.some.inj hcall
          refine hkept (fun hpending => ?_)
          unfold Conn.requestPing
          split_ifs
          · exact hpending
          · rfl
      | receiveDatagram =>
          obtain rfl := Option.some.inj hcall
          refine hkept (fun hpending => ?_)
          unfold Conn.receiveDatagram
          split <;> exact hpending
      | _ =>
          have haside := congrArg Prod.snd (e.conn.call_aside hcall (by simp) (by simp))
          exact hkept (fun hpending => haside.trans hpending)
  | close => exact absurd hopen (e.conn.terminate_closed _)
  | abort => exact absurd hopen (e.conn.terminate_closed _)
  | lock hfree hlock =>
      have hpending : e.conn.pingPending = true := by simpa [owesPing, hfree] using howes
      obtain ⟨_, _, rfl, -⟩ := lock_frame hlock
      exact owesPing_of_pending hpending
  | enter henter => exact enter_owesPing henter hopen howes
  | @write ok e' hwrite =>
      cases ok with
      | true => cases htouches
      | false => exact absurd (write_fails hwrite) (by simp [hfailed])
  | @record rec now =>
      have hlarge : rec.length > e.conn.config.maxRecordSize.toNat := by
        simpa [Clocked.touches] using htouches
      rw [receive, if_pos hlarge]
      exact howes
  | _ => exact howes

/-- A transport that has failed does not recover. -/
private theorem failed_before {a : Action} (hstep : e.step a = some e')
    (hfailed : e'.failed = false) : e.failed = false := by
  cases stepped hstep with
  | close hcloses => cases hcloses <;> exact hfailed
  | abort haborts => cases haborts <;> exact hfailed
  | lock _ hlock =>
      obtain ⟨_, _, rfl, -⟩ := lock_frame hlock
      exact hfailed
  | enter henter =>
      obtain ⟨_, _, _, rfl⟩ := enter_frame henter
      exact hfailed
  | @write ok e' hwrite =>
      cases ok with
      | false => exact absurd (write_fails hwrite) (by simp [hfailed])
      | true => exact write_sound hwrite
  | record =>
      obtain ⟨_, _, hframe⟩ := e.receive_frame _ _
      rw [hframe] at hfailed
      exact hfailed
  | _ => exact hfailed

end Endpoint

namespace Clocked

variable [Quicvarint] [GoAppend] {config : Config} {isServer : Bool} {start slack : Time}
  {events : List Event} {k k' : Clocked} {ev : Event} {pings : List PingEvent}

omit [GoAppend] in
/-- The period of the keep-alive. -/
def period (k : Clocked) : Time :=
  k.endpoint.conn.config.keepAlivePeriod.toInt

/-- The delays are within `slack`: the tick that is due is taken by then, and the ping that was
asked for at the last one is on the transport. The idle timeout leaves room for that. -/
def Lively (slack : Time) (k : Clocked) : Prop :=
  (k.endpoint.conn.ready = true → k.period + slack < k.endpoint.conn.idleTimeout) ∧
    match k.keepAliveLoop with
    | .wait tick => k.now ≤ tick + slack ∧
        (k.endpoint.owesPing = true → k.now ≤ tick - k.period + slack)
    | _ => True

instance (slack : Time) (k : Clocked) : Decidable (Lively slack k) := by
  unfold Lively
  cases k.keepAliveLoop <;> infer_instance

/-- In the course of the run a ping was unanswered for the idle timeout. -/
def GivenUp (config : Config) (isServer : Bool) (start : Time) (events : List Event) : Prop :=
  ∃ before ev after k pings, events = before ++ ev :: after ∧
    Machine.run pinging (new config isServer start, []) before = some (k, pings) ∧
    0 < k.endpoint.conn.idleTimeout ∧ Unresponsive k pings ev

private theorem GivenUp.append (h : GivenUp config isServer start events) (more : List Event) :
    GivenUp config isServer start (events ++ more) := by
  obtain ⟨before, ev, after, k, pings, rfl, hrest⟩ := h
  exact ⟨before, ev, after ++ more, k, pings, by simp, hrest⟩

/-- There was activity since the last tick, or since the one before and a ping is on its way. -/
private structure Sustained (k : Clocked) (tick : Time) : Prop where
  waits : k.keepAliveLoop = .wait tick
  last : tick - k.period ≤ k.now
  activity : tick - k.period ≤ k.lastActivity ∨
    k.endpoint.owesPing = true ∧ tick - k.period - k.period ≤ k.lastActivity
  awake : k.idleLoop ≠ .close false

omit [GoAppend] in
/-- The idle loop does not find the connection idle. -/
private theorem Sustained.checked {tick : Time} (h : k.Sustained tick) (hlively : k.Lively slack)
    (hready : k.endpoint.conn.ready = true) : k.checked ≠ .close false := by
  obtain ⟨htimeout, hdelay⟩ := hlively
  have hroom := htimeout hready
  rw [h.waits] at hdelay
  obtain ⟨hdue, howes⟩ := hdelay
  have hbusy : k.now - k.lastActivity ≤ k.period + slack := by
    rcases h.activity with hlast | ⟨hping, hlast⟩
    · linarith
    · have hsoon := howes hping
      linarith
  unfold Clocked.checked
  dsimp only
  split_ifs with hpos hremaining
  · have hlong : k.endpoint.conn.idleTimeout ≤ k.now - k.lastActivity := sub_nonpos.mp hremaining
    linarith
  · simp
  · simp

omit [GoAppend] in
/-- The next tick follows in a period. -/
private theorem nextTick_eq {tick : Time} (hslack : slack < k.period) (hdue : tick ≤ k.now)
    (hsoon : k.now ≤ tick + slack) : k.nextTick tick = tick + k.period := by
  have hnone : (k.now - tick) / k.period = 0 :=
    Int.ediv_eq_zero_of_lt (sub_nonneg.mpr hdue) (by linarith)
  change tick + k.period * ((k.now - tick) / k.period + 1) = _
  rw [hnone]
  ring

omit [GoAppend] in
/-- The endpoint may do anything, as long as a ping on its way stays on its way. -/
private theorem Sustained.later {tick : Time} (h : k.Sustained tick)
    (hperiod : k'.period = k.period) (hkeepAlive : k'.keepAliveLoop = k.keepAliveLoop)
    (hnow : k.now ≤ k'.now) (hidle : k'.idleLoop ≠ .close false)
    (hactivity : tick - k.period ≤ k'.lastActivity ∨ k'.lastActivity = k.lastActivity ∧
      (k.endpoint.owesPing = true → k'.endpoint.owesPing = true)) : k'.Sustained tick := by
  refine ⟨hkeepAlive.trans h.waits, hperiod ▸ h.last.trans hnow, ?_, hidle⟩
  rw [hperiod]
  rcases hactivity with hlast | ⟨hlast, howes⟩
  · exact Or.inl hlast
  · rw [hlast]
    exact h.activity.imp_right (fun ⟨hping, hold⟩ => ⟨howes hping, hold⟩)

private theorem Sustained.step (hconfig : config.Valid)
    (hpinging : Machine.run pinging (new config isServer start, []) events = some (k, pings))
    (hprompt : Probe.Prompt pings) (hslack : slack < k.period) (hlively : k.Lively slack)
    {tick : Time} (h : k.Sustained tick)
    (hstep : k.step ev = some k') (hopen : k'.endpoint.conn.closeErr = none)
    (hfailed : k'.endpoint.failed = false) :
    GivenUp config isServer start (events ++ [ev]) ∨ ∃ tick, k'.Sustained tick := by
  have hprior := Machine.run_of_watch hpinging
  have hnext : Machine.run Clocked.step (new config isServer start) (events ++ [ev]) = some k' := by
    simp [Machine.run_append, hprior, Machine.run, hstep]
  obtain ⟨labels, hlabels⟩ := run_endpoint hprior
  obtain ⟨labels', hlabels'⟩ := run_endpoint hnext
  obtain ⟨_, _, t, htraced⟩ := Endpoint.traced hconfig hlabels
  obtain ⟨_, _, t', htraced'⟩ := Endpoint.traced hconfig hlabels'
  have hperiod : k'.period = k.period := by
    unfold period
    rw [htraced'.past.history.config.1, htraced.past.history.config.1]
  have hcause : k.endpoint.conn.cause = k.endpoint.conn.closeErr := htraced.cause
  have hsize := Endpoint.recordSize_le hconfig hlabels
  have hclosed {a : Action} {e : Endpoint} (ha : k.endpoint.step a = some e)
      (hterminates : k.endpoint.terminatesBy a ≠ []) : e.conn.closeErr ≠ none := by
    rw [Endpoint.step_closeErr hsize ha]
    intro hnone
    exact hterminates (List.head?_eq_none_iff.mp (Option.or_eq_none_iff.mp hnone).2)
  cases stepped hstep with
  | passes hlater =>
      exact Or.inr ⟨tick, h.later hperiod rfl hlater h.awake (Or.inr ⟨rfl, fun h => h⟩)⟩
  | @act a e _ he =>
      refine Or.inr ⟨tick, h.later hperiod rfl (le_refl _) h.awake ?_⟩
      cases htouches : touches k.endpoint a with
      | true => exact Or.inl (by simpa [htouches] using h.last)
      | false =>
          exact Or.inr ⟨by simp, Endpoint.owesPing_step he htouches hopen hfailed⟩
  | check hloop =>
      have hready : k.endpoint.conn.ready = true := by
        have harmed := armed hconfig hprior hopen
        unfold Armed at harmed
        rw [hloop] at harmed
        exact harmed
      exact Or.inr ⟨tick, h.later hperiod rfl (le_refl _) (h.checked hlively hready)
        (Or.inr ⟨rfl, fun h => h⟩)⟩
  | @closes handshake e _ he =>
      refine absurd hopen (hclosed he ?_)
      cases handshake <;> simp [Endpoint.terminatesBy]
  | givesUp hloop he => exact absurd hopen (hclosed he (by simp [Endpoint.terminatesBy]))
  | idleEnds hended | keepAliveEnds hended =>
      rw [hcause] at hended
      change k.endpoint.conn.closeErr = none at hopen
      rw [hopen] at hended
      cases hended
  | @tick due e hloop hdue he =>
      obtain rfl : tick = due := KeepAliveLoop.wait.inj (h.waits.symm.trans hloop)
      obtain ⟨-, hdelay⟩ := hlively
      rw [h.waits] at hdelay
      obtain ⟨hsoon, howes⟩ := hdelay
      have hlast : tick - k.period ≤ k.lastActivity := by
        rcases h.activity with hlast | ⟨hping, -⟩
        · exact hlast
        · have hearly := howes hping
          linarith
      cases halive : (k.endpoint.conn.requestPing k.now).2 with
      | false =>
          obtain ⟨hunanswered, htimeout, hlong⟩ := Conn.requestPing_false halive
          obtain ⟨labels, hlog⟩ := run_pinging hpinging
          exact Or.inl ⟨events, .tick, [], k, pings, rfl, hpinging, htimeout, rfl, _, hlong,
            Endpoint.unanswered_of_pinging hconfig hlog hprompt hunanswered⟩
      | true =>
          have hpending : e.conn.pingPending = true := by
            obtain rfl : { k.endpoint with conn := (k.endpoint.conn.requestPing k.now).1 } = e :=
              Option.some.inj he
            unfold Conn.requestPing at halive ⊢
            split_ifs at halive ⊢
            rfl
          change (e.conn.config.keepAlivePeriod.toInt : Time) = k.period at hperiod
          refine Or.inr ⟨tick + k.period, ?_, ?_, Or.inr ⟨?_, ?_⟩, h.awake⟩
          · simp only [if_true]
            rw [nextTick_eq hslack hdue hsoon]
          · change tick + k.period - e.conn.config.keepAlivePeriod.toInt ≤ k.now
            rw [hperiod]
            linarith
          · exact Endpoint.owesPing_of_pending hpending
          · change tick + k.period - e.conn.config.keepAlivePeriod.toInt -
              e.conn.config.keepAlivePeriod.toInt ≤ k.lastActivity
            rw [hperiod]
            linarith
  | _ =>
      exact Or.inr ⟨tick, h.later hperiod rfl (le_refl _) (by simp) (Or.inr ⟨rfl, fun h => h⟩)⟩

/-- In every state of the run the delays are within `slack`. -/
private def LivelyRun (config : Config) (isServer : Bool) (start slack : Time)
    (events : List Event) : Prop :=
  ∀ before ∈ events.inits, ∀ mid ∈ Machine.run step (new config isServer start) before,
    mid.Lively slack

private theorem LivelyRun.of_append
    (h : LivelyRun config isServer start slack (events ++ [ev])) :
    LivelyRun config isServer start slack events := by
  intro before hbefore
  rw [List.mem_inits] at hbefore
  exact h before ((List.mem_inits _ _).mpr (hbefore.trans (List.prefix_append _ _)))

/-- What the keep-alive keeps up. -/
private structure KeptAlive (config : Config) (isServer : Bool) (start : Time)
    (events : List Event) (k : Clocked) : Prop where
  sustained : k.endpoint.conn.closeErr = none →
    GivenUp config isServer start events ∨ ∃ tick, k.Sustained tick
  closed : k.endpoint.conn.closeErr = some .idleTimeout → GivenUp config isServer start events

/-- The step that closes the connection. -/
private theorem KeptAlive.closing (h : KeptAlive config isServer start events k)
    (hconfig : config.Valid)
    (hprior : Machine.run step (new config isServer start) events = some k)
    (hstep : k.step ev = some k') (hclosed : k'.endpoint.conn.closeErr = some .idleTimeout) :
    GivenUp config isServer start (events ++ [ev]) := by
  obtain ⟨labels, hlabels⟩ := run_endpoint hprior
  have hsize := Endpoint.recordSize_le hconfig hlabels
  cases hbefore : k.endpoint.conn.closeErr with
  | some err =>
      refine (h.closed ?_).append [ev]
      rcases step_endpoint hstep with hsame | ⟨a, ha⟩
      · rw [← hsame]
        exact hclosed
      · rw [Endpoint.step_closeErr hsize ha, hbefore] at hclosed
        rw [hbefore]
        exact hclosed
  | none =>
      rcases h.sustained hbefore with hgiven | ⟨tick, hsustained⟩
      · exact hgiven.append [ev]
      · exfalso
        have herr {a : Action} {e : Endpoint} (ha : k.endpoint.step a = some e)
            (hclosed : e.conn.closeErr = some .idleTimeout) :
            (k.endpoint.terminatesBy a).head? = some .idleTimeout := by
          rw [Endpoint.step_closeErr hsize ha, hbefore] at hclosed
          exact hclosed
        cases stepped hstep with
        | @act a e hallows he =>
            -- nothing else ends the connection with this error
            have hother : a ≠ .idleTimeout := by
              rintro rfl
              cases hallows
            have hreader (err : ConnError) (haborting : k.endpoint.reader = .aborting err) :
                Endpoint.Explains (· ≠ .idleTimeout) (fun _ => True) True err := by
              refine (Endpoint.aborting_explained hlabels haborting).mono ?_ (fun _ h => h)
              rintro _ ⟨cause, rfl⟩
              simp
            exact Endpoint.terminates_explained hreader (fun _ => hother) (fun _ _ => trivial)
              (List.mem_of_head? (herr he hclosed)) rfl
        | @closes handshake e hloop he =>
            cases handshake with
            | false => exact hsustained.awake hloop
            | true => cases herr he hclosed
        | givesUp hloop => cases hsustained.waits.symm.trans hloop
        | @tick _ e _ _ he => cases herr he hclosed
        | _ =>
            change k.endpoint.conn.closeErr = _ at hclosed
            rw [hbefore] at hclosed
            cases hclosed

/-- The keep-alive keeps the connection alive. Let ticks be taken and pings be written within
`slack`, and let the idle timeout leave room for a period and this delay. While the transport
works and no response is overtaken by a later request, the connection is then closed for being
idle only if the peer has left a ping unanswered for the idle timeout. -/
theorem keepAlive_sustains (config : Option Config) (isServer : Bool) (start : Time)
    {slack : Time} {events : List Event} {k : Clocked} {pings : List PingEvent}
    (hrun : Machine.run pinging (new (Config.normalized config) isServer start, []) events =
      some (k, pings)) (hprompt : Probe.Prompt pings)
    (hslack : 0 ≤ slack ∧ slack < (Config.normalized config).keepAlivePeriod.toInt)
    (hlively : ∀ before ∈ events.inits, ∀ mid ∈
      Machine.run step (new (Config.normalized config) isServer start) before, mid.Lively slack)
    (hfailed : k.endpoint.failed = false)
    (hclosed : k.endpoint.conn.closeErr = some .idleTimeout) :
    GivenUp (Config.normalized config) isServer start events := by
  have hvalid := Config.normalized_valid config
  have hpos : (Config.normalized config).keepAlivePeriod > 0 :=
    Int64.lt_iff_toInt_lt.mpr (hslack.1.trans_lt hslack.2)
  refine ((Machine.trace_invariant (P := fun events (x : Clocked × List PingEvent) =>
    Machine.run pinging (new (Config.normalized config) isServer start, []) events = some x ∧
      (Probe.Prompt x.2 → LivelyRun (Config.normalized config) isServer start slack events →
        x.1.endpoint.failed = false →
        KeptAlive (Config.normalized config) isServer start events x.1))
    ⟨rfl, fun _ _ _ => ?_⟩ ?_ events (k, pings) hrun).2 hprompt hlively hfailed).closed hclosed
  · refine ⟨fun _ => Or.inr ⟨start + (Config.normalized config).keepAlivePeriod.toInt, ?_, ?_,
      Or.inl ?_, by simp [new]⟩, (fun h => by cases h)⟩
    · exact if_pos hpos
    · exact (add_sub_cancel_right _ _).le
    · exact (add_sub_cancel_right _ _).le
  · rintro events ⟨k, pings⟩ ev ⟨k', pings'⟩ ⟨hpinging, ih⟩ hwatch
    refine ⟨Machine.run_concat hpinging hwatch, fun hprompt hlively hfailed => ?_⟩
    obtain ⟨hstep, rfl⟩ := Machine.watch_step hwatch
    have hearlier : Probe.Prompt pings := hprompt.of_append
    have hprior := Machine.run_of_watch hpinging
    dsimp only at hstep hprior ih hfailed ⊢
    obtain ⟨labels, hlabels⟩ := run_endpoint hprior
    obtain ⟨_, _, t, htraced⟩ := Endpoint.traced hvalid hlabels
    have hsize := Endpoint.recordSize_le hvalid hlabels
    have hperiod : k.period = (Config.normalized config).keepAlivePeriod.toInt := by
      unfold period
      rw [htraced.past.history.config.1]
    have hworks : k.endpoint.failed = false := by
      rcases step_endpoint hstep with hsame | ⟨a, ha⟩
      · rw [← hsame]
        exact hfailed
      · exact Endpoint.failed_before ha hfailed
    have hkept := ih hearlier hlively.of_append hworks
    refine ⟨fun hopen => ?_, hkept.closing hvalid hprior hstep⟩
    have hbefore : k.endpoint.conn.closeErr = none := by
      rcases step_endpoint hstep with hsame | ⟨a, ha⟩
      · rw [← hsame]
        exact hopen
      · rw [Endpoint.step_closeErr hsize ha] at hopen
        exact (Option.or_eq_none_iff.mp hopen).1
    rcases hkept.sustained hbefore with hgiven | ⟨tick, hsustained⟩
    · exact Or.inl (hgiven.append [ev])
    · have hnow := hlively events ((List.mem_inits _ _).mpr (List.prefix_append _ _)) k hprior
      exact hsustained.step hvalid hpinging hearlier (hperiod ▸ hslack.2) hnow hstep hopen hfailed

end Clocked

section Runs

/-- Pings every ten seconds. -/
def tenSeconds : Config :=
  { keepAlivePeriod := 10000000000 }

/-- A tick is taken at its time, and the write loop sends the ping. -/
def pingsAt (now : Time) : List Clocked.Event :=
  [.passes now, .tick, .act .wake, .act (.lock .flush), .act (.enter now), .act (.write true)]

/-- The peer answers the first ping and no other, and is given up after half a minute. -/
def fallsAsleep : List Clocked.Event :=
  handshakes.map .act ++ [.handshaken, .check] ++ pingsAt (10 * second) ++
    [.act (answersAt 0 (10 * second))] ++ pingsAt (20 * second) ++ pingsAt (30 * second) ++
    pingsAt (40 * second) ++ [.passes (50 * second), .tick, .givesUp]

theorem keepAlive_sustains_fallsAsleep :
    ∃ k, Machine.run Clocked.pinging (.new (Config.normalized (some tenSeconds)) true 0, [])
        fallsAsleep = some (k, [.asked 0 (10 * second), .answered 0 (10 * second),
          .asked 1 (20 * second), .asked 2 (30 * second), .asked 3 (40 * second)]) ∧
      k.endpoint.conn.closeErr = some .idleTimeout ∧
      Clocked.GivenUp (Config.normalized (some tenSeconds)) true 0 fallsAsleep := by
  have hrun : (Machine.run Clocked.pinging
      (.new (Config.normalized (some tenSeconds)) true 0, []) fallsAsleep).map
        (fun (k, pings) => decide (pings = [.asked 0 (10 * second), .answered 0 (10 * second),
          .asked 1 (20 * second), .asked 2 (30 * second), .asked 3 (40 * second)] ∧
          k.endpoint.failed = false ∧ k.endpoint.conn.closeErr = some .idleTimeout)) =
        some true := by
    decide +kernel
  have hlively : ∀ before ∈ fallsAsleep.inits, ∀ mid ∈ Machine.run Clocked.step
      (.new (Config.normalized (some tenSeconds)) true 0) before, mid.Lively second := by
    decide +kernel
  obtain ⟨⟨k, pings⟩, hrun, hstate⟩ := Option.map_eq_some_iff.mp hrun
  obtain ⟨rfl, hfailed, hclosed⟩ := of_decide_eq_true hstate
  refine ⟨k, hrun, hclosed, Clocked.keepAlive_sustains (some tenSeconds) true 0 hrun ?_
    (by decide +kernel) hlively hfailed hclosed⟩
  intro before n time after hlog
  rcases before with _ | ⟨_, _ | ⟨_, _ | ⟨_, _ | ⟨_, _ | ⟨_, before⟩⟩⟩⟩⟩ <;> simp at hlog
  obtain ⟨rfl, ⟨rfl, -⟩, -⟩ := hlog
  exact Or.inl (fun k s hk => by simp at hk; omega)

end Runs

end Qmux
