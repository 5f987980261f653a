import Qmux.KeepAlive

/-!
The loops that watch the clock. The idle loop closes the connection if the handshake
takes too long, and later if no record was sent or received for the idle timeout. The
keep-alive loop asks for pings, and closes the connection if the peer leaves them
unanswered.

A loop reads the clock and the connection at one moment and closes the connection at
another, so whatever else goes on may come in between. Where several channels of a
`select` are ready, any of them may be taken.

There is one clock, and it does not go back. In the source the time of the last activity
is kept as nanoseconds of the wall clock, while timers and the times of pings follow the
monotonic one. That the two run apart, as when the wall clock is set, is not modelled, nor
that a record comes between the two reads of the idle loop, of the last activity and of the
time.
-/

namespace Qmux

open Wire

/-- Where the idle loop is. -/
inductive IdleLoop where
  /-- It waits for the handshake, and for its timer. -/
  | handshake (deadline : Time)
  /-- It is about to look at the last activity. -/
  | check
  /-- It waits for its timer, if that was set. -/
  | sleep (deadline : Option Time)
  /-- It is about to close the connection, for the handshake or for being idle. -/
  | close (handshake : Bool)
  | ended
deriving DecidableEq, Repr

/-- Where the keep-alive loop is. -/
inductive KeepAliveLoop where
  /-- It waits for the next tick. -/
  | wait (tick : Time)
  /-- It is about to close the connection. -/
  | close
  | ended
deriving DecidableEq, Repr

/-- An endpoint with the clock. `lastActivity` is when a record was last sent or received. -/
structure Clocked [Quicvarint] where
  endpoint : Endpoint
  now : Time
  lastActivity : Time
  idleLoop : IdleLoop
  keepAliveLoop : KeepAliveLoop

namespace Clocked

inductive Event where
  /-- Time passes. -/
  | passes (later : Time)
  /-- Anything but what the two loops do. -/
  | act (a : Action)
  /-- The idle loop finds the handshake over, its timer expired or the connection ended. -/
  | handshaken
  | expires
  | idleEnds
  /-- It looks at the last activity, and closes the connection. -/
  | check
  | closes
  /-- The keep-alive loop gets a tick, closes the connection or finds that it has ended. -/
  | tick
  | givesUp
  | keepAliveEnds
deriving DecidableEq, Repr

variable [Quicvarint]

/-- The goroutines as `newConn` starts them at the time `start`. -/
def new (config : Config) (isServer : Bool) (start : Time) : Clocked where
  endpoint := .new config isServer
  now := start
  lastActivity := start
  idleLoop := .handshake (start + config.handshakeIdleTimeout.toInt)
  keepAliveLoop :=
    if config.keepAlivePeriod > 0 then .wait (start + config.keepAlivePeriod.toInt) else .ended

/-- The action calls `touch`, if it is taken: a record is written, or read. One above the limit
is skipped by the transport. -/
def touches (e : Endpoint) : Action → Bool
  | .write ok => ok
  | .record rec _ => decide (rec.length ≤ e.conn.config.maxRecordSize.toNat)
  | _ => false

/-- The action is none of the two loops, and reads the clock if it reads a time. -/
def allows (k : Clocked) : Action → Bool
  | .handshakeTimeout | .idleTimeout | .call (.requestPing _) => false
  | a => a.time?.all (· = k.now)

/-- What the idle loop does next, when it has looked at the last activity and at the clock.
The source reads the one and then the other; here it is one step. -/
def checked (k : Clocked) : IdleLoop :=
  let timeout := k.endpoint.conn.idleTimeout
  if timeout > 0 then
    let remaining := timeout - (k.now - k.lastActivity)
    if remaining ≤ 0 then .close false else .sleep (some (k.now + remaining))
  else .sleep none

/-- The tick of the ticker that follows the one that was due at `tick`. Ticks that nobody
takes are dropped. -/
def nextTick (k : Clocked) (tick : Time) : Time :=
  let period := k.endpoint.conn.config.keepAlivePeriod.toInt
  tick + period * ((k.now - tick) / period + 1)

variable [GoAppend]

def step (k : Clocked) : Event → Option Clocked
  | .passes later => if k.now ≤ later then some { k with now := later } else none
  | .act a =>
      if k.allows a then
        (k.endpoint.step a).map (fun e => { k with
          endpoint := e
          lastActivity := if touches k.endpoint a then k.now else k.lastActivity })
      else none
  | .handshaken =>
      match k.idleLoop with
      | .handshake _ =>
          if k.endpoint.conn.handshake > 0 then some { k with idleLoop := .check } else none
      | _ => none
  | .expires =>
      match k.idleLoop with
      | .handshake deadline =>
          if deadline ≤ k.now then some { k with idleLoop := .close true } else none
      | .sleep (some deadline) =>
          if deadline ≤ k.now then some { k with idleLoop := .check } else none
      | _ => none
  | .idleEnds =>
      match k.idleLoop with
      | .handshake _ | .sleep _ =>
          if k.endpoint.conn.cause.isSome then some { k with idleLoop := .ended } else none
      | _ => none
  | .check => if k.idleLoop = .check then some { k with idleLoop := k.checked } else none
  | .closes =>
      match k.idleLoop with
      | .close handshake =>
          (k.endpoint.step (if handshake then .handshakeTimeout else .idleTimeout)).map
            (fun e => { k with endpoint := e, idleLoop := .ended })
      | _ => none
  | .tick =>
      match k.keepAliveLoop with
      | .wait tick =>
          if tick ≤ k.now then
            (k.endpoint.step (.call (.requestPing k.now))).map (fun e => { k with
              endpoint := e
              keepAliveLoop :=
                if (k.endpoint.conn.requestPing k.now).2 then .wait (k.nextTick tick)
                else .close })
          else none
      | _ => none
  | .givesUp =>
      if k.keepAliveLoop = .close then
        (k.endpoint.step .idleTimeout).map
          (fun e => { k with endpoint := e, keepAliveLoop := .ended })
      else none
  | .keepAliveEnds =>
      match k.keepAliveLoop with
      | .wait _ =>
          if k.endpoint.conn.cause.isSome then some { k with keepAliveLoop := .ended } else none
      | _ => none

/-- What the steps do. -/
inductive Stepped (k : Clocked) : Event → Clocked → Prop where
  | passes {later : Time} (hlater : k.now ≤ later) : Stepped k (.passes later) { k with now := later }
  | act {a : Action} {e : Endpoint} (hallows : k.allows a = true)
      (he : k.endpoint.step a = some e) :
      Stepped k (.act a) { k with
        endpoint := e
        lastActivity := if touches k.endpoint a then k.now else k.lastActivity }
  | handshaken {deadline : Time} (hloop : k.idleLoop = .handshake deadline)
      (hover : k.endpoint.conn.handshake > 0) : Stepped k .handshaken { k with idleLoop := .check }
  | overdue {deadline : Time} (hloop : k.idleLoop = .handshake deadline)
      (hdue : deadline ≤ k.now) : Stepped k .expires { k with idleLoop := .close true }
  | wakes {deadline : Time} (hloop : k.idleLoop = .sleep (some deadline))
      (hdue : deadline ≤ k.now) : Stepped k .expires { k with idleLoop := .check }
  | idleEnds (hcause : k.endpoint.conn.cause.isSome = true) :
      Stepped k .idleEnds { k with idleLoop := .ended }
  | check (hloop : k.idleLoop = .check) : Stepped k .check { k with idleLoop := k.checked }
  | closes {handshake : Bool} {e : Endpoint} (hloop : k.idleLoop = .close handshake)
      (he : k.endpoint.step (if handshake then .handshakeTimeout else .idleTimeout) = some e) :
      Stepped k .closes { k with endpoint := e, idleLoop := .ended }
  | tick {tick : Time} {e : Endpoint} (hloop : k.keepAliveLoop = .wait tick)
      (hdue : tick ≤ k.now) (he : k.endpoint.step (.call (.requestPing k.now)) = some e) :
      Stepped k .tick { k with
        endpoint := e
        keepAliveLoop :=
          if (k.endpoint.conn.requestPing k.now).2 then .wait (k.nextTick tick) else .close }
  | givesUp {e : Endpoint} (hloop : k.keepAliveLoop = .close)
      (he : k.endpoint.step .idleTimeout = some e) :
      Stepped k .givesUp { k with endpoint := e, keepAliveLoop := .ended }
  | keepAliveEnds (hcause : k.endpoint.conn.cause.isSome = true) :
      Stepped k .keepAliveEnds { k with keepAliveLoop := .ended }

/-- These are all the steps. -/
theorem stepped {k k' : Clocked} {ev : Event} (hstep : k.step ev = some k') : k.Stepped ev k' := by
  cases ev with
  | passes later =>
      obtain ⟨hlater, ⟨⟩⟩ := Option.ite_none_right_eq_some.mp hstep
      exact .passes hlater
  | act a =>
      obtain ⟨hallows, hact⟩ := Option.ite_none_right_eq_some.mp hstep
      obtain ⟨e, he, rfl⟩ := Option.map_eq_some_iff.mp hact
      exact .act hallows he
  | handshaken =>
      simp only [step] at hstep
      split at hstep
      · rename_i hloop
        obtain ⟨hover, ⟨⟩⟩ := Option.ite_none_right_eq_some.mp hstep
        exact .handshaken hloop hover
      · cases hstep
  | expires =>
      simp only [step] at hstep
      split at hstep
      · rename_i hloop
        obtain ⟨hdue, ⟨⟩⟩ := Option.ite_none_right_eq_some.mp hstep
        exact .overdue hloop hdue
      · rename_i hloop
        obtain ⟨hdue, ⟨⟩⟩ := Option.ite_none_right_eq_some.mp hstep
        exact .wakes hloop hdue
      · cases hstep
  | idleEnds =>
      simp only [step] at hstep
      split at hstep
      · obtain ⟨hcause, ⟨⟩⟩ := Option.ite_none_right_eq_some.mp hstep
        exact .idleEnds hcause
      · obtain ⟨hcause, ⟨⟩⟩ := Option.ite_none_right_eq_some.mp hstep
        exact .idleEnds hcause
      · cases hstep
  | check =>
      obtain ⟨hloop, ⟨⟩⟩ := Option.ite_none_right_eq_some.mp hstep
      exact .check hloop
  | closes =>
      simp only [step] at hstep
      split at hstep
      · rename_i hloop
        obtain ⟨e, he, rfl⟩ := Option.map_eq_some_iff.mp hstep
        exact .closes hloop he
      · cases hstep
  | tick =>
      simp only [step] at hstep
      split at hstep
      · rename_i hloop
        obtain ⟨hdue, htick⟩ := Option.ite_none_right_eq_some.mp hstep
        obtain ⟨e, he, rfl⟩ := Option.map_eq_some_iff.mp htick
        exact .tick hloop hdue he
      · cases hstep
  | givesUp =>
      obtain ⟨hloop, hup⟩ := Option.ite_none_right_eq_some.mp hstep
      obtain ⟨e, he, rfl⟩ := Option.map_eq_some_iff.mp hup
      exact .givesUp hloop he
  | keepAliveEnds =>
      simp only [step] at hstep
      split at hstep
      · obtain ⟨hcause, ⟨⟩⟩ := Option.ite_none_right_eq_some.mp hstep
        exact .keepAliveEnds hcause
      · cases hstep

/-- What a step is to the endpoint. -/
theorem step_endpoint {k k' : Clocked} {ev : Event} (hstep : k.step ev = some k') :
    k'.endpoint = k.endpoint ∨ ∃ a, k.endpoint.step a = some k'.endpoint := by
  cases stepped hstep with
  | act _ he => exact Or.inr ⟨_, he⟩
  | closes _ he => exact Or.inr ⟨_, he⟩
  | tick _ _ he => exact Or.inr ⟨_, he⟩
  | givesUp _ he => exact Or.inr ⟨_, he⟩
  | _ => exact Or.inl rfl

/-- A run with the clock is a run of the endpoint. -/
theorem run_endpoint {config : Config} {isServer : Bool} {start : Time} {events : List Event}
    {k : Clocked} (hrun : Machine.run step (new config isServer start) events = some k) :
    ∃ labels, Machine.run Endpoint.step (.new config isServer) labels = some k.endpoint := by
  have hview : ∀ (k : Clocked) ev k', True → k.step ev = some k' →
      True ∧ ∃ labels, Machine.run Endpoint.step k.endpoint labels = some k'.endpoint := by
    intro k ev k' _ hstep
    refine ⟨trivial, ?_⟩
    rcases step_endpoint hstep with hsame | ⟨a, ha⟩
    · exact ⟨[], by rw [hsame]; rfl⟩
    · exact ⟨[a], by simp [Machine.run, ha]⟩
  exact (Machine.run_view hview trivial hrun).2

omit [GoAppend] in
/-- The requests for a response that a step sends, and the responses that it takes. -/
def pingsBy (k : Clocked) : Event → List PingEvent
  | .act a => k.endpoint.pingsBy a
  | _ => []

/-- An endpoint with the clock and the log of its pings. -/
def pinging : Clocked × List PingEvent → Event → Option (Clocked × List PingEvent) :=
  Machine.watch step pingsBy

/-- The log of the pings is that of the endpoint. -/
theorem run_pinging {config : Config} {isServer : Bool} {start : Time} {events : List Event}
    {k : Clocked} {pings : List PingEvent}
    (hrun : Machine.run pinging (new config isServer start, []) events = some (k, pings)) :
    ∃ labels, Machine.run Endpoint.pinging (.new config isServer, []) labels =
      some (k.endpoint, pings) := by
  have hview : ∀ (x : Clocked × List PingEvent) ev x', True → pinging x ev = some x' →
      True ∧ ∃ labels, Machine.run Endpoint.pinging (x.1.endpoint, x.2) labels =
        some (x'.1.endpoint, x'.2) := by
    rintro ⟨k, pings⟩ ev ⟨k', pings'⟩ _ hwatch
    obtain ⟨hstep, rfl⟩ := Machine.watch_step hwatch
    refine ⟨trivial, ?_⟩
    have hone {a : Action} {e : Endpoint} (he : k.endpoint.step a = some e) :
        Machine.run Endpoint.pinging (k.endpoint, pings) [a] =
          some (e, pings ++ k.endpoint.pingsBy a) := by
      simp [Machine.run, Endpoint.pinging, Machine.watch, he]
    cases stepped hstep with
    | act _ he => exact ⟨_, hone he⟩
    | @closes handshake e _ he => exact ⟨_, (hone he).trans (by cases handshake <;> rfl)⟩
    | tick _ _ he => exact ⟨_, hone he⟩
    | givesUp _ he => exact ⟨_, hone he⟩
    | _ => exact ⟨[], by simp [Machine.run, pingsBy]⟩
  exact (Machine.run_view hview trivial hrun).2

end Clocked

end Qmux
