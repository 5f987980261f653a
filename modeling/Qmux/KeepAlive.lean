import Qmux.Trace.Run

/-!
The keep-alive. `requestPing` gives a peer up when pings have been unanswered
for the idle timeout. It is right to do so whenever no response was overtaken
by a later request. Otherwise it is not: only the response to the latest
request counts as an answer, so a peer that answers every request, but later
than the next one is sent, is given up.
-/

namespace Qmux

open Wire

namespace Conn

/-- The connection as a monitor of its peer. -/
def monitor (c : Conn) : Probe.Monitor Time :=
  ⟨c.nextPing, c.pingUnanswered, c.pingUnansweredAt⟩

theorem flushed_monitor {c : Conn} (hnext : c.nextPing ≤ 2 ^ 62) (hopen : c.closeErr = none)
    (now : Time) : Probe.Step c.monitor (c.askedBy now) (c.flushed now).monitor := by
  unfold askedBy flushed
  rw [hopen]
  cases hpending : c.pingPending with
  | false => exact .still
  | true =>
      have hadd : Word.add c.nextPing 1 = c.nextPing + 1 := Word.add_of_lt (by omega)
      simp only [monitor, hadd, if_true]
      exact .ask (v := c.monitor) now

private theorem still_monitor {c c' : Conn} {t : Traffic} (hpings : t.pings = []) (h : c'.monitor = c.monitor) :
    Probe.Step c.monitor t.pings c'.monitor := by
  rw [hpings, h]
  exact .still

section

variable [Quicvarint] [GoAppend] {heard : Parsed → Prop} {c c' : Conn} {t : Traffic}

omit [Quicvarint] in
theorem Act.pings {r : Ref} {s : Stream} {frames : List Frame} (hact : Act heard c r t s frames c') :
    t.pings = [] := by
  cases hact with
  | resetSend hcause =>
      rcases hcause with ⟨-, rfl⟩ | ⟨f, -, -, -, rfl⟩ <;> rfl
  | _ => rfl

theorem monitor_of_move (hmove : Move heard c t c') :
    Probe.Step c.monitor t.pings c'.monitor := by
  cases hmove with
  | still htook hhanded hpings hreads hcore =>
      exact still_monitor hpings (congrArg Conn.monitor hcore :)
  | act hopen hact =>
      exact still_monitor hact.pings (hact.touches.view monitor fun _ _ _ _ _ _ => rfl)
  | accept =>
      exact still_monitor rfl (completeLocked_view monitor (fun _ _ _ _ _ => rfl) _ _)
  | @raiseStreams f =>
      obtain ⟨out, hout⟩ := c.handleMaxStreams_frame f
      rw [hout]
      exact still_monitor rfl rfl
  | pong now rtt hready hheard hresponse hlt => exact .answer (v := c.monitor) now hlt
  | @flush now hopen hping => exact flushed_monitor hping hopen now
  | _ => exact .still

/-- If no response was overtaken, the monitor is sound in every history. -/
theorem History.monitor_sound {config : Config} {isServer : Bool}
    (hhistory : History config isServer heard t c) (hprompt : Probe.Prompt t.pings) :
    Probe.Sound t.pings c.monitor := by
  induction hhistory with
  | start => exact .start 0
  | move hprior hmove ih => exact (ih hprompt.of_append).step (monitor_of_move hmove) hprompt
  | terminate err hprior ih =>
      have hsame : ∀ c : Conn, (c.terminate err).1.monitor = c.monitor := by
        intro c
        unfold Conn.terminate
        split_ifs <;> rfl
      rw [hsame]
      exact ih hprompt

end

theorem requestPing_false {c : Conn} {now : Time} (h : (c.requestPing now).2 = false) :
    c.pingUnanswered = true ∧ 0 < c.idleTimeout ∧
      c.pingUnansweredAt ≤ now - c.idleTimeout := by
  unfold requestPing at h
  split_ifs at h with hdead
  exact ⟨hdead.1, hdead.2.1, le_sub_comm.mp hdead.2.2⟩

end Conn

namespace Endpoint

section

variable [Quicvarint] [GoAppend]

/-- An endpoint with the log of its pings. -/
def pinging : Endpoint × List PingEvent → Action → Option (Endpoint × List PingEvent) :=
  Machine.watch step pingsBy

/-- If no response was overtaken, a peer that counts as unresponsive since some time has
left the request of that time unanswered. -/
theorem unanswered_of_pinging {config : Config} {isServer : Bool} {labels : List Action}
    {e : Endpoint} {log : List PingEvent} (hvalid : config.Valid)
    (hrun : Machine.run pinging (new config isServer, []) labels = some (e, log))
    (hprompt : Probe.Prompt log) (hwaiting : e.conn.pingUnanswered = true) :
    Probe.Unanswered log e.conn.pingUnansweredAt := by
  obtain ⟨_, _, t, htraced, rfl⟩ := traced_watch Traffic.pings (fun _ _ => rfl)
    (fun _ _ _ _ hpings _ => hpings) hvalid hrun
  exact ((htraced.past.history.monitor_sound hprompt).unanswered hwaiting).2

/-- In every run in which no response was overtaken by a later request, a peer
is given up only if a request sent the idle timeout ago has no response, and no
later request has one. -/
theorem keepAlive_sound (config : Option Config) (isServer : Bool) {labels : List Action}
    {e : Endpoint} {log : List PingEvent} {now : Time}
    (hrun : Machine.run pinging (new (Config.normalized config) isServer, []) labels =
      some (e, log))
    (hprompt : Probe.Prompt log) (hdead : (e.conn.requestPing now).2 = false) :
    ∃ time ≤ now - e.conn.idleTimeout, Probe.Unanswered log time := by
  obtain ⟨hwaiting, -, hlong⟩ := Conn.requestPing_false hdead
  exact ⟨_, hlong, unanswered_of_pinging (Config.normalized_valid config) hrun hprompt hwaiting⟩

end

end Endpoint

/-- The time of a step that reads the clock. -/
def Action.time? : Action → Option Time
  | .call (.requestPing now) => some now
  | .call (.trySend _ now) => some now
  | .enter now => some now
  | .record _ now => some now
  | _ => none

section Runs

/-- The keep-alive asks for a ping, and the write loop sends it. -/
def asksAt (now : Time) : List Action :=
  [.call (.requestPing now), .wake, .lock .flush, .enter now, .write true]

/-- The peer's answer to a request is processed. -/
def answersAt (sequence : Nat) (now : Time) : Action :=
  .record ((Frame.ping ⟨true, sequence⟩).append.getD []) now

/-- The transport parameters go out and those of the peer come in. -/
def handshakes : List Action :=
  [.write true, .record ((Frame.transportParameters {}).append.getD []) 0]

/-- A peer answers the first request at once and never answers the second. -/
theorem keepAlive_sound_silent :
    ∃ (labels : List Action) (e : Endpoint) (log : List PingEvent),
      Machine.run Endpoint.pinging (Endpoint.new (Config.normalized none) true, []) labels =
        some (e, log) ∧
      (e.conn.requestPing (40 * second)).2 = false ∧
      ∃ time ≤ 40 * second - e.conn.idleTimeout, Probe.Unanswered log time := by
  have hrun : (Machine.run Endpoint.pinging (Endpoint.new (Config.normalized none) true, [])
      (handshakes ++ asksAt 0 ++ [answersAt 0 1] ++ asksAt (10 * second))).map
        (fun s => (s.2, (s.1.conn.requestPing (40 * second)).2)) =
      some ([.asked 0 0, .answered 0 1, .asked 1 (10 * second)], false) := by
    decide +kernel
  obtain ⟨⟨e, log⟩, hrun, hstate⟩ := Option.map_eq_some_iff.mp hrun
  obtain ⟨rfl, hdead⟩ := Prod.mk.inj hstate
  refine ⟨_, e, _, hrun, hdead, Endpoint.keepAlive_sound none true hrun ?_ hdead⟩
  intro before n time after hlog
  rcases before with _ | ⟨_, _ | ⟨_, _ | ⟨_, before⟩⟩⟩ <;> simp at hlog
  obtain ⟨rfl, ⟨rfl, -⟩, -⟩ := hlog
  exact Or.inl (fun k s hk => by simp at hk; omega)

/-- A peer that answers every request eleven seconds after it was sent is given
up: requests are ten seconds apart, so that no answer is to the latest one. The
only request that is as old as the idle timeout has been answered. -/
theorem keepAlive_unsound :
    ∃ (labels : List Action) (e : Endpoint) (log : List PingEvent) (now : Time),
      Machine.run Endpoint.pinging (Endpoint.new (Config.normalized
        (some { keepAlivePeriod := 10000000000 })) false, []) labels = some (e, log) ∧
      (labels.filterMap Action.time? ++ [now]).Pairwise (· ≤ ·) ∧ 0 < e.conn.idleTimeout ∧
      (e.conn.requestPing now).2 = false ∧
      ¬ ∃ time ≤ now - e.conn.idleTimeout, Probe.Unanswered log time := by
  have hrun : (Machine.run Endpoint.pinging (Endpoint.new (Config.normalized
      (some { keepAlivePeriod := 10000000000 })) false, [])
      (handshakes ++ asksAt 0 ++ asksAt (10 * second) ++ [answersAt 0 (11 * second)] ++
        asksAt (20 * second) ++ [answersAt 1 (21 * second)])).map
        (fun s => (s.2, s.1.conn.idleTimeout, (s.1.conn.requestPing (30 * second)).2)) =
      some (([.asked 0 0, .asked 1 (10 * second), .answered 0 (11 * second),
        .asked 2 (20 * second), .answered 1 (21 * second)] : List PingEvent),
        (30 * second : Time), false) := by
    decide +kernel
  obtain ⟨⟨e, log⟩, hrun, hstate⟩ := Option.map_eq_some_iff.mp hrun
  simp only [Prod.mk.injEq] at hstate
  obtain ⟨rfl, hidle, hdead⟩ := hstate
  refine ⟨_, e, _, 30 * second, hrun, by decide +kernel, by rw [hidle]; decide, hdead, ?_⟩
  rintro ⟨time, hold, n, hasked, hnone⟩
  have hfirst : n = 0 := by
    rw [hidle] at hold
    simp only [List.mem_cons, Probe.Event.asked.injEq, reduceCtorEq, List.not_mem_nil,
      or_false, false_or] at hasked
    rcases hasked with ⟨rfl, -⟩ | ⟨-, rfl⟩ | ⟨-, rfl⟩
    · rfl
    · exact absurd hold (by decide)
    · exact absurd hold (by decide)
  have hanswered := hnone 0 (11 * second) (by simp)
  omega

end Runs

end Qmux
