import Qmux.Records
import Qmux.Trace.Run

/-!
The end of a connection. `terminate` has many callers, and the first of them
decides why the connection ended. The handshake channel is closed by whichever
comes first, the parameters of the peer or the end; and from the end on every
call returns the reason, and nothing that matters to the peer or to a stream
changes any more.
-/

namespace Qmux

open Wire

namespace Conn

/-- The handshake channel was closed once if the handshake is over or the
connection has ended, and not at all before. -/
def HandshakeOnce (c : Conn) : Prop :=
  c.handshake = if c.ready = true ∨ c.closeErr.isSome = true then 1 else 0

/-- A connection that ended with `err`: whoever calls is told so, and nothing
changes. -/
structure Frozen [Quicvarint] [GoAppend] (c : Conn) (err : ConnError) : Prop where
  terminate : ∀ other, c.terminate other = (c, false)
  tryOpen : ∀ dir, c.tryOpen dir = (c, .closed err)
  tryAccept : ∀ dir, c.tryAccept dir = (c, .closed err)
  tryRead : ∀ r size, c.tryRead r size = (c, .closed err)
  tryPeek : ∀ r size, c.tryPeek r size = (c, .closed err)
  trySend : ∀ r now, c.trySend r now = (c, .failed (.closed err))
  reserve : ∀ r n, c.reserve r n = (c, .error (.closed err))
  finish : ∀ r, c.finish r = (c, .error err)
  handleRecord : ∀ rec now, c.handleRecord rec now = (c, none)
  cancelRead : ∀ r code, c.cancelRead r code = c
  cancelWrite : ∀ r code, c.cancelWrite r code = c
  takeControl : ∀ now, c.takeControl now = (c, [])

section Ended

variable [Quicvarint] [GoAppend] {c : Conn} {err : ConnError}

omit [Quicvarint] [GoAppend] in
private theorem sendErrLocked_closed (hclosed : c.closeErr = some err) (s : Stream) :
    c.sendErrLocked s = some (.closed err) := by
  unfold sendErrLocked
  rw [hclosed]

theorem frozen (hclosed : c.closeErr = some err) : c.Frozen err := by
  have hsome : c.closeErr.isSome = true := by
    rw [hclosed]
    rfl
  constructor
  · intro other
    simp only [Conn.terminate, hsome, if_true]
  · intro dir
    simp only [Conn.tryOpen, hclosed]
  · intro dir
    simp only [Conn.tryAccept, hclosed]
  · intro r size
    simp only [Conn.tryRead, hclosed]
  · intro r size
    simp only [Conn.tryPeek, hclosed]
  · intro r now
    simp only [Conn.trySend, sendErrLocked_closed hclosed]
  · intro r n
    simp only [Conn.reserve, sendErrLocked_closed hclosed]
  · intro r
    simp only [Conn.finish, hclosed]
  · intro rec now
    rw [handleRecord_eq, if_pos (Or.inr hsome)]
  · intro r code
    simp only [Conn.cancelRead, hsome, Bool.true_or, if_true]
  · intro r code
    simp only [Conn.cancelWrite, hsome, if_true]
  · intro now
    simp only [Conn.takeControl, hsome, if_true]

variable {c' : Conn} {heard : Parsed → Prop} {t : Traffic}

/-- A move of an ended connection that hands nothing out changes nothing but
signals, deadlines and the like. -/
theorem core_of_move (hmove : Move heard c t c') (hclosed : c.closeErr = some err)
    (hhanded : t.handed = []) (hpings : t.pings = []) : c'.core = c.core := by
  cases hmove with
  | still htook hnone hno hreads hcore => exact hcore
  | pong => cases hpings
  | close => cases hhanded
  | woken => rfl
  | _ => exact absurd (‹c.closeErr = none›.symm.trans hclosed) nofun

theorem handshakeOnce_of_move (hmove : Move heard c t c') (h : c.HandshakeOnce) :
    c'.HandshakeOnce := by
  have hsame : (c'.handshake, c'.ready) = (c.handshake, c.ready) → c'.HandshakeOnce := by
    intro hfields
    obtain ⟨hhandshake, hready⟩ := Prod.mk.inj hfields
    unfold HandshakeOnce
    rw [hhandshake, hready, (closeErr_of_move hmove).1]
    exact h
  cases hmove with
  | still htook hnone hno hreads hcore =>
      exact hsame (congrArg (fun d : Conn => (d.handshake, d.ready)) hcore :)
  | act hopen hact =>
      exact hsame (hact.touches.view (fun d => (d.handshake, d.ready)) fun _ _ _ _ _ _ => rfl)
  | parameters hopen hready =>
      unfold HandshakeOnce at h ⊢
      simp only [hopen, hready, Bool.false_eq_true, Option.isSome_none, or_self, if_false] at h
      simp only [handleParametersLocked, h, true_or, if_true]
  | accept =>
      exact hsame (completeLocked_view (fun d => (d.handshake, d.ready)) (fun _ _ _ _ _ => rfl) _ _)
  | @raiseStreams f =>
      apply hsame
      obtain ⟨out, hout⟩ := c.handleMaxStreams_frame f
      rw [hout]
  | @flush now =>
      apply hsame
      obtain ⟨_, _, _, _, hflush⟩ := c.flushed_frame now
      rw [hflush]
  | _ => exact hsame rfl

theorem History.handshakeOnce {config : Config} {isServer : Bool}
    (hhistory : History config isServer heard t c) : c.HandshakeOnce := by
  induction hhistory with
  | start => rfl
  | move hprior hmove ih => exact handshakeOnce_of_move hmove ih
  | @terminate _ c err hprior ih =>
      unfold Conn.terminate
      split_ifs with hclosed
      · exact ih
      · unfold HandshakeOnce at ih ⊢
        cases hready : c.ready with
        | true => simpa [terminated, hready] using ih
        | false => simpa [terminated, hready, hclosed] using ih

omit [Quicvarint] in
/-- Only a CONNECTION_CLOSE tells that the peer has closed the connection. -/
theorem handleFrameLocked_closedBy {f : Parsed} {now : Time} {next : Conn}
    (hframe : c.handleFrameLocked f now = (next, some (.closed err))) :
    ∃ close, f = .frame (.connectionClose close) ∧ err = remoteError close := by
  have hviolation {result : Conn × Option Wire.Error} :
      (result.1, result.2.map Failure.violation) ≠ (next, some (.closed err)) := by
    obtain ⟨c', _ | e⟩ := result <;> simp
  unfold handleFrameLocked at hframe
  split at hframe
  · split_ifs at hframe <;> simp at hframe
  · split_ifs at hframe
    · unfold handleOtherLocked at hframe
      dsimp only at hframe
      split at hframe
      all_goals first
        | exact absurd hframe hviolation
        | simp at hframe
      exact ⟨_, rfl, hframe.2.symm⟩
    · simp at hframe

/-- A record tells that the peer has closed the connection when the frame after those that
were accepted is a CONNECTION_CLOSE. -/
theorem handleRecord_closedBy {rec : Bytes} {now : Time} {next : Conn}
    (hrecord : c.handleRecord rec now = (next, some (.closed err))) :
    ∃ close, err = remoteError close ∧
      c.accepted rec now ++ [.frame (.connectionClose close)] <+: frames rec := by
  unfold handleRecord accepted frames at *
  generalize rec.length = fuel at hrecord ⊢
  induction fuel generalizing c rec with
  | zero => cases hrecord
  | succ fuel ih =>
      unfold handleFrames at hrecord
      unfold acceptedFrom framesFrom
      split_ifs at hrecord ⊢
      · cases hrecord
      · generalize parse rec = found at hrecord ⊢
        rcases found with e | _ | ⟨f, rest⟩
        · cases hrecord
        · cases hrecord
        · rcases hframe : c.handleFrameLocked f now with ⟨mid, _ | failure⟩
          · simp only [hframe] at hrecord ⊢
            obtain ⟨close, herr, hprefix⟩ := ih hrecord
            exact ⟨close, herr, List.cons_prefix_cons.mpr ⟨rfl, hprefix⟩⟩
          · simp only [hframe] at hrecord ⊢
            obtain ⟨-, hsame⟩ := Prod.mk.inj hrecord
            rw [Option.some.inj hsame] at hframe
            obtain ⟨close, rfl, herr⟩ := handleFrameLocked_closedBy hframe
            exact ⟨close, herr, ⟨framesFrom fuel rest, rfl⟩⟩

end Ended

theorem reserve_closeErr (c : Conn) (r : Ref) (n : Nat) :
    (c.reserve r n).1.closeErr = c.closeErr ∧
      (∀ err, c.closeErr = some err → (c.reserve r n).1 = c) := by
  unfold reserve
  dsimp only
  cases hsend : c.sendErrLocked (c.heap r) with
  | some e => exact ⟨rfl, fun _ _ => rfl⟩
  | none =>
      refine ⟨rfl, fun err hclosed => ?_⟩
      rw [sendErrLocked_closed hclosed] at hsend
      cases hsend

theorem finish_closeErr (c : Conn) (r : Ref) :
    (c.finish r).1.closeErr = c.closeErr ∧
      (∀ err, c.closeErr = some err → (c.finish r).1 = c) := by
  unfold finish
  dsimp only
  cases hclosed : c.closeErr with
  | some e => exact ⟨hclosed, fun _ _ => rfl⟩
  | none =>
      refine ⟨?_, fun err hsome => by cases hsome⟩
      split_ifs
      · exact hclosed
      · exact (completeLocked_closeErr _ _).1.trans hclosed

theorem takeControl_closeErr (c : Conn) (now : Time) :
    (c.takeControl now).1.closeErr = c.closeErr ∧
      (∀ err, c.closeErr = some err → (c.takeControl now).1 = c) := by
  unfold takeControl
  split_ifs with hclosed
  · exact ⟨rfl, fun _ _ => rfl⟩
  · refine ⟨?_, fun err hsome => ?_⟩
    · obtain ⟨_, _, _, _, hflush⟩ := c.flushed_frame now
      rw [hflush]
    · rw [hsome] at hclosed
      exact absurd rfl hclosed

end Conn

namespace Endpoint

section

variable [Quicvarint]

/-- The error that a step calls `terminate` with, if it calls it. -/
def terminatesBy (e : Endpoint) : Action → List ConnError
  | .closeWithError code msg => [(applicationClose code msg).1]
  | .handshakeTimeout => [.handshakeTimeout]
  | .idleTimeout => [.idleTimeout]
  | .abort cause => [.cancelled cause]
  | .abortWrite cause => [.writeFailed cause]
  | .loopAbort cause => [.writeFailed cause]
  | .readerCloses =>
      match e.reader with
      | .violation err => [(transportClose err).1]
      | .aborting err => [err]
      | _ => []
  | _ => []

variable {e e' : Endpoint}

/-- The critical section of a writer does not end the connection, and does
nothing once it has ended. -/
theorem enter_closeErr {now : Time} (hstep : e.enter now = some e') :
    e'.conn.closeErr = e.conn.closeErr ∧
      (∀ err, e.conn.closeErr = some err → e'.conn = e.conn) := by
  unfold enter at hstep
  split at hstep
  · rename_i r p hmu
    have hreserve := e.conn.reserve_closeErr r p.length
    rcases hresult : e.conn.reserve r p.length with ⟨c, _ | ⟨offset, n⟩⟩
    all_goals
      rw [hresult] at hstep hreserve
      obtain rfl := Option.some.inj hstep
      exact hreserve
  · rename_i r hmu
    have hfinish := e.conn.finish_closeErr r
    rcases hresult : e.conn.finish r with ⟨c, _ | _ | finalSize⟩
    all_goals
      rw [hresult] at hstep hfinish
      obtain rfl := Option.some.inj hstep
      exact hfinish
  · have htake := e.conn.takeControl_closeErr now
    rcases hresult : e.conn.takeControl now with ⟨c, frames⟩
    rw [hresult] at hstep htake
    dsimp only at hstep
    split at hstep
    all_goals
      obtain rfl := Option.some.inj hstep
      exact htake
  · split_ifs at hstep
    all_goals
      obtain rfl := Option.some.inj hstep
      exact ⟨rfl, fun _ _ => rfl⟩
  · cases hstep

variable [GoAppend]

/-- What a step does to the end of the connection: the first call of
`terminate` decides it, and from then on only signals, deadlines and the like
change. -/
private def Ends (e : Endpoint) (errs : List ConnError) (e' : Endpoint) : Prop :=
  e'.conn.closeErr = e.conn.closeErr.or errs.head? ∧
    ∀ err, e.conn.closeErr = some err → e'.conn.core = e.conn.core

omit [GoAppend] in
private theorem Ends.same (hclose : e'.conn.closeErr = e.conn.closeErr)
    (hcore : ∀ err, e.conn.closeErr = some err → e'.conn.core = e.conn.core) :
    e.Ends [] e' :=
  ⟨hclose.trans (Option.or_none).symm, hcore⟩

omit [GoAppend] in
private theorem Ends.still (hcore : e'.conn.core = e.conn.core) : e.Ends [] e' :=
  .same (congrArg Conn.closeErr hcore :) (fun _ _ => hcore)

omit [GoAppend] in
private theorem Ends.terminate {err : ConnError} (hconn : e'.conn = (e.conn.terminate err).1) :
    e.Ends [err] e' := by
  refine ⟨hconn ▸ e.conn.terminate_closeErr err, fun first hclosed => ?_⟩
  rw [hconn, Conn.terminate, hclosed]
  rfl

private theorem receive_ends (hsize : e.conn.config.maxRecordSize.toNat ≤ maxVarint) (rec : Bytes)
    (now : Time) : e.Ends [] (e.receive rec now) := by
  unfold receive
  dsimp only
  split_ifs with hlong
  · exact .still rfl
  · have hmoves : Conn.Moves (fun _ => True) e.conn _ (e.conn.handleRecord rec now).1 :=
      (Conn.handleRecord_moves now (by omega) (fun _ _ => trivial)).1
    have hrecord : (e.conn.handleRecord rec now).1.closeErr = e.conn.closeErr :=
      hmoves.closeErr.1
    have hfrozen : ∀ err, e.conn.closeErr = some err →
        (e.conn.handleRecord rec now).1.core = e.conn.core := by
      intro err hclosed
      rw [(Conn.frozen hclosed).handleRecord]
    rcases hresult : e.conn.handleRecord rec now with ⟨c, _ | err | err⟩
    all_goals
      rw [hresult] at hrecord hfrozen
      exact .same hrecord hfrozen

private theorem step_ends (hsize : e.conn.config.maxRecordSize.toNat ≤ maxVarint) {a : Action}
    (hstep : e.step a = some e') : e.Ends (e.terminatesBy a) e' := by
  cases stepped hstep with
  | call hcall =>
      have hmove : Conn.Move (fun _ => True) e.conn _ _ := Conn.call_move _ hcall
      exact .same (Conn.closeErr_of_move hmove).1
        (fun err hclosed => Conn.core_of_move hmove hclosed rfl rfl)
  | close hcloses =>
      cases hcloses with
      | violation hreader =>
          unfold terminatesBy
          rw [hreader]
          exact .terminate rfl
      | _ => exact .terminate rfl
  | abort haborts =>
      cases haborts with
      | readLoop hreader =>
          unfold terminatesBy
          rw [hreader]
          exact .terminate rfl
      | _ => exact .terminate rfl
  | lock _ hlock =>
      obtain ⟨_, _, rfl, -⟩ := lock_frame hlock
      exact .still rfl
  | enter henter =>
      obtain ⟨hclose, hsame⟩ := enter_closeErr henter
      exact .same hclose (fun err hclosed => congrArg Conn.core (hsame err hclosed))
  | write hwrite =>
      obtain ⟨_, _, _, _, _, rfl, -⟩ := write_frame hwrite
      exact .still rfl
  | record => exact receive_ends hsize _ _
  | _ => exact .still rfl

/-- Only a call of `terminate` ends the connection. -/
theorem step_closeErr (hsize : e.conn.config.maxRecordSize.toNat ≤ maxVarint) {a : Action}
    (hstep : e.step a = some e') :
    e'.conn.closeErr = e.conn.closeErr.or (e.terminatesBy a).head? :=
  (step_ends hsize hstep).1

theorem recordSize_le {config : Config} {isServer : Bool} {labels : List Action}
    (hconfig : config.Valid) (hrun : Machine.run step (new config isServer) labels = some e) :
    e.conn.config.maxRecordSize.toNat ≤ maxVarint := by
  obtain ⟨_, _, t, htraced⟩ := traced hconfig hrun
  rw [htraced.past.history.config.1]
  exact hconfig.recordSize_le

/-- The first call of `terminate` decides why the connection ended. -/
private theorem closeErr_eq_head {config : Config} {isServer : Bool} {labels : List Action}
    {s : Endpoint × List ConnError} (hconfig : config.Valid)
    (hrun : Machine.run (Machine.watch step terminatesBy) (new config isServer, []) labels =
      some s) : s.1.conn.closeErr = s.2.head? := by
  refine (Machine.trace_invariant (P := fun labels (s : Endpoint × List ConnError) =>
    Machine.run step (new config isServer) labels = some s.1 ∧ s.1.conn.closeErr = s.2.head?)
    ⟨rfl, rfl⟩ ?_ labels s hrun).2
  rintro labels s a s' ⟨hprior, hclose⟩ hwatch
  obtain ⟨hstep, hlog⟩ := Machine.watch_step hwatch
  constructor
  · simp [Machine.run_append, hprior, Machine.run, hstep]
  · rw [(step_ends (recordSize_le hconfig hprior) hstep).1, hclose, hlog, List.head?_append]

/-- Once the connection has ended, it stays as it is. -/
private theorem ended_run {config : Config} {isServer : Bool} {labels later : List Action}
    {err : ConnError} (hconfig : config.Valid)
    (hrun : Machine.run step (new config isServer) labels = some e)
    (hclosed : e.conn.closeErr = some err) (hlater : Machine.run step e later = some e') :
    e'.conn.closeErr = some err ∧ e'.conn.core = e.conn.core := by
  refine (Machine.trace_invariant (P := fun later e' =>
    Machine.run step (new config isServer) (labels ++ later) = some e' ∧
      e'.conn.closeErr = some err ∧ e'.conn.core = e.conn.core)
    ⟨by rwa [List.append_nil], hclosed, rfl⟩ ?_ later e' hlater).2
  rintro later mid a next ⟨hprior, hclosed, hcore⟩ hstep
  obtain ⟨hclose, hfrozen⟩ := step_ends (recordSize_le hconfig hprior) hstep
  refine ⟨?_, ?_, (hfrozen err hclosed).trans hcore⟩
  · rw [← List.append_assoc, Machine.run_append, hprior]
    simp [Machine.run, hstep]
  · rw [hclose, hclosed, Option.some_or]

/-- Closing is final. Whatever calls race, the first to reach `terminate`
decides the error; the handshake channel is closed once; and in every later
state the error is the same, every call returns it, and streams, flow control,
stream limits and the control queue are as they were. -/
theorem closing_final (config : Option Config) (isServer : Bool) {labels : List Action}
    {log : List ConnError}
    (hrun : Machine.run (Machine.watch step terminatesBy)
      (new (Config.normalized config) isServer, []) labels = some (e, log)) :
    e.conn.closeErr = log.head? ∧ e.conn.HandshakeOnce ∧
      ∀ err, e.conn.closeErr = some err → ∀ later e', Machine.run step e later = some e' →
        e'.conn.closeErr = some err ∧ e'.conn.core = e.conn.core ∧ e'.conn.Frozen err := by
  have hconfig := Config.normalized_valid config
  have hplain := Machine.run_of_watch hrun
  refine ⟨closeErr_eq_head hconfig hrun, ?_, ?_⟩
  · obtain ⟨_, _, t, htraced⟩ := traced hconfig hplain
    exact htraced.past.history.handshakeOnce
  · intro err hclosed later e' hlater
    obtain ⟨hclosed', hcore⟩ := ended_run hconfig hplain hclosed hlater
    exact ⟨hclosed', hcore, Conn.frozen hclosed'⟩

end

end Endpoint

/-- Two calls race to close before the handshake, and the first one wins. -/
theorem closing_final_raced :
    ∃ (e : Endpoint) (log : List ConnError),
      Machine.run (Machine.watch Endpoint.step Endpoint.terminatesBy)
        (Endpoint.new (Config.normalized none) false, [])
        [.closeWithError 7 [], .write true, .idleTimeout] = some (e, log) ∧
      log.length = 2 ∧ e.conn.closeErr = some (.application false 7 []) ∧ e.conn.handshake = 1 := by
  have hrun : (Machine.run (Machine.watch Endpoint.step Endpoint.terminatesBy)
      (Endpoint.new (Config.normalized none) false, [])
      [.closeWithError 7 [], .write true, .idleTimeout]).map
        (fun s => (s.2, s.1.conn.ready)) =
      some ([.application false 7 [], .idleTimeout], false) := by
    decide +kernel
  obtain ⟨⟨e, log⟩, hrun, hlog⟩ := Option.map_eq_some_iff.mp hrun
  obtain ⟨hlog, hready⟩ := Prod.mk.inj hlog
  obtain ⟨hclose, honce, -⟩ := Endpoint.closing_final none false hrun
  dsimp only at hlog
  rw [hlog] at hclose
  refine ⟨e, log, hrun, by rw [hlog]; rfl, hclose, ?_⟩
  rw [Conn.HandshakeOnce, hclose] at honce
  simpa using honce

end Qmux
