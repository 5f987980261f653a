import Qmux.Conn.Alerts
import Qmux.Credit.Stream
import Qmux.Registry.Table
import Qmux.Trace.Run
import Qmux.Wire.RoundTrip

/-!
What a reader of a stream can rely on once a read has ended. An error that ended a
read ends every later one. The end of the stream does so until the peer resets the
stream, which it may do with the same final size.
-/

namespace Qmux

open Wire

/-- The read has ended, and not with the connection. -/
def ReadResult.terminal : ReadResult → Bool
  | .eof _ | .reset _ => true
  | _ => false

namespace Conn

variable {c : Conn} {r : Ref}

/-- A read of an open connection ends with the error that ended the stream. -/
theorem tryRead_reset_iff (hopen : c.closeErr = none) (size : Nat) (err : StreamError) :
    (c.tryRead r size).2 = .reset err ↔ (c.heap r).recvErr = some err := by
  cases herr : (c.heap r).recvErr with
  | some e => simp [tryRead, hopen, herr]
  | none =>
      simp only [tryRead, hopen, herr]
      split_ifs <;> simp

/-- It meets the end of the stream once the peer has ended it and all was read. -/
theorem tryRead_eof_iff (hopen : c.closeErr = none) (size : Nat) (p : Bytes) :
    (c.tryRead r size).2 = .eof p ↔ p = [] ∧ (c.heap r).recvErr = none ∧
      (c.heap r).rbuf.data.length ≤ (c.heap r).roff ∧ (c.heap r).finRecv = true := by
  cases herr : (c.heap r).recvErr with
  | some e => simp [tryRead, hopen, herr]
  | none =>
      simp only [tryRead, hopen, herr]
      split_ifs with hthere hfin
      · simp [Nat.not_le.mpr hthere]
      · simp [hfin, Nat.le_of_not_lt hthere, eq_comm]
      · simp [hfin]

end Conn

namespace Stream

/-- All that the peer has sent was read, and it ended the stream. It may still
have reset it since. -/
structure Drained (s : Stream) : Prop where
  fin : s.finRecv = true
  buffer : s.rbuf.data = [] ∧ s.roff = 0
  err : s.recvErr = none ∨ s.recvReset = true

theorem Drained.step [GoAppend] {window : Nat} {s s' : Stream} (hstep : s.Step window s')
    (h : s.Drained) : s'.Drained := by
  cases hstep with
  | quiet hcore =>
      have hfields := congrArg (fun s : Stream => (s.finRecv, s.rbuf, s.roff, s.recvErr,
        s.recvReset)) hcore
      simp only [core, Prod.mk.injEq] at hfields
      obtain ⟨hfin, hbuf, hroff, herr, hreset⟩ := hfields
      exact ⟨hfin.trans h.fin, by rw [hbuf, hroff]; exact h.buffer,
        by rw [herr, hreset]; exact h.err⟩
  | data _ _ hfin =>
      rw [h.fin] at hfin
      cases hfin
  | reset => exact ⟨h.fin, ⟨rfl, rfl⟩, Or.inr rfl⟩
  | read _ hunread =>
      rw [h.buffer.1] at hunread
      exact absurd hunread (Nat.not_lt_zero _)
  | cancel _ hdone => simp [recvDone, h.fin, h.buffer] at hdone
  | forget => exact ⟨h.fin, ⟨rfl, h.buffer.2⟩, h.err⟩
  | _ => exact ⟨h.fin, h.buffer, h.err⟩

/-- The error that ended a stream is not replaced. -/
theorem recvErr_step [GoAppend] {window : Nat} {s s' : Stream} {err : StreamError}
    (hstep : s.Step window s') (h : s.recvErr = some err) : s'.recvErr = some err := by
  cases hstep with
  | quiet hcore =>
      have hsame := congrArg Stream.recvErr hcore
      exact hsame.trans h
  | data =>
      unfold takeData bufferLocked
      dsimp only
      split_ifs <;> exact h
  | reset => simp only [takeReset, h]
  | read herr => simp [h] at herr
  | cancel herr => simp [h] at herr
  | _ => exact h

end Stream

namespace Endpoint

variable [Quicvarint] [GoAppend]

/-- A read that has ended ends in the same way for as long as the connection is
open, except that a read that met the end of the stream fails from when the peer
resets the stream. -/
theorem reads_stable_iff (config : Option Config) (isServer : Bool) {labels more : List Action}
    {e e' : Endpoint} (hrun : Machine.run step (new (Config.normalized config) isServer) labels =
      some e) (hmore : Machine.run step e more = some e') (hopen : e'.conn.closeErr = none)
    {r : Ref} (hholds : e.conn.holdsRecv r = true) {size size' : Nat} {result : ReadResult}
    (hread : (e.conn.tryRead r size).2 = result) (hterminal : result.terminal = true) :
    (e'.conn.tryRead r size').2 = result ↔
      ¬ (result = .eof [] ∧ (e'.conn.heap r).recvReset = true) := by
  have hvalid := Config.normalized_valid config
  obtain ⟨_, _, t, htraced⟩ := traced hvalid hrun
  obtain ⟨t', hlater⟩ := htraced.restart.run hvalid.recordSize_le hmore
  have hsince := hlater.past.since
  have hbefore := hsince.open_before hopen
  obtain ⟨hr, -, hcan⟩ := Conn.holdsRecv_iff.mp hholds
  have htidy := (Conn.History.streams_sound hvalid htraced.past.history r hr).tidy
  have htidy' := (Conn.History.streams_sound hvalid hlater.past.history r
    (hr.trans_le hsince.later.count)).tidy
  cases result with
  | reset err =>
      have herr := (Conn.tryRead_reset_iff hbefore size err).mp hread
      have hlast := hsince.stream (fun _ _ _ hstep => Stream.recvErr_step hstep) hr herr
      simpa using (Conn.tryRead_reset_iff hopen size' err).mpr hlast
  | eof p =>
      obtain ⟨rfl, herr, hbuf, hfin⟩ := (Conn.tryRead_eof_iff hbefore size p).mp hread
      have hempty : (e.conn.heap r).rbuf.data = [] ∧ (e.conn.heap r).roff = 0 := by
        rcases htidy.buffer hcan with hzero | hless
        · exact ⟨List.eq_nil_of_length_eq_zero (by omega), hzero⟩
        · omega
      have hlast := hsince.stream (fun _ _ _ hstep => Stream.Drained.step hstep) hr
        ⟨hfin, hempty, Or.inl herr⟩
      rw [Conn.tryRead_eof_iff hopen, hlast.buffer.1, hlast.buffer.2]
      have hflags := htidy'.err
      rcases hlast.err with hnone | hreset
      · rw [hnone] at hflags
        simp [hnone, hlast.fin, (Bool.or_eq_false_iff.mp hflags.symm).1]
      · rw [hreset, Bool.true_or] at hflags
        simp [hreset, Option.isSome_iff_ne_none.mp hflags]
  | _ => cases hterminal

end Endpoint

/-- The peer sends a byte and the end of a bidirectional stream, and it is read. -/
def readToEnd : List Action :=
  [.record ((Frame.transportParameters {}).append.getD []) 0,
    .record ((Frame.stream ⟨0, 0, [7], true⟩).append.getD []) 0,
    .call (.tryAccept .bidi), .call (.tryRead 0 1)]

theorem reads_stable_readToEnd :
    ∃ e e' : Endpoint, Machine.run Endpoint.step (Endpoint.new (Config.normalized none) true)
        readToEnd = some e ∧
      Machine.run Endpoint.step e [.call (.tryRead 0 1)] = some e' ∧
      (e.conn.tryRead 0 1).2 = .eof [] ∧ (e'.conn.tryRead 0 2).2 = .eof [] := by
  have hrun : ((Machine.run Endpoint.step (Endpoint.new (Config.normalized none) true)
      readToEnd).bind (fun e => (Machine.run Endpoint.step e [.call (.tryRead 0 1)]).map
        (fun e' => (e, e')))).map (fun (e, e') => decide (e.conn.holdsRecv 0 = true ∧
          (e.conn.tryRead 0 1).2 = .eof [] ∧ e'.conn.closeErr = none ∧
          (e'.conn.heap 0).recvReset = false)) = some true := by
    decide +kernel
  obtain ⟨⟨e, e'⟩, hruns, hstate⟩ := Option.map_eq_some_iff.mp hrun
  obtain ⟨_, hfirst, hpair⟩ := Option.bind_eq_some_iff.mp hruns
  obtain ⟨_, hmore, hsame⟩ := Option.map_eq_some_iff.mp hpair
  obtain ⟨rfl, rfl⟩ := Prod.mk.inj hsame
  obtain ⟨hholds, hread, hopen, hreset⟩ := of_decide_eq_true hstate
  refine ⟨_, _, hfirst, hmore, hread,
    (Endpoint.reads_stable_iff none true hfirst hmore hopen hholds hread rfl).mpr ?_⟩
  simp [hreset]

/-- A read meets the end of the stream, the peer resets the stream with the size it
had, and the next read fails. -/
theorem reads_unstable :
    ∃ e e' : Endpoint, Machine.run Endpoint.step (Endpoint.new (Config.normalized none) true)
        readToEnd = some e ∧
      Machine.run Endpoint.step e
        [.record ((Frame.resetStream ⟨0, 5, 1⟩).append.getD []) 0] = some e' ∧
      e.conn.holdsRecv 0 = true ∧ (e.conn.tryRead 0 1).2 = .eof [] ∧
      e'.conn.closeErr = none ∧ e'.reader = .reading ∧
      (e'.conn.tryRead 0 1).2 = .reset ⟨0, 5, true⟩ := by
  have hrun : ((Machine.run Endpoint.step (Endpoint.new (Config.normalized none) true)
      readToEnd).bind (fun e => (Machine.run Endpoint.step e
        [.record ((Frame.resetStream ⟨0, 5, 1⟩).append.getD []) 0]).map
        (fun e' => (e, e')))).map (fun (e, e') => decide (e.conn.holdsRecv 0 = true ∧
          (e.conn.tryRead 0 1).2 = .eof [] ∧ e'.conn.closeErr = none ∧ e'.reader = .reading ∧
          (e'.conn.tryRead 0 1).2 = .reset ⟨0, 5, true⟩)) = some true := by
    decide +kernel
  obtain ⟨⟨e, e'⟩, hruns, hstate⟩ := Option.map_eq_some_iff.mp hrun
  obtain ⟨_, hfirst, hpair⟩ := Option.bind_eq_some_iff.mp hruns
  obtain ⟨_, hmore, hsame⟩ := Option.map_eq_some_iff.mp hpair
  obtain ⟨rfl, rfl⟩ := Prod.mk.inj hsame
  exact ⟨_, _, hfirst, hmore, of_decide_eq_true hstate⟩

end Qmux
