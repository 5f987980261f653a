import Qmux.Conn.Calls
import Qmux.Lib.Machine

/-!
One endpoint as a machine of interleaved critical sections. A step is what one
goroutine does under one hold of `mu`, one record write under `writeMu`, or a
change of who holds `writeMu`; the label says which goroutine moves and
resolves every choice. Any number of application goroutines may call at any
time: a goroutine that waits for a lock or a channel has no state here, and
only the holder of `writeMu` and the connection's own goroutines do. Which of
the waiters gets `writeMu` next is left open.

The transport takes whole records. A write may fail at any time, and once one
has failed, or the transport was closed, no later one succeeds. An encoder
that panics ends the program: the write has no successor then.
-/

namespace Qmux

open Wire

/-- A record as the transport takes it: the frames of its Frames field and
their encoding. -/
structure Record [Quicvarint] where
  frames : List Frame
  bytes : Bytes
  encoded : appendAll frames = some bytes

/-- What the holder of `writeMu` writes, and so what follows its write. -/
inductive Writer where
  | parameters
  | flush
  | stream
  | datagram
  | close
deriving DecidableEq, Repr

/-- Who holds `writeMu`, and what it is about to do. `chunk` is in
`writeChunk` before `reserve`, `closeSend` before `finish`, `flush` in
`flushControl` before `takeControl`, and `datagram` before the check of the
context. `writing` has records left to write, and `aborting` is a stream or
datagram writer whose write failed, before its `abort`. -/
inductive Holder where
  | free
  | chunk (r : Ref) (p : Bytes)
  | closeSend (r : Ref)
  | flush
  | datagram (p : Bytes)
  | writing (w : Writer) (records : List (List Frame))
  | aborting
deriving DecidableEq, Repr

/-- Where the write loop is. It is `woken` from taking the token to the end of
`flushControl`. -/
inductive Loop where
  | parameters
  | select
  | woken
  | failed
  | ended
deriving DecidableEq, Repr

/-- Where the read loop is: after a violation it closes the connection and
reads on, after the peer's close or an error it aborts. -/
inductive ReadLoop where
  | reading
  | violation (e : Wire.Error)
  | aborting (e : ConnError)
  | ended
deriving DecidableEq, Repr

/-- What is left to do for the one call that ended the connection. -/
inductive Closer where
  | idle
  | graceful (frame : Option ConnectionClose)
  | writing
  | shutdown
  | ended
deriving DecidableEq, Repr

structure Endpoint [Quicvarint] where
  conn : Conn
  writeMu : Holder
  loop : Loop
  reader : ReadLoop
  closer : Closer
  /-- The sending side of the transport is closed. -/
  closed : Bool
  /-- A write has failed. -/
  failed : Bool
  /-- The records the transport took, oldest first. -/
  wire : List Record

/-- What a goroutine takes `writeMu` for. -/
inductive Job where
  | chunk (r : Ref) (p : Bytes)
  | closeSend (r : Ref)
  | flush
  | datagram (p : Bytes)
  | close
deriving DecidableEq, Repr

inductive Action where
  /-- A call under `mu`. -/
  | call (op : Call)
  /-- `CloseWithError` and the two timeouts, up to the end of `terminate`. -/
  | closeWithError (code : Nat) (msg : Bytes)
  | handshakeTimeout
  | idleTimeout
  /-- `start` aborts when its context ends. -/
  | abort (cause : String)
  /-- A goroutine is handed `writeMu`. -/
  | lock (job : Job)
  /-- The holder of `writeMu` runs its critical section under `mu`. -/
  | enter (now : Time)
  /-- The holder of `writeMu` writes its next record. -/
  | write (ok : Bool)
  /-- The holder aborts after a failed write, and unlocks. -/
  | abortWrite (cause : String)
  /-- The write loop takes the token, aborts after a failed write, or ends. -/
  | wake
  | loopAbort (cause : String)
  | loopEnd
  /-- `readRecord` returns the Frames field of a record, or fails. -/
  | record (rec : Bytes) (now : Time)
  | readFailed (cause : String)
  /-- The read loop acts on what `handleRecord` or `readRecord` failed with. -/
  | readerCloses
  /-- The call that ended the connection shuts the transport down. -/
  | shutdown
  /-- The transport goes away: the forced close, or the peer. -/
  | transportCloses
deriving DecidableEq, Repr

def recordTooLarge (size limit : Nat) : Wire.Error :=
  ⟨frameEncodingError, "record of " ++ toString size ++
    " bytes exceeds max_record_size " ++ toString limit⟩

section Records

variable [Quicvarint]

/-- The bytes a frame adds to a record. -/
def frameSize (f : Frame) : Nat :=
  (f.append.getD []).length

/-- The loop of `flushControl`: `built` are the frames of the record under
construction and `size` is its length. A record is written as soon as the next
frame might not fit. -/
def packControl : List Frame → List Frame → Nat → List (List Frame)
  | [], built, _ => if built = [] then [] else [built]
  | f :: rest, built, size =>
      if size + frameSize f > defaultMaxRecordSize - maxControlFrameSize then
        (built ++ [f]) :: packControl rest [] 0
      else packControl rest (built ++ [f]) (size + frameSize f)

end Records

namespace Endpoint

variable [Quicvarint]

/-- The state in which `newConn` starts the goroutines: `writeMu` is held on
behalf of the write loop, which writes the transport parameters first. -/
def new (config : Config) (isServer : Bool) : Endpoint where
  conn := Conn.new config isServer
  writeMu := .writing .parameters
    [[.transportParameters (Conn.new config isServer).localParameters]]
  loop := .parameters
  reader := .reading
  closer := .idle
  closed := false
  failed := false
  wire := []

/-- `closeGracefully`, up to the end of `terminate`. Only the call that ended
the connection goes on. -/
def closeGracefully (e : Endpoint) (err : ConnError) (frame : Option ConnectionClose) :
    Endpoint :=
  let (c, ended) := e.conn.terminate err
  { e with conn := c, closer := if ended then .graceful frame else e.closer }

/-- `abort`, up to the end of `terminate`. -/
def abort (e : Endpoint) (err : ConnError) : Endpoint :=
  let (c, ended) := e.conn.terminate err
  { e with conn := c, closer := if ended then .shutdown else e.closer }

/-- A goroutine is handed `writeMu`. -/
def lock (e : Endpoint) : Job → Option Endpoint
  | .chunk r p =>
      if e.conn.holdsSend r ∧ p ≠ [] then some { e with writeMu := .chunk r p } else none
  | .closeSend r =>
      if e.conn.holdsSend r then some { e with writeMu := .closeSend r } else none
  | .flush => if e.loop = .woken then some { e with writeMu := .flush } else none
  | .datagram p =>
      if e.conn.datagramLimit ≠ 0 ∧ Datagram.len ⟨p⟩ ≤ e.conn.datagramLimit then
        some { e with writeMu := .datagram p }
      else none
  | .close =>
      match e.closer with
      | .graceful (some frame) => some { e with
          writeMu := .writing .close [[.connectionClose frame]]
          closer := .writing }
      | _ => none

/-- The critical section under `mu` of the holder of `writeMu`. -/
def enter (e : Endpoint) (now : Time) : Option Endpoint :=
  match e.writeMu with
  | .chunk r p =>
      match e.conn.reserve r p.length with
      | (c, .error _) => some { e with conn := c, writeMu := .free }
      | (c, .ok (offset, n)) => some { e with
          conn := c
          writeMu :=
            if n = 0 then .free
            else .writing .stream [[.stream ⟨(c.heap r).id, offset, p.take n, false⟩]] }
  | .closeSend r =>
      match e.conn.finish r with
      | (c, .ok (some finalSize)) => some { e with
          conn := c
          writeMu := .writing .stream [[.stream ⟨(c.heap r).id, finalSize, [], true⟩]] }
      | (c, _) => some { e with conn := c, writeMu := .free }
  | .flush =>
      let (c, frames) := e.conn.takeControl now
      match packControl frames [] 0 with
      | [] => some { e with conn := c, writeMu := .free, loop := .select }
      | records => some { e with conn := c, writeMu := .writing .flush records }
  | .datagram p =>
      if e.conn.cause.isSome then some { e with writeMu := .free }
      else some { e with writeMu := .writing .datagram [[.datagram ⟨p⟩]] }
  | _ => none

/-- What follows the last record of a writer. -/
def written (e : Endpoint) : Writer → Endpoint
  | .parameters | .flush => { e with writeMu := .free, loop := .select }
  | .stream | .datagram => { e with writeMu := .free }
  | .close => { e with writeMu := .free, closer := .shutdown }

/-- What follows a failed write. -/
def writeFails (e : Endpoint) : Writer → Endpoint
  | .parameters | .flush => { e with failed := true, writeMu := .free, loop := .failed }
  | .stream | .datagram => { e with failed := true, writeMu := .aborting }
  | .close => { e with failed := true, writeMu := .free, closer := .shutdown }

/-- The holder of `writeMu` encodes and writes its next record. -/
def write (e : Endpoint) (ok : Bool) : Option Endpoint :=
  match e.writeMu with
  | .writing w (frames :: rest) =>
      match h : appendAll frames with
      | none => none
      | some bytes =>
          if ok then
            if e.closed || e.failed then none
            else
              let e : Endpoint := { e with wire := e.wire ++ [⟨frames, bytes, h⟩] }
              match rest with
              | [] => some (e.written w)
              | _ => some { e with writeMu := .writing w rest }
          else some (e.writeFails w)
  | _ => none

variable [GoAppend]

/-- The read loop processes a record. -/
def receive (e : Endpoint) (rec : Bytes) (now : Time) : Endpoint :=
  let limit := e.conn.config.maxRecordSize.toNat
  if rec.length > limit then
    { e with reader := .violation (recordTooLarge rec.length limit) }
  else
    match e.conn.handleRecord rec now with
    | (c, none) => { e with conn := c }
    | (c, some (.violation err)) => { e with conn := c, reader := .violation err }
    | (c, some (.closed err)) => { e with conn := c, reader := .aborting err }

/-- The read loop acts on a failure. -/
def readerCloses (e : Endpoint) : Option Endpoint :=
  match e.reader with
  | .violation err =>
      let (reason, frame) := transportClose err
      some { e.closeGracefully reason (some frame) with reader := .reading }
  | .aborting err => some { e.abort err with reader := .ended }
  | _ => none

def step (e : Endpoint) : Action → Option Endpoint
  | .call op => (e.conn.call op).map (fun c => { e with conn := c })
  | .closeWithError code msg =>
      let (reason, frame) := applicationClose code msg
      some (e.closeGracefully reason (some frame))
  | .handshakeTimeout => some (e.closeGracefully .handshakeTimeout none)
  | .idleTimeout => some (e.closeGracefully .idleTimeout none)
  | .abort cause => some (e.abort (.cancelled cause))
  | .lock job => if e.writeMu = .free then e.lock job else none
  | .enter now => e.enter now
  | .write ok => e.write ok
  | .abortWrite cause =>
      if e.writeMu = .aborting then
        some { e.abort (.writeFailed cause) with writeMu := .free }
      else none
  | .wake =>
      if e.loop = .select ∧ e.conn.controlWake then
        some { e with loop := .woken, conn := { e.conn with controlWake := false } }
      else none
  | .loopAbort cause =>
      if e.loop = .failed then
        some { e.abort (.writeFailed cause) with loop := .ended }
      else none
  | .loopEnd =>
      if e.loop = .select ∧ e.conn.cause.isSome then some { e with loop := .ended }
      else none
  | .record rec now => if e.reader = .reading then some (e.receive rec now) else none
  | .readFailed cause =>
      if e.reader = .reading then
        some { e with reader := .aborting (.transportClosed cause) }
      else none
  | .readerCloses => e.readerCloses
  | .shutdown =>
      match e.closer with
      | .graceful none | .shutdown => some { e with closed := true, closer := .ended }
      | _ => none
  | .transportCloses => some { e with closed := true }

/-- The states an endpoint can be in, over any transport and against any peer. -/
def Reachable (config : Config) (isServer : Bool) (e : Endpoint) : Prop :=
  Machine.Reachable step (new config isServer) e

end Endpoint

end Qmux
