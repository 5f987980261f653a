import Qmux.Conn.Receive

/-!
The calls of the application and of the connection's own goroutines, each as
far as it runs under one hold of `mu`. A `try` function that finds nothing to
return hands out a channel to wait on; the caller's loop around it is a
sequence of such steps.
-/

namespace Qmux

open Wire

/-- The most stream data that fits in a record of the default size. -/
def maxStreamData : Nat := defaultMaxRecordSize - streamOverhead

/-- The longest reason that keeps a CONNECTION_CLOSE frame within a record of
the default size. -/
def maxControlFrameSize : Nat := 32
def maxReasonLength : Nat := defaultMaxRecordSize - maxControlFrameSize

/-- What `tryOpen` and `tryAccept` return. -/
inductive Opened where
  | closed (e : ConnError)
  | stream (r : Ref)
  | wait (channel : Nat)
deriving DecidableEq, Repr

/-- What `tryRead` and `tryPeek` return. A peek at the end of the stream
returns what there is along with io.EOF. -/
inductive ReadResult where
  | closed (e : ConnError)
  | reset (e : StreamError)
  | data (p : Bytes)
  | eof (p : Bytes)
  | wait (channel : Nat) (deadline : Option Time)
deriving DecidableEq, Repr

/-- Why a stream cannot send. -/
inductive SendError where
  | closed (e : ConnError)
  | reset (e : StreamError)
  | finished (id : Nat)
deriving DecidableEq, Repr

/-- What `trySend` returns. -/
inductive SendResult where
  | ready
  | failed (e : SendError)
  | deadlineExceeded
  | wait (channel connChannel : Nat) (deadline : Option Time)
deriving DecidableEq, Repr

/-- The stream once the application has cancelled reading. -/
def Stream.cancelRead (s : Stream) (code : Nat) : Stream :=
  { s with
    readCancelled := true
    recvErr := some ⟨s.id, code, false⟩
    rbuf := .nil
    roff := 0
    readSignal := s.readSignal.broadcast }

/-- The stream after `n` unread bytes were copied out. -/
def Stream.advance (s : Stream) (n : Nat) : Stream :=
  if s.roff + n = s.rbuf.data.length then { s with rbuf := s.rbuf.clear, roff := 0 }
  else { s with roff := s.roff + n }

/-- The check of `readLocked`: half the window of the stream is used. -/
def Stream.lowCredit (s : Stream) (window : Nat) : Bool :=
  !s.finRecv && decide (Word.sub s.recvMax s.readOffset < window / 2)

namespace Conn

/-- The rest of `tryOpen`, below the peer's limit. -/
def openLocal (c : Conn) (dir : Dir) : Conn :=
  let o := c.out dir
  let s := { c.newStream (c.streamID o.next dir true) with accepted := true }
  (c.newStreamLocked s).setOut dir { o with next := Word.add o.next 1 }

/-- `tryOpen` opens a stream if the peer's limit allows it. -/
def tryOpen (c : Conn) (dir : Dir) : Conn × Opened :=
  match c.closeErr with
  | some e => (c, .closed e)
  | none =>
      let o := c.out dir
      if o.next ≥ o.max then
        let (signal, channel) := o.signal.wait
        (c.setOut dir { o with signal := signal }, .wait channel)
      else (c.openLocal dir, .stream c.count)

/-- The rest of `tryAccept`, with `r` at the head of the queue. -/
def acceptNext (c : Conn) (dir : Dir) (r : Ref) (rest : List Ref) : Conn :=
  let c := c.setIncoming dir { c.incoming dir with queue := rest }
  (c.setStream r { c.heap r with accepted := true }).completeLocked r

/-- `tryAccept` returns the next stream the peer opened. -/
def tryAccept (c : Conn) (dir : Dir) : Conn × Opened :=
  match c.closeErr with
  | some e => (c, .closed e)
  | none =>
      let i := c.incoming dir
      match i.queue with
      | [] =>
          let (signal, channel) := i.signal.wait
          (c.setIncoming dir { i with signal := signal }, .wait channel)
      | r :: rest => (c.acceptNext dir r rest, .stream r)

/-- `readLocked` accounts for data the application has read, and extends the
stream's limit once half the window is used. -/
def readLocked (c : Conn) (r : Ref) (n : Nat) : Conn :=
  let window := c.config.streamWindow
  let s := c.heap r
  let s := { s with readOffset := Word.add s.readOffset n }
  let c := (c.setStream r s).consumeLocked n
  if s.lowCredit window then
    let s := { s with recvMax := Word.add s.readOffset window }
    (c.setStream r s).queueLocked (.maxStreamData ⟨s.id, s.recvMax⟩)
  else c

/-- The part of `tryRead` that copies `n` bytes out. -/
def copyOut (c : Conn) (r : Ref) (n : Nat) : Conn :=
  ((c.setStream r ((c.heap r).advance n)).readLocked r n).completeLocked r

/-- `tryRead` copies received data to a buffer of `size` bytes. -/
def tryRead (c : Conn) (r : Ref) (size : Nat) : Conn × ReadResult :=
  let s := c.heap r
  match c.closeErr, s.recvErr with
  | some e, _ => (c, .closed e)
  | none, some e => (c, .reset e)
  | none, none =>
      if s.roff < s.rbuf.data.length then
        let p := s.unread.take size
        (c.copyOut r p.length, .data p)
      else if s.finRecv then (c, .eof [])
      else
        let (signal, channel) := s.readSignal.wait
        (c.setStream r { s with readSignal := signal }, .wait channel s.readDeadline)

/-- `tryPeek` copies received data to a buffer of `size` bytes without
consuming it, once there is enough to fill it or the stream has ended. -/
def tryPeek (c : Conn) (r : Ref) (size : Nat) : Conn × ReadResult :=
  let s := c.heap r
  match c.closeErr, s.recvErr with
  | some e, _ => (c, .closed e)
  | none, some e => (c, .reset e)
  | none, none =>
      if s.unread.length ≥ size then (c, .data (s.unread.take size))
      else if s.finRecv then (c, .eof s.unread)
      else
        let (signal, channel) := s.readSignal.wait
        (c.setStream r { s with readSignal := signal }, .wait channel s.readDeadline)

/-- The part of `cancelRead` that discards what was not read. -/
def discard (c : Conn) (r : Ref) (code : Nat) : Conn :=
  let s := c.heap r
  let c := c.consumeLocked (s.rbuf.data.length - s.roff)
  let c := c.setStream r (s.cancelRead code)
  let c := if s.finRecv then c else c.queueLocked (.stopSending ⟨s.id, code⟩)
  c.completeLocked r

def cancelRead (c : Conn) (r : Ref) (code : Nat) : Conn :=
  let s := c.heap r
  if c.closeErr.isSome || s.recvErr.isSome || s.recvDone then c
  else c.discard r code

/-- `sendErrLocked` returns why the stream cannot send, if it cannot. -/
def sendErrLocked (c : Conn) (s : Stream) : Option SendError :=
  match c.closeErr, s.sendErr with
  | some e, _ => some (.closed e)
  | none, some e => some (.reset e)
  | none, none => if s.finSent then some (.finished s.id) else none

/-- `sendCreditLocked` returns how much data flow control lets the stream
send. -/
def sendCreditLocked (c : Conn) (s : Stream) : Nat :=
  if s.sendMax ≤ s.sendOffset ∨ c.sendMax ≤ c.sent then 0
  else min (s.sendMax - s.sendOffset) (c.sendMax - c.sent)

/-- `trySend` reports whether the stream has flow control credit. -/
def trySend (c : Conn) (r : Ref) (now : Time) : Conn × SendResult :=
  let s := c.heap r
  match c.sendErrLocked s with
  | some e => (c, .failed e)
  | none =>
      if s.writeDeadline.any (fun t => decide (t ≤ now)) then (c, .deadlineExceeded)
      else if c.sendCreditLocked s > 0 then (c, .ready)
      else
        let (signal, channel) := s.writeSignal.wait
        let (connSignal, connChannel) := c.sendSignal.wait
        ({ c.setStream r { s with writeSignal := signal } with sendSignal := connSignal },
          .wait channel connChannel s.writeDeadline)

/-- The part of `reserve` that takes the credit. -/
def spend (c : Conn) (r : Ref) (n : Nat) : Conn :=
  let s := c.heap r
  { c.setStream r { s with sendOffset := Word.add s.sendOffset n } with
    sent := Word.add c.sent n }

/-- `reserve` takes flow control credit for as much of `n` bytes as it can,
and returns the offset to send them at. -/
def reserve (c : Conn) (r : Ref) (n : Nat) : Conn × Except SendError (Nat × Nat) :=
  let s := c.heap r
  match c.sendErrLocked s with
  | some e => (c, .error e)
  | none =>
      let reserved := min (min n maxStreamData) (c.sendCreditLocked s)
      (c.spend r reserved, .ok (s.sendOffset, reserved))

/-- The part of `finish` that ends the sending side. -/
def endSend (c : Conn) (r : Ref) : Conn :=
  let s := c.heap r
  (c.setStream r { s with
    finSent := true
    writeSignal := s.writeSignal.broadcast }).completeLocked r

/-- `finish` marks the sending side as ended and returns the final size, or
nothing when the stream has already ended or was reset. -/
def finish (c : Conn) (r : Ref) : Conn × Except ConnError (Option Nat) :=
  let s := c.heap r
  match c.closeErr with
  | some e => (c, .error e)
  | none =>
      if s.finSent || s.sendErr.isSome then (c, .ok none)
      else (c.endSend r, .ok (some s.sendOffset))

def cancelWrite (c : Conn) (r : Ref) (code : Nat) : Conn :=
  if c.closeErr.isSome then c
  else c.resetSendLocked r ⟨(c.heap r).id, code, false⟩

/-- `setPriority` clips the urgency to the range of RFC 9218. -/
def setPriority (c : Conn) (r : Ref) (urgency : Int) (incremental : Bool) : Conn :=
  c.setStream r { c.heap r with
    urgency := min (max urgency 0) maxUrgency
    incremental := incremental }

def setReadDeadline (c : Conn) (r : Ref) (t : Option Time) : Conn :=
  let s := c.heap r
  c.setStream r { s with readDeadline := t, readSignal := s.readSignal.broadcast }

def setWriteDeadline (c : Conn) (r : Ref) (t : Option Time) : Conn :=
  let s := c.heap r
  c.setStream r { s with writeDeadline := t, writeSignal := s.writeSignal.broadcast }

/-- The MAX_STREAMS frame of a limit that has grown. -/
def streamsFrame (c : Conn) (dir : Dir) : List Frame :=
  let i := c.incoming dir
  if i.pending then [.maxStreams ⟨dir = .uni, i.max⟩] else []

/-- The frames `takeControl` returns while the connection is open. -/
def controlFrames (c : Conn) : List Frame :=
  c.control ++
    (if c.maxDataPending then [.maxData ⟨c.recvMax⟩] else []) ++
    c.streamsFrame .bidi ++ c.streamsFrame .uni ++
    (if c.pongPending then [.ping ⟨true, c.pongSequence⟩] else []) ++
    (if c.pingPending then [.ping ⟨false, c.nextPing⟩] else [])

/-- The state `takeControl` leaves while the connection is open. -/
def flushed (c : Conn) (now : Time) : Conn :=
  let cleared : Conn := { c with
    control := []
    maxDataPending := false
    incoming := fun dir => { c.incoming dir with pending := false }
    pongPending := false
    pingPending := false }
  if c.pingPending then
    { cleared with
      nextPing := Word.add c.nextPing 1
      pingSentAt := now
      pingUnanswered := true
      pingUnansweredAt := if c.pingUnanswered then c.pingUnansweredAt else now }
  else cleared

/-- `takeControl` empties the control queue. A closed connection sends nothing
after its CONNECTION_CLOSE frame. -/
def takeControl (c : Conn) (now : Time) : Conn × List Frame :=
  if c.closeErr.isSome then (c, []) else (c.flushed now, c.controlFrames)

/-- `requestPing` asks the write loop for a QX_PING. It reports false when the
peer has left pings unanswered for the idle timeout. -/
def requestPing (c : Conn) (now : Time) : Conn × Bool :=
  if c.pingUnanswered ∧ c.idleTimeout > 0 ∧ now - c.pingUnansweredAt ≥ c.idleTimeout then
    (c, false)
  else ({ c with pingPending := true, controlWake := true }, true)

/-- The state `terminate` leaves when it ends the connection. -/
def terminated (c : Conn) (err : ConnError) : Conn :=
  { c with
    closeErr := some err
    cause := some err
    handshake := if c.ready then c.handshake else c.handshake + 1
    sendSignal := c.sendSignal.broadcast
    out := fun dir => { c.out dir with signal := (c.out dir).signal.broadcast }
    incoming := fun dir =>
      { c.incoming dir with signal := (c.incoming dir).signal.broadcast }
    heap := fun r =>
      let s := c.heap r
      if c.streams s.id = some r then
        { s with
          readSignal := s.readSignal.broadcast
          writeSignal := s.writeSignal.broadcast }
      else s
    streams := fun _ => none }

/-- `terminate` records why the connection ended and wakes everything that
waits on it. It reports whether this call ended the connection. -/
def terminate (c : Conn) (err : ConnError) : Conn × Bool :=
  if c.closeErr.isSome then (c, false) else (c.terminated err, true)

/-- `datagramLimit` returns the largest DATAGRAM frame the peer accepts, or
zero if it accepts none. -/
def datagramLimit (c : Conn) : Nat :=
  min c.peer.maxDatagramFrameSize c.peer.maxRecordSize

/-- The receive from `datagrams` in `ReceiveDatagram`. -/
def receiveDatagram (c : Conn) : Conn × Option Bytes :=
  match c.datagrams with
  | [] => (c, none)
  | p :: rest => ({ c with datagrams := rest }, some p)

end Conn

/-- The calls that run under `mu` alone. -/
inductive Call where
  | tryOpen (dir : Dir)
  | tryAccept (dir : Dir)
  | tryRead (r : Ref) (size : Nat)
  | tryPeek (r : Ref) (size : Nat)
  | cancelRead (r : Ref) (code : Nat)
  | cancelWrite (r : Ref) (code : Nat)
  | trySend (r : Ref) (now : Time)
  | setPriority (r : Ref) (urgency : Int) (incremental : Bool)
  | setReadDeadline (r : Ref) (t : Option Time)
  | setWriteDeadline (r : Ref) (t : Option Time)
  | requestPing (now : Time)
  | receiveDatagram
deriving DecidableEq, Repr

namespace Conn

/-- The application holds the receiving side of the stream. -/
def holdsRecv (c : Conn) (r : Ref) : Bool :=
  decide (r < c.count) && (c.heap r).accepted && (c.heap r).canRecv

/-- The application holds the sending side of the stream. -/
def holdsSend (c : Conn) (r : Ref) : Bool :=
  decide (r < c.count) && (c.heap r).accepted && (c.heap r).canSend

/-- A call under `mu`. A stream's methods are there for a side the application
holds only, and `peek` refuses a buffer larger than the window first. -/
def call (c : Conn) : Call → Option Conn
  | .tryOpen dir => some (c.tryOpen dir).1
  | .tryAccept dir => some (c.tryAccept dir).1
  | .tryRead r size => if c.holdsRecv r then some (c.tryRead r size).1 else none
  | .tryPeek r size =>
      if c.holdsRecv r ∧ size ≤ c.config.streamWindow then some (c.tryPeek r size).1
      else none
  | .cancelRead r code => if c.holdsRecv r then some (c.cancelRead r code) else none
  | .cancelWrite r code => if c.holdsSend r then some (c.cancelWrite r code) else none
  | .trySend r now => if c.holdsSend r then some (c.trySend r now).1 else none
  | .setPriority r urgency incremental =>
      if c.holdsSend r then some (c.setPriority r urgency incremental) else none
  | .setReadDeadline r t => if c.holdsRecv r then some (c.setReadDeadline r t) else none
  | .setWriteDeadline r t => if c.holdsSend r then some (c.setWriteDeadline r t) else none
  | .requestPing now => some (c.requestPing now).1
  | .receiveDatagram => some (c.receiveDatagram).1

end Conn

/-- The error and the frame that `closeWithTransportError` closes with. -/
def transportClose (e : Wire.Error) : ConnError × ConnectionClose :=
  let reason := e.reason.toUTF8.toList.take maxReasonLength
  (.transport false e.code 0 reason, ⟨false, e.code, 0, reason⟩)

/-- The error and the frame that `CloseWithError` closes with. -/
def applicationClose (code : Nat) (msg : Bytes) : ConnError × ConnectionClose :=
  let msg := msg.take maxReasonLength
  (.application false code msg, ⟨true, code, 0, msg⟩)

end Qmux
