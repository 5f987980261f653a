import Qmux.Conn.State

/-!
What the read loop does with a record: `handleRecord` and the handlers of the
frames, each under one hold of `mu`.
-/

namespace Qmux

open Wire

/-- What `handleRecord` fails with: a violation by the peer, or the peer's
reason when it closed the connection. -/
inductive Failure where
  | violation (e : Wire.Error)
  | closed (e : ConnError)
deriving DecidableEq, Repr

def protocolViolation (reason : String) : Wire.Error :=
  ⟨Wire.protocolViolation, reason⟩

/-- The longest idle timeout a peer can declare, in milliseconds, that still
fits a `time.Duration`. -/
def maxIdleMilliseconds : Nat := (2 ^ 63 - 1) / millisecond

def datagramQueueSize : Nat := 100

namespace Stream

/-- The stream once the data of a STREAM frame is in. -/
def takeData [GoAppend] (s : Stream) (f : Wire.Stream) : Stream :=
  let s := { s with
    recvOffset := Word.add s.recvOffset f.data.length
    finRecv := f.fin
    readSignal := s.readSignal.broadcast }
  if s.readCancelled then s else s.bufferLocked f.data

/-- The stream once the peer has reset it. -/
def takeReset (s : Stream) (f : ResetStream) : Stream :=
  { s with
    recvOffset := f.finalSize
    recvReset := true
    rbuf := .nil
    roff := 0
    recvErr := match s.recvErr with
      | none => some ⟨s.id, f.code, true⟩
      | some e => some e
    readSignal := s.readSignal.broadcast }

end Stream

namespace Conn

def handleParametersLocked (c : Conn) (p : Parameters) : Conn :=
  let peerIdle : Int := p.maxIdleTimeout * millisecond
  { c with
    peer := p
    ready := true
    sendMax := p.initialMaxData
    out := fun dir =>
      let o := c.out dir
      { o with
        max := match dir with
          | .bidi => p.initialMaxStreamsBidi
          | .uni => p.initialMaxStreamsUni
        signal := o.signal.broadcast }
    idleTimeout :=
      if p.maxIdleTimeout > 0 ∧ p.maxIdleTimeout ≤ maxIdleMilliseconds ∧
          (c.idleTimeout = 0 ∨ peerIdle < c.idleTimeout) then peerIdle
      else c.idleTimeout
    handshake := c.handshake + 1
    sendSignal := c.sendSignal.broadcast }

/-- One round of the loop in `streamLocked`: the next peer-initiated stream is
created and queued for the application. -/
def openIncoming (c : Conn) (dir : Dir) : Conn :=
  let i := c.incoming dir
  (c.newStreamLocked (c.newStream (c.streamID i.next dir false))).setIncoming dir
    { i with
      next := Word.add i.next 1
      queue := i.queue ++ [c.count]
      signal := i.signal.broadcast }

/-- The loop in `streamLocked`, which runs until `index` is open. -/
def openThrough (c : Conn) (dir : Dir) (index : Nat) : Conn :=
  (fun c => c.openIncoming dir)^[index + 1 - (c.incoming dir).next] c

/-- `streamLocked` returns the stream that a frame refers to. `recv` tells
whether the frame concerns the data the peer sends on the stream (STREAM,
RESET_STREAM) or the data this endpoint sends (STOP_SENDING,
MAX_STREAM_DATA). No stream without an error is a stream that has already
closed: its frame is ignored. -/
def streamLocked (c : Conn) (rawID : Nat) (recv : Bool) :
    Conn × Except Wire.Error (Option Ref) :=
  let isLocal := c.initiatedLocally rawID
  let dir := streamDir rawID
  let index := rawID >>> 2
  if dir = .uni ∧ isLocal = recv then
    (c, .error ⟨streamStateError,
      "frame not allowed on unidirectional stream " ++ toString rawID⟩)
  else if isLocal then
    if index ≥ (c.out dir).next then
      (c, .error ⟨streamStateError,
        "frame for stream " ++ toString rawID ++ ", which was not opened"⟩)
    else (c, .ok (c.streams rawID))
  else if index ≥ (c.incoming dir).max then
    (c, .error ⟨streamLimitError,
      "stream " ++ toString rawID ++ " exceeds the stream limit"⟩)
  else
    let c := c.openThrough dir index
    (c, .ok (c.streams rawID))

/-- The rest of `handleStreamLocked`, once the data is counted as received:
data for a cancelled reader is consumed at once. -/
def takeData [GoAppend] (c : Conn) (r : Ref) (f : Wire.Stream) : Conn :=
  let s := c.heap r
  let c := c.setStream r (s.takeData f)
  if s.readCancelled then c.consumeLocked f.data.length else c

def handleStreamLocked [GoAppend] (c : Conn) (f : Wire.Stream) :
    Conn × Option Wire.Error :=
  match c.streamLocked f.streamID true with
  | (c, .error e) => (c, some e)
  | (c, .ok none) => (c, none)
  | (c, .ok (some r)) =>
      let s := c.heap r
      let n := f.data.length
      if f.offset ≠ s.recvOffset then
        (c, some (protocolViolation
          ("stream " ++ toString f.streamID ++ ": data out of order")))
      else if s.finRecv || s.recvReset then
        if n > 0 ∨ (f.fin ∧ ¬ s.finRecv) then
          (c, some ⟨finalSizeError,
            "stream " ++ toString f.streamID ++ ": data past its final size"⟩)
        else (c, none)
      else if Word.add s.recvOffset n > s.recvMax then
        (c, some ⟨flowControlError,
          "stream " ++ toString f.streamID ++ ": flow control limit exceeded"⟩)
      else match c.receivedLocked n with
        | .error e => (c, some e)
        | .ok c => ((c.takeData r f).completeLocked r, none)

/-- The rest of `handleResetStreamLocked`, once the data that was never sent is
counted as received: that data, and what was not read, is consumed. -/
def takeReset (c : Conn) (r : Ref) (f : ResetStream) : Conn :=
  let s := c.heap r
  (c.consumeLocked (Word.add (Word.sub f.finalSize s.recvOffset)
    (s.rbuf.data.length - s.roff))).setStream r (s.takeReset f)

def handleResetStreamLocked (c : Conn) (f : ResetStream) : Conn × Option Wire.Error :=
  match c.streamLocked f.streamID true with
  | (c, .error e) => (c, some e)
  | (c, .ok none) => (c, none)
  | (c, .ok (some r)) =>
      let s := c.heap r
      if f.finalSize < s.recvOffset ∨
          ((s.finRecv || s.recvReset) ∧ f.finalSize ≠ s.recvOffset) then
        (c, some ⟨finalSizeError,
          "stream " ++ toString f.streamID ++ ": final size changed"⟩)
      else if s.recvReset then (c, none)
      else if f.finalSize > s.recvMax then
        (c, some ⟨flowControlError, "stream " ++ toString f.streamID ++
          ": final size exceeds the flow control limit"⟩)
      else match c.receivedLocked (Word.sub f.finalSize s.recvOffset) with
        | .error e => (c, some e)
        | .ok c => ((c.takeReset r f).completeLocked r, none)

/-- `resetSendLocked` ends the sending side with a RESET_STREAM, unless it has
already ended. -/
def resetSendLocked (c : Conn) (r : Ref) (reason : StreamError) : Conn :=
  let s := c.heap r
  if s.sendDone then c
  else
    let c := c.setStream r { s with
      sendErr := some reason
      writeSignal := s.writeSignal.broadcast }
    (c.queueLocked (.resetStream ⟨s.id, reason.code, s.sendOffset⟩)).completeLocked r

/-- `stopSendingLocked`: the stream is reset with the peer's error code. -/
def stopSendingLocked (c : Conn) (r : Ref) (code : Nat) : Conn :=
  c.resetSendLocked r ⟨(c.heap r).id, code, true⟩

def handleStopSending (c : Conn) (f : StopSending) : Conn × Option Wire.Error :=
  match c.streamLocked f.streamID false with
  | (c, .error e) => (c, some e)
  | (c, .ok none) => (c, none)
  | (c, .ok (some r)) => (c.stopSendingLocked r f.code, none)

/-- The stream's part of a MAX_STREAM_DATA frame that raises its limit. -/
def raiseStream (c : Conn) (r : Ref) (max : Nat) : Conn :=
  let s := c.heap r
  c.setStream r { s with sendMax := max, writeSignal := s.writeSignal.broadcast }

def handleMaxStreamData (c : Conn) (f : MaxStreamData) : Conn × Option Wire.Error :=
  match c.streamLocked f.streamID false with
  | (c, .error e) => (c, some e)
  | (c, .ok none) => (c, none)
  | (c, .ok (some r)) =>
      if f.max > (c.heap r).sendMax then (c.raiseStream r f.max, none) else (c, none)

def handleMaxData (c : Conn) (f : MaxData) : Conn :=
  if f.max > c.sendMax then
    { c with sendMax := f.max, sendSignal := c.sendSignal.broadcast }
  else c

def handleMaxStreams (c : Conn) (f : MaxStreams) : Conn :=
  let dir := if f.uni then Dir.uni else Dir.bidi
  let o := c.out dir
  if f.max > o.max then
    c.setOut dir { o with max := f.max, signal := o.signal.broadcast }
  else c

/-- A request is answered by the write loop. One response, to the latest
request, answers them all. -/
def pinged (c : Conn) (sequence : Nat) : Conn :=
  { c with
    peerPinged := true
    peerPingLast := sequence
    pongPending := true
    pongSequence := sequence
    controlWake := true }

def handlePingLocked (c : Conn) (f : Ping) (now : Time) : Conn × Option Wire.Error :=
  if f.response then
    if f.sequence ≥ c.nextPing then
      (c, some (protocolViolation "QX_PING response to a request that was not sent"))
    else if f.sequence = c.nextPing - 1 then
      ({ c with rtt := c.rtt.update (now - c.pingSentAt), pingUnanswered := false }, none)
    else (c, none)
  else if c.peerPinged ∧ f.sequence ≤ c.peerPingLast then
    (c, some (protocolViolation "QX_PING sequence number did not increase"))
  else (c.pinged f.sequence, none)

def handleDatagramLocked (c : Conn) (f : Datagram) : Conn × Option Wire.Error :=
  if 1 + f.data.length > c.config.maxDatagramFrameSize.toNat then
    (c, some (protocolViolation "DATAGRAM frame larger than max_datagram_frame_size"))
  else if c.datagrams.length < datagramQueueSize then
    ({ c with datagrams := c.datagrams ++ [f.data] }, none)
  else (c, none)

/-- The error that the peer's CONNECTION_CLOSE stands for. -/
def remoteError (f : ConnectionClose) : ConnError :=
  if f.application then .application true f.code f.reason
  else .transport true f.code f.frameType f.reason

/-- The switch of `handleFrameLocked`, past the transport parameters. -/
def handleOtherLocked [GoAppend] (c : Conn) (f : Parsed) (now : Time) :
    Conn × Option Failure :=
  let violation := fun (result : Conn × Option Wire.Error) =>
    (result.1, result.2.map Failure.violation)
  match f with
  | .frame (.stream f) => violation (c.handleStreamLocked f)
  | .frame (.resetStream f) => violation (c.handleResetStreamLocked f)
  | .frame (.stopSending f) => violation (c.handleStopSending f)
  | .frame (.maxStreamData f) => violation (c.handleMaxStreamData f)
  | .frame (.maxData f) => (c.handleMaxData f, none)
  | .frame (.maxStreams f) => (c.handleMaxStreams f, none)
  | .frame (.ping f) => violation (c.handlePingLocked f now)
  | .frame (.datagram f) => violation (c.handleDatagramLocked f)
  | .frame (.connectionClose f) => (c, some (.closed (remoteError f)))
  | .frame (.transportParameters _) => (c, none)
  | .blocked => (c, none)

/-- `handleFrameLocked`. QX_TRANSPORT_PARAMETERS is the first frame, and only
the first. -/
def handleFrameLocked [GoAppend] (c : Conn) (f : Parsed) (now : Time) :
    Conn × Option Failure :=
  match f with
  | .frame (.transportParameters p) =>
      if c.ready then (c, some (.violation (protocolViolation
        "QX_TRANSPORT_PARAMETERS must be the first frame, and only the first")))
      else (c.handleParametersLocked p, none)
  | f =>
      if ¬ c.ready then (c, some (.violation (protocolViolation
        "QX_TRANSPORT_PARAMETERS must be the first frame, and only the first")))
      else c.handleOtherLocked f now

section Record

variable [Quicvarint] [GoAppend]

/-- The loop of `handleRecord`. A frame takes at least one byte, so the length
of the record is enough fuel. -/
def handleFrames : Nat → Conn → Bytes → Time → Conn × Option Failure
  | 0, c, _, _ => (c, none)
  | fuel + 1, c, rec, now =>
      if rec = [] ∨ c.closeErr.isSome then (c, none)
      else match Wire.parse rec with
        | .error e => (c, some (.violation e))
        | .ok none => (c, none)
        | .ok (some (f, rest)) =>
            match c.handleFrameLocked f now with
            | (c, some failure) => (c, some failure)
            | (c, none) => handleFrames fuel c rest now

/-- `handleRecord` processes the frames of a record. -/
def handleRecord (c : Conn) (rec : Bytes) (now : Time) : Conn × Option Failure :=
  handleFrames rec.length c rec now

end Record

end Conn

end Qmux
