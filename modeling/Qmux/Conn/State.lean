import Qmux.Config
import Qmux.Lib.Word
import Qmux.Wire.Frame

/-!
The state of a connection: what `Conn.mu` guards. A `*stream` is an index
into a heap of stream objects, so that a stream the connection has forgotten
is still there for the application that holds it. `uint64` fields are natural
numbers that the operations wrap at `2 ^ 64`.

Left out are the parts no operation on this state reads: the statistics, the
activity clock of the idle timer, and the contexts of streams.
-/

namespace Qmux

open Wire

/-- A point in time, in nanoseconds. -/
abbrev Time := Int

/-- A `signal`. A channel is named by its epoch, and is closed once the epoch
has moved on; `waited` tells whether the channel of the epoch exists. -/
structure Signal where
  epoch : Nat := 0
  waited : Bool := false
deriving DecidableEq, Repr

namespace Signal

/-- `wait` returns a channel that the next broadcast closes. -/
def wait (s : Signal) : Signal × Nat :=
  ({ s with waited := true }, s.epoch)

def broadcast (s : Signal) : Signal :=
  if s.waited then ⟨s.epoch + 1, false⟩ else s

end Signal

/-- What the code relies on of Go's `append`: a slice that has to grow gets a
capacity that holds the result. -/
class GoAppend where
  growCap : Nat → Nat → Nat
  le_growCap : ∀ cap need, need ≤ growCap cap need

/-- Growing to exactly what is needed. -/
instance exactGrowth : GoAppend where
  growCap _ need := need
  le_growCap _ _ := Nat.le_refl _

/-- A `[]byte` with its capacity. -/
structure Slice where
  data : Bytes := []
  cap : Nat := 0
  fits : data.length ≤ cap := by simp

namespace Slice

def nil : Slice := {}

/-- `s[:0]`, which keeps the capacity. -/
def clear (s : Slice) : Slice :=
  ⟨[], s.cap, Nat.zero_le _⟩

/-- `s[:copy(s, s[off:])]`: what follows `off`, moved to the front. -/
def compact (s : Slice) (off : Nat) : Slice :=
  ⟨s.data.drop off, s.cap, by
    have := s.fits
    simp only [List.length_drop]
    omega⟩

/-- `append(s, p...)`. -/
def append [GoAppend] (s : Slice) (p : Bytes) : Slice :=
  if h : s.data.length + p.length ≤ s.cap then
    ⟨s.data ++ p, s.cap, by simpa using h⟩
  else
    ⟨s.data ++ p, GoAppend.growCap s.cap (s.data.length + p.length), by
      simpa using GoAppend.le_growCap s.cap (s.data.length + p.length)⟩

end Slice

/-- A `*quic.StreamError`. -/
structure StreamError where
  streamID : Nat
  code : Nat
  remote : Bool
deriving DecidableEq, Repr

/-- The errors a connection ends with: the types of quic-go, and those that
wrap an error of the transport or of a context. -/
inductive ConnError where
  | application (remote : Bool) (code : Nat) (message : Bytes)
  | transport (remote : Bool) (code frameType : Nat) (message : Bytes)
  | idleTimeout
  | handshakeTimeout
  | writeFailed (cause : String)
  | transportClosed (cause : String)
  | cancelled (cause : String)
deriving DecidableEq, Repr

/-- `dirBidi` and `dirUni`. -/
inductive Dir where
  | bidi
  | uni
deriving DecidableEq, Repr

/-- A `*stream`. -/
abbrev Ref := Nat

def defaultUrgency : Int := 3
def maxUrgency : Int := 7

/-- `stream`, the state of one stream. -/
structure Stream where
  id : Nat := 0
  accepted : Bool := false
  done : Bool := false
  canRecv : Bool := false
  rbuf : Slice := {}
  roff : Nat := 0
  recvOffset : Nat := 0
  recvMax : Nat := 0
  readOffset : Nat := 0
  finRecv : Bool := false
  recvReset : Bool := false
  readCancelled : Bool := false
  recvErr : Option StreamError := none
  readDeadline : Option Time := none
  readSignal : Signal := {}
  canSend : Bool := false
  urgency : Int := 0
  incremental : Bool := false
  sendOffset : Nat := 0
  sendMax : Nat := 0
  finSent : Bool := false
  sendErr : Option StreamError := none
  writeDeadline : Option Time := none
  writeSignal : Signal := {}

namespace Stream

/-- `rbuf[roff:]`, the data received and not yet read. -/
def unread (s : Stream) : Bytes :=
  s.rbuf.data.drop s.roff

def recvDone (s : Stream) : Bool :=
  if !s.canRecv || s.recvReset then true
  else s.finRecv && (s.readCancelled || s.roff == s.rbuf.data.length)

def sendDone (s : Stream) : Bool :=
  !s.canSend || s.finSent || s.sendErr.isSome

/-- `bufferLocked` appends received data to the read buffer. The read part of
the buffer is reclaimed first when the data would not fit. -/
def bufferLocked [GoAppend] (s : Stream) (p : Bytes) : Stream :=
  if s.roff > 0 ∧ s.rbuf.data.length + p.length > s.rbuf.cap then
    { s with rbuf := (s.rbuf.compact s.roff).append p, roff := 0 }
  else { s with rbuf := s.rbuf.append p }

end Stream

/-- `outgoing`, the streams this endpoint opens, of one direction kind. -/
structure Outgoing where
  next : Nat := 0
  max : Nat := 0
  signal : Signal := {}

/-- `incoming`, the streams the peer opens, of one direction kind. -/
structure Incoming where
  next : Nat := 0
  max : Nat := 0
  pending : Bool := false
  queue : List Ref := []
  signal : Signal := {}

/-- `rttStats`. -/
structure RTTStats where
  min : Int := 0
  latest : Int := 0
  smoothed : Int := 0
  deviation : Int := 0
deriving DecidableEq, Repr

/-- `rttStats.update`. Go's division rounds towards zero. -/
def RTTStats.update (s : RTTStats) (rtt : Int) : RTTStats :=
  let min := if s.min = 0 ∨ rtt < s.min then rtt else s.min
  if s.smoothed = 0 then
    { min, latest := rtt, smoothed := rtt, deviation := rtt.tdiv 2 }
  else
    { min, latest := rtt
      deviation := (3 * s.deviation + |s.smoothed - rtt|).tdiv 4
      smoothed := (7 * s.smoothed + rtt).tdiv 8 }

/-- `Conn`, as far as `mu` guards it. `heap` holds the `count` streams ever
made, and `cause` is that of `ctx`; `handshake` counts how often the channel
was closed. -/
structure Conn where
  config : Config
  isServer : Bool
  cause : Option ConnError := none
  handshake : Nat := 0
  closeErr : Option ConnError := none
  peer : Parameters := {}
  ready : Bool := false
  heap : Ref → Stream := fun _ => {}
  count : Nat := 0
  streams : Nat → Option Ref := fun _ => none
  out : Dir → Outgoing := fun _ => {}
  incoming : Dir → Incoming := fun _ => {}
  sendMax : Nat := 0
  sent : Nat := 0
  sendSignal : Signal := {}
  recvMax : Nat := 0
  received : Nat := 0
  consumed : Nat := 0
  control : List Frame := []
  maxDataPending : Bool := false
  pongPending : Bool := false
  pongSequence : Nat := 0
  pingPending : Bool := false
  controlWake : Bool := false
  idleTimeout : Int := 0
  nextPing : Nat := 0
  pingSentAt : Time := 0
  pingUnanswered : Bool := false
  pingUnansweredAt : Time := 0
  peerPinged : Bool := false
  peerPingLast : Nat := 0
  rtt : RTTStats := {}
  datagrams : List Bytes := []

/-- The connection window, `InitialConnectionReceiveWindow`. -/
def Config.connectionWindow (c : Config) : Nat :=
  c.initialConnectionReceiveWindow.toNat

/-- The window of each stream, `InitialStreamReceiveWindow`. -/
def Config.streamWindow (c : Config) : Nat :=
  c.initialStreamReceiveWindow.toNat

/-- The number of streams the peer may have open, of one direction kind. -/
def Config.incomingLimit (c : Config) : Dir → Nat
  | .bidi => c.maxIncomingStreams.toUInt64.toNat
  | .uni => c.maxIncomingUniStreams.toUInt64.toNat

namespace Conn

/-- The state `newConn` starts with. -/
def new (config : Config) (isServer : Bool) : Conn where
  config := config
  isServer := isServer
  recvMax := config.connectionWindow
  idleTimeout := config.maxIdleTimeout.toInt
  incoming dir := { max := config.incomingLimit dir }

def localParameters (c : Conn) : Parameters where
  maxIdleTimeout := (c.config.maxIdleTimeout / 1000000).toUInt64.toNat
  initialMaxData := c.config.connectionWindow
  initialMaxStreamDataBidiLocal := c.config.streamWindow
  initialMaxStreamDataBidiRemote := c.config.streamWindow
  initialMaxStreamDataUni := c.config.streamWindow
  initialMaxStreamsBidi := c.config.incomingLimit .bidi
  initialMaxStreamsUni := c.config.incomingLimit .uni
  maxDatagramFrameSize := c.config.maxDatagramFrameSize.toNat
  maxRecordSize :=
    if c.config.maxRecordSize.toNat ≠ defaultMaxRecordSize then
      c.config.maxRecordSize.toNat
    else 0

end Conn

/-- `Conn.streamID`, of a server or a client. -/
def streamID (isServer : Bool) (index : Nat) (dir : Dir) (isLocal : Bool) : Nat :=
  let id := (index <<< 2) % 2 ^ 64
  let id := if dir = .uni then id ||| 0x2 else id
  if isLocal = isServer then id ||| 0x1 else id

/-- `Conn.initiatedLocally`, of a server or a client. -/
def initiatedLocally (isServer : Bool) (id : Nat) : Bool :=
  (id &&& 0x1 == 0x1) == isServer

def streamDir (id : Nat) : Dir :=
  if id &&& 0x2 ≠ 0 then .uni else .bidi

namespace Conn

def streamID (c : Conn) (index : Nat) (dir : Dir) (isLocal : Bool) : Nat :=
  Qmux.streamID c.isServer index dir isLocal

def initiatedLocally (c : Conn) (id : Nat) : Bool :=
  Qmux.initiatedLocally c.isServer id

def setStream (c : Conn) (r : Ref) (s : Stream) : Conn :=
  { c with heap := Function.update c.heap r s }

def setOut (c : Conn) (dir : Dir) (o : Outgoing) : Conn :=
  { c with out := Function.update c.out dir o }

def setIncoming (c : Conn) (dir : Dir) (i : Incoming) : Conn :=
  { c with incoming := Function.update c.incoming dir i }

/-- `wakeWriter` leaves a token for the write loop. -/
def wakeWriter (c : Conn) : Conn :=
  { c with controlWake := true }

/-- `queueLocked` hands a frame to the write loop. -/
def queueLocked (c : Conn) (f : Frame) : Conn :=
  { c with control := c.control ++ [f], controlWake := true }

/-- The stream `newStreamLocked` makes. -/
def newStream (c : Conn) (id : Nat) : Stream :=
  let isLocal := c.initiatedLocally id
  let uni := streamDir id == .uni
  let canRecv := !uni || !isLocal
  let canSend := !uni || isLocal
  { id := id
    canRecv := canRecv
    canSend := canSend
    recvMax := if canRecv then c.config.streamWindow else 0
    urgency := if canSend then defaultUrgency else 0
    incremental := canSend
    sendMax :=
      if canSend then
        if uni then c.peer.initialMaxStreamDataUni
        else if isLocal then c.peer.initialMaxStreamDataBidiRemote
        else c.peer.initialMaxStreamDataBidiLocal
      else 0 }

/-- `newStreamLocked` creates the state of a stream; its reference is the old
`count`. -/
def newStreamLocked (c : Conn) (s : Stream) : Conn :=
  { c with
    heap := Function.update c.heap c.count s
    count := c.count + 1
    streams := Function.update c.streams s.id (some c.count) }

/-- `consumeLocked` accounts for stream data that left the receive buffers,
and extends the connection's limit once half the window is used. -/
def consumeLocked (c : Conn) (n : Nat) : Conn :=
  let consumed := Word.add c.consumed n
  let window := c.config.connectionWindow
  if Word.sub c.recvMax consumed < window / 2 then
    { c with
      consumed := consumed
      recvMax := Word.add consumed window
      maxDataPending := true
      controlWake := true }
  else { c with consumed := consumed }

/-- `receivedLocked` accounts for stream data the peer has sent. -/
def receivedLocked (c : Conn) (n : Nat) : Except Wire.Error Conn :=
  if Word.add c.received n > c.recvMax then
    .error ⟨flowControlError, "connection flow control limit exceeded"⟩
  else .ok { c with received := Word.add c.received n }

/-- `completeLocked` forgets a stream whose two directions have ended, and
lets the peer open another in its place. A stream the application has not
accepted yet stays counted. -/
def completeLocked (c : Conn) (r : Ref) : Conn :=
  let s := c.heap r
  if s.done || !s.accepted || !s.recvDone || !s.sendDone then c
  else
    let forgotten : Conn :=
      { c with
        heap := Function.update c.heap r { s with done := true, rbuf := .nil }
        streams := Function.update c.streams s.id none }
    if c.initiatedLocally s.id then forgotten
    else
      let dir := streamDir s.id
      let i := c.incoming dir
      (forgotten.setIncoming dir
        { i with max := Word.add i.max 1, pending := true }).wakeWriter

end Conn

end Qmux
