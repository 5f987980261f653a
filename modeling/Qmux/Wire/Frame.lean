import Qmux.Wire.Params

/-!
The frames that QMux carries, with their encoders, and the parser of a
record. A Go string is its bytes here: the reason of a CONNECTION_CLOSE need
not be valid UTF-8.
-/

namespace Qmux.Wire

def typeResetStream : Nat := 0x04
def typeStopSending : Nat := 0x05
def typeStream : Nat := 0x08
def typeStreamMax : Nat := 0x0f
def typeMaxData : Nat := 0x10
def typeMaxStreamData : Nat := 0x11
def typeMaxStreamsBidi : Nat := 0x12
def typeMaxStreamsUni : Nat := 0x13
def typeDataBlocked : Nat := 0x14
def typeStreamDataBlocked : Nat := 0x15
def typeStreamsBlocked : Nat := 0x16
def typeStreamsBlockedUni : Nat := 0x17
def typeConnectionClose : Nat := 0x1c
def typeApplicationClose : Nat := 0x1d
def typeDatagram : Nat := 0x30
def typeDatagramLen : Nat := 0x31
def typeTransportParameters : Nat := 0x3f5153300d0a0d0a
def typePingRequest : Nat := 0x348c67529ef8c7bd
def typePingResponse : Nat := 0x348c67529ef8c7be

def streamBitFin : Nat := 0x01
def streamBitLen : Nat := 0x02
def streamBitOff : Nat := 0x04

/-- The largest encoding of a STREAM frame without its data. -/
def streamOverhead : Nat := 1 + 8 + 8 + 8

structure ResetStream where
  streamID : Nat
  code : Nat
  finalSize : Nat
deriving DecidableEq, Repr

structure StopSending where
  streamID : Nat
  code : Nat
deriving DecidableEq, Repr

structure Stream where
  streamID : Nat
  offset : Nat
  data : Bytes
  fin : Bool
deriving DecidableEq, Repr

structure MaxData where
  max : Nat
deriving DecidableEq, Repr

structure MaxStreamData where
  streamID : Nat
  max : Nat
deriving DecidableEq, Repr

structure MaxStreams where
  uni : Bool
  max : Nat
deriving DecidableEq, Repr

/-- A CONNECTION_CLOSE frame, of the transport (0x1c) or the application
(0x1d) kind. The frame type belongs to the transport kind only. -/
structure ConnectionClose where
  application : Bool
  code : Nat
  frameType : Nat
  reason : Bytes
deriving DecidableEq, Repr

structure Datagram where
  data : Bytes
deriving DecidableEq, Repr

/-- A QX_PING frame: a request, or the response that echoes its sequence
number. -/
structure Ping where
  response : Bool
  sequence : Nat
deriving DecidableEq, Repr

/-- A frame that an endpoint can send. -/
inductive Frame where
  | resetStream (f : ResetStream)
  | stopSending (f : StopSending)
  | stream (f : Stream)
  | maxData (f : MaxData)
  | maxStreamData (f : MaxStreamData)
  | maxStreams (f : MaxStreams)
  | connectionClose (f : ConnectionClose)
  | datagram (f : Datagram)
  | ping (f : Ping)
  | transportParameters (p : Parameters)
deriving DecidableEq, Repr

section Append

variable [Quicvarint]

def ResetStream.append (f : ResetStream) : Option Bytes := do
  let streamID ← Quicvarint.append f.streamID
  let code ← Quicvarint.append f.code
  let finalSize ← Quicvarint.append f.finalSize
  return UInt8.ofNat typeResetStream :: (streamID ++ (code ++ finalSize))

def StopSending.append (f : StopSending) : Option Bytes := do
  let streamID ← Quicvarint.append f.streamID
  let code ← Quicvarint.append f.code
  return UInt8.ofNat typeStopSending :: (streamID ++ code)

/-- The type byte of a STREAM frame, which always carries its length. -/
def Stream.type (f : Stream) : Nat :=
  let t := typeStream ||| streamBitLen
  let t := if f.offset > 0 then t ||| streamBitOff else t
  if f.fin then t ||| streamBitFin else t

def Stream.append (f : Stream) : Option Bytes := do
  let streamID ← Quicvarint.append f.streamID
  let offset ← if f.offset > 0 then Quicvarint.append f.offset else some []
  let size ← Quicvarint.append f.data.length
  return UInt8.ofNat f.type :: (streamID ++ (offset ++ (size ++ f.data)))

def MaxData.append (f : MaxData) : Option Bytes := do
  let max ← Quicvarint.append f.max
  return UInt8.ofNat typeMaxData :: max

def MaxStreamData.append (f : MaxStreamData) : Option Bytes := do
  let streamID ← Quicvarint.append f.streamID
  let max ← Quicvarint.append f.max
  return UInt8.ofNat typeMaxStreamData :: (streamID ++ max)

def MaxStreams.append (f : MaxStreams) : Option Bytes := do
  let max ← Quicvarint.append f.max
  let t := if f.uni then typeMaxStreamsUni else typeMaxStreamsBidi
  return UInt8.ofNat t :: max

def ConnectionClose.append (f : ConnectionClose) : Option Bytes := do
  let code ← Quicvarint.append f.code
  let frameType ← if f.application then some [] else Quicvarint.append f.frameType
  let size ← Quicvarint.append f.reason.length
  let t := if f.application then typeApplicationClose else typeConnectionClose
  return UInt8.ofNat t :: (code ++ (frameType ++ (size ++ f.reason)))

def Datagram.append (f : Datagram) : Option Bytes := do
  let size ← Quicvarint.append f.data.length
  return UInt8.ofNat typeDatagramLen :: (size ++ f.data)

/-- `Datagram.Len`, the size of the encoded frame. -/
def Datagram.len (f : Datagram) : Nat :=
  1 + Quicvarint.len f.data.length + f.data.length

def Ping.append (f : Ping) : Option Bytes := do
  let t ← Quicvarint.append (if f.response then typePingResponse else typePingRequest)
  let sequence ← Quicvarint.append f.sequence
  return t ++ sequence

def TransportParameters.append (p : Parameters) : Option Bytes := do
  let params ← p.append
  let t ← Quicvarint.append typeTransportParameters
  let size ← Quicvarint.append params.length
  return t ++ (size ++ params)

/-- What `Append` adds to its buffer, and `none` where a field is too large
for its encoding and `quicvarint` panics. -/
def Frame.append : Frame → Option Bytes
  | .resetStream f => f.append
  | .stopSending f => f.append
  | .stream f => f.append
  | .maxData f => f.append
  | .maxStreamData f => f.append
  | .maxStreams f => f.append
  | .connectionClose f => f.append
  | .datagram f => f.append
  | .ping f => f.append
  | .transportParameters p => TransportParameters.append p

/-- The encodings of the frames of one record, one after the other. -/
def appendAll : List Frame → Option Bytes
  | [] => some []
  | f :: rest => do
      let e ← f.append
      let more ← appendAll rest
      return e ++ more

end Append

/-- What `Parse` returns: a frame of a kind that can be sent, or one of the
informational DATA_BLOCKED, STREAM_DATA_BLOCKED and STREAMS_BLOCKED frames, of
which only the presence is reported. -/
inductive Parsed where
  | frame (f : Frame)
  | blocked
deriving DecidableEq, Repr

def encodingError (reason : String) : Error :=
  ⟨frameEncodingError, reason⟩

section Parse

variable [Quicvarint]

def readResetStream (r : Reader) : Frame × Reader :=
  let (streamID, r) := r.varint
  let (code, r) := r.varint
  let (finalSize, r) := r.varint
  (.resetStream ⟨streamID, code, finalSize⟩, r)

def readStopSending (r : Reader) : Frame × Reader :=
  let (streamID, r) := r.varint
  let (code, r) := r.varint
  (.stopSending ⟨streamID, code⟩, r)

/-- The payload of a length-prefixed field. -/
def readSized (r : Reader) : Bytes × Reader :=
  let (n, r) := r.varint
  r.bytes n

/-- A STREAM frame of type `t`, whose bits tell which fields are there. -/
def readStream (t : Nat) (r : Reader) : Frame × Reader :=
  let (streamID, r) := r.varint
  let (offset, r) := if t &&& streamBitOff ≠ 0 then r.varint else (0, r)
  let (data, r) := if t &&& streamBitLen ≠ 0 then readSized r else r.rest
  (.stream ⟨streamID, offset, data, t &&& streamBitFin ≠ 0⟩, r)

def readMaxStreamData (r : Reader) : Frame × Reader :=
  let (streamID, r) := r.varint
  let (max, r) := r.varint
  (.maxStreamData ⟨streamID, max⟩, r)

def readConnectionClose (t : Nat) (r : Reader) : Frame × Reader :=
  let (code, r) := r.varint
  let (frameType, r) := if t = typeApplicationClose then (0, r) else r.varint
  let (reason, r) := readSized r
  (.connectionClose ⟨t = typeApplicationClose, code, frameType, reason⟩, r)

/-- The end of `Parse`: the one check that the reader did not run out. -/
def parsed (t : Nat) (f : Parsed) (r : Reader) :
    Except Error (Option (Parsed × Bytes)) :=
  if r.failed then
    .error (encodingError ("frame of type 0x" ++ hex t ++ " is truncated"))
  else .ok (some (f, r.b))

def parsedFrame (t : Nat) (result : Frame × Reader) :
    Except Error (Option (Parsed × Bytes)) :=
  parsed t (.frame result.1) result.2

/-- The cases of the switch of `Parse`. -/
inductive Kind where
  | resetStream
  | stopSending
  | stream
  | maxData
  | maxStreamData
  | maxStreams
  | dataBlocked
  | streamDataBlocked
  | streamsBlocked
  | connectionClose
  | datagram
  | datagramLen
  | transportParameters
  | ping
  deriving DecidableEq, Repr

/-- The case a frame type falls in; `none` is the default case: every other
frame of QUIC version 1 is prohibited, and no extension frame is negotiated. -/
def kind (t : Nat) : Option Kind :=
  if t = typeResetStream then some .resetStream
  else if t = typeStopSending then some .stopSending
  else if typeStream ≤ t ∧ t ≤ typeStreamMax then some .stream
  else if t = typeMaxData then some .maxData
  else if t = typeMaxStreamData then some .maxStreamData
  else if t = typeMaxStreamsBidi ∨ t = typeMaxStreamsUni then some .maxStreams
  else if t = typeDataBlocked then some .dataBlocked
  else if t = typeStreamDataBlocked then some .streamDataBlocked
  else if t = typeStreamsBlocked ∨ t = typeStreamsBlockedUni then some .streamsBlocked
  else if t = typeConnectionClose ∨ t = typeApplicationClose then some .connectionClose
  else if t = typeDatagram then some .datagram
  else if t = typeDatagramLen then some .datagramLen
  else if t = typeTransportParameters then some .transportParameters
  else if t = typePingRequest ∨ t = typePingResponse then some .ping
  else none

/-- The body of each case, for a frame of type `t` that falls in it. -/
def parseKind (t : Nat) (r : Reader) : Kind → Except Error (Option (Parsed × Bytes))
  | .resetStream => parsedFrame t (readResetStream r)
  | .stopSending => parsedFrame t (readStopSending r)
  | .stream => parsedFrame t (readStream t r)
  | .maxData => parsedFrame t (.maxData ⟨(r.varint).1⟩, (r.varint).2)
  | .maxStreamData => parsedFrame t (readMaxStreamData r)
  | .maxStreams =>
      if maxStreams < (r.varint).1 then .error (encodingError "MAX_STREAMS above 2^60")
      else parsedFrame t (.maxStreams ⟨t = typeMaxStreamsUni, (r.varint).1⟩, (r.varint).2)
  | .dataBlocked => parsed t .blocked (r.varint).2
  | .streamDataBlocked => parsed t .blocked ((r.varint).2.varint).2
  | .streamsBlocked =>
      if maxStreams < (r.varint).1 then .error (encodingError "STREAMS_BLOCKED above 2^60")
      else parsed t .blocked (r.varint).2
  | .connectionClose => parsedFrame t (readConnectionClose t r)
  | .datagram => parsedFrame t (.datagram ⟨(r.rest).1⟩, (r.rest).2)
  | .datagramLen => parsedFrame t (.datagram ⟨(readSized r).1⟩, (readSized r).2)
  | .transportParameters =>
      match parseParameters (readSized r).1 with
      | .error e =>
          if (readSized r).2.failed then
            parsedFrame t (.transportParameters {}, (readSized r).2)
          else .error e
      | .ok p => parsedFrame t (.transportParameters p, (readSized r).2)
  | .ping => parsedFrame t (.ping ⟨t = typePingResponse, (r.varint).1⟩, (r.varint).2)

/-- The switch of `Parse` on the frame type. -/
def parseBody (t : Nat) (r : Reader) : Except Error (Option (Parsed × Bytes)) :=
  match kind t with
  | none => .error (encodingError ("frame type 0x" ++ hex t ++ " is not allowed"))
  | some k => parseKind t r k

/-- `Parse` parses the first frame of the remainder of a record's Frames
field, and returns the frame with what follows it. PADDING is skipped: `none`
means that only padding was left. -/
def parse (b : Bytes) : Except Error (Option (Parsed × Bytes)) :=
  match b.dropWhile (· == 0) with
  | [] => .ok none
  | x :: rest =>
      let (t, r) := Reader.varint ⟨x :: rest, false⟩
      parseBody t r

end Parse

end Qmux.Wire
