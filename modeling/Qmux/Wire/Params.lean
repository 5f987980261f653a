import Qmux.Wire.Basic

/-!
Transport parameters: their encoding, their parser, and that the parser reads
back what the encoder writes.
-/

namespace Qmux.Wire

/-- The transport parameters of QUIC version 1 that QMux forbids, by name; the
empty text for any other. -/
def prohibitedParam (id : Nat) : String :=
  match id with
  | 0x00 => "original_destination_connection_id"
  | 0x02 => "stateless_reset_token"
  | 0x03 => "max_udp_payload_size"
  | 0x0a => "ack_delay_exponent"
  | 0x0b => "max_ack_delay"
  | 0x0c => "disable_active_migration"
  | 0x0d => "preferred_address"
  | 0x0e => "active_connection_id_limit"
  | 0x0f => "initial_source_connection_id"
  | 0x10 => "retry_source_connection_id"
  | _ => ""

/-- The transport parameters an endpoint declares. A zero field is the
parameter's default, and is not sent. -/
structure Parameters where
  maxIdleTimeout : Nat := 0
  initialMaxData : Nat := 0
  initialMaxStreamDataBidiLocal : Nat := 0
  initialMaxStreamDataBidiRemote : Nat := 0
  initialMaxStreamDataUni : Nat := 0
  initialMaxStreamsBidi : Nat := 0
  initialMaxStreamsUni : Nat := 0
  maxDatagramFrameSize : Nat := 0
  maxRecordSize : Nat := 0
deriving DecidableEq, Repr

/-- A place in `Parameters`, as `Parameters.field` points to one. -/
inductive Param where
  | maxIdleTimeout
  | initialMaxData
  | initialMaxStreamDataBidiLoc
  | initialMaxStreamDataBidiRem
  | initialMaxStreamDataUni
  | initialMaxStreamsBidi
  | initialMaxStreamsUni
  | maxDatagramFrameSize
  | maxRecordSize
deriving DecidableEq, Repr

namespace Param

/-- The identifier of a transport parameter. -/
def id : Param → Nat
  | maxIdleTimeout => 0x01
  | initialMaxData => 0x04
  | initialMaxStreamDataBidiLoc => 0x05
  | initialMaxStreamDataBidiRem => 0x06
  | initialMaxStreamDataUni => 0x07
  | initialMaxStreamsBidi => 0x08
  | initialMaxStreamsUni => 0x09
  | maxDatagramFrameSize => 0x20
  | maxRecordSize => 0x0571c59429cd0845

/-- The order `Parameters.append` writes them in. -/
def all : List Param :=
  [maxIdleTimeout, initialMaxData, initialMaxStreamDataBidiLoc,
    initialMaxStreamDataBidiRem, initialMaxStreamDataUni,
    initialMaxStreamsBidi, initialMaxStreamsUni, maxDatagramFrameSize,
    maxRecordSize]

end Param

namespace Parameters

/-- Where the parameter `id` is stored, or `none` for a parameter this
implementation does not know. -/
def field (id : Nat) : Option Param :=
  Param.all.find? (fun f => f.id == id)

def get (p : Parameters) : Param → Nat
  | .maxIdleTimeout => p.maxIdleTimeout
  | .initialMaxData => p.initialMaxData
  | .initialMaxStreamDataBidiLoc => p.initialMaxStreamDataBidiLocal
  | .initialMaxStreamDataBidiRem => p.initialMaxStreamDataBidiRemote
  | .initialMaxStreamDataUni => p.initialMaxStreamDataUni
  | .initialMaxStreamsBidi => p.initialMaxStreamsBidi
  | .initialMaxStreamsUni => p.initialMaxStreamsUni
  | .maxDatagramFrameSize => p.maxDatagramFrameSize
  | .maxRecordSize => p.maxRecordSize

def set (p : Parameters) (f : Param) (v : Nat) : Parameters :=
  match f with
  | .maxIdleTimeout => { p with maxIdleTimeout := v }
  | .initialMaxData => { p with initialMaxData := v }
  | .initialMaxStreamDataBidiLoc => { p with initialMaxStreamDataBidiLocal := v }
  | .initialMaxStreamDataBidiRem => { p with initialMaxStreamDataBidiRemote := v }
  | .initialMaxStreamDataUni => { p with initialMaxStreamDataUni := v }
  | .initialMaxStreamsBidi => { p with initialMaxStreamsBidi := v }
  | .initialMaxStreamsUni => { p with initialMaxStreamsUni := v }
  | .maxDatagramFrameSize => { p with maxDatagramFrameSize := v }
  | .maxRecordSize => { p with maxRecordSize := v }

variable [Quicvarint]

/-- One entry of the encoded list: identifier, length, value. -/
def appendEntry (f : Param) (value : Nat) : Option Bytes := do
  let id ← Quicvarint.append f.id
  let size ← Quicvarint.append (Quicvarint.len value)
  let v ← Quicvarint.append value
  return id ++ size ++ v

/-- The loop of `append` over the parameters that remain. -/
def appendFields (p : Parameters) : List Param → Option Bytes
  | [] => some []
  | f :: rest =>
      if p.get f = 0 then p.appendFields rest
      else do
        let entry ← appendEntry f (p.get f)
        let more ← p.appendFields rest
        return entry ++ more

def append (p : Parameters) : Option Bytes :=
  p.appendFields Param.all

end Parameters

def parameterError (reason : String) : Error :=
  ⟨transportParameterError, reason⟩

section Parser

variable [Quicvarint]

/-- The loop of `parseParameters`. `seen` holds the identifiers read so far.
Every round consumes at least one byte, so the length of the field is enough
fuel. -/
def parseEntries : Nat → Reader → List Nat → Parameters → Except Error Parameters
  | 0, _, _, p => .ok p
  | fuel + 1, r, seen, p =>
      if r.b = [] then .ok p
      else
        let (id, r) := r.varint
        let (n, r) := r.varint
        let (value, r) := r.bytes n
        if r.failed then
          .error (parameterError "transport parameters are truncated")
        else if prohibitedParam id ≠ "" then
          .error (parameterError (prohibitedParam id ++ " is not allowed"))
        else if id ∈ seen then
          .error (parameterError ("transport parameter 0x" ++ hex id ++ " is repeated"))
        else match Parameters.field id with
          | none => parseEntries fuel r (id :: seen) p
          | some f =>
              match Quicvarint.parse value with
              | none => .error (parameterError
                  ("transport parameter 0x" ++ hex id ++ " is not an integer"))
              | some (v, width) =>
                  if width ≠ value.length then .error (parameterError
                    ("transport parameter 0x" ++ hex id ++ " is not an integer"))
                  else parseEntries fuel r (id :: seen) (p.set f v)

/-- `parseParameters` parses the Transport Parameters field of a
QX_TRANSPORT_PARAMETERS frame. Unknown parameters are ignored. -/
def parseParameters (b : Bytes) : Except Error Parameters := do
  let p ← parseEntries b.length ⟨b, false⟩ [] { maxRecordSize := defaultMaxRecordSize }
  if maxStreams < p.initialMaxStreamsBidi ∨ maxStreams < p.initialMaxStreamsUni then
    throw (parameterError "initial_max_streams above 2^60")
  else if p.maxRecordSize < defaultMaxRecordSize then
    throw (parameterError "max_record_size below 16382")
  else return p

end Parser

end Qmux.Wire
