import Qmux.Wire.Varint

/-!
The parts that the frame and the parameter codec share: transport errors and
the reader that consumes a record.
-/

namespace Qmux.Wire

def flowControlError : Nat := 0x03
def streamLimitError : Nat := 0x04
def streamStateError : Nat := 0x05
def finalSizeError : Nat := 0x06
def frameEncodingError : Nat := 0x07
def transportParameterError : Nat := 0x08
def protocolViolation : Nat := 0x0a

/-- The largest stream count a peer may declare. -/
def maxStreams : Nat := 2 ^ 60

/-- The value of `max_record_size` when the transport parameter is absent, and
the smallest value it can take. -/
def defaultMaxRecordSize : Nat := 16382

/-- A connection error: what the endpoint that detects it puts in its
CONNECTION_CLOSE frame. -/
structure Error where
  code : Nat
  reason : String
deriving DecidableEq, Repr

/-- The text of a number under `%x`. -/
def hex (n : Nat) : String :=
  String.ofList (Nat.toDigits 16 n)

/-- `reader` consumes a record. Running out of bytes sets `failed`; every
later read then returns zero, so that a parser checks once at its end. -/
structure Reader where
  b : Bytes
  failed : Bool := false

namespace Reader

def bytes (r : Reader) (n : Nat) : Bytes × Reader :=
  if r.failed || decide (r.b.length < n) then ([], { r with failed := true })
  else (r.b.take n, { r with b := r.b.drop n })

def rest (r : Reader) : Bytes × Reader :=
  if r.failed then ([], r) else (r.b, { r with b := [] })

theorem bytes_append (data tail : Bytes) :
    bytes ⟨data ++ tail, false⟩ data.length = (data, ⟨tail, false⟩) := by
  simp [bytes]

variable [Quicvarint]

def varint (r : Reader) : Nat × Reader :=
  if r.failed then (0, r)
  else match Quicvarint.parse r.b with
    | none => (0, { r with failed := true })
    | some (v, n) => (v, { r with b := r.b.drop n })

/-- Reading back a value that `quicvarint.Append` wrote. -/
theorem varint_append {v : Nat} {e : Bytes} (h : Quicvarint.append v = some e)
    (tail : Bytes) : varint ⟨e ++ tail, false⟩ = (v, ⟨tail, false⟩) := by
  simp [varint, Quicvarint.parse_append v e tail h]

theorem varint_le (r : Reader) : (r.varint).1 ≤ maxVarint := by
  unfold varint
  split
  · exact Nat.zero_le _
  · split
    · exact Nat.zero_le _
    · rename_i v n hparse
      exact Quicvarint.parse_le _ _ _ hparse

end Reader

end Qmux.Wire
