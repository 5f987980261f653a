import Qmux.Endpoint
import Qmux.Lib.ByteStream

/-!
Record transports. Over a byte stream a record is its Size field and its Frames
field; over messages the boundary delimits it. A byte stream may itself be one
of messages whose boundaries carry no meaning.
-/

namespace Qmux

open ByteStream Wire

/-- The space a record buffer leaves before its Frames field. -/
def recordHeadroom : Nat := 8

/-- What `readRecord` fails with: an error of this package, or one of the
connection below. -/
inductive ReadError where
  | wire (err : Wire.Error)
  | transport (cause : ReadFailure)
deriving DecidableEq, Repr

section Model

variable [Quicvarint] {σ : Type} [Source UInt8 σ]

/-- `buf` is the array behind the slice that holds the last record, to its
capacity. -/
structure StreamTransport (σ : Type) where
  br : Buffered UInt8 σ
  buf : Bytes := []
  max : Nat

namespace StreamTransport

def readRecord (t : StreamTransport σ) : Except ReadError Bytes × StreamTransport σ :=
  match Quicvarint.read Buffered.readOne t.br with
  | (.error e, br) => (.error (.transport e), { t with br := br })
  | (.ok size, br) =>
      if size > t.max then
        match br.skip size with
        | (some e, br) => (.error (.transport e), { t with br := br })
        | (none, br) => (.error (.wire (recordTooLarge size t.max)), { t with br := br })
      else
        let buf := if t.buf.length < size then List.replicate size 0 else t.buf
        match br.readFull size with
        | (p, some e, br) =>
            (.error (.transport (if e = .eof then .unexpectedEOF else e)),
              { t with br := br, buf := p ++ buf.drop p.length })
        | (p, none, br) =>
            let buf := p ++ buf.drop p.length
            (.ok (buf.take size), { t with br := br, buf := buf })

omit [Source UInt8 σ] in
/-- What `writeRecord` puts on the connection, or `none` where `quicvarint`
panics. `Append` writes into the headroom. -/
def writeRecord (buf : Bytes) : Option Bytes := do
  let size := Word.sub buf.length recordHeadroom
  let start := recordHeadroom - Quicvarint.len size
  let e ← Quicvarint.append size
  return (buf.take start ++ e ++ buf.drop (start + e.length)).drop start

/-- The results of `n` calls. -/
def readRecords : Nat → StreamTransport σ → List (Except ReadError Bytes)
  | 0, _ => []
  | n + 1, t => (readRecord t).1 :: readRecords n (readRecord t).2

end StreamTransport

end Model

/-- A message connection that delivers `messages` and then fails. -/
structure MessageConn where
  messages : List Bytes
  err : ReadFailure

def MessageConn.readMessage (mc : MessageConn) : Except ReadFailure Bytes × MessageConn :=
  match mc.messages with
  | [] => (.error mc.err, mc)
  | p :: rest => (.ok p, { mc with messages := rest })

structure MessageTransport where
  mc : MessageConn
  max : Nat

namespace MessageTransport

def readRecord (t : MessageTransport) : Except ReadError Bytes × MessageTransport :=
  match t.mc.readMessage with
  | (.error e, mc) => (.error (.transport e), { t with mc := mc })
  | (.ok p, mc) =>
      if p.length > t.max then
        (.error (.wire (recordTooLarge p.length t.max)), { t with mc := mc })
      else (.ok p, { t with mc := mc })

/-- The message `writeRecord` sends. -/
def writeRecord (buf : Bytes) : Bytes :=
  buf.drop recordHeadroom

def readRecords : Nat → MessageTransport → List (Except ReadError Bytes)
  | 0, _ => []
  | n + 1, t => (readRecord t).1 :: readRecords n (readRecord t).2

end MessageTransport

/-- `NetConn`: the messages as a byte stream. -/
structure MessageConnAdapter where
  mc : MessageConn
  buf : Bytes := []

namespace MessageConnAdapter

/-- The loop of `Read`: messages are taken until one is not empty. -/
def fill : List Bytes → Bytes → List Bytes × Bytes
  | messages, x :: buf => (messages, x :: buf)
  | [], [] => ([], [])
  | p :: rest, [] => fill rest p

def read (a : MessageConnAdapter) (size : Nat) : Except ReadFailure Bytes × MessageConnAdapter :=
  match fill a.mc.messages a.buf with
  | (messages, []) =>
      (.error a.mc.err, { a with mc := { a.mc with messages := messages }, buf := [] })
  | (messages, buf) =>
      (.ok (buf.take size),
        { a with mc := { a.mc with messages := messages }, buf := buf.drop size })

instance : Source UInt8 MessageConnAdapter where
  read := read

end MessageConnAdapter

end Qmux
