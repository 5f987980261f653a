import Qmux.Wire.Entries

/-!
The grammar of frames, apart from the parser. A frame is its type and what the
type says follows it, with integers of any width. Two kinds extend to the end
of the record: a STREAM frame without its length, and a DATAGRAM frame without
its length.
-/

namespace Qmux.Wire

open Varint

/-- `body` is what follows the type `t` in an encoding of `f` that stands before
`rest`. -/
inductive Body : Nat → Parsed → Bytes → Bytes → Prop where
  | resetStream {f : ResetStream} {streamID code finalSize rest : Bytes}
      (hstream : Encodes f.streamID streamID) (hcode : Encodes f.code code)
      (hsize : Encodes f.finalSize finalSize) :
      Body typeResetStream (.frame (.resetStream f)) (streamID ++ (code ++ finalSize)) rest
  | stopSending {f : StopSending} {streamID code rest : Bytes}
      (hstream : Encodes f.streamID streamID) (hcode : Encodes f.code code) :
      Body typeStopSending (.frame (.stopSending f)) (streamID ++ code) rest
  | stream {t : Nat} {f : Stream} {streamID offset size rest : Bytes}
      (htype : typeStream ≤ t ∧ t ≤ typeStreamMax)
      (hfin : f.fin = decide (t &&& streamBitFin ≠ 0))
      (hstream : Encodes f.streamID streamID)
      (hoffset : if t &&& streamBitOff ≠ 0 then Encodes f.offset offset
        else f.offset = 0 ∧ offset = [])
      (hsize : if t &&& streamBitLen ≠ 0 then Encodes f.data.length size
        else size = [] ∧ rest = []) :
      Body t (.frame (.stream f)) (streamID ++ (offset ++ (size ++ f.data))) rest
  | maxData {f : MaxData} {max rest : Bytes} (hmax : Encodes f.max max) :
      Body typeMaxData (.frame (.maxData f)) max rest
  | maxStreamData {f : MaxStreamData} {streamID max rest : Bytes}
      (hstream : Encodes f.streamID streamID) (hmax : Encodes f.max max) :
      Body typeMaxStreamData (.frame (.maxStreamData f)) (streamID ++ max) rest
  | maxStreams {f : MaxStreams} {max rest : Bytes} (hmax : Encodes f.max max)
      (hlegal : f.max ≤ Wire.maxStreams) :
      Body (if f.uni then typeMaxStreamsUni else typeMaxStreamsBidi) (.frame (.maxStreams f))
        max rest
  | dataBlocked {v : Nat} {max rest : Bytes} (hmax : Encodes v max) :
      Body typeDataBlocked .blocked max rest
  | streamDataBlocked {v w : Nat} {streamID max rest : Bytes} (hstream : Encodes v streamID)
      (hmax : Encodes w max) : Body typeStreamDataBlocked .blocked (streamID ++ max) rest
  | streamsBlocked {t v : Nat} {max rest : Bytes}
      (htype : t = typeStreamsBlocked ∨ t = typeStreamsBlockedUni) (hmax : Encodes v max)
      (hlegal : v ≤ Wire.maxStreams) : Body t .blocked max rest
  | transportClose {f : ConnectionClose} {code frameType size rest : Bytes}
      (hkind : f.application = false) (hcode : Encodes f.code code)
      (htype : Encodes f.frameType frameType) (hsize : Encodes f.reason.length size) :
      Body typeConnectionClose (.frame (.connectionClose f))
        (code ++ (frameType ++ (size ++ f.reason))) rest
  | applicationClose {f : ConnectionClose} {code size rest : Bytes}
      (hkind : f.application = true) (htype : f.frameType = 0) (hcode : Encodes f.code code)
      (hsize : Encodes f.reason.length size) :
      Body typeApplicationClose (.frame (.connectionClose f)) (code ++ (size ++ f.reason)) rest
  | datagram {f : Datagram} : Body typeDatagram (.frame (.datagram f)) f.data []
  | datagramLen {f : Datagram} {size rest : Bytes} (hsize : Encodes f.data.length size) :
      Body typeDatagramLen (.frame (.datagram f)) (size ++ f.data) rest
  | transportParameters {p : Parameters} {params size rest : Bytes} {xs : List Entry}
      (hsize : Encodes params.length size) (hsplits : Splits params xs)
      (haccepted : Accepted xs) (hfilled : Filled .defaults xs p) :
      Body typeTransportParameters (.frame (.transportParameters p)) (size ++ params) rest
  | ping {f : Ping} {sequence rest : Bytes} (hsequence : Encodes f.sequence sequence) :
      Body (if f.response then typePingResponse else typePingRequest) (.frame (.ping f))
        sequence rest

/-- `e` is an encoding of `f` that stands before `rest`. -/
def IsFrame (f : Parsed) (e rest : Bytes) : Prop :=
  ∃ t type body, Encodes t type ∧ Body t f body rest ∧ e = type ++ body

/-- A complete QX_TRANSPORT_PARAMETERS frame whose field is not acceptable. -/
def BadParameters (b : Bytes) : Prop :=
  ∃ type size params rest, Encodes typeTransportParameters type ∧
    Encodes params.length size ∧ b = type ++ (size ++ (params ++ rest)) ∧
    ¬ ∃ xs, Splits params xs ∧ Accepted xs

theorem Body.type_ne_zero {t : Nat} {f : Parsed} {body rest : Bytes} (h : Body t f body rest) :
    t ≠ 0 := by
  cases h with
  | stream htype =>
      have : typeStream = 8 := rfl
      omega
  | maxStreams => split_ifs <;> decide
  | streamsBlocked htype => rcases htype with rfl | rfl <;> decide
  | ping => split_ifs <;> decide
  | _ => decide

/-- The first byte of an integer is zero for zero only. -/
theorem Varint.Encodes.head {v : Nat} {e : Bytes} (h : Encodes v e) (hv : v ≠ 0) :
    ∃ x tail, e = x :: tail ∧ x ≠ 0 := by
  cases e with
  | nil => exact absurd rfl h.ne_nil
  | cons x tail =>
      refine ⟨x, tail, rfl, ?_⟩
      rintro rfl
      have hparse := Varint.parse_encodes h []
      simp [Varint.parse, Varint.width, Varint.value] at hparse
      omega

/-- The types that fall in a case of the switch. -/
def Kind.HasType (t : Nat) : Kind → Prop
  | .resetStream => t = typeResetStream
  | .stopSending => t = typeStopSending
  | .stream => typeStream ≤ t ∧ t ≤ typeStreamMax
  | .maxData => t = typeMaxData
  | .maxStreamData => t = typeMaxStreamData
  | .maxStreams => t = typeMaxStreamsBidi ∨ t = typeMaxStreamsUni
  | .dataBlocked => t = typeDataBlocked
  | .streamDataBlocked => t = typeStreamDataBlocked
  | .streamsBlocked => t = typeStreamsBlocked ∨ t = typeStreamsBlockedUni
  | .connectionClose => t = typeConnectionClose ∨ t = typeApplicationClose
  | .datagram => t = typeDatagram
  | .datagramLen => t = typeDatagramLen
  | .transportParameters => t = typeTransportParameters
  | .ping => t = typePingRequest ∨ t = typePingResponse

private theorem ite_eq_some {p : Prop} [Decidable p] {a k : Kind} {o : Option Kind}
    (h : (if p then some a else o) = some k) : (p ∧ a = k) ∨ o = some k := by
  split at h
  case isTrue hp => exact Or.inl ⟨hp, Option.some.inj h⟩
  case isFalse => exact Or.inr h

theorem kind_hasType {t : Nat} {k : Kind} (h : kind t = some k) : k.HasType t := by
  unfold kind at h
  iterate 14
    rcases ite_eq_some h with ⟨htype, rfl⟩ | h
    · exact htype
  cases h

theorem kind_stream {t : Nat} (h : typeStream ≤ t ∧ t ≤ typeStreamMax) :
    kind t = some .stream := by
  have hreset : t ≠ typeResetStream := by
    rintro rfl
    exact absurd h (by decide)
  have hstop : t ≠ typeStopSending := by
    rintro rfl
    exact absurd h (by decide)
  unfold kind
  rw [if_neg hreset, if_neg hstop, if_pos h]

end Qmux.Wire
