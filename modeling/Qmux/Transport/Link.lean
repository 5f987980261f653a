import Qmux.Transport.Framing

/-!
One direction of a connection, down to the bytes. What is written is on its way
until it arrives, in pieces that need not keep to the records, and is read from
what has arrived. A call of `readRecord` that finds less than a record blocks:
it has no result here before the rest of the record is there.
-/

namespace Qmux

open ByteStream Wire

/-- What a connection runs over. -/
inductive Carrier where
  | byteStream
  | messageConn
deriving DecidableEq, Repr

/-- The `recordTransport` of the side that reads. -/
inductive RecordTransport where
  | stream (t : StreamTransport MessageConnAdapter)
  | message (t : MessageTransport)

/-- `flight` is what was written and has not arrived, write by write. -/
structure Link where
  transport : RecordTransport
  flight : List Bytes

namespace Link

/-- The transport that `start` is given, before anything has arrived. -/
def new (carrier : Carrier) (maxRecordSize : Nat) : Link where
  transport :=
    match carrier with
    | .byteStream =>
        .stream { br := { source := { mc := ⟨[], .eof⟩ } }, max := maxRecordSize }
    | .messageConn => .message ⟨⟨[], .eof⟩, maxRecordSize⟩
  flight := []

/-- The next `n` bytes arrive in one piece, or the next `n` messages. -/
def arrive (l : Link) (n : Nat) : Link :=
  match l.transport with
  | .stream t =>
      let source := t.br.source
      let messages := source.mc.messages ++ [l.flight.flatten.take n]
      { transport := .stream { t with
          br := { t.br with source := { source with mc := { source.mc with messages := messages } } } }
        flight := [l.flight.flatten.drop n] }
  | .message t =>
      let messages := t.mc.messages ++ l.flight.take n
      { transport := .message { t with mc := { t.mc with messages := messages } }
        flight := l.flight.drop n }

variable [Quicvarint]

def writeRecord (l : Link) (buf : Bytes) : Option Link :=
  match l.transport with
  | .stream _ =>
      (StreamTransport.writeRecord buf).map (fun w => { l with flight := l.flight ++ [w] })
  | .message _ => some { l with flight := l.flight ++ [MessageTransport.writeRecord buf] }

def readRecord (l : Link) : Except ReadError Bytes × Link :=
  match l.transport with
  | .stream t =>
      let (result, t) := t.readRecord
      (result, { l with transport := .stream t })
  | .message t =>
      let (result, t) := t.readRecord
      (result, { l with transport := .message t })

/-- The records on the way and those that have arrived are `recs`, and the reader
takes records up to `limit`. -/
def Conveys (limit : Nat) (l : Link) (recs : List Bytes) : Prop :=
  match l.transport with
  | .stream t => t.max = limit ∧ ∃ written err b, List.Forall₂ Framed recs written ∧
      t.br.Holds err b ∧ b ++ l.flight.flatten = written.flatten
  | .message t => t.max = limit ∧ t.mc.messages ++ l.flight = recs

/-- Nothing is on its way. -/
def Arrived (l : Link) : Prop :=
  match l.transport with
  | .stream _ => l.flight.flatten = []
  | .message _ => l.flight = []

theorem new_conveys (carrier : Carrier) (limit : Nat) : (new carrier limit).Conveys limit [] := by
  cases carrier with
  | byteStream =>
      have hcarries := MessageConnAdapter.carries .eof [] []
      exact ⟨rfl, [], .eof, [], .nil, Buffered.holds_start hcarries, rfl⟩
  | messageConn => exact ⟨rfl, rfl⟩

/-- Arrival loses nothing. -/
theorem Conveys.arrive {limit : Nat} {l : Link} {recs : List Bytes} (h : l.Conveys limit recs)
    (n : Nat) : (l.arrive n).Conveys limit recs := by
  obtain ⟨transport, flight⟩ := l
  cases transport with
  | stream t =>
      obtain ⟨hmax, written, err, b, hframed, ⟨rest, rfl, hcarries⟩, hsame⟩ := h
      have hsource := MessageConnAdapter.carries t.br.source.mc.err t.br.source.mc.messages
        t.br.source.buf
      obtain ⟨rfl, rfl⟩ := hcarries.unique hsource
      refine ⟨hmax, written, _, _, hframed, ⟨_, rfl, MessageConnAdapter.carries _ _ _⟩, ?_⟩
      rw [← hsame]
      simp [Link.arrive]
  | message t =>
      obtain ⟨hmax, hsame⟩ := h
      refine ⟨hmax, ?_⟩
      rw [← hsame]
      simp [Link.arrive]

/-- A record is on its way as soon as it is written. -/
theorem Conveys.writeRecord {limit : Nat} {l : Link} {recs : List Bytes}
    (h : l.Conveys limit recs) {headroom rec : Bytes} (hroom : headroom.length = recordHeadroom)
    (hmax : rec.length ≤ maxVarint) :
    ∃ next, l.writeRecord (headroom ++ rec) = some next ∧ next.Conveys limit (recs ++ [rec]) := by
  have hdrop : (headroom ++ rec).drop recordHeadroom = rec := List.drop_left' hroom
  obtain ⟨transport, flight⟩ := l
  cases transport with
  | stream t =>
      obtain ⟨hlimit, written, err, b, hframed, hholds, hsame⟩ := h
      have hspace : recordHeadroom ≤ (headroom ++ rec).length := by
        rw [List.length_append]
        omega
      obtain ⟨w, hw, hone⟩ := StreamTransport.writeRecord_framed hspace (hdrop.symm ▸ hmax)
      rw [hdrop] at hone
      refine ⟨⟨.stream t, flight ++ [w]⟩, by simp only [Link.writeRecord, hw, Option.map_some],
        hlimit, written ++ [w], err, b, List.rel_append hframed (.cons hone .nil), hholds, ?_⟩
      rw [List.flatten_append, List.flatten_append, ← List.append_assoc]
      exact congrArg (· ++ [w].flatten) hsame
  | message t =>
      obtain ⟨hlimit, hsame⟩ := h
      refine ⟨_, rfl, hlimit, ?_⟩
      rw [MessageTransport.writeRecord, hdrop, ← List.append_assoc, hsame]

omit [Quicvarint] in
private theorem readRecord_cons (rec : Bytes) (messages : List Bytes) (err : ReadFailure)
    (max : Nat) : MessageTransport.readRecord ⟨⟨rec :: messages, err⟩, max⟩ =
      (outcome max rec, ⟨⟨messages, err⟩, max⟩) := by
  simp only [MessageTransport.readRecord, MessageConn.readMessage, outcome]
  split_ifs <;> rfl

private theorem readRecord_nil {t : StreamTransport MessageConnAdapter} {err : ReadFailure}
    (h : t.br.Holds err []) : ∃ cause, t.readRecord.1 = .error (.transport cause) := by
  obtain ⟨e, he⟩ := exists_append (Nat.zero_le maxVarint)
  have hframed : Framed [] e := ⟨e, he, (List.append_nil e).symm⟩
  have hpos : 0 < e.length := List.length_pos_iff.mpr (append_encodes he).ne_nil
  exact StreamTransport.readRecord_error hframed hpos h

/-- A call of `readRecord` returns the next record, or finds less than one. -/
theorem Conveys.readRecord {limit : Nat} {l : Link} {recs : List Bytes}
    (h : l.Conveys limit recs) :
    (∃ rec rest next, recs = rec :: rest ∧ l.readRecord = (outcome limit rec, next) ∧
        next.Conveys limit rest) ∨
      (∃ cause, l.readRecord.1 = .error (.transport cause)) ∧ (l.Arrived → recs = []) := by
  obtain ⟨transport, flight⟩ := l
  cases transport with
  | stream t =>
      obtain ⟨rfl, written, err, b, hframed, hholds, hsame⟩ := h
      cases hframed with
      | nil =>
          obtain ⟨rfl, -⟩ := List.append_eq_nil_iff.mp hsame
          exact Or.inr ⟨readRecord_nil hholds, fun _ => rfl⟩
      | @cons rec w recs written hone hrest =>
          rw [List.flatten_cons] at hsame
          rcases Nat.lt_or_ge b.length w.length with hshort | hlong
          · refine Or.inr ⟨?_, fun harrived => ?_⟩
            · have hcut : b = w.take b.length := by
                have htake := congrArg (List.take b.length) hsame
                rwa [List.take_left, List.take_append_of_le_length hshort.le] at htake
              rw [hcut] at hholds
              exact StreamTransport.readRecord_error hone hshort hholds
            · have hlength := congrArg List.length hsame
              rw [show flight.flatten = [] from harrived, List.append_nil,
                List.length_append] at hlength
              omega
          · obtain ⟨left, rfl⟩ : w <+: b :=
              List.prefix_of_prefix_length_le (List.prefix_append w _) ⟨_, hsame⟩ hlong
            obtain ⟨next, hread, hmax, hnext⟩ := StreamTransport.readRecord_ok hone hholds
            rw [List.append_assoc] at hsame
            refine Or.inl ⟨rec, recs, ⟨.stream next, flight⟩, rfl, ?_, hmax, written, err, left,
              hrest, hnext, List.append_cancel_left hsame⟩
            simp only [Link.readRecord, hread]
  | message t =>
      obtain ⟨⟨messages, err⟩, max⟩ := t
      obtain ⟨rfl, rfl⟩ := h
      cases messages with
      | nil => exact Or.inr ⟨⟨err, rfl⟩, id⟩
      | cons rec messages =>
          refine Or.inl ⟨rec, messages ++ flight, ⟨.message ⟨⟨messages, err⟩, max⟩, flight⟩, rfl,
            ?_, rfl, rfl⟩
          simp only [Link.readRecord, readRecord_cons]

omit [Quicvarint] in
theorem exists_arrived (l : Link) : ∃ n, (l.arrive n).Arrived := by
  obtain ⟨transport, flight⟩ := l
  cases transport with
  | stream t =>
      refine ⟨flight.flatten.length, ?_⟩
      change [flight.flatten.drop flight.flatten.length].flatten = []
      simp
  | message t =>
      refine ⟨flight.length, ?_⟩
      change flight.drop flight.length = []
      simp

end Link

end Qmux
