import Qmux.Endpoint
import Qmux.Records

/-!
Record boundaries and padding carry no meaning. A record is read frame by
frame, and a frame that carries its own length is read the same whatever
follows it. So it makes no difference whether the frames that follow come in the
same record or in the next one: an error ends the connection in both cases, and
once it has ended the rest is discarded.
-/

namespace Qmux

open Wire

namespace Wire

section Types

variable [Quicvarint]

/-- The type of the first frame, after any padding. -/
def frameType (b : Bytes) : Nat :=
  (Reader.varint ⟨b.dropWhile (· == 0), false⟩).1

/-- Frames of the type carry their own length, so that others can follow. -/
def carriesLength (t : Nat) : Bool :=
  if typeStream ≤ t ∧ t ≤ typeStreamMax then t &&& streamBitLen != 0 else t != typeDatagram

/-- The record parses into frames that all carry their own length. -/
inductive Delimited : Bytes → Prop where
  | nil {b : Bytes} (hend : parse b = .ok none) : Delimited b
  | cons {b rest : Bytes} {f : Parsed} (hparse : parse b = .ok (some (f, rest)))
      (hlength : carriesLength (frameType b) = true) (hrest : Delimited rest) : Delimited b

/-- The second record is the first with padding at a boundary of its frames. -/
inductive Padded : Bytes → Bytes → Prop where
  | here (k : Nat) (b : Bytes) : Padded b (List.replicate k 0 ++ b)
  | later {b rest rest' : Bytes} {f : Parsed}
      (hparse : parse (b ++ rest) = .ok (some (f, rest)))
      (hlength : carriesLength (frameType (b ++ rest)) = true) (hrest : Padded rest rest') :
      Padded (b ++ rest) (b ++ rest')

omit [Quicvarint] in
/-- A body of a type that carries its length may stand before anything. -/
theorem Body.before {t : Nat} {f : Parsed} {body rest : Bytes} (h : Body t f body rest)
    (hlength : carriesLength t = true) (rest' : Bytes) : Body t f body rest' := by
  cases h with
  | resetStream hstream hcode hsize => exact .resetStream hstream hcode hsize
  | stopSending hstream hcode => exact .stopSending hstream hcode
  | stream htype hfin hstream hoffset hsize =>
      have hbit : t &&& streamBitLen ≠ 0 := by
        rw [carriesLength, if_pos htype] at hlength
        simpa using hlength
      rw [if_pos hbit] at hsize
      exact .stream htype hfin hstream hoffset (by rw [if_pos hbit]; exact hsize)
  | maxData hmax => exact .maxData hmax
  | maxStreamData hstream hmax => exact .maxStreamData hstream hmax
  | maxStreams hmax hlegal => exact .maxStreams hmax hlegal
  | dataBlocked hmax => exact .dataBlocked hmax
  | streamDataBlocked hstream hmax => exact .streamDataBlocked hstream hmax
  | streamsBlocked htype hmax hlegal => exact .streamsBlocked htype hmax hlegal
  | transportClose hkind hcode htype hsize => exact .transportClose hkind hcode htype hsize
  | applicationClose hkind htype hcode hsize => exact .applicationClose hkind htype hcode hsize
  | datagram => exact absurd hlength (by decide)
  | datagramLen hsize => exact .datagramLen hsize
  | transportParameters hsize hsplits haccepted hfilled =>
      exact .transportParameters hsize hsplits haccepted hfilled
  | ping hsequence => exact .ping hsequence

theorem frameType_eq {t : Nat} {type : Bytes} (htype : Varint.Encodes t type) (ht : t ≠ 0)
    (k : Nat) (b : Bytes) : frameType (List.replicate k 0 ++ (type ++ b)) = t := by
  have hread := Reader.varint_encodes htype b
  obtain ⟨x, tail, rfl, hx⟩ := htype.head ht
  rw [List.cons_append] at hread ⊢
  have hdrop : (List.replicate k 0 ++ x :: (tail ++ b)).dropWhile (· == 0) =
      x :: (tail ++ b) := by
    rw [List.dropWhile_append_of_pos (by simp), List.dropWhile_cons_of_neg (by simpa using hx)]
  rw [frameType, hdrop, hread]

/-- A frame that carries its length is read the same whatever follows it. -/
theorem parse_before {b rest : Bytes} {f : Parsed}
    (hparse : parse (b ++ rest) = .ok (some (f, rest)))
    (hlength : carriesLength (frameType (b ++ rest)) = true) (rest' : Bytes) :
    parse (b ++ rest') = .ok (some (f, rest')) := by
  obtain ⟨k, e, hbytes, t, type, body, htype, hbody, rfl⟩ := parse_iff.mp hparse
  have hfirst : b = List.replicate k 0 ++ (type ++ body) := by
    rw [← List.append_assoc] at hbytes
    exact List.append_cancel_right hbytes
  rw [hbytes, List.append_assoc, frameType_eq htype hbody.type_ne_zero] at hlength
  refine parse_iff.mpr ⟨k, type ++ body, ?_, t, type, body, htype,
    hbody.before hlength rest', rfl⟩
  rw [hfirst, List.append_assoc]

end Types

end Wire

namespace Conn

variable [Quicvarint] [GoAppend]

/-- Padding before a frame is skipped. -/
theorem handleRecord_padding (c : Conn) (k : Nat) (rec : Bytes) (now : Time) :
    c.handleRecord (List.replicate k 0 ++ rec) now = c.handleRecord rec now := by
  rw [handleRecord_eq, handleRecord_eq c rec, parse_padding]
  by_cases hclosed : c.closeErr.isSome = true
  · rw [if_pos (Or.inr hclosed), if_pos (Or.inr hclosed)]
  · cases rec with
    | nil =>
        rw [if_pos (Or.inl rfl)]
        split_ifs
        · rfl
        · have hnone : parse [] = .ok none := parse_zeros 0
          rw [hnone]
    | cons x rec => simp [hclosed]

/-- A frame that carries its length is handled, and then what follows it. -/
theorem handleRecord_frame {b rest : Bytes} {f : Parsed}
    (hparse : parse (b ++ rest) = .ok (some (f, rest)))
    (hlength : carriesLength (frameType (b ++ rest)) = true) (c : Conn) (rest' : Bytes)
    (now : Time) :
    c.handleRecord (b ++ rest') now =
      if c.closeErr.isSome then (c, none)
      else match c.handleFrameLocked f now with
        | (c, some failure) => (c, some failure)
        | (c, none) => c.handleRecord rest' now := by
  have hsome := parse_before hparse hlength rest'
  have hne : b ++ rest' ≠ [] := by
    intro hnil
    rw [hnil] at hsome
    have hnone : parse [] = .ok none := parse_zeros 0
    rw [hnone] at hsome
    cases hsome
  rw [handleRecord_eq, hsome]
  rcases hframe : c.handleFrameLocked f now with ⟨next, _ | failure⟩
  · simp [hne, hframe]
  · simp [hne, hframe]

/-- What follows complete frames is handled after them, unless they fail. -/
theorem handleRecord_append {first : Bytes} (h : Delimited first) (c : Conn) (second : Bytes)
    (now : Time) :
    c.handleRecord (first ++ second) now =
      match c.handleRecord first now with
      | (c, some failure) => (c, some failure)
      | (c, none) => c.handleRecord second now := by
  induction h generalizing c with
  | nil hend =>
      obtain ⟨k, rfl⟩ := parse_none_iff.mp hend
      have hnone := c.handleRecord_padding k [] now
      rw [List.append_nil] at hnone
      rw [handleRecord_padding, hnone]
      simp [handleRecord_eq c []]
  | @cons b rest f hparse hlength hrest ih =>
      obtain ⟨k, e, rfl, -⟩ := parse_iff.mp hparse
      rw [← List.append_assoc] at hparse hlength ⊢
      rw [List.append_assoc _ rest, handleRecord_frame hparse hlength,
        handleRecord_frame hparse hlength]
      by_cases hclosed : c.closeErr.isSome = true
      · simp [hclosed, (handleRecord_closed hclosed _ now).1]
      · rw [if_neg hclosed, if_neg hclosed]
        rcases c.handleFrameLocked f now with ⟨next, _ | failure⟩
        · exact ih next
        · rfl

theorem handleRecord_padded {rec rec' : Bytes} (h : Padded rec rec') (c : Conn) (now : Time) :
    c.handleRecord rec' now = c.handleRecord rec now := by
  induction h generalizing c with
  | here k b => exact c.handleRecord_padding k b now
  | later hparse hlength _ ih =>
      rw [handleRecord_frame hparse hlength, handleRecord_frame hparse hlength]
      simp only [ih]

end Conn

namespace Endpoint

variable [Quicvarint] [GoAppend]

/-- What `readLoop` does with the result of `handleRecord`: a violation or the close
of the peer ends the connection, and after the latter the loop returns. -/
def conclude (e : Endpoint) : Conn × Option Failure → Endpoint
  | (c, none) => { e with conn := c }
  | (c, some (.violation err)) =>
      let (reason, frame) := transportClose err
      { e with conn := c }.closeGracefully reason (some frame)
  | (c, some (.closed err)) => { { e with conn := c }.abort err with reader := .ended }

/-- One round of `readLoop` on a record that was read, with what `handleRecord` failed
with. -/
def readRound (e : Endpoint) (rec : Bytes) (now : Time) : Endpoint × Option Failure :=
  if e.reader = .reading then
    (e.conclude (e.conn.handleRecord rec now), (e.conn.handleRecord rec now).2)
  else (e, none)

/-- The labels of a round. -/
def roundLabels (e : Endpoint) (rec : Bytes) (now : Time) : List Action :=
  if (e.conn.handleRecord rec now).2.isSome then [.record rec now, .readerCloses]
  else [.record rec now]

/-- A round is what the machine does with a record that is not too large. -/
theorem run_readRound {e : Endpoint} (hreader : e.reader = .reading) {rec : Bytes}
    (hsize : rec.length ≤ e.conn.config.maxRecordSize.toNat) (now : Time) :
    Machine.run step e (e.roundLabels rec now) = some (e.readRound rec now).1 := by
  have hlimit : ¬ rec.length > e.conn.config.maxRecordSize.toNat := Nat.not_lt.mpr hsize
  unfold roundLabels readRound conclude
  rw [if_pos hreader]
  rcases hrecord : e.conn.handleRecord rec now with ⟨c, _ | err | err⟩
  · simp [Machine.run, step, hreader, receive, hlimit, hrecord]
  · simp [Machine.run, step, hreader, receive, hlimit, hrecord, readerCloses, closeGracefully]
  · simp [Machine.run, step, hreader, receive, hlimit, hrecord, readerCloses, abort]

omit [GoAppend] in
theorem conclude_failure (e : Endpoint) (c : Conn) (failure : Failure) :
    (e.conclude (c, some failure)).conn.closeErr.isSome = true := by
  cases failure with
  | violation err => exact Option.isSome_iff_ne_none.mpr (c.terminate_closed _)
  | closed err => exact Option.isSome_iff_ne_none.mpr (c.terminate_closed err)

/-- Once the connection has ended, records are discarded. -/
theorem readRound_closed {e : Endpoint} (hclosed : e.conn.closeErr.isSome = true) (rec : Bytes)
    (now : Time) : e.readRound rec now = (e, none) := by
  unfold readRound
  rw [(Conn.handleRecord_closed hclosed rec now).1]
  split_ifs <;> rfl

/-- What two rounds do one after the other. -/
theorem readRound_append {first : Bytes} (h : Delimited first) (e : Endpoint) (second : Bytes)
    (now : Time) :
    e.readRound (first ++ second) now =
      (((e.readRound first now).1.readRound second now).1,
        (e.readRound first now).2.or ((e.readRound first now).1.readRound second now).2) := by
  by_cases hreader : e.reader = .reading
  · have hall := e.conn.handleRecord_append h second now
    have hround (rec : Bytes) : e.readRound rec now =
        (e.conclude (e.conn.handleRecord rec now), (e.conn.handleRecord rec now).2) :=
      if_pos hreader
    rw [hround, hround, hall]
    rcases e.conn.handleRecord first now with ⟨c, _ | failure⟩
    · exact (if_pos hreader).symm
    · rw [readRound_closed (e.conclude_failure c failure)]
      rfl
  · simp [readRound, hreader]

/-- A record that is made of two, the first of complete frames, does what the two do
one after the other, and fails with what they fail with; and padding between frames
does nothing. A round of the loop is what the machine does with a record within the
limit. -/
theorem boundaries_meaningless (e : Endpoint) (now : Time) :
    (∀ first second, Delimited first →
      e.readRound (first ++ second) now =
        (((e.readRound first now).1.readRound second now).1,
          (e.readRound first now).2.or ((e.readRound first now).1.readRound second now).2)) ∧
    (∀ rec rec', Padded rec rec' → e.readRound rec' now = e.readRound rec now) ∧
    (e.reader = .reading → ∀ rec, rec.length ≤ e.conn.config.maxRecordSize.toNat →
      Machine.run step e (e.roundLabels rec now) = some (e.readRound rec now).1) := by
  refine ⟨fun first second h => readRound_append h e second now, ?_,
    fun hreader rec hsize => run_readRound hreader hsize now⟩
  intro rec rec' hpadded
  unfold readRound
  rw [e.conn.handleRecord_padded hpadded now]

end Endpoint

/-- Once the parameters have come, a limit with padding after it and a STREAM frame that
takes up the rest of its record do the same in one record as in two, and as in one record
with more padding between them: the limit is raised, and the data is there. -/
theorem boundaries_meaningless_padding :
    ∃ e : Endpoint, e.Reachable (Config.normalized none) true ∧ e.conn.ready = true ∧
      e.conn.sendMax = 0 ∧ e.conn.count = 0 ∧
      (e.readRound [0x10, 9, 0] 0).1.conn.sendMax = 9 ∧
      (((e.readRound [0x10, 9, 0] 0).1.readRound [0x08, 2, 7] 0).1.conn.heap 0).unread = [7] ∧
      ((e.readRound [0x10, 9, 0] 0).1.readRound [0x08, 2, 7] 0).1.conn.closeErr = none ∧
      e.readRound [0x10, 9, 0, 0x08, 2, 7] 0 =
        (((e.readRound [0x10, 9, 0] 0).1.readRound [0x08, 2, 7] 0).1,
          (e.readRound [0x10, 9, 0] 0).2.or
            ((e.readRound [0x10, 9, 0] 0).1.readRound [0x08, 2, 7] 0).2) ∧
      e.readRound [0x10, 9, 0, 0, 0, 0x08, 2, 7] 0 =
        e.readRound [0x10, 9, 0, 0x08, 2, 7] 0 := by
  have hrun : (Machine.run Endpoint.step (Endpoint.new (Config.normalized none) true)
      [.record ((Frame.transportParameters {}).append.getD []) 0]).map (fun e =>
        decide (e.conn.ready = true ∧ e.conn.sendMax = 0 ∧ e.conn.count = 0 ∧
          (e.readRound [0x10, 9, 0] 0).1.conn.sendMax = 9 ∧
          (((e.readRound [0x10, 9, 0] 0).1.readRound [0x08, 2, 7] 0).1.conn.heap 0).unread =
            [7] ∧
          ((e.readRound [0x10, 9, 0] 0).1.readRound [0x08, 2, 7] 0).1.conn.closeErr = none)) =
        some true := by
    decide +kernel
  obtain ⟨e, hrun, hstate⟩ := Option.map_eq_some_iff.mp hrun
  obtain ⟨hready, hsend, hcount, hfirst, hsecond, hopen⟩ := of_decide_eq_true hstate
  have hdelimited : Delimited [0x10, 9, 0] :=
    .cons (show parse [0x10, 9, 0] = .ok (some (.frame (.maxData ⟨9⟩), [0])) by decide +kernel)
      (by decide +kernel) (.nil (by decide +kernel))
  have hpadded : Padded ([0x10, 9] ++ [0, 0x08, 2, 7])
      ([0x10, 9] ++ (List.replicate 2 0 ++ [0, 0x08, 2, 7])) :=
    .later (f := .frame (.maxData ⟨9⟩)) (by decide +kernel) (by decide +kernel) (.here 2 _)
  obtain ⟨hboundary, hpadding, -⟩ := Endpoint.boundaries_meaningless e 0
  exact ⟨e, ⟨_, hrun⟩, hready, hsend, hcount, hfirst, hsecond, hopen,
    hboundary _ _ hdelimited, hpadding _ _ hpadded⟩

end Qmux
