import Qmux.Conn.Handlers
import Qmux.Wire.RoundTrip
import Qmux.Wire.Sizes

/-!
The frames of whole records. A record is read by applying `Parse` until it
returns the nil frame. Each frame takes at least one byte, so this ends; and
what comes out is what was written, whatever padding there is between the
frames.
-/

namespace Qmux.Wire

open Varint

/-- Applying `Parse` until it returns the nil frame yields `fs`. -/
inductive Parses [Quicvarint] : Bytes → List Parsed → Prop where
  | nil {b : Bytes} (hend : parse b = .ok none) : Parses b []
  | cons {b rest : Bytes} {f : Parsed} {fs : List Parsed} (hparse : parse b = .ok (some (f, rest)))
      (hrest : Parses rest fs) : Parses b (f :: fs)

/-- Every integer of the frame fits its encoding. -/
def Frame.Fits : Frame → Prop
  | .resetStream f => f.streamID ≤ maxVarint ∧ f.code ≤ maxVarint ∧ f.finalSize ≤ maxVarint
  | .stopSending f => f.streamID ≤ maxVarint ∧ f.code ≤ maxVarint
  | .stream f => f.streamID ≤ maxVarint ∧ f.offset ≤ maxVarint ∧ f.data.length ≤ maxVarint
  | .maxData f => f.max ≤ maxVarint
  | .maxStreamData f => f.streamID ≤ maxVarint ∧ f.max ≤ maxVarint
  | .maxStreams f => f.max ≤ maxVarint
  | .connectionClose f =>
      f.code ≤ maxVarint ∧ f.frameType ≤ maxVarint ∧ f.reason.length ≤ maxVarint
  | .datagram f => f.data.length ≤ maxVarint
  | .ping f => f.sequence ≤ maxVarint
  | .transportParameters p => ∀ f, p.get f ≤ maxVarint

/-- The encodings of frames with padding before each and after the last. -/
def appendPadded [Quicvarint] : List (Nat × Frame) → Nat → Option Bytes
  | [], last => some (List.replicate last 0)
  | (padding, f) :: more, last => do
      let e ← f.append
      let b ← appendPadded more last
      return List.replicate padding 0 ++ (e ++ b)

section Append

variable [Quicvarint]

private theorem exists_appendEntry (f : Param) {v : Nat} (hv : v ≤ maxVarint) :
    ∃ entry, Parameters.appendEntry f v = some entry := by
  have hid : f.id ≤ maxVarint := by
    cases f <;> decide
  obtain ⟨value, hvalue⟩ := exists_append hv
  have hsize : Quicvarint.len v ≤ maxVarint := by
    rw [← Quicvarint.append_length v value hvalue]
    exact (append_length_le hvalue).trans (by decide)
  obtain ⟨id, hid⟩ := exists_append hid
  obtain ⟨size, hsize⟩ := exists_append hsize
  refine ⟨id ++ size ++ value, ?_⟩
  simp only [Parameters.appendEntry, hid, hsize, hvalue, Option.bind_eq_bind, Option.bind_some,
    Option.pure_def]

private theorem exists_appendFields {p : Parameters} (hp : ∀ f, p.get f ≤ maxVarint)
    (fs : List Param) : ∃ b, p.appendFields fs = some b := by
  induction fs with
  | nil => exact ⟨[], rfl⟩
  | cons f fs ih =>
      obtain ⟨b, hb⟩ := ih
      obtain ⟨entry, hentry⟩ := exists_appendEntry f (hp f)
      unfold Parameters.appendFields
      split_ifs with hzero
      · exact ⟨b, hb⟩
      · exact ⟨entry ++ b, by
          simp only [hentry, hb, Option.bind_eq_bind, Option.bind_some, Option.pure_def]⟩

/-- A frame whose integers fit is encoded. -/
theorem Frame.Fits.exists_append {f : Frame} (h : f.Fits) : ∃ e, f.append = some e := by
  cases f with
  | resetStream f =>
      obtain ⟨x, hx⟩ := Wire.exists_append h.1
      obtain ⟨y, hy⟩ := Wire.exists_append h.2.1
      obtain ⟨z, hz⟩ := Wire.exists_append h.2.2
      simp [Frame.append, ResetStream.append, hx, hy, hz]
  | stopSending f =>
      obtain ⟨x, hx⟩ := Wire.exists_append h.1
      obtain ⟨y, hy⟩ := Wire.exists_append h.2
      simp [Frame.append, StopSending.append, hx, hy]
  | stream f =>
      obtain ⟨x, hx⟩ := Wire.exists_append h.1
      obtain ⟨y, hy⟩ := Wire.exists_append h.2.1
      obtain ⟨z, hz⟩ := Wire.exists_append h.2.2
      by_cases hoff : f.offset > 0 <;> simp [Frame.append, Stream.append, hx, hy, hz, hoff]
  | maxData f =>
      obtain ⟨x, hx⟩ := Wire.exists_append h
      simp [Frame.append, MaxData.append, hx]
  | maxStreamData f =>
      obtain ⟨x, hx⟩ := Wire.exists_append h.1
      obtain ⟨y, hy⟩ := Wire.exists_append h.2
      simp [Frame.append, MaxStreamData.append, hx, hy]
  | maxStreams f =>
      obtain ⟨x, hx⟩ := Wire.exists_append h
      simp [Frame.append, MaxStreams.append, hx]
  | connectionClose f =>
      obtain ⟨x, hx⟩ := Wire.exists_append h.1
      obtain ⟨y, hy⟩ := Wire.exists_append h.2.1
      obtain ⟨z, hz⟩ := Wire.exists_append h.2.2
      by_cases hkind : f.application = true <;>
        simp [Frame.append, ConnectionClose.append, hx, hy, hz, hkind]
  | datagram f =>
      obtain ⟨x, hx⟩ := Wire.exists_append h
      simp [Frame.append, Datagram.append, hx]
  | ping f =>
      obtain ⟨x, hx⟩ := Wire.exists_append h
      have htype : (if f.response then typePingResponse else typePingRequest) ≤ maxVarint := by
        split_ifs <;> decide
      obtain ⟨t, ht⟩ := Wire.exists_append htype
      simp [Frame.append, Ping.append, hx, ht]
  | transportParameters p =>
      have htype : typeTransportParameters ≤ maxVarint := by decide
      obtain ⟨t, ht⟩ := Wire.exists_append htype
      obtain ⟨b, hb⟩ := exists_appendFields h Param.all
      have hsize : b.length ≤ maxVarint :=
        (Parameters.appendFields_length hb).trans (by decide)
      obtain ⟨size, hsize⟩ := Wire.exists_append hsize
      simp [Frame.append, TransportParameters.append, Parameters.append, hb, ht, hsize]

end Append

section Read

variable [Quicvarint]

omit [Quicvarint] in
private theorem stream_fits {t : Nat} {f : Stream} {streamID offset size : Bytes}
    (hstream : Encodes f.streamID streamID)
    (hoffset : if t &&& streamBitOff ≠ 0 then Encodes f.offset offset
      else f.offset = 0 ∧ offset = [])
    (hlen : (streamID ++ (offset ++ (size ++ f.data))).length ≤ maxVarint) :
    (Frame.stream f).Fits := by
  refine ⟨hstream.le, ?_, ?_⟩
  · split_ifs at hoffset
    · exact hoffset.le
    · rw [hoffset.1]
      exact Nat.zero_le _
  · simp only [List.length_append] at hlen
    omega

/-- A frame that was read can be sent again, and a parser makes the same of
it. -/
theorem Body.sendable {t : Nat} {f : Frame} {body rest : Bytes}
    (h : Body t (.frame f) body rest) :
    (body.length ≤ maxVarint → f.Fits) ∧ f.Acceptable ∧ f.received = f := by
  cases h with
  | resetStream hstream hcode hsize =>
      exact ⟨fun _ => ⟨hstream.le, hcode.le, hsize.le⟩, trivial, rfl⟩
  | stopSending hstream hcode => exact ⟨fun _ => ⟨hstream.le, hcode.le⟩, trivial, rfl⟩
  | stream _ _ hstream hoffset _ => exact ⟨stream_fits hstream hoffset, trivial, rfl⟩
  | maxData hmax => exact ⟨fun _ => hmax.le, trivial, rfl⟩
  | maxStreamData hstream hmax => exact ⟨fun _ => ⟨hstream.le, hmax.le⟩, trivial, rfl⟩
  | maxStreams hmax hlegal => exact ⟨fun _ => hmax.le, hlegal, rfl⟩
  | @transportClose f _ _ _ _ hkind hcode htype hsize =>
      refine ⟨fun _ => ⟨hcode.le, htype.le, hsize.le⟩, trivial, ?_⟩
      obtain ⟨application, code, frameType, reason⟩ := f
      obtain rfl : application = false := hkind
      rfl
  | @applicationClose f _ _ _ hkind htype hcode hsize =>
      refine ⟨fun _ => ⟨hcode.le, htype ▸ Nat.zero_le _, hsize.le⟩, trivial, ?_⟩
      obtain ⟨application, code, frameType, reason⟩ := f
      obtain rfl : application = true := hkind
      obtain rfl : frameType = 0 := htype
      rfl
  | datagram => exact ⟨fun hlen => hlen, trivial, rfl⟩
  | datagramLen hsize => exact ⟨fun _ => hsize.le, trivial, rfl⟩
  | @transportParameters p params size _ xs hsize hsplits haccepted hfilled =>
      have hparams := parseParameters_iff.mpr ⟨xs, hsplits, haccepted, hfilled⟩
      obtain ⟨-, hbidi, huni, hrecord⟩ := parseParameters_ok.mp hparams
      refine ⟨fun _ => (parseParameters_bounded hparams).1, ⟨hbidi, huni, Or.inr hrecord⟩, ?_⟩
      have hne : p.maxRecordSize ≠ 0 := by
        have hpos : 0 < defaultMaxRecordSize := by decide
        omega
      simp [Frame.received, Parameters.received, hne]
  | ping hsequence => exact ⟨fun _ => hsequence.le, trivial, rfl⟩

theorem Parses.frames_eq {b : Bytes} {fs : List Parsed} (h : Parses b fs) : frames b = fs := by
  have hfuel : ∀ fuel, b.length ≤ fuel → framesFrom fuel b = fs := by
    induction h with
    | nil hend =>
        intro fuel _
        cases fuel with
        | zero => rfl
        | succ fuel => simp only [framesFrom, hend]
    | @cons b rest f fs hparse _ ih =>
        intro fuel hlen
        have hshort := (parse_bounded hparse).2
        cases fuel with
        | zero => omega
        | succ fuel =>
            simp only [framesFrom, hparse]
            rw [ih fuel (by omega)]
  exact hfuel b.length (Nat.le_refl _)

/-- The frames of a record were parsed. -/
theorem parse_of_mem_frames {b : Bytes} {f : Parsed} (hf : f ∈ frames b) :
    ∃ b' rest, parse b' = .ok (some (f, rest)) := by
  have hfuel : ∀ fuel b, f ∈ framesFrom fuel b → ∃ b' rest, parse b' = .ok (some (f, rest)) := by
    intro fuel
    induction fuel with
    | zero =>
        intro b hf
        cases hf
    | succ fuel ih =>
        intro b hf
        unfold framesFrom at hf
        split at hf
        · rename_i g rest hparse
          rcases List.mem_cons.mp hf with rfl | hf
          · exact ⟨b, rest, hparse⟩
          · exact ih rest hf
        · cases hf
  exact hfuel b.length b hf

private theorem appendPadded_parses (xs : List (Nat × Frame)) (last : Nat)
    (hxs : ∀ x ∈ xs, x.2.Fits ∧ x.2.Acceptable) :
    ∃ b, appendPadded xs last = some b ∧ Parses b (xs.map fun x => .frame x.2.received) := by
  induction xs with
  | nil => exact ⟨_, rfl, .nil (parse_zeros last)⟩
  | cons x xs ih =>
      obtain ⟨padding, f⟩ := x
      obtain ⟨hfits, hf⟩ := hxs (padding, f) List.mem_cons_self
      obtain ⟨b, hb, hparses⟩ := ih (fun x hx => hxs x (List.mem_cons_of_mem _ hx))
      obtain ⟨e, he⟩ := hfits.exists_append
      refine ⟨List.replicate padding 0 ++ (e ++ b), ?_, .cons ?_ hparses⟩
      · simp only [appendPadded, he, hb, Option.bind_eq_bind, Option.bind_some, Option.pure_def]
      · rw [parse_padding]
        exact parse_append he hf b

/-- Frames that are written with any padding between them are read back in
order, up to what `received` says; and a frame that was read is read again from
its own encoding in front of the same bytes. Its encoding exists unless a field
without a length of its own is longer than any length that can be written. -/
theorem frames_round_trip :
    (∀ (xs : List (Nat × Frame)) (last : Nat), (∀ x ∈ xs, x.2.Fits ∧ x.2.Acceptable) →
      ∃ b, appendPadded xs last = some b ∧
        Parses b (xs.map fun x => .frame x.2.received) ∧
        frames b = xs.map fun x => .frame x.2.received) ∧
    (∀ (b : Bytes) (f : Frame) (r : Bytes), parse b = .ok (some (.frame f, r)) →
      (b.length ≤ maxVarint → ∃ e, f.append = some e) ∧
        ∀ e, f.append = some e → parse (e ++ r) = .ok (some (.frame f, r))) := by
  constructor
  · intro xs last hxs
    obtain ⟨b, hb, hparses⟩ := appendPadded_parses xs last hxs
    exact ⟨b, hb, hparses, hparses.frames_eq⟩
  · intro b f r h
    obtain ⟨k, e, rfl, t, type, body, htype, hbody, rfl⟩ := parse_iff.mp h
    obtain ⟨hfits, hf, hsame⟩ := hbody.sendable
    constructor
    · intro hlen
      simp only [List.length_append] at hlen
      exact (hfits (by omega)).exists_append
    · intro e he
      rw [parse_append he hf, hsame]

end Read

/-- Padding on both sides, and a close whose frame type is not sent. -/
theorem frames_round_trip_padded :
    ∃ b, appendPadded [(2, .stream ⟨4, 70, [1, 2], true⟩), (0, .connectionClose ⟨true, 7, 9, []⟩),
        (1, .transportParameters { initialMaxData := 3 })] 1 = some b ∧
      frames b = [.frame (.stream ⟨4, 70, [1, 2], true⟩),
        .frame (.connectionClose ⟨true, 7, 0, []⟩),
        .frame (.transportParameters { initialMaxData := 3, maxRecordSize := 16382 })] := by
  have hparams : ∀ f, ({ initialMaxData := 3 } : Parameters).get f ≤ maxVarint := by
    intro f
    cases f <;> decide
  obtain ⟨b, hb, -, hframes⟩ := frames_round_trip.1
    [(2, .stream ⟨4, 70, [1, 2], true⟩), (0, .connectionClose ⟨true, 7, 9, []⟩),
      (1, .transportParameters { initialMaxData := 3 })] 1 (by
    intro x hx
    simp only [List.mem_cons, List.not_mem_nil, or_false] at hx
    rcases hx with rfl | rfl | rfl
    · exact ⟨⟨by decide, by decide, by decide⟩, trivial⟩
    · exact ⟨⟨by decide, by decide, by decide⟩, trivial⟩
    · exact ⟨hparams, by decide, by decide, Or.inl rfl⟩)
  exact ⟨b, hb, hframes⟩

end Qmux.Wire

namespace Qmux.Conn

open Wire

section Loop

variable [Quicvarint] [GoAppend]

/-- The length of the record is enough fuel: the loop of `handleRecord` ends by
itself. -/
theorem handleFrames_fuel {fuel : Nat} {rec : Bytes} (hfuel : rec.length ≤ fuel) (c : Conn)
    (now : Time) : handleFrames fuel c rec now = c.handleRecord rec now := by
  have hany : ∀ more, rec.length ≤ more → ∀ fuel, rec.length ≤ fuel → ∀ c : Conn,
      handleFrames fuel c rec now = handleFrames more c rec now := by
    intro more
    induction more generalizing rec with
    | zero =>
        intro hmore fuel _ c
        obtain rfl : rec = [] := List.eq_nil_of_length_eq_zero (Nat.le_zero.mp hmore)
        cases fuel <;> simp [handleFrames]
    | succ more ih =>
        intro hmore fuel hfuel c
        cases fuel with
        | zero =>
            obtain rfl : rec = [] := List.eq_nil_of_length_eq_zero (Nat.le_zero.mp hfuel)
            simp [handleFrames]
        | succ fuel =>
            unfold handleFrames
            split_ifs with hstop
            · rfl
            · cases hparse : parse rec with
              | error e => rfl
              | ok found =>
                  cases found with
                  | none => rfl
                  | some frame =>
                      obtain ⟨f, rest⟩ := frame
                      have hshort := (parse_bounded hparse).2
                      dsimp only
                      rcases c.handleFrameLocked f now with ⟨c', _ | failure⟩
                      · exact ih (by omega) (by omega) fuel (by omega) c'
                      · rfl
  exact hany rec.length (Nat.le_refl _) fuel hfuel c

/-- `handleRecord` is its loop: it stops at the end of the record or once the
connection has ended, and otherwise goes on with what follows the frame. -/
theorem handleRecord_eq (c : Conn) (rec : Bytes) (now : Time) :
    c.handleRecord rec now =
      if rec = [] ∨ c.closeErr.isSome then (c, none)
      else match parse rec with
        | .error e => (c, some (.violation e))
        | .ok none => (c, none)
        | .ok (some (f, rest)) =>
            match c.handleFrameLocked f now with
            | (c, some failure) => (c, some failure)
            | (c, none) => c.handleRecord rest now := by
  rw [← handleFrames_fuel (Nat.le_succ rec.length), handleFrames]
  split_ifs with hstop
  · rfl
  · cases hparse : parse rec with
    | error e => rfl
    | ok found =>
        cases found with
        | none => rfl
        | some frame =>
            obtain ⟨f, rest⟩ := frame
            dsimp only
            rcases c.handleFrameLocked f now with ⟨c', _ | failure⟩
            · exact handleFrames_fuel (Nat.le_of_lt (parse_bounded hparse).2) c' now
            · rfl

end Loop

end Qmux.Conn

namespace Qmux.Wire

/-- `Parse` accepts exactly the grammar. It returns the nil frame for padding
only, and an error otherwise, with the code of the parameters for a whole field
of parameters that is not acceptable and with the code of the encoding in every
other case. A frame leaves less than there was, so the loop of `handleRecord`
ends: the length of the record is enough fuel for it. -/
theorem parse_grammar [Quicvarint] [GoAppend] :
    (∀ (b : Bytes) (f : Parsed) (r : Bytes), parse b = .ok (some (f, r)) ↔
      ∃ k e, b = List.replicate k 0 ++ (e ++ r) ∧ IsFrame f e r) ∧
    (∀ b : Bytes, parse b = .ok none ↔ ∀ x ∈ b, x = 0) ∧
    (∀ b : Bytes, (∃ e, parse b = .error e ∧ e.code = transportParameterError) ↔
      ∃ k b', b = List.replicate k 0 ++ b' ∧ BadParameters b') ∧
    (∀ (b : Bytes) (e : Error), parse b = .error e →
      e.code = frameEncodingError ∨ e.code = transportParameterError) ∧
    (∀ (b : Bytes) (f : Parsed) (r : Bytes), parse b = .ok (some (f, r)) →
      r <:+ b ∧ r.length < b.length) ∧
    (∀ (c : Conn) (rec : Bytes) (now : Time) (fuel : Nat), rec.length ≤ fuel →
      Conn.handleFrames fuel c rec now = c.handleRecord rec now) := by
  refine ⟨fun b f r => parse_iff, ?_, fun b => parse_bad_iff, ?_, ?_, ?_⟩
  · intro b
    rw [parse_none_iff]
    constructor
    · rintro ⟨k, rfl⟩ x hx
      exact List.eq_of_mem_replicate hx
    · intro hzero
      exact ⟨b.length, List.eq_replicate_of_mem hzero⟩
  · intro b e he
    rcases parse_error he with hcode | ⟨hcode, -⟩
    · exact Or.inl hcode
    · exact Or.inr hcode
  · intro b f r h
    refine ⟨?_, (parse_bounded h).2⟩
    obtain ⟨k, e, rfl, -⟩ := parse_iff.mp h
    exact ⟨List.replicate k 0 ++ e, by rw [List.append_assoc]⟩
  · intro c rec now fuel hfuel
    exact Conn.handleFrames_fuel hfuel c now

/-- A STREAM frame whose data is cut off. -/
theorem parse_grammar_short : ∃ e,
    parse [0, 0x0b, 4, 1] = .error e ∧ e.code = frameEncodingError := by
  have hparse : parse [0, 0x0b, 4, 1] =
      .error (encodingError "frame of type 0xb is truncated") := by
    decide +kernel
  refine ⟨_, hparse, ?_⟩
  rcases parse_grammar.2.2.2.1 _ _ hparse with hcode | hcode
  · exact hcode
  · exact absurd hcode (by decide)

end Qmux.Wire
