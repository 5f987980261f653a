import Qmux.Wire.Parsing

/-!
The parser reads back what the encoders write, in front of anything, up to
two normalizations: a `max_record_size` that was not sent reads back as its
default, and an application close has no frame type.
-/

namespace Qmux.Wire

open Varint

section Parameters

open Parameters

/-- The parameters once the fields of `fs` were read. -/
private def fill (p acc : Parameters) (fs : List Param) : Parameters :=
  fs.foldl (fun acc f => if p.get f = 0 then acc else acc.set f (p.get f)) acc

private theorem prohibited_id (f : Param) : prohibitedParam f.id = "" := by
  cases f <;> rfl

/-- What a parser makes of the parameters: a `max_record_size` that was not
sent is the default. -/
def Parameters.received (p : Parameters) : Parameters :=
  { p with
    maxRecordSize := if p.maxRecordSize = 0 then defaultMaxRecordSize else p.maxRecordSize }

private theorem set_of_zero {acc : Parameters} {f : Param} (hzero : acc.get f = 0) (v : Nat) :
    (if v = 0 then acc else acc.set f v) = acc.set f v := by
  split_ifs with hv
  · subst hv
    cases f <;> simp only [Parameters.get] at hzero <;> simp [Parameters.set, ← hzero]
  · rfl

private theorem fill_all (p : Parameters) :
    fill p { maxRecordSize := defaultMaxRecordSize } Param.all = p.received := by
  unfold fill Param.all
  simp only [List.foldl_cons, List.foldl_nil]
  rw [set_of_zero (f := .maxIdleTimeout) rfl, set_of_zero (f := .initialMaxData) rfl,
    set_of_zero (f := .initialMaxStreamDataBidiLoc) rfl,
    set_of_zero (f := .initialMaxStreamDataBidiRem) rfl,
    set_of_zero (f := .initialMaxStreamDataUni) rfl, set_of_zero (f := .initialMaxStreamsBidi) rfl,
    set_of_zero (f := .initialMaxStreamsUni) rfl, set_of_zero (f := .maxDatagramFrameSize) rfl]
  unfold Parameters.received
  simp only [Parameters.get, Parameters.set]
  by_cases hzero : p.maxRecordSize = 0 <;> simp [hzero]

variable [Quicvarint]

private theorem appendEntry_splits {f : Param} {v : Nat} {entry : Bytes}
    (hentry : appendEntry f v = some entry) :
    ∃ value, Encodes v value ∧ ∀ {rest : Bytes} {xs : List Entry}, Splits rest xs →
      Splits (entry ++ rest) (⟨f.id, value⟩ :: xs) := by
  unfold appendEntry at hentry
  simp only [Option.bind_eq_bind, Option.pure_def, Option.bind_eq_some_iff,
    Option.some.injEq] at hentry
  obtain ⟨id, hid, size, hsize, value, hvalue, rfl⟩ := hentry
  rw [← Quicvarint.append_length v value hvalue] at hsize
  refine ⟨value, append_encodes hvalue, ?_⟩
  intro rest xs hrest
  simp only [List.append_assoc]
  exact Splits.cons (x := ⟨f.id, value⟩) (append_encodes hid) (append_encodes hsize) hrest

/-- The loop loads the entries that `append` wrote. -/
private theorem appendFields_loads (p acc : Parameters) {fs : List Param} {b : Bytes}
    (hfields : p.appendFields fs = some b) (hnodup : fs.Nodup) (seen : List Nat)
    (hseen : ∀ f ∈ fs, f.id ∉ seen) : ∃ xs, Splits b xs ∧ Loads seen acc xs (fill p acc fs) := by
  induction fs generalizing acc b seen with
  | nil =>
      obtain rfl : [] = b := Option.some.inj hfields
      exact ⟨[], .nil, .nil⟩
  | cons f rest ih =>
      obtain ⟨hf, hrest⟩ := List.nodup_cons.mp hnodup
      unfold appendFields at hfields
      unfold fill
      rw [List.foldl_cons]
      split_ifs at hfields ⊢ with hzero
      · exact ih acc hfields hrest seen (fun g hg => hseen g (List.mem_cons_of_mem f hg))
      · simp only [Option.bind_eq_bind, Option.pure_def, Option.bind_eq_some_iff,
          Option.some.injEq] at hfields
        obtain ⟨entry, hentry, more, hmore, rfl⟩ := hfields
        obtain ⟨value, hvalue, hsplits⟩ := appendEntry_splits hentry
        have hlater : ∀ g ∈ rest, g.id ∉ f.id :: seen := by
          intro g hg hmem
          rcases List.mem_cons.mp hmem with heq | hmem
          · exact hf (id_inj heq ▸ hg)
          · exact hseen g (List.mem_cons_of_mem f hg) hmem
        obtain ⟨xs, hxs, hloads⟩ := ih (acc.set f (p.get f)) hmore hrest (f.id :: seen) hlater
        exact ⟨_, hsplits hxs, .known (prohibited_id f) (hseen f List.mem_cons_self)
          (field_eq_some.mpr rfl) hvalue hloads⟩

/-- The parameters a parser accepts. -/
def Parameters.Acceptable (p : Parameters) : Prop :=
  p.initialMaxStreamsBidi ≤ maxStreams ∧ p.initialMaxStreamsUni ≤ maxStreams ∧
    (p.maxRecordSize = 0 ∨ defaultMaxRecordSize ≤ p.maxRecordSize)

theorem parseParameters_append {p : Parameters} {b : Bytes} (happend : p.append = some b)
    (hp : p.Acceptable) : parseParameters b = .ok p.received := by
  obtain ⟨xs, hsplits, hloads⟩ := appendFields_loads p .defaults happend (by decide) []
    (fun f _ hmem => by cases hmem)
  have hfill : fill p .defaults Param.all = p.received := fill_all p
  rw [hfill] at hloads
  have hsize : defaultMaxRecordSize ≤ p.received.maxRecordSize := by
    unfold Parameters.received
    dsimp only
    split_ifs with hzero
    · exact Nat.le_refl _
    · exact hp.2.2.resolve_left hzero
  exact parseParameters_ok.mpr
    ⟨(parseEntries_iff (Nat.le_refl _)).mpr ⟨xs, hsplits, hloads⟩, hp.1, hp.2.1, hsize⟩

end Parameters

section Frames

variable [Quicvarint]

private theorem small_encodes {t : Nat} (ht : t < 64) : Encodes t [UInt8.ofNat t] :=
  append_encodes (Quicvarint.append_small t ht)

/-- What the parser makes of a frame that was sent. -/
def Frame.received : Frame → Frame
  | .transportParameters p => .transportParameters p.received
  | .connectionClose f =>
      .connectionClose { f with frameType := if f.application then 0 else f.frameType }
  | f => f

/-- The frames that the parser accepts, of those that can be encoded. -/
def Frame.Acceptable : Frame → Prop
  | .maxStreams f => f.max ≤ Wire.maxStreams
  | .transportParameters p => p.Acceptable
  | _ => True

private theorem resetStream_isFrame {f : ResetStream} {e : Bytes} (happend : f.append = some e)
    (rest : Bytes) : IsFrame (.frame (.resetStream f)) e rest := by
  unfold ResetStream.append at happend
  simp only [Option.bind_eq_bind, Option.pure_def, Option.bind_eq_some_iff,
    Option.some.injEq] at happend
  obtain ⟨streamID, hstream, code, hcode, size, hsize, rfl⟩ := happend
  exact ⟨_, _, _, small_encodes (by decide), .resetStream (append_encodes hstream)
    (append_encodes hcode) (append_encodes hsize), rfl⟩

private theorem stopSending_isFrame {f : StopSending} {e : Bytes} (happend : f.append = some e)
    (rest : Bytes) : IsFrame (.frame (.stopSending f)) e rest := by
  unfold StopSending.append at happend
  simp only [Option.bind_eq_bind, Option.pure_def, Option.bind_eq_some_iff,
    Option.some.injEq] at happend
  obtain ⟨streamID, hstream, code, hcode, rfl⟩ := happend
  exact ⟨_, _, _, small_encodes (by decide), .stopSending (append_encodes hstream)
    (append_encodes hcode), rfl⟩

omit [Quicvarint] in
/-- The bits of the type byte tell which fields follow. -/
private theorem type_bits (f : Stream) :
    (typeStream ≤ f.type ∧ f.type ≤ typeStreamMax) ∧ f.type < 64 ∧
      (f.type &&& streamBitOff ≠ 0 ↔ f.offset > 0) ∧ f.type &&& streamBitLen ≠ 0 ∧
      f.fin = decide (f.type &&& streamBitFin ≠ 0) := by
  unfold Stream.type
  by_cases hoff : f.offset > 0 <;> cases f.fin <;> simp [hoff] <;> decide

private theorem stream_isFrame {f : Stream} {e : Bytes} (happend : f.append = some e)
    (rest : Bytes) : IsFrame (.frame (.stream f)) e rest := by
  obtain ⟨hrange, hsmall, hbitOff, hbitLen, hbitFin⟩ := type_bits f
  have hlength {size : Bytes} (hsize : Quicvarint.append f.data.length = some size) :
      if f.type &&& streamBitLen ≠ 0 then Encodes f.data.length size
      else size = [] ∧ rest = [] := by
    rw [if_pos hbitLen]
    exact append_encodes hsize
  unfold Stream.append at happend
  by_cases hoff : f.offset > 0
  · simp only [hoff, if_true, Option.bind_eq_bind, Option.pure_def, Option.bind_eq_some_iff,
      Option.some.injEq] at happend
    obtain ⟨streamID, hstream, offset, hoffset, size, hsize, rfl⟩ := happend
    refine ⟨_, _, _, small_encodes hsmall, .stream hrange hbitFin (append_encodes hstream)
      ?_ (hlength hsize), rfl⟩
    rw [if_pos (hbitOff.mpr hoff)]
    exact append_encodes hoffset
  · simp only [hoff, if_false, Option.bind_eq_bind, Option.pure_def, Option.bind_eq_some_iff,
      Option.bind_some, Option.some.injEq] at happend
    obtain ⟨streamID, hstream, size, hsize, rfl⟩ := happend
    refine ⟨_, _, _, small_encodes hsmall, .stream hrange hbitFin (append_encodes hstream)
      ?_ (hlength hsize), rfl⟩
    rw [if_neg (mt hbitOff.mp hoff)]
    exact ⟨Nat.eq_zero_of_not_pos hoff, rfl⟩

private theorem maxData_isFrame {f : MaxData} {e : Bytes} (happend : f.append = some e)
    (rest : Bytes) : IsFrame (.frame (.maxData f)) e rest := by
  unfold MaxData.append at happend
  simp only [Option.bind_eq_bind, Option.pure_def, Option.bind_eq_some_iff,
    Option.some.injEq] at happend
  obtain ⟨max, hmax, rfl⟩ := happend
  exact ⟨_, _, _, small_encodes (by decide), .maxData (append_encodes hmax), rfl⟩

private theorem maxStreamData_isFrame {f : MaxStreamData} {e : Bytes}
    (happend : f.append = some e) (rest : Bytes) :
    IsFrame (.frame (.maxStreamData f)) e rest := by
  unfold MaxStreamData.append at happend
  simp only [Option.bind_eq_bind, Option.pure_def, Option.bind_eq_some_iff,
    Option.some.injEq] at happend
  obtain ⟨streamID, hstream, max, hmax, rfl⟩ := happend
  exact ⟨_, _, _, small_encodes (by decide), .maxStreamData (append_encodes hstream)
    (append_encodes hmax), rfl⟩

/-- A MAX_STREAMS frame is read back if its limit is legal, and refused if it
is not. -/
theorem parse_maxStreams {f : MaxStreams} {e : Bytes} (happend : f.append = some e)
    (rest : Bytes) :
    parse (e ++ rest) =
      if f.max ≤ maxStreams then .ok (some (.frame (.maxStreams f), rest))
      else .error (encodingError "MAX_STREAMS above 2^60") := by
  unfold MaxStreams.append at happend
  simp only [Option.bind_eq_bind, Option.pure_def, Option.bind_eq_some_iff,
    Option.some.injEq] at happend
  obtain ⟨max, hmax, rfl⟩ := happend
  have hlt : (if f.uni = true then typeMaxStreamsUni else typeMaxStreamsBidi) < 64 := by
    split_ifs <;> decide
  have hne : (if f.uni = true then typeMaxStreamsUni else typeMaxStreamsBidi) ≠ 0 := by
    split_ifs <;> decide
  have hkind : kind (if f.uni = true then typeMaxStreamsUni else typeMaxStreamsBidi) =
      some .maxStreams := by
    split_ifs <;> rfl
  have hparse := parse_type (small_encodes hlt) hne (max ++ rest)
  rw [List.singleton_append, ← List.cons_append] at hparse
  rw [hparse]
  by_cases hle : f.max ≤ maxStreams
  · rw [if_pos hle]
    exact parseBody_complete (.maxStreams (append_encodes hmax) hle)
  · rw [if_neg hle, parseBody_of_kind hkind]
    simp only [parseKind, Reader.varint_append hmax, if_pos (Nat.lt_of_not_le hle)]

private theorem maxStreams_isFrame {f : MaxStreams} {e : Bytes} (happend : f.append = some e)
    (hle : f.max ≤ maxStreams) (rest : Bytes) : IsFrame (.frame (.maxStreams f)) e rest := by
  unfold MaxStreams.append at happend
  simp only [Option.bind_eq_bind, Option.pure_def, Option.bind_eq_some_iff,
    Option.some.injEq] at happend
  obtain ⟨max, hmax, rfl⟩ := happend
  have hlt : (if f.uni = true then typeMaxStreamsUni else typeMaxStreamsBidi) < 64 := by
    split_ifs <;> decide
  exact ⟨_, _, _, small_encodes hlt, .maxStreams (append_encodes hmax) hle, rfl⟩

private theorem connectionClose_isFrame {f : ConnectionClose} {e : Bytes}
    (happend : f.append = some e) (rest : Bytes) :
    IsFrame (.frame (Frame.connectionClose f).received) e rest := by
  obtain ⟨application, code, frameType, reason⟩ := f
  unfold ConnectionClose.append at happend
  cases application with
  | true =>
      simp only [if_true, Option.bind_eq_bind, Option.pure_def, Option.bind_eq_some_iff,
        Option.bind_some, Option.some.injEq] at happend
      obtain ⟨b, hcode, size, hsize, rfl⟩ := happend
      exact ⟨typeApplicationClose, _, _, small_encodes (by decide),
        .applicationClose rfl rfl (append_encodes hcode) (append_encodes hsize), rfl⟩
  | false =>
      simp only [Bool.false_eq_true, if_false, Option.bind_eq_bind, Option.pure_def,
        Option.bind_eq_some_iff, Option.some.injEq] at happend
      obtain ⟨b, hcode, t, ht, size, hsize, rfl⟩ := happend
      exact ⟨typeConnectionClose, _, _, small_encodes (by decide),
        .transportClose rfl (append_encodes hcode) (append_encodes ht) (append_encodes hsize), rfl⟩

private theorem datagram_isFrame {f : Datagram} {e : Bytes} (happend : f.append = some e)
    (rest : Bytes) : IsFrame (.frame (.datagram f)) e rest := by
  unfold Datagram.append at happend
  simp only [Option.bind_eq_bind, Option.pure_def, Option.bind_eq_some_iff,
    Option.some.injEq] at happend
  obtain ⟨size, hsize, rfl⟩ := happend
  exact ⟨_, _, _, small_encodes (by decide), .datagramLen (append_encodes hsize), rfl⟩

private theorem ping_isFrame {f : Ping} {e : Bytes} (happend : f.append = some e)
    (rest : Bytes) : IsFrame (.frame (.ping f)) e rest := by
  unfold Ping.append at happend
  simp only [Option.bind_eq_bind, Option.pure_def, Option.bind_eq_some_iff,
    Option.some.injEq] at happend
  obtain ⟨t, ht, b, hsequence, rfl⟩ := happend
  exact ⟨_, _, _, append_encodes ht, .ping (append_encodes hsequence), rfl⟩

private theorem transportParameters_isFrame {p : Parameters} {e : Bytes}
    (happend : TransportParameters.append p = some e) (hp : p.Acceptable) (rest : Bytes) :
    IsFrame (.frame (.transportParameters p.received)) e rest := by
  unfold TransportParameters.append at happend
  simp only [Option.bind_eq_bind, Option.pure_def, Option.bind_eq_some_iff,
    Option.some.injEq] at happend
  obtain ⟨params, hparams, t, ht, size, hsize, rfl⟩ := happend
  obtain ⟨xs, hsplits, haccepted, hfilled⟩ :=
    parseParameters_iff.mp (parseParameters_append hparams hp)
  exact ⟨_, _, _, append_encodes ht,
    .transportParameters (append_encodes hsize) hsplits haccepted hfilled, rfl⟩

/-- What an encoder writes is in the grammar, whatever follows. -/
theorem append_isFrame {f : Frame} {e : Bytes} (happend : f.append = some e)
    (hf : f.Acceptable) (rest : Bytes) : IsFrame (.frame f.received) e rest := by
  cases f with
  | resetStream f => exact resetStream_isFrame happend rest
  | stopSending f => exact stopSending_isFrame happend rest
  | stream f => exact stream_isFrame happend rest
  | maxData f => exact maxData_isFrame happend rest
  | maxStreamData f => exact maxStreamData_isFrame happend rest
  | maxStreams f => exact maxStreams_isFrame happend hf rest
  | connectionClose f => exact connectionClose_isFrame happend rest
  | datagram f => exact datagram_isFrame happend rest
  | ping f => exact ping_isFrame happend rest
  | transportParameters p => exact transportParameters_isFrame happend hf rest

/-- The parser reads back what an encoder wrote, whatever follows. -/
theorem parse_append {f : Frame} {e : Bytes} (happend : f.append = some e)
    (hf : f.Acceptable) (rest : Bytes) :
    parse (e ++ rest) = .ok (some (.frame f.received, rest)) :=
  parse_iff.mpr ⟨0, e, rfl, append_isFrame happend hf rest⟩

end Frames

end Qmux.Wire
