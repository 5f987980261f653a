import Qmux.Wire.Frame

/-!
How long the encodings of frames are. An integer takes at most eight bytes, so
a frame takes little more than the data it carries.
-/

namespace Qmux.Wire

section Lengths

variable [Quicvarint] {e : Bytes}

theorem append_length_le {v : Nat} (h : Quicvarint.append v = some e) : e.length ≤ 8 := by
  rw [Quicvarint.append_length v e h, Quicvarint.len_eq]
  split_ifs <;> decide

theorem ResetStream.append_length {f : ResetStream} (h : f.append = some e) : e.length ≤ 25 := by
  simp only [ResetStream.append, Option.bind_eq_bind, Option.pure_def, Option.bind_eq_some_iff,
    Option.some.injEq] at h
  obtain ⟨streamID, hstream, code, hcode, finalSize, hsize, rfl⟩ := h
  have hstreamLen := append_length_le hstream
  have hcodeLen := append_length_le hcode
  have hsizeLen := append_length_le hsize
  simp only [List.length_cons, List.length_append]
  omega

theorem StopSending.append_length {f : StopSending} (h : f.append = some e) : e.length ≤ 17 := by
  simp only [StopSending.append, Option.bind_eq_bind, Option.pure_def, Option.bind_eq_some_iff,
    Option.some.injEq] at h
  obtain ⟨streamID, hstream, code, hcode, rfl⟩ := h
  have hstreamLen := append_length_le hstream
  have hcodeLen := append_length_le hcode
  simp only [List.length_cons, List.length_append]
  omega

theorem MaxData.append_length {f : MaxData} (h : f.append = some e) : e.length ≤ 9 := by
  simp only [MaxData.append, Option.bind_eq_bind, Option.pure_def, Option.bind_eq_some_iff,
    Option.some.injEq] at h
  obtain ⟨max, hmax, rfl⟩ := h
  have hmaxLen := append_length_le hmax
  rw [List.length_cons]
  omega

theorem MaxStreamData.append_length {f : MaxStreamData} (h : f.append = some e) :
    e.length ≤ 17 := by
  simp only [MaxStreamData.append, Option.bind_eq_bind, Option.pure_def,
    Option.bind_eq_some_iff, Option.some.injEq] at h
  obtain ⟨streamID, hstream, max, hmax, rfl⟩ := h
  have hstreamLen := append_length_le hstream
  have hmaxLen := append_length_le hmax
  simp only [List.length_cons, List.length_append]
  omega

theorem MaxStreams.append_length {f : MaxStreams} (h : f.append = some e) : e.length ≤ 9 := by
  simp only [MaxStreams.append, Option.bind_eq_bind, Option.pure_def, Option.bind_eq_some_iff,
    Option.some.injEq] at h
  obtain ⟨max, hmax, rfl⟩ := h
  have hmaxLen := append_length_le hmax
  rw [List.length_cons]
  omega

theorem Ping.append_length {f : Ping} (h : f.append = some e) : e.length ≤ 16 := by
  simp only [Ping.append, Option.bind_eq_bind, Option.pure_def, Option.bind_eq_some_iff,
    Option.some.injEq] at h
  obtain ⟨type, htype, sequence, hsequence, rfl⟩ := h
  have htypeLen := append_length_le htype
  have hsequenceLen := append_length_le hsequence
  rw [List.length_append]
  omega

/-- `StreamOverhead` is the largest encoding of a STREAM frame without its data. -/
theorem Stream.append_length {f : Stream} (h : f.append = some e) :
    e.length ≤ streamOverhead + f.data.length := by
  have hoverhead : streamOverhead = 25 := rfl
  unfold Stream.append at h
  split_ifs at h
  · simp only [Option.bind_eq_bind, Option.pure_def, Option.bind_eq_some_iff,
      Option.some.injEq] at h
    obtain ⟨streamID, hstream, offset, hoffset, size, hsize, rfl⟩ := h
    have hstreamLen := append_length_le hstream
    have hoffsetLen := append_length_le hoffset
    have hsizeLen := append_length_le hsize
    simp only [List.length_cons, List.length_append]
    omega
  · simp only [Option.bind_eq_bind, Option.pure_def, Option.bind_some, Option.bind_eq_some_iff,
      Option.some.injEq] at h
    obtain ⟨streamID, hstream, size, hsize, rfl⟩ := h
    have hstreamLen := append_length_le hstream
    have hsizeLen := append_length_le hsize
    simp only [List.length_cons, List.length_append, List.length_nil]
    omega

theorem ConnectionClose.append_length {f : ConnectionClose} (h : f.append = some e) :
    e.length ≤ 25 + f.reason.length := by
  unfold ConnectionClose.append at h
  split_ifs at h
  · simp only [Option.bind_eq_bind, Option.pure_def, Option.bind_some, Option.bind_eq_some_iff,
      Option.some.injEq] at h
    obtain ⟨code, hcode, size, hsize, rfl⟩ := h
    have hcodeLen := append_length_le hcode
    have hsizeLen := append_length_le hsize
    simp only [List.length_cons, List.length_append, List.length_nil]
    omega
  · simp only [Option.bind_eq_bind, Option.pure_def, Option.bind_eq_some_iff,
      Option.some.injEq] at h
    obtain ⟨code, hcode, frameType, htype, size, hsize, rfl⟩ := h
    have hcodeLen := append_length_le hcode
    have htypeLen := append_length_le htype
    have hsizeLen := append_length_le hsize
    simp only [List.length_cons, List.length_append]
    omega

/-- `Datagram.Len` is the size of the encoded frame. -/
theorem Datagram.append_length {f : Datagram} (h : f.append = some e) : e.length = f.len := by
  simp only [Datagram.append, Option.bind_eq_bind, Option.bind_eq_some_iff, Option.pure_def,
    Option.some.injEq] at h
  obtain ⟨size, hsize, rfl⟩ := h
  have hlen := Quicvarint.append_length _ _ hsize
  simp only [List.length_cons, List.length_append, hlen, Datagram.len]
  omega

theorem Parameters.appendEntry_length {f : Param} {v : Nat} (h : appendEntry f v = some e) :
    e.length ≤ 24 := by
  simp only [appendEntry, Option.bind_eq_bind, Option.bind_eq_some_iff, Option.pure_def,
    Option.some.injEq] at h
  obtain ⟨id, hid, size, hsize, value, hvalue, rfl⟩ := h
  have hidLen := append_length_le hid
  have hsizeLen := append_length_le hsize
  have hvalueLen := append_length_le hvalue
  simp only [List.length_append]
  omega

theorem Parameters.appendFields_length {p : Parameters} {fs : List Param}
    (h : p.appendFields fs = some e) : e.length ≤ 24 * fs.length := by
  induction fs generalizing e with
  | nil =>
      rw [← Option.some.inj h]
      exact Nat.zero_le _
  | cons f fs ih =>
      unfold appendFields at h
      rw [List.length_cons]
      split_ifs at h
      · have hmore := ih h
        omega
      · simp only [Option.bind_eq_bind, Option.bind_eq_some_iff, Option.pure_def,
          Option.some.injEq] at h
        obtain ⟨entry, hentry, more, hmore, rfl⟩ := h
        have hentryLen := appendEntry_length hentry
        have hmoreLen := ih hmore
        rw [List.length_append]
        omega

theorem TransportParameters.append_length {p : Parameters}
    (h : TransportParameters.append p = some e) : e.length ≤ 232 := by
  simp only [TransportParameters.append, Option.bind_eq_bind, Option.bind_eq_some_iff,
    Option.pure_def, Option.some.injEq] at h
  obtain ⟨params, hparams, type, htype, size, hsize, rfl⟩ := h
  have hparamsLen : params.length ≤ 24 * 9 := Parameters.appendFields_length hparams
  have htypeLen := append_length_le htype
  have hsizeLen := append_length_le hsize
  simp only [List.length_append]
  omega

end Lengths

end Qmux.Wire
