import Qmux.Wire.Frame

/-!
What `Parse` guarantees of the frames it returns, whatever the peer sent: no
integer exceeds the encoding's range, no stream count exceeds `2 ^ 60`, no
payload exceeds the record, and the rest is strictly shorter.
-/

namespace Qmux.Wire

variable [Quicvarint]

namespace Reader

theorem varint_bounds (r : Reader) :
    (r.varint).1 ≤ maxVarint ∧ (r.varint).2.b.length ≤ r.b.length := by
  refine ⟨r.varint_le, ?_⟩
  unfold varint
  split
  · exact Nat.le_refl _
  · split
    · exact Nat.le_refl _
    · simp

theorem varint_progress (r : Reader) :
    (r.varint).2.failed = true ∧ (r.varint).1 = 0 ∨
      (r.varint).2.b.length < r.b.length := by
  unfold varint
  split
  · rename_i hfailed
    exact Or.inl ⟨hfailed, rfl⟩
  · split
    · exact Or.inl ⟨rfl, rfl⟩
    · rename_i v n hparse
      have hn := Quicvarint.parse_pos _ _ _ hparse
      refine Or.inr ?_
      simp only [List.length_drop]
      omega

omit [Quicvarint] in
theorem bytes_bounds (r : Reader) (n : Nat) :
    (r.bytes n).1.length ≤ r.b.length ∧ (r.bytes n).2.b.length ≤ r.b.length := by
  unfold bytes
  split <;> simp

omit [Quicvarint] in
theorem rest_bounds (r : Reader) :
    (r.rest).1.length ≤ r.b.length ∧ (r.rest).2.b.length ≤ r.b.length := by
  unfold rest
  split <;> simp

end Reader

/-- Every parameter fits its encoding, and no stream count exceeds `2 ^ 60`. -/
def Parameters.Bounded (p : Parameters) : Prop :=
  (∀ f, p.get f ≤ maxVarint) ∧
    p.initialMaxStreamsBidi ≤ maxStreams ∧ p.initialMaxStreamsUni ≤ maxStreams

/-- What a frame of a record of `size` bytes can carry. -/
def Frame.Bounded (size : Nat) : Frame → Prop
  | .resetStream f =>
      f.streamID ≤ maxVarint ∧ f.code ≤ maxVarint ∧ f.finalSize ≤ maxVarint
  | .stopSending f => f.streamID ≤ maxVarint ∧ f.code ≤ maxVarint
  | .stream f =>
      f.streamID ≤ maxVarint ∧ f.offset ≤ maxVarint ∧ f.data.length ≤ size
  | .maxData f => f.max ≤ maxVarint
  | .maxStreamData f => f.streamID ≤ maxVarint ∧ f.max ≤ maxVarint
  | .maxStreams f => f.max ≤ Wire.maxStreams
  | .connectionClose f => f.code ≤ maxVarint ∧ f.reason.length ≤ size
  | .datagram f => f.data.length ≤ size
  | .ping f => f.sequence ≤ maxVarint
  | .transportParameters p => p.Bounded

def Parsed.Bounded (size : Nat) : Parsed → Prop
  | .frame f => f.Bounded size
  | .blocked => True

omit [Quicvarint] in
theorem Parameters.get_set (p : Parameters) (f g : Param) (v : Nat) :
    (p.set f v).get g = if g = f then v else p.get g := by
  cases f <;> cases g <;> rfl

theorem parseEntries_get_le {fuel : Nat} {r : Reader} {seen : List Nat}
    {p q : Parameters} (hp : ∀ f, p.get f ≤ maxVarint)
    (h : parseEntries fuel r seen p = .ok q) : ∀ f, q.get f ≤ maxVarint := by
  induction fuel generalizing r seen p with
  | zero =>
      simp only [parseEntries, Except.ok.injEq] at h
      rw [← h]
      exact hp
  | succ fuel ih =>
      unfold parseEntries at h
      repeat' split at h
      all_goals first
        | cases h
        | exact ih hp h
        | skip
      · exact hp
      · rename_i f _ v width hparse _
        refine ih (fun g => ?_) h
        rw [Parameters.get_set]
        split_ifs
        · exact Quicvarint.parse_le _ _ _ hparse
        · exact hp g

theorem parseParameters_bounded {b : Bytes} {p : Parameters}
    (h : parseParameters b = .ok p) : p.Bounded := by
  unfold parseParameters at h
  cases hentries : parseEntries b.length ⟨b, false⟩ []
      { maxRecordSize := defaultMaxRecordSize } with
  | error e => simp [hentries, bind, Except.bind] at h
  | ok q =>
      simp only [hentries, bind, Except.bind] at h
      split_ifs at h with hstreams hrecord
      have hq : q = p := Except.ok.inj h
      rw [← hq]
      refine ⟨parseEntries_get_le (fun f => ?_) hentries, by omega, by omega⟩
      cases f <;> decide

omit [Quicvarint] in
theorem parsed_eq {t : Nat} {f g : Parsed} {r : Reader} {rest : Bytes}
    (h : parsed t f r = .ok (some (g, rest))) :
    g = f ∧ rest = r.b ∧ r.failed = false := by
  unfold parsed at h
  split_ifs at h with hfailed
  simp only [Except.ok.injEq, Option.some.injEq, Prod.mk.injEq] at h
  exact ⟨h.1.symm, h.2.symm, by simpa using hfailed⟩

/-- A reading step that returns a bounded frame and never gives bytes back. -/
private def Reads (r : Reader) (result : Frame × Reader) : Prop :=
  result.1.Bounded r.b.length ∧ result.2.b.length ≤ r.b.length

private theorem readSized_le (r : Reader) :
    (readSized r).1.length ≤ r.b.length ∧ (readSized r).2.b.length ≤ r.b.length := by
  have hsize := r.varint_bounds.2
  have hbytes := (r.varint).2.bytes_bounds (r.varint).1
  exact ⟨hbytes.1.trans hsize, hbytes.2.trans hsize⟩

private theorem readResetStream_reads (r : Reader) : Reads r (readResetStream r) := by
  have h1 := r.varint_bounds
  have h2 := (r.varint).2.varint_bounds
  have h3 := ((r.varint).2.varint).2.varint_bounds
  exact ⟨⟨h1.1, h2.1, h3.1⟩, h3.2.trans (h2.2.trans h1.2)⟩

private theorem readStopSending_reads (r : Reader) : Reads r (readStopSending r) := by
  have h1 := r.varint_bounds
  have h2 := (r.varint).2.varint_bounds
  exact ⟨⟨h1.1, h2.1⟩, h2.2.trans h1.2⟩

private theorem readMaxStreamData_reads (r : Reader) : Reads r (readMaxStreamData r) := by
  have h1 := r.varint_bounds
  have h2 := (r.varint).2.varint_bounds
  exact ⟨⟨h1.1, h2.1⟩, h2.2.trans h1.2⟩

private theorem readStream_reads (t : Nat) (r : Reader) : Reads r (readStream t r) := by
  have h1 := r.varint_bounds
  unfold readStream Reads
  generalize r.varint = first at h1
  obtain ⟨streamID, r1⟩ := first
  have h2 : (if t &&& streamBitOff ≠ 0 then r1.varint else (0, r1)).1 ≤ maxVarint ∧
      (if t &&& streamBitOff ≠ 0 then r1.varint else (0, r1)).2.b.length ≤
        r1.b.length := by
    split_ifs
    · exact r1.varint_bounds
    · exact ⟨Nat.zero_le _, Nat.le_refl _⟩
  dsimp only at h1 ⊢
  generalize (if t &&& streamBitOff ≠ 0 then r1.varint else (0, r1)) = second at h2
  obtain ⟨offset, r2⟩ := second
  have h3 : (if t &&& streamBitLen ≠ 0 then readSized r2 else r2.rest).1.length ≤
        r2.b.length ∧
      (if t &&& streamBitLen ≠ 0 then readSized r2 else r2.rest).2.b.length ≤
        r2.b.length := by
    split_ifs
    · exact readSized_le r2
    · exact r2.rest_bounds
  dsimp only at h2 ⊢
  exact ⟨⟨h1.1, h2.1, h3.1.trans (h2.2.trans h1.2)⟩, h3.2.trans (h2.2.trans h1.2)⟩

private theorem readConnectionClose_reads (t : Nat) (r : Reader) :
    Reads r (readConnectionClose t r) := by
  have h1 := r.varint_bounds
  unfold readConnectionClose Reads
  generalize r.varint = first at h1
  obtain ⟨code, r1⟩ := first
  have h2 : (if t = typeApplicationClose then (0, r1) else r1.varint).2.b.length ≤
      r1.b.length := by
    split_ifs
    · exact Nat.le_refl _
    · exact r1.varint_bounds.2
  dsimp only at h1 ⊢
  generalize (if t = typeApplicationClose then (0, r1) else r1.varint) = second at h2
  obtain ⟨frameType, r2⟩ := second
  have h3 := readSized_le r2
  dsimp only at h2 ⊢
  exact ⟨⟨h1.1, h3.1.trans (h2.trans h1.2)⟩, h3.2.trans (h2.trans h1.2)⟩

omit [Quicvarint] in
private theorem parsedFrame_bounded {t : Nat} {result : Frame × Reader} {r : Reader}
    {f : Parsed} {rest : Bytes} (h : parsedFrame t result = .ok (some (f, rest)))
    (hreads : Reads r result) :
    f.Bounded r.b.length ∧ rest.length ≤ r.b.length := by
  obtain ⟨rfl, rfl, -⟩ := parsed_eq h
  exact hreads

omit [Quicvarint] in
private theorem parsed_blocked {t : Nat} {r r' : Reader} {f : Parsed} {rest : Bytes}
    (hle : r'.b.length ≤ r.b.length) (h : parsed t .blocked r' = .ok (some (f, rest))) :
    f.Bounded r.b.length ∧ rest.length ≤ r.b.length := by
  obtain ⟨rfl, rfl, -⟩ := parsed_eq h
  exact ⟨trivial, hle⟩

private theorem parseKind_bounded {t : Nat} {r : Reader} {k : Kind} {f : Parsed}
    {rest : Bytes} (h : parseKind t r k = .ok (some (f, rest))) :
    f.Bounded r.b.length ∧ rest.length ≤ r.b.length := by
  have hvarint := r.varint_bounds
  have hsized := readSized_le r
  cases k with
  | resetStream => exact parsedFrame_bounded h (readResetStream_reads r)
  | stopSending => exact parsedFrame_bounded h (readStopSending_reads r)
  | stream => exact parsedFrame_bounded h (readStream_reads t r)
  | maxData => exact parsedFrame_bounded h hvarint
  | maxStreamData => exact parsedFrame_bounded h (readMaxStreamData_reads r)
  | maxStreams =>
      simp only [parseKind] at h
      split_ifs at h with hmax
      exact parsedFrame_bounded h ⟨Nat.le_of_not_lt hmax, hvarint.2⟩
  | dataBlocked => exact parsed_blocked hvarint.2 h
  | streamDataBlocked =>
      exact parsed_blocked ((Reader.varint_bounds _).2.trans hvarint.2) h
  | streamsBlocked =>
      simp only [parseKind] at h
      split_ifs at h with hmax
      exact parsed_blocked hvarint.2 h
  | connectionClose => exact parsedFrame_bounded h (readConnectionClose_reads t r)
  | datagram => exact parsedFrame_bounded h r.rest_bounds
  | datagramLen => exact parsedFrame_bounded h hsized
  | transportParameters =>
      simp only [parseKind] at h
      split at h
      · split_ifs at h with hfailed
        refine parsedFrame_bounded h ⟨⟨fun g => ?_, by decide, by decide⟩, hsized.2⟩
        cases g <;> decide
      · rename_i p hparams
        exact parsedFrame_bounded h ⟨parseParameters_bounded hparams, hsized.2⟩
  | ping => exact parsedFrame_bounded h hvarint

private theorem parseBody_bounded {t : Nat} {r : Reader} {f : Parsed} {rest : Bytes}
    (h : parseBody t r = .ok (some (f, rest))) :
    f.Bounded r.b.length ∧ rest.length ≤ r.b.length := by
  unfold parseBody at h
  split at h
  · cases h
  · exact parseKind_bounded h

omit [Quicvarint] in
theorem Frame.Bounded.mono {m n : Nat} {f : Frame} (hle : m ≤ n) (h : f.Bounded m) :
    f.Bounded n := by
  cases f with
  | stream f => exact ⟨h.1, h.2.1, h.2.2.trans hle⟩
  | connectionClose f => exact ⟨h.1, h.2.trans hle⟩
  | datagram f => exact Nat.le_trans h hle
  | _ => exact h

omit [Quicvarint] in
theorem Parsed.Bounded.mono {m n : Nat} {f : Parsed} (hle : m ≤ n) (h : f.Bounded m) :
    f.Bounded n := by
  cases f with
  | frame f => exact Frame.Bounded.mono hle h
  | blocked => trivial

/-- Every frame `Parse` returns is bounded, and takes at least one byte. -/
theorem parse_bounded {b : Bytes} {f : Parsed} {rest : Bytes}
    (h : parse b = .ok (some (f, rest))) :
    f.Bounded b.length ∧ rest.length < b.length := by
  unfold parse at h
  have hdrop := (List.dropWhile_suffix (l := b) (· == 0)).length_le
  split at h
  · cases h
  · rename_i x tail heq
    rw [heq] at hdrop
    dsimp only at h
    have hvarint := Reader.varint_bounds ⟨x :: tail, false⟩
    have hbody := parseBody_bounded h
    refine ⟨hbody.1.mono (hvarint.2.trans hdrop), ?_⟩
    cases Reader.varint_progress ⟨x :: tail, false⟩ with
    | inl hfailed =>
        rw [hfailed.2] at h
        cases h
    | inr hlt => exact Nat.lt_of_le_of_lt hbody.2 (Nat.lt_of_lt_of_le hlt hdrop)

end Qmux.Wire
