import Qmux.Wire.Grammar

/-!
The parser against the grammar. It reads every encoding, and a frame that it
returns has an encoding at the front of what it was given: the reader fails for
good once it runs out of bytes, so the one check at the end stands for a check
after every read.
-/

namespace Qmux.Wire

open Varint

section Complete

variable [Quicvarint]

theorem parseBody_of_kind {t : Nat} {k : Kind} (hkind : kind t = some k) (r : Reader) :
    parseBody t r = parseKind t r k := by
  unfold parseBody
  rw [hkind]

omit [Quicvarint] in
private theorem parsed_ok (t : Nat) (f : Parsed) (rest : Bytes) :
    parsed t f ⟨rest, false⟩ = .ok (some (f, rest)) := rfl

private theorem parseBody_stream {t : Nat} {f : Stream} {streamID offset size rest : Bytes}
    (htype : typeStream ≤ t ∧ t ≤ typeStreamMax)
    (hfin : f.fin = decide (t &&& streamBitFin ≠ 0)) (hstream : Encodes f.streamID streamID)
    (hoffset : if t &&& streamBitOff ≠ 0 then Encodes f.offset offset
      else f.offset = 0 ∧ offset = [])
    (hsize : if t &&& streamBitLen ≠ 0 then Encodes f.data.length size
      else size = [] ∧ rest = []) :
    parseBody t ⟨streamID ++ (offset ++ (size ++ f.data)) ++ rest, false⟩ =
      .ok (some (.frame (.stream f), rest)) := by
  have hread : (if t &&& streamBitOff ≠ 0 then Reader.varint ⟨offset ++ (size ++ (f.data ++ rest)),
      false⟩ else (0, ⟨offset ++ (size ++ (f.data ++ rest)), false⟩)) =
      (f.offset, ⟨size ++ (f.data ++ rest), false⟩) := by
    split_ifs at hoffset ⊢ with hbit
    · exact Reader.varint_encodes hoffset _
    · rw [hoffset.1, hoffset.2, List.nil_append]
  have hdata : (if t &&& streamBitLen ≠ 0 then readSized ⟨size ++ (f.data ++ rest), false⟩
      else Reader.rest ⟨size ++ (f.data ++ rest), false⟩) = (f.data, ⟨rest, false⟩) := by
    split_ifs at hsize ⊢ with hbit
    · exact readSized_encodes hsize rest
    · rw [hsize.1, hsize.2, List.nil_append, List.append_nil]
      rfl
  rw [parseBody_of_kind (kind_stream htype)]
  simp only [parseKind, readStream, List.append_assoc, Reader.varint_encodes hstream, hread,
    hdata, parsedFrame, parsed_ok, ← hfin]

/-- The parser reads every encoding of the grammar. -/
theorem parseBody_complete {t : Nat} {f : Parsed} {body rest : Bytes}
    (h : Body t f body rest) : parseBody t ⟨body ++ rest, false⟩ = .ok (some (f, rest)) := by
  cases h with
  | resetStream hstream hcode hsize =>
      rw [parseBody_of_kind (k := .resetStream) rfl]
      simp only [parseKind, readResetStream, List.append_assoc, Reader.varint_encodes hstream,
        Reader.varint_encodes hcode, Reader.varint_encodes hsize, parsedFrame, parsed_ok]
  | stopSending hstream hcode =>
      rw [parseBody_of_kind (k := .stopSending) rfl]
      simp only [parseKind, readStopSending, List.append_assoc, Reader.varint_encodes hstream,
        Reader.varint_encodes hcode, parsedFrame, parsed_ok]
  | stream htype hfin hstream hoffset hsize =>
      exact parseBody_stream htype hfin hstream hoffset hsize
  | maxData hmax =>
      rw [parseBody_of_kind (k := .maxData) rfl]
      simp only [parseKind, Reader.varint_encodes hmax, parsedFrame, parsed_ok]
  | maxStreamData hstream hmax =>
      rw [parseBody_of_kind (k := .maxStreamData) rfl]
      simp only [parseKind, readMaxStreamData, List.append_assoc, Reader.varint_encodes hstream,
        Reader.varint_encodes hmax, parsedFrame, parsed_ok]
  | @maxStreams f max rest hmax hlegal =>
      obtain ⟨uni, limit⟩ := f
      have hkind : kind (if uni = true then typeMaxStreamsUni else typeMaxStreamsBidi) =
          some .maxStreams := by
        cases uni <;> rfl
      have huni : decide ((if uni = true then typeMaxStreamsUni else typeMaxStreamsBidi) =
          typeMaxStreamsUni) = uni := by
        cases uni <;> rfl
      rw [parseBody_of_kind hkind]
      simp only [parseKind, Reader.varint_encodes hmax, if_neg (Nat.not_lt.mpr hlegal),
        parsedFrame, parsed_ok, huni]
  | dataBlocked hmax =>
      rw [parseBody_of_kind (k := .dataBlocked) rfl]
      simp only [parseKind, Reader.varint_encodes hmax, parsed_ok]
  | streamDataBlocked hstream hmax =>
      rw [parseBody_of_kind (k := .streamDataBlocked) rfl]
      simp only [parseKind, List.append_assoc, Reader.varint_encodes hstream,
        Reader.varint_encodes hmax, parsed_ok]
  | @streamsBlocked t v max rest htype hmax hlegal =>
      have hkind : kind t = some .streamsBlocked := by
        rcases htype with rfl | rfl <;> rfl
      rw [parseBody_of_kind hkind]
      simp only [parseKind, Reader.varint_encodes hmax, if_neg (Nat.not_lt.mpr hlegal), parsed_ok]
  | @transportClose f code frameType size rest hkind hcode htype hsize =>
      obtain ⟨application, n, type, reason⟩ := f
      obtain rfl : application = false := hkind
      have hne : typeConnectionClose ≠ typeApplicationClose := by decide
      rw [parseBody_of_kind (k := .connectionClose) rfl]
      simp only [parseKind, readConnectionClose, List.append_assoc, Reader.varint_encodes hcode,
        if_neg hne, Reader.varint_encodes htype, readSized_encodes hsize, parsedFrame, parsed_ok,
        decide_eq_false hne]
  | @applicationClose f code size rest hkind htype hcode hsize =>
      obtain ⟨application, n, type, reason⟩ := f
      obtain rfl : application = true := hkind
      obtain rfl : type = 0 := htype
      rw [parseBody_of_kind (k := .connectionClose) rfl]
      simp only [parseKind, readConnectionClose, List.append_assoc, Reader.varint_encodes hcode,
        if_true, readSized_encodes hsize, parsedFrame, parsed_ok, decide_true]
  | datagram =>
      rw [parseBody_of_kind (k := .datagram) rfl, List.append_nil]
      rfl
  | datagramLen hsize =>
      rw [parseBody_of_kind (k := .datagramLen) rfl]
      simp only [parseKind, List.append_assoc, readSized_encodes hsize, parsedFrame, parsed_ok]
  | transportParameters hsize hsplits haccepted hfilled =>
      have hparams := parseParameters_iff.mpr ⟨_, hsplits, haccepted, hfilled⟩
      rw [parseBody_of_kind (k := .transportParameters) rfl]
      simp only [parseKind, List.append_assoc, readSized_encodes hsize, hparams, parsedFrame,
        parsed_ok]
  | @ping f sequence rest hsequence =>
      obtain ⟨response, n⟩ := f
      have hkind : kind (if response = true then typePingResponse else typePingRequest) =
          some .ping := by
        cases response <;> rfl
      have hresponse : decide ((if response = true then typePingResponse else typePingRequest) =
          typePingResponse) = response := by
        cases response <;> rfl
      rw [parseBody_of_kind hkind]
      simp only [parseKind, Reader.varint_encodes hsequence, parsedFrame, parsed_ok, hresponse]

end Complete

section Sound

variable [Quicvarint]

omit [Quicvarint] in
private theorem parsed_iff {t : Nat} {f g : Parsed} {r : Reader} {rest : Bytes} :
    parsed t f r = .ok (some (g, rest)) ↔ f = g ∧ r = ⟨rest, false⟩ := by
  constructor
  · intro h
    obtain ⟨rfl, rfl, hfailed⟩ := parsed_eq h
    exact ⟨rfl, congrArg (Reader.mk r.b) hfailed⟩
  · rintro ⟨rfl, rfl⟩
    rfl

/-- What is left of `r` after the type is the rest of an encoding of `f` and
then `rest`. -/
private def Follows (t : Nat) (r : Reader) (f : Parsed) (rest : Bytes) : Prop :=
  ∃ body, r = ⟨body ++ rest, false⟩ ∧ Body t f body rest

variable {t : Nat} {r : Reader} {f : Parsed} {rest : Bytes}

private theorem resetStream_follows
    (h : parsedFrame t (readResetStream r) = .ok (some (f, rest))) :
    Follows typeResetStream r f rest := by
  rcases hfirst : r.varint with ⟨streamID, r₁⟩
  rcases hsecond : r₁.varint with ⟨code, r₂⟩
  rcases hthird : r₂.varint with ⟨finalSize, r₃⟩
  simp only [readResetStream, hfirst, hsecond, hthird, parsedFrame, parsed_iff] at h
  obtain ⟨rfl, rfl⟩ := h
  obtain ⟨z, hz, rfl⟩ := Reader.varint_eq.mp hthird
  obtain ⟨y, hy, rfl⟩ := Reader.varint_eq.mp hsecond
  obtain ⟨x, hx, rfl⟩ := Reader.varint_eq.mp hfirst
  exact ⟨x ++ (y ++ z), by simp only [List.append_assoc], .resetStream hx hy hz⟩

private theorem stopSending_follows
    (h : parsedFrame t (readStopSending r) = .ok (some (f, rest))) :
    Follows typeStopSending r f rest := by
  rcases hfirst : r.varint with ⟨streamID, r₁⟩
  rcases hsecond : r₁.varint with ⟨code, r₂⟩
  simp only [readStopSending, hfirst, hsecond, parsedFrame, parsed_iff] at h
  obtain ⟨rfl, rfl⟩ := h
  obtain ⟨y, hy, rfl⟩ := Reader.varint_eq.mp hsecond
  obtain ⟨x, hx, rfl⟩ := Reader.varint_eq.mp hfirst
  exact ⟨x ++ y, by simp only [List.append_assoc], .stopSending hx hy⟩

private theorem maxStreamData_follows
    (h : parsedFrame t (readMaxStreamData r) = .ok (some (f, rest))) :
    Follows typeMaxStreamData r f rest := by
  rcases hfirst : r.varint with ⟨streamID, r₁⟩
  rcases hsecond : r₁.varint with ⟨max, r₂⟩
  simp only [readMaxStreamData, hfirst, hsecond, parsedFrame, parsed_iff] at h
  obtain ⟨rfl, rfl⟩ := h
  obtain ⟨y, hy, rfl⟩ := Reader.varint_eq.mp hsecond
  obtain ⟨x, hx, rfl⟩ := Reader.varint_eq.mp hfirst
  exact ⟨x ++ y, by simp only [List.append_assoc], .maxStreamData hx hy⟩

private theorem stream_follows (htype : typeStream ≤ t ∧ t ≤ typeStreamMax)
    (h : parsedFrame t (readStream t r) = .ok (some (f, rest))) : Follows t r f rest := by
  rcases hfirst : r.varint with ⟨streamID, r₁⟩
  rcases hsecond : (if t &&& streamBitOff ≠ 0 then r₁.varint else (0, r₁)) with ⟨offset, r₂⟩
  rcases hthird : (if t &&& streamBitLen ≠ 0 then readSized r₂ else r₂.rest) with ⟨data, r₃⟩
  simp only [readStream, hfirst, hsecond, hthird, parsedFrame, parsed_iff] at h
  obtain ⟨rfl, rfl⟩ := h
  have hdata : ∃ size, (if t &&& streamBitLen ≠ 0 then Encodes data.length size
      else size = [] ∧ rest = []) ∧ r₂ = ⟨size ++ (data ++ rest), false⟩ := by
    split_ifs at hthird ⊢ with hbit
    · exact readSized_eq.mp hthird
    · obtain ⟨rfl, rfl⟩ := Reader.rest_eq hthird
      exact ⟨[], ⟨rfl, rfl⟩, by simp only [List.nil_append, List.append_nil]⟩
  obtain ⟨size, hsize, rfl⟩ := hdata
  have hoffset : ∃ e, (if t &&& streamBitOff ≠ 0 then Encodes offset e else offset = 0 ∧ e = []) ∧
      r₁ = ⟨e ++ (size ++ (data ++ rest)), false⟩ := by
    split_ifs at hsecond ⊢ with hbit
    · exact Reader.varint_eq.mp hsecond
    · cases hsecond
      exact ⟨[], ⟨rfl, rfl⟩, rfl⟩
  obtain ⟨y, hy, rfl⟩ := hoffset
  obtain ⟨x, hx, rfl⟩ := Reader.varint_eq.mp hfirst
  exact ⟨x ++ (y ++ (size ++ data)), by simp only [List.append_assoc],
    .stream htype rfl hx hy hsize⟩

private theorem connectionClose_follows (htype : t = typeConnectionClose ∨ t = typeApplicationClose)
    (h : parsedFrame t (readConnectionClose t r) = .ok (some (f, rest))) :
    Follows t r f rest := by
  rcases hfirst : r.varint with ⟨code, r₁⟩
  rcases hsecond : (if t = typeApplicationClose then (0, r₁) else r₁.varint) with ⟨type, r₂⟩
  rcases hthird : readSized r₂ with ⟨reason, r₃⟩
  simp only [readConnectionClose, hfirst, hsecond, hthird, parsedFrame, parsed_iff] at h
  obtain ⟨rfl, rfl⟩ := h
  obtain ⟨size, hsize, rfl⟩ := readSized_eq.mp hthird
  rcases htype with rfl | rfl
  · rw [if_neg (by decide)] at hsecond
    obtain ⟨y, hy, rfl⟩ := Reader.varint_eq.mp hsecond
    obtain ⟨x, hx, rfl⟩ := Reader.varint_eq.mp hfirst
    exact ⟨x ++ (y ++ (size ++ reason)), by simp only [List.append_assoc],
      .transportClose rfl hx hy hsize⟩
  · rw [if_pos rfl] at hsecond
    cases hsecond
    obtain ⟨x, hx, rfl⟩ := Reader.varint_eq.mp hfirst
    exact ⟨x ++ (size ++ reason), by simp only [List.append_assoc],
      .applicationClose rfl rfl hx hsize⟩

private theorem parseKind_follows {k : Kind} (htype : k.HasType t)
    (h : parseKind t r k = .ok (some (f, rest))) : Follows t r f rest := by
  have hvarint : ∀ g : Nat → Parsed,
      (∀ v max, Encodes v max → v = (r.varint).1 → Body t (g v) max rest) →
      parsed t (g (r.varint).1) (r.varint).2 = .ok (some (f, rest)) → Follows t r f rest := by
    intro g hbody hparsed
    rcases hfirst : r.varint with ⟨v, r₁⟩
    simp only [hfirst, parsed_iff] at hparsed hbody
    obtain ⟨rfl, rfl⟩ := hparsed
    obtain ⟨x, hx, rfl⟩ := Reader.varint_eq.mp hfirst
    exact ⟨x, rfl, hbody v x hx rfl⟩
  cases k with
  | resetStream =>
      obtain rfl : t = typeResetStream := htype
      exact resetStream_follows h
  | stopSending =>
      obtain rfl : t = typeStopSending := htype
      exact stopSending_follows h
  | stream => exact stream_follows htype h
  | maxData =>
      obtain rfl : t = typeMaxData := htype
      exact hvarint (fun v => .frame (.maxData ⟨v⟩)) (fun v max hmax _ => .maxData hmax) h
  | maxStreamData =>
      obtain rfl : t = typeMaxStreamData := htype
      exact maxStreamData_follows h
  | maxStreams =>
      simp only [parseKind] at h
      split_ifs at h with hlegal
      apply hvarint (fun v => .frame (.maxStreams ⟨t = typeMaxStreamsUni, v⟩)) _ h
      intro v max hmax hv
      have hle : v ≤ maxStreams := hv ▸ Nat.not_lt.mp hlegal
      rcases htype with rfl | rfl
      · exact Body.maxStreams (f := ⟨false, v⟩) hmax hle
      · exact Body.maxStreams (f := ⟨true, v⟩) hmax hle
  | dataBlocked =>
      obtain rfl : t = typeDataBlocked := htype
      exact hvarint (fun _ => .blocked) (fun v max hmax _ => .dataBlocked hmax) h
  | streamDataBlocked =>
      obtain rfl : t = typeStreamDataBlocked := htype
      rcases hfirst : r.varint with ⟨v, r₁⟩
      rcases hsecond : r₁.varint with ⟨w, r₂⟩
      simp only [parseKind, hfirst, hsecond, parsed_iff] at h
      obtain ⟨rfl, rfl⟩ := h
      obtain ⟨y, hy, rfl⟩ := Reader.varint_eq.mp hsecond
      obtain ⟨x, hx, rfl⟩ := Reader.varint_eq.mp hfirst
      exact ⟨x ++ y, by simp only [List.append_assoc], .streamDataBlocked hx hy⟩
  | streamsBlocked =>
      simp only [parseKind] at h
      split_ifs at h with hlegal
      apply hvarint (fun _ => .blocked) _ h
      intro v max hmax hv
      exact .streamsBlocked htype hmax (hv ▸ Nat.not_lt.mp hlegal)
  | connectionClose => exact connectionClose_follows htype h
  | datagram =>
      obtain rfl : t = typeDatagram := htype
      rcases hdata : r.rest with ⟨data, r₁⟩
      simp only [parseKind, hdata, parsedFrame, parsed_iff] at h
      obtain ⟨rfl, rfl⟩ := h
      obtain ⟨rfl, rfl⟩ := Reader.rest_eq hdata
      exact ⟨data, by rw [List.append_nil], .datagram⟩
  | datagramLen =>
      obtain rfl : t = typeDatagramLen := htype
      rcases hdata : readSized r with ⟨data, r₁⟩
      simp only [parseKind, hdata, parsedFrame, parsed_iff] at h
      obtain ⟨rfl, rfl⟩ := h
      obtain ⟨size, hsize, rfl⟩ := readSized_eq.mp hdata
      exact ⟨size ++ data, by simp only [List.append_assoc], .datagramLen hsize⟩
  | transportParameters =>
      obtain rfl : t = typeTransportParameters := htype
      rcases hdata : readSized r with ⟨params, r₁⟩
      simp only [parseKind, hdata, parsedFrame] at h
      cases hparams : parseParameters params with
      | error e =>
          simp only [hparams] at h
          split_ifs at h with hfailed
          rw [parsed_iff] at h
          rw [h.2] at hfailed
          cases hfailed
      | ok p =>
          simp only [hparams, parsed_iff] at h
          obtain ⟨rfl, rfl⟩ := h
          obtain ⟨size, hsize, rfl⟩ := readSized_eq.mp hdata
          obtain ⟨xs, hsplits, haccepted, hfilled⟩ := parseParameters_iff.mp hparams
          exact ⟨size ++ params, by simp only [List.append_assoc],
            .transportParameters hsize hsplits haccepted hfilled⟩
  | ping =>
      apply hvarint (fun v => .frame (.ping ⟨t = typePingResponse, v⟩)) _ h
      intro v sequence hsequence _
      rcases htype with rfl | rfl
      · exact Body.ping (f := ⟨false, v⟩) hsequence
      · exact Body.ping (f := ⟨true, v⟩) hsequence

/-- What the parser returns stands at the front of what it was given. -/
theorem parseBody_sound (h : parseBody t r = .ok (some (f, rest))) :
    ∃ body, r = ⟨body ++ rest, false⟩ ∧ Body t f body rest := by
  unfold parseBody at h
  cases hkind : kind t with
  | none =>
      rw [hkind] at h
      cases h
  | some k =>
      rw [hkind] at h
      exact parseKind_follows (kind_hasType hkind) h

end Sound

section Errors

variable [Quicvarint] {t : Nat} {r : Reader} {e : Error}

omit [Quicvarint] in
private theorem parsed_error {f : Parsed} (h : parsed t f r = .error e) :
    e.code = frameEncodingError := by
  unfold parsed at h
  split_ifs at h
  cases h
  rfl

private theorem parseParameters_kind_error
    (h : parseKind t r .transportParameters = .error e) :
    e.code = frameEncodingError ∨ e.code = transportParameterError ∧
      ∃ size params rest, Encodes params.length size ∧
        r = ⟨size ++ (params ++ rest), false⟩ ∧ ∀ p, parseParameters params ≠ .ok p := by
  rcases hdata : readSized r with ⟨params, rest, failed⟩
  simp only [parseKind, hdata, parsedFrame] at h
  cases hparams : parseParameters params with
  | error e' =>
      simp only [hparams] at h
      split_ifs at h with hfailed
      · exact Or.inl (parsed_error h)
      · obtain rfl : failed = false := Bool.not_eq_true _ ▸ hfailed
        obtain rfl : e' = e := Except.error.inj h
        obtain ⟨size, hsize, rfl⟩ := readSized_eq.mp hdata
        refine Or.inr ⟨parseParameters_error hparams, size, params, rest, hsize, rfl, ?_⟩
        intro p hp
        rw [hparams] at hp
        cases hp
  | ok p =>
      simp only [hparams] at h
      exact Or.inl (parsed_error h)

/-- A refusal is an encoding error, but for a whole field of parameters that is
not acceptable. -/
theorem parseBody_error (h : parseBody t r = .error e) :
    e.code = frameEncodingError ∨ e.code = transportParameterError ∧
      t = typeTransportParameters ∧ ∃ size params rest, Encodes params.length size ∧
        r = ⟨size ++ (params ++ rest), false⟩ ∧ ∀ p, parseParameters params ≠ .ok p := by
  unfold parseBody at h
  cases hkind : kind t with
  | none =>
      rw [hkind] at h
      cases h
      exact Or.inl rfl
  | some k =>
      rw [hkind] at h
      cases k with
      | transportParameters =>
          have htype : t = typeTransportParameters := kind_hasType hkind
          rcases parseParameters_kind_error h with hcode | ⟨hcode, hbad⟩
          · exact Or.inl hcode
          · exact Or.inr ⟨hcode, htype, hbad⟩
      | maxStreams =>
          simp only [parseKind] at h
          split_ifs at h
          · cases h
            exact Or.inl rfl
          · exact Or.inl (parsed_error h)
      | streamsBlocked =>
          simp only [parseKind] at h
          split_ifs at h
          · cases h
            exact Or.inl rfl
          · exact Or.inl (parsed_error h)
      | _ => exact Or.inl (parsed_error h)

omit [Quicvarint] in
private theorem parsed_ne_none {f : Parsed} : parsed t f r ≠ .ok none := by
  unfold parsed
  split_ifs <;> exact nofun

theorem parseBody_ne_none : parseBody t r ≠ .ok none := by
  unfold parseBody
  cases kind t with
  | none => exact nofun
  | some k =>
      cases k with
      | transportParameters =>
          dsimp only [parseKind]
          split
          · split_ifs
            · exact parsed_ne_none
            · exact nofun
          · exact parsed_ne_none
      | maxStreams =>
          dsimp only [parseKind]
          split_ifs
          · exact nofun
          · exact parsed_ne_none
      | streamsBlocked =>
          dsimp only [parseKind]
          split_ifs
          · exact nofun
          · exact parsed_ne_none
      | _ => exact parsed_ne_none

end Errors

section Padding

variable [Quicvarint]

theorem parse_padding (k : Nat) (b : Bytes) : parse (List.replicate k 0 ++ b) = parse b := by
  have hdrop : (List.replicate k 0 ++ b).dropWhile (· == 0) = b.dropWhile (· == 0) := by
    induction k with
    | zero => rfl
    | succ k ih =>
        rw [List.replicate_succ, List.cons_append, List.dropWhile_cons_of_pos (by rfl), ih]
  unfold parse
  rw [hdrop]

omit [Quicvarint] in
/-- What is left once the padding is skipped starts with another byte. -/
theorem exists_padding (b : Bytes) :
    ∃ k, b = List.replicate k 0 ∨ ∃ x tail, x ≠ 0 ∧ b = List.replicate k 0 ++ x :: tail := by
  induction b with
  | nil => exact ⟨0, Or.inl rfl⟩
  | cons x tail ih =>
      by_cases hx : x = 0
      · obtain ⟨k, hk⟩ := ih
        refine ⟨k + 1, ?_⟩
        rcases hk with hk | ⟨y, more, hy, hk⟩
        · exact Or.inl (by rw [List.replicate_succ, hx, hk])
        · exact Or.inr ⟨y, more, hy, by rw [List.replicate_succ, hx, hk, List.cons_append]⟩
      · exact ⟨0, Or.inr ⟨x, tail, hx, rfl⟩⟩

theorem parse_zeros (k : Nat) : parse (List.replicate k 0) = .ok none := by
  have h := parse_padding k []
  rw [List.append_nil] at h
  exact h

theorem parse_cons {x : UInt8} (hx : x ≠ 0) (tail : Bytes) :
    parse (x :: tail) = parseBody (Reader.varint ⟨x :: tail, false⟩).1
      (Reader.varint ⟨x :: tail, false⟩).2 := by
  unfold parse
  rw [List.dropWhile_cons_of_neg (by simpa using hx)]

theorem parse_type {t : Nat} {type : Bytes} (htype : Encodes t type) (ht : t ≠ 0) (b : Bytes) :
    parse (type ++ b) = parseBody t ⟨b, false⟩ := by
  have hread := Reader.varint_encodes htype b
  obtain ⟨x, tail, rfl, hx⟩ := htype.head ht
  rw [List.cons_append] at hread ⊢
  rw [parse_cons hx, hread]

/-- The parser returns a frame exactly if an encoding of it comes first, after
any padding. -/
theorem parse_iff {b : Bytes} {f : Parsed} {rest : Bytes} :
    parse b = .ok (some (f, rest)) ↔
      ∃ k e, b = List.replicate k 0 ++ (e ++ rest) ∧ IsFrame f e rest := by
  constructor
  · intro h
    obtain ⟨k, rfl | ⟨x, tail, hx, rfl⟩⟩ := exists_padding b
    · rw [parse_zeros] at h
      cases h
    · rw [parse_padding, parse_cons hx] at h
      obtain ⟨body, hr, hbody⟩ := parseBody_sound h
      obtain ⟨type, htype, hread⟩ := Reader.varint_eq.mp (Prod.ext rfl hr)
      have hbytes : x :: tail = type ++ (body ++ rest) := congrArg Reader.b hread
      exact ⟨k, type ++ body, by rw [hbytes, List.append_assoc], _, type, body, htype, hbody, rfl⟩
  · rintro ⟨k, e, rfl, t, type, body, htype, hbody, rfl⟩
    rw [parse_padding, List.append_assoc, parse_type htype hbody.type_ne_zero]
    exact parseBody_complete hbody

theorem parse_none_iff {b : Bytes} : parse b = .ok none ↔ ∃ k, b = List.replicate k 0 := by
  constructor
  · intro h
    obtain ⟨k, hk | ⟨x, tail, hx, rfl⟩⟩ := exists_padding b
    · exact ⟨k, hk⟩
    · rw [parse_padding, parse_cons hx] at h
      exact absurd h parseBody_ne_none
  · rintro ⟨k, rfl⟩
    exact parse_zeros k

theorem parse_error {b : Bytes} {e : Error} (h : parse b = .error e) :
    e.code = frameEncodingError ∨ e.code = transportParameterError ∧
      ∃ k b', b = List.replicate k 0 ++ b' ∧ BadParameters b' := by
  obtain ⟨k, rfl | ⟨x, tail, hx, rfl⟩⟩ := exists_padding b
  · rw [parse_zeros] at h
    cases h
  · rw [parse_padding, parse_cons hx] at h
    rcases parseBody_error h with hcode | ⟨hcode, ht, size, params, rest, hsize, hr, hbad⟩
    · exact Or.inl hcode
    · obtain ⟨type, htype, hread⟩ := Reader.varint_eq.mp (Prod.ext ht hr)
      refine Or.inr ⟨hcode, k, x :: tail, rfl, type, size, params, rest, htype, hsize,
        congrArg Reader.b hread, ?_⟩
      rw [← exists_parseParameters]
      rintro ⟨p, hp⟩
      exact hbad p hp

theorem BadParameters.parse_error {b : Bytes} (h : BadParameters b) :
    ∃ e, parse b = .error e ∧ e.code = transportParameterError := by
  obtain ⟨type, size, params, rest, htype, hsize, rfl, hbad⟩ := h
  rw [← exists_parseParameters] at hbad
  cases hparams : parseParameters params with
  | ok p => exact absurd ⟨p, hparams⟩ hbad
  | error e =>
      refine ⟨e, ?_, parseParameters_error hparams⟩
      rw [parse_type htype (by decide), parseBody_of_kind (k := .transportParameters) rfl]
      simp only [parseKind, readSized_encodes hsize, hparams, Bool.false_eq_true, if_false]

theorem parse_bad_iff {b : Bytes} :
    (∃ e, parse b = .error e ∧ e.code = transportParameterError) ↔
      ∃ k b', b = List.replicate k 0 ++ b' ∧ BadParameters b' := by
  constructor
  · rintro ⟨e, he, hcode⟩
    rcases parse_error he with hother | ⟨-, hbad⟩
    · rw [hcode] at hother
      exact absurd hother (by decide)
    · exact hbad
  · rintro ⟨k, b', rfl, hbad⟩
    rw [parse_padding]
    exact hbad.parse_error

end Padding

end Qmux.Wire
