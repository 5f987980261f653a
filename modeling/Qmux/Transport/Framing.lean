import Qmux.Transport.Basic
import Qmux.Wire.Reading

/-!
Framing. What is written to a byte stream record by record is read from it
record by record, in whatever pieces the stream arrives.
-/

namespace Qmux

open ByteStream Wire

namespace MessageConnAdapter

/-- The messages that are taken are the empty ones in front of the first byte. -/
theorem fill_eq (messages : List Bytes) (buf : Bytes) :
    ∃ messages' buf', fill messages buf = (messages', buf') ∧
      buf ++ messages.flatten = buf' ++ messages'.flatten ∧ (buf' = [] → messages' = []) := by
  induction messages generalizing buf with
  | nil =>
      cases buf with
      | nil => exact ⟨[], [], rfl, rfl, fun _ => rfl⟩
      | cons x buf => exact ⟨[], x :: buf, rfl, rfl, nofun⟩
  | cons p rest ih =>
      cases buf with
      | nil => exact ih p
      | cons x buf => exact ⟨p :: rest, x :: buf, rfl, rfl, nofun⟩

/-- The adapter carries its messages one behind the other. -/
theorem carries (err : ReadFailure) (messages : List Bytes) (buf : Bytes) :
    Carries err (⟨⟨messages, err⟩, buf⟩ : MessageConnAdapter) (buf ++ messages.flatten) := by
  induction hn : (buf ++ messages.flatten).length using Nat.strong_induction_on
    generalizing messages buf with
  | _ n ih =>
      obtain ⟨messages', buf', hfill, hsame, hlast⟩ := fill_eq messages buf
      rw [hsame] at hn ⊢
      cases buf' with
      | nil =>
          rw [hlast rfl] at hfill ⊢
          apply Carries.ended
          intro size _
          simp only [Source.read, read, hfill]
      | cons x buf' =>
          apply Carries.more (fun size => (x :: buf').take size)
            (fun size => (x :: buf').drop size ++ messages'.flatten)
            (fun size => ⟨⟨messages', err⟩, (x :: buf').drop size⟩)
          · intro size _
            simp only [Source.read, read, hfill]
          · intro size hsize hnil
            rcases List.take_eq_nil_iff.mp hnil with hzero | hempty
            · omega
            · cases hempty
          · exact fun size _ => List.length_take_le _ _
          · intro size _
            rw [← List.append_assoc, List.take_append_drop]
          · intro size hsize
            apply ih _ _ _ _ rfl
            rw [← hn, List.length_append, List.length_append, List.length_drop, List.length_cons]
            omega

end MessageConnAdapter

section Framing

variable [Quicvarint] {σ : Type} [Source UInt8 σ] {err : ReadFailure}

theorem read_ok {v : Nat} {e b : Bytes} {br : Buffered UInt8 σ}
    (he : Varint.Encodes v e) (h : br.Holds err (e ++ b)) :
    ∃ next, Quicvarint.read Buffered.readOne br = (.ok v, next) ∧ next.Holds err b := by
  obtain ⟨next, hyields, hnext⟩ := Buffered.yields h
  exact ⟨next, Quicvarint.read_encodes he hyields, hnext⟩

/-- An integer cut short is not read. -/
theorem read_error {v n : Nat} {e : Bytes} {br : Buffered UInt8 σ}
    (he : Varint.Encodes v e) (hn : n < e.length) (h : br.Holds err (e.take n)) :
    ∃ cause, (Quicvarint.read Buffered.readOne br).1 = .error cause := by
  rw [← List.append_nil (e.take n)] at h
  obtain ⟨last, hyields, hlast⟩ := Buffered.yields h
  exact Quicvarint.read_short he hn hyields (Buffered.readOne_nil hlast)

/-- What reading a record gives under a limit. -/
def outcome (max : Nat) (rec : Bytes) : Except ReadError Bytes :=
  if rec.length > max then .error (.wire (recordTooLarge rec.length max)) else .ok rec

/-- `w` is the record `rec` behind its Size field. -/
def Framed (rec w : Bytes) : Prop :=
  ∃ e, Quicvarint.append rec.length = some e ∧ w = e ++ rec

namespace StreamTransport

omit [Source UInt8 σ] in
theorem writeRecord_framed {buf : Bytes} (hroom : recordHeadroom ≤ buf.length)
    (hmax : (buf.drop recordHeadroom).length ≤ maxVarint) :
    ∃ w, writeRecord buf = some w ∧ Framed (buf.drop recordHeadroom) w := by
  obtain ⟨e, he⟩ := exists_append hmax
  rw [List.length_drop] at hmax
  have hsize : Word.sub buf.length recordHeadroom = (buf.drop recordHeadroom).length := by
    rw [List.length_drop]
    unfold maxVarint at hmax
    apply Word.sub_of_le hroom
    unfold recordHeadroom at *
    omega
  have hlength := Quicvarint.append_length _ _ he
  have hle := len_le (buf.drop recordHeadroom).length
  have hend : recordHeadroom - e.length + e.length = recordHeadroom := by
    unfold recordHeadroom
    omega
  have hstart : (buf.take (recordHeadroom - e.length)).length = recordHeadroom - e.length := by
    rw [List.length_take]
    omega
  refine ⟨e ++ buf.drop recordHeadroom, ?_, e, he, rfl⟩
  simp only [writeRecord, hsize, he, Option.bind_eq_bind, Option.bind_some, ← hlength, hend]
  rw [List.append_assoc, List.drop_append_of_le_length hstart.ge,
    List.drop_of_length_le hstart.le]
  rfl

/-- A whole record is read, whatever comes behind it. -/
theorem readRecord_ok {t : StreamTransport σ} {rec w b : Bytes} (hframed : Framed rec w)
    (h : t.br.Holds err (w ++ b)) :
    ∃ next, t.readRecord = (outcome t.max rec, next) ∧ next.max = t.max ∧
      next.br.Holds err b := by
  obtain ⟨e, he, rfl⟩ := hframed
  rw [List.append_assoc] at h
  obtain ⟨br, hsize, hbr⟩ := read_ok (append_encodes he) h
  have hlong : rec.length ≤ (rec ++ b).length := by
    rw [List.length_append]
    omega
  unfold readRecord outcome
  rw [hsize]
  dsimp only
  by_cases hmax : rec.length > t.max
  · obtain ⟨next, hskip, hnext⟩ := Buffered.skip_ok hbr hlong
    rw [if_pos hmax, if_pos hmax, hskip]
    rw [List.drop_left] at hnext
    exact ⟨_, rfl, rfl, hnext⟩
  · obtain ⟨next, hfull, hnext⟩ := Buffered.readFull_ok hbr hlong
    rw [List.take_left] at hfull
    rw [List.drop_left] at hnext
    rw [if_neg hmax, if_neg hmax, hfull]
    dsimp only
    rw [List.take_left]
    exact ⟨_, rfl, rfl, hnext⟩

/-- A record cut short is not returned, and not reported as one too large. -/
theorem readRecord_error {t : StreamTransport σ} {rec w : Bytes} {n : Nat}
    (hframed : Framed rec w) (hn : n < w.length) (h : t.br.Holds err (w.take n)) :
    ∃ cause, t.readRecord.1 = .error (.transport cause) := by
  obtain ⟨e, he, rfl⟩ := hframed
  unfold readRecord
  by_cases hhead : n < e.length
  · rw [List.take_append_of_le_length hhead.le] at h
    obtain ⟨cause, herror⟩ := read_error (append_encodes he) hhead h
    rcases hresult : Quicvarint.read Buffered.readOne t.br with ⟨result, next⟩
    rw [hresult] at herror
    obtain rfl : result = .error cause := herror
    exact ⟨cause, rfl⟩
  · rw [List.take_append, List.take_of_length_le (not_lt.mp hhead)] at h
    obtain ⟨br, hsize, hbr⟩ := read_ok (append_encodes he) h
    have hshort : (rec.take (n - e.length)).length < rec.length := by
      rw [List.length_append] at hn
      rw [List.length_take]
      omega
    rw [hsize]
    dsimp only
    by_cases hmax : rec.length > t.max
    · obtain ⟨next, hskip⟩ := Buffered.skip_error hbr hshort
      rw [if_pos hmax, hskip]
      exact ⟨err, rfl⟩
    · obtain ⟨p, cause, next, hfull⟩ := Buffered.readFull_error hbr hshort
      rw [if_neg hmax, hfull]
      exact ⟨_, rfl⟩

/-- Over a stream that is cut anywhere, the complete records before the cut are
read, and then there is an error that is none of this package. -/
theorem readRecords_spec {recs written : List Bytes} (hframed : List.Forall₂ Framed recs written) :
    ∀ {t : StreamTransport σ} {cut : Nat}, t.br.Holds err (written.flatten.take cut) →
      ∃ k ≤ recs.length, (written.take k).flatten.length ≤ cut ∧
        (k < recs.length → cut < (written.take (k + 1)).flatten.length) ∧
        ∃ cause, t.readRecords (k + 1) =
          (recs.take k).map (outcome t.max) ++ [.error (.transport cause)] := by
  induction hframed with
  | nil =>
      intro t cut h
      rw [List.flatten_nil, List.take_nil] at h
      obtain ⟨e, he⟩ := exists_append (Nat.zero_le maxVarint)
      have hframed : Framed [] e := ⟨e, he, (List.append_nil e).symm⟩
      have hpos : 0 < e.length := List.length_pos_iff.mpr (append_encodes he).ne_nil
      obtain ⟨cause, herror⟩ := readRecord_error hframed hpos h
      refine ⟨0, le_rfl, Nat.zero_le cut, nofun, cause, ?_⟩
      rw [readRecords, readRecords, herror]
      rfl
  | @cons rec w recs written hone hrest ih =>
      intro t cut h
      rw [List.flatten_cons] at h
      by_cases hcut : cut < w.length
      · rw [List.take_append_of_le_length hcut.le] at h
        obtain ⟨cause, herror⟩ := readRecord_error hone hcut h
        refine ⟨0, Nat.zero_le _, Nat.zero_le cut, ?_, cause, ?_⟩
        · intro _
          rw [List.take_succ_cons, List.take_zero, List.flatten_singleton]
          exact hcut
        · rw [readRecords, readRecords, herror]
          rfl
      · rw [List.take_append, List.take_of_length_le (not_lt.mp hcut)] at h
        obtain ⟨next, hread, hmax, hnext⟩ := readRecord_ok hone h
        obtain ⟨k, hk, hbefore, hafter, cause, hreads⟩ := ih hnext
        refine ⟨k + 1, Nat.succ_le_succ hk, ?_, ?_, cause, ?_⟩
        · rw [List.take_succ_cons, List.flatten_cons, List.length_append]
          omega
        · intro hlt
          have hlater := hafter (Nat.lt_of_succ_lt_succ hlt)
          rw [List.take_succ_cons, List.flatten_cons, List.length_append]
          omega
        · rw [readRecords, hread, hreads, hmax, List.take_succ_cons, List.map_cons,
            List.cons_append]

end StreamTransport

omit [Quicvarint] in
theorem MessageTransport.readRecords_eq (max : Nat) (recs : List Bytes) :
    readRecords (recs.length + 1) ⟨⟨recs, err⟩, max⟩ =
      recs.map (outcome max) ++ [.error (.transport err)] := by
  induction recs with
  | nil => rfl
  | cons rec recs ih =>
      have hread : readRecord ⟨⟨rec :: recs, err⟩, max⟩ =
          (outcome max rec, ⟨⟨recs, err⟩, max⟩) := by
        simp only [readRecord, MessageConn.readMessage, outcome]
        split_ifs <;> rfl
      rw [List.length_cons, readRecords, hread, ih]
      rfl

omit [Source UInt8 σ] in
theorem exists_written {bufs : List Bytes} (hbufs : ∀ buf ∈ bufs, recordHeadroom ≤ buf.length ∧
    (buf.drop recordHeadroom).length ≤ maxVarint) :
    ∃ written, bufs.mapM StreamTransport.writeRecord = some written ∧
      List.Forall₂ Framed (bufs.map (·.drop recordHeadroom)) written := by
  induction bufs with
  | nil => exact ⟨[], rfl, .nil⟩
  | cons buf bufs ih =>
      obtain ⟨hone, hrest⟩ := List.forall_mem_cons.mp hbufs
      obtain ⟨w, hw, hframed⟩ := StreamTransport.writeRecord_framed hone.1 hone.2
      obtain ⟨written, hwritten, hall⟩ := ih hrest
      exact ⟨w :: written, by simp only [List.mapM_cons, hw, hwritten]; rfl, .cons hframed hall⟩

end Framing

/-- Records written to a byte stream are read back, however the stream is cut
into pieces, and records above the limit of the reader are replaced by an error
without any effect on those behind them. A stream that ends early ends the
sequence at a whole record. Messages that carry the same bytes are such a
stream, and a transport of one record for each message reads the same
sequence. -/
theorem records_framed [Quicvarint] (bufs : List Bytes) (hbufs : ∀ buf ∈ bufs,
    recordHeadroom ≤ buf.length ∧ (buf.drop recordHeadroom).length ≤ maxVarint) :
    ∃ written, bufs.mapM StreamTransport.writeRecord = some written ∧
      (∀ (σ : Type) [Source UInt8 σ] (s : σ) (err : ReadFailure) (cut : Nat) (buf : Bytes)
        (max : Nat), Carries err s (written.flatten.take cut) →
        ∃ k ≤ bufs.length, (written.take k).flatten.length ≤ cut ∧
          (k < bufs.length → cut < (written.take (k + 1)).flatten.length) ∧
          ∃ cause, StreamTransport.readRecords (k + 1) ⟨⟨[], s⟩, buf, max⟩ =
            (bufs.take k).map (fun buf => outcome max (buf.drop recordHeadroom)) ++
              [.error (.transport cause)]) ∧
      (∀ (err : ReadFailure) (cut : Nat) (pending : Bytes) (messages : List Bytes),
        pending ++ messages.flatten = written.flatten.take cut →
        Carries err (⟨⟨messages, err⟩, pending⟩ : MessageConnAdapter)
          (written.flatten.take cut)) ∧
      ∀ (err : ReadFailure) (max : Nat),
        MessageTransport.readRecords (bufs.length + 1)
            ⟨⟨bufs.map MessageTransport.writeRecord, err⟩, max⟩ =
          bufs.map (fun buf => outcome max (buf.drop recordHeadroom)) ++
            [.error (.transport err)] := by
  obtain ⟨written, hwritten, hframed⟩ := exists_written hbufs
  refine ⟨written, hwritten, ?_, ?_, ?_⟩
  · intro σ _ s err cut buf max hcarries
    have hstart : Buffered.Holds err ⟨[], s⟩ (written.flatten.take cut) :=
      Buffered.holds_start hcarries
    obtain ⟨k, hk, hbefore, hafter, cause, hreads⟩ :=
      StreamTransport.readRecords_spec (t := ⟨⟨[], s⟩, buf, max⟩) hframed hstart
    rw [List.length_map] at hk hafter
    rw [← List.map_take, List.map_map] at hreads
    exact ⟨k, hk, hbefore, hafter, cause, hreads⟩
  · intro err cut pending messages hsame
    rw [← hsame]
    exact MessageConnAdapter.carries err messages pending
  · intro err max
    have hreads := @MessageTransport.readRecords_eq err max
      (bufs.map MessageTransport.writeRecord)
    rw [List.length_map, List.map_map] at hreads
    exact hreads

/-- An empty record, one above the limit and one that loses its last byte, as
messages that do not keep to the records. -/
theorem records_framed_split :
    ∃ cause, StreamTransport.readRecords 3
        ⟨⟨[], (⟨⟨[[], [0, 3], [1], [], [2, 3, 2], [9]], .eof⟩, []⟩ : MessageConnAdapter)⟩, [], 2⟩ =
      [.ok [], .error (.wire (recordTooLarge 3 2)), .error (.transport cause)] := by
  obtain ⟨written, hwritten, hreads, hadapter, -⟩ := records_framed
    [[0, 0, 0, 0, 0, 0, 0, 0], [0, 0, 0, 0, 0, 0, 0, 0, 1, 2, 3], [7, 7, 7, 7, 7, 7, 7, 7, 9, 9]]
    (by decide)
  obtain rfl : [[0], [3, 1, 2, 3], [2, 9, 9]] = written :=
    Option.some.inj (Eq.trans (by decide) hwritten)
  obtain ⟨k, hk, hbefore, hafter, cause, hread⟩ := hreads _ _ .eof 7 [] 2
    (hadapter .eof 7 [] [[], [0, 3], [1], [], [2, 3, 2], [9]] (by decide))
  obtain rfl : k = 2 := by
    simp only [List.length_cons, List.length_nil] at hk hafter
    interval_cases k
    · exact absurd (hafter (by decide)) (by decide)
    · exact absurd (hafter (by decide)) (by decide)
    · rfl
    · exact absurd hbefore (by decide)
  exact ⟨cause, hread⟩

end Qmux
