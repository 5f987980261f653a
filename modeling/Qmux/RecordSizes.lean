import Qmux.Datagrams
import Qmux.Records
import Qmux.Streams
import Qmux.Trace.Written

/-!
The records that an endpoint writes fit. Each constant that bounds what goes
into a record leaves room for the widest encoding of what is around it, so a
record is no larger than the smallest `max_record_size` a peer may declare, and
a datagram is within what the peer takes. The control frames of a flush are
spread over records, none of which is empty, and come out of them as they were.
-/

namespace Qmux

open Wire

section Lists

variable {α β : Type*}

/-- A partial function with a value on every element has one on the list. -/
theorem exists_mapM {f : α → Option β} {xs : List α} (h : ∀ x ∈ xs, ∃ y, f x = some y) :
    ∃ ys, xs.mapM f = some ys ∧ List.Forall₂ (fun x y => f x = some y) xs ys := by
  induction xs with
  | nil => exact ⟨[], rfl, .nil⟩
  | cons x xs ih =>
      obtain ⟨y, hy⟩ := h x List.mem_cons_self
      obtain ⟨ys, hys, hall⟩ := ih (fun x hx => h x (List.mem_cons_of_mem _ hx))
      exact ⟨y :: ys, by simp [hy, hys], .cons hy hall⟩

theorem exists_of_mem_right {R : α → β → Prop} {xs : List α} {ys : List β} {y : β}
    (h : List.Forall₂ R xs ys) (hy : y ∈ ys) : ∃ x ∈ xs, R x y := by
  induction h with
  | nil => cases hy
  | @cons x z xs ys hxz _ ih =>
      rcases List.mem_cons.mp hy with rfl | hy
      · exact ⟨x, List.mem_cons_self, hxz⟩
      · obtain ⟨x', hx', hR⟩ := ih hy
        exact ⟨x', List.mem_cons_of_mem _ hx', hR⟩

end Lists

section Pack

variable [Quicvarint]

/-- A frame that `takeControl` returns takes at most `maxControlFrameSize` bytes. -/
theorem Conn.Pending.append_length {c : Conn} {f : Frame} {b : Bytes}
    (hcontrol : ∀ f ∈ c.control, queuedFrame f = true) (hpending : c.Pending f)
    (happend : f.append = some b) : b.length ≤ maxControlFrameSize := by
  cases hpending with
  | queued hf =>
      have hqueued := hcontrol f hf
      cases f with
      | resetStream f => exact (ResetStream.append_length happend).trans (by decide)
      | stopSending f => exact (StopSending.append_length happend).trans (by decide)
      | maxStreamData f => exact (MaxStreamData.append_length happend).trans (by decide)
      | _ => cases hqueued
  | maxData => exact (MaxData.append_length happend).trans (by decide)
  | maxStreams dir => exact (MaxStreams.append_length happend).trans (by decide)
  | ping response => exact (Ping.append_length happend).trans (by decide)

omit [Quicvarint] in
/-- A frame of a flush is read as it was written, if it is read. -/
theorem Conn.Pending.acceptable {c : Conn} {f : Frame}
    (hcontrol : ∀ f ∈ c.control, queuedFrame f = true) (hpending : c.Pending f)
    (hlegal : ∀ m, f = .maxStreams m → m.max ≤ Wire.maxStreams) :
    f.Acceptable ∧ f.received = f := by
  cases hpending with
  | queued hf =>
      have hqueued := hcontrol f hf
      cases f with
      | resetStream f => exact ⟨trivial, rfl⟩
      | stopSending f => exact ⟨trivial, rfl⟩
      | maxStreamData f => exact ⟨trivial, rfl⟩
      | _ => cases hqueued
  | maxData => exact ⟨trivial, rfl⟩
  | maxStreams dir => exact ⟨hlegal _ rfl, rfl⟩
  | ping response => exact ⟨trivial, rfl⟩

/-- A frame alone in a record takes what its encoding takes. -/
private theorem append_of_single {f : Frame} {b : Bytes} (h : appendAll [f] = some b) :
    f.append = some b := by
  simp only [appendAll, Option.bind_eq_bind, Option.bind_some, Option.bind_eq_some_iff,
    Option.pure_def, Option.some.injEq, List.append_nil, exists_eq_right] at h
  exact h

/-- The frames of a flush are small. -/
theorem Conn.frameSize_takeControl {c : Conn}
    (hcontrol : ∀ f ∈ c.control, queuedFrame f = true) {now : Time} :
    ∀ f ∈ (c.takeControl now).2, frameSize f ≤ maxControlFrameSize := by
  intro f hf
  unfold frameSize
  cases happend : f.append with
  | none => exact Nat.zero_le _
  | some b => exact (pending_of_takeControl hf).append_length hcontrol happend

theorem appendAll_length {frames : List Frame} {b : Bytes} (h : appendAll frames = some b) :
    b.length = (frames.map frameSize).sum := by
  induction frames generalizing b with
  | nil =>
      rw [← Option.some.inj h]
      rfl
  | cons f frames ih =>
      simp only [appendAll, Option.bind_eq_bind, Option.bind_eq_some_iff, Option.pure_def,
        Option.some.injEq] at h
      obtain ⟨e, he, more, hmore, rfl⟩ := h
      rw [List.length_append, List.map_cons, List.sum_cons, ih hmore]
      simp [frameSize, he]

theorem append_ne_nil {f : Frame} {e : Bytes} (h : f.append = some e) : e ≠ [] := by
  have hvarint {v : Nat} (h : Quicvarint.append v = some []) : False :=
    (append_encodes h).ne_nil rfl
  rintro rfl
  cases f with
  | stream f =>
      change f.append = some [] at h
      unfold Wire.Stream.append at h
      split_ifs at h <;> simp [Option.bind_eq_some_iff] at h
  | connectionClose f =>
      change f.append = some [] at h
      unfold ConnectionClose.append at h
      split_ifs at h <;> simp [Option.bind_eq_some_iff] at h
  | ping f =>
      simp only [Frame.append, Ping.append, Option.bind_eq_bind, Option.bind_eq_some_iff,
        Option.pure_def, Option.some.injEq, List.append_eq_nil_iff] at h
      obtain ⟨_, htype, _, -, rfl, -⟩ := h
      exact hvarint htype
  | transportParameters p =>
      simp only [Frame.append, TransportParameters.append, Option.bind_eq_bind,
        Option.bind_eq_some_iff, Option.pure_def, Option.some.injEq, List.append_eq_nil_iff] at h
      obtain ⟨_, -, _, htype, _, -, rfl, -⟩ := h
      exact hvarint htype
  | _ =>
      simp [Frame.append, ResetStream.append, StopSending.append, MaxData.append,
        MaxStreamData.append, MaxStreams.append, Datagram.append, Option.bind_eq_some_iff] at h

theorem appendAll_ne_nil {frames : List Frame} {b : Bytes} (h : appendAll frames = some b)
    (hne : frames ≠ []) : b ≠ [] := by
  cases frames with
  | nil => exact absurd rfl hne
  | cons f frames =>
      simp only [appendAll, Option.bind_eq_bind, Option.bind_eq_some_iff, Option.pure_def,
        Option.some.injEq] at h
      obtain ⟨e, he, more, -, rfl⟩ := h
      simp [append_ne_nil he]

theorem exists_appendAll {frames : List Frame} (hfits : ∀ f ∈ frames, f.Fits) :
    ∃ b, appendAll frames = some b := by
  induction frames with
  | nil => exact ⟨[], rfl⟩
  | cons f frames ih =>
      obtain ⟨e, he⟩ := (hfits f List.mem_cons_self).exists_append
      obtain ⟨more, hmore⟩ := ih (fun g hg => hfits g (List.mem_cons_of_mem _ hg))
      exact ⟨e ++ more, by simp [appendAll, he, hmore]⟩

/-- Frames that the parser accepts come out of their record as it reads them. -/
theorem appendAll_parses {frames : List Frame} {b : Bytes} (h : appendAll frames = some b)
    (hframes : ∀ f ∈ frames, f.Acceptable) :
    Parses b (frames.map fun f => .frame f.received) := by
  induction frames generalizing b with
  | nil =>
      rw [← Option.some.inj h]
      exact .nil (parse_zeros 0)
  | cons f frames ih =>
      simp only [appendAll, Option.bind_eq_bind, Option.bind_eq_some_iff, Option.pure_def,
        Option.some.injEq] at h
      obtain ⟨e, he, more, hmore, rfl⟩ := h
      exact .cons (parse_append he (hframes f List.mem_cons_self) more)
        (ih hmore (fun g hg => hframes g (List.mem_cons_of_mem _ hg)))

/-- The loop of `flushControl` keeps the record it builds below the size at which one
more frame might not fit, and ends no record that is empty. -/
theorem packControl_sizes {frames : List Frame} (built : List Frame)
    (hframes : ∀ f ∈ frames, frameSize f ≤ maxControlFrameSize)
    (hbuilt : (built.map frameSize).sum ≤ defaultMaxRecordSize - maxControlFrameSize) :
    ∀ record ∈ packControl frames built (built.map frameSize).sum,
      record ≠ [] ∧ (record.map frameSize).sum ≤ defaultMaxRecordSize := by
  have hroom : maxControlFrameSize ≤ defaultMaxRecordSize := by decide
  induction frames generalizing built with
  | nil =>
      intro record hrecord
      unfold packControl at hrecord
      split_ifs at hrecord with hempty
      · cases hrecord
      · rw [List.mem_singleton.mp hrecord]
        exact ⟨hempty, by omega⟩
  | cons f frames ih =>
      intro record hrecord
      have hf := hframes f List.mem_cons_self
      have hrest := fun g hg => hframes g (List.mem_cons_of_mem f hg)
      have hsum : ((built ++ [f]).map frameSize).sum = (built.map frameSize).sum + frameSize f := by
        simp
      unfold packControl at hrecord
      split_ifs at hrecord with hfull
      · rcases List.mem_cons.mp hrecord with rfl | hrecord
        · exact ⟨by simp, by omega⟩
        · exact ih [] hrest (Nat.zero_le _) record hrecord
      · rw [← hsum] at hrecord
        exact ih _ hrest (by omega) record hrecord

end Pack

theorem Conn.reserve_le {c c' : Conn} {r : Ref} {size offset n : Nat}
    (h : c.reserve r size = (c', .ok (offset, n))) : n ≤ maxStreamData := by
  unfold reserve at h
  dsimp only at h
  split at h
  · cases h
  · obtain ⟨-, hok⟩ := Prod.mk.inj h
    obtain ⟨-, rfl⟩ := Prod.mk.inj (Except.ok.inj hok)
    omega

namespace Endpoint

section Steps

variable [Quicvarint] {e e' : Endpoint} {frame : ConnectionClose}

private theorem closeGracefully_closer {err : ConnError} {given : Option ConnectionClose}
    (h : (e.closeGracefully err given).closer = .graceful (some frame)) :
    e.closer = .graceful (some frame) ∨ given = some frame := by
  simp only [closeGracefully] at h
  split_ifs at h
  · exact Or.inr (Closer.graceful.inj h)
  · exact Or.inl h

private theorem abort_closer {err : ConnError}
    (h : (e.abort err).closer = .graceful (some frame)) : e.closer = .graceful (some frame) := by
  simp only [abort] at h
  split_ifs at h
  exact h

end Steps

variable [Quicvarint] [GoAppend] {e e' : Endpoint} {frame : ConnectionClose}

/-- The frame that the connection is closed with is cut to `maxReasonLength`. -/
private theorem step_closer {a : Action} (hstep : step e a = some e')
    (h : e'.closer = .graceful (some frame)) :
    e.closer = .graceful (some frame) ∨ frame.reason.length ≤ maxReasonLength := by
  have hclosing {err : ConnError} {given : ConnectionClose}
      (hgiven : given.reason.length ≤ maxReasonLength)
      (h : (e.closeGracefully err (some given)).closer = .graceful (some frame)) :
      e.closer = .graceful (some frame) ∨ frame.reason.length ≤ maxReasonLength := by
    rcases closeGracefully_closer h with hsame | hnew
    · exact Or.inl hsame
    · exact Or.inr (Option.some.inj hnew ▸ hgiven)
  cases stepped hstep with
  | close hcloses =>
      cases hcloses with
      | application => exact hclosing (List.length_take_le _ _) h
      | violation => exact hclosing (List.length_take_le _ _) h
      | _ => exact (closeGracefully_closer h).imp_right (fun hnone => by cases hnone)
  | abort => exact Or.inl (abort_closer h)
  | lock _ hlock =>
      obtain ⟨_, _, rfl, rfl | rfl⟩ := lock_frame hlock
      · exact Or.inl h
      · cases h
  | enter henter =>
      obtain ⟨_, _, _, rfl⟩ := enter_frame henter
      exact Or.inl h
  | write hwrite =>
      obtain ⟨_, _, _, _, _, rfl, rfl | rfl⟩ := write_frame hwrite
      · exact Or.inl h
      · cases h
  | record =>
      refine Or.inl (h ▸ ?_)
      unfold receive
      dsimp only
      split_ifs
      · rfl
      · split <;> rfl
  | shutdown => cases h
  | _ => exact Or.inl h

private theorem reason_le {config : Config} {isServer : Bool} {labels : List Action}
    (hrun : Machine.run step (new config isServer) labels = some e)
    (hcloser : e.closer = .graceful (some frame)) : frame.reason.length ≤ maxReasonLength := by
  refine Machine.invariant (P := fun e => ∀ frame, e.closer = .graceful (some frame) →
    frame.reason.length ≤ maxReasonLength) ?_ ?_ ⟨labels, hrun⟩ frame hcloser
  · intro frame h
    cases h
  · intro e a e' ih hstep frame h
    rcases step_closer hstep h with hsame | hle
    · exact ih frame hsame
    · exact hle

/-- The record is within the size that every peer takes, or it is a datagram within
the size that this one takes. -/
def Sized (c : Conn) (frames : List Frame) (b : Bytes) : Prop :=
  b.length ≤ defaultMaxRecordSize ∨
    (∃ f, frames = [.datagram f]) ∧ c.ready = true ∧ b.length ≤ c.datagramLimit

/-- What is handed to the holder of `writeMu` fits. -/
private theorem Hands.sized {config : Config} {isServer : Bool} {labels : List Action}
    (hconfig : config.Valid) (hrun : Machine.run step (new config isServer) labels = some e)
    {w : Writer} {records : List (List Frame)} (hhands : e.Hands w records) :
    ∀ frames ∈ records, ∀ b, appendAll frames = some b → Sized e.conn frames b := by
  intro frames hframes b hb
  obtain ⟨_, _, t, htraced⟩ := traced hconfig hrun
  cases hhands with
  | chunk hmu hreserve =>
      rw [List.mem_singleton.mp hframes] at hb
      have hlen := Wire.Stream.append_length (append_of_single hb)
      have hreserved := Conn.reserve_le hreserve
      have hmax : streamOverhead + maxStreamData = defaultMaxRecordSize := by decide
      rw [List.length_take] at hlen
      exact Or.inl (by omega)
  | finish hmu hfinish =>
      rw [List.mem_singleton.mp hframes] at hb
      have hlen := Wire.Stream.append_length (append_of_single hb)
      have hmax : streamOverhead ≤ defaultMaxRecordSize := by decide
      exact Or.inl (hlen.trans hmax)
  | flush hmu =>
      have hsize := (packControl_sizes []
        (Conn.frameSize_takeControl htraced.past.history.control) (Nat.zero_le _)
        frames hframes).2
      rw [← appendAll_length hb] at hsize
      exact Or.inl hsize
  | datagram hmu =>
      rw [List.mem_singleton.mp hframes] at hb ⊢
      obtain ⟨hready, -, hlen⟩ := htraced.held.datagram _ hmu
      rw [← Datagram.append_length (append_of_single hb)] at hlen
      exact Or.inr ⟨⟨_, rfl⟩, hready, hlen⟩
  | close hcloser =>
      rw [List.mem_singleton.mp hframes] at hb
      have hlen := ConnectionClose.append_length (append_of_single hb)
      have hreason := reason_le hrun hcloser
      have hmax : maxReasonLength + 25 ≤ defaultMaxRecordSize := by decide
      exact Or.inl (by omega)

/-- What was written fits. -/
theorem wire_sized {config : Config} {isServer : Bool} {labels : List Action}
    (hvalid : config.Valid) (hrun : Machine.run step (new config isServer) labels = some e) :
    ∀ record ∈ e.wire, Sized e.conn record.frames record.bytes := by
  intro record hrecord
  have hall := (forall_records (Q := fun c _ frames =>
    ∀ b, appendAll frames = some b → Sized c frames b) hvalid ?_ ?_ ?_ hrun).2 record hrecord
  · obtain ⟨_, hrecord⟩ := hall
    exact hrecord _ record.encoded
  · intro c c' _ frames hext h b hb
    refine (h b hb).imp_right (fun ⟨hdatagram, hready, hlen⟩ => ?_)
    obtain ⟨hready', hpeer⟩ := hext.peer hready
    refine ⟨hdatagram, hready', ?_⟩
    unfold Conn.datagramLimit at hlen ⊢
    rw [hpeer]
    exact hlen
  · intro b hb
    exact Or.inl ((TransportParameters.append_length (append_of_single hb)).trans (by decide))
  · exact fun _ _ _ _ hmid hhands => hhands.sized hvalid hmid

/-- A peer takes records of the default size. -/
private theorem peer_recordSize {config : Config} {isServer : Bool} {labels : List Action}
    (hconfig : config.Valid) (hrun : Machine.run step (new config isServer) labels = some e)
    (hready : e.conn.ready = true) : defaultMaxRecordSize ≤ e.conn.peer.maxRecordSize := by
  obtain ⟨_, _, t, htraced⟩ := traced hconfig hrun
  obtain ⟨rest, htook⟩ := (Conn.History.facing htraced.past.history).1.parameters hready
  have hheard : .frame (.transportParameters e.conn.peer) ∈ labels.flatMap heardBy :=
    htraced.took.subset (htook ▸ List.mem_cons_self)
  obtain ⟨a, -, ha⟩ := List.mem_flatMap.mp hheard
  cases a with
  | record rec now =>
      obtain ⟨b, after, hparse⟩ := parse_of_mem_frames ha
      obtain ⟨_, _, _, t, _, body, -, hbody, -⟩ := parse_iff.mp hparse
      cases hbody with
      | transportParameters hsize hsplits haccepted hfilled =>
          exact (parseParameters_ok.mp (parseParameters_iff.mpr
            ⟨_, hsplits, haccepted, hfilled⟩)).2.2.2
  | _ => cases ha

/-- The records of a flush are not empty, and the frames come out of them in order if
and only if the parser accepts every limit on streams among them. -/
theorem flush_parses_iff {config : Config} {isServer : Bool} {labels : List Action}
    (hconfig : config.Valid) (hrun : Machine.run step (new config isServer) labels = some e)
    {now : Time} (hfits : ∀ f ∈ (e.conn.takeControl now).2, f.Fits) :
    ∃ bs, (packControl (e.conn.takeControl now).2 [] 0).mapM appendAll = some bs ∧
      (∀ b ∈ bs, b ≠ [] ∧ b.length ≤ defaultMaxRecordSize) ∧
      ((∃ parsed, List.Forall₂ Parses bs parsed ∧
          parsed.flatten = (e.conn.takeControl now).2.map .frame) ↔
        ∀ f, .maxStreams f ∈ (e.conn.takeControl now).2 → f.max ≤ maxStreams) := by
  obtain ⟨_, _, t, htraced⟩ := traced hconfig hrun
  have hcontrol := htraced.past.history.control
  have hflatten := packControl_flatten (e.conn.takeControl now).2 [] 0
  rw [List.nil_append] at hflatten
  have hmem {record : List Frame} {f : Frame}
      (hrecord : record ∈ packControl (e.conn.takeControl now).2 [] 0) (hf : f ∈ record) :
      f ∈ (e.conn.takeControl now).2 :=
    hflatten ▸ List.mem_flatten.mpr ⟨record, hrecord, hf⟩
  obtain ⟨bs, hbs, hall⟩ := exists_mapM (f := appendAll)
    (fun record hrecord => exists_appendAll (fun f hf => hfits f (hmem hrecord hf)))
  refine ⟨bs, hbs, fun b hb => ?_, ?_⟩
  · obtain ⟨record, hrecord, happend⟩ := exists_of_mem_right hall hb
    obtain ⟨hne, hsize⟩ := packControl_sizes []
      (Conn.frameSize_takeControl hcontrol) (Nat.zero_le _) record hrecord
    rw [← appendAll_length happend] at hsize
    exact ⟨appendAll_ne_nil happend hne, hsize⟩
  · constructor
    · rintro ⟨parsed, hparses, hsame⟩ f hf
      have hf' : .frame (.maxStreams f) ∈ parsed.flatten := hsame ▸ List.mem_map_of_mem hf
      obtain ⟨fs, hfs, hin⟩ := List.mem_flatten.mp hf'
      obtain ⟨b, -, hb⟩ := exists_of_mem_right hparses hfs
      rw [← hb.frames_eq] at hin
      obtain ⟨_, _, hparse⟩ := parse_of_mem_frames hin
      exact (parse_bounded hparse).1
    · intro hlegal
      refine ⟨(packControl (e.conn.takeControl now).2 [] 0).map (List.map .frame), ?_, ?_⟩
      · rw [List.forall₂_map_right_iff]
        have hreads := (List.forall₂_and_left _ _).mpr ⟨fun record hrecord => hrecord, hall⟩
        refine (hreads.imp (fun record b ⟨hrecord, happend⟩ => ?_)).flip
        have hread (f : Frame) (hf : f ∈ record) := (Conn.pending_of_takeControl
          (hmem hrecord hf)).acceptable hcontrol (fun m hm => hlegal m (hm ▸ hmem hrecord hf))
        have hparses := appendAll_parses happend (fun f hf => (hread f hf).1)
        rw [List.map_congr_left (fun f hf => congrArg Parsed.frame (hread f hf).2)] at hparses
        exact hparses
      · rw [← List.map_flatten, hflatten]

/-- Every record that was written is within the size that every peer takes, or is a
datagram within what this peer takes, and so within what the peer has declared. The
control frames of a flush go into records that are not empty, and parsing these
yields the frames in order exactly if, for each limit on streams that is to be
announced, the configured limit and the completed streams of the peer do not exceed
`2 ^ 60` together. -/
theorem records_fit_iff (config : Option Config) (isServer : Bool) {e : Endpoint}
    (hreach : e.Reachable (Config.normalized config) isServer) :
    (∀ record ∈ e.wire, Sized e.conn record.frames record.bytes) ∧
    (e.conn.ready = true → ∀ record ∈ e.wire,
      record.bytes.length ≤ e.conn.peer.maxRecordSize) ∧
    ∀ now, (∀ f ∈ (e.conn.takeControl now).2, f.Fits) →
      ∃ bs, (packControl (e.conn.takeControl now).2 [] 0).mapM appendAll = some bs ∧
        (∀ b ∈ bs, b ≠ [] ∧ b.length ≤ defaultMaxRecordSize) ∧
        ((∃ parsed, List.Forall₂ Parses bs parsed ∧
            parsed.flatten = (e.conn.takeControl now).2.map .frame) ↔
          (e.conn.closeErr = none → ∀ dir, (e.conn.incoming dir).pending = true →
            (Config.normalized config).incomingLimit dir +
              (e.conn.completedStreams dir).card ≤ maxStreams)) := by
  obtain ⟨labels, hrun⟩ := hreach
  have hvalid := Config.normalized_valid config
  have hsized := wire_sized hvalid hrun
  refine ⟨hsized, fun hready record hrecord => ?_, fun now hfits => ?_⟩
  · have hpeer := peer_recordSize hvalid hrun hready
    rcases hsized record hrecord with hdefault | ⟨-, -, hlimit⟩
    · exact hdefault.trans hpeer
    · exact hlimit.trans (Nat.min_le_right _ _)
  · obtain ⟨bs, hbs, hsizes, hiff⟩ := flush_parses_iff hvalid hrun hfits
    refine ⟨bs, hbs, hsizes, hiff.trans ?_⟩
    obtain ⟨_, _, t, htraced⟩ := traced hvalid hrun
    have hhistory := htraced.past.history
    have hmax := (hhistory.ordered hvalid).incoming_max_eq
    rw [hhistory.config.1] at hmax
    rw [Conn.takeControl_streams_iff hhistory.control]
    simp only [hmax]

end Endpoint

/-- The parameters and a limit on streams are written. -/
theorem records_fit_oneStream :
    ∃ e : Endpoint, e.Reachable (Config.normalized none) true ∧ e.wire.length = 1 ∧
      (∀ record ∈ e.wire, record.bytes.length ≤ e.conn.peer.maxRecordSize) ∧
      (e.conn.takeControl 0).2 = [.maxStreams ⟨true, 101⟩] ∧
      ∃ bs, (packControl (e.conn.takeControl 0).2 [] 0).mapM appendAll = some bs ∧
        ∃ parsed, List.Forall₂ Parses bs parsed ∧
          parsed.flatten = [.frame (.maxStreams ⟨true, 101⟩)] := by
  have hrun : (Machine.run Endpoint.step (Endpoint.new (Config.normalized none) true)
      (.write true :: oneStream)).map (fun e => decide (e.wire.length = 1 ∧
        e.conn.ready = true ∧ (e.conn.takeControl 0).2 = [.maxStreams ⟨true, 101⟩] ∧
        (e.conn.incoming .bidi).pending = false ∧ (Config.normalized none).incomingLimit .uni +
          (e.conn.completedStreams .uni).card ≤ maxStreams)) = some true := by
    decide +kernel
  obtain ⟨e, hrun, hstate⟩ := Option.map_eq_some_iff.mp hrun
  obtain ⟨hwire, hready, hframes, hbidi, huni⟩ := of_decide_eq_true hstate
  obtain ⟨-, hsizes, hflush⟩ := Endpoint.records_fit_iff none true ⟨_, hrun⟩
  obtain ⟨bs, hbs, -, hiff⟩ := hflush 0 (by
    rw [hframes]
    intro f hf
    rw [List.mem_singleton.mp hf]
    change 101 ≤ maxVarint
    decide)
  have hparses := hiff.mpr (fun _ dir hpending => by
    cases dir with
    | uni => exact huni
    | bidi => exact absurd hpending (by simp [hbidi]))
  rw [hframes] at hparses
  exact ⟨e, ⟨_, hrun⟩, hwire, hsizes hready, hframes, bs, hbs, hparses⟩

/-- With the largest limit a configuration admits, a flush writes a record with a limit
that fits its encoding and that the parser refuses. -/
theorem records_refused :
    ∃ (e : Endpoint) (b : Bytes),
      e.Reachable (Config.normalized (some { maxIncomingUniStreams := 2 ^ 60 })) true ∧
      (e.conn.takeControl 0).2 = [.maxStreams ⟨true, 2 ^ 60 + 1⟩] ∧ 2 ^ 60 + 1 ≤ maxVarint ∧
      (packControl (e.conn.takeControl 0).2 [] 0).mapM appendAll = some [b] ∧
      parse b = .error (encodingError "MAX_STREAMS above 2^60") := by
  have hrun : (Machine.run Endpoint.step
      (Endpoint.new (Config.normalized (some { maxIncomingUniStreams := 2 ^ 60 })) true)
      oneStream).map (fun e => (e.conn.takeControl 0).2) =
        some [.maxStreams ⟨true, 2 ^ 60 + 1⟩] := by
    decide +kernel
  obtain ⟨e, hrun, hframes⟩ := Option.map_eq_some_iff.mp hrun
  have hrecords : (packControl [.maxStreams ⟨true, 2 ^ 60 + 1⟩] [] 0).mapM appendAll =
      some [[0x13, 0xd0, 0, 0, 0, 0, 0, 0, 1]] := by
    decide +kernel
  refine ⟨e, _, ⟨_, hrun⟩, hframes, by decide, hframes ▸ hrecords, ?_⟩
  decide +kernel

end Qmux
