import Qmux.Registry.Table
import Qmux.Trace.Run
import Qmux.Wire.RoundTrip

/-!
The table of streams over whole runs. In every state of an open connection the
table has the streams opened so far that are not over, the queue has those of
the peer that were not accepted, and every stream of the peer that is in the
table takes up one of the streams the configuration lets the peer have.

The limit the peer is given is the configured one plus the streams of the peer
that were forgotten. Nothing keeps it from growing past `2 ^ 60`, above which
the parser at the other end refuses it.
-/

namespace Qmux

open Wire

namespace Conn

/-- The streams of the peer that were forgotten, of one direction kind. -/
def completedStreams (c : Conn) (dir : Dir) : Finset Ref :=
  (Finset.range c.count).filter (fun r => (c.heap r).done = true ∧
    c.initiatedLocally (c.heap r).id = false ∧ streamDir (c.heap r).id = dir)

namespace Ordered

variable {c : Conn}

/-- The limit of the peer is the configured one, and one more for each of its
streams that was forgotten. -/
theorem incoming_max_eq (h : c.Ordered) (dir : Dir) :
    (c.incoming dir).max = c.config.incomingLimit dir + (c.completedStreams dir).card := by
  have hreturned := h.sound.limited.returned dir
  change (c.incoming dir).max = _ at hreturned
  rw [hreturned]
  unfold completedStreams Heap.total
  rw [Finset.card_filter]
  congr 1
  refine Finset.sum_congr rfl (fun r _ => ?_)
  unfold Registry.finished
  simp only [Bool.and_eq_true, Bool.not_eq_true', beq_iff_eq, and_assoc]
  rfl

end Ordered

theorem takeControl_maxStreams {c : Conn}
    (hcontrol : ∀ f ∈ c.control, queuedFrame f = true) {now : Time} {f : MaxStreams}
    (hf : .maxStreams f ∈ (c.takeControl now).2) :
    f.max = (c.incoming (if f.uni then .uni else .bidi)).max := by
  cases pending_of_takeControl hf with
  | queued hf => exact absurd (hcontrol _ hf) Bool.false_ne_true
  | maxStreams dir => cases dir <;> rfl

/-- The limits on streams that a flush announces are those that have grown. -/
theorem takeControl_streams_iff {c : Conn}
    (hcontrol : ∀ f ∈ c.control, queuedFrame f = true) {now : Time} {limit : Nat} :
    (∀ f, .maxStreams f ∈ (c.takeControl now).2 → f.max ≤ limit) ↔
      (c.closeErr = none → ∀ dir, (c.incoming dir).pending = true →
        (c.incoming dir).max ≤ limit) := by
  constructor
  · intro hframes hopen dir hpending
    refine hframes ⟨dir = .uni, (c.incoming dir).max⟩ ?_
    cases dir <;> simp [takeControl, hopen, controlFrames, streamsFrame, hpending]
  · intro hlimits f hf
    have hopen : c.closeErr = none := by
      by_contra hclosed
      simp [takeControl, Option.isSome_iff_ne_none.mpr hclosed] at hf
    cases pending_of_takeControl hf with
    | queued hf => exact absurd (hcontrol _ hf) Bool.false_ne_true
    | maxStreams dir hpending => exact hlimits hopen dir hpending

end Conn

/-- The parser at the other end accepts the frame. -/
def Wire.MaxStreams.Accepted [Quicvarint] (f : MaxStreams) : Prop :=
  ∃ b, f.append = some b ∧ parse b = .ok (some (.frame (.maxStreams f), []))

theorem Wire.MaxStreams.accepted_iff [Quicvarint] (f : MaxStreams) :
    f.Accepted ↔ f.max ≤ maxStreams := by
  constructor
  · rintro ⟨b, happend, hparse⟩
    have hread := parse_maxStreams happend []
    rw [List.append_nil, hparse] at hread
    by_contra hlarge
    rw [if_neg hlarge] at hread
    cases hread
  · intro hle
    obtain ⟨b, hb⟩ := exists_append (v := f.max) (Nat.le_trans hle (by decide))
    have happend : f.append = some (UInt8.ofNat (if f.uni then typeMaxStreamsUni
        else typeMaxStreamsBidi) :: b) := by
      simp [MaxStreams.append, hb]
    have hread := parse_maxStreams happend []
    rw [List.append_nil, if_pos hle] at hread
    exact ⟨_, happend, hread⟩

namespace Endpoint

section

variable [Quicvarint] [GoAppend]

/-- In every run, the limit of the peer is legal, and the MAX_STREAMS frames
that announce it are accepted, exactly as long as the configured limit and the
completed streams of the peer do not exceed `2 ^ 60` together. -/
theorem maxStreams_legal_iff (config : Option Config) (isServer : Bool) {e : Endpoint}
    (hreach : Reachable (Config.normalized config) isServer e) :
    (∀ dir, (e.conn.incoming dir).max ≤ maxStreams ↔
      (Config.normalized config).incomingLimit dir + (e.conn.completedStreams dir).card ≤
        maxStreams) ∧
    ∀ now f, .maxStreams f ∈ (e.conn.takeControl now).2 →
      (f.Accepted ↔ (Config.normalized config).incomingLimit (if f.uni then .uni else .bidi) +
        (e.conn.completedStreams (if f.uni then .uni else .bidi)).card ≤ maxStreams) := by
  obtain ⟨labels, hrun⟩ := hreach
  have hvalid := Config.normalized_valid config
  obtain ⟨_, _, t, htraced⟩ := traced hvalid hrun
  have hhistory := htraced.past.history
  have hmax := (hhistory.ordered hvalid).incoming_max_eq
  rw [hhistory.config.1] at hmax
  refine ⟨fun dir => by rw [hmax], fun now f hf => ?_⟩
  rw [f.accepted_iff, Conn.takeControl_maxStreams hhistory.control hf, hmax]

end

end Endpoint

section Runs

/-- A client that declares no limits opens a stream and ends it at once, and
the server accepts it. -/
def oneStream : List Action :=
  [.record ((Frame.transportParameters {}).append.getD []) 0,
    .record ((Frame.stream ⟨2, 0, [], true⟩).append.getD []) 0, .call (.tryAccept .uni)]

theorem maxStreams_legal_oneStream :
    ∃ e : Endpoint, e.Reachable (Config.normalized none) true ∧
      ((e.conn.incoming .uni).max ≤ maxStreams ↔ (Config.normalized none).incomingLimit .uni +
        (e.conn.completedStreams .uni).card ≤ maxStreams) ∧
      (e.conn.completedStreams .uni).card = 1 := by
  have hrun : (Machine.run Endpoint.step (Endpoint.new (Config.normalized none) true)
      oneStream).map (fun e => (e.conn.completedStreams .uni).card) = some 1 := by
    decide +kernel
  obtain ⟨e, hrun, hcard⟩ := Option.map_eq_some_iff.mp hrun
  exact ⟨e, ⟨_, hrun⟩, (Endpoint.maxStreams_legal_iff none true ⟨_, hrun⟩).1 .uni, hcard⟩

/-- With the largest limit a configuration admits, the first stream of the peer
that completes takes the limit past what the parser accepts. -/
theorem maxStreams_refused :
    ∃ (e : Endpoint) (f : MaxStreams) (b : Bytes),
      e.Reachable (Config.normalized (some { maxIncomingUniStreams := 2 ^ 60 })) true ∧
      .maxStreams f ∈ (e.conn.takeControl 0).2 ∧ f.append = some b ∧
      parse b = .error (encodingError "MAX_STREAMS above 2^60") ∧
      maxStreams < (e.conn.incoming .uni).max := by
  have hrun : (Machine.run Endpoint.step
      (Endpoint.new (Config.normalized (some { maxIncomingUniStreams := 2 ^ 60 })) true)
      oneStream).map (fun e => ((e.conn.takeControl 0).2, (e.conn.incoming .uni).max)) =
        some ([.maxStreams ⟨true, 2 ^ 60 + 1⟩], 2 ^ 60 + 1) := by
    decide +kernel
  obtain ⟨e, hrun, hstate⟩ := Option.map_eq_some_iff.mp hrun
  obtain ⟨hframes, hmax⟩ := Prod.mk.inj hstate
  obtain ⟨b, hb⟩ : ∃ b, (MaxStreams.mk true (2 ^ 60 + 1)).append = some b :=
    Option.isSome_iff_exists.mp (by decide +kernel)
  have hread := parse_maxStreams hb []
  rw [List.append_nil, if_neg (by decide)] at hread
  refine ⟨e, ⟨true, 2 ^ 60 + 1⟩, b, ⟨_, hrun⟩, ?_, hb, hread, ?_⟩
  · rw [hframes]
    exact List.mem_singleton_self _
  · rw [hmax]
    decide

end Runs

end Qmux
