import Qmux.Sending.Outbox
import Qmux.Trace.Written

/-!
What an endpoint sends, over whole runs and against any peer. On the wire the
frames of each stream are in order and end at most once, whatever happens
between the reservation of a writer and its write; the data of each stream, and
of all of them, is within what the peer has allowed.
-/

namespace Qmux

open Wire

private theorem takeControl_dataLength {c : Conn}
    (hcontrol : ∀ f ∈ c.control, Conn.queuedFrame f = true) {now : Time} :
    ∀ f ∈ (c.takeControl now).2, f.dataLength = 0 := by
  intro f hf
  cases Conn.pending_of_takeControl hf with
  | queued hf =>
      have hqueued := hcontrol f hf
      cases f with
      | stream f => cases hqueued
      | _ => rfl
  | _ => rfl

namespace Endpoint

variable [Quicvarint] [GoAppend] {config : Config} {isServer : Bool} {labels : List Action}
  {e : Endpoint}

/-- Only a stream writer has stream data to write. -/
private theorem pending_dataLength (hconfig : config.Valid)
    (hrun : Machine.run step (new config isServer) labels = some e)
    (hwriter : ∀ records, e.writeMu ≠ .writing .stream records) :
    ∀ f ∈ e.writeMu.pending, f.dataLength = 0 := by
  have hrecords := (forall_records
    (Q := fun _ w frames => w ≠ .stream → ∀ f ∈ frames, f.dataLength = 0) hconfig
    (fun _ _ _ _ _ h => h) ?_ ?_ hrun).1
  · intro f hf
    cases hmu : e.writeMu with
    | writing w records =>
        rw [hmu] at hf
        obtain ⟨frames, hframes, hmem⟩ := List.mem_flatten.mp hf
        refine hrecords w records hmu frames hframes (fun hstream => ?_) f hmem
        exact hwriter records (hstream ▸ hmu)
    | _ =>
        rw [hmu] at hf
        cases hf
  · intro _ f hf
    rw [List.mem_singleton.mp hf]
    rfl
  · intro before mid w records hmid hhands frames hframes hw f hf
    obtain ⟨_, _, _, htraced⟩ := traced hconfig hmid
    cases hhands with
    | chunk => exact absurd rfl hw
    | finish => exact absurd rfl hw
    | @flush now =>
        have hmem : f ∈ (mid.conn.takeControl now).2 := by
          have hflat := packControl_flatten (mid.conn.takeControl now).2 [] 0
          rw [List.nil_append] at hflat
          rw [← hflat]
          exact List.mem_flatten.mpr ⟨frames, hframes, hf⟩
        exact takeControl_dataLength (htraced.past.history.control) f hmem
    | datagram =>
        rw [List.mem_singleton.mp hframes, List.mem_singleton] at hf
        rw [hf]
        rfl
    | close =>
        rw [List.mem_singleton.mp hframes, List.mem_singleton] at hf
        rw [hf]
        rfl

/-- The wire discipline of a sender. The messages about each stream are in order:
every STREAM frame starts where the data before it ends, and a FIN or a
RESET_STREAM, which says how much was sent, is the last. No stream has more data
than the peer has allowed, all the data together is what `sent` counts, up to what
a writer still has to write, and `sent` is within what the peer has allowed. -/
theorem wire_disciplined (config : Option Config) (isServer : Bool) {labels : List Action}
    {e : Endpoint}
    (hrun : Machine.run step (new (Config.normalized config) isServer) labels = some e) :
    (∀ id, Transfer.InOrder (e.sent.filterMap (Frame.message? id)) ∧
      (Transfer.payload (e.sent.filterMap (Frame.message? id))).length ≤
        Log.largest (Parsed.streamDataLimit? isServer id) (labels.flatMap heardBy)) ∧
    (e.sent.map Frame.dataLength).sum ≤ e.conn.sent ∧
    (e.failed = false → (∀ records, e.writeMu ≠ .writing .stream records) →
      (e.sent.map Frame.dataLength).sum = e.conn.sent) ∧
    e.conn.sent ≤ Log.largest Parsed.dataLimit? (labels.flatMap heardBy) := by
  have hvalid := Config.normalized_valid config
  obtain ⟨_, _, t, htraced⟩ := traced hvalid hrun
  have hhistory := htraced.past.history
  obtain ⟨rest, hlog, hrest⟩ := htraced.wire
  have hlimited := (Conn.History.facing hhistory).1
  have hheard {g : Parsed → Option Nat} :
      Log.largest g t.took ≤ Log.largest g (labels.flatMap heardBy) :=
    Log.largest_mono htraced.took.subset
  have hsum : (e.sent.map Frame.dataLength).sum + (rest.map Frame.dataLength).sum =
      e.conn.sent := by
    rw [← List.sum_append, ← List.map_append, ← hlog]
    exact hlimited.sent_eq
  refine ⟨fun id => ?_, by omega, fun hfailed hwriter => ?_, ?_⟩
  · obtain ⟨horder, hgiven⟩ := Conn.History.handed_inOrder hvalid hhistory id
    rw [hlog, List.filterMap_append] at horder hgiven
    rw [Transfer.payload_append, List.length_append] at hgiven
    exact ⟨horder.of_append, by have := hheard.trans' hgiven; omega⟩
  · have hzero : (rest.map Frame.dataLength).sum = 0 := by
      rw [hrest hfailed]
      refine List.sum_eq_zero (fun n hn => ?_)
      obtain ⟨f, hf, rfl⟩ := List.mem_map.mp hn
      exact pending_dataLength hvalid hrun hwriter f hf
    omega
  · exact hlimited.sent_le.trans (hlimited.sendMax_given.trans hheard)

end Endpoint

section Runs

/-- A client opens a stream and writes two bytes; the stream is reset between the
reservation and the write. -/
def overtaken : List Action :=
  [.write true, .record ((Frame.transportParameters
      { initialMaxData := 4, initialMaxStreamDataUni := 3, initialMaxStreamsUni := 1
        }).append.getD []) 0,
    .call (.tryOpen .uni), .lock (.chunk 0 [7, 8]), .enter 0, .call (.cancelWrite 0 5),
    .write true, .wake, .lock .flush, .enter 0, .write true]

theorem wire_disciplined_overtaken :
    ∃ e : Endpoint,
      Machine.run Endpoint.step (Endpoint.new (Config.normalized none) false) overtaken =
        some e ∧
      e.sent.filterMap (Frame.message? 2) = [.segment 0 [7, 8] false, .reset 2] ∧
      Transfer.InOrder (e.sent.filterMap (Frame.message? 2)) ∧
      (e.sent.map Frame.dataLength).sum = e.conn.sent := by
  have hrun : (Machine.run Endpoint.step (Endpoint.new (Config.normalized none) false)
      overtaken).map (fun e => (e.sent.filterMap (Frame.message? 2), e.failed, e.writeMu)) =
      some ([.segment 0 [7, 8] false, .reset 2], false, .free) := by
    decide +kernel
  obtain ⟨e, hrun, hstate⟩ := Option.map_eq_some_iff.mp hrun
  simp only [Prod.mk.injEq] at hstate
  obtain ⟨hsent, hfailed, hmu⟩ := hstate
  have hdiscipline := Endpoint.wire_disciplined none false hrun
  exact ⟨e, hrun, hsent, (hdiscipline.1 2).1,
    hdiscipline.2.2.1 hfailed (fun _ h => by simp [hmu] at h)⟩

end Runs

end Qmux
