import Qmux.Quiet.Streams

/-!
The credit of a connection whose peer has heard all of its limits and has said all
it has to say. What the peer has sent is what the connection has received; so if
the application has read all there is, the peer may send on every stream.
-/

namespace Qmux

open Wire

/-- The data of a frame counts for the stream that it names. -/
private theorem payload_frame {f : Frame} {id : Nat} :
    (Transfer.payload ([f].filterMap (Frame.message? id))).length =
      if Parsed.stream? (.frame f) = some id then f.dataLength else 0 := by
  cases f with
  | stream f =>
      by_cases hid : f.streamID = id
      · simp [Frame.message?, hid, Transfer.payload, Transfer.Message.data, Frame.dataLength,
          Parsed.stream?]
      · simp [Frame.message?, hid, Transfer.payload, Parsed.stream?]
  | resetStream f =>
      by_cases hid : f.streamID = id <;>
        simp [Frame.message?, hid, Transfer.payload, Transfer.Message.data, Frame.dataLength]
  | _ => exact (ite_self 0).symm

/-- If the streams that the frames have data for are all there, they have all of it. -/
theorem total_payload_eq {heap : Ref → Stream} {count : Nat}
    (hunique : ∀ r < count, ∀ i < count, (heap r).id = (heap i).id → r = i)
    {frames : List Frame}
    (hknown : ∀ f ∈ frames, f.dataLength ≠ 0 →
      ∃ r < count, Parsed.stream? (.frame f) = some (heap r).id) :
    Heap.total heap count (fun s =>
        (Transfer.payload (frames.filterMap (Frame.message? s.id))).length) =
      (frames.map Frame.dataLength).sum := by
  induction frames with
  | nil => exact Finset.sum_eq_zero (fun r _ => rfl)
  | cons f rest ih =>
      have hsplit (id : Nat) : Transfer.payload ((f :: rest).filterMap (Frame.message? id)) =
          Transfer.payload ([f].filterMap (Frame.message? id)) ++
            Transfer.payload (rest.filterMap (Frame.message? id)) := by
        rw [← Transfer.payload_append, ← List.filterMap_append]
        rfl
      have hfirst : Heap.total heap count (fun s =>
          (Transfer.payload ([f].filterMap (Frame.message? s.id))).length) = f.dataLength := by
        simp only [payload_frame]
        by_cases hdata : f.dataLength = 0
        · simp [Heap.total, hdata]
        · obtain ⟨r, hr, hstream⟩ := hknown f List.mem_cons_self hdata
          refine (Finset.sum_eq_single_of_mem r (Finset.mem_range.mpr hr)
            (fun i hi hne => if_neg (fun hcase => hne ?_))).trans (if_pos hstream)
          exact hunique i (Finset.mem_range.mp hi) r hr
            (Option.some.inj (hcase.symm.trans hstream))
      have hrest := ih (fun g hg => hknown g (List.mem_cons_of_mem f hg))
      simp only [hsplit, List.length_append, List.map_cons, List.sum_cons]
      unfold Heap.total at hfirst hrest ⊢
      rw [Finset.sum_add_distrib, hfirst, hrest]

namespace Conn.Dialogue

variable [Quicvarint] [GoAppend] {config other : Config} {isServer : Bool}
  {heard told : List Parsed} {t u : Traffic} {c d : Conn}

/-- The connection receives on the streams that the peer sends on. -/
theorem canSend_eq (h : Dialogue config other isServer heard told t c u d) {r i : Ref}
    (hr : r < c.count) (hi : i < d.count) (hid : (d.heap i).id = (c.heap r).id) :
    (d.heap i).canSend = (c.heap r).canRecv := by
  have hrecv := (History.ordered h.valid h.history).sound.named.recv r hr
  have hsend := (History.ordered h.other_valid h.peer).sound.named.send i hi
  change (c.heap r).canRecv = (streamDir (c.heap r).id != .uni || !c.initiatedLocally (c.heap r).id)
    at hrecv
  change (d.heap i).canSend = (streamDir (d.heap i).id != .uni || d.initiatedLocally (d.heap i).id)
    at hsend
  rw [hsend, hrecv, hid, h.initiator]

/-- What was received on a stream is the data that the peer has sent about it. -/
private theorem recvOffset_eq (h : Dialogue config other isServer heard told t c u d)
    (hopen : c.closeErr = none) (hsaid : SaidAll u d t c) {r : Ref} (hr : r < c.count) :
    (c.heap r).recvOffset =
      (Transfer.payload (u.handed.filterMap (Frame.message? (c.heap r).id))).length := by
  cases hcan : (c.heap r).canRecv with
  | true =>
      have hoffset := (h.inbox.streams hopen r hr hcan).offset
      rw [messages_eq hsaid] at hoffset
      exact hoffset
  | false =>
      have hcredited := (History.streams_sound h.valid h.history r hr).credited
      have hzero := hcredited.closed hcan
      have hle := hcredited.recv_le
      have hnone := unsent (History.warrants h.other_valid h.peer)
        (fun i hi hsend hid => by
          rw [h.canSend_eq hr hi hid, hcan] at hsend
          cases hsend)
      rw [List.filterMap_append] at hnone
      rw [hzero, Nat.le_zero] at hle
      rw [(List.append_eq_nil_iff.mp hnone).1, hle]
      rfl

/-- All that the peer has sent was received. -/
theorem received_eq (h : Dialogue config other isServer heard told t c u d)
    (hopen : c.closeErr = none) (hsaid : SaidAll u d t c) : c.received = d.sent := by
  have hbalanced := History.balanced h.valid h.history (h.small hopen)
  have hreceived : c.received = c.totalReceived := hbalanced.arrived
  have hsent : (u.handed.map Frame.dataLength).sum = d.sent := (History.facing h.peer).1.sent_eq
  have hnamed := (History.ordered h.valid h.history).sound.named
  have hknown : ∀ f ∈ u.handed, f.dataLength ≠ 0 →
      ∃ r < c.count, Parsed.stream? (.frame f) = some (c.heap r).id := by
    intro f hf hdata
    cases f with
    | stream f =>
        have hmessage : t.messages f.streamID ≠ [] := by
          rw [messages_eq hsaid]
          exact List.ne_nil_of_mem (List.mem_filterMap.mpr ⟨_, hf, if_pos rfl⟩)
        obtain ⟨r, hr, hid⟩ := h.inbox.known _ hmessage
        exact ⟨r, hr, congrArg some hid.symm⟩
    | _ => exact absurd rfl hdata
  rw [hreceived, ← hsent, ← total_payload_eq hnamed.unique hknown]
  exact Heap.total_congr (fun r hr => h.recvOffset_eq hopen hsaid hr)

/-- If nothing is left to read, the peer may send on the connection. -/
private theorem conn_credit (h : Dialogue config other isServer heard told t c u d)
    (hopen : c.closeErr = none) (hsaid : SaidAll t c u d) (hsaid' : SaidAll u d t c)
    (hwindow : 2 ≤ config.connectionWindow) (hread : ∀ r < c.count, (c.heap r).unread = []) :
    d.sent < d.sendMax := by
  have hbalanced := History.balanced h.valid h.history (h.small hopen)
  rw [(History.config h.history).1] at hbalanced
  have hzero : Heap.total c.ledger.waiting c.count id = 0 := by
    refine Finset.sum_eq_zero (fun r hr => ?_)
    exact List.length_eq_zero_iff.mpr (hread r (Finset.mem_range.mp hr))
  have hwaiting : c.received = c.consumed + Heap.total c.ledger.waiting c.count id :=
    hbalanced.waiting
  have hhalf : c.consumed + config.connectionWindow / 2 ≤ c.recvMax := hbalanced.ample.half
  rw [← h.received_eq hopen hsaid', h.sendMax_eq hopen hsaid]
  omega

/-- If nothing is left to read, the peer may send on a stream that has not ended. -/
private theorem stream_credit (h : Dialogue config other isServer heard told t c u d)
    (hopen : c.closeErr = none) (hsaid : SaidAll t c u d) (hsaid' : SaidAll u d t c)
    (hwindow : 2 ≤ config.streamWindow) (hread : ∀ r < c.count, (c.heap r).unread = []) {i : Ref}
    (hi : i < d.count) (hsend : (d.heap i).sendDone = false) :
    (d.heap i).sendOffset < (d.heap i).sendMax := by
  have hsame := (History.config h.history).1
  have hopened := hsend
  simp only [Stream.sendDone, Bool.or_eq_false_iff, Bool.not_eq_false'] at hopened
  obtain ⟨⟨hcan, hfin⟩, hreset⟩ := hopened
  by_cases hknown : ∃ r < c.count, (c.heap r).id = (d.heap i).id
  · obtain ⟨r, hr, hid⟩ := hknown
    have hcanRecv : (c.heap r).canRecv = true := (h.canSend_eq hr hi hid.symm).symm.trans hcan
    obtain ⟨hoffset, hends, hresets⟩ := h.stream_eq hopen hsaid' hr hcanRecv hi hid.symm
    have hcancelled : (c.heap r).readCancelled = false := by
      by_contra hcase
      have hdone := h.stream_stopped hopen hsaid' hsaid hr hcanRecv hi hid.symm (by simpa using hcase)
      rw [hdone] at hsend
      cases hsend
    have hcredited := (History.streams_sound h.valid h.history r hr).credited
    have hhalf := hcredited.half hcanRecv (hends.trans hfin)
    have hunread := hcredited.unread (hresets.trans hreset) hcancelled
    rw [hread r hr, List.length_nil] at hunread
    rw [← hoffset, h.streamMax_eq hsaid hr hcanRecv hi hid.symm hsend]
    omega
  · obtain ⟨-, hzero, -⟩ := h.stream_unknown hsaid' hi (fun r hr hid => hknown ⟨r, hr, hid⟩)
    have hle := (History.initialSendMax_le h.peer i hi).2
    rw [h.initialSendMax_eq hi hcan, hsame] at hle
    omega

/-- If nothing is left to read, flow control lets the peer send on every stream that has
not ended. -/
theorem sendCredit_pos (h : Dialogue config other isServer heard told t c u d)
    (hopen : c.closeErr = none) (hsaid : SaidAll t c u d) (hsaid' : SaidAll u d t c)
    (hwindows : 2 ≤ config.connectionWindow ∧ 2 ≤ config.streamWindow)
    (hread : ∀ r < c.count, (c.heap r).unread = []) {i : Ref} (hi : i < d.count)
    (hsend : (d.heap i).sendDone = false) : 0 < d.sendCreditLocked (d.heap i) := by
  have hconn := h.conn_credit hopen hsaid hsaid' hwindows.1 hread
  have hstream := h.stream_credit hopen hsaid hsaid' hwindows.2 hread hi hsend
  unfold sendCreditLocked
  rw [if_neg (by omega)]
  omega

end Conn.Dialogue

end Qmux
