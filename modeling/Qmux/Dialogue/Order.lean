import Qmux.Dialogue.Basic

/-!
What a connection has taken of its peer, stream by stream. The messages about a
stream arrive as they were sent, so they are in order; all the data together is
within what the peer has sent; and a stream that the peer has is one that the
connection has opened, or may be told about.
-/

namespace Qmux

open Wire

theorem messages_arrived (frames : List Frame) (id : Nat) :
    (frames.map Frame.arrived).filterMap (Parsed.message? id) =
      frames.filterMap (Frame.message? id) := by
  rw [List.filterMap_map]
  apply List.filterMap_congr
  intro f _
  cases f <;> rfl

theorem Wire.Frame.stream_of_message {f : Frame} {id : Nat} {m : Transfer.Message UInt8}
    (h : f.message? id = some m) : f.arrived.stream? = some id := by
  cases f with
  | stream f => exact congrArg some (Option.ite_none_right_eq_some.mp h).1
  | resetStream f => exact congrArg some (Option.ite_none_right_eq_some.mp h).1
  | _ => cases h

/-- The data of a frame belongs to one stream. -/
private theorem payload_single (f : Frame) (id : Nat) :
    (Transfer.payload ([f].filterMap (Frame.message? id))).length ≤ f.dataLength ∧
      ((Transfer.payload ([f].filterMap (Frame.message? id))).length ≠ 0 →
        Parsed.stream? (.frame f) = some id) := by
  cases f with
  | stream f =>
      by_cases hid : f.streamID = id
      · simp [Frame.message?, hid, Transfer.payload, Transfer.Message.data, Frame.dataLength,
          Parsed.stream?]
      · simp [Frame.message?, hid, Transfer.payload]
  | resetStream f =>
      by_cases hid : f.streamID = id <;>
        simp [Frame.message?, hid, Transfer.payload, Transfer.Message.data]
  | _ => exact ⟨Nat.zero_le _, fun hne => absurd rfl hne⟩

/-- The data of all streams is no more than the frames carry. -/
theorem total_payload_le {heap : Ref → Stream} {count : Nat}
    (hunique : ∀ r < count, ∀ i < count, (heap r).id = (heap i).id → r = i)
    (frames : List Frame) :
    Heap.total heap count (fun s =>
        (Transfer.payload (frames.filterMap (Frame.message? s.id))).length) ≤
      (frames.map Frame.dataLength).sum := by
  induction frames with
  | nil => exact (Finset.sum_eq_zero (fun r _ => rfl)).le
  | cons f rest ih =>
      have hsplit (id : Nat) : Transfer.payload ((f :: rest).filterMap (Frame.message? id)) =
          Transfer.payload ([f].filterMap (Frame.message? id)) ++
            Transfer.payload (rest.filterMap (Frame.message? id)) := by
        rw [← Transfer.payload_append, ← List.filterMap_append]
        rfl
      have hfirst : Heap.total heap count (fun s =>
          (Transfer.payload ([f].filterMap (Frame.message? s.id))).length) ≤ f.dataLength := by
        refine Heap.total_le_of_unique (fun r hr i hi hne hne' => ?_) (fun r _ => (payload_single f _).1)
        have hone := (payload_single f _).2 hne
        have hother := (payload_single f _).2 hne'
        exact hunique i hi r hr (Option.some.inj (hother.symm.trans hone))
      simp only [hsplit, List.length_append, List.map_cons, List.sum_cons]
      unfold Heap.total at hfirst ih ⊢
      rw [Finset.sum_add_distrib]
      exact Nat.add_le_add hfirst ih

/-- The connection has the streams that the frames it stands by are about. -/
theorem Conn.Warrants.named [Quicvarint] {c : Conn} {g : Frame} {id : Nat} (h : c.Warrants g)
    (hstream : g.arrived.stream? = some id) : ∃ r < c.count, (c.heap r).id = id := by
  cases g with
  | stream g =>
      obtain ⟨r, hr, hid, -⟩ := h
      exact ⟨r, hr, hid.trans (Option.some.inj hstream)⟩
  | resetStream g =>
      obtain ⟨r, hr, hid, -⟩ := h
      exact ⟨r, hr, hid.trans (Option.some.inj hstream)⟩
  | stopSending g =>
      obtain ⟨r, hr, hid, -⟩ := h
      exact ⟨r, hr, hid.trans (Option.some.inj hstream)⟩
  | maxStreamData g =>
      obtain ⟨r, hr, hid, -⟩ := h
      exact ⟨r, hr, hid.trans (Option.some.inj hstream)⟩
  | _ => cases hstream

namespace Conn.Dialogue

variable [Quicvarint] [GoAppend] {config other : Config} {isServer : Bool}
  {heard told : List Parsed} {t t' u : Traffic} {c c' d : Conn} {before : List Frame} {g : Frame}

/-- The connection moves on. -/
theorem moves (h : Dialogue config other isServer heard told t c u d)
    (hmoves : Moves (· ∈ heard) c t' c')
    (hhears : (t ++ t').took <+: u.handed.map Frame.arrived) :
    Dialogue config other isServer heard told (t ++ t') c' u d where
  valid := h.valid
  other_valid := h.other_valid
  history := Since.moves h.history hmoves
  peer := h.peer
  said f hf := by
    obtain ⟨g, hg, hread⟩ := h.said f hf
    exact ⟨g, List.mem_append_left _ hg, hread⟩
  taken := h.taken
  hears := hhears

/-- The connection hears more. -/
theorem hear (h : Dialogue config other isServer heard told t c u d) (more : List Parsed) :
    Dialogue config other isServer (heard ++ more) told t c u d :=
  { h with history := Since.mono (fun _ hf => List.mem_append_left _ hf) h.history }

theorem inOrder (h : Dialogue config other isServer heard told t c u d) (id : Nat) :
    Transfer.InOrder (t.messages id) := by
  obtain ⟨rest, hrest⟩ := h.hears
  have horder := (History.handed_inOrder h.other_valid h.peer id).1
  rw [← messages_arrived, ← hrest, List.filterMap_append] at horder
  exact horder.of_append

theorem inbox (h : Dialogue config other isServer heard told t c u d) : c.Inbox t :=
  History.inbox h.valid h.history h.inOrder

/-- What the connection has received is what the frames it took carry. -/
theorem total_le (h : Dialogue config other isServer heard told t c u d)
    (hopen : c.closeErr = none) (htook : t.took = before.map Frame.arrived) :
    c.totalReceived ≤ (before.map Frame.dataLength).sum := by
  have hnamed := (History.ordered h.valid h.history).sound.named
  refine le_trans (Heap.total_mono (Nat.le_refl _) (fun r hr => ?_))
    (total_payload_le hnamed.unique before)
  have hcredited := (History.streams_sound h.valid h.history r hr).credited
  cases hcan : (c.heap r).canRecv with
  | false =>
      have hnone := hcredited.closed hcan
      have hle := hcredited.recv_le
      omega
  | true =>
      have hoffset : (c.heap r).recvOffset = _ := (h.inbox.streams hopen r hr hcan).offset
      rw [hoffset, Traffic.messages, htook, messages_arrived]

/-- The next frame is within what the connection takes in total. -/
theorem room (h : Dialogue config other isServer heard told t c u d) (hopen : c.closeErr = none)
    (htook : t.took = before.map Frame.arrived) (hnext : before ++ [g] <+: u.handed) :
    Word.add c.received g.dataLength ≤ c.recvMax := by
  have hlimited := (History.facing h.peer).1
  have htotal := h.total_le hopen htook
  have hsent : (before.map Frame.dataLength).sum + g.dataLength ≤ d.sent := by
    obtain ⟨rest, hrest⟩ := hnext
    have hsum : _ = d.sent := hlimited.sent_eq
    rw [← hrest, List.map_append, List.map_append, List.sum_append, List.sum_append] at hsum
    simp only [List.map_cons, List.map_nil, List.sum_cons, List.sum_nil] at hsum
    omega
  have hsentMax : d.sent ≤ d.sendMax := hlimited.sent_le
  have hbound : d.sendMax ≤ maxVarint := hlimited.sendMax_le
  have hmax : maxVarint = 2 ^ 62 - 1 := rfl
  have hsmall : c.totalReceived + c.config.connectionWindow < 2 ^ 64 := by
    rw [(History.config h.history).1]
    have hwindow : config.connectionWindow ≤ maxVarint := h.valid.connectionWindow_le
    omega
  have hreceived : c.received = c.totalReceived :=
    (History.balanced h.valid h.history hsmall).arrived
  have hgiven := h.sendMax_le hsmall
  rw [Word.add_of_lt (by omega)]
  omega

/-- A stream that the peer has, the connection has opened, or lets the peer open. -/
theorem known (h : Dialogue config other isServer heard told t c u d) {i : Ref}
    (hi : i < d.count) :
    if c.initiatedLocally (d.heap i).id then
      (d.heap i).id >>> 2 < (c.out (streamDir (d.heap i).id)).next
    else (d.heap i).id >>> 2 < (c.incoming (streamDir (d.heap i).id)).max := by
  have hopened := ((opened_iff d _).mp
    ((History.ordered h.other_valid h.peer).sound.named.opened i hi)).2
  change d.HasOpened (d.heap i).id at hopened
  unfold HasOpened at hopened
  rw [h.initiator] at hopened
  split_ifs with hlocal
  · -- The peer has it by a frame that the connection has sent about it, or a later one.
    simp only [hlocal, Bool.not_true, Bool.false_eq_true, if_false] at hopened
    obtain ⟨f, id, hf, hstream, howner, hdir, hle⟩ :=
      (History.facing h.peer).2.2 _ _ hopened
    obtain ⟨g, hg, rfl⟩ := h.said f hf
    obtain ⟨r, hr, hid⟩ :=
      (History.warrants h.valid h.history g (List.mem_append_left _ hg)).named hstream
    have hours := ((opened_iff c _).mp
      ((History.ordered h.valid h.history).sound.named.opened r hr)).2
    change c.HasOpened (c.heap r).id at hours
    have hother : d.initiatedLocally id = false := by
      unfold Conn.initiatedLocally
      rw [(History.config h.peer).2]
      exact howner
    rw [h.initiator, Bool.not_eq_false'] at hother
    rw [hid, HasOpened, if_pos hother, hdir] at hours
    omega
  · simp only [hlocal, Bool.not_false, if_true] at hopened
    have hnext := (History.facing h.peer).1.outNext_le (streamDir (d.heap i).id)
    exact hopened.trans_le (Nat.le_trans hnext (h.outMax_le _))

end Conn.Dialogue

end Qmux
