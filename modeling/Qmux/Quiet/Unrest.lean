import Qmux.Agreement

/-!
How much is still to come when nobody calls. A frame costs a write and a delivery,
and it may stir its receiver: data moves limits on, STOP_SENDING makes the receiver
reset the stream, and a ping is answered. What a frame stirs up costs less than the
frame, so that there is an end to it. The unrest of an endpoint adds up what is
queued, what the holder of `writeMu` has to write, and the steps of the write loop
up to its next flush.
-/

namespace Qmux

open Wire

/-- What a frame may cost its receiver: the three steps that take the write loop to a flush,
and the frames that are queued for it. -/
def Wire.Parsed.stirs : Parsed → Nat
  | .frame (.stream _) => 7
  | .frame (.resetStream _) => 7
  | .frame (.stopSending _) => 14
  | .frame (.ping f) => if f.response then 0 else 5
  | _ => 0

/-- What a frame costs until it has arrived: its write, its delivery, and what it stirs. -/
def Wire.Frame.cost (f : Frame) : Nat :=
  2 + f.arrived.stirs

namespace Conn

/-- What there is to send, as far as it counts. -/
structure Tidings where
  control : List Frame
  data : Bool
  streams : Dir → Bool
  pong : Bool
  ping : Bool

def tidings (c : Conn) : Tidings where
  control := c.control
  data := c.maxDataPending
  streams dir := (c.incoming dir).pending
  pong := c.pongPending
  ping := c.pingPending

/-- What the frames cost that there are to send. -/
def Tidings.cost (v : Tidings) : Nat :=
  (v.control.map Frame.cost).sum + (if v.data then 2 else 0) + (if v.streams .bidi then 2 else 0) +
    (if v.streams .uni then 2 else 0) + (if v.pong then 2 else 0) + (if v.ping then 7 else 0)

/-- The unrest of a connection: what there is to send, and the steps of the write loop that a
token is for. -/
def unrest (c : Conn) : Nat :=
  (if c.controlWake then 3 else 0) + c.tidings.cost

section Handlers

variable (c : Conn)

/-- What is left alone keeps its cost. -/
theorem unrest_of_tidings {c c' : Conn} (hwake : c'.controlWake = c.controlWake)
    (htidings : c'.tidings = c.tidings) : c'.unrest = c.unrest := by
  unfold unrest
  rw [hwake, htidings]

/-- The frames that a flush takes are what there is to send. -/
theorem controlFrames_cost : (c.controlFrames.map Frame.cost).sum = c.tidings.cost := by
  unfold controlFrames streamsFrame Tidings.cost tidings
  simp only [List.map_append, List.sum_append]
  split_ifs <;> rfl

private theorem Tidings.cost_streams (v : Tidings) (dir : Dir) :
    Tidings.cost { v with streams := Function.update v.streams dir true } ≤ v.cost + 2 := by
  unfold Tidings.cost
  cases dir with
  | bidi =>
      simp only [Function.update_self, Function.update_of_ne (show Dir.uni ≠ .bidi by decide)]
      split_ifs <;> omega
  | uni =>
      simp only [Function.update_self, Function.update_of_ne (show Dir.bidi ≠ .uni by decide)]
      split_ifs <;> omega

private theorem completeLocked_cost (r : Ref) :
    (c.completeLocked r).tidings.cost ≤ c.tidings.cost + 2 := by
  unfold completeLocked
  dsimp only
  split_ifs
  · exact Nat.le_add_right _ _
  · exact Nat.le_add_right _ _
  · have hstreams := Heap.map_update Incoming.pending c.incoming (streamDir (c.heap r).id)
      { c.incoming (streamDir (c.heap r).id) with
        max := Word.add (c.incoming (streamDir (c.heap r).id)).max 1, pending := true }
    refine le_of_eq_of_le ?_ (c.tidings.cost_streams (streamDir (c.heap r).id))
    exact congrArg (fun streams => Tidings.cost { c.tidings with streams := streams }) hstreams

private theorem consumeLocked_cost (n : Nat) :
    (c.consumeLocked n).tidings.cost ≤ c.tidings.cost + 2 := by
  unfold consumeLocked
  dsimp only
  split_ifs
  · unfold Tidings.cost tidings
    dsimp only
    split_ifs <;> omega
  · exact Nat.le_add_right _ _

private theorem queueLocked_cost (f : Frame) :
    (c.queueLocked f).tidings.cost = c.tidings.cost + f.cost := by
  unfold Tidings.cost tidings queueLocked
  simp only [List.map_append, List.sum_append, List.map_cons, List.map_nil, List.sum_cons,
    List.sum_nil]
  omega

private theorem setIncoming_tidings {dir : Dir} {i : Incoming}
    (hpending : i.pending = (c.incoming dir).pending) :
    (c.setIncoming dir i).tidings = c.tidings :=
  congrArg (fun streams => { c.tidings with streams := streams })
    (Heap.map_update_of_eq Incoming.pending c.incoming dir i hpending)

private theorem openThrough_tidings (dir : Dir) (index : Nat) :
    (c.openThrough dir index).controlWake = c.controlWake ∧
      (c.openThrough dir index).tidings = c.tidings := by
  unfold openThrough
  generalize index + 1 - (c.incoming dir).next = k
  induction k with
  | zero => exact ⟨rfl, rfl⟩
  | succ k ih =>
      rw [Function.iterate_succ_apply']
      generalize (fun c => c.openIncoming dir)^[k] c = mid at ih
      have hopened : (mid.openIncoming dir).tidings = mid.tidings := by
        unfold openIncoming
        exact setIncoming_tidings _ rfl
      exact ⟨ih.1, hopened.trans ih.2⟩

private theorem streamLocked_tidings (id : Nat) (recv : Bool) :
    (c.streamLocked id recv).1.controlWake = c.controlWake ∧
      (c.streamLocked id recv).1.tidings = c.tidings := by
  unfold streamLocked
  dsimp only
  split_ifs
  · exact ⟨rfl, rfl⟩
  · exact ⟨rfl, rfl⟩
  · exact ⟨rfl, rfl⟩
  · exact ⟨rfl, rfl⟩
  · exact c.openThrough_tidings _ _

/-- What a handler adds to what there is to send, and the token. -/
private theorem unrest_le {c c' : Conn} {n : Nat}
    (hcost : c'.tidings.cost ≤ c.tidings.cost + n) : c'.unrest ≤ c.unrest + (n + 3) := by
  unfold unrest
  split_ifs <;> omega

private theorem handleStreamLocked_unrest [GoAppend] (f : Wire.Stream) :
    (c.handleStreamLocked f).1.unrest ≤ c.unrest + 7 := by
  refine unrest_le (n := 4) ?_
  have hlookup := congrArg Tidings.cost (c.streamLocked_tidings f.streamID true).2
  unfold handleStreamLocked
  generalize c.streamLocked f.streamID true = result at hlookup ⊢
  obtain ⟨mid, e | _ | r⟩ := result
  · exact hlookup.le.trans (Nat.le_add_right _ _)
  · exact hlookup.le.trans (Nat.le_add_right _ _)
  dsimp only at hlookup ⊢
  split_ifs
  · exact hlookup.le.trans (Nat.le_add_right _ _)
  · exact hlookup.le.trans (Nat.le_add_right _ _)
  · exact hlookup.le.trans (Nat.le_add_right _ _)
  · exact hlookup.le.trans (Nat.le_add_right _ _)
  cases hreceived : mid.receivedLocked f.data.length with
  | error e => exact hlookup.le.trans (Nat.le_add_right _ _)
  | ok next =>
      obtain ⟨-, rfl⟩ := receivedLocked_ok hreceived
      have htake : (takeData { mid with received := Word.add mid.received f.data.length } r f
          ).tidings.cost ≤ c.tidings.cost + 2 := by
        unfold takeData
        dsimp only
        split_ifs
        · exact (consumeLocked_cost _ _).trans (Nat.add_le_add_right hlookup.le 2)
        · exact hlookup.le.trans (Nat.le_add_right _ _)
      exact (completeLocked_cost _ r).trans (Nat.add_le_add_right htake 2)

private theorem handleResetStreamLocked_unrest (f : ResetStream) :
    (c.handleResetStreamLocked f).1.unrest ≤ c.unrest + 7 := by
  refine unrest_le (n := 4) ?_
  have hlookup := congrArg Tidings.cost (c.streamLocked_tidings f.streamID true).2
  unfold handleResetStreamLocked
  generalize c.streamLocked f.streamID true = result at hlookup ⊢
  obtain ⟨mid, e | _ | r⟩ := result
  · exact hlookup.le.trans (Nat.le_add_right _ _)
  · exact hlookup.le.trans (Nat.le_add_right _ _)
  dsimp only at hlookup ⊢
  split_ifs
  · exact hlookup.le.trans (Nat.le_add_right _ _)
  · exact hlookup.le.trans (Nat.le_add_right _ _)
  · exact hlookup.le.trans (Nat.le_add_right _ _)
  cases hreceived : mid.receivedLocked (Word.sub f.finalSize (mid.heap r).recvOffset) with
  | error e => exact hlookup.le.trans (Nat.le_add_right _ _)
  | ok next =>
      obtain ⟨-, rfl⟩ := receivedLocked_ok hreceived
      have htake : (takeReset { mid with
          received := Word.add mid.received (Word.sub f.finalSize (mid.heap r).recvOffset) } r f
          ).tidings.cost ≤ c.tidings.cost + 2 :=
        (consumeLocked_cost _ _).trans (Nat.add_le_add_right hlookup.le 2)
      exact (completeLocked_cost _ r).trans (Nat.add_le_add_right htake 2)

private theorem resetSendLocked_cost (r : Ref) (reason : StreamError) :
    (c.resetSendLocked r reason).tidings.cost ≤ c.tidings.cost + 11 := by
  unfold resetSendLocked
  dsimp only
  split_ifs
  · exact Nat.le_add_right _ _
  · refine (completeLocked_cost _ r).trans ?_
    rw [queueLocked_cost]
    exact Nat.le_refl _

private theorem handleStopSending_unrest (f : StopSending) :
    (c.handleStopSending f).1.unrest ≤ c.unrest + 14 := by
  refine unrest_le (n := 11) ?_
  have hlookup := congrArg Tidings.cost (c.streamLocked_tidings f.streamID false).2
  unfold handleStopSending
  generalize c.streamLocked f.streamID false = result at hlookup ⊢
  obtain ⟨mid, e | _ | r⟩ := result
  · exact hlookup.le.trans (Nat.le_add_right _ _)
  · exact hlookup.le.trans (Nat.le_add_right _ _)
  · exact (mid.resetSendLocked_cost r _).trans (Nat.add_le_add_right hlookup.le 11)

private theorem handleMaxStreamData_unrest (f : MaxStreamData) :
    (c.handleMaxStreamData f).1.unrest = c.unrest := by
  have hlookup := c.streamLocked_tidings f.streamID false
  unfold handleMaxStreamData
  generalize c.streamLocked f.streamID false = result at hlookup ⊢
  obtain ⟨mid, e | _ | r⟩ := result
  · exact unrest_of_tidings hlookup.1 hlookup.2
  · exact unrest_of_tidings hlookup.1 hlookup.2
  · dsimp only at hlookup ⊢
    split_ifs <;> exact unrest_of_tidings hlookup.1 hlookup.2

private theorem handlePingLocked_unrest (f : Ping) (now : Time) :
    (c.handlePingLocked f now).1.unrest ≤ c.unrest + Parsed.stirs (.frame (.ping f)) := by
  unfold handlePingLocked
  dsimp only [Parsed.stirs]
  by_cases hresponse : f.response = true
  · simp only [hresponse, if_true]
    split_ifs <;> exact Nat.le_refl _
  · rw [Bool.not_eq_true] at hresponse
    simp only [hresponse, Bool.false_eq_true, if_false]
    split_ifs
    · exact Nat.le_add_right _ _
    · refine unrest_le (n := 2) ?_
      unfold Tidings.cost tidings pinged
      dsimp only
      split_ifs <;> omega

private theorem handleOtherLocked_unrest [GoAppend] (f : Parsed) (now : Time) :
    (c.handleOtherLocked f now).1.unrest ≤ c.unrest + f.stirs := by
  cases f with
  | blocked => exact Nat.le_refl _
  | frame f =>
      cases f with
      | stream f => exact c.handleStreamLocked_unrest f
      | resetStream f => exact c.handleResetStreamLocked_unrest f
      | stopSending f => exact c.handleStopSending_unrest f
      | maxStreamData f => exact (c.handleMaxStreamData_unrest f).le
      | maxData f =>
          simp only [handleOtherLocked, handleMaxData]
          split_ifs <;> exact Nat.le_refl _
      | maxStreams f =>
          obtain ⟨out, hout⟩ := c.handleMaxStreams_frame f
          simp only [handleOtherLocked, hout]
          exact Nat.le_refl _
      | ping f => exact c.handlePingLocked_unrest f now
      | datagram f =>
          simp only [handleOtherLocked, handleDatagramLocked]
          split_ifs <;> exact Nat.le_refl _
      | _ => exact Nat.le_refl _

theorem reserve_unrest (r : Ref) (n : Nat) : (c.reserve r n).1.unrest = c.unrest := by
  unfold reserve
  dsimp only
  split <;> rfl

theorem finish_unrest (r : Ref) : (c.finish r).1.unrest ≤ c.unrest + 5 := by
  unfold finish
  dsimp only
  split
  · exact Nat.le_add_right _ _
  · split_ifs
    · exact Nat.le_add_right _ _
    · exact unrest_le (completeLocked_cost _ r)

/-- A flush takes all there is to send, and leaves the token. -/
theorem takeControl_unrest (now : Time) :
    (c.takeControl now).1.unrest + ((c.takeControl now).2.map Frame.cost).sum ≤ c.unrest := by
  unfold takeControl
  split_ifs
  · exact Nat.le_refl _
  · obtain ⟨_, _, _, _, hflush⟩ := c.flushed_frame now
    rw [hflush, controlFrames_cost]
    unfold unrest
    simp [Tidings.cost, tidings]

/-- A frame stirs up no more than it may. -/
theorem handleFrameLocked_unrest [GoAppend] (f : Parsed) (now : Time) :
    (c.handleFrameLocked f now).1.unrest ≤ c.unrest + f.stirs := by
  unfold handleFrameLocked
  split
  · split_ifs <;> exact Nat.le_refl _
  · split_ifs
    · exact c.handleOtherLocked_unrest _ now
    · exact Nat.le_add_right _ _

end Handlers

section Records

variable [Quicvarint] [GoAppend]

private theorem handleFrames_unrest (fuel : Nat) (c : Conn) (rec : Bytes) (now : Time) :
    (handleFrames fuel c rec now).1.unrest ≤
      c.unrest + ((framesFrom fuel rec).map Parsed.stirs).sum := by
  induction fuel generalizing c rec with
  | zero => exact Nat.le_refl _
  | succ fuel ih =>
      unfold handleFrames framesFrom
      split_ifs
      · exact Nat.le_add_right _ _
      · cases parse rec with
        | error e => exact Nat.le_refl _
        | ok found =>
            rcases found with _ | ⟨f, rest⟩
            · exact Nat.le_refl _
            · have hfirst := c.handleFrameLocked_unrest f now
              simp only [List.map_cons, List.sum_cons]
              generalize c.handleFrameLocked f now = result at hfirst ⊢
              obtain ⟨next, _ | failure⟩ := result
              · have hrest := ih next rest
                dsimp only at hfirst ⊢
                omega
              · dsimp only at hfirst ⊢
                omega

/-- A record stirs up no more than its frames may. -/
theorem handleRecord_unrest (c : Conn) (rec : Bytes) (now : Time) :
    (c.handleRecord rec now).1.unrest ≤ c.unrest + ((frames rec).map Parsed.stirs).sum :=
  handleFrames_unrest _ c rec now

end Records

end Conn

/-- What a record costs until it has arrived. -/
def recordCost (frames : List Frame) : Nat :=
  2 + (frames.map (fun f => f.arrived.stirs)).sum

theorem packControl_cost [Quicvarint] (frames built : List Frame) (size : Nat) :
    ((packControl frames built size).map recordCost).sum ≤
      (if built = [] then 0 else recordCost built) + (frames.map Frame.cost).sum := by
  induction frames generalizing built size with
  | nil =>
      unfold packControl
      split_ifs
      · exact Nat.le_refl _
      · exact Nat.le_refl _
  | cons f rest ih =>
      have hbuilt : recordCost (built ++ [f]) ≤
          (if built = [] then 0 else recordCost built) + f.cost := by
        unfold recordCost Frame.cost
        simp only [List.map_append, List.sum_append, List.map_cons, List.map_nil, List.sum_cons,
          List.sum_nil]
        split_ifs with hempty
        · simp [hempty]
        · omega
      unfold packControl
      by_cases hfull : size + frameSize f > defaultMaxRecordSize - maxControlFrameSize
      · have hrest := ih [] 0
        rw [if_pos hfull]
        simp only [List.map_cons, List.sum_cons, if_true] at hrest ⊢
        omega
      · have hrest := ih (built ++ [f]) (size + frameSize f)
        rw [if_neg hfull]
        rw [if_neg (by simp)] at hrest
        simp only [List.map_cons, List.sum_cons]
        omega

/-- What the holder of `writeMu` costs until it has written all. -/
def Holder.unrest : Holder → Nat
  | .chunk _ _ => 10
  | .closeSend _ => 15
  | .flush => 1
  | .datagram _ => 3
  | .writing _ records => (records.map recordCost).sum
  | _ => 0

namespace Endpoint

variable [Quicvarint]

/-- The unrest of an endpoint. A write loop that has taken its token has two steps to go until
its flush. -/
def unrest (e : Endpoint) : Nat :=
  e.conn.unrest + e.writeMu.unrest +
    if e.loop = .woken ∧ e.writeMu.loop? = none then 2 else 0

variable {e e' : Endpoint}

/-- The write loop takes its token. -/
theorem wake_unrest (hheld : e.Held) (hselect : e.loop = .select)
    (hwake : e.conn.controlWake = true) :
    unrest { e with loop := .woken, conn := { e.conn with controlWake := false } } + 1 ≤
      e.unrest := by
  have hmu : e.writeMu.loop? = none := by
    cases hloop : e.writeMu.loop? with
    | none => rfl
    | some l =>
        have hheldLoop := hheld.loop l hloop
        rw [hselect] at hheldLoop
        rcases Holder.loop?_eq hloop with rfl | rfl <;> cases hheldLoop
  have htidings : Conn.tidings { e.conn with controlWake := false } = e.conn.tidings := rfl
  unfold unrest Conn.unrest
  simp only [htidings, hselect, hwake, hmu, Bool.false_eq_true, reduceCtorEq, and_self, and_true,
    if_true, if_false]
  omega

/-- The write loop gets the lock. -/
theorem lock_unrest (hfree : e.writeMu = .free) (hlock : e.lock .flush = some e') :
    e'.unrest + 1 ≤ e.unrest := by
  obtain ⟨hwoken, ⟨⟩⟩ := Option.ite_none_right_eq_some.mp hlock
  unfold unrest
  simp [hfree, hwoken, Holder.loop?, Holder.unrest]

/-- The holder runs its critical section. -/
theorem enter_unrest {now : Time} (henter : e.enter now = some e') :
    e'.unrest + 1 ≤ e.unrest := by
  unfold enter at henter
  unfold unrest
  split at henter
  · rename_i r p hmu
    have hreserve := e.conn.reserve_unrest r p.length
    generalize e.conn.reserve r p.length = result at hreserve henter
    obtain ⟨c, _ | ⟨offset, n⟩⟩ := result
    · obtain rfl := Option.some.inj henter
      dsimp only at hreserve ⊢
      rw [hreserve, hmu]
      simp only [Holder.unrest, Holder.loop?]
      omega
    · obtain rfl := Option.some.inj henter
      dsimp only at hreserve ⊢
      rw [hreserve, hmu]
      by_cases hn : n = 0
      · rw [if_pos hn]
        simp only [Holder.unrest, Holder.loop?]
        omega
      · rw [if_neg hn]
        have hcost : Holder.unrest (.writing .stream
            [[.stream ⟨(c.heap r).id, offset, p.take n, false⟩]]) = 9 := rfl
        rw [hcost]
        simp only [Holder.unrest, Holder.loop?]
        omega
  · rename_i r hmu
    have hfinish := e.conn.finish_unrest r
    generalize e.conn.finish r = result at hfinish henter
    obtain ⟨c, _ | _ | finalSize⟩ := result
    · obtain rfl := Option.some.inj henter
      dsimp only at hfinish ⊢
      rw [hmu]
      simp only [Holder.unrest, Holder.loop?]
      omega
    · obtain rfl := Option.some.inj henter
      dsimp only at hfinish ⊢
      rw [hmu]
      simp only [Holder.unrest, Holder.loop?]
      omega
    · obtain rfl := Option.some.inj henter
      have hcost : Holder.unrest (.writing .stream
          [[.stream ⟨(c.heap r).id, finalSize, [], true⟩]]) = 9 := rfl
      dsimp only at hfinish ⊢
      rw [hmu, hcost]
      simp only [Holder.unrest, Holder.loop?]
      omega
  · rename_i hmu
    have hflush := e.conn.takeControl_unrest now
    generalize e.conn.takeControl now = taken at hflush henter
    obtain ⟨c, frames⟩ := taken
    have hpack := packControl_cost frames [] 0
    rw [if_pos rfl] at hpack
    dsimp only at hflush henter
    rw [hmu]
    split at henter
    · obtain rfl := Option.some.inj henter
      simp only [Holder.unrest, Holder.loop?, reduceCtorEq, false_and, and_false, if_false]
      omega
    · obtain rfl := Option.some.inj henter
      simp only [Holder.unrest, Holder.loop?, reduceCtorEq, and_false, if_false]
      omega
  · rename_i p hmu
    rw [hmu]
    split_ifs at henter
    · obtain rfl := Option.some.inj henter
      simp only [Holder.unrest, Holder.loop?]
      omega
    · obtain rfl := Option.some.inj henter
      have hcost : Holder.unrest (.writing .datagram [[.datagram ⟨p⟩]]) = 2 := rfl
      dsimp only
      rw [hcost]
      simp only [Holder.unrest, Holder.loop?]
      omega
  · cases henter

/-- The holder writes a record. -/
theorem write_unrest (hwrite : e.write true = some e') :
    ∃ record, e'.wire = e.wire ++ [record] ∧
      e'.unrest + recordCost record.frames ≤ e.unrest := by
  unfold write at hwrite
  split at hwrite
  · rename_i w frames rest hmu
    split at hwrite
    · cases hwrite
    · rename_i bytes hencoded
      refine ⟨⟨frames, bytes, hencoded⟩, ?_⟩
      rw [if_pos rfl] at hwrite
      split_ifs at hwrite
      split at hwrite
      · obtain rfl := Option.some.inj hwrite
        cases w with
        | parameters | flush | stream | datagram | close =>
            refine ⟨rfl, ?_⟩
            unfold unrest
            simp only [hmu, written, Holder.unrest, Holder.loop?, List.map_cons, List.map_nil,
              List.sum_cons, List.sum_nil, reduceCtorEq, false_and, and_false, if_false]
            omega
      · obtain rfl := Option.some.inj hwrite
        have hloop : Holder.loop? (.writing w (frames :: rest)) =
            Holder.loop? (.writing w rest) := by
          cases w <;> rfl
        refine ⟨rfl, ?_⟩
        unfold unrest
        simp only [hmu, hloop, Holder.unrest, List.map_cons, List.sum_cons]
        omega
  · cases hwrite

variable [GoAppend]

/-- The read loop handles a record. -/
theorem receive_unrest (rec : Bytes) (now : Time) :
    (e.receive rec now).unrest ≤ e.unrest + ((Wire.frames rec).map Parsed.stirs).sum := by
  have hrecord := e.conn.handleRecord_unrest rec now
  unfold receive
  dsimp only
  split_ifs
  · exact Nat.le_add_right _ _
  · generalize e.conn.handleRecord rec now = result at hrecord ⊢
    obtain ⟨c, _ | err | err⟩ := result
    all_goals
      unfold unrest
      dsimp only at hrecord ⊢
      omega

end Endpoint

end Qmux
