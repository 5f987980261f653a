import Qmux.Dialogue.Order
import Qmux.Records
import Qmux.Session

/-!
A connection accepts what its peer sends. Whatever frame comes next, the check
that the handler makes of it follows from what the two sides have told each
other: the frame is in its place, the stream is known, its data is in order and
within both windows, and a ping is new, or answers one that was sent.
-/

namespace Qmux

open Wire

namespace Conn.Dialogue

variable [Quicvarint] [GoAppend] {config other : Config} {isServer : Bool}
  {heard told : List Parsed} {t u : Traffic} {c d : Conn} {before : List Frame} {g : Frame}

/-- The parameters come first, and only first. -/
theorem first (h : Dialogue config other isServer heard told t c u d)
    (htook : t.took = before.map Frame.arrived) (hnext : before ++ [g] <+: u.handed) :
    (c.ready = false ∧ ∃ p, g = .transportParameters p) ∨
      c.ready = true ∧ ∀ p, g ≠ .transportParameters p := by
  obtain ⟨rest, hhanded, honce⟩ := History.parameters h.peer
  have hlimited := (History.facing h.history).1
  rw [hhanded] at hnext
  cases hready : c.ready with
  | false =>
      have hnone : t.took = [] := (hlimited.unready hready).1
      obtain rfl : before = [] := List.map_eq_nil_iff.mp (htook.symm.trans hnone)
      exact Or.inl ⟨rfl, _, (List.cons_prefix_cons.mp hnext).1⟩
  | true =>
      obtain ⟨more, hsome⟩ := hlimited.parameters hready
      rw [htook] at hsome
      cases before with
      | nil => cases hsome
      | cons f before =>
          refine Or.inr ⟨rfl, ?_⟩
          rintro p rfl
          have hmem := (List.cons_prefix_cons.mp hnext).2.subset
            (List.mem_append_right before (List.mem_singleton_self _))
          exact honce p hmem

/-- The lookup of a stream of the peer succeeds, and leaves the dialogue as it is. -/
theorem lookup (h : Dialogue config other isServer heard told t c u d)
    (hopen : c.closeErr = none) (hready : c.ready = true) {i : Ref} (hi : i < d.count)
    {id : Nat} (hid : (d.heap i).id = id) {f : Parsed} (hstream : f.stream? = some id)
    (recv : Bool) (hside : (if recv then (d.heap i).canSend else (d.heap i).canRecv) = true) :
    ∃ mid found, c.streamLocked id recv = (mid, .ok found) ∧
      Dialogue config other isServer (heard ++ [f]) told t mid u d ∧ mid.closeErr = none ∧
      mid.streams id = found ∧ ¬ (streamDir id = .uni ∧ mid.initiatedLocally id = recv) := by
  obtain rfl := hid
  have hnamed := (History.ordered h.other_valid h.peer).sound.named
  have hbound : (d.heap i).id ≤ maxVarint := Nat.le_pred_of_lt (hnamed.opened i hi).1
  have hsend : (d.heap i).canSend =
      (streamDir (d.heap i).id != .uni || d.initiatedLocally (d.heap i).id) := hnamed.send i hi
  have hrecv : (d.heap i).canRecv =
      (streamDir (d.heap i).id != .uni || !d.initiatedLocally (d.heap i).id) := hnamed.recv i hi
  obtain ⟨hmoves, hopen', -, hfound⟩ := @streamLocked_moves _ _ (· ∈ heard ++ [f]) c f _
    recv hopen hready (List.mem_append_right heard (List.mem_singleton_self f)) hstream hbound
  have hok : ∃ found, (c.streamLocked (d.heap i).id recv).2 = .ok found := by
    have hknown := h.known hi
    unfold streamLocked
    dsimp only
    split_ifs with hdir hlocal hnext hmax
    · rw [hsend, hrecv, h.initiator, hdir.1, hdir.2] at hside
      cases recv <;> simp at hside
    · rw [if_pos hlocal] at hknown
      omega
    · exact ⟨_, rfl⟩
    · rw [if_neg hlocal] at hknown
      omega
    · exact ⟨_, rfl⟩
  obtain ⟨found, hok⟩ := hok
  obtain ⟨htable, -, hdir⟩ := hfound found hok
  have hhears : (t ++ {}).took <+: u.handed.map Frame.arrived := t.append_empty.symm ▸ h.hears
  refine ⟨_, found, Prod.ext rfl hok, ?_, hopen', htable, hdir⟩
  exact t.append_empty ▸ (h.hear [f]).moves hmoves hhears

/-- The peer has the stream that the next frame sends on. -/
theorem warranted (h : Dialogue config other isServer heard told t c u d)
    (hnext : before ++ [g] <+: u.handed) : d.Warrants g :=
  History.warrants h.other_valid h.peer g (List.mem_append_left _
    (hnext.subset (List.mem_append_right before (List.mem_singleton_self g))))

/-- A stream that data of the peer is looked up for is one to receive on. -/
theorem receiving (h : Dialogue config other isServer heard told t c u d)
    (hopen : c.closeErr = none) {id : Nat} {r : Ref} (htable : c.streams id = some r)
    (hdir : ¬ (streamDir id = .uni ∧ c.initiatedLocally id = true)) :
    r < c.count ∧ (c.heap r).id = id ∧ (c.heap r).canRecv = true := by
  have hordered := History.ordered h.valid h.history
  obtain ⟨hr, hid, -⟩ := hordered.of_table hopen htable
  have hrecv : (c.heap r).canRecv =
      (streamDir (c.heap r).id != .uni || !c.initiatedLocally (c.heap r).id) :=
    hordered.sound.named.recv r hr
  refine ⟨hr, hid, ?_⟩
  rw [hrecv, hid]
  cases hlocal : c.initiatedLocally id with
  | false => simp
  | true =>
      have hbidi : streamDir id ≠ .uni := fun huni => hdir ⟨huni, hlocal⟩
      simpa using hbidi

/-- The next message about a stream is in order, and within the stream's window. -/
theorem arriving (h : Dialogue config other isServer heard told t c u d)
    (hopen : c.closeErr = none) (htook : t.took = before.map Frame.arrived)
    (hnext : before ++ [g] <+: u.handed) {i r : Ref} (hi : i < d.count)
    (hid : (d.heap i).id = (c.heap r).id) (hr : r < c.count) (hcan : (c.heap r).canRecv = true)
    {m : Transfer.Message UInt8} (hm : g.message? (c.heap r).id = some m) :
    m.position = (c.heap r).recvOffset ∧ (c.heap r).finRecv = false ∧
      (c.heap r).recvReset = false ∧
      Word.add (c.heap r).recvOffset m.data.length ≤ (c.heap r).recvMax := by
  have hreceived := h.inbox.streams hopen r hr hcan
  have hoffset : (c.heap r).recvOffset = _ := hreceived.offset
  have hsending := (History.outbox h.other_valid h.peer).streams i hi
  have hmax := h.streamMax_le hr hcan hi hid
  have hbound := hsending.bounded
  obtain ⟨horder, hcredit⟩ := hsending.of_append
  obtain ⟨after, hafter⟩ := hnext
  have htaken : t.messages (c.heap r).id = before.filterMap (Frame.message? (c.heap r).id) := by
    rw [Traffic.messages, htook, messages_arrived]
  have hsplit : u.handed.filterMap (Frame.message? (c.heap r).id) =
      t.messages (c.heap r).id ++ m :: after.filterMap (Frame.message? (c.heap r).id) := by
    rw [← hafter, List.filterMap_append, List.filterMap_append, List.filterMap_cons_some hm,
      htaken, List.append_assoc]
    rfl
  rw [hid, hsplit] at horder hcredit
  have hopen : ¬ ((c.heap r).finRecv = true ∨ (c.heap r).recvReset = true) := by
    intro hcase
    obtain ⟨x, hx, hends⟩ := hreceived.ended_iff.mp hcase
    rw [horder.not_ended x hx] at hends
    cases hends
  simp only [not_or, Bool.not_eq_true] at hopen
  refine ⟨(horder.position _ _ _ rfl).trans hoffset.symm, hopen.1, hopen.2, ?_⟩
  have hdata : Transfer.payload (m :: after.filterMap (Frame.message? (c.heap r).id)) =
      m.data ++ Transfer.payload (after.filterMap (Frame.message? (c.heap r).id)) :=
    List.flatMap_cons
  rw [Transfer.payload_append, hdata, List.length_append, List.length_append] at hcredit
  have hvarint : maxVarint = 2 ^ 62 - 1 := rfl
  rw [Word.add_of_lt (by omega)]
  omega

/-- Data of the peer is accepted. -/
private theorem accepts_stream (h : Dialogue config other isServer heard told t c u d)
    (hopen : c.closeErr = none) (hready : c.ready = true)
    (htook : t.took = before.map Frame.arrived) {f : Wire.Stream}
    (hnext : before ++ [.stream f] <+: u.handed) : (c.handleStreamLocked f).2 = none := by
  obtain ⟨i, hi, hid, hsend⟩ := h.warranted hnext
  obtain ⟨mid, found, hlookup, hmid, hopen', htable, hdir⟩ :=
    h.lookup hopen hready hi hid (f := .frame (.stream f)) rfl true hsend
  unfold handleStreamLocked
  rw [hlookup]
  cases found with
  | none => rfl
  | some r =>
      obtain ⟨hr, hname, hcan⟩ := hmid.receiving hopen' htable hdir
      obtain ⟨hoffset, hfin, hreset, hmax⟩ := hmid.arriving hopen' htook hnext hi
        (hid.trans hname.symm) hr hcan (m := .segment f.offset f.data f.fin)
        (by rw [hname]; exact if_pos rfl)
      have hroom := hmid.room hopen' htook hnext
      change f.offset = _ at hoffset
      change Word.add _ f.data.length ≤ _ at hmax hroom
      simp [hoffset, hfin, hreset, Nat.not_lt.mpr hmax, receivedLocked, Nat.not_lt.mpr hroom]

/-- A reset of the peer is accepted. -/
private theorem accepts_reset (h : Dialogue config other isServer heard told t c u d)
    (hopen : c.closeErr = none) (hready : c.ready = true)
    (htook : t.took = before.map Frame.arrived) {f : ResetStream}
    (hnext : before ++ [.resetStream f] <+: u.handed) :
    (c.handleResetStreamLocked f).2 = none := by
  obtain ⟨i, hi, hid, hsend⟩ := h.warranted hnext
  obtain ⟨mid, found, hlookup, hmid, hopen', htable, hdir⟩ :=
    h.lookup hopen hready hi hid (f := .frame (.resetStream f)) rfl true hsend
  unfold handleResetStreamLocked
  rw [hlookup]
  cases found with
  | none => rfl
  | some r =>
      obtain ⟨hr, hname, hcan⟩ := hmid.receiving hopen' htable hdir
      obtain ⟨hsize, hfin, hreset, -⟩ := hmid.arriving hopen' htook hnext hi
        (hid.trans hname.symm) hr hcan (m := .reset f.finalSize)
        (by rw [hname]; exact if_pos rfl)
      have hroom := hmid.room hopen' htook hnext
      change f.finalSize = _ at hsize
      change Word.add _ 0 ≤ _ at hroom
      have hcredited := (History.streams_sound hmid.valid hmid.history r hr).credited
      have hsmall := hcredited.small
      have hnone : Word.sub (mid.heap r).recvOffset (mid.heap r).recvOffset = 0 := by
        rw [Word.sub_of_le (Nat.le_refl _) (by omega), Nat.sub_self]
      simp [hsize, hfin, hreset, Nat.not_lt.mpr hcredited.recv_le, hnone, receivedLocked,
        Nat.not_lt.mpr hroom]

private theorem accepts_stopSending (h : Dialogue config other isServer heard told t c u d)
    (hopen : c.closeErr = none) (hready : c.ready = true) {f : StopSending}
    (hnext : before ++ [.stopSending f] <+: u.handed) : (c.handleStopSending f).2 = none := by
  obtain ⟨i, hi, hid, hrecv, -⟩ := h.warranted hnext
  obtain ⟨mid, found, hlookup, -⟩ :=
    h.lookup hopen hready hi hid (f := .frame (.stopSending f)) rfl false hrecv
  unfold handleStopSending
  rw [hlookup]
  cases found <;> rfl

private theorem accepts_maxStreamData (h : Dialogue config other isServer heard told t c u d)
    (hopen : c.closeErr = none) (hready : c.ready = true) {f : MaxStreamData}
    (hnext : before ++ [.maxStreamData f] <+: u.handed) :
    (c.handleMaxStreamData f).2 = none := by
  obtain ⟨i, hi, hid, hrecv, -⟩ := h.warranted hnext
  obtain ⟨mid, found, hlookup, -⟩ :=
    h.lookup hopen hready hi hid (f := .frame (.maxStreamData f)) rfl false hrecv
  unfold handleMaxStreamData
  rw [hlookup]
  cases found with
  | none => rfl
  | some r =>
      dsimp only
      split_ifs <;> rfl

/-- A request of the peer is later than those before it, and a response answers a
request that the connection has sent. -/
private theorem accepts_ping (h : Dialogue config other isServer heard told t c u d)
    (htook : t.took = before.map Frame.arrived) {f : Ping}
    (hnext : before ++ [.ping f] <+: u.handed) (now : Time) :
    (c.handlePingLocked f now).2 = none := by
  have hpings := (History.facing h.history).2.1
  have hpeer := (History.facing h.peer).2.1
  obtain ⟨after, hafter⟩ := hnext
  unfold handlePingLocked
  split_ifs with hresponse hunsent hlatest hsequence
  · have hanswer : .ping ⟨true, f.sequence⟩ ∈ u.handed := by
      rw [← hafter, ← hresponse]
      simp
    have hasked := (h.warrants (h.taken (hpeer.pong_taken _ (Or.inr hanswer)))
      (by simp) (by simp)).1
    exact absurd (hpings.asked_lt _ hasked) (Nat.not_lt.mpr hunsent)
  · rfl
  · rfl
  · have hlast := hpings.last_taken c.peerPingLast (if_pos hsequence.1)
    rw [htook] at hlast
    obtain ⟨b, hb, hread⟩ := List.mem_map.mp hlast
    have hrequest : b = .ping ⟨false, c.peerPingLast⟩ := by
      cases b with
      | ping b => exact Parsed.frame.inj hread
      | _ => cases hread
    have hordered := hpeer.asked_ordered
    rw [← hafter, List.append_assoc] at hordered
    have hlt := (List.pairwise_append.mp hordered).2.2 b hb (.ping f) (by simp)
      c.peerPingLast f.sequence hrequest (by rw [← Bool.eq_false_iff.mpr hresponse])
    exact absurd hsequence.2 (Nat.not_le.mpr hlt)
  · rfl

/-- Once the peer is ready it knows the parameters of the connection. -/
theorem peer_parameters (h : Dialogue config other isServer heard told t c u d)
    (hready : d.ready = true) : d.peer = c.localParameters.received := by
  obtain ⟨rest, hfirst⟩ := (History.facing h.peer).1.parameters hready
  exact h.parameters (h.taken (hfirst ▸ List.mem_cons_self))

private theorem accepts_datagram (h : Dialogue config other isServer heard told t c u d)
    {f : Datagram} (hnext : before ++ [.datagram f] <+: u.handed) :
    (c.handleDatagramLocked f).2 = none := by
  obtain ⟨hready, hlen⟩ := h.warranted hnext
  have hlimit : d.peer.maxDatagramFrameSize = c.config.maxDatagramFrameSize.toNat := by
    rw [h.peer_parameters hready]
    rfl
  have hle := hlen.trans (Nat.min_le_left _ _)
  rw [hlimit, Datagram.len] at hle
  unfold handleDatagramLocked
  split_ifs with hlarge
  · omega
  · rfl
  · rfl

/-- No frame of the peer is a violation. -/
theorem accepts (h : Dialogue config other isServer heard told t c u d)
    (hopen : c.closeErr = none) (htook : t.took = before.map Frame.arrived)
    (hnext : before ++ [g] <+: u.handed) (now : Time) (err : Wire.Error) :
    (c.handleFrameLocked g.arrived now).2 ≠ some (.violation err) := by
  have hnone {result : Option Wire.Error} (hresult : result = none) :
      result.map Failure.violation ≠ some (.violation err) := by
    rw [hresult]
    exact Option.some_ne_none _ |>.symm
  rcases h.first htook hnext with ⟨hready, p, rfl⟩ | ⟨hready, hother⟩
  · simp [Frame.arrived, Frame.received, handleFrameLocked, hready]
  · have hframe : c.handleFrameLocked g.arrived now = c.handleOtherLocked g.arrived now := by
      cases g with
      | transportParameters p => exact absurd rfl (hother p)
      | _ => simp [Frame.arrived, Frame.received, handleFrameLocked, hready]
    rw [hframe]
    cases g with
    | stream f => exact hnone (h.accepts_stream hopen hready htook hnext)
    | resetStream f => exact hnone (h.accepts_reset hopen hready htook hnext)
    | stopSending f => exact hnone (h.accepts_stopSending hopen hready hnext)
    | maxStreamData f => exact hnone (h.accepts_maxStreamData hopen hready hnext)
    | ping f => exact hnone (h.accepts_ping htook hnext now)
    | datagram f => exact hnone (h.accepts_datagram hnext)
    | transportParameters p => exact absurd rfl (hother p)
    | _ => simp [Frame.arrived, Frame.received, handleOtherLocked]

/-- One more frame of the peer is taken. -/
theorem take (h : Dialogue config other isServer heard told t c u d)
    (hopen : c.closeErr = none) (htook : t.took = before.map Frame.arrived)
    (hnext : before ++ [g] <+: u.handed) (hbound : g.arrived.Bounded maxVarint) (now : Time)
    {next : Conn} (hframe : c.handleFrameLocked g.arrived now = (next, none)) :
    Dialogue config other isServer (heard ++ [g.arrived]) told
      (t ++ .accepting [g.arrived] now) next u d := by
  have hmoves := @handleFrameLocked_moves _ _ (· ∈ heard ++ [g.arrived]) c g.arrived hopen
    (List.mem_append_right heard (List.mem_singleton_self _)) hbound now
  rw [hframe] at hmoves
  refine (h.hear [g.arrived]).moves hmoves ?_
  have hmap := hnext.map Frame.arrived
  rw [List.map_append, ← htook] at hmap
  exact hmap

/-- No record of the peer is a violation. -/
theorem accepts_frames (h : Dialogue config other isServer heard told t c u d)
    (htook : c.closeErr = none → t.took = before.map Frame.arrived) {frames : List Frame}
    (hnext : before ++ frames <+: u.handed) {rec : Bytes}
    (hparses : Parses rec (frames.map Frame.arrived)) (hsize : rec.length ≤ maxVarint)
    (now : Time) (err : Wire.Error) (fuel : Nat) :
    (handleFrames fuel c rec now).2 ≠ some (.violation err) := by
  induction fuel generalizing heard t c before frames rec with
  | zero => simp [handleFrames]
  | succ fuel ih =>
      unfold handleFrames
      split_ifs with hend
      · simp
      simp only [not_or, Bool.not_eq_true, Option.isSome_eq_false_iff,
        Option.isNone_iff_eq_none] at hend
      cases frames with
      | nil =>
          cases hparses with
          | nil hdone => simp [hdone]
      | cons g frames =>
          cases hparses with
          | @cons _ rest _ _ hparse hrest =>
              have hsplit : before ++ [g] ++ frames <+: u.handed := by
                rwa [List.append_assoc]
              have hfirst : before ++ [g] <+: u.handed := (List.prefix_append _ _).trans hsplit
              obtain ⟨hbound, hshort⟩ := parse_bounded hparse
              have haccepts := h.accepts hend.2 (htook hend.2) hfirst now err
              rw [hparse]
              rcases hframe : c.handleFrameLocked g.arrived now with ⟨next, _ | failure⟩
              · simp only [hframe]
                refine ih (h.take hend.2 (htook hend.2) hfirst (hbound.mono hsize) now hframe)
                  (fun _ => ?_) hsplit hrest (by omega)
                rw [Traffic.append_took, htook hend.2, List.map_append]
                rfl
              · simp only [hframe]
                rw [hframe] at haccepts
                exact haccepts

end Conn.Dialogue

end Qmux
