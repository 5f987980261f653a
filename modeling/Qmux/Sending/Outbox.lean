import Qmux.Facing.View
import Qmux.Lib.Transfer
import Qmux.Promises

/-!
The sending side of the streams. Each stream is a transfer of its own: what is
handed out and what is queued for it, one after the other, are its messages in
order, also when a reset is queued while a writer holds `writeMu`.
-/

namespace Qmux

open Wire

/-- What a frame says about the data sent on the stream `id`. -/
def Wire.Frame.message? (id : Nat) : Frame → Option (Transfer.Message UInt8)
  | .stream f => if f.streamID = id then some (.segment f.offset f.data f.fin) else none
  | .resetStream f => if f.streamID = id then some (.reset f.finalSize) else none
  | _ => none

/-- The limit a stream starts with by the parameters of the peer. -/
def Wire.Parameters.initialSendMax (p : Parameters) (isServer : Bool) (id : Nat) : Nat :=
  match streamDir id, initiatedLocally isServer id with
  | .uni, true => p.initialMaxStreamDataUni
  | .uni, false => 0
  | .bidi, true => p.initialMaxStreamDataBidiRemote
  | .bidi, false => p.initialMaxStreamDataBidiLocal

/-- The limit on the data of the stream `id` that a frame gives. -/
def Wire.Parsed.streamDataLimit? (isServer : Bool) (id : Nat) : Parsed → Option Nat
  | .frame (.transportParameters p) => some (p.initialSendMax isServer id)
  | .frame (.maxStreamData f) => if f.streamID = id then some f.max else none
  | _ => none

def Stream.sender (s : Stream) : Transfer.Sender :=
  ⟨s.sendOffset, s.sendMax, s.finSent, s.sendErr.isSome⟩

namespace Conn

theorem newStream_sender (c : Conn) (id : Nat) (accepted : Bool) :
    Stream.sender { c.newStream id with accepted := accepted } =
      ⟨0, c.peer.initialSendMax c.isServer id, false, false⟩ := by
  unfold newStream Stream.sender Parameters.initialSendMax initiatedLocally
  cases streamDir id <;> cases Qmux.initiatedLocally c.isServer id <;> rfl

theorem controlFrames_message (c : Conn) (id : Nat) :
    c.controlFrames.filterMap (Frame.message? id) =
      c.control.filterMap (Frame.message? id) := by
  unfold controlFrames streamsFrame
  simp only [List.filterMap_append]
  split_ifs <;> simp [Frame.message?]

/-- The queue has no data. -/
theorem control_resets {c : Conn} (hcontrol : ∀ f ∈ c.control, queuedFrame f = true) (id : Nat) :
    ∀ m ∈ c.control.filterMap (Frame.message? id), m.isReset = true := by
  intro m hm
  obtain ⟨f, hf, hmessage⟩ := List.mem_filterMap.mp hm
  cases f with
  | stream f => exact absurd (hcontrol _ hf) Bool.false_ne_true
  | resetStream f =>
      obtain ⟨-, ⟨⟩⟩ := Option.ite_none_right_eq_some.mp hmessage
      rfl
  | _ => cases hmessage

section Moves

variable [Quicvarint] [GoAppend] {heard : Parsed → Prop} {t : Traffic} {c c' : Conn}

/-- A frame of the peer raises the limit of the stream. -/
def Raised (took : List Parsed) (id limit : Nat) : Prop :=
  ∃ f : MaxStreamData, .frame (.maxStreamData f) ∈ took ∧ f.streamID = id ∧ f.max = limit ∧
    limit ≤ maxVarint

omit [Quicvarint] in
/-- What an act says about the data of its stream. -/
private theorem Act.sender {r : Ref} {s : Stream} {frames : List Frame} {d : Conn}
    (hact : Act heard c r t s frames d) :
    (c.heap r).sender.Step (Raised t.took (c.heap r).id)
      (t.handed.filterMap (Frame.message? (c.heap r).id))
      (frames.filterMap (Frame.message? (c.heap r).id)) s.sender := by
  have hkept {s' : Stream} (h : s'.sender = (c.heap r).sender) :
      (c.heap r).sender.Step (α := UInt8) (Raised t.took (c.heap r).id) [] [] s'.sender :=
    h.symm ▸ .still
  cases hact with
  | data =>
      apply hkept
      unfold Stream.takeData Stream.bufferLocked
      dsimp only
      split_ifs <;> rfl
  | reset => exact hkept rfl
  | @resetSend _ reason hcause hsend =>
      have hhanded : t.handed = [] := by
        rcases hcause with ⟨-, rfl⟩ | ⟨f, -, -, -, rfl⟩ <;> rfl
      simp only [Stream.sendDone, Bool.or_eq_false_iff] at hsend
      have hframes : [Frame.resetStream
          ⟨(c.heap r).id, reason.code, (c.heap r).sendOffset⟩].filterMap
          (Frame.message? (c.heap r).id) = [.reset (c.heap r).sendOffset] := by
        simp [Frame.message?]
      rw [hhanded, hframes]
      exact .reset hsend.1.2 hsend.2
  | @read n =>
      have hframes : ((c.heap r).copyOutGrant n c.config.streamWindow).filterMap
          (Frame.message? (c.heap r).id) = [] := by
        unfold Stream.copyOutGrant
        dsimp only
        split_ifs <;> rfl
      rw [hframes]
      apply hkept
      unfold Stream.copyOut Stream.advance
      dsimp only
      split_ifs <;> rfl
  | cancel =>
      split_ifs
      · exact hkept rfl
      · exact hkept rfl
  | finish hholds herr hfin =>
      have hframes : [Frame.stream ⟨(c.heap r).id, (c.heap r).sendOffset, [], true⟩].filterMap
          (Frame.message? (c.heap r).id) = [.segment (c.heap r).sendOffset [] true] := by
        simp [Frame.message?]
      rw [hframes]
      exact .fin hfin (by simp [Stream.sender, herr])

omit [Quicvarint] in
/-- An act says nothing about the data of other streams. -/
private theorem Act.message_none {r : Ref} {s : Stream} {frames : List Frame} {d : Conn}
    (hact : Act heard c r t s frames d) {id : Nat} (hid : (c.heap r).id ≠ id) :
    t.handed.filterMap (Frame.message? id) = [] ∧ frames.filterMap (Frame.message? id) = [] := by
  cases hact with
  | resetSend hcause =>
      have hhanded : t.handed = [] := by
        rcases hcause with ⟨-, rfl⟩ | ⟨f, -, -, -, rfl⟩ <;> rfl
      rw [hhanded]
      exact ⟨rfl, by simp [Frame.message?, hid]⟩
  | read =>
      refine ⟨rfl, ?_⟩
      unfold Stream.copyOutGrant
      dsimp only
      split_ifs <;> rfl
  | cancel =>
      refine ⟨rfl, ?_⟩
      split_ifs <;> rfl
  | finish => exact ⟨by simp [Frame.message?, hid], rfl⟩
  | _ => exact ⟨rfl, rfl⟩

/-- What a move says about the data of a stream. -/
theorem sender_of_move (hordered : c.Ordered) (htidy : ∀ r < c.count, (c.heap r).Tidy)
    {r : Ref} (hr : r < c.count) (hoffset : (c.heap r).sendOffset ≤ maxVarint)
    (hmax : (c.heap r).sendMax ≤ maxVarint) (hmove : Move heard c t c') :
    ∃ handed queued, (t.handed ++ c'.control).filterMap (Frame.message? (c.heap r).id) =
        handed ++ c.control.filterMap (Frame.message? (c.heap r).id) ++ queued ∧
      (c.heap r).sender.Step (Raised t.took (c.heap r).id) handed queued
        (c'.heap r).sender := by
  have hkept (hlog : t.handed.filterMap (Frame.message? (c.heap r).id) = [])
      (hcontrol : c'.control = c.control) (hsender : (c'.heap r).sender = (c.heap r).sender) :
      ∃ handed queued, (t.handed ++ c'.control).filterMap (Frame.message? (c.heap r).id) =
          handed ++ c.control.filterMap (Frame.message? (c.heap r).id) ++ queued ∧
        (c.heap r).sender.Step (Raised t.took (c.heap r).id) handed queued
          (c'.heap r).sender := by
    refine ⟨[], [], ?_, hsender.symm ▸ .still⟩
    rw [List.filterMap_append, hlog, hcontrol, List.append_nil]
  have hset (i : Ref) (s : Stream) (hs : s.sender = (c.heap i).sender) :
      (Function.update c.heap i s r).sender = (c.heap r).sender :=
    congrFun (Heap.map_update_of_eq Stream.sender c.heap i s hs) r
  have hnew (s : Stream) : (Function.update c.heap c.count s r).sender = (c.heap r).sender := by
    rw [Function.update_of_ne (Nat.ne_of_lt hr)]
  cases hmove with
  | still htook hhanded hpings hreads hcore =>
      have hstream : (c'.heap r).core = (c.heap r).core := congrFun (congrArg heap hcore) r
      exact hkept (by rw [hhanded]; rfl) (congrArg Conn.control hcore :)
        (congrArg Stream.sender hstream :)
  | @act i _ s frames d hopen hact =>
      have hi := (hordered.of_act htidy hopen hact).1
      rw [List.filterMap_append, hact.touches.control, List.filterMap_append,
        hact.touches.stream Stream.sender (fun _ => rfl)]
      rcases eq_or_ne r i with rfl | hne
      · rw [Function.update_self]
        exact ⟨_, _, (List.append_assoc ..).symm, hact.sender⟩
      · have hother : (c.heap i).id ≠ (c.heap r).id :=
          fun heq => hne (hordered.sound.named.unique r hr i hi heq.symm)
        rw [Function.update_of_ne hne, (hact.message_none hother).1,
          (hact.message_none hother).2]
        exact ⟨[], [], by simp, .still⟩
  | openIncoming => exact hkept rfl rfl (hnew _)
  | openLocal => exact hkept rfl rfl (hnew _)
  | @accept dir i rest =>
      refine hkept rfl (completeLocked_control _ _) ?_
      unfold acceptNext
      rw [completeLocked_stream Stream.sender (fun _ => rfl)]
      exact hset _ _ rfl
  | @raiseStream i f hopen hready hheard hbound htable hlt =>
      rcases eq_or_ne r i with rfl | hne
      · refine ⟨[], [], by simp; rfl, ?_⟩
        have hid := (hordered.of_table hopen htable).2.1
        have hstate : ((c.raiseStream r f.max).heap r).sender =
            { (c.heap r).sender with limit := f.max } := by
          simp [raiseStream, setStream, Stream.sender]
        rw [hstate]
        exact .raise ⟨f, List.mem_singleton_self _, hid.symm, rfl, hbound.2⟩ hlt
      · refine hkept rfl rfl ?_
        simp [raiseStream, setStream, Function.update_of_ne hne]
  | @raiseStreams f =>
      obtain ⟨out, hout⟩ := c.handleMaxStreams_frame f
      rw [hout] at hkept ⊢
      exact hkept rfl rfl rfl
  | @reserve i p n hopen hholds herr hfin hcredit hlen hchunk =>
      have hi := (holdsSend_iff.mp hholds).1
      rcases eq_or_ne r i with rfl | hne
      · have hstate : ((c.spend r n).heap r).sender =
            { (c.heap r).sender with offset := Word.add (c.heap r).sendOffset n } := by
          simp [spend, setStream, Stream.sender]
        have hbound : maxVarint = 2 ^ 62 - 1 := rfl
        rcases Nat.eq_zero_or_pos n with rfl | hpos
        · refine hkept rfl rfl ?_
          rw [hstate, Word.add_of_lt (by omega)]
          rfl
        · have hroom : (c.heap r).sendOffset + n ≤ (c.heap r).sendMax := by
            unfold sendCreditLocked at hcredit
            split_ifs at hcredit <;> omega
          have hdata : (p.take n).length = n := by simpa using hlen
          have hsent : ((c.spend r n).heap r).sender = { (c.heap r).sender with
              offset := (c.heap r).sender.offset + (p.take n).length } := by
            rw [hstate, hdata, Word.add_of_lt (by omega)]
            rfl
          refine ⟨[.segment (c.heap r).sendOffset (p.take n) false], [], ?_, ?_⟩
          · simp [Nat.ne_of_gt hpos, Frame.message?, spend, setStream]
          · rw [hsent]
            exact .segment hfin (by simp [Stream.sender, herr]) (by rw [hdata]; exact hroom)
      · have hother : (c.heap i).id ≠ (c.heap r).id :=
          fun heq => hne (hordered.sound.named.unique r hr i hi heq.symm)
        refine hkept ?_ rfl (by simp [spend, setStream, Function.update_of_ne hne])
        dsimp only
        split_ifs
        · rfl
        · simp [Frame.message?, hother]
  | @flush now =>
      obtain ⟨_, _, _, _, hflush⟩ := c.flushed_frame now
      rw [hflush]
      refine ⟨[], [], ?_, .still⟩
      rw [List.append_nil, List.append_nil, List.nil_append, controlFrames_message]
  | _ => exact hkept rfl rfl rfl

end Moves

end Conn

/-- The sending side of a stream is in order: what was handed out and queued for it
are the messages of one transfer, within the limits that the peer has given. -/
structure Stream.Sending (isServer : Bool) (took : List Parsed) (log : List Frame)
    (s : Stream) : Prop where
  sent : s.sender.Sent (log.filterMap (Frame.message? s.id))
  bounded : s.sendMax ≤ maxVarint
  given : s.sendMax ≤ Log.largest (Parsed.streamDataLimit? isServer s.id) took

/-- What was sent of the log is in order, and within the limit. -/
theorem Stream.Sending.of_append {isServer : Bool} {took : List Parsed}
    {handed queued : List Frame} {s : Stream} (h : s.Sending isServer took (handed ++ queued)) :
    Transfer.InOrder (handed.filterMap (Frame.message? s.id)) ∧
      (Transfer.payload (handed.filterMap (Frame.message? s.id))).length ≤ s.sendMax := by
  have horder := h.sent.inOrder
  have hoffset : s.sendOffset = _ := h.sent.offset
  have hcredit : s.sendOffset ≤ s.sendMax := h.sent.credit
  rw [List.filterMap_append] at horder hoffset
  rw [Transfer.payload_append, List.length_append] at hoffset
  exact ⟨horder.of_append, by omega⟩

namespace Conn

/-- The sending sides of a connection are in order. -/
structure Outbox (t : Traffic) (c : Conn) : Prop where
  peer : ∀ p, c.peer.get p ≤ maxVarint
  streams : ∀ r < c.count, (c.heap r).Sending c.isServer t.took (t.handed ++ c.control)

section History

variable [Quicvarint] {c c' : Conn}

/-- Nothing was sent on a stream that is not there. -/
theorem unsent {handed : List Frame} (hwarrants : ∀ f ∈ handed ++ c.control, c.Warrants f)
    {id : Nat} (hnone : ∀ r < c.count, (c.heap r).canSend = true → (c.heap r).id ≠ id) :
    (handed ++ c.control).filterMap (Frame.message? id) = [] := by
  refine List.filterMap_eq_nil_iff.mpr (fun f hf => ?_)
  cases f with
  | stream f =>
      obtain ⟨r, hr, hid, hsend⟩ := hwarrants _ hf
      exact if_neg (fun hcase => hnone r hr hsend (hid.trans hcase))
  | resetStream f =>
      obtain ⟨r, hr, hid, hsend⟩ := hwarrants _ hf
      exact if_neg (fun hcase => hnone r hr hsend (hid.trans hcase))
  | _ => rfl

omit [Quicvarint] in
private theorem initialSendMax_le {p : Parameters} (hp : ∀ f, p.get f ≤ maxVarint)
    (isServer : Bool) (id : Nat) : p.initialSendMax isServer id ≤ maxVarint := by
  unfold Parameters.initialSendMax
  split
  · exact hp .initialMaxStreamDataUni
  · exact Nat.zero_le _
  · exact hp .initialMaxStreamDataBidiRem
  · exact hp .initialMaxStreamDataBidiLoc

variable [GoAppend] {config : Config} {isServer : Bool} {heard : Parsed → Prop}
  {t t' : Traffic}

/-- A move keeps the sending side of a stream in order. -/
private theorem sending_of_move (hconfig : config.Valid)
    (hprior : History config isServer heard t c) (hmove : Move heard c t' c') {r : Ref}
    (hr : r < c.count) (h : (c.heap r).Sending c.isServer t.took (t.handed ++ c.control)) :
    (c'.heap r).Sending c'.isServer (t ++ t').took ((t ++ t').handed ++ c'.control) := by
  have hext := Extends.of_move hmove
  obtain ⟨handed, queued, hlog, hstep⟩ := sender_of_move (History.ordered hconfig hprior)
    (History.tidy hprior) hr (h.sent.credit.trans h.bounded) h.bounded hmove
  have hsent := h.sent
  rw [List.filterMap_append] at hsent
  have hmax : (c'.heap r).sendMax = (c.heap r).sendMax ∨
      Raised t'.took (c.heap r).id (c'.heap r).sendMax := by
    change (c'.heap r).sender.limit = (c.heap r).sender.limit ∨
      Raised t'.took (c.heap r).id (c'.heap r).sender.limit
    generalize (c'.heap r).sender = s' at hstep
    cases hstep with
    | raise hraised => exact Or.inr hraised
    | _ => exact Or.inl rfl
  constructor
  · rw [(hext.streams r hr).id, Traffic.append_handed, List.append_assoc, List.filterMap_append,
      hlog]
    exact hsent.step (control_resets (History.control hprior) _) hstep
  · rcases hmax with hsame | ⟨f, -, -, -, hbound⟩
    · exact hsame ▸ h.bounded
    · exact hbound
  · rw [(hext.streams r hr).id, hext.isServer]
    rcases hmax with hsame | ⟨f, hf, hid, hlimit, -⟩
    · rw [hsame]
      exact h.given.trans (Log.largest_mono (List.subset_append_left _ _))
    · exact Log.le_largest (List.mem_append_right _ hf) (hlimit ▸ if_pos hid)

/-- Nothing was sent on a new stream. -/
private theorem sending_of_new (hconfig : config.Valid)
    (hprior : History config isServer heard t c) (hmove : Move heard c t' c')
    (hpeer : ∀ p, c.peer.get p ≤ maxVarint) {r : Ref} (hr : c.count ≤ r) (hr' : r < c'.count) :
    (c'.heap r).Sending c'.isServer (t ++ t').took ((t ++ t').handed ++ c'.control) := by
  rcases count_of_move hmove with hcount | ⟨hone, rfl, hqueue, id, accepted, hfresh⟩
  · exact absurd (hcount ▸ hr') (Nat.not_lt.mpr hr)
  obtain rfl : r = c.count := Nat.le_antisymm (Nat.lt_succ_iff.mp (hr'.trans_eq hone)) hr
  have hext := Extends.of_move hmove
  have hid : (c'.heap c.count).id = id := by
    rw [hfresh]
    rfl
  have hsender : (c'.heap c.count).sender =
      ⟨0, c.peer.initialSendMax c.isServer id, false, false⟩ := by
    rw [hfresh, newStream_sender]
  have hmax : (c'.heap c.count).sendMax = c.peer.initialSendMax c.isServer id :=
    congrArg Transfer.Sender.limit hsender
  constructor
  · have hother : ∀ i < c.count, (c.heap i).canSend = true → (c.heap i).id ≠ id := by
      intro i hi _ heq
      have hkept := (hext.streams i hi).id
      have hnamed := (History.ordered hconfig (.move hprior hmove)).sound.named
      have hsingle := hnamed.unique i (hi.trans hr') c.count hr' (hkept.trans (heq.trans hid.symm))
      omega
    rw [hid, Traffic.append_empty, hqueue,
      unsent (History.warrants hconfig hprior) hother, hsender]
    exact Transfer.Sender.sent_start _
  · rw [hmax]
    exact initialSendMax_le hpeer _ _
  · rw [hmax, hid, hext.isServer]
    cases hready : c.ready with
    | true =>
        obtain ⟨rest, hrest⟩ := (History.facing hprior).1.parameters hready
        refine Log.le_largest (x := .frame (.transportParameters c.peer)) ?_ rfl
        rw [Traffic.append_took, hrest]
        exact List.mem_cons_self
    | false =>
        have hnone : c.peer = {} := (Since.later hprior).fresh (fun _ => rfl) hready
        have hzero : c.peer.initialSendMax c.isServer id = 0 := by
          rw [hnone]
          unfold Parameters.initialSendMax
          split <;> rfl
        rw [hzero]
        exact Nat.zero_le _

/-- The parameters of the peer are within their encoding. -/
private theorem peer_of_move (hprior : History config isServer heard t c)
    (hmove : Move heard c t' c') (h : ∀ p, c.peer.get p ≤ maxVarint) :
    ∀ p, c'.peer.get p ≤ maxVarint := by
  have hstep := facing_of_move (History.facing hprior).1 (History.control hprior) hmove
  change ∀ p, c'.facing.peer.get p ≤ maxVarint
  change ∀ p, c.facing.peer.get p ≤ maxVarint at h
  generalize c'.facing = v at hstep
  cases hstep with
  | parameters hready hbound => exact hbound.1
  | _ => exact h

/-- In every history the sending sides are in order. -/
theorem History.outbox (hconfig : config.Valid) (hhistory : History config isServer heard t c) :
    c.Outbox t := by
  induction hhistory with
  | start =>
      refine ⟨fun p => ?_, fun r hr => absurd hr (Nat.not_lt_zero r)⟩
      cases p <;> exact Nat.zero_le _
  | @move t t' c c' hprior hmove ih =>
      refine ⟨peer_of_move hprior hmove ih.peer, fun r hr => ?_⟩
      rcases Nat.lt_or_ge r c.count with hold | hnew
      · exact sending_of_move hconfig hprior hmove hold (ih.streams r hold)
      · exact sending_of_new hconfig hprior hmove ih.peer hnew hr
  | @terminate t c err hprior ih =>
      unfold Conn.terminate
      split_ifs
      · exact ih
      · refine ⟨ih.peer, fun r hr => ?_⟩
        have hstream := ih.streams r hr
        simp only [terminated]
        split_ifs
        · exact ⟨hstream.sent, hstream.bounded, hstream.given⟩
        · exact hstream

/-- What was handed out about any stream is in order, and within the largest limit
that the peer has given. -/
theorem History.handed_inOrder (hconfig : config.Valid)
    (hhistory : History config isServer heard t c) (id : Nat) :
    Transfer.InOrder (t.handed.filterMap (Frame.message? id)) ∧
      (Transfer.payload (t.handed.filterMap (Frame.message? id))).length ≤
        Log.largest (Parsed.streamDataLimit? isServer id) t.took := by
  by_cases hstream : ∃ r < c.count, (c.heap r).id = id
  · obtain ⟨r, hr, rfl⟩ := hstream
    have hsending := (History.outbox hconfig hhistory).streams r hr
    rw [(History.config hhistory).2] at hsending
    exact ⟨hsending.of_append.1, hsending.of_append.2.trans hsending.given⟩
  · have hnone := unsent (History.warrants hconfig hhistory)
      (fun r hr _ hid => hstream ⟨r, hr, hid⟩)
    rw [List.filterMap_append] at hnone
    rw [(List.append_eq_nil_iff.mp hnone).1]
    exact ⟨.nil, Nat.zero_le _⟩

end History

end Conn

end Qmux
