import Qmux.Conn.Ids
import Qmux.Conn.Kept

/-!
Every frame of the peer, and so every record, is a chain of moves. The loop
that opens the streams below the one a frame names is a chain of its own.
-/

namespace Qmux

open Wire

namespace Wire

variable [Quicvarint]

/-- The frames of a record, up to the first that does not parse. A frame takes
at least one byte, so the length of the record is enough fuel. -/
def framesFrom : Nat → Bytes → List Parsed
  | 0, _ => []
  | fuel + 1, b =>
      match parse b with
      | .ok (some (f, rest)) => f :: framesFrom fuel rest
      | _ => []

def frames (rec : Bytes) : List Parsed :=
  framesFrom rec.length rec

/-- The answer to a request that a frame is, if it is processed at `now`. -/
def Parsed.answers (now : Time) : Parsed → List PingEvent
  | .frame (.ping f) => if f.response then [.answered f.sequence now] else []
  | _ => []

end Wire

/-- The traffic of accepting the frames `took` of a record. -/
def Traffic.accepting (took : List Parsed) (now : Time) : Traffic :=
  { took := took, pings := took.flatMap (Parsed.answers now) }

theorem Traffic.accepting_append (first second : List Parsed) (now : Time) :
    accepting first now ++ accepting second now = accepting (first ++ second) now := by
  unfold accepting
  rw [List.flatMap_append]
  rfl

namespace Conn

variable [Quicvarint] [GoAppend]

/-- The frames of a record that `handleFrames` accepts: those before the first
failure. -/
def acceptedFrom : Nat → Conn → Bytes → Time → List Parsed
  | 0, _, _, _ => []
  | fuel + 1, c, rec, now =>
      if rec = [] ∨ c.closeErr.isSome then []
      else
        match parse rec with
        | .ok (some (f, rest)) =>
            match c.handleFrameLocked f now with
            | (next, none) => f :: acceptedFrom fuel next rest now
            | (_, some _) => []
        | _ => []

def accepted (c : Conn) (rec : Bytes) (now : Time) : List Parsed :=
  acceptedFrom rec.length c rec now

variable {heard : Parsed → Prop} {c : Conn}

omit [Quicvarint] [GoAppend] in
theorem openIncoming_incoming (c : Conn) (dir : Dir) :
    ((c.openIncoming dir).incoming dir).next = Word.add (c.incoming dir).next 1 ∧
      ((c.openIncoming dir).incoming dir).max = (c.incoming dir).max := by
  simp [openIncoming, setIncoming]

/-- What the loop of `streamLocked` keeps from round to round. -/
private structure Opening (heard : Parsed → Prop) (c : Conn) (dir : Dir) (k : Nat)
    (c' : Conn) : Prop where
  moves : Moves heard c {} c'
  closeErr : c'.closeErr = c.closeErr
  ready : c'.ready = c.ready
  isServer : c'.isServer = c.isServer
  next : (c'.incoming dir).next = (c.incoming dir).next + k
  max : (c'.incoming dir).max = (c.incoming dir).max

private theorem opening {f : Parsed} {id : Nat} (hopen : c.closeErr = none)
    (hready : c.ready = true) (hheard : heard f) (hstream : f.stream? = some id)
    (hbound : id ≤ maxVarint) (hpeer : c.initiatedLocally id = false)
    (hmax : id >>> 2 < (c.incoming (streamDir id)).max) (k : Nat)
    (hk : (c.incoming (streamDir id)).next + k ≤ id >>> 2 + 1) :
    Opening heard c (streamDir id) k
      ((fun c => c.openIncoming (streamDir id))^[k] c) := by
  induction k with
  | zero => exact ⟨.refl, rfl, rfl, rfl, rfl, rfl⟩
  | succ k ih =>
      rw [Function.iterate_succ_apply']
      have prior := ih (by omega)
      generalize (fun c => c.openIncoming (streamDir id))^[k] c = mid at prior
      have hincoming := mid.openIncoming_incoming (streamDir id)
      have hindex := index_lt hbound
      have hmove : Move heard mid {} (mid.openIncoming (streamDir id)) := by
        refine .openIncoming (prior.closeErr.trans hopen) (prior.ready.trans hready)
          hheard hstream hbound ?_ ?_ ?_
        · simpa only [initiatedLocally, prior.isServer] using hpeer
        · rw [prior.next]
          omega
        · rw [prior.max]
          exact hmax
      refine ⟨prior.moves.tail hmove, prior.closeErr, prior.ready, prior.isServer, ?_,
        hincoming.2.trans prior.max⟩
      rw [hincoming.1, prior.next, Word.add_of_lt (by omega)]
      omega

/-- The stream a frame is about is looked up once it is open. -/
theorem streamLocked_moves {f : Parsed} {id : Nat} (recv : Bool)
    (hopen : c.closeErr = none) (hready : c.ready = true) (hheard : heard f)
    (hstream : f.stream? = some id) (hbound : id ≤ maxVarint) :
    let result := c.streamLocked id recv
    Moves heard c {} result.1 ∧ result.1.closeErr = none ∧ result.1.ready = true ∧
      ∀ found, result.2 = .ok found → result.1.streams id = found ∧
        result.1.HasOpened id ∧ ¬ (streamDir id = .uni ∧ result.1.initiatedLocally id = recv) := by
  dsimp only
  unfold streamLocked
  dsimp only
  split_ifs with hdir hlocal hnext hmax
  · exact ⟨.refl, hopen, hready, fun r h => by cases h⟩
  · exact ⟨.refl, hopen, hready, fun r h => by cases h⟩
  · refine ⟨.refl, hopen, hready, fun r h => ⟨Except.ok.inj h, ?_, hdir⟩⟩
    simp only [HasOpened, hlocal, if_true]
    omega
  · exact ⟨.refl, hopen, hready, fun r h => by cases h⟩
  · have hpeer : c.initiatedLocally id = false := by simpa using hlocal
    by_cases hnew : (c.incoming (streamDir id)).next ≤ id >>> 2 + 1
    · have hall := opening hopen hready hheard hstream hbound hpeer (by omega)
        (id >>> 2 + 1 - (c.incoming (streamDir id)).next) (by omega)
      have hlocal' : (c.openThrough (streamDir id) (id >>> 2)).initiatedLocally id =
          c.initiatedLocally id :=
        congrArg (Qmux.initiatedLocally · id) hall.isServer
      refine ⟨hall.moves, hall.closeErr.trans hopen, hall.ready.trans hready,
        fun r h => ⟨Except.ok.inj h, ?_, hlocal'.symm ▸ hdir⟩⟩
      simp only [HasOpened, hlocal', hpeer, Bool.false_eq_true, if_false]
      rw [openThrough, hall.next]
      omega
    · have hnone : id >>> 2 + 1 - (c.incoming (streamDir id)).next = 0 := by omega
      have hsame : c.openThrough (streamDir id) (id >>> 2) = c := by
        simp [openThrough, hnone]
      rw [hsame]
      refine ⟨.refl, hopen, hready, fun r h => ⟨Except.ok.inj h, ?_, hdir⟩⟩
      simp only [HasOpened, hpeer, Bool.false_eq_true, if_false]
      omega

omit [Quicvarint] [GoAppend] in
theorem receivedLocked_ok {c next : Conn} {n : Nat} (h : c.receivedLocked n = .ok next) :
    Word.add c.received n ≤ c.recvMax ∧
      { c with received := Word.add c.received n } = next := by
  unfold receivedLocked at h
  split_ifs at h with hmax
  exact ⟨Nat.le_of_not_lt hmax, Except.ok.inj h⟩

/-- The handler of `f` left `result`: a chain of moves that took the frame if
there was no failure. -/
private def Handled {ε : Type} (heard : Parsed → Prop) (c : Conn) (f : Parsed) (now : Time)
    (result : Conn × Option ε) : Prop :=
  Moves heard c (.accepting (if result.2.isNone then [f] else []) now) result.1

private theorem handleStreamLocked_moves {f : Wire.Stream} {now : Time} (hopen : c.closeErr = none)
    (hready : c.ready = true) (hheard : heard (.frame (.stream f)))
    (hbound : (Frame.stream f).Bounded maxVarint) :
    Handled heard c (.frame (.stream f)) now (c.handleStreamLocked f) := by
  obtain ⟨hmoves, hopen', hready', hfound⟩ :=
    streamLocked_moves true hopen hready hheard rfl hbound.1
  unfold handleStreamLocked
  rcases hlookup : c.streamLocked f.streamID true with ⟨mid, found⟩
  simp only [hlookup] at hmoves hopen' hready' hfound
  cases found with
  | error e => exact hmoves
  | ok found =>
      obtain ⟨htable, hopened, hdir⟩ := hfound found rfl
      cases found with
      | none =>
          refine hmoves.tail (.pass hready' hheard ⟨hopened, hdir, fun r hr => ?_⟩ rfl (.refl _))
          rw [htable] at hr
          cases hr
      | some r =>
          dsimp only
          split_ifs with hoffset hended hpast hmax
          · exact hmoves
          · exact hmoves
          · refine hmoves.tail (.pass hready' hheard ⟨hopened, hdir, fun i hi => ?_⟩ rfl (.refl _))
            obtain rfl : r = i := Option.some.inj (htable.symm.trans hi)
            simp only [not_or, not_and, not_not, Nat.not_lt, Nat.le_zero_eq,
              List.length_eq_zero_iff] at hpast
            exact ⟨not_not.mp hoffset, hpast.1, by simpa using hended, hpast.2⟩
          · exact hmoves
          · cases hreceived : mid.receivedLocked f.data.length with
            | error e => exact hmoves
            | ok next =>
                obtain ⟨hconn, rfl⟩ := receivedLocked_ok hreceived
                simp only [Bool.or_eq_true, not_or, Bool.not_eq_true] at hended
                exact hmoves.tail (.act hopen' (.data hready' hheard hbound hdir htable
                  (not_not.mp hoffset) hended.1 hended.2 (Nat.le_of_not_lt hmax)
                  hconn))

private theorem handleResetStreamLocked_moves {f : ResetStream} {now : Time} (hopen : c.closeErr = none)
    (hready : c.ready = true) (hheard : heard (.frame (.resetStream f)))
    (hbound : (Frame.resetStream f).Bounded maxVarint) :
    Handled heard c (.frame (.resetStream f)) now (c.handleResetStreamLocked f) := by
  obtain ⟨hmoves, hopen', hready', hfound⟩ :=
    streamLocked_moves true hopen hready hheard rfl hbound.1
  unfold handleResetStreamLocked
  rcases hlookup : c.streamLocked f.streamID true with ⟨mid, found⟩
  simp only [hlookup] at hmoves hopen' hready' hfound
  cases found with
  | error e => exact hmoves
  | ok found =>
      obtain ⟨htable, hopened, hdir⟩ := hfound found rfl
      cases found with
      | none =>
          refine hmoves.tail (.pass hready' hheard ⟨hopened, hdir, fun r hr => ?_⟩ rfl (.refl _))
          rw [htable] at hr
          cases hr
      | some r =>
          dsimp only
          split_ifs with hsize hreset hmax
          · exact hmoves
          · refine hmoves.tail (.pass hready' hheard ⟨hopened, hdir, fun i hi => ?_⟩ rfl (.refl _))
            obtain rfl : r = i := Option.some.inj (htable.symm.trans hi)
            simp only [Bool.or_eq_true, not_or, not_and, not_not] at hsize
            exact ⟨hreset, hsize.2 (Or.inr hreset)⟩
          · exact hmoves
          · cases hreceived : mid.receivedLocked
                (Word.sub f.finalSize (mid.heap r).recvOffset) with
            | error e => exact hmoves
            | ok next =>
                obtain ⟨hconn, rfl⟩ := receivedLocked_ok hreceived
                simp only [Bool.or_eq_true, not_or, not_and, not_not] at hsize
                exact hmoves.tail (.act hopen' (.reset hready' hheard hbound hdir htable
                  (Nat.le_of_not_lt hsize.1) (fun hfin => hsize.2 (Or.inl hfin))
                  (by simpa using hreset) (Nat.le_of_not_lt hmax) hconn))

private theorem handleStopSending_moves {f : StopSending} {now : Time} (hopen : c.closeErr = none)
    (hready : c.ready = true) (hheard : heard (.frame (.stopSending f)))
    (hbound : (Frame.stopSending f).Bounded maxVarint) :
    Handled heard c (.frame (.stopSending f)) now (c.handleStopSending f) := by
  obtain ⟨hmoves, hopen', hready', hfound⟩ :=
    streamLocked_moves false hopen hready hheard rfl hbound.1
  unfold handleStopSending
  rcases hlookup : c.streamLocked f.streamID false with ⟨mid, found⟩
  simp only [hlookup] at hmoves hopen' hready' hfound
  cases found with
  | error e => exact hmoves
  | ok found =>
      cases found with
      | none => exact hmoves.tail (.pass hready' hheard trivial rfl (.refl _))
      | some r =>
          cases hsend : (mid.heap r).sendDone with
          | false =>
              have htable := (hfound _ rfl).1
              simp only [stopSendingLocked, resetSendLocked, hsend, Bool.false_eq_true, if_false]
              exact hmoves.tail (.act hopen'
                (.resetSend (Or.inr ⟨f, hready', hheard, htable, rfl⟩) hsend))
          | true =>
              simp only [stopSendingLocked, resetSendLocked, hsend, if_true]
              exact hmoves.tail (.pass hready' hheard trivial rfl (.refl _))

private theorem handleMaxStreamData_moves {f : MaxStreamData} {now : Time} (hopen : c.closeErr = none)
    (hready : c.ready = true) (hheard : heard (.frame (.maxStreamData f)))
    (hbound : (Frame.maxStreamData f).Bounded maxVarint) :
    Handled heard c (.frame (.maxStreamData f)) now (c.handleMaxStreamData f) := by
  obtain ⟨hmoves, hopen', hready', hfound⟩ :=
    streamLocked_moves false hopen hready hheard rfl hbound.1
  unfold handleMaxStreamData
  rcases hlookup : c.streamLocked f.streamID false with ⟨mid, found⟩
  simp only [hlookup] at hmoves hopen' hready' hfound
  cases found with
  | error e => exact hmoves
  | ok found =>
      cases found with
      | none => exact hmoves.tail (.pass hready' hheard trivial rfl (.refl _))
      | some r =>
          dsimp only
          split_ifs with hmax
          · exact hmoves.tail (.raiseStream hopen' hready' hheard hbound (hfound _ rfl).1 hmax)
          · exact hmoves.tail (.pass hready' hheard trivial rfl (.refl _))

private theorem handlePingLocked_moves {f : Ping} (hopen : c.closeErr = none)
    (hready : c.ready = true) (hheard : heard (.frame (.ping f))) (now : Time) :
    Handled heard c (.frame (.ping f)) now (c.handlePingLocked f now) := by
  unfold handlePingLocked
  split_ifs with hresponse hunsent hlatest hsequence
  · exact .refl
  · have hlast : (c.pingUnanswered && decide (f.sequence + 1 ≠ c.nextPing)) = false := by
      rw [decide_eq_false (not_not.mpr (by omega)), Bool.and_false]
    have hmove : Move heard c _ _ :=
      .pong now (c.rtt.update (now - c.pingSentAt)) hready hheard hresponse
        (Nat.lt_of_not_le hunsent)
    rw [hlast] at hmove
    simpa [Handled, Traffic.accepting, Parsed.answers, hresponse] using Moves.single hmove
  · have hearlier : (c.pingUnanswered && decide (f.sequence + 1 ≠ c.nextPing)) =
        c.pingUnanswered := by
      rw [decide_eq_true (by omega), Bool.and_true]
    have hmove : Move heard c _ _ :=
      .pong now c.rtt hready hheard hresponse (Nat.lt_of_not_le hunsent)
    rw [hearlier] at hmove
    simpa [Handled, Traffic.accepting, Parsed.answers, hresponse] using Moves.single hmove
  · exact .refl
  · have hmove : Move heard c _ _ :=
      .pinged hopen hready hheard (by simpa using hresponse) hsequence
    simpa [Handled, Traffic.accepting, Parsed.answers, hresponse] using Moves.single hmove

private theorem handleDatagramLocked_moves {f : Datagram} {now : Time} (hready : c.ready = true)
    (hheard : heard (.frame (.datagram f))) :
    Handled heard c (.frame (.datagram f)) now (c.handleDatagramLocked f) := by
  unfold handleDatagramLocked
  split_ifs
  · exact .refl
  · exact .single (.pass hready hheard trivial rfl { Calm.refl c with })
  · exact .single (.pass hready hheard trivial rfl (.refl _))

private theorem Handled.violation {f : Parsed} {now : Time} {result : Conn × Option Wire.Error}
    (h : Handled heard c f now result) :
    Handled heard c f now (result.1, result.2.map Failure.violation) := by
  unfold Handled at h ⊢
  simpa using h

private theorem handleOtherLocked_moves {f : Parsed} (hopen : c.closeErr = none)
    (hready : c.ready = true) (hheard : heard f) (hbound : f.Bounded maxVarint)
    (hparams : ∀ p, f ≠ .frame (.transportParameters p)) (now : Time) :
    Handled heard c f now (c.handleOtherLocked f now) := by
  cases f with
  | blocked => exact .single (.pass hready hheard trivial rfl (.refl _))
  | frame f =>
      cases f with
      | stream f => exact (handleStreamLocked_moves hopen hready hheard hbound).violation
      | resetStream f =>
          exact (handleResetStreamLocked_moves hopen hready hheard hbound).violation
      | stopSending f => exact (handleStopSending_moves hopen hready hheard hbound).violation
      | maxStreamData f =>
          exact (handleMaxStreamData_moves hopen hready hheard hbound).violation
      | maxData f =>
          simp only [handleOtherLocked, handleMaxData]
          split_ifs with hmax
          · exact .single (.raiseData hopen hheard hbound hready hmax)
          · exact .single (.pass hready hheard trivial rfl (.refl _))
      | maxStreams f => exact .single (.raiseStreams hopen hheard hbound hready)
      | ping f => exact (handlePingLocked_moves hopen hready hheard now).violation
      | datagram f => exact (handleDatagramLocked_moves hready hheard).violation
      | connectionClose f => exact .refl
      | transportParameters p => exact absurd rfl (hparams p)

private theorem handled {f : Parsed} (hopen : c.closeErr = none)
    (hheard : heard f) (hbound : f.Bounded maxVarint) (now : Time) :
    Handled heard c f now (c.handleFrameLocked f now) := by
  unfold handleFrameLocked
  split
  · split_ifs with hready
    · exact .refl
    · exact .single (.parameters hopen (by simpa using hready) hheard hbound)
  · rename_i hparams
    split_ifs with hready
    · exact handleOtherLocked_moves hopen hready hheard hbound hparams now
    · exact .refl

/-- A frame of the peer is a chain of moves, which takes it if it is
accepted. -/
theorem handleFrameLocked_moves {f : Parsed} (hopen : c.closeErr = none)
    (hheard : heard f) (hbound : f.Bounded maxVarint) (now : Time) :
    Moves heard c (.accepting (if (c.handleFrameLocked f now).2.isNone then [f] else []) now)
      (c.handleFrameLocked f now).1 :=
  handled hopen hheard hbound now

/-- What the loop of `handleRecord` does is a chain of moves. -/
theorem handleFrames_moves {fuel : Nat} {rec : Bytes} (now : Time)
    (hsize : rec.length ≤ maxVarint) (hheard : ∀ f ∈ framesFrom fuel rec, heard f) :
    Moves heard c (.accepting (acceptedFrom fuel c rec now) now)
        (handleFrames fuel c rec now).1 ∧
      acceptedFrom fuel c rec now <+: framesFrom fuel rec ∧
      (c.closeErr = none → (handleFrames fuel c rec now).2 = none →
        acceptedFrom fuel c rec now = framesFrom fuel rec) := by
  induction fuel generalizing c rec with
  | zero => exact ⟨.refl, List.nil_prefix, fun _ _ => rfl⟩
  | succ fuel ih =>
      unfold handleFrames acceptedFrom
      split_ifs with hend
      · refine ⟨.refl, List.nil_prefix, fun hopen _ => ?_⟩
        obtain rfl : rec = [] := by simpa [hopen] using hend
        rfl
      · simp only [not_or, Bool.not_eq_true, Option.isSome_eq_false_iff,
          Option.isNone_iff_eq_none] at hend
        rcases hparse : parse rec with e | _ | ⟨f, rest⟩
        · exact ⟨.refl, List.nil_prefix, fun _ h => by cases h⟩
        · exact ⟨.refl, List.nil_prefix, fun _ _ => by simp only [framesFrom, hparse]⟩
        · simp only [framesFrom, hparse, List.mem_cons] at hheard ⊢
          obtain ⟨hbound, hrest⟩ := parse_bounded hparse
          have hfirst := handleFrameLocked_moves hend.2 (hheard f (Or.inl rfl))
            (hbound.mono hsize) now
          rcases hframe : c.handleFrameLocked f now with ⟨next, _ | failure⟩
          · rw [hframe] at hfirst
            have hopen : next.closeErr = none := hfirst.closeErr.1.trans hend.2
            have hshort : rest.length ≤ maxVarint := by omega
            obtain ⟨hmoves, hprefix, hall⟩ :=
              ih (c := next) hshort (fun g hg => hheard g (Or.inr hg))
            refine ⟨?_, List.cons_prefix_cons.mpr ⟨rfl, hprefix⟩,
              fun _ hnone => congrArg (f :: ·) (hall hopen hnone)⟩
            exact Traffic.accepting_append [f] _ now ▸ hfirst.trans hmoves
          · rw [hframe] at hfirst
            exact ⟨hfirst, List.nil_prefix, fun _ h => by cases h⟩

/-- A record is a chain of moves, which takes its frames up to the first that
is not accepted. -/
theorem handleRecord_moves {rec : Bytes} (now : Time) (hsize : rec.length ≤ maxVarint)
    (hheard : ∀ f ∈ frames rec, heard f) :
    Moves heard c (.accepting (c.accepted rec now) now) (c.handleRecord rec now).1 ∧
      c.accepted rec now <+: frames rec ∧
      (c.closeErr = none → (c.handleRecord rec now).2 = none →
        c.accepted rec now = frames rec) :=
  handleFrames_moves now hsize hheard

/-- Once the connection has ended, records are discarded. -/
theorem handleRecord_closed (hclosed : c.closeErr.isSome = true) (rec : Bytes) (now : Time) :
    c.handleRecord rec now = (c, none) ∧ c.accepted rec now = [] := by
  unfold handleRecord accepted
  cases rec.length with
  | zero => exact ⟨rfl, rfl⟩
  | succ n => simp [handleFrames, acceptedFrom, hclosed]

theorem Since.moves {t₀ t t' : Traffic} {c₀ c' : Conn} (hsince : Since heard t₀ c₀ t c)
    (hmoves : Moves heard c t' c') : Since heard t₀ c₀ (t ++ t') c' := by
  induction hmoves with
  | refl => exact (Traffic.append_empty t).symm ▸ hsince
  | tail _ hmove ih => exact Traffic.append_assoc .. ▸ ih.move hmove

/-- What every frame of the peer leaves intact, a record leaves intact. -/
theorem handleRecord_invariant {P : Conn → Prop} {t₀ t : Traffic} {c₀ : Conn} {rec : Bytes}
    (now : Time) (hsize : rec.length ≤ maxVarint) (hheard : ∀ f ∈ frames rec, heard f)
    (hframe : ∀ t c f, Since heard t₀ c₀ t c → c.closeErr = none → heard f →
      f.Bounded maxVarint → P c → P (c.handleFrameLocked f now).1)
    (hsince : Since heard t₀ c₀ t c) (hP : P c) : P (c.handleRecord rec now).1 := by
  unfold handleRecord frames at *
  generalize rec.length = fuel at hheard ⊢
  induction fuel generalizing c rec t with
  | zero => exact hP
  | succ fuel ih =>
      unfold handleFrames
      unfold framesFrom at hheard
      split_ifs with hend
      · exact hP
      · simp only [not_or, Bool.not_eq_true, Option.isSome_eq_false_iff,
          Option.isNone_iff_eq_none] at hend
        rcases hparse : parse rec with e | _ | ⟨f, rest⟩
        · exact hP
        · exact hP
        · simp only [hparse, List.mem_cons] at hheard ⊢
          obtain ⟨hbound, hrest⟩ := parse_bounded hparse
          have hfirst := handleFrameLocked_moves hend.2 (hheard f (Or.inl rfl))
            (hbound.mono hsize) now
          have hnext := hframe t c f hsince hend.2 (hheard f (Or.inl rfl)) (hbound.mono hsize) hP
          rcases hresult : c.handleFrameLocked f now with ⟨next, _ | failure⟩
          · rw [hresult] at hfirst hnext
            exact ih (hrest.le.trans hsize) (hsince.moves hfirst) hnext
              (fun g hg => hheard g (Or.inr hg))
          · rw [hresult] at hnext
            exact hnext

end Conn

end Qmux
