import Qmux.Closing
import Qmux.Reasons.Streams

/-!
Why a side of a stream has an error. Of all that happens to a connection, two things
give one to a reader, and two to a writer: a call of the application that cancels,
with the code of the application, and a frame of the peer for the stream, with the
code of the peer.
-/

namespace Qmux

open Wire

/-- The sides of a stream. -/
inductive Side where
  | recv
  | send
deriving DecidableEq, Repr

namespace Side

/-- The call that ends the side early. -/
def cancel : Side → Ref → Nat → Call
  | .recv => .cancelRead
  | .send => .cancelWrite

/-- The frame ends the side of the stream, with the code. -/
def Ends (id code : Nat) : Side → Parsed → Prop
  | .recv, f => ∃ size, f = .frame (.resetStream ⟨id, code, size⟩)
  | .send, f => f = .frame (.stopSending ⟨id, code⟩)

end Side

/-- The error of a side. -/
def Stream.err (s : Stream) : Side → Option StreamError
  | .recv => s.recvErr
  | .send => s.sendErr

theorem Stream.err_eq {s s' : Stream} (hrecv : s'.recvErr = s.recvErr)
    (hsend : s'.sendErr = s.sendErr) (side : Side) : s'.err side = s.err side := by
  cases side with
  | recv => exact hrecv
  | send => exact hsend

theorem Stream.err_none {s : Stream} (hrecv : s.recvErr = none) (hsend : s.sendErr = none)
    (side : Side) : s.err side = none := by
  cases side with
  | recv => exact hrecv
  | send => exact hsend

namespace Conn

/-- Every stream that was there has the side it had, as far as errors go. -/
def Spares (side : Side) (c c' : Conn) : Prop :=
  ∀ r, (c'.heap r).err side = none ∨
    (c'.heap r).id = (c.heap r).id ∧ (c'.heap r).err side = (c.heap r).err side

namespace Spares

variable {side : Side} {c c' c'' : Conn}

theorem refl (c : Conn) : Spares side c c :=
  fun _ => Or.inr ⟨rfl, rfl⟩

theorem trans (hfirst : Spares side c c') (hsecond : Spares side c' c'') : Spares side c c'' := by
  intro r
  rcases hsecond r with hnone | ⟨hid, herr⟩
  · exact Or.inl hnone
  · rw [hid, herr]
    exact hfirst r

theorem of_heap (hheap : c'.heap = c.heap) : Spares side c c' := by
  intro r
  rw [hheap]
  exact Or.inr ⟨rfl, rfl⟩

theorem setStream {r : Ref} {s : Stream} (hheap : c'.heap = Function.update c.heap r s)
    (hid : s.id = (c.heap r).id) (herr : s.err side = (c.heap r).err side) : Spares side c c' := by
  intro i
  rw [hheap]
  rcases eq_or_ne i r with rfl | hne
  · rw [Function.update_self]
    exact Or.inr ⟨hid, herr⟩
  · rw [Function.update_of_ne hne]
    exact Or.inr ⟨rfl, rfl⟩

theorem completeLocked (c : Conn) (r : Ref) : Spares side c (c.completeLocked r) :=
  fun i => Or.inr ⟨completeLocked_stream Stream.id (fun _ => rfl) c r i,
    completeLocked_stream (Stream.err · side) (fun _ => Stream.err_eq rfl rfl side) c r i⟩

theorem touches {r : Ref} {s : Stream} {frames : List Frame} (h : c.Touches r s frames c')
    (hid : s.id = (c.heap r).id) (herr : s.err side = (c.heap r).err side) :
    Spares side c (c'.completeLocked r) := by
  refine Spares.trans ?_ (.completeLocked c' r)
  obtain ⟨a, -, rfl⟩ := h
  exact .setStream rfl hid herr

/-- A new stream has a sending side without an error. -/
theorem newStreamLocked (c : Conn) {s : Stream} (herr : s.err side = none)
    (hheap : c'.heap = Function.update c.heap c.count s) : Spares side c c' := by
  intro i
  rw [hheap]
  rcases eq_or_ne i c.count with rfl | hne
  · rw [Function.update_self]
    exact Or.inl herr
  · rw [Function.update_of_ne hne]
    exact Or.inr ⟨rfl, rfl⟩

end Spares

section Calls

variable (side : Side) (c : Conn)

private theorem openThrough_spares (dir : Dir) (index : Nat) :
    Spares side c (c.openThrough dir index) := by
  unfold openThrough
  generalize index + 1 - (c.incoming dir).next = k
  induction k with
  | zero => exact .refl c
  | succ k ih =>
      rw [Function.iterate_succ_apply']
      exact ih.trans (.newStreamLocked _ (Stream.err_none rfl rfl side) rfl)

private theorem streamLocked_spares (id : Nat) (recv : Bool) :
    Spares side c (c.streamLocked id recv).1 := by
  unfold streamLocked
  dsimp only
  split_ifs
  · exact .refl c
  · exact .refl c
  · exact .refl c
  · exact .refl c
  · exact openThrough_spares side c _ _

private theorem copyOut_spares (r : Ref) (n : Nat) : Spares side c (c.copyOut r n) :=
  .touches (c.readLocked_touches r n) (Stream.copyOut_keeps _ _ _).id
    (Stream.err_eq (Stream.copyOut_errs _ _ _).1 (Stream.copyOut_errs _ _ _).2 side)

private theorem discard_spares (r : Ref) (code : Nat) : Spares .send c (c.discard r code) := by
  have hstream := ((Touches.refl c r).consumeLocked
    ((c.heap r).rbuf.data.length - (c.heap r).roff)).replace ((c.heap r).cancelRead code)
  unfold discard
  dsimp only
  split_ifs
  · exact .touches hstream rfl rfl
  · exact .touches (hstream.queueLocked _) rfl rfl

private theorem resetSendLocked_spares (r : Ref) (reason : StreamError) :
    Spares .recv c (c.resetSendLocked r reason) := by
  unfold resetSendLocked
  dsimp only
  split_ifs
  · exact .refl c
  · exact .touches ((Touches.setStream c r _).queueLocked _) rfl rfl

/-- The calls, but for the one that cancels. -/
private theorem call_spares {op : Call} {c' : Conn} (hcall : c.call op = some c')
    (hother : ∀ r code, op ≠ side.cancel r code) : Spares side c c' := by
  have hsame {s s' : Stream} (hrecv : s'.recvErr = s.recvErr) (hsend : s'.sendErr = s.sendErr) :=
    Stream.err_eq hrecv hsend side
  cases op with
  | tryOpen dir =>
      obtain rfl := Option.some.inj hcall
      unfold tryOpen
      split
      · exact .refl c
      · dsimp only
        split_ifs
        · exact .of_heap rfl
        · exact .newStreamLocked c (Stream.err_none rfl rfl side) rfl
  | tryAccept dir =>
      obtain rfl := Option.some.inj hcall
      unfold tryAccept
      split
      · exact .refl c
      · dsimp only
        split
        · exact .of_heap rfl
        · rename_i r rest hqueue
          refine Spares.trans ?_ (.completeLocked _ r)
          exact .setStream (r := r) (s := { c.heap r with accepted := true }) rfl rfl (hsame rfl rfl)
  | tryRead r size =>
      obtain ⟨-, ⟨⟩⟩ := Option.ite_none_right_eq_some.mp hcall
      unfold tryRead
      dsimp only
      split
      · exact .refl c
      · exact .refl c
      · split_ifs
        · exact copyOut_spares side c r _
        · exact .refl c
        · exact .setStream rfl rfl (hsame rfl rfl)
  | tryPeek r size =>
      obtain ⟨-, ⟨⟩⟩ := Option.ite_none_right_eq_some.mp hcall
      unfold tryPeek
      dsimp only
      split
      · exact .refl c
      · exact .refl c
      · split_ifs
        · exact .refl c
        · exact .refl c
        · exact .setStream rfl rfl (hsame rfl rfl)
  | cancelRead r code =>
      cases side with
      | recv => exact absurd rfl (hother r code)
      | send =>
          obtain ⟨-, ⟨⟩⟩ := Option.ite_none_right_eq_some.mp hcall
          unfold cancelRead
          dsimp only
          split_ifs
          · exact .refl c
          · exact c.discard_spares r code
  | cancelWrite r code =>
      cases side with
      | recv =>
          obtain ⟨-, ⟨⟩⟩ := Option.ite_none_right_eq_some.mp hcall
          unfold cancelWrite
          split_ifs
          · exact .refl c
          · exact c.resetSendLocked_spares r _
      | send => exact absurd rfl (hother r code)
  | trySend r now =>
      obtain ⟨-, ⟨⟩⟩ := Option.ite_none_right_eq_some.mp hcall
      unfold trySend
      dsimp only
      split
      · exact .refl c
      · split_ifs
        · exact .refl c
        · exact .refl c
        · exact .setStream rfl rfl (hsame rfl rfl)
  | setPriority | setReadDeadline | setWriteDeadline =>
      obtain ⟨-, ⟨⟩⟩ := Option.ite_none_right_eq_some.mp hcall
      exact .setStream rfl rfl (hsame rfl rfl)
  | requestPing now =>
      obtain rfl := Option.some.inj hcall
      unfold requestPing
      split_ifs <;> exact .of_heap rfl
  | receiveDatagram =>
      obtain rfl := Option.some.inj hcall
      unfold receiveDatagram
      split <;> exact .of_heap rfl

private theorem handleStreamLocked_spares [GoAppend] (f : Wire.Stream) :
    Spares side c (c.handleStreamLocked f).1 := by
  have hlookup := streamLocked_spares side c f.streamID true
  unfold handleStreamLocked
  generalize c.streamLocked f.streamID true = found at hlookup ⊢
  obtain ⟨mid, e | _ | r⟩ := found
  · exact hlookup
  · exact hlookup
  · dsimp only at hlookup ⊢
    split_ifs
    · exact hlookup
    · exact hlookup
    · exact hlookup
    · exact hlookup
    · split
      · exact hlookup
      · rename_i next hreceived
        obtain ⟨-, rfl⟩ := receivedLocked_ok hreceived
        obtain ⟨hrecv, hsend⟩ := Stream.takeData_errs (mid.heap r) f
        exact hlookup.trans (.touches (mid.takeData_touches r f _) (Stream.takeData_keeps _ _).id
          (Stream.err_eq hrecv hsend side))

private theorem handleResetStreamLocked_spares (f : ResetStream) :
    Spares .send c (c.handleResetStreamLocked f).1 := by
  have hlookup := streamLocked_spares .send c f.streamID true
  unfold handleResetStreamLocked
  generalize c.streamLocked f.streamID true = found at hlookup ⊢
  obtain ⟨mid, e | _ | r⟩ := found
  · exact hlookup
  · exact hlookup
  · dsimp only at hlookup ⊢
    split_ifs
    · exact hlookup
    · exact hlookup
    · exact hlookup
    · split
      · exact hlookup
      · rename_i next hreceived
        obtain ⟨-, rfl⟩ := receivedLocked_ok hreceived
        exact hlookup.trans (.touches (mid.takeReset_touches r f _) rfl rfl)

private theorem handleStopSending_spares (f : StopSending) :
    Spares .recv c (c.handleStopSending f).1 := by
  have hlookup := streamLocked_spares .recv c f.streamID false
  unfold handleStopSending
  generalize c.streamLocked f.streamID false = found at hlookup ⊢
  obtain ⟨mid, e | _ | r⟩ := found
  · exact hlookup
  · exact hlookup
  · exact hlookup.trans (mid.resetSendLocked_spares r _)

private theorem handleMaxStreamData_spares (f : MaxStreamData) :
    Spares side c (c.handleMaxStreamData f).1 := by
  have hlookup := streamLocked_spares side c f.streamID false
  unfold handleMaxStreamData
  generalize c.streamLocked f.streamID false = found at hlookup ⊢
  obtain ⟨mid, e | _ | r⟩ := found
  · exact hlookup
  · exact hlookup
  · dsimp only at hlookup ⊢
    split_ifs
    · exact hlookup.trans (.setStream rfl rfl (Stream.err_eq rfl rfl side))
    · exact hlookup

/-- The frames of the peer, but for the one that ends the side. -/
private theorem handleFrameLocked_spares [GoAppend] {f : Parsed}
    (hother : ∀ id code, ¬ side.Ends id code f) (now : Time) :
    Spares side c (c.handleFrameLocked f now).1 := by
  unfold handleFrameLocked
  split
  · split_ifs <;> exact .of_heap rfl
  · split_ifs
    · unfold handleOtherLocked
      dsimp only
      split
      · exact handleStreamLocked_spares side c _
      · rename_i g _
        cases side with
        | recv => exact absurd ⟨g.finalSize, rfl⟩ (hother g.streamID g.code)
        | send => exact c.handleResetStreamLocked_spares g
      · rename_i g _
        cases side with
        | recv => exact c.handleStopSending_spares g
        | send => exact absurd rfl (hother g.streamID g.code)
      · exact handleMaxStreamData_spares side c _
      · unfold handleMaxData
        split_ifs <;> exact .of_heap rfl
      · rename_i g _
        obtain ⟨out, hout⟩ := c.handleMaxStreams_frame g
        exact .of_heap (by rw [hout])
      · unfold handlePingLocked
        split_ifs <;> exact .of_heap rfl
      · unfold handleDatagramLocked
        split_ifs <;> exact .of_heap rfl
      · exact .refl c
      · exact .refl c
      · exact .refl c
    · exact .refl c

end Calls

/-- Every error of a stream has a reason: its side was cancelled by the application, with
this code, or ended by a frame of the peer, with this code. -/
def Reasoned (asked : Call → Prop) (heard : Parsed → Prop) (c : Conn) : Prop :=
  ∀ side r e, (c.heap r).err side = some e → e.streamID = (c.heap r).id ∧
    if e.remote then ∃ f, heard f ∧ side.Ends (c.heap r).id e.code f
    else asked (side.cancel r e.code)

section Reasoned

variable {asked asked' : Call → Prop} {heard heard' : Parsed → Prop} {c c' : Conn}

theorem Reasoned.mono (h : c.Reasoned asked heard) (hasked : ∀ op, asked op → asked' op)
    (hheard : ∀ f, heard f → heard' f) : c.Reasoned asked' heard' := by
  intro side r e herr
  obtain ⟨hid, hreason⟩ := h side r e herr
  refine ⟨hid, ?_⟩
  split_ifs at hreason ⊢
  · obtain ⟨f, hf, hends⟩ := hreason
    exact ⟨f, hheard f hf, hends⟩
  · exact hasked _ hreason

private theorem Reasoned.spares (h : c.Reasoned asked heard)
    (hspares : ∀ side, Spares side c c') : c'.Reasoned asked heard := by
  intro side r e herr
  rcases hspares side r with hnone | ⟨hid, hsame⟩
  · rw [hnone] at herr
    cases herr
  · rw [hid]
    exact h side r e (hsame ▸ herr)

/-- One side of one stream is given an error, and there is a reason. -/
private theorem Reasoned.give (h : c.Reasoned asked heard) (side : Side) {r : Ref} {s : Stream}
    {frames : List Frame} (htouches : c.Touches r s frames c') (hid : s.id = (c.heap r).id)
    (hother : ∀ other, other ≠ side → s.err other = (c.heap r).err other)
    (hreason : ∀ e, s.err side = some e → (c.heap r).err side = some e ∨
      e.streamID = (c.heap r).id ∧
        if e.remote then ∃ f, heard f ∧ side.Ends (c.heap r).id e.code f
        else asked (side.cancel r e.code)) :
    (c'.completeLocked r).Reasoned asked heard := by
  refine Reasoned.spares (fun x i e herr => ?_) (fun x => .completeLocked c' r)
  obtain ⟨a, -, rfl⟩ := htouches
  simp only [withAccounts, Conn.setStream] at herr ⊢
  rcases eq_or_ne i r with rfl | hne
  · rw [Function.update_self] at herr ⊢
    rw [hid]
    by_cases hx : x = side
    · subst hx
      exact (hreason e herr).elim (h x i e) (fun hgiven => hgiven)
    · exact h x i e (hother x hx ▸ herr)
  · rw [Function.update_of_ne hne] at herr ⊢
    exact h x i e herr

/-- `resetSendLocked`, for a reason that there is. -/
private theorem Reasoned.resetSendLocked (h : c.Reasoned asked heard) {r : Ref}
    {reason : StreamError} (hid : reason.streamID = (c.heap r).id)
    (hreason : if reason.remote then ∃ f, heard f ∧ Side.send.Ends (c.heap r).id reason.code f
      else asked (.cancelWrite r reason.code)) :
    (c.resetSendLocked r reason).Reasoned asked heard := by
  unfold Conn.resetSendLocked
  dsimp only
  split_ifs
  · exact h
  · refine h.give .send ((Touches.setStream c r _).queueLocked _) rfl (fun x hx => ?_)
      (fun e herr => Or.inr ?_)
    · cases x with
      | recv => rfl
      | send => exact absurd rfl hx
    · obtain rfl := Option.some.inj herr
      exact ⟨hid, hreason⟩

private theorem Reasoned.discard (h : c.Reasoned asked heard) {r : Ref} {code : Nat}
    (hasked : asked (.cancelRead r code)) : (c.discard r code).Reasoned asked heard := by
  have hstream := ((Touches.refl c r).consumeLocked
    ((c.heap r).rbuf.data.length - (c.heap r).roff)).replace ((c.heap r).cancelRead code)
  have hgive {frames : List Frame} {c' : Conn}
      (htouches : c.Touches r ((c.heap r).cancelRead code) frames c') :
      (c'.completeLocked r).Reasoned asked heard := by
    refine h.give .recv htouches rfl (fun x hx => ?_) (fun e herr => Or.inr ?_)
    · cases x with
      | recv => exact absurd rfl hx
      | send => rfl
    · obtain rfl := Option.some.inj herr
      exact ⟨rfl, hasked⟩
  unfold Conn.discard
  dsimp only
  split_ifs
  · exact hgive hstream
  · exact hgive (hstream.queueLocked _)

/-- A call. -/
private theorem Reasoned.call (h : c.Reasoned asked heard) {op : Call}
    (hcall : c.call op = some c') (hasked : asked op) : c'.Reasoned asked heard := by
  by_cases hcancel : ∃ side r code, op = Side.cancel side r code
  · obtain ⟨_ | _, r, code, rfl⟩ := hcancel
    · obtain ⟨-, ⟨⟩⟩ := Option.ite_none_right_eq_some.mp hcall
      unfold Conn.cancelRead
      dsimp only
      split_ifs
      · exact h
      · exact h.discard hasked
    · obtain ⟨-, ⟨⟩⟩ := Option.ite_none_right_eq_some.mp hcall
      unfold Conn.cancelWrite
      split_ifs
      · exact h
      · exact h.resetSendLocked rfl hasked
  · exact h.spares (fun side => call_spares side c hcall
      (fun r code hop => hcancel ⟨side, r, code, hop⟩))

variable [Quicvarint] [GoAppend] {config : Config} {isServer : Bool} {t : Traffic}

/-- The stream that a frame is about has the id that the frame has. -/
private theorem lookup_id (hconfig : config.Valid)
    (hhistory : History config isServer heard t c) (hopen : c.closeErr = none)
    (hready : c.ready = true) {f : Parsed} {id : Nat} (hheard : heard f)
    (hstream : f.stream? = some id) (hbound : id ≤ maxVarint) {recv : Bool} {mid : Conn} {r : Ref}
    (hlookup : c.streamLocked id recv = (mid, .ok (some r))) : (mid.heap r).id = id := by
  obtain ⟨hmoves, hopen', -, hfound⟩ :=
    streamLocked_moves recv hopen hready hheard hstream hbound
  rw [hlookup] at hmoves hopen' hfound
  exact ((History.ordered hconfig (Since.moves hhistory hmoves)).of_table hopen'
    (hfound (some r) rfl).1).2.1

private theorem Reasoned.handleStopSending (h : c.Reasoned asked heard) (hconfig : config.Valid)
    (hhistory : History config isServer heard t c) (hopen : c.closeErr = none)
    (hready : c.ready = true) {f : StopSending} (hheard : heard (.frame (.stopSending f)))
    (hbound : (Frame.stopSending f).Bounded maxVarint) :
    (c.handleStopSending f).1.Reasoned asked heard := by
  have hspares (side : Side) := streamLocked_spares side c f.streamID false
  unfold Conn.handleStopSending
  rcases hlookup : c.streamLocked f.streamID false with ⟨mid, e | _ | r⟩
  all_goals
    rw [hlookup] at hspares
    dsimp only at hspares ⊢
  · exact h.spares hspares
  · exact h.spares hspares
  · have hid := lookup_id hconfig hhistory hopen hready hheard rfl hbound.1 hlookup
    refine (h.spares hspares).resetSendLocked rfl ⟨_, hheard, ?_⟩
    rw [hid]
    rfl

private theorem Reasoned.handleResetStreamLocked (h : c.Reasoned asked heard)
    (hconfig : config.Valid) (hhistory : History config isServer heard t c)
    (hopen : c.closeErr = none) (hready : c.ready = true) {f : ResetStream}
    (hheard : heard (.frame (.resetStream f)))
    (hbound : (Frame.resetStream f).Bounded maxVarint) :
    (c.handleResetStreamLocked f).1.Reasoned asked heard := by
  have hspares (side : Side) := streamLocked_spares side c f.streamID true
  unfold Conn.handleResetStreamLocked
  rcases hlookup : c.streamLocked f.streamID true with ⟨mid, e | _ | r⟩
  all_goals
    rw [hlookup] at hspares
    dsimp only at hspares ⊢
  · exact h.spares hspares
  · exact h.spares hspares
  · have hid := lookup_id hconfig hhistory hopen hready hheard rfl hbound.1 hlookup
    have hmid := h.spares hspares
    split_ifs
    · exact hmid
    · exact hmid
    · exact hmid
    · split
      · exact hmid
      · rename_i next hreceived
        obtain ⟨-, rfl⟩ := receivedLocked_ok hreceived
        refine hmid.give .recv (mid.takeReset_touches r f _) rfl (fun x hx => ?_)
          (fun e herr => ?_)
        · cases x with
          | recv => exact absurd rfl hx
          | send => rfl
        · change ((mid.heap r).takeReset f).recvErr = some e at herr
          cases hfirst : (mid.heap r).recvErr with
          | none =>
              simp only [Stream.takeReset, hfirst] at herr
              obtain rfl := Option.some.inj herr
              exact Or.inr ⟨rfl, _, hheard, f.finalSize, by rw [hid]⟩
          | some first =>
              simp only [Stream.takeReset, hfirst] at herr
              exact Or.inl (hfirst.trans herr)

/-- A frame of the peer. -/
private theorem Reasoned.handleFrameLocked (h : c.Reasoned asked heard) (hconfig : config.Valid)
    (hhistory : History config isServer heard t c) (hopen : c.closeErr = none) {f : Parsed}
    (hheard : heard f) (hbound : f.Bounded maxVarint) (now : Time) :
    (c.handleFrameLocked f now).1.Reasoned asked heard := by
  by_cases hends : ∃ side id code, Side.Ends id code side f
  · obtain ⟨side, id, code, hends⟩ := hends
    cases hready : c.ready with
    | false =>
        rcases side with _ | _
        · obtain ⟨size, rfl⟩ := hends
          simpa [Conn.handleFrameLocked, hready] using h
        · obtain rfl := hends
          simpa [Conn.handleFrameLocked, hready] using h
    | true =>
        rcases side with _ | _
        · obtain ⟨size, rfl⟩ := hends
          simp only [Conn.handleFrameLocked, hready, not_true_eq_false, if_false]
          exact h.handleResetStreamLocked hconfig hhistory hopen hready hheard hbound
        · obtain rfl := hends
          simp only [Conn.handleFrameLocked, hready, not_true_eq_false, if_false]
          exact h.handleStopSending hconfig hhistory hopen hready hheard hbound
  · exact h.spares (fun side => handleFrameLocked_spares side c
      (fun id code hcase => hends ⟨side, id, code, hcase⟩) now)

end Reasoned

end Conn

namespace Endpoint

variable [Quicvarint] [GoAppend] {config : Config} {isServer : Bool} {e e' : Endpoint}

omit [GoAppend] in
/-- The critical sections of those who have `writeMu`. -/
private theorem enter_spares {now : Time} (henter : e.enter now = some e') (side : Side) :
    Conn.Spares side e.conn e'.conn := by
  rcases enter_conn henter with ⟨r, n, hconn⟩ | ⟨r, hconn⟩ | hconn | hconn
  · rw [hconn]
    unfold Conn.reserve
    dsimp only
    split
    · exact .refl _
    · exact .setStream rfl rfl (Stream.err_eq rfl rfl side)
  · rw [hconn]
    unfold Conn.finish
    dsimp only
    split
    · exact .refl _
    · split_ifs
      · exact .refl _
      · exact .touches (.setStream e.conn r _) rfl (Stream.err_eq rfl rfl side)
  · rw [hconn]
    unfold Conn.takeControl
    split_ifs
    · exact .refl _
    · obtain ⟨_, _, _, _, hflush⟩ := e.conn.flushed_frame now
      exact .of_heap (by rw [hflush])
  · exact .of_heap (by rw [hconn])

omit [Quicvarint] [GoAppend] in
private theorem terminate_spares (c : Conn) (err : ConnError) (side : Side) :
    Conn.Spares side c (c.terminate err).1 :=
  fun r => Or.inr ⟨Conn.terminate_stream Stream.id (fun _ => rfl) c err r,
    Conn.terminate_stream (Stream.err · side) (fun _ => Stream.err_eq rfl rfl side) c err r⟩

/-- In every run, every error of a stream has a reason. -/
theorem reasoned (hconfig : config.Valid) {labels : List Action}
    (hrun : Machine.run step (new config isServer) labels = some e) :
    e.conn.Reasoned (fun op => .call op ∈ labels) (· ∈ labels.flatMap heardBy) := by
  refine (Machine.trace_invariant (P := fun labels e =>
    Machine.run step (new config isServer) labels = some e ∧
      e.conn.Reasoned (fun op => .call op ∈ labels) (· ∈ labels.flatMap heardBy))
    ⟨rfl, fun side r e herr => by cases side <;> cases herr⟩ ?_ labels e hrun).2
  rintro labels e a e' ⟨hprior, h⟩ hstep
  refine ⟨by simp [Machine.run_append, hprior, Machine.run, hstep], ?_⟩
  have h' : e.conn.Reasoned (fun op => .call op ∈ labels ++ [a])
      (· ∈ (labels ++ [a]).flatMap heardBy) :=
    h.mono (fun op hop => List.mem_append_left _ hop) (fun f hf => by simp [hf])
  cases stepped hstep with
  | call hcall => exact h'.call hcall (by simp)
  | close => exact h'.spares (terminate_spares _ _)
  | abort => exact h'.spares (terminate_spares _ _)
  | lock _ hlock =>
      obtain ⟨_, _, rfl, -⟩ := lock_frame hlock
      exact h'
  | enter henter => exact h'.spares (enter_spares henter)
  | write hwrite =>
      obtain ⟨_, _, _, _, _, rfl, -⟩ := write_frame hwrite
      exact h'
  | @record rec now hreading =>
      obtain ⟨_, _, t, htraced⟩ := traced hconfig hprior
      rcases e.receive_conn rec now with hconn | ⟨hsize, hconn⟩
      · exact hconn ▸ h'
      · rw [htraced.past.history.config.1] at hsize
        rw [hconn]
        refine Conn.handleRecord_invariant (P := Conn.Reasoned _ _) now
          (hsize.trans hconfig.recordSize_le) (fun f hf => ?_)
          (fun t c f hhistory hopen hheard hbound hreasoned =>
            hreasoned.handleFrameLocked hconfig hhistory hopen hheard hbound now)
          (htraced.past.history.mono (fun f hf => ?_)) h'
        · simp [heardBy, hf]
        · simp [hf]
  | wake => exact h'.spares (fun side => .of_heap rfl)
  | _ => exact h'

end Endpoint

end Qmux
