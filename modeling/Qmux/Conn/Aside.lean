import Qmux.Conn.Handlers

/-!
What the streams and the limits leave alone: the datagrams that wait for the
application, and the request for a ping.
-/

namespace Qmux

open Wire

namespace Conn

/-- The datagrams that wait for the application, and whether a ping was asked for. -/
def aside (c : Conn) : List Bytes × Bool :=
  (c.datagrams, c.pingPending)

variable (c : Conn)

private theorem touches_aside {c c' : Conn} {r : Ref} {s : Stream} {frames : List Frame}
    (h : c.Touches r s frames c') : (c'.completeLocked r).aside = c.aside :=
  h.view aside (fun _ _ _ _ _ _ => rfl)

private theorem completeLocked_aside (r : Ref) :
    (c.completeLocked r).aside = c.aside :=
  completeLocked_view aside (fun _ _ _ _ _ => rfl) c r

private theorem openThrough_aside (dir : Dir) (index : Nat) :
    (c.openThrough dir index).aside = c.aside := by
  unfold openThrough
  generalize index + 1 - (c.incoming dir).next = k
  induction k with
  | zero => rfl
  | succ k ih =>
      rw [Function.iterate_succ_apply']
      exact ih

private theorem streamLocked_aside (id : Nat) (recv : Bool) :
    (c.streamLocked id recv).1.aside = c.aside := by
  unfold streamLocked
  dsimp only
  split_ifs
  · rfl
  · rfl
  · rfl
  · rfl
  · exact c.openThrough_aside _ _

private theorem discard_aside (r : Ref) (code : Nat) :
    (c.discard r code).aside = c.aside := by
  have hstream := ((Touches.refl c r).consumeLocked
    ((c.heap r).rbuf.data.length - (c.heap r).roff)).replace ((c.heap r).cancelRead code)
  unfold discard
  dsimp only
  split_ifs
  · exact touches_aside hstream
  · exact touches_aside (hstream.queueLocked _)

private theorem resetSendLocked_aside (r : Ref) (reason : StreamError) :
    (c.resetSendLocked r reason).aside = c.aside := by
  unfold resetSendLocked
  dsimp only
  split_ifs
  · rfl
  · exact touches_aside ((Touches.setStream c r _).queueLocked _)

/-- The calls but for `ReceiveDatagram` and `requestPing`. -/
theorem call_aside {op : Call} {c' : Conn} (hcall : c.call op = some c')
    (hdatagram : op ≠ .receiveDatagram) (hping : ∀ now, op ≠ .requestPing now) :
    c'.aside = c.aside := by
  cases op with
  | tryOpen dir =>
      obtain rfl := Option.some.inj hcall
      unfold tryOpen
      split
      · rfl
      · dsimp only
        split_ifs <;> rfl
  | tryAccept dir =>
      obtain rfl := Option.some.inj hcall
      unfold tryAccept
      split
      · rfl
      · dsimp only
        split
        · rfl
        · exact completeLocked_aside _ _
  | tryRead r size =>
      obtain ⟨-, ⟨⟩⟩ := Option.ite_none_right_eq_some.mp hcall
      unfold tryRead
      dsimp only
      split
      · rfl
      · rfl
      · split_ifs
        · exact touches_aside (c.readLocked_touches r _)
        · rfl
        · rfl
  | tryPeek r size =>
      obtain ⟨-, ⟨⟩⟩ := Option.ite_none_right_eq_some.mp hcall
      unfold tryPeek
      dsimp only
      split
      · rfl
      · rfl
      · split_ifs <;> rfl
  | cancelRead r code =>
      obtain ⟨-, ⟨⟩⟩ := Option.ite_none_right_eq_some.mp hcall
      unfold cancelRead
      dsimp only
      split_ifs
      · rfl
      · exact c.discard_aside r code
  | cancelWrite r code =>
      obtain ⟨-, ⟨⟩⟩ := Option.ite_none_right_eq_some.mp hcall
      unfold cancelWrite
      split_ifs
      · rfl
      · exact c.resetSendLocked_aside r _
  | trySend r now =>
      obtain ⟨-, ⟨⟩⟩ := Option.ite_none_right_eq_some.mp hcall
      unfold trySend
      dsimp only
      split
      · rfl
      · split_ifs <;> rfl
  | setPriority | setReadDeadline | setWriteDeadline =>
      obtain ⟨-, ⟨⟩⟩ := Option.ite_none_right_eq_some.mp hcall
      rfl
  | requestPing now => exact absurd rfl (hping now)
  | receiveDatagram => exact absurd rfl hdatagram

private theorem handleStreamLocked_aside [GoAppend] (f : Wire.Stream) :
    (c.handleStreamLocked f).1.aside = c.aside := by
  have hlookup := c.streamLocked_aside f.streamID true
  unfold handleStreamLocked
  generalize c.streamLocked f.streamID true = found at hlookup ⊢
  obtain ⟨mid, e | _ | r⟩ := found
  · exact hlookup
  · exact hlookup
  · dsimp only at hlookup ⊢
    split_ifs
    · exact hlookup
    · exact hlookup
    · exact hlookup
    · exact hlookup
    · split
      · exact hlookup
      · rename_i next hreceived
        obtain ⟨-, rfl⟩ := receivedLocked_ok hreceived
        exact (touches_aside (mid.takeData_touches r f _)).trans hlookup

private theorem handleResetStreamLocked_aside (f : ResetStream) :
    (c.handleResetStreamLocked f).1.aside = c.aside := by
  have hlookup := c.streamLocked_aside f.streamID true
  unfold handleResetStreamLocked
  generalize c.streamLocked f.streamID true = found at hlookup ⊢
  obtain ⟨mid, e | _ | r⟩ := found
  · exact hlookup
  · exact hlookup
  · dsimp only at hlookup ⊢
    split_ifs
    · exact hlookup
    · exact hlookup
    · exact hlookup
    · split
      · exact hlookup
      · rename_i next hreceived
        obtain ⟨-, rfl⟩ := receivedLocked_ok hreceived
        exact (touches_aside (mid.takeReset_touches r f _)).trans hlookup

private theorem handleStopSending_aside (f : StopSending) :
    (c.handleStopSending f).1.aside = c.aside := by
  have hlookup := c.streamLocked_aside f.streamID false
  unfold handleStopSending
  generalize c.streamLocked f.streamID false = found at hlookup ⊢
  obtain ⟨mid, e | _ | r⟩ := found
  · exact hlookup
  · exact hlookup
  · exact (mid.resetSendLocked_aside r _).trans hlookup

private theorem handleMaxStreamData_aside (f : MaxStreamData) :
    (c.handleMaxStreamData f).1.aside = c.aside := by
  have hlookup := c.streamLocked_aside f.streamID false
  unfold handleMaxStreamData
  generalize c.streamLocked f.streamID false = found at hlookup ⊢
  obtain ⟨mid, e | _ | r⟩ := found
  · exact hlookup
  · exact hlookup
  · dsimp only at hlookup ⊢
    split_ifs
    · exact hlookup
    · exact hlookup

private theorem handlePingLocked_aside (f : Ping) (now : Time) :
    (c.handlePingLocked f now).1.aside = c.aside := by
  unfold handlePingLocked
  split_ifs <;> rfl


/-- The frames of the peer but for datagrams. -/
theorem handleFrameLocked_aside [GoAppend] {f : Parsed} (hother : ∀ g, f ≠ .frame (.datagram g))
    (now : Time) : (c.handleFrameLocked f now).1.aside = c.aside := by
  unfold handleFrameLocked
  split
  · split_ifs <;> rfl
  · split_ifs
    · unfold handleOtherLocked
      dsimp only
      split
      · exact c.handleStreamLocked_aside _
      · exact c.handleResetStreamLocked_aside _
      · exact c.handleStopSending_aside _
      · exact c.handleMaxStreamData_aside _
      · unfold handleMaxData
        split_ifs <;> rfl
      · unfold handleMaxStreams
        dsimp only
        split_ifs <;> rfl
      · exact c.handlePingLocked_aside _ now
      · exact absurd rfl (hother _)
      · rfl
      · rfl
      · rfl
    · rfl

theorem reserve_aside (r : Ref) (n : Nat) : (c.reserve r n).1.aside = c.aside := by
  unfold reserve
  dsimp only
  split <;> rfl

theorem finish_aside (r : Ref) : (c.finish r).1.aside = c.aside := by
  unfold finish
  dsimp only
  split
  · rfl
  · split_ifs
    · rfl
    · exact completeLocked_aside _ _

theorem terminate_aside (err : ConnError) : (c.terminate err).1.aside = c.aside := by
  unfold terminate
  split_ifs <;> rfl

end Conn

end Qmux
