import Qmux.Conn.Kept

/-!
Callers that wait. A call that has nothing to return gets a channel, for a write
one of the stream and one of the connection. `Waits` is what holds of such a
caller until it is woken: its channels were handed out, and unless one was
closed the reason to wait is still there.
-/

namespace Qmux

open Wire

/-- A caller that waits: its call, its channels and the deadline of its
timer. -/
inductive Waiting where
  | opening (dir : Dir) (channel : Nat)
  | accepting (dir : Dir) (channel : Nat)
  | reading (r : Ref) (size : Nat) (channel : Nat) (deadline : Option Time)
  | peeking (r : Ref) (size : Nat) (channel : Nat) (deadline : Option Time)
  | sending (r : Ref) (channel connChannel : Nat) (deadline : Option Time)
deriving DecidableEq, Repr

/-- A reader has to wait for `size` bytes. -/
structure Stream.Starves (s : Stream) (size : Nat) (deadline : Option Time) : Prop where
  err : s.recvErr = none
  data : s.unread.length < size
  fin : s.finRecv = false
  deadline : s.readDeadline = deadline

/-- A writer may send once there is credit. -/
structure Stream.Sendable (s : Stream) (deadline : Option Time) : Prop where
  err : s.sendErr = none
  fin : s.finSent = false
  deadline : s.writeDeadline = deadline

namespace Conn

/-- The call has to wait. -/
def waitsBy (c : Conn) : Call → Option Waiting
  | .tryOpen dir =>
      match (c.tryOpen dir).2 with
      | .wait channel => some (.opening dir channel)
      | _ => none
  | .tryAccept dir =>
      match (c.tryAccept dir).2 with
      | .wait channel => some (.accepting dir channel)
      | _ => none
  | .tryRead r size =>
      match (c.tryRead r size).2 with
      | .wait channel deadline => some (.reading r size channel deadline)
      | _ => none
  | .tryPeek r size =>
      match (c.tryPeek r size).2 with
      | .wait channel deadline => some (.peeking r size channel deadline)
      | _ => none
  | .trySend r now =>
      match (c.trySend r now).2 with
      | .wait channel connChannel deadline => some (.sending r channel connChannel deadline)
      | _ => none
  | _ => none

/-- The channels of the caller are open. -/
def Sleeping (c : Conn) : Waiting → Prop
  | .opening dir channel => (c.out dir).signal.IsOpen channel
  | .accepting dir channel => (c.incoming dir).signal.IsOpen channel
  | .reading r _ channel _ => (c.heap r).readSignal.IsOpen channel
  | .peeking r _ channel _ => (c.heap r).readSignal.IsOpen channel
  | .sending r channel connChannel _ =>
      (c.heap r).writeSignal.IsOpen channel ∧ c.sendSignal.IsOpen connChannel

/-- Calling again leads to the same wait, before the deadline if there is
one. -/
def Blocks (c : Conn) : Waiting → Prop
  | .opening dir channel => (c.tryOpen dir).2 = .wait channel
  | .accepting dir channel => (c.tryAccept dir).2 = .wait channel
  | .reading r size channel deadline => (c.tryRead r size).2 = .wait channel deadline
  | .peeking r size channel deadline => (c.tryPeek r size).2 = .wait channel deadline
  | .sending r channel connChannel deadline =>
      ∀ now, deadline.all (fun t => decide (now < t)) = true →
        (c.trySend r now).2 = .wait channel connChannel deadline

/-- The channels were handed out, and the reason to wait is there while they
are open. -/
def Waits (c : Conn) : Waiting → Prop
  | .opening dir channel => (c.out dir).signal.Sleeps channel
      (c.closeErr = none ∧ (c.out dir).max ≤ (c.out dir).next)
  | .accepting dir channel => (c.incoming dir).signal.Sleeps channel
      (c.closeErr = none ∧ (c.incoming dir).queue = [])
  | .reading r _ channel deadline => c.holdsRecv r = true ∧
      (c.heap r).readSignal.Sleeps channel
        (c.closeErr = none ∧ (c.heap r).Starves 1 deadline)
  | .peeking r size channel deadline => c.holdsRecv r = true ∧
      (c.heap r).readSignal.Sleeps channel
        (c.closeErr = none ∧ (c.heap r).Starves size deadline)
  | .sending r channel connChannel deadline => c.holdsSend r = true ∧
      c.sendSignal.Issued connChannel ∧
      (c.heap r).writeSignal.Sleeps channel (c.sendSignal.IsOpen connChannel →
        c.closeErr = none ∧ (c.heap r).Sendable deadline ∧
          (c.sendMax ≤ c.sent ∨ (c.heap r).sendMax ≤ (c.heap r).sendOffset))

section Results

variable {c : Conn}

/-- A caller whose reason to wait is there is blocked. -/
theorem Waits.blocks {w : Waiting} (h : c.Waits w) (hopen : c.Sleeping w) : c.Blocks w := by
  cases w with
  | opening dir channel =>
      obtain ⟨hclose, hmax⟩ := h.2 hopen
      obtain rfl := hopen.2
      simp only [Blocks, tryOpen, hclose, if_pos hmax]
      rfl
  | accepting dir channel =>
      obtain ⟨hclose, hqueue⟩ := h.2 hopen
      obtain rfl := hopen.2
      simp only [Blocks, tryAccept, hclose, hqueue]
      rfl
  | reading r size channel deadline =>
      obtain ⟨hclose, herr, hdata, hfin, rfl⟩ := h.2.2 hopen
      obtain rfl := hopen.2
      have hnone : ¬ (c.heap r).roff < (c.heap r).rbuf.data.length := by
        rw [Stream.unread, List.length_drop] at hdata
        omega
      simp only [Blocks, tryRead, hclose, herr, if_neg hnone, hfin]
      rfl
  | peeking r size channel deadline =>
      obtain ⟨hclose, herr, hdata, hfin, rfl⟩ := h.2.2 hopen
      obtain rfl := hopen.2
      simp only [Blocks, tryPeek, hclose, herr, if_neg (Nat.not_le_of_lt hdata), hfin]
      rfl
  | sending r channel connChannel deadline =>
      obtain ⟨hclose, ⟨herr, hfin, rfl⟩, hcredit⟩ := h.2.2.2 hopen.1 hopen.2
      obtain ⟨⟨-, rfl⟩, ⟨-, rfl⟩⟩ := hopen
      intro now hdeadline
      have hearly : (c.heap r).writeDeadline.any (fun t => decide (t ≤ now)) = false := by
        cases hset : (c.heap r).writeDeadline with
        | none => rfl
        | some t =>
            rw [hset] at hdeadline
            simpa using hdeadline
      have hzero : ¬ c.sendCreditLocked (c.heap r) > 0 := by
        unfold sendCreditLocked
        rw [if_pos hcredit.symm]
        exact Nat.lt_irrefl 0
      simp only [trySend, sendErrLocked, hclose, herr, hfin, hearly, if_neg hzero]
      rfl

/-- A call that has to wait has a reason to. -/
theorem waits_of_call {c' : Conn} {op : Call} {w : Waiting} (hcall : c.call op = some c')
    (hwait : c.waitsBy op = some w) : c'.Waits w := by
  cases op with
  | tryOpen dir =>
      obtain rfl : (c.tryOpen dir).1 = c' := Option.some.inj hcall
      unfold waitsBy tryOpen at hwait
      unfold tryOpen
      cases hclose : c.closeErr with
      | some err => simp [hclose] at hwait
      | none =>
          by_cases hmax : (c.out dir).next ≥ (c.out dir).max
          · simp only [hclose, if_pos hmax] at hwait ⊢
            obtain rfl := Option.some.inj hwait
            simp only [Waits, setOut, Function.update_self]
            exact ⟨Signal.issued_wait _, fun _ => ⟨hclose, hmax⟩⟩
          · simp [hclose, if_neg hmax] at hwait
  | tryAccept dir =>
      obtain rfl : (c.tryAccept dir).1 = c' := Option.some.inj hcall
      unfold waitsBy tryAccept at hwait
      unfold tryAccept
      cases hclose : c.closeErr with
      | some err => simp [hclose] at hwait
      | none =>
          cases hqueue : (c.incoming dir).queue with
          | cons r rest => simp [hclose, hqueue] at hwait
          | nil =>
              simp only [hclose, hqueue] at hwait ⊢
              obtain rfl := Option.some.inj hwait
              simp only [Waits, setIncoming, Function.update_self]
              exact ⟨Signal.issued_wait _, fun _ => ⟨hclose, trivial⟩⟩
  | tryRead r size =>
      obtain ⟨hholds, ⟨⟩⟩ := Option.ite_none_right_eq_some.mp hcall
      unfold waitsBy tryRead at hwait
      unfold tryRead
      cases hclose : c.closeErr with
      | some err => simp [hclose] at hwait
      | none =>
          cases herr : (c.heap r).recvErr with
          | some err => simp [hclose, herr] at hwait
          | none =>
              simp only [hclose, herr] at hwait ⊢
              split_ifs at hwait with hunread hfin
              rw [if_neg hunread, if_neg hfin]
              obtain rfl := Option.some.inj hwait
              have hdata : (c.heap r).unread.length < 1 := by
                rw [Stream.unread, List.length_drop]
                omega
              simp only [Waits, holdsRecv, setStream, Function.update_self]
              exact ⟨hholds, Signal.issued_wait _,
                fun _ => ⟨hclose, rfl, hdata, by simpa using hfin, rfl⟩⟩
  | tryPeek r size =>
      obtain ⟨⟨hholds, -⟩, ⟨⟩⟩ := Option.ite_none_right_eq_some.mp hcall
      unfold waitsBy tryPeek at hwait
      unfold tryPeek
      cases hclose : c.closeErr with
      | some err => simp [hclose] at hwait
      | none =>
          cases herr : (c.heap r).recvErr with
          | some err => simp [hclose, herr] at hwait
          | none =>
              simp only [hclose, herr] at hwait ⊢
              split_ifs at hwait with hunread hfin
              rw [if_neg hunread, if_neg hfin]
              obtain rfl := Option.some.inj hwait
              simp only [Waits, holdsRecv, setStream, Function.update_self]
              exact ⟨hholds, Signal.issued_wait _,
                fun _ => ⟨hclose, rfl, Nat.lt_of_not_le hunread, by simpa using hfin, rfl⟩⟩
  | trySend r now =>
      obtain ⟨hholds, ⟨⟩⟩ := Option.ite_none_right_eq_some.mp hcall
      unfold waitsBy trySend at hwait
      unfold trySend
      cases hsend : c.sendErrLocked (c.heap r) with
      | some err => simp [hsend] at hwait
      | none =>
          simp only [hsend] at hwait ⊢
          split_ifs at hwait with hdeadline hcredit
          rw [if_neg hdeadline, if_neg hcredit]
          obtain rfl := Option.some.inj hwait
          obtain ⟨hclose, herr, hfin⟩ := sendErrLocked_none hsend
          have hzero : (c.heap r).sendMax ≤ (c.heap r).sendOffset ∨ c.sendMax ≤ c.sent := by
            unfold sendCreditLocked at hcredit
            split_ifs at hcredit with hzero
            · exact hzero
            · omega
          simp only [Waits, holdsSend, setStream, Function.update_self]
          exact ⟨hholds, Signal.issued_wait _, Signal.issued_wait _,
            fun _ _ => ⟨hclose, ⟨herr, hfin, rfl⟩, hzero.symm⟩⟩
  | _ => cases hwait

end Results

end Conn

end Qmux
