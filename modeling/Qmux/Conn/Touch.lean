import Qmux.Conn.Moves

/-!
Most moves change one stream and the accounts of the receiving side, queue at
most one frame, and then let `completeLocked` decide whether the stream is
over. This module brings each act on a stream to that form.
-/

namespace Qmux

open Wire

/-- The accounts of the receiving side, with the flags they raise. -/
structure Accounts where
  recvMax : Nat
  received : Nat
  consumed : Nat
  maxDataPending : Bool
  controlWake : Bool

/-- The limit of the peer has not changed, or it is to be told the new one. -/
def Accounts.Tells (a b : Accounts) : Prop :=
  (b.recvMax = a.recvMax ∧ b.maxDataPending = a.maxDataPending) ∨ b.maxDataPending = true

theorem Accounts.Tells.trans {a b d : Accounts} (hfirst : a.Tells b) (hsecond : b.Tells d) :
    a.Tells d := by
  unfold Accounts.Tells at *
  rcases hsecond with ⟨hmax, hpending⟩ | htold
  · rw [hmax, hpending]
    exact hfirst
  · exact Or.inr htold

/-- `s'` is a later state of the stream `s`. -/
structure Stream.Keeps (s s' : Stream) : Prop where
  id : s'.id = s.id
  canRecv : s'.canRecv = s.canRecv
  canSend : s'.canSend = s.canSend
  accepted : s.accepted = true → s'.accepted = true

namespace Stream

theorem Keeps.refl (s : Stream) : s.Keeps s :=
  ⟨rfl, rfl, rfl, fun h => h⟩

theorem Keeps.trans {s s' s'' : Stream} (hfirst : s.Keeps s') (hsecond : s'.Keeps s'') :
    s.Keeps s'' :=
  ⟨hsecond.id.trans hfirst.id, hsecond.canRecv.trans hfirst.canRecv,
    hsecond.canSend.trans hfirst.canSend, fun h => hsecond.accepted (hfirst.accepted h)⟩

theorem takeData_keeps [GoAppend] (s : Stream) (f : Wire.Stream) : s.Keeps (s.takeData f) := by
  unfold takeData bufferLocked
  dsimp only
  split_ifs <;> exact ⟨rfl, rfl, rfl, fun h => h⟩

theorem copyOut_keeps (s : Stream) (n window : Nat) : s.Keeps (s.copyOut n window) := by
  unfold copyOut advance
  dsimp only
  split_ifs <;> exact ⟨rfl, rfl, rfl, fun h => h⟩

end Stream

namespace Conn

def withAccounts (c : Conn) (a : Accounts) : Conn :=
  { c with
    recvMax := a.recvMax
    received := a.received
    consumed := a.consumed
    maxDataPending := a.maxDataPending
    controlWake := a.controlWake }

def accounts (c : Conn) : Accounts :=
  ⟨c.recvMax, c.received, c.consumed, c.maxDataPending, c.controlWake⟩

/-- Raising a stream limit changes nothing but the opening side. -/
theorem handleMaxStreams_frame (c : Conn) (f : MaxStreams) :
    ∃ out, c.handleMaxStreams f = { c with out := out } := by
  unfold handleMaxStreams
  generalize (if f.uni = true then Dir.uni else Dir.bidi) = dir
  dsimp only
  split_ifs
  · exact ⟨_, rfl⟩
  · exact ⟨c.out, rfl⟩

/-- A flush takes what is to be sent and may start the clock of a ping. -/
theorem flushed_frame (c : Conn) (now : Time) :
    ∃ nextPing sentAt unanswered unansweredAt, c.flushed now = { c with
      control := []
      maxDataPending := false
      incoming := fun dir => { c.incoming dir with pending := false }
      pongPending := false
      pingPending := false
      nextPing := nextPing
      pingSentAt := sentAt
      pingUnanswered := unanswered
      pingUnansweredAt := unansweredAt } := by
  unfold flushed
  dsimp only
  split_ifs <;> exact ⟨_, _, _, _, rfl⟩

/-- `c'` is `c` with the stream `r` replaced by `s` and `frames` queued, up to
the accounts of the receiving side. -/
def Touches (c : Conn) (r : Ref) (s : Stream) (frames : List Frame) (c' : Conn) : Prop :=
  ∃ a : Accounts, c.accounts.Tells a ∧
    c' = { (c.setStream r s).withAccounts a with control := c.control ++ frames }

namespace Touches

variable {c c' : Conn} {r : Ref} {s : Stream} {frames : List Frame}

theorem setStream (c : Conn) (r : Ref) (s : Stream) : c.Touches r s [] (c.setStream r s) :=
  ⟨c.accounts, Or.inl ⟨rfl, rfl⟩, by
    rw [List.append_nil]
    rfl⟩

theorem refl (c : Conn) (r : Ref) : c.Touches r (c.heap r) [] c := by
  have hself : c.setStream r (c.heap r) = c := by
    simp [Conn.setStream]
  simpa only [hself] using setStream c r (c.heap r)

theorem consumeLocked (h : c.Touches r s frames c') (n : Nat) :
    c.Touches r s frames (c'.consumeLocked n) := by
  obtain ⟨a, htells, ha⟩ := h
  refine ⟨(c'.consumeLocked n).accounts, htells.trans ?_, ?_⟩
  · have haccounts : c'.accounts = a := congrArg Conn.accounts ha
    rw [← haccounts]
    unfold Conn.consumeLocked
    dsimp only
    split_ifs
    · exact Or.inr rfl
    · exact Or.inl ⟨rfl, rfl⟩
  · subst ha
    unfold Conn.consumeLocked
    dsimp only
    split_ifs <;> rfl

theorem queueLocked (h : c.Touches r s [] c') (f : Frame) :
    c.Touches r s [f] (c'.queueLocked f) := by
  obtain ⟨a, htells, rfl⟩ := h
  refine ⟨{ a with controlWake := true }, htells, ?_⟩
  simp only [Conn.queueLocked, List.append_nil]
  rfl

theorem replace (h : c.Touches r s frames c') (s' : Stream) :
    c.Touches r s' frames (c'.setStream r s') := by
  obtain ⟨a, htells, rfl⟩ := h
  refine ⟨a, htells, ?_⟩
  simp only [Conn.setStream, withAccounts, Function.update_idem]

theorem overwrite {t : Stream} (h : (c.setStream r t).Touches r s frames c') :
    c.Touches r s frames c' := by
  obtain ⟨a, htells, rfl⟩ := h
  refine ⟨a, htells, ?_⟩
  simp only [Conn.setStream, withAccounts, Function.update_idem]

theorem received (h : c.Touches r s frames c') (n : Nat) :
    c.Touches r s frames { c' with received := n } := by
  obtain ⟨a, htells, rfl⟩ := h
  exact ⟨{ a with received := n }, htells, rfl⟩

end Touches

section Steps

variable (c : Conn) (r : Ref)

theorem takeData_touches [GoAppend] (f : Wire.Stream) (n : Nat) :
    c.Touches r ((c.heap r).takeData f) [] ({ c with received := n }.takeData r f) := by
  have hstream := (((Touches.refl c r).received n).replace ((c.heap r).takeData f))
  unfold takeData
  dsimp only
  split_ifs
  · exact hstream.consumeLocked _
  · exact hstream

theorem takeReset_touches (f : ResetStream) (n : Nat) :
    c.Touches r ((c.heap r).takeReset f) [] ({ c with received := n }.takeReset r f) :=
  (((Touches.refl c r).received n).consumeLocked _).replace _

theorem readLocked_touches (n : Nat) :
    c.Touches r ((c.heap r).copyOut n c.config.streamWindow)
      ((c.heap r).copyOutGrant n c.config.streamWindow)
      ((c.setStream r ((c.heap r).advance n)).readLocked r n) := by
  refine Touches.overwrite (t := (c.heap r).advance n) ?_
  have hheap : (c.setStream r ((c.heap r).advance n)).heap r = (c.heap r).advance n := by
    simp [Conn.setStream]
  have hconfig : (c.setStream r ((c.heap r).advance n)).config = c.config := rfl
  have hgrant : (c.heap r).copyOutGrant n c.config.streamWindow =
      ((c.heap r).advance n).copyOutGrant n c.config.streamWindow := by
    unfold Stream.advance
    split_ifs <;> rfl
  have hread := (Touches.setStream (c.setStream r ((c.heap r).advance n)) r
    { (c.heap r).advance n with
      readOffset := Word.add ((c.heap r).advance n).readOffset n }).consumeLocked n
  rw [hgrant]
  unfold Conn.readLocked Stream.copyOut Stream.copyOutGrant
  rw [hheap, hconfig]
  dsimp only
  by_cases hlow : Stream.lowCredit { (c.heap r).advance n with
      readOffset := Word.add ((c.heap r).advance n).readOffset n } c.config.streamWindow = true
  · rw [if_pos hlow, if_pos hlow, if_pos hlow]
    exact (hread.replace _).queueLocked _
  · rw [if_neg hlow, if_neg hlow, if_neg hlow]
    exact hread

end Steps

section Act

variable [GoAppend] {heard : Parsed → Prop} {c d : Conn} {r : Ref} {t : Traffic} {s : Stream}
  {frames : List Frame}

theorem Act.touches (hact : Act heard c r t s frames d) : c.Touches r s frames d := by
  cases hact with
  | data => exact c.takeData_touches r _ _
  | reset => exact c.takeReset_touches r _ _
  | resetSend => exact (Touches.setStream c r _).queueLocked _
  | read => exact c.readLocked_touches r _
  | @cancel code =>
      have hstream := ((Touches.refl c r).consumeLocked
        ((c.heap r).rbuf.data.length - (c.heap r).roff)).replace ((c.heap r).cancelRead code)
      split_ifs
      · exact hstream
      · exact hstream.queueLocked _
  | finish => exact Touches.setStream c r _

theorem Act.keeps (hact : Act heard c r t s frames d) : (c.heap r).Keeps s := by
  cases hact with
  | data => exact Stream.takeData_keeps _ _
  | read => exact Stream.copyOut_keeps _ _ _
  | _ => exact ⟨rfl, rfl, rfl, fun h => h⟩

/-- The only frame an act hands out is the end of a stream. -/
theorem Act.not_handed (hact : Act heard c r t s frames d) {f : Frame}
    (hf : ∀ g, f ≠ .stream g) : f ∉ t.handed := by
  intro hmem
  cases hact with
  | resetSend hcause =>
      rcases hcause with ⟨-, rfl⟩ | ⟨g, -, -, -, rfl⟩ <;> cases hmem
  | finish => exact hf _ (List.mem_singleton.mp hmem)
  | _ => cases hmem

end Act

end Conn

end Qmux
