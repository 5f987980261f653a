import Qmux.Conn.Calls

/-!
Channels to wait on. A channel that a signal handed out is open until the next
broadcast, and no other channel of the signal is open along with it. So a
condition that can only change along with a broadcast holds for as long as the
channel of whoever found it is open.

`Calm` says what a critical section that changes nothing else does to those who
wait.
-/

namespace Qmux

namespace Signal

/-- The channel was handed out and not closed. -/
def IsOpen (s : Signal) (channel : Nat) : Prop :=
  s.waited = true ∧ s.epoch = channel

instance (s : Signal) (channel : Nat) : Decidable (s.IsOpen channel) :=
  inferInstanceAs (Decidable (_ ∧ _))

/-- The channel was handed out. -/
def Issued (s : Signal) (channel : Nat) : Prop :=
  channel < s.epoch ∨ s.IsOpen channel

/-- No channel was closed. -/
def Kept (s s' : Signal) : Prop :=
  s' = s ∨ s' = s.wait.1

/-- A caller waits on the channel for a change of `P`. -/
def Sleeps (s : Signal) (channel : Nat) (P : Prop) : Prop :=
  s.Issued channel ∧ (s.IsOpen channel → P)

/-- Those who wait because of `P` are woken, or have a reason to wait, `Q`,
still. -/
def Guards (s s' : Signal) (P Q : Prop) : Prop :=
  s' = s.broadcast ∨ (s.Kept s' ∧ (P → Q))

variable {s s' : Signal} {channel : Nat} {P Q : Prop}

theorem Kept.refl (s : Signal) : s.Kept s :=
  Or.inl rfl

theorem kept_wait (s : Signal) : s.Kept s.wait.1 :=
  Or.inr rfl

theorem not_open_broadcast (s : Signal) (channel : Nat) : ¬ s.broadcast.IsOpen channel := by
  rintro ⟨hwaited, -⟩
  unfold broadcast at hwaited
  split_ifs at hwaited with hwas
  exact hwas hwaited

theorem Issued.kept (h : s.Issued channel) (hkept : s.Kept s') : s'.Issued channel := by
  rcases hkept with rfl | rfl
  · exact h
  · rcases h with hlt | ⟨-, heq⟩
    · exact Or.inl hlt
    · exact Or.inr ⟨rfl, heq⟩

theorem Issued.broadcast (h : s.Issued channel) : s.broadcast.Issued channel := by
  apply Or.inl
  unfold Signal.broadcast
  rcases h with hlt | ⟨hwaited, rfl⟩
  · split_ifs
    · exact hlt.trans (Nat.lt_succ_self _)
    · exact hlt
  · rw [if_pos hwaited]
    exact Nat.lt_succ_self _

/-- A channel that is open was open all along. -/
theorem Issued.was_open (h : s.Issued channel) (hkept : s.Kept s') (hopen : s'.IsOpen channel) :
    s.IsOpen channel := by
  rcases hkept with rfl | rfl
  · exact hopen
  · rcases h with hlt | hwas
    · exact absurd hopen.2 (Nat.ne_of_gt hlt)
    · exact hwas

theorem issued_wait (s : Signal) : s.wait.1.Issued s.wait.2 :=
  Or.inr ⟨rfl, rfl⟩

theorem Sleeps.kept (h : s.Sleeps channel P) (hkept : s.Kept s') (himp : P → Q) :
    s'.Sleeps channel Q :=
  ⟨h.1.kept hkept, fun hopen => himp (h.2 (h.1.was_open hkept hopen))⟩

theorem Sleeps.broadcast (h : s.Sleeps channel P) : s.broadcast.Sleeps channel Q :=
  ⟨h.1.broadcast, fun hopen => absurd hopen (not_open_broadcast s channel)⟩

theorem Guards.same (hsignal : s' = s) (himp : P → Q) : s.Guards s' P Q :=
  Or.inr ⟨Or.inl hsignal, himp⟩

theorem Sleeps.guarded (h : s.Sleeps channel P) (hguards : s.Guards s' P Q) :
    s'.Sleeps channel Q := by
  rcases hguards with rfl | ⟨hkept, himp⟩
  · exact h.broadcast
  · exact h.kept hkept himp

end Signal

/-- Those who wait on the stream are left alone, or woken if a deadline has
changed. -/
structure Stream.Calm (s s' : Stream) : Prop where
  read : (s.readSignal.Kept s'.readSignal ∧ s'.readDeadline = s.readDeadline) ∨
    s'.readSignal = s.readSignal.broadcast
  write : (s.writeSignal.Kept s'.writeSignal ∧ s'.writeDeadline = s.writeDeadline) ∨
    s'.writeSignal = s.writeSignal.broadcast

theorem Stream.Calm.refl (s : Stream) : s.Calm s :=
  ⟨Or.inl ⟨.refl _, rfl⟩, Or.inl ⟨.refl _, rfl⟩⟩

namespace Conn

/-- Those who wait on the connection are left alone, and the token of the write
loop stays, or comes with a ping that is requested. -/
structure Calm (c c' : Conn) : Prop where
  streams : ∀ r, (c.heap r).Calm (c'.heap r)
  out : ∀ dir, (c.out dir).signal.Kept (c'.out dir).signal
  incoming : ∀ dir, (c.incoming dir).signal.Kept (c'.incoming dir).signal
  send : c.sendSignal.Kept c'.sendSignal
  token : c.controlWake = true → c'.controlWake = true
  ping : c'.pingPending = true → c.pingPending = true ∨ c'.controlWake = true

namespace Calm

theorem refl (c : Conn) : c.Calm c :=
  ⟨fun _ => .refl _, fun _ => .refl _, fun _ => .refl _, .refl _, id, Or.inl⟩

theorem setStream (c : Conn) {r : Ref} {s : Stream} (hcalm : (c.heap r).Calm s) :
    c.Calm (c.setStream r s) := by
  refine { refl c with streams := fun i => ?_ }
  simp only [Conn.setStream]
  rcases eq_or_ne i r with rfl | hne
  · rw [Function.update_self]
    exact hcalm
  · rw [Function.update_of_ne hne]
    exact .refl _

theorem setOut (c : Conn) {dir : Dir} {o : Outgoing}
    (hkept : (c.out dir).signal.Kept o.signal) : c.Calm (c.setOut dir o) := by
  refine { refl c with out := fun i => ?_ }
  simp only [Conn.setOut]
  rcases eq_or_ne i dir with rfl | hne
  · rw [Function.update_self]
    exact hkept
  · rw [Function.update_of_ne hne]
    exact .refl _

theorem setIncoming (c : Conn) {dir : Dir} {i : Incoming}
    (hkept : (c.incoming dir).signal.Kept i.signal) : c.Calm (c.setIncoming dir i) := by
  refine { refl c with incoming := fun j => ?_ }
  simp only [Conn.setIncoming]
  rcases eq_or_ne j dir with rfl | hne
  · rw [Function.update_self]
    exact hkept
  · rw [Function.update_of_ne hne]
    exact .refl _

end Calm

end Conn

end Qmux
