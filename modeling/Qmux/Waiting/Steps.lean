import Qmux.Credit.Stream
import Qmux.Waiting.Basic

/-!
What wakes whom. Whatever takes the reason to wait away from a caller comes
with a broadcast of the signal the caller waits on.
-/

namespace Qmux

open Wire

namespace Stream

variable [GoAppend] {window size channel : Nat} {deadline : Option Time} {s s' : Stream}

private theorem takeData_signal (s : Stream) (f : Wire.Stream) :
    (s.takeData f).readSignal = s.readSignal.broadcast ∧
      (s.takeData f).writeSignal = s.writeSignal ∧
      (s.takeData f).writeDeadline = s.writeDeadline ∧ (s.takeData f).sendErr = s.sendErr ∧
      (s.takeData f).finSent = s.finSent ∧ (s.takeData f).sendMax = s.sendMax ∧
      (s.takeData f).sendOffset = s.sendOffset := by
  unfold takeData bufferLocked
  dsimp only
  split_ifs <;> exact ⟨rfl, rfl, rfl, rfl, rfl, rfl, rfl⟩

omit [GoAppend] in
private theorem copyOut_signal (s : Stream) (n window : Nat) :
    (s.copyOut n window).readSignal = s.readSignal ∧
      (s.copyOut n window).readDeadline = s.readDeadline ∧
      (s.copyOut n window).recvErr = s.recvErr ∧ (s.copyOut n window).finRecv = s.finRecv ∧
      (s.copyOut n window).unread = s.unread.drop n ∧
      (s.copyOut n window).writeSignal = s.writeSignal ∧
      (s.copyOut n window).writeDeadline = s.writeDeadline ∧
      (s.copyOut n window).sendErr = s.sendErr ∧ (s.copyOut n window).finSent = s.finSent ∧
      (s.copyOut n window).sendMax = s.sendMax ∧
      (s.copyOut n window).sendOffset = s.sendOffset := by
  rw [← unread_advance]
  unfold copyOut advance
  dsimp only
  split_ifs <;> exact ⟨rfl, rfl, rfl, rfl, rfl, rfl, rfl, rfl, rfl, rfl, rfl⟩

/-- Whatever ends the wait of a reader closes its channel. -/
theorem starves_step {P : Prop} (hstep : s.Step window s')
    (h : s.readSignal.Sleeps channel (P ∧ s.Starves size deadline)) :
    s'.readSignal.Sleeps channel (P ∧ s'.Starves size deadline) := by
  cases hstep with
  | quiet hcore hcalm =>
      rcases hcalm.read with ⟨hkept, hdeadline⟩ | hwoken
      · refine h.kept hkept (And.imp_right fun hstarves => ?_)
        have herr := congrArg Stream.recvErr hcore
        have hunread := congrArg Stream.unread hcore
        have hfin := congrArg Stream.finRecv hcore
        change s'.recvErr = s.recvErr at herr
        change s'.unread = s.unread at hunread
        change s'.finRecv = s.finRecv at hfin
        exact ⟨herr.trans hstarves.err, hunread ▸ hstarves.data, hfin.trans hstarves.fin,
          hdeadline.trans hstarves.deadline⟩
      · rw [hwoken]
        exact h.broadcast
  | @data f =>
      rw [(s.takeData_signal f).1]
      exact h.broadcast
  | @read n =>
      obtain ⟨hsignal, hdeadline, herr, hfin, hunread, -⟩ := s.copyOut_signal n window
      rw [hsignal]
      refine h.kept (.refl _) (And.imp_right fun hstarves => ?_)
      refine ⟨herr.trans hstarves.err, ?_, hfin.trans hstarves.fin,
        hdeadline.trans hstarves.deadline⟩
      rw [hunread, List.length_drop]
      exact (Nat.sub_le _ _).trans_lt hstarves.data
  | reset => exact h.broadcast
  | cancel => exact h.broadcast
  | forget =>
      refine h.kept (.refl _) (And.imp_right fun hstarves => ?_)
      refine ⟨hstarves.err, ?_, hstarves.fin, hstarves.deadline⟩
      rw [unread, List.length_drop]
      exact (Nat.sub_le _ _).trans_lt ((Nat.zero_le _).trans_lt hstarves.data)
  | _ => exact h.kept (.refl _) (And.imp_right fun hstarves => { hstarves with })

/-- Whatever gives a writer credit, or takes its stream away, closes its
channel. `B` is a reason to wait of the connection. -/
theorem sendable_step {A K B : Prop} (hstep : s.Step window s') (hsmall : s.sendOffset < 2 ^ 64)
    (h : s.writeSignal.Sleeps channel
      (A → K ∧ s.Sendable deadline ∧ (B ∨ s.sendMax ≤ s.sendOffset))) :
    s'.writeSignal.Sleeps channel
      (A → K ∧ s'.Sendable deadline ∧ (B ∨ s'.sendMax ≤ s'.sendOffset)) := by
  cases hstep with
  | quiet hcore hcalm =>
      rcases hcalm.write with ⟨hkept, hdeadline⟩ | hwoken
      · refine h.kept hkept fun hsends hopen => ?_
        obtain ⟨hK, hsendable, hcredit⟩ := hsends hopen
        have herr := congrArg Stream.sendErr hcore
        have hfin := congrArg Stream.finSent hcore
        have hmax := congrArg Stream.sendMax hcore
        have hoffset := congrArg Stream.sendOffset hcore
        change s'.sendErr = s.sendErr at herr
        change s'.finSent = s.finSent at hfin
        change s'.sendMax = s.sendMax at hmax
        change s'.sendOffset = s.sendOffset at hoffset
        refine ⟨hK, ⟨herr.trans hsendable.err, hfin.trans hsendable.fin,
          hdeadline.trans hsendable.deadline⟩, ?_⟩
        rw [hmax, hoffset]
        exact hcredit
      · rw [hwoken]
        exact h.broadcast
  | @data f =>
      obtain ⟨-, hsignal, hdeadline, herr, hfin, hmax, hoffset⟩ := s.takeData_signal f
      rw [hsignal, hmax, hoffset]
      refine h.kept (.refl _) fun hsends hopen => ?_
      obtain ⟨hK, hsendable, hcredit⟩ := hsends hopen
      exact ⟨hK, ⟨herr.trans hsendable.err, hfin.trans hsendable.fin,
        hdeadline.trans hsendable.deadline⟩, hcredit⟩
  | @read n =>
      obtain ⟨-, -, -, -, -, hsignal, hdeadline, herr, hfin, hmax, hoffset⟩ :=
        s.copyOut_signal n window
      rw [hsignal, hmax, hoffset]
      refine h.kept (.refl _) fun hsends hopen => ?_
      obtain ⟨hK, hsendable, hcredit⟩ := hsends hopen
      exact ⟨hK, ⟨herr.trans hsendable.err, hfin.trans hsendable.fin,
        hdeadline.trans hsendable.deadline⟩, hcredit⟩
  | resetSend => exact h.broadcast
  | raise => exact h.broadcast
  | finish => exact h.broadcast
  | @spend n hsend hcredit =>
      refine h.kept (.refl _) fun hsends hopen => ?_
      obtain ⟨hK, hsendable, hblocked⟩ := hsends hopen
      refine ⟨hK, { hsendable with }, hblocked.imp_right fun hmax => ?_⟩
      obtain rfl : n = 0 := by omega
      change s.sendMax ≤ Word.add s.sendOffset 0
      rw [Word.add_of_lt (by omega)]
      exact hmax
  | _ =>
      refine h.kept (.refl _) fun hsends hopen => ?_
      obtain ⟨hK, hsendable, hcredit⟩ := hsends hopen
      exact ⟨hK, { hsendable with }, hcredit⟩

theorem sendOffset_step (hstep : s.Step window s')
    (h : s.sendOffset < 2 ^ 64) : s'.sendOffset < 2 ^ 64 := by
  cases hstep with
  | quiet hcore => exact (congrArg Stream.sendOffset hcore :) ▸ h
  | @data f => exact (s.takeData_signal f).2.2.2.2.2.2 ▸ h
  | @read n => exact (s.copyOut_signal n window).2.2.2.2.2.2.2.2.2.2 ▸ h
  | spend => exact Nat.mod_lt _ (by decide)
  | _ => exact h

end Stream

namespace Conn

section Moves

variable [Quicvarint] [GoAppend] {heard : Parsed → Prop} {c c' : Conn} {t : Traffic}

omit [Quicvarint] [GoAppend] in
private theorem completeLocked_incoming (c : Conn) (r : Ref) (dir : Dir) :
    ((c.completeLocked r).incoming dir).signal = (c.incoming dir).signal ∧
      ((c.completeLocked r).incoming dir).queue = (c.incoming dir).queue := by
  unfold completeLocked
  dsimp only
  split_ifs
  · exact ⟨rfl, rfl⟩
  · exact ⟨rfl, rfl⟩
  · rcases eq_or_ne dir (streamDir (c.heap r).id) with rfl | hne
    · simp [setIncoming, wakeWriter]
    · simp [setIncoming, wakeWriter, Function.update_of_ne hne]

/-- A limit on the streams of this side is raised along with a broadcast. -/
theorem out_guards (hmove : Move heard c t c') (dir : Dir) :
    (c.out dir).signal.Guards (c'.out dir).signal ((c.out dir).max ≤ (c.out dir).next)
      ((c'.out dir).max ≤ (c'.out dir).next) := by
  have same (hout : c'.out = c.out) : (c.out dir).signal.Guards (c'.out dir).signal
      ((c.out dir).max ≤ (c.out dir).next) ((c'.out dir).max ≤ (c'.out dir).next) := by
    rw [hout]
    exact .same rfl id
  cases hmove with
  | still htook hhanded hpings hreads hcore hcalm =>
      have hmax := congrArg (fun d : Conn => (d.out dir).max) hcore
      have hnext := congrArg (fun d : Conn => (d.out dir).next) hcore
      change (c'.out dir).max = (c.out dir).max at hmax
      change (c'.out dir).next = (c.out dir).next at hnext
      rw [hmax, hnext]
      exact Or.inr ⟨hcalm.out dir, id⟩
  | act hopen hact =>
      exact same (hact.touches.view Conn.out fun _ _ _ _ _ _ => rfl)
  | accept => exact same (completeLocked_view Conn.out (fun _ _ _ _ _ => rfl) _ _)
  | parameters => exact Or.inl rfl
  | @openLocal dir' hopen hmax =>
      simp only [openLocal, setOut, newStreamLocked]
      rcases eq_or_ne dir dir' with rfl | hne
      · rw [Function.update_self]
        exact .same rfl (fun hle => absurd hmax (Nat.not_lt_of_le hle))
      · rw [Function.update_of_ne hne]
        exact .same rfl id
  | @raiseStreams f =>
      unfold handleMaxStreams
      generalize (if f.uni then Dir.uni else Dir.bidi) = dir'
      dsimp only
      by_cases hraised : f.max > (c.out dir').max
      · rw [if_pos hraised]
        simp only [setOut]
        rcases eq_or_ne dir dir' with rfl | hne
        · rw [Function.update_self]
          exact Or.inl rfl
        · rw [Function.update_of_ne hne]
          exact .same rfl id
      · rw [if_neg hraised]
        exact .same rfl id
  | @flush now =>
      apply same
      obtain ⟨_, _, _, _, hflush⟩ := c.flushed_frame now
      rw [hflush]
  | _ => exact same rfl

/-- A stream is queued for the application along with a broadcast. -/
theorem incoming_guards (hmove : Move heard c t c') (dir : Dir) :
    (c.incoming dir).signal.Guards (c'.incoming dir).signal ((c.incoming dir).queue = [])
      ((c'.incoming dir).queue = []) := by
  have same (hsignal : (c'.incoming dir).signal = (c.incoming dir).signal)
      (hqueue : (c'.incoming dir).queue = (c.incoming dir).queue) :
      (c.incoming dir).signal.Guards (c'.incoming dir).signal ((c.incoming dir).queue = [])
        ((c'.incoming dir).queue = []) := by
    rw [hqueue]
    exact .same hsignal id
  cases hmove with
  | still htook hhanded hpings hreads hcore hcalm =>
      have hqueue := congrArg (fun d : Conn => (d.incoming dir).queue) hcore
      change (c'.incoming dir).queue = (c.incoming dir).queue at hqueue
      rw [hqueue]
      exact Or.inr ⟨hcalm.incoming dir, id⟩
  | @act r t s frames d hopen hact =>
      obtain ⟨hsignal, hqueue⟩ := completeLocked_incoming d r dir
      obtain ⟨a, -, rfl⟩ := hact.touches
      exact same hsignal hqueue
  | @accept dir' r rest hopen hqueue =>
      obtain ⟨hsignal, hrest⟩ := completeLocked_incoming ((c.setIncoming dir'
        { c.incoming dir' with queue := rest }).setStream r { c.heap r with accepted := true }) r dir
      simp only [setStream, setIncoming] at hsignal hrest
      rcases eq_or_ne dir dir' with rfl | hne
      · rw [Function.update_self] at hsignal
        refine .same hsignal (fun hempty => ?_)
        rw [hqueue] at hempty
        cases hempty
      · rw [Function.update_of_ne hne] at hsignal hrest
        exact same hsignal hrest
  | @openIncoming f id =>
      simp only [openIncoming, setIncoming, newStreamLocked]
      rcases eq_or_ne dir (streamDir id) with rfl | hne
      · rw [Function.update_self]
        exact Or.inl rfl
      · rw [Function.update_of_ne hne]
        exact .same rfl (fun hempty => hempty)
  | @raiseStreams f =>
      obtain ⟨out, hout⟩ := c.handleMaxStreams_frame f
      rw [hout]
      exact .same rfl id
  | @flush now =>
      obtain ⟨_, _, _, _, hflush⟩ := c.flushed_frame now
      rw [hflush]
      exact .same rfl id
  | _ => exact same rfl rfl

/-- The limit on all stream data is raised along with a broadcast. -/
theorem send_guards (hmove : Move heard c t c') (hsmall : c.sent < 2 ^ 64) :
    c.sendSignal.Guards c'.sendSignal (c.sendMax ≤ c.sent) (c'.sendMax ≤ c'.sent) := by
  have same (hsend : (c'.sendSignal, c'.sendMax, c'.sent) = (c.sendSignal, c.sendMax, c.sent)) :
      c.sendSignal.Guards c'.sendSignal (c.sendMax ≤ c.sent) (c'.sendMax ≤ c'.sent) := by
    simp only [Prod.mk.injEq] at hsend
    rw [hsend.2.1, hsend.2.2]
    exact .same hsend.1 id
  cases hmove with
  | still htook hhanded hpings hreads hcore hcalm =>
      have hmax := congrArg Conn.sendMax hcore
      have hsent := congrArg Conn.sent hcore
      change c'.sendMax = c.sendMax at hmax
      change c'.sent = c.sent at hsent
      rw [hmax, hsent]
      exact Or.inr ⟨hcalm.send, id⟩
  | act hopen hact =>
      exact same (hact.touches.view (fun d => (d.sendSignal, d.sendMax, d.sent))
        fun _ _ _ _ _ _ => rfl)
  | accept =>
      exact same (completeLocked_view (fun d => (d.sendSignal, d.sendMax, d.sent))
        (fun _ _ _ _ _ => rfl) _ _)
  | parameters => exact Or.inl rfl
  | raiseData => exact Or.inl rfl
  | @reserve r p n hopen hholds herr hfin hcredit =>
      refine .same rfl (fun hmax => ?_)
      unfold sendCreditLocked at hcredit
      rw [if_pos (Or.inr hmax)] at hcredit
      obtain rfl : n = 0 := Nat.le_zero.mp hcredit
      change c.sendMax ≤ Word.add c.sent 0
      rw [Word.add_of_lt (by omega)]
      exact hmax
  | @raiseStreams f =>
      apply same
      obtain ⟨out, hout⟩ := c.handleMaxStreams_frame f
      rw [hout]
  | @flush now =>
      apply same
      obtain ⟨_, _, _, _, hflush⟩ := c.flushed_frame now
      rw [hflush]
  | _ => exact same rfl

end Moves

end Conn

end Qmux
