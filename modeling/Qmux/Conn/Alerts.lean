import Qmux.Conn.Kept

/-!
The token of the write loop. Whoever queues a frame or sets a flag for it leaves
a token as well, under the same hold of `mu`.
-/

namespace Qmux

open Wire

namespace Conn

/-- There is something for `takeControl` to take. -/
def HasControl (c : Conn) : Prop :=
  c.control ≠ [] ∨ c.maxDataPending = true ∨ (∃ dir, (c.incoming dir).pending = true) ∨
    c.pongPending = true ∨ c.pingPending = true

/-- The token stays, and whatever is new comes with one. -/
structure Alerts (c c' : Conn) : Prop where
  token : c.controlWake = true → c'.controlWake = true
  control : c'.HasControl → c.HasControl ∨ c'.controlWake = true

section Alerts

variable {c c' c'' : Conn}

theorem Alerts.trans (hfirst : c.Alerts c') (hsecond : c'.Alerts c'') : c.Alerts c'' := by
  refine ⟨fun h => hsecond.token (hfirst.token h), fun h => ?_⟩
  rcases hsecond.control h with hcontrol | htoken
  · exact (hfirst.control hcontrol).imp_right hsecond.token
  · exact Or.inr htoken

private theorem Alerts.of_token (htoken : c'.controlWake = true) : c.Alerts c' :=
  ⟨fun _ => htoken, fun _ => Or.inr htoken⟩

private theorem Alerts.of_core (hcore : c'.core = c.core) (hcalm : c.Calm c') : c.Alerts c' := by
  refine ⟨hcalm.token, fun h => ?_⟩
  have hcontrol : c'.control = c.control := (congrArg Conn.control hcore :)
  have hdata : c'.maxDataPending = c.maxDataPending := (congrArg Conn.maxDataPending hcore :)
  have hpong : c'.pongPending = c.pongPending := (congrArg Conn.pongPending hcore :)
  have hstreams (dir : Dir) : (c'.incoming dir).pending = (c.incoming dir).pending :=
    (congrArg (fun d : Conn => (d.incoming dir).pending) hcore :)
  unfold HasControl at h ⊢
  simp only [hcontrol, hdata, hstreams, hpong] at h
  rcases h with h | h | h | h | h
  · exact Or.inl (Or.inl h)
  · exact Or.inl (Or.inr (Or.inl h))
  · exact Or.inl (Or.inr (Or.inr (Or.inl h)))
  · exact Or.inl (Or.inr (Or.inr (Or.inr (Or.inl h))))
  · exact (hcalm.ping h).imp_left (fun h => Or.inr (Or.inr (Or.inr (Or.inr h))))

/-- The queues of the peer's streams change, but not their limits. -/
private theorem Alerts.setIncoming (c : Conn) {dir : Dir} {i : Incoming}
    (hpending : i.pending = (c.incoming dir).pending) : c.Alerts (c.setIncoming dir i) := by
  refine ⟨fun h => h, fun h => Or.inl ?_⟩
  have hsame := Heap.map_update_of_eq Incoming.pending c.incoming dir i hpending
  refine h.imp_right (Or.imp_right (Or.imp_left (fun ⟨other, hother⟩ => ⟨other, ?_⟩)))
  exact (congrFun hsame other).symm.trans hother

private theorem consumeLocked_alerts (c : Conn) (n : Nat) : c.Alerts (c.consumeLocked n) := by
  unfold consumeLocked
  dsimp only
  split_ifs
  · exact .of_token rfl
  · exact ⟨fun h => h, Or.inl⟩

theorem completeLocked_alerts (c : Conn) (r : Ref) : c.Alerts (c.completeLocked r) := by
  unfold completeLocked
  dsimp only
  split_ifs
  · exact ⟨fun h => h, Or.inl⟩
  · exact ⟨fun h => h, Or.inl⟩
  · exact .of_token rfl

private theorem Act.alerts [GoAppend] {heard : Parsed → Prop} {r : Ref} {t : Traffic} {s : Stream}
    {frames : List Frame} (hact : Act heard c r t s frames c') : c.Alerts c' := by
  have hconsume {d : Conn} (n : Nat) (hsame : c.Alerts d) : c.Alerts (d.consumeLocked n) :=
    hsame.trans (consumeLocked_alerts d n)
  cases hact with
  | data =>
      unfold takeData
      dsimp only
      split_ifs
      · exact hconsume _ ⟨fun h => h, Or.inl⟩
      · exact ⟨fun h => h, Or.inl⟩
  | @reset f =>
      have hreset := hconsume (d := { c with
          received := Word.add c.received (Word.sub f.finalSize (c.heap r).recvOffset) })
        (Word.add (Word.sub f.finalSize (c.heap r).recvOffset)
          ((c.heap r).rbuf.data.length - (c.heap r).roff)) ⟨fun h => h, Or.inl⟩
      exact ⟨hreset.token, hreset.control⟩
  | resetSend => exact .of_token rfl
  | read =>
      unfold readLocked
      dsimp only
      split_ifs
      · exact .of_token rfl
      · exact hconsume _ ⟨fun h => h, Or.inl⟩
  | cancel =>
      split_ifs
      · have hcancel := hconsume ((c.heap r).rbuf.data.length - (c.heap r).roff)
          ⟨fun h => h, Or.inl⟩
        exact ⟨hcancel.token, hcancel.control⟩
      · exact .of_token rfl
  | finish => exact ⟨fun h => h, Or.inl⟩

theorem reserve_alerts (c : Conn) (r : Ref) (n : Nat) : c.Alerts (c.reserve r n).1 := by
  unfold reserve
  dsimp only
  split <;> exact ⟨fun h => h, Or.inl⟩

theorem finish_alerts (c : Conn) (r : Ref) : c.Alerts (c.finish r).1 := by
  unfold finish
  dsimp only
  split
  · exact ⟨fun h => h, Or.inl⟩
  · split_ifs
    · exact ⟨fun h => h, Or.inl⟩
    · refine Alerts.trans ?_ (completeLocked_alerts _ _)
      exact ⟨fun h => h, Or.inl⟩

/-- A flush leaves nothing to send. -/
private theorem flushed_hasControl (c : Conn) (now : Time) : ¬ (c.flushed now).HasControl := by
  unfold flushed HasControl
  dsimp only
  split_ifs <;> simp

theorem takeControl_hasControl {now : Time} (hopen : (c.takeControl now).1.closeErr = none) :
    ¬ (c.takeControl now).1.HasControl := by
  unfold takeControl at hopen ⊢
  split_ifs at hopen ⊢ with hclosed
  · have hnone : c.closeErr = none := hopen
    simp [hnone] at hclosed
  · exact flushed_hasControl c now

variable [Quicvarint] [GoAppend] {heard : Parsed → Prop} {t : Traffic}

private theorem alerts_of_move (hmove : Move heard c t c') (hwoken : t.woken = false) :
    c.Alerts c' := by
  cases hmove with
  | still htook hhanded hpings hreads hcore hcalm => exact .of_core hcore hcalm
  | act hopen hact => exact hact.alerts.trans (completeLocked_alerts _ _)
  | openIncoming =>
      unfold openIncoming
      refine Alerts.trans ?_ (Alerts.setIncoming _ rfl)
      exact ⟨fun h => h, Or.inl⟩
  | @accept dir r rest =>
      have hqueue := Alerts.setIncoming c (i := { c.incoming dir with queue := rest }) rfl
      refine hqueue.trans (Alerts.trans ?_ (completeLocked_alerts _ _))
      exact ⟨fun h => h, Or.inl⟩
  | @raiseStreams f =>
      obtain ⟨out, hout⟩ := c.handleMaxStreams_frame f
      rw [hout]
      exact ⟨fun h => h, Or.inl⟩
  | pinged => exact .of_token rfl
  | @flush now =>
      refine ⟨fun h => ?_, fun h => absurd h (flushed_hasControl c _)⟩
      obtain ⟨_, _, _, _, hflush⟩ := c.flushed_frame now
      rw [hflush]
      exact h
  | woken => cases hwoken
  | _ => exact ⟨fun h => h, Or.inl⟩

theorem Moves.alerts (hmoves : Moves heard c t c') (hwoken : t.woken = false) : c.Alerts c' := by
  induction hmoves with
  | refl => exact ⟨fun h => h, Or.inl⟩
  | tail _ hmove ih =>
      obtain ⟨hfirst, hlast⟩ := Bool.or_eq_false_iff.mp hwoken
      exact (ih hfirst).trans (alerts_of_move hmove hlast)

/-- A connection that is open was never closed. -/
theorem Since.open_before {t₀ : Traffic} {c₀ : Conn} (hsince : Since heard t₀ c₀ t c)
    (hopen : c.closeErr = none) : c₀.closeErr = none := by
  induction hsince with
  | start => exact hopen
  | move _ hmove ih => exact ih ((closeErr_of_move hmove).1.symm.trans hopen)
  | terminate err => exact absurd hopen (terminate_closed _ err)

end Alerts

end Conn

end Qmux
