import Qmux.Promises

/-!
What the peer is told of a stream that ends early. A RESET_STREAM and a STOP_SENDING
carry the code of the error that the own application is returned from then on: the
first error of a side of a stream stays.
-/

namespace Qmux

open Wire

namespace Stream

section Step

variable [GoAppend] {window : Nat} {s s' : Stream} {e : StreamError}

theorem takeData_errs (s : Stream) (f : Wire.Stream) :
    (s.takeData f).recvErr = s.recvErr ∧ (s.takeData f).sendErr = s.sendErr := by
  unfold takeData bufferLocked
  dsimp only
  split_ifs <;> exact ⟨rfl, rfl⟩

omit [GoAppend] in
theorem copyOut_errs (s : Stream) (n window : Nat) :
    (s.copyOut n window).recvErr = s.recvErr ∧ (s.copyOut n window).sendErr = s.sendErr := by
  unfold copyOut advance
  dsimp only
  split_ifs <;> exact ⟨rfl, rfl⟩

/-- The first error of a reader stays. -/
theorem Step.recvErr (hstep : s.Step window s') (h : s.recvErr = some e) :
    s'.recvErr = some e := by
  cases hstep with
  | quiet hcore => exact (congrArg Stream.recvErr hcore :).trans h
  | data => exact (takeData_errs _ _).1.trans h
  | reset =>
      unfold takeReset
      dsimp only
      rw [h]
  | read => exact (copyOut_errs _ _ _).1.trans h
  | cancel herr =>
      rw [h] at herr
      cases herr
  | _ => exact h

/-- The first error of a writer stays. -/
theorem Step.sendErr (hstep : s.Step window s') (h : s.sendErr = some e) :
    s'.sendErr = some e := by
  cases hstep with
  | quiet hcore => exact (congrArg Stream.sendErr hcore :).trans h
  | data => exact (takeData_errs _ _).2.trans h
  | resetSend hsend => simp [sendDone, h] at hsend
  | read => exact (copyOut_errs _ _ _).2.trans h
  | _ => exact h

private theorem Step.id (hstep : s.Step window s') : s'.id = s.id := by
  cases hstep with
  | quiet hcore => exact (congrArg Stream.id hcore :)
  | data => exact (takeData_keeps _ _).id
  | read => exact (copyOut_keeps _ _ _).id
  | _ => rfl

end Step

/-- The frame is about the stream, and tells the error that its user is returned. -/
def CutShort (s : Stream) : Frame → Prop
  | .resetStream f => s.id = f.streamID ∧ ∃ e, s.sendErr = some e ∧ e.code = f.code
  | .stopSending f => s.id = f.streamID ∧ s.recvErr = some ⟨f.streamID, f.code, false⟩
  | _ => False

theorem CutShort.step [GoAppend] {window : Nat} {f : Frame} {s s' : Stream} (h : s.CutShort f)
    (hstep : s.Step window s') : s'.CutShort f := by
  cases f with
  | resetStream f =>
      obtain ⟨hid, e, herr, hcode⟩ := h
      exact ⟨hstep.id.trans hid, e, hstep.sendErr herr, hcode⟩
  | stopSending f => exact ⟨hstep.id.trans h.1, hstep.recvErr h.2⟩
  | _ => exact h

end Stream

/-- The frame ends a side of a stream early. -/
def Wire.Frame.cuts : Frame → Bool
  | .resetStream _ | .stopSending _ => true
  | _ => false

namespace Conn

variable [Quicvarint] [GoAppend] {config : Config} {isServer : Bool} {heard : Parsed → Prop}
  {t t' : Traffic} {c c' : Conn}

/-- A frame that ends a stream early was queued before, or comes of an act on the stream. -/
private theorem queued_by_act (hmove : Move heard c t' c') {f : Frame} (hcuts : f.cuts = true)
    (hf : f ∈ t'.handed ++ c'.control) :
    f ∈ c.control ∨ ∃ r s frames d, Act heard c r t' s frames d ∧ c.closeErr = none ∧
      c' = d.completeLocked r ∧ f ∈ frames := by
  have hother {g : Frame} (hg : g.cuts = false) : f ≠ g := by
    rintro rfl
    rw [hcuts] at hg
    cases hg
  cases hmove with
  | still htook hhanded hpings hreads hcore =>
      have hcontrol : c'.control = c.control := (congrArg Conn.control hcore :)
      rw [hhanded, List.nil_append, hcontrol] at hf
      exact Or.inl hf
  | @act r _ s frames d hopen hact =>
      rw [hact.touches.control] at hf
      rcases List.mem_append.mp hf with hf | hf
      · exact absurd hf (hact.not_handed (fun g => hother rfl))
      · exact (List.mem_append.mp hf).imp_right
          (fun hf => ⟨r, s, frames, d, hact, hopen, rfl, hf⟩)
  | accept =>
      rw [List.nil_append, acceptNext, completeLocked_control] at hf
      exact Or.inl hf
  | @raiseStreams m =>
      obtain ⟨out, hout⟩ := c.handleMaxStreams_frame m
      rw [hout] at hf
      exact Or.inl hf
  | reserve =>
      rcases List.mem_append.mp hf with hf | hf
      · split_ifs at hf
        · cases hf
        · exact absurd (List.mem_singleton.mp hf) (hother rfl)
      · exact Or.inl hf
  | @flush now =>
      have hcontrol : (c.flushed now).control = [] := by
        obtain ⟨_, _, _, _, hflush⟩ := c.flushed_frame now
        rw [hflush]
      rw [hcontrol, List.append_nil] at hf
      cases pending_of_controlFrames hf with
      | queued hf => exact Or.inl hf
      | _ => cases hcuts
  | datagram => exact Or.inl ((List.mem_cons.mp hf).resolve_left (hother rfl))
  | close => exact Or.inl ((List.mem_cons.mp hf).resolve_left (hother rfl))
  | _ => exact Or.inl hf

omit [Quicvarint] in
/-- What an act tells the peer of its stream. -/
private theorem Act.cutShort {d : Conn} {r : Ref} {s : Stream} {frames : List Frame}
    (hact : Act heard c r t' s frames d) {f : Frame} (hcuts : f.cuts = true) (hf : f ∈ frames) :
    s.CutShort f := by
  cases hact with
  | @resetSend _ reason =>
      obtain rfl := List.mem_singleton.mp hf
      exact ⟨rfl, reason, rfl, rfl⟩
  | read =>
      unfold Stream.copyOutGrant at hf
      dsimp only at hf
      split_ifs at hf
      · obtain rfl := List.mem_singleton.mp hf
        cases hcuts
      · cases hf
  | cancel =>
      split_ifs at hf
      · cases hf
      · obtain rfl := List.mem_singleton.mp hf
        exact ⟨rfl, rfl⟩
  | _ => cases hf

omit [Quicvarint] in
/-- The stream of an act, once `completeLocked` has looked at it. -/
private theorem cutShort_of_act {d : Conn} {r : Ref} {s : Stream} {frames : List Frame}
    (hact : Act heard c r t' s frames d) {f : Frame} (hcuts : f.cuts = true) (hf : f ∈ frames) :
    ((d.completeLocked r).heap r).CutShort f := by
  have hkept (g : Stream → Prop) (hg : ∀ s, g { s with done := true, rbuf := .nil } = g s) :
      g ((d.completeLocked r).heap r) = g s := by
    rw [hact.touches.stream g hg, Function.update_self]
  rw [hkept (fun s => s.CutShort f) (fun s => by cases f <;> rfl)]
  exact hact.cutShort hcuts hf

/-- Whatever the peer is told of the early end of a stream, its user is returned. -/
theorem History.cutShort (hconfig : config.Valid) (hhistory : History config isServer heard t c) :
    ∀ f ∈ t.handed ++ c.control, f.cuts = true → ∃ r < c.count, (c.heap r).CutShort f := by
  have hkept {c c' : Conn} (hext : c.Extends c') (hlives : c.Lives c') {f : Frame}
      (h : ∃ r < c.count, (c.heap r).CutShort f) : ∃ r < c'.count, (c'.heap r).CutShort f := by
    obtain ⟨r, hr, hcut⟩ := h
    exact ⟨r, hr.trans_le hext.count, hlives.stream (P := fun s => s.CutShort f)
      (fun s s' hstep h => h.step hstep) hr hcut⟩
  induction hhistory with
  | start =>
      intro f hf hcuts
      obtain rfl := List.mem_singleton.mp hf
      cases hcuts
  | @move t t' c c' hprior hmove ih =>
      intro f hf hcuts
      have hext := Extends.of_move hmove
      have hold (hf : f ∈ t.handed ++ c.control) : ∃ r < c'.count, (c'.heap r).CutShort f :=
        hkept hext (Lives.of_move hmove) (ih f hf hcuts)
      rw [Traffic.append_handed, List.append_assoc] at hf
      rcases List.mem_append.mp hf with hf | hf
      · exact hold (List.mem_append_left _ hf)
      · rcases queued_by_act hmove hcuts hf with
          hqueued | ⟨r, s, frames, d, hact, hopen, rfl, hmem⟩
        · exact hold (List.mem_append_right _ hqueued)
        · have hr := ((History.ordered hconfig hprior).of_act (History.tidy hprior) hopen hact).1
          exact ⟨r, hr.trans_le hext.count, cutShort_of_act hact hcuts hmem⟩
  | @terminate t c err hprior ih =>
      intro f hf hcuts
      obtain ⟨-, hcontrol⟩ := terminate_keeps c err
      exact hkept (.terminate c err) (.terminate c err) (ih f (hcontrol ▸ hf) hcuts)

end Conn

end Qmux
