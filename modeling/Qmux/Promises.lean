import Qmux.Credit.Conn

/-!
What a connection has told its peer, it stands by: the limits it has declared
only grow, and the streams it has sent frames about are there, with the side
the frame is about.
-/

namespace Qmux

open Wire

/-- A read that moves the stream's limit on declares the new limit. -/
theorem Stream.copyOut_grant (s : Stream) (n window : Nat) :
    (s.copyOutGrant n window = [] ∧ (s.copyOut n window).recvMax = s.recvMax) ∨
      (s.copyOutGrant n window = [.maxStreamData ⟨s.id, (s.copyOut n window).recvMax⟩] ∧
        Word.sub s.recvMax (Word.add s.readOffset n) < window / 2 ∧
        (s.copyOut n window).recvMax = Word.add (Word.add s.readOffset n) window) := by
  have hadvance : (s.advance n).readOffset = s.readOffset ∧ (s.advance n).recvMax = s.recvMax ∧
      (s.advance n).finRecv = s.finRecv := by
    unfold advance
    split_ifs <;> exact ⟨rfl, rfl, rfl⟩
  unfold copyOutGrant copyOut lowCredit
  simp only [hadvance]
  split_ifs with hlow
  · simp only [Bool.and_eq_true, decide_eq_true_eq] at hlow
    exact Or.inr ⟨rfl, hlow.2, rfl⟩
  · exact Or.inl ⟨rfl, rfl⟩

namespace Conn

/-- `c'` gives the peer at least what `c` does. -/
structure Grows (c c' : Conn) : Prop where
  later : c.Extends c'
  streams : ∀ r < c.count, (c.heap r).recvMax ≤ (c'.heap r).recvMax
  incoming : ∀ dir, (c.incoming dir).max ≤ (c'.incoming dir).max
  total : c.totalReceived ≤ c'.totalReceived
  data : c'.totalReceived + c.config.connectionWindow < 2 ^ 64 → c.recvMax ≤ c'.recvMax

/-- The connection has the stream, and it can send on it. -/
def Sends (c : Conn) (id : Nat) : Prop :=
  ∃ r < c.count, (c.heap r).id = id ∧ (c.heap r).canSend = true

/-- The connection has the stream, it can receive on it, and the peer may send
up to `max` on it. -/
def Receives (c : Conn) (id max : Nat) : Prop :=
  ∃ r < c.count, (c.heap r).id = id ∧ (c.heap r).canRecv = true ∧ max ≤ (c.heap r).recvMax

/-- The connection stands by the frame. -/
def Warrants [Quicvarint] (c : Conn) : Frame → Prop
  | .stream f => c.Sends f.streamID
  | .resetStream f => c.Sends f.streamID
  | .stopSending f => c.Receives f.streamID 0
  | .maxStreamData f => c.Receives f.streamID f.max
  | .maxData f =>
      c.totalReceived + c.config.connectionWindow < 2 ^ 64 → f.max ≤ c.recvMax
  | .maxStreams f => f.max ≤ (c.incoming (if f.uni then .uni else .bidi)).max
  | .datagram f => c.ready = true ∧ f.len ≤ c.datagramLimit
  | .transportParameters p => p = c.localParameters
  | .ping _ => True
  | .connectionClose _ => True

section Grows

variable {c c' : Conn}

theorem Sends.mono {id : Nat} (hgrows : c.Grows c') (h : c.Sends id) : c'.Sends id := by
  obtain ⟨r, hr, hid, hsend⟩ := h
  have hkeeps := hgrows.later.streams r hr
  exact ⟨r, hr.trans_le hgrows.later.count, hkeeps.id.trans hid, hkeeps.canSend.trans hsend⟩

theorem Receives.mono {id max : Nat} (hgrows : c.Grows c') (h : c.Receives id max) :
    c'.Receives id max := by
  obtain ⟨r, hr, hid, hrecv, hmax⟩ := h
  have hkeeps := hgrows.later.streams r hr
  exact ⟨r, hr.trans_le hgrows.later.count, hkeeps.id.trans hid, hkeeps.canRecv.trans hrecv,
    hmax.trans (hgrows.streams r hr)⟩

theorem Warrants.mono [Quicvarint] {f : Frame} (hgrows : c.Grows c') (h : c.Warrants f) :
    c'.Warrants f := by
  cases f with
  | stream f => exact Sends.mono hgrows h
  | resetStream f => exact Sends.mono hgrows h
  | stopSending f => exact Receives.mono hgrows h
  | maxStreamData f => exact Receives.mono hgrows h
  | maxData f =>
      intro hsmall
      rw [hgrows.later.config] at hsmall
      have htotal := hgrows.total
      exact (h (by omega)).trans (hgrows.data hsmall)
  | maxStreams f => exact Nat.le_trans h (hgrows.incoming _)
  | datagram f =>
      obtain ⟨hready, hpeer⟩ := hgrows.later.peer h.1
      refine ⟨hready, ?_⟩
      have hlimit : c'.datagramLimit = c.datagramLimit := by
        unfold datagramLimit
        rw [hpeer]
      exact hlimit ▸ h.2
  | transportParameters p =>
      refine Eq.trans h ?_
      unfold localParameters
      rw [hgrows.later.config]
  | ping f => trivial
  | connectionClose f => trivial

/-- No stream takes back what the peer may send. -/
private theorem Lives.recvMax_le [GoAppend] (h : c.Lives c')
    (hwindow : c.config.streamWindow ≤ maxVarint) {r : Ref} (hr : r < c.count)
    (hsound : (c.heap r).Sound c.config.streamWindow) :
    (c.heap r).recvMax ≤ (c'.heap r).recvMax := by
  have hlife := h r hr
  generalize c'.heap r = s at hlife
  suffices hboth : (c.heap r).recvMax ≤ s.recvMax ∧ s.Sound c.config.streamWindow from hboth.1
  induction hlife with
  | refl => exact ⟨Nat.le_refl _, hsound⟩
  | tail _ hlast ih =>
      exact ⟨ih.1.trans (ih.2.recvMax_le hwindow hlast), ih.2.step hwindow hlast⟩

/-- Streams that were forgotten are not given back, so the limit on their
number only grows. -/
private theorem Ordered.incoming_le (h : c.Ordered) (h' : c'.Ordered) (hlater : c.Extends c')
    (hdone : ∀ r < c.count, (c.heap r).done = true → (c'.heap r).done = true) (dir : Dir) :
    (c.incoming dir).max ≤ (c'.incoming dir).max := by
  have hmax := h.sound.limited.returned dir
  have hmax' := h'.sound.limited.returned dir
  change (c.incoming dir).max = _ at hmax
  change (c'.incoming dir).max = _ at hmax'
  rw [hmax, hmax', hlater.config]
  refine Nat.add_le_add_left (Heap.total_mono hlater.count (fun r hr => ?_)) _
  have hkept : c'.registry.own (c'.registry.slots r).id = c.registry.own (c.registry.slots r).id ∧
      (c'.registry.slots r).id = (c.registry.slots r).id := by
    have hid : (c'.heap r).id = (c.heap r).id := (hlater.streams r hr).id
    refine ⟨?_, hid⟩
    change initiatedLocally c' (c'.heap r).id = initiatedLocally c (c.heap r).id
    unfold Conn.initiatedLocally
    rw [hid, hlater.isServer]
  unfold Registry.finished
  rw [hkept.1, hkept.2]
  cases hforgotten : (c.registry.slots r).done with
  | false => exact Nat.zero_le _
  | true =>
      have hforgotten' : (c'.registry.slots r).done = true := hdone r hr hforgotten
      rw [hforgotten']

theorem Grows.terminate (c : Conn) (err : ConnError) : c.Grows (c.terminate err).1 := by
  have haccounted := Accounted.terminate c err
  refine ⟨.terminate c err, fun r _ => ?_, fun dir => ?_, haccounted.total_le, fun _ => ?_⟩
  all_goals
    unfold Conn.terminate
    split_ifs
    · exact Nat.le_refl _
  · simp only [terminated]
    split_ifs <;> exact Nat.le_refl _
  · exact Nat.le_refl _
  · exact Nat.le_refl _

end Grows

section History

variable [Quicvarint] [GoAppend] {config : Config} {isServer : Bool} {heard : Parsed → Prop}
  {t t' : Traffic} {c c' : Conn}

theorem History.grows (hconfig : config.Valid) (hprior : History config isServer heard t c)
    (hmove : Move heard c t' c') : c.Grows c' := by
  have hsame := (History.config hprior).1
  have hordered := History.ordered hconfig hprior
  have hsound : ∀ r < c.count, (c.heap r).Sound c.config.streamWindow :=
    hsame ▸ History.streams_sound hconfig hprior
  have hwindow : c.config.streamWindow ≤ maxVarint := hsame ▸ hconfig.streamWindow_le
  have haccounted := Accounted.of_move hordered hsound hwindow hmove
  have hsince : Since heard t c (t ++ t') c' := Since.start.move hmove
  refine ⟨.of_move hmove, fun r hr => ?_, ?_, haccounted.total_le, fun hsmall => ?_⟩
  · exact (Lives.of_move hmove).recvMax_le hwindow hr (hsound r hr)
  · exact hordered.incoming_le (History.ordered hconfig (.move hprior hmove))
      (.of_move hmove) (fun r hr => hsince.done hr)
  · have htotal := haccounted.total_le
    exact (haccounted.balanced hsmall (History.balanced hconfig hprior (by omega))).2

/-- The limit on the streams of the peer is not taken back. -/
theorem Since.incoming_le {t₀ : Traffic} {c₀ : Conn} (hconfig : config.Valid)
    (hprior : History config isServer heard t₀ c₀) (hsince : Since heard t₀ c₀ t c) (dir : Dir) :
    (c₀.incoming dir).max ≤ (c.incoming dir).max :=
  (History.ordered hconfig hprior).incoming_le (History.ordered hconfig (hprior.trans hsince))
    hsince.later (fun _ hr => hsince.done hr) dir

omit [Quicvarint] in
/-- The stream an act is on, as the connection has it afterwards. -/
private theorem Act.after {r : Ref} {s : Stream} {frames : List Frame} {d : Conn}
    (hr : r < c.count) (hact : Act heard c r t s frames d) :
    r < (d.completeLocked r).count ∧ ((d.completeLocked r).heap r).id = (c.heap r).id ∧
      ((d.completeLocked r).heap r).canSend = (c.heap r).canSend ∧
      ((d.completeLocked r).heap r).canRecv = (c.heap r).canRecv ∧
      ((d.completeLocked r).heap r).recvMax = s.recvMax := by
  have hext := Extends.touches hact.touches hact.keeps
  have hkeeps := hext.streams r hr
  refine ⟨hr.trans_le hext.count, hkeeps.id, hkeeps.canSend, hkeeps.canRecv, ?_⟩
  rw [hact.touches.stream Stream.recvMax (fun _ => rfl), Function.update_self]

/-- The connection stands by the frames of an act. -/
private theorem Act.warrants {r : Ref} {s : Stream} {frames : List Frame} {d : Conn}
    (hr : r < c.count) (hact : Act heard c r t s frames d) :
    ∀ f ∈ t.handed ++ frames, (d.completeLocked r).Warrants f := by
  obtain ⟨hr', hid, hsend, hrecv, hmax⟩ := hact.after hr
  intro f hf
  cases hact with
  | data => simp at hf
  | reset => simp at hf
  | resetSend hcause hdone =>
      have hhanded : t.handed = [] := by
        rcases hcause with ⟨-, rfl⟩ | ⟨g, -, -, -, rfl⟩ <;> rfl
      rw [hhanded, List.nil_append, List.mem_singleton] at hf
      have hcan : (c.heap r).canSend = true := by
        by_contra hcase
        simp [Stream.sendDone, hcase] at hdone
      rw [hf]
      exact ⟨r, hr', hid, hsend.trans hcan⟩
  | @read n hholds =>
      have hcan := (holdsRecv_iff.mp hholds).2.2
      have hgrant : f ∈ (c.heap r).copyOutGrant n c.config.streamWindow := by simpa using hf
      rcases (c.heap r).copyOut_grant n c.config.streamWindow with ⟨hnone, -⟩ | ⟨hone, -⟩
      · simp [hnone] at hgrant
      · rw [hone, List.mem_singleton] at hgrant
        rw [hgrant]
        exact ⟨r, hr', hid, hrecv.trans hcan, hmax.ge⟩
  | cancel hholds =>
      have hcan := (holdsRecv_iff.mp hholds).2.2
      split_ifs at hf
      · cases hf
      · rw [List.nil_append, List.mem_singleton] at hf
        rw [hf]
        exact ⟨r, hr', hid, hrecv.trans hcan, Nat.zero_le _⟩
  | finish hholds =>
      have hcan := (holdsSend_iff.mp hholds).2.2
      rw [List.append_nil, List.mem_singleton] at hf
      rw [hf]
      exact ⟨r, hr', hid, hsend.trans hcan⟩

/-- What a move hands out or leaves in the queue was in the queue, or the
connection stands by it. -/
private theorem warrants_of_move (hordered : c.Ordered)
    (htidy : ∀ r < c.count, (c.heap r).Tidy) (hgrows : c.Grows c')
    (hfresh : c.ready = false → c.peer = {}) (hmove : Move heard c t c') :
    ∀ f ∈ t.handed ++ c'.control, f ∈ c.control ∨ c'.Warrants f := by
  intro f hf
  cases hmove with
  | still htook hhanded hpings hreads hcore =>
      have hcontrol : c'.control = c.control := (congrArg Conn.control hcore :)
      rw [hhanded, List.nil_append, hcontrol] at hf
      exact Or.inl hf
  | act hopen hact =>
      have hr := (hordered.of_act htidy hopen hact).1
      rw [hact.touches.control] at hf
      rcases List.mem_append.mp hf with hf | hf
      · exact Or.inr (hact.warrants hr f (List.mem_append_left _ hf))
      · rcases List.mem_append.mp hf with hf | hf
        · exact Or.inl hf
        · exact Or.inr (hact.warrants hr f (List.mem_append_right _ hf))
  | accept =>
      rw [List.nil_append, acceptNext, completeLocked_control] at hf
      exact Or.inl hf
  | @raiseStreams f =>
      obtain ⟨out, hout⟩ := c.handleMaxStreams_frame f
      rw [hout] at hf
      exact Or.inl hf
  | @reserve r p n hopen hholds =>
      obtain ⟨hr, -, hcan⟩ := holdsSend_iff.mp hholds
      rcases List.mem_append.mp hf with hf | hf
      · refine Or.inr (Warrants.mono hgrows ?_)
        split_ifs at hf
        · cases hf
        · rw [List.mem_singleton.mp hf]
          exact ⟨r, hr, rfl, hcan⟩
      · exact Or.inl hf
  | @flush now =>
      have hcontrol : (c.flushed now).control = [] := by
        obtain ⟨_, _, _, _, hflush⟩ := c.flushed_frame now
        rw [hflush]
      rw [hcontrol, List.append_nil] at hf
      cases pending_of_controlFrames hf with
      | queued hf => exact Or.inl hf
      | maxData => exact Or.inr (Warrants.mono hgrows (fun _ => Nat.le_refl _))
      | maxStreams dir =>
          refine Or.inr (Warrants.mono hgrows ?_)
          cases dir <;> exact Nat.le_refl _
      | ping => exact Or.inr (Warrants.mono hgrows trivial)
  | datagram hopen hlimit hlen =>
      rcases List.mem_append.mp hf with hf | hf
      · rw [List.mem_singleton.mp hf]
        refine Or.inr ⟨?_, hlen⟩
        by_contra hcase
        have hzero : c.datagramLimit = 0 := by
          unfold datagramLimit
          rw [hfresh (by simpa using hcase)]
          rfl
        exact hlimit hzero
      · exact Or.inl hf
  | close =>
      rcases List.mem_append.mp hf with hf | hf
      · rw [List.mem_singleton.mp hf]
        exact Or.inr trivial
      · exact Or.inl hf
  | _ => exact Or.inl hf

/-- A connection stands by everything it has handed out or queued. -/
theorem History.warrants (hconfig : config.Valid)
    (hhistory : History config isServer heard t c) :
    ∀ f ∈ t.handed ++ c.control, c.Warrants f := by
  induction hhistory with
  | start =>
      intro f hf
      rw [show f = _ from List.mem_singleton.mp hf]
      rfl
  | @move t t' c c' hprior hmove ih =>
      intro f hf
      have hgrows := History.grows hconfig hprior hmove
      have hfresh := (Since.later hprior).fresh (fun _ => rfl)
      have hold (hf : f ∈ t.handed ++ c.control) : c'.Warrants f := (ih f hf).mono hgrows
      rw [Traffic.append_handed, List.append_assoc] at hf
      rcases List.mem_append.mp hf with hf | hf
      · exact hold (List.mem_append_left _ hf)
      · rcases warrants_of_move (History.ordered hconfig hprior) (History.tidy hprior) hgrows
          hfresh hmove f hf with hf | hf
        · exact hold (List.mem_append_right _ hf)
        · exact hf
  | @terminate t c err hprior ih =>
      have hcontrol : (c.terminate err).1.control = c.control := by
        unfold Conn.terminate
        split_ifs <;> rfl
      rw [hcontrol]
      exact fun f hf => (ih f hf).mono (.terminate c err)

end History

end Conn

end Qmux
