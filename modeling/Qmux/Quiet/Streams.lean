import Qmux.Quiet.Limits

/-!
The streams of a connection whose peer has said all it has to say. What the peer
has sent on a stream, the connection has received, with the end; and a stream
that the application does not want to read any more has ended at the peer.
-/

namespace Qmux

open Wire

/-- A stream that was received to its end stays so. -/
theorem Stream.Step.finRecv [GoAppend] {window : Nat} {s s' : Stream} (hstep : s.Step window s')
    (h : s.finRecv = true) : s'.finRecv = true := by
  cases hstep with
  | quiet hcore =>
      have hfin : s'.finRecv = s.finRecv := (congrArg Stream.finRecv hcore :)
      exact hfin.trans h
  | data _ _ hfin =>
      rw [h] at hfin
      cases hfin
  | read =>
      unfold Stream.copyOut Stream.advance
      dsimp only
      split_ifs <;> exact h
  | _ => exact h

namespace Conn

section History

variable [Quicvarint] [GoAppend] {config : Config} {isServer : Bool} {heard : Parsed → Prop}
  {t t' : Traffic} {c c' : Conn}

/-- What is queued is handed out or stays in the queue. -/
theorem queued_of_move (hmove : Move heard c t' c') {f : Frame} (hf : f ∈ c.control) :
    f ∈ t'.handed ++ c'.control := by
  have hkept (hcontrol : c'.control = c.control) : f ∈ t'.handed ++ c'.control :=
    List.mem_append_right _ (hcontrol ▸ hf)
  cases hmove with
  | still htook hhanded hpings hreads hcore => exact hkept (congrArg Conn.control hcore :)
  | act hopen hact =>
      rw [hact.touches.control]
      exact List.mem_append_right _ (List.mem_append_left _ hf)
  | accept => exact hkept (completeLocked_control _ _)
  | @raiseStreams m =>
      obtain ⟨out, hout⟩ := c.handleMaxStreams_frame m
      exact hkept (by rw [hout])
  | flush =>
      refine List.mem_append_left _ ?_
      simp [controlFrames, hf]
  | _ => exact hkept rfl

/-- Only a call of the application cancels the reading of a stream, and it tells the peer
if there may be more to come. -/
private theorem cancelled_of_move (hmove : Move heard c t' c') {r : Ref} (hr : r < c.count)
    (hcancelled : (c'.heap r).readCancelled = true) :
    (c.heap r).readCancelled = true ∨ (c.heap r).finRecv = true ∨
      ∃ code, .stopSending ⟨(c.heap r).id, code⟩ ∈ c'.control := by
  rcases stream_of_move Stream.readCancelled (fun _ => rfl) hmove hr with
    hsame | ⟨s, frames, d, hact, -, rfl, hsame⟩
  · exact Or.inl (hsame ▸ hcancelled)
  · rw [hsame] at hcancelled
    rw [hact.touches.control]
    cases hact with
    | data =>
        rw [(Stream.takeData_fields _ _).2.2.2.2.2.2] at hcancelled
        exact Or.inl hcancelled
    | read =>
        rw [(Stream.copyOut_keeps_recv _ _ _).2.2.2.1] at hcancelled
        exact Or.inl hcancelled
    | @cancel code =>
        cases hfin : (c.heap r).finRecv with
        | true => exact Or.inr (Or.inl rfl)
        | false => exact Or.inr (Or.inr ⟨code, by simp⟩)
    | _ => exact Or.inl hcancelled

/-- The peer is told of a stream that is not to be read any more, unless it has sent all
of it. -/
theorem History.stops (hhistory : History config isServer heard t c) :
    ∀ r < c.count, (c.heap r).readCancelled = true → (c.heap r).finRecv = true ∨
      ∃ code, .stopSending ⟨(c.heap r).id, code⟩ ∈ t.handed ++ c.control := by
  induction hhistory with
  | start => exact fun r hr => absurd hr (Nat.not_lt_zero r)
  | @move t t' c c' hprior hmove ih =>
      intro r hr hcancelled
      rcases Nat.lt_or_ge r c.count with hold | hnew
      · have hid := ((Extends.of_move hmove).streams r hold).id
        have hfin (h : (c.heap r).finRecv = true) : (c'.heap r).finRecv = true :=
          (Lives.of_move hmove).stream (P := fun s => s.finRecv = true)
            (fun s s' hstep => hstep.finRecv) hold h
        rw [hid, Traffic.append_handed, List.append_assoc]
        rcases cancelled_of_move hmove hold hcancelled with hbefore | hended | ⟨code, hcode⟩
        · refine (ih r hold hbefore).imp hfin (fun ⟨code, hcode⟩ => ⟨code, ?_⟩)
          rcases List.mem_append.mp hcode with hhanded | hqueued
          · exact List.mem_append_left _ hhanded
          · exact List.mem_append_right _ (queued_of_move hmove hqueued)
        · exact Or.inl (hfin hended)
        · exact Or.inr ⟨code, List.mem_append_right _ (List.mem_append_right _ hcode)⟩
      · rcases count_of_move hmove with hcount | ⟨hone, -, -, id, accepted, hfresh⟩
        · exact absurd (hcount ▸ hr) (Nat.not_lt.mpr hnew)
        obtain rfl : r = c.count := Nat.le_antisymm (Nat.lt_succ_iff.mp (hr.trans_eq hone)) hnew
        rw [hfresh] at hcancelled
        cases hcancelled
  | @terminate t c err hprior ih =>
      obtain ⟨hcount, hcontrol⟩ := terminate_keeps c err
      intro r hr
      rw [terminate_stream Stream.id (fun _ => rfl), hcontrol,
        terminate_stream Stream.readCancelled (fun _ => rfl),
        terminate_stream Stream.finRecv (fun _ => rfl)]
      exact ih r (hcount ▸ hr)

end History

namespace Dialogue

variable [Quicvarint] [GoAppend] {config other : Config} {isServer : Bool}
  {heard told : List Parsed} {t u : Traffic} {c d : Conn}

omit [Quicvarint] [GoAppend] in
/-- The messages about a stream have all arrived. -/
theorem messages_eq (hsaid : SaidAll u d t c) (id : Nat) :
    t.messages id = u.handed.filterMap (Frame.message? id) := by
  rw [Traffic.messages, hsaid.took, messages_arrived]

private theorem sent_eq (h : Dialogue config other isServer heard told t c u d)
    (hsaid : SaidAll u d t c) {i : Ref} (hi : i < d.count) :
    (d.heap i).sender.Sent (t.messages (d.heap i).id) := by
  have hsent := ((History.outbox h.other_valid h.peer).streams i hi).sent
  rw [hsaid.control, List.append_nil] at hsent
  rw [messages_eq hsaid]
  exact hsent

/-- What the peer has sent on a stream, the connection has received, with the end. -/
theorem stream_eq (h : Dialogue config other isServer heard told t c u d)
    (hopen : c.closeErr = none) (hsaid : SaidAll u d t c) {r i : Ref} (hr : r < c.count)
    (hcan : (c.heap r).canRecv = true) (hi : i < d.count)
    (hid : (d.heap i).id = (c.heap r).id) :
    (c.heap r).recvOffset = (d.heap i).sendOffset ∧ (c.heap r).finRecv = (d.heap i).finSent ∧
      (c.heap r).recvReset = (d.heap i).sendErr.isSome := by
  have hreceived := h.inbox.streams hopen r hr hcan
  have hsent := h.sent_eq hsaid hi
  rw [hid] at hsent
  refine ⟨hreceived.offset.trans hsent.offset.symm, ?_, ?_⟩
  · exact Bool.eq_iff_iff.mpr (hreceived.fin.trans hsent.fin.symm)
  · exact Bool.eq_iff_iff.mpr (hreceived.reset.trans hsent.reset.symm)

/-- Nothing was sent on a stream that the connection does not know of. -/
theorem stream_unknown (h : Dialogue config other isServer heard told t c u d)
    (hsaid : SaidAll u d t c) {i : Ref} (hi : i < d.count)
    (hnone : ∀ r < c.count, (c.heap r).id ≠ (d.heap i).id) :
    t.messages (d.heap i).id = [] ∧ (d.heap i).sendOffset = 0 ∧ (d.heap i).finSent = false ∧
      (d.heap i).sendErr = none := by
  have hmessages : t.messages (d.heap i).id = [] := by
    by_contra hsome
    obtain ⟨r, hr, hid⟩ := h.inbox.known _ hsome
    exact hnone r hr hid
  have hsent := h.sent_eq hsaid hi
  rw [hmessages] at hsent
  obtain ⟨hfin, hreset⟩ := hsent.open_iff.mpr (fun m hm => by cases hm)
  exact ⟨hmessages, hsent.offset, hfin, by simpa [Stream.sender] using hreset⟩

/-- A stream that is not to be read any more has ended at the peer. -/
theorem stream_stopped (h : Dialogue config other isServer heard told t c u d)
    (hopen : c.closeErr = none) (hsaid : SaidAll u d t c) (hsaid' : SaidAll t c u d) {r i : Ref}
    (hr : r < c.count) (hcan : (c.heap r).canRecv = true) (hi : i < d.count)
    (hid : (d.heap i).id = (c.heap r).id) (hcancelled : (c.heap r).readCancelled = true) :
    (d.heap i).sendDone = true := by
  have hstops := History.stops h.history r hr hcancelled
  rw [hsaid'.control, List.append_nil] at hstops
  rcases hstops with hfin | ⟨code, hcode⟩
  · rw [(h.stream_eq hopen hsaid hr hcan hi hid).2.1] at hfin
    simp [Stream.sendDone, hfin]
  · obtain ⟨j, hj, hname, hdone⟩ := (hsaid'.mem hcode).stop _ rfl
    have hnamed := (History.ordered h.other_valid h.peer).sound.named
    obtain rfl : j = i := hnamed.unique j hj i hi (hname.trans hid.symm)
    exact hdone

/-- What the peer has sent on a stream was read, or is there to be read. -/
theorem stream_content (h : Dialogue config other isServer heard told t c u d)
    (hopen : c.closeErr = none) (hsaid : SaidAll u d t c) {r : Ref} (hr : r < c.count)
    (hcan : (c.heap r).canRecv = true) (herr : (c.heap r).recvErr = none) :
    readOn r t.reads ++ (c.heap r).unread =
      Transfer.payload (u.handed.filterMap (Frame.message? (c.heap r).id)) := by
  have hbuffer := (h.inbox.streams hopen r hr hcan).buffer (by simp [Stream.receiver, herr])
  rw [messages_eq hsaid] at hbuffer
  exact hbuffer

end Dialogue

end Conn

end Qmux
