import Qmux.Receiving.Moves

/-!
The receiving side of the streams over whole histories. If the messages of the
peer are in order, what the application has read of a stream is the start of
what was sent on it, and a reader that was returned the end has read it all.
-/

namespace Qmux

open Wire

/-- The messages about a stream that were taken. -/
def Traffic.messages (t : Traffic) (id : Nat) : List (Transfer.Message UInt8) :=
  t.took.filterMap (Parsed.message? id)

theorem Traffic.messages_append (t more : Traffic) (id : Nat) :
    (t ++ more).messages id = t.messages id ++ more.messages id :=
  List.filterMap_append ..

namespace Conn

/-- The stream was read to its end. -/
structure Finished (t : Traffic) (c : Conn) (r : Ref) : Prop where
  read : readOn r t.reads = Transfer.payload (t.messages (c.heap r).id)
  fin : ∃ m ∈ t.messages (c.heap r).id, m.fin = true

/-- What was taken of the streams, and what was read of it. -/
structure Inbox (t : Traffic) (c : Conn) : Prop where
  known : ∀ id, t.messages id ≠ [] → ∃ r < c.count, (c.heap r).id = id
  readers : ∀ x ∈ t.reads, x.1 < c.count ∧ (c.heap x.1).canRecv = true
  streams : c.closeErr = none → ∀ r < c.count, (c.heap r).canRecv = true →
    ((c.heap r).receiver (readOn r t.reads)).Received (t.messages (c.heap r).id)
  read : ∀ r < c.count, (c.heap r).canRecv = true →
    readOn r t.reads <+: Transfer.payload (t.messages (c.heap r).id)
  ended : ∀ r p, (r, .eof p) ∈ t.reads → p = [] ∧ c.Finished t r

section History

variable [Quicvarint] [GoAppend] {config : Config} {isServer : Bool} {heard : Parsed → Prop}
  {t t' : Traffic} {c c' : Conn} {r : Ref}

omit [Quicvarint] [GoAppend] in
/-- A stream that was read to its end stays so. -/
theorem Finished.mono (h : c.Finished t r) (hid : (c'.heap r).id = (c.heap r).id)
    (horder : Transfer.InOrder ((t ++ t').messages (c.heap r).id))
    (hread : readOn r (t ++ t').reads <+:
      Transfer.payload ((t ++ t').messages (c.heap r).id)) : c'.Finished (t ++ t') r := by
  obtain ⟨m, hm, hfin⟩ := h.fin
  rw [Traffic.messages_append] at horder hread
  have hnone : t'.messages (c.heap r).id = [] :=
    horder.ended ⟨m, hm, by rw [Transfer.Message.ends, hfin, Bool.true_or]⟩
  rw [hnone, List.append_nil, ← h.read, Traffic.append_reads, readOn_append] at hread
  have hmore : readOn r t'.reads = [] := by
    have hlen := hread.length_le
    rw [List.length_append] at hlen
    exact List.eq_nil_of_length_eq_zero (by omega)
  constructor
  · rw [hid, Traffic.messages_append, hnone, List.append_nil, Traffic.append_reads, readOn_append,
      hmore, List.append_nil]
    exact h.read
  · rw [hid, Traffic.messages_append]
    exact ⟨m, List.mem_append_left _ hm, hfin⟩

/-- A reader that is returned the end has read everything. -/
private theorem Inbox.finished (h : c.Inbox t) (hmove : Move heard c t' c') {p : Bytes}
    (hread : (r, .eof p) ∈ t'.reads) : p = [] ∧ c.Finished t r := by
  obtain ⟨hr, -, hcan⟩ := holdsRecv_iff.mp (holdsRecv_of_reads hmove _ hread)
  obtain ⟨hopen, herr, hnone, hall, hfin⟩ := eof_of_move hmove hread
  have hreceived := h.streams hopen r hr hcan
  have hbuffer := hreceived.buffer (by simp [Stream.receiver, herr])
  refine ⟨hnone, ?_, hreceived.fin.mp hfin⟩
  rw [← hbuffer]
  simp [Stream.receiver, hall]

/-- A move keeps what was taken of a stream in order. -/
private theorem Inbox.received (h : c.Inbox t) (hconfig : config.Valid)
    (hprior : History config isServer heard t c) (hmove : Move heard c t' c')
    (horder : ∀ id, Transfer.InOrder ((t ++ t').messages id)) (hopen : c.closeErr = none)
    (hr : r < c.count) (hcan : (c.heap r).canRecv = true) :
    ((c'.heap r).receiver (readOn r (t ++ t').reads)).Received
      ((t ++ t').messages (c.heap r).id) := by
  have hsame := (History.config hprior).1
  rw [Traffic.append_reads, readOn_append, Traffic.messages_append]
  refine receiver_of_move (History.ordered hconfig hprior)
    (hsame ▸ History.streams_sound hconfig hprior) (hsame ▸ hconfig.streamWindow_le) hopen hr hcan
    (h.streams hopen r hr hcan) ?_ hmove
  exact Traffic.messages_append t t' _ ▸ horder (c.heap r).id

/-- What was read stays the start of what was taken. -/
private theorem Inbox.read_step (h : c.Inbox t) (hconfig : config.Valid)
    (hprior : History config isServer heard t c) (hmove : Move heard c t' c')
    (horder : ∀ id, Transfer.InOrder ((t ++ t').messages id)) (hr : r < c.count)
    (hcan : (c.heap r).canRecv = true) :
    readOn r (t ++ t').reads <+: Transfer.payload ((t ++ t').messages (c.heap r).id) := by
  by_cases hopen : c.closeErr = none
  · exact (h.received hconfig hprior hmove horder hopen hr hcan).read
  · have hnone : readOn r t'.reads = [] :=
      readOn_nil (fun x hx _ => (reads_of_closed hopen hmove x hx).1)
    rw [Traffic.append_reads, readOn_append, hnone, List.append_nil, Traffic.messages_append,
      Transfer.payload_append]
    exact (h.read r hr hcan).trans (List.prefix_append _ _)

/-- Nothing was taken or read of a new stream. -/
private theorem Inbox.unread (h : c.Inbox t) (hconfig : config.Valid)
    (hprior : History config isServer heard t c) (hmove : Move heard c t' c')
    (hr : c.count ≤ r) (hr' : r < c'.count) :
    readOn r (t ++ t').reads = [] ∧ (t ++ t').messages (c'.heap r).id = [] ∧
      ((c'.heap r).receiver []).Received [] := by
  rcases count_of_move hmove with hcount | ⟨hone, rfl, -, id, accepted, hfresh⟩
  · exact absurd (hcount ▸ hr') (Nat.not_lt.mpr hr)
  obtain rfl : r = c.count := Nat.le_antisymm (Nat.lt_succ_iff.mp (hr'.trans_eq hone)) hr
  have hext := Extends.of_move hmove
  rw [Traffic.append_empty]
  refine ⟨readOn_nil (fun x hx hread => ?_), ?_, ?_⟩
  · exact absurd (hread ▸ (h.readers x hx).1) (Nat.lt_irrefl _)
  · by_contra hcase
    obtain ⟨i, hi, hid⟩ := h.known _ hcase
    have hnamed := (History.ordered hconfig (.move hprior hmove)).sound.named
    have hsingle := hnamed.unique i (hi.trans hr') c.count hr' ((hext.streams i hi).id.trans hid)
    exact absurd (hsingle ▸ hi) (Nat.lt_irrefl _)
  · have hreceiver : (c'.heap c.count).receiver [] = ⟨0, false, false, [], [], false⟩ := by
      rw [hfresh]
      rfl
    rw [hreceiver]
    exact Transfer.Receiver.received_start

/-- A move keeps what was taken of the streams in order. -/
private theorem Inbox.step (h : c.Inbox t) (hconfig : config.Valid)
    (hprior : History config isServer heard t c) (hmove : Move heard c t' c')
    (horder : ∀ id, Transfer.InOrder ((t ++ t').messages id)) : c'.Inbox (t ++ t') := by
  have hext := Extends.of_move hmove
  have hkeeps {r : Ref} (hr : r < c.count) := hext.streams r hr
  constructor
  · intro id hsome
    suffices hthere : ∃ r < c.count, (c.heap r).id = id by
      obtain ⟨r, hr, hid⟩ := hthere
      exact ⟨r, hr.trans_le hext.count, (hkeeps hr).id.trans hid⟩
    obtain ⟨m, hm⟩ := List.exists_mem_of_ne_nil _ hsome
    rw [Traffic.messages_append] at hm
    rcases List.mem_append.mp hm with hm | hm
    · exact h.known id (List.ne_nil_of_mem hm)
    · obtain ⟨f, hf, hmessage⟩ := List.mem_filterMap.mp hm
      exact known_of_move (History.ordered hconfig hprior) hmove hf hmessage
  · intro x hx
    suffices hthere : x.1 < c.count ∧ (c.heap x.1).canRecv = true from
      ⟨hthere.1.trans_le hext.count, (hkeeps hthere.1).canRecv.trans hthere.2⟩
    rcases List.mem_append.mp hx with hx | hx
    · exact h.readers x hx
    · obtain ⟨hr, -, hcan⟩ := holdsRecv_iff.mp (holdsRecv_of_reads hmove x hx)
      exact ⟨hr, hcan⟩
  · intro hopen r hr' hcan
    rcases Nat.lt_or_ge r c.count with hr | hnew
    · rw [(hkeeps hr).id]
      exact h.received hconfig hprior hmove horder ((closeErr_of_move hmove).1 ▸ hopen) hr
        ((hkeeps hr).canRecv ▸ hcan)
    · obtain ⟨hread, hmessages, hfresh⟩ := h.unread hconfig hprior hmove hnew hr'
      rw [hread, hmessages]
      exact hfresh
  · intro r hr' hcan
    rcases Nat.lt_or_ge r c.count with hr | hnew
    · rw [(hkeeps hr).id]
      exact h.read_step hconfig hprior hmove horder hr ((hkeeps hr).canRecv ▸ hcan)
    · rw [(h.unread hconfig hprior hmove hnew hr').1]
      exact List.nil_prefix
  · intro r p hread
    have hended : p = [] ∧ r < c.count ∧ (c.heap r).canRecv = true ∧ c.Finished t r := by
      rcases List.mem_append.mp hread with hold | hnew
      · obtain ⟨hr, hcan⟩ := h.readers _ hold
        exact ⟨(h.ended r p hold).1, hr, hcan, (h.ended r p hold).2⟩
      · obtain ⟨hr, -, hcan⟩ := holdsRecv_iff.mp (holdsRecv_of_reads hmove _ hnew)
        exact ⟨(h.finished hmove hnew).1, hr, hcan, (h.finished hmove hnew).2⟩
    obtain ⟨hnone, hr, hcan, hfinished⟩ := hended
    exact ⟨hnone, hfinished.mono (hkeeps hr).id (horder _)
      (h.read_step hconfig hprior hmove horder hr hcan)⟩

/-- In every history in which the messages of the peer are in order, what was read
of each stream is the start of what was sent on it. -/
theorem History.inbox (hconfig : config.Valid) (hhistory : History config isServer heard t c)
    (horder : ∀ id, Transfer.InOrder (t.messages id)) : c.Inbox t := by
  induction hhistory with
  | start =>
      exact ⟨fun id hsome => absurd rfl hsome, (fun x hx => by cases hx),
        fun _ r hr => absurd hr (Nat.not_lt_zero r), fun r hr => absurd hr (Nat.not_lt_zero r),
        fun r p h => by cases h⟩
  | @move t t' c c' hprior hmove ih =>
      have hbefore : ∀ id, Transfer.InOrder (t.messages id) := fun id =>
        (Traffic.messages_append t t' id ▸ horder id).of_append
      exact (ih hbefore).step hconfig hprior hmove horder
  | @terminate t c err hprior ih =>
      have hsame (r : Ref) : ((c.terminated err).heap r).id = (c.heap r).id ∧
          ((c.terminated err).heap r).canRecv = (c.heap r).canRecv := by
        simp only [terminated]
        split_ifs <;> exact ⟨rfl, rfl⟩
      have h := ih horder
      unfold Conn.terminate
      split_ifs
      · exact h
      · refine ⟨fun id hsome => ?_, fun x hx => ?_, (fun hopen => by cases hopen), fun r hr => ?_,
          fun r p hread => ?_⟩
        · obtain ⟨r, hr, hid⟩ := h.known id hsome
          exact ⟨r, hr, (hsame r).1.trans hid⟩
        · rw [(hsame x.1).2]
          exact h.readers x hx
        · rw [(hsame r).1, (hsame r).2]
          exact h.read r hr
        · obtain ⟨hnone, hread, hfin⟩ := h.ended r p hread
          exact ⟨hnone, (hsame r).1 ▸ hread, (hsame r).1 ▸ hfin⟩

end History

end Conn

end Qmux
