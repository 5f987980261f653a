import Qmux.Sending.Outbox

/-!
What a move does on the receiving side of the streams, when the peer keeps its
messages in order: it takes the next message of a stream, or the application
reads or drops what is there. A stream that was forgotten has ended, so no
message about it is lost.
-/

namespace Qmux

open Wire

def Wire.Parsed.message? (id : Nat) : Parsed → Option (Transfer.Message UInt8)
  | .frame f => f.message? id
  | .blocked => none

def ReadResult.bytes : ReadResult → Bytes
  | .data p => p
  | .eof p => p
  | _ => []

/-- What a reader of the stream got. -/
def readOn (r : Ref) (reads : List (Ref × ReadResult)) : Bytes :=
  reads.flatMap (fun x => if x.1 = r then x.2.bytes else [])

theorem readOn_append (r : Ref) (first second : List (Ref × ReadResult)) :
    readOn r (first ++ second) = readOn r first ++ readOn r second :=
  List.flatMap_append

theorem readOn_nil {r : Ref} {reads : List (Ref × ReadResult)}
    (h : ∀ x ∈ reads, x.1 = r → x.2.bytes = []) : readOn r reads = [] := by
  refine List.flatMap_eq_nil_iff.mpr (fun x hx => ?_)
  split_ifs with hr
  · exact h x hx hr
  · rfl

/-- The receiving side of the stream, with what was read of it. -/
def Stream.receiver (s : Stream) (read : Bytes) : Transfer.Receiver UInt8 :=
  ⟨s.recvOffset, s.finRecv, s.recvReset, read, s.unread, s.recvErr.isSome⟩

namespace Conn

section Acts

variable {c : Conn} {r : Ref}

/-- Forgetting a stream leaves nothing unread. -/
theorem completeLocked_receiver {size : Nat} (hsound : (c.heap r).Sound size) (i : Ref)
    (read : Bytes) :
    ((c.completeLocked r).heap i).receiver read = (c.heap i).receiver read := by
  have hforget (hdone : (c.heap r).recvDone = true) :
      (Function.update c.heap r { c.heap r with done := true, rbuf := .nil } i).receiver read =
        (c.heap i).receiver read := by
    refine congrFun (Heap.map_update_of_eq (fun s => Stream.receiver s read) c.heap r _ ?_) i
    have hunread := hsound.credited.unread_of_done hsound.tidy hdone
    have hnil : Stream.unread { c.heap r with done := true, rbuf := .nil } = [] := List.drop_nil
    exact congrArg (fun buffer => { (c.heap r).receiver read with buffer := buffer })
      (hnil.trans hunread.symm)
  unfold completeLocked
  dsimp only
  split_ifs with hkeep
  · rfl
  all_goals
    simp only [Bool.or_eq_true, Bool.not_eq_true', not_or, Bool.not_eq_true,
      Bool.not_eq_false] at hkeep
    exact hforget hkeep.1.2

variable [GoAppend] {heard : Parsed → Prop} {t : Traffic}

/-- What an act does on the receiving side of its stream. -/
private theorem Act.receiver {size : Nat} {s : Stream} {frames : List Frame} {d : Conn}
    (hordered : c.Ordered) (hopen : c.closeErr = none) (hsound : (c.heap r).Sound size)
    (hcan : (c.heap r).canRecv = true) (hact : Act heard c r t s frames d) (read : Bytes) :
    ((c.heap r).receiver read).Step (t.took.filterMap (Parsed.message? (c.heap r).id))
      (s.receiver (read ++ readOn r t.reads)) := by
  have hstill {s' : Stream} (h : s'.receiver read = (c.heap r).receiver read) :
      ((c.heap r).receiver read).Step [] (s'.receiver (read ++ readOn r [])) := by
    have hnone : read ++ readOn r [] = read := List.append_nil _
    rw [hnone, h]
    exact .still
  cases hact with
  | @data f hready hheard hbound hdir htable hoffset hfin hreset hmax =>
      have hid := (hordered.of_table hopen htable).2.1
      have hlen : f.data.length ≤ maxVarint := hbound.2.2
      have hsmall := hsound.credited.small
      have hmax : maxVarint = 2 ^ 62 - 1 := rfl
      have hmessages : [Parsed.frame (.stream f)].filterMap (Parsed.message? (c.heap r).id) =
          [.segment (c.heap r).recvOffset f.data f.fin] := by
        simp [Parsed.message?, Frame.message?, hid, hoffset]
      have hfields := (c.heap r).takeData_fields f
      have herr : ((c.heap r).takeData f).recvErr = (c.heap r).recvErr := by
        unfold Stream.takeData Stream.bufferLocked
        dsimp only
        split_ifs <;> rfl
      have hunread := Stream.unread_takeData (s := c.heap r) (f := f)
        (Or.inl ((hsound.tidy.buffer hcan).elim (fun h => h ▸ Nat.zero_le _) Nat.le_of_lt))
      have hcancelled : (c.heap r).readCancelled = (c.heap r).recvErr.isSome := by
        rw [hsound.tidy.err, hreset, Bool.false_or]
      have hstate : ((c.heap r).takeData f).receiver (read ++ readOn r []) =
          { (c.heap r).receiver read with
            offset := ((c.heap r).receiver read).offset + f.data.length
            fin := f.fin
            buffer := if ((c.heap r).receiver read).dropped then
                ((c.heap r).receiver read).buffer
              else ((c.heap r).receiver read).buffer ++ f.data } := by
        unfold Stream.receiver
        rw [hfields.1, hfields.2.1, hfields.2.2.2.2.2.1, herr, hunread, hcancelled,
          Word.add_of_lt (by omega)]
        simp [readOn]
      rw [hmessages, hstate]
      exact .segment hfin
  | @reset f hready hheard hbound hdir htable =>
      have hid := (hordered.of_table hopen htable).2.1
      have hmessages : [Parsed.frame (.resetStream f)].filterMap
          (Parsed.message? (c.heap r).id) = [.reset f.finalSize] := by
        simp [Parsed.message?, Frame.message?, hid]
      have hstate : ((c.heap r).takeReset f).receiver (read ++ readOn r []) =
          { (c.heap r).receiver read with
            offset := f.finalSize, reset := true, buffer := [], dropped := true } := by
        unfold Stream.receiver Stream.takeReset Stream.unread
        cases (c.heap r).recvErr <;> simp [readOn, Slice.nil]
      rw [hmessages, hstate]
      exact .reset
  | resetSend hcause =>
      rcases hcause with ⟨-, rfl⟩ | ⟨f, -, -, -, rfl⟩
      · exact hstill rfl
      · exact hstill rfl
  | @read n hholds herr =>
      have hfields := (c.heap r).copyOut_keeps_recv c.config.streamWindow n
      have hkept : ((c.heap r).copyOut n c.config.streamWindow).recvErr =
          (c.heap r).recvErr := by
        unfold Stream.copyOut Stream.advance
        dsimp only
        split_ifs <;> rfl
      have hreads : readOn r [(r, .data ((c.heap r).unread.take n))] =
          (c.heap r).unread.take n := by
        simp [readOn, ReadResult.bytes]
      have hstate : ((c.heap r).copyOut n c.config.streamWindow).receiver
          (read ++ readOn r [(r, .data ((c.heap r).unread.take n))]) =
          { (c.heap r).receiver read with
            read := ((c.heap r).receiver read).read ++ ((c.heap r).receiver read).buffer.take n
            buffer := ((c.heap r).receiver read).buffer.drop n } := by
        unfold Stream.receiver
        rw [hfields.1, hfields.2.1, hfields.2.2.1, hkept, hfields.2.2.2.2.2,
          Stream.unread_advance, hreads]
      rw [hstate]
      exact .read (by simp [Stream.receiver, herr])
  | @cancel code =>
      have hstate : ((c.heap r).cancelRead code).receiver (read ++ readOn r []) =
          { (c.heap r).receiver read with buffer := [], dropped := true } := by
        simp [Stream.receiver, Stream.cancelRead, Stream.unread, readOn, Slice.nil]
      rw [hstate]
      exact .drop
  | finish => exact hstill rfl

/-- An act takes no message about other streams, and its reader is that of its own. -/
private theorem Act.taken_none {s : Stream} {frames : List Frame} {d : Conn}
    (hordered : c.Ordered) (hopen : c.closeErr = none) (hact : Act heard c r t s frames d)
    {i : Ref} (hid : (c.heap r).id ≠ (c.heap i).id) :
    t.took.filterMap (Parsed.message? (c.heap i).id) = [] ∧ readOn i t.reads = [] := by
  have hne : r ≠ i := fun h => hid (h ▸ rfl)
  cases hact with
  | data hready hheard hbound hdir htable =>
      have hname := (hordered.of_table hopen htable).2.1
      exact ⟨by simp [Parsed.message?, Frame.message?, ← hname, hid], rfl⟩
  | reset hready hheard hbound hdir htable =>
      have hname := (hordered.of_table hopen htable).2.1
      exact ⟨by simp [Parsed.message?, Frame.message?, ← hname, hid], rfl⟩
  | resetSend hcause =>
      rcases hcause with ⟨-, rfl⟩ | ⟨f, -, -, -, rfl⟩
      · exact ⟨rfl, rfl⟩
      · exact ⟨rfl, rfl⟩
  | read => exact ⟨rfl, by simp [readOn, hne]⟩
  | cancel => exact ⟨rfl, rfl⟩
  | finish => exact ⟨rfl, rfl⟩

end Acts

section Moves

variable {c c' : Conn} {r : Ref}

/-- A stream that a message passes by has ended. -/
theorem ended_of_passes (hordered : c.Ordered) (hopen : c.closeErr = none) (hr : r < c.count)
    (hcan : (c.heap r).canRecv = true) {f : Parsed} {m : Transfer.Message UInt8}
    (hpasses : c.Passes f) (hmessage : f.message? (c.heap r).id = some m) :
    (c.heap r).finRecv = true ∨ (c.heap r).recvReset = true := by
  -- Either the table has the stream, or it was forgotten, and then it was over.
  have hforgotten (htable : c.streams (c.heap r).id = none) :
      (c.heap r).finRecv = true ∨ (c.heap r).recvReset = true := by
    have hdone : (c.heap r).done = true := by
      by_contra hcase
      have hlive : (c.heap r).done = false := by simpa using hcase
      have hsome : c.streams (c.heap r).id = some r :=
        (hordered.tabled hopen (c.heap r).id r).mpr ⟨hr, rfl, hlive⟩
      rw [htable] at hsome
      cases hsome
    have hended : ((c.heap r).recvDone && (c.heap r).sendDone) = true :=
      (hordered.sound.over_of_done r hr hdone).2
    have hrecv := (Bool.and_eq_true_iff.mp hended).1
    unfold Stream.recvDone at hrecv
    rw [hcan] at hrecv
    cases hreset : (c.heap r).recvReset with
    | true => exact Or.inr rfl
    | false =>
        simp only [hreset, Bool.not_true, Bool.or_self, Bool.false_eq_true, if_false,
          Bool.and_eq_true] at hrecv
        exact Or.inl hrecv.1
  have hfound {i : Ref} (htable : c.streams (c.heap r).id = some i) : i = r := by
    obtain ⟨hi, hname, -⟩ := hordered.of_table hopen htable
    exact hordered.sound.named.unique i hi r hr hname
  cases htable : c.streams (c.heap r).id with
  | none => exact hforgotten htable
  | some i =>
      obtain rfl := hfound htable
      cases f with
      | blocked => cases hmessage
      | frame f =>
          cases f with
          | stream f =>
              obtain ⟨hname, -⟩ := Option.ite_none_right_eq_some.mp hmessage
              obtain ⟨-, -, hpassed⟩ := hpasses
              exact (hpassed i (hname ▸ htable)).2.2.1
          | resetStream f =>
              obtain ⟨hname, -⟩ := Option.ite_none_right_eq_some.mp hmessage
              obtain ⟨-, -, hpassed⟩ := hpasses
              exact Or.inr (hpassed i (hname ▸ htable)).1
          | _ => cases hmessage

variable [Quicvarint] [GoAppend] {heard : Parsed → Prop} {t : Traffic}

/-- What a move does on the receiving side of a stream, if the messages about it
are in order. -/
theorem receiver_of_move (hordered : c.Ordered)
    (hsound : ∀ r < c.count, (c.heap r).Sound c.config.streamWindow)
    (hwindow : c.config.streamWindow ≤ maxVarint) (hopen : c.closeErr = none)
    (hr : r < c.count) (hcan : (c.heap r).canRecv = true) {read : Bytes}
    {messages : List (Transfer.Message UInt8)}
    (hreceived : ((c.heap r).receiver read).Received messages)
    (horder : Transfer.InOrder
      (messages ++ t.took.filterMap (Parsed.message? (c.heap r).id)))
    (hmove : Move heard c t c') :
    ((c'.heap r).receiver (read ++ readOn r t.reads)).Received
      (messages ++ t.took.filterMap (Parsed.message? (c.heap r).id)) := by
  have hkept (htook : t.took.filterMap (Parsed.message? (c.heap r).id) = [])
      (hreads : readOn r t.reads = [])
      (hstate : (c'.heap r).receiver read = (c.heap r).receiver read) :
      ((c'.heap r).receiver (read ++ readOn r t.reads)).Received
        (messages ++ t.took.filterMap (Parsed.message? (c.heap r).id)) := by
    rw [htook, hreads, List.append_nil, List.append_nil, hstate]
    exact hreceived
  have hset (i : Ref) (s : Stream) (hs : s.receiver read = (c.heap i).receiver read) :
      (Function.update c.heap i s r).receiver read = (c.heap r).receiver read :=
    congrFun (Heap.map_update_of_eq (fun s => Stream.receiver s read) c.heap i s hs) r
  have hnew (s : Stream) : (Function.update c.heap c.count s r).receiver read =
      (c.heap r).receiver read := by
    rw [Function.update_of_ne (Nat.ne_of_lt hr)]
  cases hmove with
  | still htook hhanded hpings hreads hcore =>
      have hstream : (c'.heap r).core = (c.heap r).core := congrFun (congrArg heap hcore) r
      refine hkept ?_ (readOn_nil fun x hx _ => ?_)
        (congrArg (fun s => Stream.receiver s read) hstream :)
      · by_contra hcase
        obtain ⟨m, rest, hsome⟩ := List.exists_cons_of_ne_nil hcase
        have hm : m ∈ t.took.filterMap (Parsed.message? (c.heap r).id) := by
          rw [hsome]
          exact List.mem_cons_self
        obtain ⟨f, hf, hmessage⟩ := List.mem_filterMap.mp hm
        have hended := hreceived.ended_iff.mp
          (ended_of_passes hordered hopen hr hcan (htook f hf).2.2 hmessage)
        exact hcase (horder.ended hended)
      · have hanswers := (hreads x.1 x.2 hx).2
        cases hresult : x.2 with
        | data p =>
            rw [hresult] at hanswers
            exact hanswers.elim
        | eof p =>
            rw [hresult] at hanswers
            exact hanswers.2.2.1
        | _ => rfl
  | @act i _ s frames d _ hact =>
      have hi := (hordered.of_act (fun r hr => (hsound r hr).tidy) hopen hact).1
      have hs := (hsound i hi).step hwindow hact.step
      have hheap : d.heap = Function.update c.heap i s := by
        obtain ⟨a, -, rfl⟩ := hact.touches
        rfl
      have hforget (read : Bytes) : ((d.completeLocked i).heap r).receiver read =
          (Function.update c.heap i s r).receiver read := by
        rw [completeLocked_receiver (by rw [hheap, Function.update_self]; exact hs), hheap]
      rcases eq_or_ne r i with rfl | hne
      · rw [hforget, Function.update_self]
        exact hreceived.step (hact.receiver hordered hopen (hsound r hr) hcan read) horder
      · have hother : (c.heap i).id ≠ (c.heap r).id :=
          fun heq => hne (hordered.sound.named.unique r hr i hi heq.symm)
        obtain ⟨htook, hreads⟩ := hact.taken_none hordered hopen hother
        refine hkept htook hreads ?_
        rw [hforget, Function.update_of_ne hne]
  | openIncoming => exact hkept rfl rfl (hnew _)
  | openLocal => exact hkept rfl rfl (hnew _)
  | @accept dir i rest _ hqueue =>
      refine hkept rfl rfl ?_
      have hi : i < c.count := hordered.of_queue hqueue
      have hs := (hsound i hi).step hwindow (.accept (s := c.heap i))
      unfold acceptNext
      rw [completeLocked_receiver]
      · exact hset _ _ rfl
      · change (Function.update c.heap i _ i).Sound c.config.streamWindow
        rw [Function.update_self]
        exact hs
  | raiseStream => exact hkept rfl rfl (hset _ _ rfl)
  | @raiseStreams f =>
      have hstate : (c.handleMaxStreams f).heap = c.heap := by
        obtain ⟨out, hout⟩ := c.handleMaxStreams_frame f
        rw [hout]
      refine hkept rfl rfl ?_
      rw [hstate]
  | reserve => exact hkept rfl rfl (hset _ _ rfl)
  | @flush now =>
      have hstate : (c.flushed now).heap = c.heap := by
        obtain ⟨_, _, _, _, hflush⟩ := c.flushed_frame now
        rw [hflush]
      refine hkept rfl rfl ?_
      rw [hstate]
  | _ => exact hkept rfl rfl rfl

/-- A message is taken only about a stream that is there. -/
theorem known_of_move (hordered : c.Ordered) (hmove : Move heard c t c') {f : Parsed}
    (hf : f ∈ t.took) {id : Nat} {m : Transfer.Message UInt8}
    (hmessage : f.message? id = some m) : ∃ r < c.count, (c.heap r).id = id := by
  have hnone {g : Parsed} (htook : t.took = [g]) (hg : g.message? id = none) :
      ∃ r < c.count, (c.heap r).id = id := by
    rw [htook, List.mem_singleton] at hf
    rw [hf, hg] at hmessage
    cases hmessage
  cases hmove with
  | still htook =>
      have hpasses := (htook f hf).2.2
      cases f with
      | blocked => cases hmessage
      | frame f =>
          cases f with
          | stream f =>
              obtain ⟨rfl, -⟩ := Option.ite_none_right_eq_some.mp hmessage
              exact hordered.of_opened hpasses.1
          | resetStream f =>
              obtain ⟨rfl, -⟩ := Option.ite_none_right_eq_some.mp hmessage
              exact hordered.of_opened hpasses.1
          | _ => cases hmessage
  | @act i _ _ _ _ hopen hact =>
      cases hact with
      | data hready hheard hbound hdir htable =>
          rw [List.mem_singleton.mp hf] at hmessage
          obtain ⟨rfl, -⟩ := Option.ite_none_right_eq_some.mp hmessage
          exact ⟨i, (hordered.of_table hopen htable).1, (hordered.of_table hopen htable).2.1⟩
      | reset hready hheard hbound hdir htable =>
          rw [List.mem_singleton.mp hf] at hmessage
          obtain ⟨rfl, -⟩ := Option.ite_none_right_eq_some.mp hmessage
          exact ⟨i, (hordered.of_table hopen htable).1, (hordered.of_table hopen htable).2.1⟩
      | resetSend hcause =>
          rcases hcause with ⟨-, rfl⟩ | ⟨f, -, -, -, rfl⟩
          · cases hf
          · exact hnone rfl rfl
      | _ => cases hf
  | parameters => exact hnone rfl rfl
  | raiseStream => exact hnone rfl rfl
  | raiseData => exact hnone rfl rfl
  | raiseStreams => exact hnone rfl rfl
  | pinged => exact hnone rfl rfl
  | pong => exact hnone rfl rfl
  | _ => cases hf

/-- Once the connection has ended, no data is returned to a reader. -/
theorem reads_of_closed (hclosed : c.closeErr ≠ none) (hmove : Move heard c t c') :
    ∀ x ∈ t.reads, x.2.bytes = [] ∧ ∀ p, x.2 ≠ .eof p := by
  intro x hx
  cases hmove with
  | still htook hhanded hpings hreads =>
      have hanswers := (hreads x.1 x.2 hx).2
      cases hresult : x.2 with
      | data p =>
          rw [hresult] at hanswers
          exact hanswers.elim
      | eof p =>
          rw [hresult] at hanswers
          exact absurd hanswers.1 hclosed
      | _ => exact ⟨rfl, fun _ h => by cases h⟩
  | act hopen => exact absurd hopen hclosed
  | _ => cases hx

/-- Only the holder of a receiving side reads. -/
theorem holdsRecv_of_reads (hmove : Move heard c t c') :
    ∀ x ∈ t.reads, c.holdsRecv x.1 = true := by
  intro x hx
  cases hmove with
  | still htook hhanded hpings hreads => exact (hreads x.1 x.2 hx).1
  | act hopen hact =>
      cases hact with
      | read hholds =>
          rw [List.mem_singleton.mp hx]
          exact hholds
      | resetSend hcause => rcases hcause with ⟨-, rfl⟩ | ⟨f, -, -, -, rfl⟩ <;> cases hx
      | _ => cases hx
  | _ => cases hx

/-- The end of a stream is returned to a reader that has read everything. -/
theorem eof_of_move (hmove : Move heard c t c') {p : Bytes} (hread : (r, .eof p) ∈ t.reads) :
    c.closeErr = none ∧ (c.heap r).recvErr = none ∧ p = [] ∧ (c.heap r).unread = [] ∧
      (c.heap r).finRecv = true := by
  cases hmove with
  | still htook hhanded hpings hreads =>
      obtain ⟨hopen, herr, hnone, hall, hfin⟩ := (hreads r _ hread).2
      exact ⟨hopen, herr, hnone, List.drop_eq_nil_of_le hall, hfin⟩
  | act hopen hact =>
      cases hact with
      | read => simp at hread
      | resetSend hcause => rcases hcause with ⟨-, rfl⟩ | ⟨f, -, -, -, rfl⟩ <;> cases hread
      | _ => cases hread
  | _ => cases hread

end Moves

end Conn

end Qmux
