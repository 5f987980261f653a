import Qmux.Lib.Fifo
import Qmux.Receiving.Moves
import Qmux.Trace.Run
import Qmux.Wire.RoundTrip

/-!
The read buffer of a stream is a queue of bytes within a bound. STREAM frames
put data in at one end and reads take it out at the other; the part that was
read is reclaimed when the data would not fit, and a buffer that has to grow
grows to what the flow control allows, which is never more than a window. So the
capacity stays within two windows, however the application reads, if `append` at
most doubles what it has or needs. For the first few bytes of an empty slice Go's
own `append` rounds up further than that.
-/

namespace Qmux

open Wire

namespace Stream

variable [GoAppend]

/-- `append` at most doubles what the slice has or needs. -/
def Doubles : Prop :=
  ∀ cap need, GoAppend.growCap cap need ≤ 2 * max cap need

/-- A slice that has to grow has no use for its old capacity. -/
theorem append_cap_le (hgrow : Doubles) (b : Slice) (p : Bytes) :
    (b.append p).cap ≤ max b.cap (2 * (b.data.length + p.length)) := by
  unfold Slice.append
  split_ifs with hfits
  · exact Nat.le_max_left _ _
  · have hcap := hgrow b.cap (b.data.length + p.length)
    rw [max_eq_right (Nat.le_of_lt (Nat.lt_of_not_le hfits))] at hcap
    exact le_max_of_le_right hcap

/-- The buffer grows to at most twice what is to be read. -/
theorem bufferLocked_cap_le (hgrow : Doubles) (s : Stream) (p : Bytes) :
    (s.bufferLocked p).rbuf.cap ≤ max s.rbuf.cap (2 * (s.unread.length + p.length)) := by
  unfold bufferLocked
  split_ifs with hfull
  · exact append_cap_le hgrow (s.rbuf.compact s.roff) p
  · rcases Nat.eq_zero_or_pos s.roff with hzero | hpos
    · have hall : s.unread = s.rbuf.data := by
        unfold Stream.unread
        rw [hzero, List.drop_zero]
      rw [hall]
      exact append_cap_le hgrow s.rbuf p
    · have hfits : s.rbuf.data.length + p.length ≤ s.rbuf.cap := by omega
      unfold Slice.append
      rw [dif_pos hfits]
      exact Nat.le_max_left _ _

/-- The stream is sound, and its buffer takes at most two windows. -/
structure Fits (size : Nat) (s : Stream) : Prop where
  sound : s.Sound size
  cap_le : s.rbuf.cap ≤ 2 * size

theorem Fits.takeData {size : Nat} {s : Stream} (h : s.Fits size) (hgrow : Doubles)
    {f : Wire.Stream} (hbound : (Frame.stream f).Bounded maxVarint) (hreset : s.recvReset = false)
    (hmax : Word.add s.recvOffset f.data.length ≤ s.recvMax) :
    (s.takeData f).rbuf.cap ≤ 2 * size := by
  have hsmall := h.sound.credited.small
  have hlen : f.data.length ≤ maxVarint := hbound.2.2
  have hvarint : maxVarint = 2 ^ 62 - 1 := rfl
  rw [Word.add_of_lt (by omega)] at hmax
  unfold Stream.takeData
  dsimp only
  split_ifs with hcancel
  · exact h.cap_le
  · have hunread := h.sound.credited.unread hreset (by simpa using hcancel)
    have hcredit := h.sound.credited.max_le
    refine (bufferLocked_cap_le hgrow _ _).trans (Nat.max_le.mpr ⟨h.cap_le, ?_⟩)
    change 2 * (s.unread.length + f.data.length) ≤ 2 * size
    omega

theorem Fits.step {size : Nat} {s s' : Stream} (hgrow : Doubles) (hsize : size ≤ maxVarint)
    (hstep : s.Step size s') (h : s.Fits size) : s'.Fits size := by
  refine ⟨h.sound.step hsize hstep, ?_⟩
  cases hstep with
  | quiet hcore => exact (congrArg (fun s => s.rbuf.cap) hcore :).trans_le h.cap_le
  | data hbound _ _ hreset hmax => exact h.takeData hgrow hbound hreset hmax
  | read =>
      unfold copyOut advance
      dsimp only
      split_ifs <;> exact h.cap_le
  | reset => exact Nat.zero_le _
  | cancel => exact Nat.zero_le _
  | forget => exact Nat.zero_le _
  | _ => exact h.cap_le

end Stream

namespace Conn

variable [GoAppend]

/-- The calls that use the read buffer of a stream. -/
inductive BufferCall where
  | stream (f : Wire.Stream)
  | tryRead (size : Nat)
  | tryPeek (size : Nat)

/-- A call on the read buffer of the stream: a STREAM frame about it that is
accepted, or a call of its reader. -/
def bufferCall (r : Ref) (c : Conn) : BufferCall → Option Conn
  | .stream f =>
      if c.streams f.streamID = some r ∧ f.offset ≤ maxVarint ∧ f.data.length ≤ maxVarint then
        match c.handleFrameLocked (.frame (.stream f)) 0 with
        | (c, none) => some c
        | (_, some _) => none
      else none
  | .tryRead size => c.call (.tryRead r size)
  | .tryPeek size => c.call (.tryPeek r size)

/-- What the call puts in the buffer, takes out of it or sees of it. Data for a
cancelled reader is not buffered. -/
def bufferLog (r : Ref) (c : Conn) : BufferCall → List (Fifo.Event UInt8)
  | .stream f => if (c.heap r).readCancelled then [] else [.put f.data]
  | .tryRead size => [.got (c.tryRead r size).2.bytes]
  | .tryPeek size => [.saw (c.tryPeek r size).2.bytes]

section Calls

variable {c c' : Conn} {r : Ref} {heard : Parsed → Prop} {t : Traffic} {start : Bytes}
  {log : List (Fifo.Event UInt8)}

/-- What is to be read after an act, also if the stream is forgotten then. -/
theorem Act.unread {s : Stream} {frames : List Frame} {d : Conn}
    (hact : Act heard c r t s frames d) (hsound : s.Sound c.config.streamWindow) :
    ((d.completeLocked r).heap r).unread = s.unread := by
  have hheap : d.heap r = s := by
    obtain ⟨a, -, rfl⟩ := hact.touches
    exact Function.update_self ..
  have hsame := completeLocked_receiver (c := d) (hheap.symm ▸ hsound) r []
  rw [hheap] at hsame
  exact congrArg Transfer.Receiver.buffer hsame

/-- What a read returns is what is to be read first. -/
theorem tryRead_unread (hsound : (c.heap r).Sound c.config.streamWindow)
    (hwindow : c.config.streamWindow ≤ maxVarint) (hholds : c.holdsRecv r = true) (size : Nat) :
    (c.heap r).unread =
      (c.tryRead r size).2.bytes ++ ((c.tryRead r size).1.heap r).unread := by
  unfold tryRead
  dsimp only
  split
  · rfl
  · rfl
  · rename_i hopen herr
    split_ifs with hunread hfin
    · have hn : (c.heap r).roff + ((c.heap r).unread.take size).length ≤
          (c.heap r).rbuf.data.length := by
        simp only [Stream.unread, List.length_take, List.length_drop]
        omega
      have hact : Act (fun _ => True) c r _ _ _ _ := .read hholds herr hunread hn
      have hleft := hact.unread (hsound.step hwindow hact.step)
      rw [((c.heap r).copyOut_keeps_recv _ _).2.2.2.2.2, Stream.unread_advance] at hleft
      have hmin : (c.heap r).unread.take size =
          (c.heap r).unread.take ((c.heap r).unread.take size).length := by
        rw [List.length_take, List.take_eq_take_iff]
        omega
      calc (c.heap r).unread
          = (c.heap r).unread.take ((c.heap r).unread.take size).length ++
              (c.heap r).unread.drop ((c.heap r).unread.take size).length :=
            (List.take_append_drop ..).symm
        _ = (c.heap r).unread.take size ++
              ((c.copyOut r ((c.heap r).unread.take size).length).heap r).unread :=
            congrArg₂ (· ++ ·) hmin.symm hleft.symm
    · rfl
    · simp [ReadResult.bytes, setStream, Stream.unread]

omit [GoAppend] in
theorem tryPeek_unread (size : Nat) : (c.tryPeek r size).2.bytes <+: (c.heap r).unread ∧
    ∃ signal, (c.tryPeek r size).1 = c.setStream r { c.heap r with readSignal := signal } := by
  have hsame : c = c.setStream r { c.heap r with readSignal := (c.heap r).readSignal } := by
    simp [setStream]
  unfold tryPeek
  dsimp only
  split
  · exact ⟨List.nil_prefix, _, hsame⟩
  · exact ⟨List.nil_prefix, _, hsame⟩
  · split_ifs with hthere hfin
    · exact ⟨List.take_prefix _ _, _, hsame⟩
    · exact ⟨List.prefix_rfl, _, hsame⟩
    · exact ⟨List.nil_prefix, _, rfl⟩

/-- Accepted data is put after what is to be read. -/
theorem handleStreamLocked_unread (hordered : c.Ordered) (hopen : c.closeErr = none)
    (hready : c.ready = true)
    (hsound : (c.heap r).Sound c.config.streamWindow)
    (hwindow : c.config.streamWindow ≤ maxVarint) (hcan : (c.heap r).canRecv = true)
    {f : Wire.Stream} (hbound : (Frame.stream f).Bounded maxVarint)
    (htable : c.streams f.streamID = some r) (hok : (c.handleStreamLocked f).2 = none) :
    ((c.handleStreamLocked f).1.heap r).unread =
      if (c.heap r).readCancelled then (c.heap r).unread else (c.heap r).unread ++ f.data := by
  rcases hordered.streamLocked_of_table hopen htable true with ⟨hfound, hdir⟩ | ⟨err, hfound⟩
  · unfold handleStreamLocked at hok ⊢
    simp only [hfound] at hok ⊢
    split_ifs at hok with hoffset hended hpast hmax
    · -- The stream has ended, and the frame has no data.
      have hnone : f.data = [] := by
        simp only [not_or, Nat.not_lt, Nat.le_zero_eq, List.length_eq_zero_iff] at hpast
        exact hpast.1
      rw [if_neg hoffset, if_pos hended, if_neg hpast, hnone, List.append_nil, ite_self]
    · rw [if_neg hoffset, if_neg hended, if_neg hmax]
      cases hreceived : c.receivedLocked f.data.length with
      | error e => simp [hreceived] at hok
      | ok next =>
          obtain ⟨hconn, rfl⟩ := receivedLocked_ok hreceived
          simp only [Bool.or_eq_true, not_or, Bool.not_eq_true] at hended
          have hact : Act (fun _ => True) c r _ _ _ _ := .data hready trivial hbound hdir htable
            (not_not.mp hoffset) hended.1 hended.2 (Nat.le_of_not_lt hmax) hconn
          have hbuffer := hact.unread (hsound.step hwindow hact.step)
          rw [Stream.unread_takeData (Or.inl ?_)] at hbuffer
          · exact hbuffer
          · exact (hsound.tidy.buffer hcan).elim (fun h => h ▸ Nat.zero_le _) Nat.le_of_lt
  · simp [handleStreamLocked, hfound] at hok

end Calls

section Runs

variable [Quicvarint] {config : Config} {isServer : Bool} {c c' : Conn} {r : Ref}
  {start : Bytes} {log log' : List (Fifo.Event UInt8)}

/-- The stream is one of an open connection, and what is to be read of it is what the
calls have left in its buffer. -/
structure Buffers (config : Config) (isServer : Bool) (start : Bytes) (r : Ref)
    (log : List (Fifo.Event UInt8)) (c : Conn) : Prop where
  history : ∃ t, History config isServer (fun _ => True) t c
  opened : c.closeErr = none
  there : r < c.count ∧ (c.heap r).canRecv = true
  fifo : Fifo.Run start log (c.heap r).unread

theorem Buffers.moves (h : Buffers config isServer start r log c) {t : Traffic}
    (hmoves : Moves (fun _ => True) c t c') (hfifo : Fifo.Run start log' (c'.heap r).unread) :
    Buffers config isServer start r log' c' := by
  obtain ⟨t₀, hhistory⟩ := h.history
  have hlater := hmoves.later
  refine ⟨⟨_, Since.moves hhistory hmoves⟩, hmoves.closeErr.1.trans h.opened, ?_, hfifo⟩
  exact ⟨h.there.1.trans_le hlater.count,
    (hlater.streams r h.there.1).canRecv.trans h.there.2⟩

/-- Every call does to the buffer what it logs. -/
theorem Buffers.step (hconfig : config.Valid) (h : Buffers config isServer start r log c)
    {call : BufferCall} (hcall : c.bufferCall r call = some c') :
    Buffers config isServer start r (log ++ c.bufferLog r call) c' := by
  obtain ⟨t, hhistory⟩ := h.history
  have hsame := (History.config hhistory).1
  have hsound : (c.heap r).Sound c.config.streamWindow :=
    hsame ▸ History.streams_sound hconfig hhistory r h.there.1
  have hwindow : c.config.streamWindow ≤ maxVarint := hsame ▸ hconfig.streamWindow_le
  cases call with
  | stream f =>
      obtain ⟨⟨htable, hoffset, hlength⟩, hframe⟩ := Option.ite_none_right_eq_some.mp hcall
      have hordered := History.ordered hconfig hhistory
      obtain ⟨-, hid, -⟩ := hordered.of_table h.opened htable
      have hnamed : (c.heap r).id < 2 ^ 62 := (hordered.sound.named.opened r h.there.1).1
      have hbound : (Frame.stream f).Bounded maxVarint :=
        ⟨Nat.le_pred_of_lt (hid ▸ hnamed), hoffset, hlength⟩
      have hparsed : (Parsed.frame (.stream f)).Bounded maxVarint := hbound
      have hmoves : Moves (fun _ => True) c _ _ :=
        handleFrameLocked_moves h.opened trivial hparsed 0
      by_cases hready : c.ready = true
      · have hstep : c.handleFrameLocked (.frame (.stream f)) 0 =
            ((c.handleStreamLocked f).1, (c.handleStreamLocked f).2.map .violation) := by
          simp [handleFrameLocked, handleOtherLocked, hready]
        rw [hstep] at hframe hmoves
        cases hok : (c.handleStreamLocked f).2 with
        | some err => simp [hok] at hframe
        | none =>
            simp only [hok, Option.map_none, Option.some.injEq] at hframe
            obtain rfl := hframe
            have hunread := handleStreamLocked_unread hordered h.opened hready hsound hwindow
              h.there.2 hbound htable hok
            refine h.moves hmoves ?_
            rw [hunread]
            unfold bufferLog
            split_ifs with hcancelled
            · rw [List.append_nil]
              exact h.fifo
            · exact h.fifo.put f.data
      · simp [handleFrameLocked, hready] at hframe
  | tryRead size =>
      have hmove : Move (fun _ => True) c _ c' := @call_move _ _ _ c c' (.tryRead r size) hcall
      obtain ⟨hholds, ⟨⟩⟩ := Option.ite_none_right_eq_some.mp hcall
      have hfifo := h.fifo
      rw [tryRead_unread hsound hwindow hholds size] at hfifo
      exact h.moves (.single hmove) hfifo.got
  | tryPeek size =>
      have hmove : Move (fun _ => True) c _ c' := @call_move _ _ _ c c' (.tryPeek r size) hcall
      obtain ⟨-, ⟨⟩⟩ := Option.ite_none_right_eq_some.mp hcall
      obtain ⟨hseen, signal, hstate⟩ := c.tryPeek_unread (r := r) size
      have hunread : ((c.tryPeek r size).1.heap r).unread = (c.heap r).unread := by
        rw [hstate]
        simp [setStream, Stream.unread]
      exact h.moves (.single hmove) (hunread ▸ h.fifo.saw hseen)

theorem Buffers.run (hconfig : config.Valid) (h : Buffers config isServer start r log c)
    {calls : List BufferCall}
    (hcalls : Machine.run (Machine.watch (bufferCall r) (bufferLog r)) (c, log) calls =
      some (c', log')) : Buffers config isServer start r log' c' := by
  refine Machine.trace_invariant (P := fun _ x => Buffers config isServer start r x.2 x.1)
    h ?_ calls _ hcalls
  intro calls x call y hx hstep
  obtain ⟨hcall, hlog⟩ := Machine.watch_step hstep
  rw [hlog]
  exact hx.step hconfig hcall

end Runs

/-- What holds of the read buffer of a stream with the window `size`, after the calls
of the log on a buffer with `start` in it. -/
structure ReadBuffer (size : Nat) (start : Bytes) (log : List (Fifo.Event UInt8)) (c : Conn)
    (r : Ref) : Prop where
  fifo : start ++ Fifo.put log = Fifo.got log ++ (c.heap r).unread
  roff : (c.heap r).roff < (c.heap r).rbuf.data.length ∨
    (c.heap r).roff = 0 ∧ (c.heap r).rbuf.data.length = 0
  peek : ∀ n, ∃ signal,
    (c.tryPeek r n).1 = c.setStream r { c.heap r with readSignal := signal }
  seen : ∀ first p second, log = first ++ .saw p :: second →
    p <+: Fifo.got second ++ (c.heap r).unread ∧
      (p.length ≤ (Fifo.got second).length → p <+: Fifo.got second)
  cap : (c.heap r).rbuf.cap ≤ 2 * size

end Conn

/-- In every state of an open connection, and however a stream is then written to,
read and peeked at, its read buffer is a queue that takes at most two windows, if
`append` at most doubles what a slice has or needs. -/
theorem Endpoint.readBuffer_bounded [Quicvarint] [GoAppend] (hgrow : Stream.Doubles)
    (config : Option Config) (isServer : Bool) {e : Endpoint}
    (hreach : e.Reachable (Config.normalized config) isServer)
    (hopen : e.conn.closeErr = none) {r : Ref} (hr : r < e.conn.count)
    (hcan : (e.conn.heap r).canRecv = true) {calls : List Conn.BufferCall} {c : Conn}
    {log : List (Fifo.Event UInt8)}
    (hcalls : Machine.run (Machine.watch (Conn.bufferCall r) (Conn.bufferLog r)) (e.conn, [])
      calls = some (c, log)) :
    c.ReadBuffer e.conn.config.streamWindow (e.conn.heap r).unread log r := by
  obtain ⟨labels, hrun⟩ := hreach
  have hvalid := Config.normalized_valid config
  obtain ⟨_, _, t, htraced⟩ := traced hvalid hrun
  have hhistory := htraced.past.history
  have hstart : Conn.Buffers (Config.normalized config) isServer (e.conn.heap r).unread r []
      e.conn := ⟨⟨t, hhistory.mono (fun _ _ => trivial)⟩, hopen, ⟨hr, hcan⟩, .start⟩
  have hlast := hstart.run hvalid hcalls
  obtain ⟨t', hhistory'⟩ := hlast.history
  have hfits : (c.heap r).Fits e.conn.config.streamWindow := by
    rw [(Conn.History.config hhistory).1]
    refine Conn.History.forall_streams hhistory' (fun _ id accepted hsame => ⟨?_, Nat.zero_le _⟩)
      (fun _ _ => Stream.Fits.step hgrow hvalid.streamWindow_le) r hlast.there.1
    exact ⟨⟨fun _ => Or.inl rfl, rfl, fun _ => rfl⟩, hsame ▸ Stream.Credited.new id accepted⟩
  refine ⟨hlast.fifo.balance, ?_, fun n => (c.tryPeek_unread n).2, ?_, hfits.cap_le⟩
  · rcases hfits.sound.tidy.buffer hlast.there.2 with hzero | hless
    · omega
    · exact Or.inl hless
  · rintro first p second rfl
    have hseen := hlast.fifo.seen
    exact ⟨hseen, fun hle => List.prefix_of_prefix_length_le hseen (List.prefix_append _ _) hle⟩

/-- The peer sends two bytes on a stream, which is accepted. -/
def bufferedBytes : List Action :=
  [.record ((Frame.transportParameters {}).append.getD []) 0,
    .record ((Frame.stream ⟨2, 0, [1, 2], false⟩).append.getD []) 0, .call (.tryAccept .uni)]

theorem readBuffer_bounded_bufferedBytes :
    ∃ (e : Endpoint) (c : Conn), e.Reachable (Config.normalized none) true ∧
      Machine.run (Machine.watch (Conn.bufferCall 0) (Conn.bufferLog 0)) (e.conn, [])
        [.tryPeek 1, .tryRead 1, .stream ⟨2, 2, [3, 4], false⟩, .tryRead 8] =
          some (c, [.saw [1], .got [1], .put [3, 4], .got [2, 3, 4]]) ∧
      c.ReadBuffer e.conn.config.streamWindow [1, 2]
        [.saw [1], .got [1], .put [3, 4], .got [2, 3, 4]] 0 := by
  have hrun : (Machine.run Endpoint.step (Endpoint.new (Config.normalized none) true)
      bufferedBytes).map (fun e => decide (e.conn.closeErr = none ∧ 0 < e.conn.count ∧
        (e.conn.heap 0).canRecv = true ∧ (e.conn.heap 0).unread = [1, 2] ∧
        (Machine.run (Machine.watch (Conn.bufferCall 0) (Conn.bufferLog 0)) (e.conn, [])
          [.tryPeek 1, .tryRead 1, .stream ⟨2, 2, [3, 4], false⟩, .tryRead 8]).map Prod.snd =
            some [.saw [1], .got [1], .put [3, 4], .got [2, 3, 4]])) = some true := by
    decide +kernel
  obtain ⟨e, hrun, hstate⟩ := Option.map_eq_some_iff.mp hrun
  obtain ⟨hopen, hr, hcan, hstart, hlog⟩ := of_decide_eq_true hstate
  obtain ⟨⟨c, log⟩, hcalls, hsame⟩ := Option.map_eq_some_iff.mp hlog
  obtain rfl : log = _ := hsame
  have hgrow : Stream.Doubles := by
    intro cap need
    change need ≤ 2 * max cap need
    omega
  exact ⟨e, c, ⟨_, hrun⟩, hcalls,
    hstart ▸ Endpoint.readBuffer_bounded hgrow none true ⟨_, hrun⟩ hopen hr hcan hcalls⟩

end Qmux
