import Qmux.Conn.Life
import Qmux.Lib.Window

/-!
The accounts of one stream's receiving side. What was received and not read is
in the buffer, unless the stream was reset or cancelled, and the limit of the
peer is a window over what was read.
-/

namespace Qmux

open Wire

namespace Stream

/-- The window of the stream: the limit the peer was given, over what was
read. -/
def window (s : Stream) : Window :=
  ⟨s.recvMax, s.readOffset⟩

/-- What holds of the accounts of a stream whose window has the size `size`. -/
structure Credited (size : Nat) (s : Stream) : Prop where
  small : s.recvOffset < 2 ^ 63
  read_le : s.readOffset ≤ s.recvOffset
  recv_le : s.recvOffset ≤ s.recvMax
  max_le : s.recvMax ≤ s.readOffset + size
  half : s.canRecv = true → s.finRecv = false → s.readOffset + size / 2 ≤ s.recvMax
  unread : s.recvReset = false → s.readCancelled = false →
    s.unread.length + s.readOffset = s.recvOffset
  closed : s.canRecv = false → s.recvMax = 0
  still : s.canRecv = true → size < 2 → s.recvMax = size

theorem unread_bufferLocked [GoAppend] {s : Stream} {p : Bytes}
    (h : s.roff ≤ s.rbuf.data.length ∨ p = []) :
    (s.bufferLocked p).unread = s.unread ++ p := by
  unfold bufferLocked Stream.unread
  split_ifs with hfull
  · simp [Tidy.append_data, Slice.compact]
  · rw [Tidy.append_data]
    rcases h with hle | rfl
    · exact List.drop_append_of_le_length hle
    · simp

/-- What data changes besides the buffer. -/
theorem takeData_fields [GoAppend] (s : Stream) (f : Wire.Stream) :
    (s.takeData f).recvOffset = Word.add s.recvOffset f.data.length ∧
      (s.takeData f).finRecv = f.fin ∧ (s.takeData f).readOffset = s.readOffset ∧
      (s.takeData f).recvMax = s.recvMax ∧ (s.takeData f).canRecv = s.canRecv ∧
      (s.takeData f).recvReset = s.recvReset ∧
      (s.takeData f).readCancelled = s.readCancelled := by
  unfold takeData bufferLocked
  dsimp only
  split_ifs <;> exact ⟨rfl, rfl, rfl, rfl, rfl, rfl, rfl⟩

theorem unread_takeData [GoAppend] {s : Stream} {f : Wire.Stream}
    (h : s.roff ≤ s.rbuf.data.length ∨ f.data = []) :
    (s.takeData f).unread = if s.readCancelled then s.unread else s.unread ++ f.data := by
  unfold takeData
  dsimp only
  split_ifs
  · rfl
  · exact unread_bufferLocked (s := { s with
      recvOffset := _, finRecv := _, readSignal := _ }) h

theorem unread_advance (s : Stream) (n : Nat) :
    (s.advance n).unread = s.unread.drop n := by
  unfold advance Stream.unread
  rw [List.drop_drop]
  split_ifs with hall
  · have hend : s.rbuf.data.drop (s.roff + n) = [] := List.drop_eq_nil_of_le (by omega)
    rw [hend]
    rfl
  · rfl

/-- Reading moves the window of a stream that has not ended. -/
theorem window_copyOut {s : Stream} (size n : Nat) (hfin : s.finRecv = false)
    (hread : s.readOffset + n ≤ s.recvMax) (hmax : s.recvMax < 2 ^ 64)
    (hsize : s.readOffset + n + size < 2 ^ 64) :
    (s.copyOut n size).window = s.window.consume size n := by
  have hadvance : (s.advance n).readOffset = s.readOffset ∧ (s.advance n).finRecv = false ∧
      (s.advance n).recvMax = s.recvMax := by
    unfold advance
    split_ifs <;> exact ⟨rfl, hfin, rfl⟩
  have hadd : Word.add s.readOffset n = s.readOffset + n := Word.add_of_lt (by omega)
  have hsub : Word.sub s.recvMax (s.readOffset + n) = s.recvMax - (s.readOffset + n) :=
    Word.sub_of_le hread hmax
  unfold copyOut lowCredit Window.consume
  simp only [hadvance, hadd, hsub, Bool.not_false, Bool.true_and, decide_eq_true_eq]
  change _ = if s.recvMax - (s.readOffset + n) < size / 2 then _ else _
  split_ifs
  · simp only [Stream.window, Word.add_of_lt hsize]
  · simp only [Stream.window]

theorem copyOut_ended {s : Stream} (size n : Nat) (hfin : s.finRecv = true) :
    (s.copyOut n size).readOffset = Word.add s.readOffset n ∧
      (s.copyOut n size).recvMax = s.recvMax := by
  unfold copyOut lowCredit advance
  dsimp only
  split_ifs <;> simp_all

theorem copyOut_keeps_recv (s : Stream) (size n : Nat) :
    (s.copyOut n size).recvOffset = s.recvOffset ∧ (s.copyOut n size).finRecv = s.finRecv ∧
      (s.copyOut n size).recvReset = s.recvReset ∧
      (s.copyOut n size).readCancelled = s.readCancelled ∧
      (s.copyOut n size).canRecv = s.canRecv ∧
      (s.copyOut n size).unread = (s.advance n).unread := by
  unfold copyOut advance
  dsimp only
  split_ifs <;> exact ⟨rfl, rfl, rfl, rfl, rfl, rfl⟩

namespace Credited

variable {s : Stream} {size : Nat}

theorem of_core {s' : Stream} (hcore : s'.core = s.core) (h : s.Credited size) :
    s'.Credited size := by
  have hfields := congrArg (fun s : Stream => (s.recvOffset, s.readOffset, s.recvMax,
    s.canRecv, s.finRecv, s.recvReset, s.readCancelled, s.unread)) hcore
  simp only [core, Prod.mk.injEq] at hfields
  obtain ⟨hrecv, hread, hmax, hcan, hfin, hreset, hcancel, hunread⟩ := hfields
  change s'.unread = s.unread at hunread
  constructor
  · rw [hrecv]
    exact h.small
  · rw [hread, hrecv]
    exact h.read_le
  · rw [hrecv, hmax]
    exact h.recv_le
  · rw [hmax, hread]
    exact h.max_le
  · rw [hcan, hfin, hread, hmax]
    exact h.half
  · rw [hreset, hcancel, hunread, hread, hrecv]
    exact h.unread
  · rw [hcan, hmax]
    exact h.closed
  · rw [hcan, hmax]
    exact h.still

/-- The buffer is in order where data can arrive. -/
theorem fits (h : s.Credited size) (htidy : s.Tidy) {p : Bytes}
    (hmax : s.recvOffset + p.length ≤ s.recvMax) : s.roff ≤ s.rbuf.data.length ∨ p = [] := by
  cases hcan : s.canRecv with
  | true => exact Or.inl (by have := htidy.buffer hcan; omega)
  | false =>
      have hzero := h.closed hcan
      exact Or.inr (List.length_eq_zero_iff.mp (by omega))

theorem takeData [GoAppend] (h : s.Credited size) (htidy : s.Tidy) {f : Wire.Stream}
    (hbound : (Frame.stream f).Bounded maxVarint) (hoffset : f.offset = s.recvOffset)
    (hfin : s.finRecv = false)
    (hmax : Word.add s.recvOffset f.data.length ≤ s.recvMax) :
    (s.takeData f).Credited size := by
  have hadd : Word.add s.recvOffset f.data.length = s.recvOffset + f.data.length := by
    obtain ⟨-, hoff, hlen⟩ := hbound
    have : maxVarint = 2 ^ 62 - 1 := rfl
    exact Word.add_of_lt (by omega)
  have hsmall : s.recvOffset + f.data.length < 2 ^ 63 := by
    obtain ⟨-, hoff, hlen⟩ := hbound
    have : maxVarint = 2 ^ 62 - 1 := rfl
    omega
  rw [hadd] at hmax
  have hread := h.read_le
  obtain ⟨hrecv, hend, hread', hmax', hcan, hreset, hcancel⟩ := takeData_fields s f
  rw [hadd] at hrecv
  constructor
  · rw [hrecv]
    exact hsmall
  · rw [hread', hrecv]
    omega
  · rw [hrecv, hmax']
    exact hmax
  · rw [hmax', hread']
    exact h.max_le
  · rw [hcan, hread', hmax']
    exact fun hcan _ => h.half hcan hfin
  · rw [hreset, hcancel, hread', hrecv]
    intro hreset hcancel
    have hold := h.unread hreset hcancel
    rw [unread_takeData (h.fits htidy hmax), if_neg (by simp [hcancel]), List.length_append]
    omega
  · rw [hcan, hmax']
    exact h.closed
  · rw [hcan, hmax']
    exact h.still

theorem takeReset (h : s.Credited size) {f : ResetStream}
    (hbound : (Frame.resetStream f).Bounded maxVarint) (hle : s.recvOffset ≤ f.finalSize)
    (hmax : f.finalSize ≤ s.recvMax) :
    (s.takeReset f).Credited size := by
  have hread := h.read_le
  have hsmall : f.finalSize < 2 ^ 63 := by
    obtain ⟨-, -, hsize⟩ := hbound
    have : maxVarint = 2 ^ 62 - 1 := rfl
    omega
  exact ⟨hsmall, Nat.le_trans hread hle, hmax, h.max_le, h.half,
    (fun hcase => by cases hcase), h.closed, h.still⟩

/-- What can be read was received. -/
theorem readable (h : s.Credited size) (htidy : s.Tidy) {n : Nat} (herr : s.recvErr = none)
    (hunread : s.roff < s.rbuf.data.length) (hn : s.roff + n ≤ s.rbuf.data.length) :
    s.canRecv = true ∧ s.readOffset + n ≤ s.recvOffset := by
  have hopen := htidy.err
  simp only [herr, Option.isSome_none, Bool.false_eq, Bool.or_eq_false_iff] at hopen
  have hbalance := h.unread hopen.1 hopen.2
  have hlen : s.unread.length = s.rbuf.data.length - s.roff := List.length_drop
  refine ⟨?_, by omega⟩
  by_contra hcase
  have hzero := h.closed (by simpa using hcase)
  have hle := h.recv_le
  omega

/-- The window once `n` bytes were read. -/
theorem copyOut_window (h : s.Credited size) (hsize : size ≤ maxVarint) {n : Nat}
    (hcan : s.canRecv = true) (hn : s.readOffset + n ≤ s.recvOffset) :
    (s.copyOut n size).readOffset = s.readOffset + n ∧
      s.recvMax ≤ (s.copyOut n size).recvMax ∧
      (s.copyOut n size).recvMax ≤ s.readOffset + n + size ∧
      (s.finRecv = false → s.readOffset + n + size / 2 ≤ (s.copyOut n size).recvMax) ∧
      (size < 2 → (s.copyOut n size).recvMax = size) := by
  have hsmall := h.small
  have hle := h.recv_le
  have hwhole := h.max_le
  have hmaxVarint : maxVarint = 2 ^ 62 - 1 := rfl
  cases hend : s.finRecv with
  | true =>
      obtain ⟨hread, hmax⟩ := copyOut_ended size n hend
      rw [hread, hmax, Word.add_of_lt (by omega)]
      exact ⟨rfl, Nat.le_refl _, by omega, (fun hcase => by cases hcase), h.still hcan⟩
  | false =>
      have hwindow := window_copyOut size n hend (by omega) (by omega) (by omega)
      have hample : s.window.Ample size := ⟨h.half hcan hend, hwhole, h.still hcan⟩
      have hafter := hample.consume (n := n) (show s.readOffset + n ≤ s.recvMax by omega)
      have hgrows := Window.le_consume_limit (n := n) hample
      have hread : (s.copyOut n size).window.consumed = s.readOffset + n := by
        rw [hwindow]
        exact Window.consume_consumed
      rw [← hwindow] at hafter hgrows
      change (s.copyOut n size).readOffset = _ at hread
      have hhalf := hafter.half
      have hwhole' := hafter.whole
      change (s.copyOut n size).readOffset + _ ≤ (s.copyOut n size).recvMax at hhalf
      change (s.copyOut n size).recvMax ≤ (s.copyOut n size).readOffset + _ at hwhole'
      rw [hread] at hhalf hwhole'
      exact ⟨hread, hgrows, hwhole', fun _ => hhalf, hafter.still⟩

theorem copyOut (h : s.Credited size) (htidy : s.Tidy) (hsize : size ≤ maxVarint) {n : Nat}
    (herr : s.recvErr = none) (hunread : s.roff < s.rbuf.data.length)
    (hn : s.roff + n ≤ s.rbuf.data.length) : (s.copyOut n size).Credited size := by
  obtain ⟨hcanRecv, hread⟩ := h.readable htidy herr hunread hn
  obtain ⟨hoffset, hgrows, hwhole, hhalf, hstill⟩ := h.copyOut_window hsize hcanRecv hread
  obtain ⟨hrecv, hfin, hreset, hcancel, hcan, hbuf⟩ := copyOut_keeps_recv s size n
  constructor
  · rw [hrecv]
    exact h.small
  · rw [hoffset, hrecv]
    exact hread
  · rw [hrecv]
    exact Nat.le_trans h.recv_le hgrows
  · rw [hoffset]
    exact hwhole
  · rw [hfin, hoffset]
    exact fun _ => hhalf
  · rw [hreset, hcancel]
    intro hnoReset hnoCancel
    have hbalance := h.unread hnoReset hnoCancel
    have hlen : s.unread.length = s.rbuf.data.length - s.roff := List.length_drop
    rw [hbuf, unread_advance, hoffset, hrecv, List.length_drop]
    omega
  · rw [hcan, hcanRecv]
    exact fun hcase => by cases hcase
  · exact fun _ => hstill

/-- Nothing is left to read of a stream whose receiving side is done. -/
theorem unread_of_done (h : s.Credited size) (htidy : s.Tidy) (hdone : s.recvDone = true) :
    s.unread = [] := by
  have hempty (hdata : s.rbuf.data = []) : s.unread = [] := by
    unfold Stream.unread
    rw [hdata, List.drop_nil]
  by_cases hreset : s.recvReset = true
  · exact hempty (htidy.dropped (Or.inl hreset))
  · by_cases hcancel : s.readCancelled = true
    · exact hempty (htidy.dropped (Or.inr hcancel))
    · cases hcan : s.canRecv with
      | false =>
          have hzero := h.closed hcan
          have hle := h.recv_le
          have hbalance := h.unread (by simpa using hreset) (by simpa using hcancel)
          exact List.length_eq_zero_iff.mp (by omega)
      | true =>
          simp only [recvDone, hcan, hreset, hcancel] at hdone
          simp only [Bool.not_true, Bool.false_or, Bool.false_eq_true, if_false,
            Bool.and_eq_true, beq_iff_eq] at hdone
          unfold Stream.unread
          rw [hdone.2, List.drop_length]

theorem forget (h : s.Credited size) (htidy : s.Tidy) (hdone : s.recvDone = true) :
    Credited size { s with done := true, rbuf := .nil } := by
  refine ⟨h.small, h.read_le, h.recv_le, h.max_le, h.half, fun hreset hcancel => ?_, h.closed,
    h.still⟩
  have hbalance := h.unread hreset hcancel
  rw [h.unread_of_done htidy hdone] at hbalance
  have hnil : Stream.unread { s with done := true, rbuf := .nil } = [] := List.drop_nil
  rw [hnil]
  exact hbalance

theorem step [GoAppend] {s' : Stream} (hsize : size ≤ maxVarint) (htidy : s.Tidy)
    (hstep : s.Step size s') (h : s.Credited size) : s'.Credited size := by
  cases hstep with
  | quiet hcore => exact h.of_core hcore
  | data hbound hoffset hfin hreset hmax => exact h.takeData htidy hbound hoffset hfin hmax
  | reset hbound hle hfin hreset hmax => exact h.takeReset hbound hle hmax
  | read herr hunread hn => exact h.copyOut htidy hsize herr hunread hn
  | cancel =>
      exact ⟨h.small, h.read_le, h.recv_le, h.max_le, h.half,
        (fun _ hcase => by cases hcase), h.closed, h.still⟩
  | forget hdone haccepted hrecv => exact h.forget htidy hrecv
  | _ => exact ⟨h.small, h.read_le, h.recv_le, h.max_le, h.half, h.unread, h.closed, h.still⟩

theorem new {c : Conn} (id : Nat) (accepted : Bool) :
    Credited c.config.streamWindow { c.newStream id with accepted := accepted } := by
  have hmax : (c.newStream id).recvMax =
      if (c.newStream id).canRecv then c.config.streamWindow else 0 := rfl
  refine ⟨Nat.two_pow_pos 63, Nat.le_refl _, Nat.zero_le _, ?_, fun hcan _ => ?_,
    fun _ _ => rfl, fun hcan => ?_, fun hcan _ => ?_⟩
  · change (c.newStream id).recvMax ≤ 0 + _
    rw [hmax]
    split_ifs <;> omega
  · change (c.newStream id).canRecv = true at hcan
    change 0 + _ ≤ (c.newStream id).recvMax
    rw [hmax, if_pos hcan]
    omega
  · change (c.newStream id).canRecv = false at hcan
    change (c.newStream id).recvMax = 0
    rw [hmax, hcan]
    rfl
  · change (c.newStream id).canRecv = true at hcan
    change (c.newStream id).recvMax = _
    rw [hmax, if_pos hcan]

end Credited

/-- What holds of the receiving side of a stream. -/
structure Sound (size : Nat) (s : Stream) : Prop where
  tidy : s.Tidy
  credited : s.Credited size

theorem Sound.step [GoAppend] {s s' : Stream} {size : Nat} (hsize : size ≤ maxVarint)
    (hstep : s.Step size s') (h : s.Sound size) : s'.Sound size :=
  ⟨h.tidy.step hstep, h.credited.step hsize h.tidy hstep⟩

/-- No step takes back what the peer may send. -/
theorem Sound.recvMax_le [GoAppend] {s s' : Stream} {size : Nat} (hsize : size ≤ maxVarint)
    (hstep : s.Step size s') (h : s.Sound size) : s.recvMax ≤ s'.recvMax := by
  cases hstep with
  | quiet hcore => exact (congrArg Stream.recvMax hcore :).ge
  | data => exact (takeData_fields s _).2.2.2.1.ge
  | read herr hunread hn =>
      obtain ⟨hcan, hread⟩ := h.credited.readable h.tidy herr hunread hn
      exact (h.credited.copyOut_window hsize hcan hread).2.1
  | _ => exact Nat.le_refl _

end Stream

/-- The receiving side of every stream is sound in every history. -/
theorem Conn.History.streams_sound [Quicvarint] [GoAppend] {config : Config}
    {isServer : Bool} {heard : Parsed → Prop} {t : Traffic} {c : Conn}
    (hconfig : config.Valid) (hhistory : History config isServer heard t c) :
    ∀ r < c.count, (c.heap r).Sound config.streamWindow :=
  hhistory.forall_streams
    (fun _ id accepted hsame => ⟨⟨fun _ => Or.inl rfl, rfl, fun _ => rfl⟩,
      hsame ▸ Stream.Credited.new id accepted⟩)
    (fun _ _ => Stream.Sound.step hconfig.streamWindow_le)

end Qmux
