import Qmux.Limits.Told
import Qmux.Trace.Run

/-!
Flow control of the receiving side over whole runs, against any peer. Every
byte the peer was let in for is returned exactly once, in whichever of the
four places it leaves a buffer, so the windows neither shrink nor grow.

Half a window is rounded down, so a window of one is never extended: once its
one byte was read, nothing lets the peer go on. And a limit is what was
consumed plus a window, with nothing that keeps the sum within what a frame
can carry, or within a `uint64`.
-/

namespace Qmux

open Wire

namespace Conn

/-- The streams in the table. -/
def tableStreams (c : Conn) : Finset Ref :=
  (Finset.range c.count).filter (fun r => c.streams (c.heap r).id = some r)

/-- The credit of the connection and of its streams is conserved. `consume` and
`read` are what `consumeLocked` and `readLocked` need for their subtractions,
at each place that calls them. -/
structure CreditConserved (c : Conn) : Prop where
  window : c.consumed ≤ c.received ∧ c.received ≤ c.recvMax ∧
    c.recvMax ≤ c.consumed + c.config.connectionWindow ∧
    c.config.connectionWindow / 2 ≤ c.recvMax - c.consumed
  buffered : c.received - c.consumed = ∑ r ∈ c.tableStreams, (c.heap r).unread.length
  received : c.received = ∑ r ∈ Finset.range c.count, (c.heap r).recvOffset
  stream : ∀ r < c.count, (c.heap r).readOffset ≤ (c.heap r).recvOffset ∧
    (c.heap r).recvOffset ≤ (c.heap r).recvMax ∧
    (c.heap r).recvMax ≤ (c.heap r).readOffset + c.config.streamWindow
  unread : ∀ r < c.count, (c.heap r).unread.length =
    if (c.heap r).readCancelled || (c.heap r).recvReset then 0
    else (c.heap r).recvOffset - (c.heap r).readOffset
  consume : ∀ r < c.count, ∀ n, c.received + n ≤ c.recvMax →
    c.consumed + ((c.heap r).unread.length + n) ≤ c.recvMax
  read : ∀ r < c.count, ∀ n ≤ (c.heap r).unread.length,
    (c.heap r).readOffset + n ≤ (c.heap r).recvMax
  buffered_le : ∑ r ∈ c.tableStreams, (c.heap r).unread.length ≤ c.config.connectionWindow ∧
    ∀ r < c.count, (c.heap r).unread.length ≤ c.config.streamWindow

variable {c : Conn}

/-- What was forgotten has nothing left to read, so the buffers of the table
are all there are. -/
private theorem total_unread (hordered : c.Ordered) (hopen : c.closeErr = none)
    (hsound : ∀ r < c.count, (c.heap r).Sound c.config.streamWindow) :
    Heap.total c.ledger.waiting c.count id = ∑ r ∈ c.tableStreams, (c.heap r).unread.length := by
  unfold tableStreams Heap.total
  rw [Finset.sum_filter]
  refine Finset.sum_congr rfl (fun r hr => ?_)
  have hlt : r < c.count := Finset.mem_range.mp hr
  split_ifs with htable
  · rfl
  · have hdone : (c.heap r).done = true := by
      by_contra hcase
      have hlive : (c.heap r).done = false := by simpa using hcase
      exact htable ((hordered.tabled hopen _ r).mpr ⟨hlt, rfl, hlive⟩)
    have hended := (hordered.sound.over_of_done r hlt hdone).2
    have hrecv : (c.heap r).recvDone = true := (Bool.and_eq_true_iff.mp hended).1
    have hempty := (hsound r hlt).credited.unread_of_done (hsound r hlt).tidy hrecv
    exact congrArg List.length hempty

/-- The unread bytes of a stream are among those received. -/
private theorem readOffset_add_unread {r : Ref} (h : (c.heap r).Sound c.config.streamWindow) :
    (c.heap r).readOffset + (c.heap r).unread.length ≤ (c.heap r).recvOffset := by
  have hread := h.credited.read_le
  by_cases hdropped : (c.heap r).recvReset = true ∨ (c.heap r).readCancelled = true
  · have hempty : (c.heap r).unread = [] := by
      unfold Stream.unread
      rw [h.tidy.dropped hdropped, List.drop_nil]
    rw [hempty]
    exact hread
  · simp only [not_or, Bool.not_eq_true] at hdropped
    have hbalance := h.credited.unread hdropped.1 hdropped.2
    omega

theorem creditConserved (hordered : c.Ordered) (hopen : c.closeErr = none)
    (hsound : ∀ r < c.count, (c.heap r).Sound c.config.streamWindow)
    (hbalanced : c.ledger.Balanced c.config.connectionWindow) : c.CreditConserved := by
  have hsum : c.received = c.consumed + Heap.total c.ledger.waiting c.count id :=
    hbalanced.waiting
  have hwithin : c.received ≤ c.recvMax := hbalanced.within
  have hhalf : c.consumed + c.config.connectionWindow / 2 ≤ c.recvMax := hbalanced.ample.half
  have hwhole : c.recvMax ≤ c.consumed + c.config.connectionWindow := hbalanced.ample.whole
  have htotal := total_unread hordered hopen hsound
  have hunread (r : Ref) (hr : r < c.count) : (c.heap r).unread.length =
      if (c.heap r).readCancelled || (c.heap r).recvReset then 0
      else (c.heap r).recvOffset - (c.heap r).readOffset := by
    split_ifs with hdropped
    · have hdata := (hsound r hr).tidy.dropped (by simpa [or_comm] using hdropped)
      unfold Stream.unread
      rw [hdata, List.drop_nil]
      rfl
    · simp only [Bool.or_eq_true, not_or, Bool.not_eq_true] at hdropped
      have hbalance := (hsound r hr).credited.unread hdropped.2 hdropped.1
      omega
  refine ⟨by omega, by omega, hbalanced.arrived, fun r hr => ?_, hunread, fun r hr n hn => ?_,
    fun r hr n hn => ?_, by omega, fun r hr => ?_⟩
  · have hcredited := (hsound r hr).credited
    exact ⟨hcredited.read_le, hcredited.recv_le, hcredited.max_le⟩
  · have hshare : (c.heap r).unread.length ≤ Heap.total c.ledger.waiting c.count id :=
      Heap.le_total c.ledger.waiting hr id
    omega
  · have hrecv := (hsound r hr).credited.recv_le
    have hoffset := readOffset_add_unread (hsound r hr)
    omega
  · have hrecv := (hsound r hr).credited.recv_le
    have hmax := (hsound r hr).credited.max_le
    have hoffset := readOffset_add_unread (hsound r hr)
    omega

/-- No `uint64` addition of `receivedLocked`, `consumeLocked`, `readLocked` or
`handleStreamLocked` wraps, whatever the frame or the read that calls it. -/
structure AdditionsExact (c : Conn) : Prop where
  received : ∀ n ≤ maxVarint, Word.add c.received n = c.received + n
  offset : ∀ r < c.count, ∀ n ≤ maxVarint,
    Word.add (c.heap r).recvOffset n = (c.heap r).recvOffset + n
  consume : ∀ r < c.count, ∀ n ≤ maxVarint,
    Word.add n (c.heap r).unread.length = n + (c.heap r).unread.length ∧
    Word.add c.consumed (n + (c.heap r).unread.length) =
      c.consumed + (n + (c.heap r).unread.length) ∧
    Word.add (c.consumed + (n + (c.heap r).unread.length)) c.config.connectionWindow =
      c.consumed + (n + (c.heap r).unread.length) + c.config.connectionWindow
  read : ∀ r < c.count, ∀ n ≤ (c.heap r).unread.length,
    Word.add (c.heap r).readOffset n = (c.heap r).readOffset + n ∧
    Word.add ((c.heap r).readOffset + n) c.config.streamWindow =
      (c.heap r).readOffset + n + c.config.streamWindow

theorem additionsExact (hsound : ∀ r < c.count, (c.heap r).Sound c.config.streamWindow)
    (hbalanced : c.ledger.Balanced c.config.connectionWindow)
    (htotal : c.totalReceived + c.config.connectionWindow ≤ maxVarint)
    (hwindow : c.config.streamWindow ≤ maxVarint) : c.AdditionsExact := by
  have hmaxVarint : maxVarint = 2 ^ 62 - 1 := rfl
  have hreceived : c.received = c.totalReceived := hbalanced.arrived
  have hsum : c.received = c.consumed + Heap.total c.ledger.waiting c.count id :=
    hbalanced.waiting
  refine ⟨fun n hn => ?_, fun r hr n hn => ?_, fun r hr n hn => ?_, fun r hr n hn => ?_⟩
  · exact Word.add_of_lt (by omega)
  · have hsmall := (hsound r hr).credited.small
    exact Word.add_of_lt (by omega)
  · have hshare : (c.heap r).unread.length ≤ Heap.total c.ledger.waiting c.count id :=
      Heap.le_total c.ledger.waiting hr id
    exact ⟨Word.add_of_lt (by omega), Word.add_of_lt (by omega), Word.add_of_lt (by omega)⟩
  · have hsmall := (hsound r hr).credited.small
    have hle := readOffset_add_unread (hsound r hr)
    exact ⟨Word.add_of_lt (by omega), Word.add_of_lt (by omega)⟩

theorem takeControl_maxData (hcontrol : ∀ f ∈ c.control, queuedFrame f = true) {now : Time}
    {f : MaxData} (hf : .maxData f ∈ (c.takeControl now).2) : f.max = c.recvMax := by
  cases pending_of_takeControl hf with
  | queued hf => exact absurd (hcontrol _ hf) Bool.false_ne_true
  | maxData => rfl

theorem takeControl_maxStreamData {now : Time} {f : MaxStreamData}
    (hf : .maxStreamData f ∈ (c.takeControl now).2) : .maxStreamData f ∈ c.control := by
  cases pending_of_takeControl hf with
  | queued hf => exact hf

end Conn

namespace Endpoint

section

variable [Quicvarint] [GoAppend]

/-- In every state of an open connection, whatever its peer sent, credit is
conserved as long as the peer's total is below `2 ^ 63`. -/
theorem credit_conserved (config : Option Config) (isServer : Bool) {e : Endpoint}
    (hreach : Reachable (Config.normalized config) isServer e)
    (hopen : e.conn.closeErr = none) (htotal : e.conn.totalReceived < 2 ^ 63) :
    e.conn.CreditConserved := by
  obtain ⟨labels, hrun⟩ := hreach
  have hvalid := Config.normalized_valid config
  obtain ⟨_, _, t, htraced⟩ := traced hvalid hrun
  have hhistory := htraced.past.history
  have hconfig := hhistory.config.1
  refine Conn.creditConserved (hhistory.ordered hvalid) hopen ?_ (hhistory.balanced hvalid ?_)
  · rw [hconfig]
    exact hhistory.streams_sound hvalid
  · have hwindow : e.conn.config.connectionWindow ≤ maxVarint := by
      rw [hconfig]
      exact hvalid.connectionWindow_le
    have : maxVarint = 2 ^ 62 - 1 := rfl
    omega

/-- When everything received was consumed the peer has credit left, and when
everything of a stream was read it has credit left on the stream, exactly if
the window is at least two or nothing was sent yet. The limit it has is
declared in the parameters, on its way, or about to be sent. -/
theorem credit_open_iff (config : Option Config) (isServer : Bool) {e : Endpoint}
    (hreach : Reachable (Config.normalized config) isServer e)
    (hopen : e.conn.closeErr = none)
    (htotal : e.conn.totalReceived + (Config.normalized config).connectionWindow < 2 ^ 64) :
    (e.conn.consumed = e.conn.received →
      (e.conn.received < e.conn.recvMax ↔
        2 ≤ (Config.normalized config).connectionWindow ∨ e.conn.received = 0)) ∧
    (∀ r < e.conn.count, (e.conn.heap r).canRecv = true → (e.conn.heap r).finRecv = false →
      (e.conn.heap r).recvReset = false → (e.conn.heap r).readCancelled = false →
      (e.conn.heap r).readOffset = (e.conn.heap r).recvOffset →
      ((e.conn.heap r).recvOffset < (e.conn.heap r).recvMax ↔
        2 ≤ (Config.normalized config).streamWindow ∨ (e.conn.heap r).recvOffset = 0)) ∧
    (e.failed = false → ∀ now,
      (e.conn.recvMax = (Config.normalized config).connectionWindow ∨
        .maxData ⟨e.conn.recvMax⟩ ∈
          e.sent ++ e.writeMu.pending ++ (e.conn.takeControl now).2) ∧
      ∀ r < e.conn.count, (e.conn.heap r).canRecv = true →
        (e.conn.heap r).recvMax = (Config.normalized config).streamWindow ∨
          .maxStreamData ⟨(e.conn.heap r).id, (e.conn.heap r).recvMax⟩ ∈
            e.sent ++ e.writeMu.pending ++ (e.conn.takeControl now).2) := by
  obtain ⟨labels, hrun⟩ := hreach
  have hvalid := Config.normalized_valid config
  obtain ⟨_, _, t, htraced⟩ := traced hvalid hrun
  have hhistory := htraced.past.history
  have hconfig := hhistory.config.1
  have hbalanced := hhistory.balanced hvalid
  unfold Conn.Balanced at hbalanced
  rw [hconfig] at hbalanced
  refine ⟨fun hall => ?_, fun r hr hcan hfin hreset hcancel hread => ?_, fun hok now => ?_⟩
  · have hiff := (hbalanced htotal).ample.lt_limit_iff hvalid.connectionWindow_pos
    change e.conn.consumed < e.conn.recvMax ↔ _ ∨ e.conn.consumed = 0 at hiff
    rw [hall] at hiff
    exact hiff
  · have hcredited := (hhistory.streams_sound hvalid r hr).credited
    have hample : (e.conn.heap r).window.Ample (Config.normalized config).streamWindow :=
      ⟨hcredited.half hcan hfin, hcredited.max_le, hcredited.still hcan⟩
    have hiff := hample.lt_limit_iff hvalid.streamWindow_pos
    change (e.conn.heap r).readOffset < (e.conn.heap r).recvMax ↔
      _ ∨ (e.conn.heap r).readOffset = 0 at hiff
    rw [hread] at hiff
    exact hiff
  · obtain ⟨rest, hlog, hrest⟩ := htraced.wire
    have htold := hhistory.limitsTold hvalid
    have htake : (e.conn.takeControl now).2 = e.conn.controlFrames := by
      unfold Conn.takeControl
      rw [hopen]
      rfl
    rw [hrest hok] at hlog
    rw [← hconfig] at htotal
    rw [htake, ← hlog, ← hconfig]
    refine ⟨?_, fun r hr hcan => ((htold.stream r hr hcan).value_mem rfl).imp_right (fun h => ?_)⟩
    · cases hpending : e.conn.maxDataPending with
      | true => exact Or.inr (List.mem_append_right _ (by simp [Conn.controlFrames, hpending]))
      | false =>
          refine ((htold.data htotal).value_mem hpending).imp_right (fun h => ?_)
          exact List.mem_append_left _ (Frame.mem_maxData? h)
    · rcases List.mem_append.mp (Frame.mem_maxStreamData? h) with hhanded | hqueued
      · exact List.mem_append_left _ hhanded
      · exact List.mem_append_right _ (by simp [Conn.controlFrames, hqueued])

/-- As long as a window more than what the peer has sent can be encoded, on the
connection and on every stream, every limit that is to be sent can be encoded
and no addition wraps. -/
theorem limits_encodable (config : Option Config) (isServer : Bool) {e : Endpoint}
    (hreach : Reachable (Config.normalized config) isServer e)
    (htotal : e.conn.totalReceived + (Config.normalized config).connectionWindow ≤ maxVarint)
    (hstreams : ∀ r < e.conn.count,
      (e.conn.heap r).recvOffset + (Config.normalized config).streamWindow ≤ maxVarint) :
    (∀ now f, .maxData f ∈ (e.conn.takeControl now).2 → f.max ≤ maxVarint) ∧
    (∀ now f, .maxStreamData f ∈ (e.conn.takeControl now).2 → f.max ≤ maxVarint) ∧
    e.conn.AdditionsExact := by
  obtain ⟨labels, hrun⟩ := hreach
  have hvalid := Config.normalized_valid config
  obtain ⟨_, _, t, htraced⟩ := traced hvalid hrun
  have hhistory := htraced.past.history
  have hconfig := hhistory.config.1
  have hsound := hhistory.streams_sound hvalid
  have hwarrants := hhistory.warrants hvalid
  rw [← hconfig] at htotal hstreams hsound
  have hbalanced := hhistory.balanced hvalid (by
    have : maxVarint = 2 ^ 62 - 1 := rfl
    omega)
  refine ⟨fun now f hf => ?_, fun now f hf => ?_, Conn.additionsExact hsound hbalanced htotal
    (hconfig ▸ hvalid.streamWindow_le)⟩
  · have hmax : f.max = e.conn.recvMax := Conn.takeControl_maxData hhistory.control hf
    have hwhole : e.conn.recvMax ≤ e.conn.consumed + e.conn.config.connectionWindow :=
      hbalanced.ample.whole
    have hsum : e.conn.received = e.conn.consumed +
        Heap.total e.conn.ledger.waiting e.conn.count id := hbalanced.waiting
    have hreceived : e.conn.received = e.conn.totalReceived := hbalanced.arrived
    omega
  · obtain ⟨r, hr, -, -, hle⟩ :=
      hwarrants _ (List.mem_append_right _ (Conn.takeControl_maxStreamData hf))
    have hmax := (hsound r hr).credited.max_le
    have hread := (hsound r hr).credited.read_le
    have hstream := hstreams r hr
    omega

end

end Endpoint

section Runs

/-- A peer sends one byte on a stream, and the application reads it. -/
def oneByte : List Action :=
  [.record ((Frame.transportParameters {}).append.getD []) 0,
    .record ((Frame.stream ⟨2, 0, [7], false⟩).append.getD []) 0, .call (.tryAccept .uni),
    .call (.tryRead 0 1)]

theorem credit_conserved_oneByte :
    ∃ e : Endpoint, e.Reachable (Config.normalized none) true ∧ e.conn.closeErr = none ∧
      e.conn.totalReceived = 1 ∧ e.conn.CreditConserved := by
  have hrun : (Machine.run Endpoint.step (Endpoint.new (Config.normalized none) true)
      oneByte).map (fun e => (e.conn.closeErr, e.conn.totalReceived)) = some (none, 1) := by
    decide +kernel
  obtain ⟨e, hrun, hstate⟩ := Option.map_eq_some_iff.mp hrun
  obtain ⟨hopen, htotal⟩ := Prod.mk.inj hstate
  exact ⟨e, ⟨_, hrun⟩, hopen, htotal, Endpoint.credit_conserved none true ⟨_, hrun⟩ hopen
    (by rw [htotal]; decide)⟩

theorem credit_open_oneByte :
    ∃ e : Endpoint, e.Reachable (Config.normalized none) true ∧ e.conn.closeErr = none ∧
      e.conn.consumed = e.conn.received ∧ e.conn.received < e.conn.recvMax := by
  have hrun : (Machine.run Endpoint.step (Endpoint.new (Config.normalized none) true)
      oneByte).map (fun e => (e.conn.closeErr, e.conn.totalReceived, e.conn.consumed,
        e.conn.received)) = some (none, 1, 1, 1) := by
    decide +kernel
  obtain ⟨e, hrun, hstate⟩ := Option.map_eq_some_iff.mp hrun
  simp only [Prod.mk.injEq] at hstate
  obtain ⟨hopen, htotal, hconsumed, hreceived⟩ := hstate
  have hall : e.conn.consumed = e.conn.received := hconsumed.trans hreceived.symm
  have hiff := (Endpoint.credit_open_iff none true ⟨_, hrun⟩ hopen
    (by rw [htotal]; decide)).1 hall
  exact ⟨e, ⟨_, hrun⟩, hopen, hall, hiff.mpr (Or.inl (by decide))⟩

/-- With windows of one, everything was read and nothing is left to send, but
the peer has no credit, neither on the stream nor on the connection. -/
theorem credit_stuck :
    ∃ e : Endpoint, e.Reachable (Config.normalized (some
        { initialStreamReceiveWindow := 1, initialConnectionReceiveWindow := 1 })) true ∧
      e.conn.closeErr = none ∧ e.conn.consumed = e.conn.received ∧
      ¬ e.conn.received < e.conn.recvMax ∧ (e.conn.heap 0).canRecv = true ∧
      (e.conn.heap 0).finRecv = false ∧ (e.conn.heap 0).recvReset = false ∧
      (e.conn.heap 0).readCancelled = false ∧
      (e.conn.heap 0).readOffset = (e.conn.heap 0).recvOffset ∧
      ¬ (e.conn.heap 0).recvOffset < (e.conn.heap 0).recvMax ∧
      (e.conn.takeControl 0).2 = [] := by
  have hrun : (Machine.run Endpoint.step (Endpoint.new (Config.normalized (some
      { initialStreamReceiveWindow := 1, initialConnectionReceiveWindow := 1 })) true)
      oneByte).map (fun e => decide (e.conn.closeErr = none ∧
        e.conn.consumed = e.conn.received ∧ ¬ e.conn.received < e.conn.recvMax ∧
        (e.conn.heap 0).canRecv = true ∧ (e.conn.heap 0).finRecv = false ∧
        (e.conn.heap 0).recvReset = false ∧ (e.conn.heap 0).readCancelled = false ∧
        (e.conn.heap 0).readOffset = (e.conn.heap 0).recvOffset ∧
        ¬ (e.conn.heap 0).recvOffset < (e.conn.heap 0).recvMax ∧
        (e.conn.takeControl 0).2 = [])) = some true := by
    decide +kernel
  obtain ⟨e, hrun, hstate⟩ := Option.map_eq_some_iff.mp hrun
  exact ⟨e, ⟨_, hrun⟩, of_decide_eq_true hstate⟩

theorem limits_encodable_oneByte :
    ∃ e : Endpoint, e.Reachable (Config.normalized none) true ∧ e.conn.totalReceived = 1 ∧
      e.conn.AdditionsExact := by
  have hrun : (Machine.run Endpoint.step (Endpoint.new (Config.normalized none) true)
      oneByte).map (fun e => (e.conn.totalReceived, e.conn.count,
        (e.conn.heap 0).recvOffset)) = some (1, 1, 1) := by
    decide +kernel
  obtain ⟨e, hrun, hstate⟩ := Option.map_eq_some_iff.mp hrun
  simp only [Prod.mk.injEq] at hstate
  obtain ⟨htotal, hcount, hoffset⟩ := hstate
  refine ⟨e, ⟨_, hrun⟩, htotal, (Endpoint.limits_encodable none true ⟨_, hrun⟩
    (by rw [htotal]; decide) (fun r hr => ?_)).2.2⟩
  obtain rfl : r = 0 := by omega
  rw [hoffset]
  decide

/-- The largest windows a configuration admits. -/
def widest : Config :=
  Config.normalized (some
    { initialStreamReceiveWindow := .ofNat maxVarint
      initialConnectionReceiveWindow := .ofNat maxVarint })

/-- A peer resets the streams `ids`, each with the final size `size`. -/
def resets (ids : List Nat) (size : Nat) : List Action :=
  .record ((Frame.transportParameters {}).append.getD []) 0 ::
    ids.map (fun id => .record ((Frame.resetStream ⟨id, 0, size⟩).append.getD []) 0)

/-- With the largest windows, one RESET_STREAM takes the limit past what the
encoder takes, and four wrap it. -/
theorem limits_unencodable :
    (∃ (e : Endpoint) (f : MaxData), e.Reachable widest true ∧ e.conn.closeErr = none ∧
      .maxData f ∈ (e.conn.takeControl 0).2 ∧ maxVarint < f.max ∧ f.append = none) ∧
    ∃ e : Endpoint, e.Reachable widest true ∧ e.conn.closeErr = none ∧
      e.conn.recvMax < e.conn.consumed := by
  refine ⟨?_, ?_⟩
  · have hrun : (Machine.run Endpoint.step (Endpoint.new widest true)
        (resets [2] (2 ^ 61 + 1))).map (fun e => (e.conn.closeErr, (e.conn.takeControl 0).2)) =
          some (none, [.maxData ⟨3 * 2 ^ 61⟩]) := by
      decide +kernel
    obtain ⟨e, hrun, hstate⟩ := Option.map_eq_some_iff.mp hrun
    obtain ⟨hopen, hframes⟩ := Prod.mk.inj hstate
    refine ⟨e, ⟨3 * 2 ^ 61⟩, ⟨_, hrun⟩, hopen, ?_, by decide, by decide +kernel⟩
    rw [hframes]
    exact List.mem_singleton_self _
  · have hrun : (Machine.run Endpoint.step (Endpoint.new widest true)
        (resets [2, 6, 10, 14] (2 ^ 62 - 1))).map
          (fun e => (e.conn.closeErr, e.conn.recvMax, e.conn.consumed)) =
          some (none, 2 ^ 62 - 5, 4 * (2 ^ 62 - 1)) := by
      decide +kernel
    obtain ⟨e, hrun, hstate⟩ := Option.map_eq_some_iff.mp hrun
    simp only [Prod.mk.injEq] at hstate
    obtain ⟨hopen, hmax, hconsumed⟩ := hstate
    exact ⟨e, ⟨_, hrun⟩, hopen, by rw [hmax, hconsumed]; decide⟩

end Runs

end Qmux
