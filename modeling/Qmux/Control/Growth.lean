import Qmux.Conn.Handlers
import Qmux.Conn.Ids
import Qmux.Endpoint
import Qmux.Records

/-!
A client that makes the control queue of a server grow. It opens a stream, ends
it at once, and refuses what the server would send on it: the server queues a
RESET_STREAM. The application accepts the stream, which is then over, so the
client may open the next one, although nothing the server queued was ever
written.
-/

namespace Qmux

open Wire

namespace Conn

/-- The client has had `n` streams come and go, with a frame left in the queue for
each of them. -/
structure Cycled (config : Config) (n : Nat) (c : Conn) : Prop where
  configured : c.config = config
  isServer : c.isServer = true
  closeErr : c.closeErr = none
  ready : c.ready = true
  received : c.received = 0
  next : (c.incoming .bidi).next = n
  max : (c.incoming .bidi).max = config.incomingLimit .bidi + n
  queue : (c.incoming .bidi).queue = []
  control : c.control.length = n
  out : ∀ dir, (c.out dir).next = 0

/-- The client has opened its next stream `r` and ended it. -/
structure Opened (config : Config) (n : Nat) (r : Ref) (c : Conn) : Prop where
  configured : c.config = config
  isServer : c.isServer = true
  closeErr : c.closeErr = none
  ready : c.ready = true
  received : c.received = 0
  next : (c.incoming .bidi).next = n + 1
  max : (c.incoming .bidi).max = config.incomingLimit .bidi + n
  queue : (c.incoming .bidi).queue = [r]
  out : ∀ dir, (c.out dir).next = 0
  found : c.streams (4 * n) = some r
  id : (c.heap r).id = 4 * n
  done : (c.heap r).done = false
  accepted : (c.heap r).accepted = false
  recvDone : (c.heap r).recvDone = true

section Cycle

variable {config : Config} {n : Nat} {c : Conn}

private theorem dir_eq (n : Nat) : streamDir (4 * n) = .bidi := by
  rw [streamDir_eq_bidi]
  omega

private theorem peer_initiated (hserver : c.isServer = true) (n : Nat) :
    c.initiatedLocally (4 * n) = false := by
  unfold initiatedLocally
  rw [hserver, initiatedLocally_eq, decide_eq_false (by omega)]
  rfl

private theorem id_eq (hserver : c.isServer = true) (hn : n < 2 ^ 60) :
    c.streamID n .bidi false = 4 * n := by
  unfold streamID
  rw [hserver, streamID_eq true (by omega)]
  rfl

private theorem streamLocked_eq (hserver : c.isServer = true)
    (hmax : n < (c.incoming .bidi).max) (recv : Bool) :
    c.streamLocked (4 * n) recv =
      (c.openThrough .bidi n, .ok ((c.openThrough .bidi n).streams (4 * n))) := by
  have hindex : (4 * n) >>> 2 = n := by
    rw [Nat.shiftRight_eq_div_pow]
    omega
  unfold streamLocked
  simp only [dir_eq, peer_initiated hserver, hindex, reduceCtorEq, false_and, if_false,
    Bool.false_eq_true]
  rw [if_neg (by omega)]

private theorem completeLocked_unaccepted {r : Ref} (haccepted : (c.heap r).accepted = false) :
    c.completeLocked r = c := by
  simp [completeLocked, haccepted]

/-- The stream is opened and ended by one frame. -/
theorem Cycled.stream [GoAppend] (h : c.Cycled config n) (hlimit : 1 ≤ config.incomingLimit .bidi) (hn : n < 2 ^ 60) :
    ∃ c', c.handleStreamLocked ⟨4 * n, 0, [], true⟩ = (c', none) ∧
      c'.Opened config n c.count ∧ c'.control.length = n ∧
      (c'.heap c.count).sendDone = false := by
  have hopened : c.openThrough .bidi n = c.openIncoming .bidi := by
    unfold openThrough
    rw [h.next, Nat.add_sub_cancel_left]
    rfl
  have hid := id_eq h.isServer hn
  have hheap : (c.openIncoming .bidi).heap c.count = c.newStream (4 * n) := by
    simp [openIncoming, newStreamLocked, setIncoming, h.next, hid]
  have hfound : (c.openIncoming .bidi).streams (4 * n) = some c.count := by
    simp [openIncoming, newStreamLocked, setIncoming, h.next, hid, newStream]
  have hreceived : (c.openIncoming .bidi).receivedLocked 0 =
      .ok { c.openIncoming .bidi with received := 0 } := by
    have hzero : (c.openIncoming .bidi).received = 0 := h.received
    simp [receivedLocked, hzero, Word.add]
  let s := (c.newStream (4 * n)).takeData ⟨4 * n, 0, [], true⟩
  let c' := ({ c.openIncoming .bidi with received := 0 } : Conn).setStream c.count s
  have hs : c'.heap c.count = s := Function.update_self ..
  have haccepted : s.accepted = false := by
    simp [s, newStream, Stream.takeData, Stream.bufferLocked]
  refine ⟨c', ?_, ?_, h.control, ?_⟩
  · unfold handleStreamLocked
    dsimp only
    rw [streamLocked_eq h.isServer (by rw [h.max]; omega), hopened, hfound]
    dsimp only
    have hblank : (c.newStream (4 * n)).recvOffset = 0 ∧ (c.newStream (4 * n)).finRecv = false ∧
        (c.newStream (4 * n)).recvReset = false ∧ (c.newStream (4 * n)).readCancelled = false :=
      ⟨rfl, rfl, rfl, rfl⟩
    have htaken : ({ c.openIncoming .bidi with received := 0 } : Conn).takeData c.count
        ⟨4 * n, 0, [], true⟩ = c' := by
      unfold takeData
      simp only [hheap, hblank.2.2.2, Bool.false_eq_true, if_false]
      rfl
    have hunaccepted : (c'.heap c.count).accepted = false := by
      rw [hs, haccepted]
    simp [hblank, hheap, hreceived, htaken, completeLocked_unaccepted hunaccepted, Word.add]
  · have hnext := openIncoming_incoming c .bidi
    constructor
    · exact h.configured
    · exact h.isServer
    · exact h.closeErr
    · exact h.ready
    · rfl
    · change ((c.openIncoming .bidi).incoming .bidi).next = _
      rw [hnext.1, h.next, Word.add_of_lt (by omega)]
    · exact hnext.2.trans h.max
    · simp [c', setStream, openIncoming, setIncoming, h.queue]
    · exact h.out
    · exact hfound
    · rw [hs]
      simp [s, newStream, Stream.takeData, Stream.bufferLocked]
    · rw [hs]
      simp [s, newStream, Stream.takeData, Stream.bufferLocked]
    · rw [hs, haccepted]
    · rw [hs]
      simp [s, newStream, Stream.takeData, Stream.bufferLocked, Stream.recvDone, Slice.append]
  · rw [hs]
    simp [s, newStream, Stream.takeData, Stream.bufferLocked, Stream.sendDone, dir_eq]

/-- The server resets the stream, and queues the frame that says so. -/
theorem Opened.stopSending {r : Ref} (h : c.Opened config n r) (hlimit : 1 ≤ config.incomingLimit .bidi)
    (hcontrol : c.control.length = n) (hsending : (c.heap r).sendDone = false) :
    ∃ c', c.handleStopSending ⟨4 * n, 0⟩ = (c', none) ∧
      c'.Opened config n r ∧ c'.control.length = n + 1 ∧ (c'.heap r).sendDone = true := by
  have hopened : c.openThrough .bidi n = c := by
    unfold openThrough
    rw [h.next, Nat.sub_self]
    rfl
  let s := { c.heap r with
    sendErr := some ⟨(c.heap r).id, 0, true⟩
    writeSignal := (c.heap r).writeSignal.broadcast }
  let c' := (c.setStream r s).queueLocked
    (.resetStream ⟨(c.heap r).id, 0, (c.heap r).sendOffset⟩)
  have hs : c'.heap r = s := Function.update_self ..
  have hunaccepted : (c'.heap r).accepted = false := by
    rw [hs]
    exact h.accepted
  refine ⟨c', ?_, ⟨h.configured, h.isServer, h.closeErr, h.ready, h.received, h.next, h.max, h.queue, h.out,
    h.found, ?_, ?_, hunaccepted, ?_⟩, ?_, ?_⟩
  · unfold handleStopSending
    rw [streamLocked_eq h.isServer (by rw [h.max]; omega), hopened, h.found]
    dsimp only [stopSendingLocked]
    unfold resetSendLocked
    dsimp only
    rw [hsending]
    simp only [Bool.false_eq_true, if_false]
    exact congrArg (fun d => (d, none)) (completeLocked_unaccepted hunaccepted)
  · rw [hs]
    exact h.id
  · rw [hs]
    exact h.done
  · rw [hs]
    exact h.recvDone
  · change (c.control ++ [_]).length = n + 1
    rw [List.length_append, hcontrol, List.length_singleton]
  · rw [hs]
    simp [s, Stream.sendDone]

/-- The application accepts the stream, which is over: the client may open
another one. -/
theorem Opened.accept {r : Ref} (h : c.Opened config n r) (hbound : config.incomingLimit .bidi + n < 2 ^ 62)
    (hcontrol : c.control.length = n + 1) (hsent : (c.heap r).sendDone = true) :
    (c.tryAccept .bidi).1.Cycled config (n + 1) := by
  let d := (c.setIncoming .bidi { c.incoming .bidi with queue := [] }).setStream r
    { c.heap r with accepted := true }
  have haccepted : (c.tryAccept .bidi).1 = d.completeLocked r := by
    unfold tryAccept
    rw [h.closeErr]
    dsimp only
    rw [h.queue]
    rfl
  have hs : d.heap r = { c.heap r with accepted := true } := Function.update_self ..
  have hid : (d.heap r).id = 4 * n := by
    rw [hs]
    exact h.id
  have hover : ((d.heap r).done || !(d.heap r).accepted || !(d.heap r).recvDone ||
      !(d.heap r).sendDone) = false := by
    rw [hs]
    have hrecv : Stream.recvDone { c.heap r with accepted := true } = true := h.recvDone
    have hsend : Stream.sendDone { c.heap r with accepted := true } = true := hsent
    rw [hrecv, hsend]
    simp [h.done]
  have hpeer : d.initiatedLocally (4 * n) = false := peer_initiated (c := d) h.isServer n
  rw [haccepted]
  unfold completeLocked
  dsimp only
  rw [hover, hid, hpeer, dir_eq]
  simp only [Bool.false_eq_true, if_false]
  refine ⟨h.configured, h.isServer, h.closeErr, h.ready, h.received, ?_, ?_, ?_, hcontrol, h.out⟩
  · simp [d, setIncoming, setStream, wakeWriter, h.next]
  · simp [d, setIncoming, setStream, wakeWriter, h.max, Word.add]
    omega
  · simp [d, setIncoming, setStream, wakeWriter]

end Cycle

end Conn

/-- The peer sends a record, or the application accepts a stream. -/
def Action.FromOutside : Action → Prop
  | .record _ _ | .call (.tryAccept _) => True
  | _ => False

namespace Endpoint

variable [Quicvarint] [GoAppend] {config : Config} {n : Nat} {e : Endpoint}

/-- A record of one frame that the connection accepts. -/
private theorem step_frame {f : Frame} {rec : Bytes} {now : Time} {c : Conn}
    (happend : f.append = some rec) (hf : f.Acceptable)
    (hsize : rec.length ≤ e.conn.config.maxRecordSize.toNat) (hreading : e.reader = .reading)
    (hopen : e.conn.closeErr = none)
    (hhandle : e.conn.handleFrameLocked (.frame f.received) now = (c, none)) :
    step e (.record rec now) = some { e with conn := c } := by
  have hparse := parse_append happend hf []
  rw [List.append_nil] at hparse
  have hne : rec ≠ [] := by
    rintro rfl
    exact absurd (parse_bounded hparse).2 (by simp)
  have hrecord : e.conn.handleRecord rec now = (c, none) := by
    rw [Conn.handleRecord_eq, if_neg (by simp [hne, hopen]), hparse]
    dsimp only
    rw [hhandle]
    rfl
  simp only [step, hreading, if_true, receive, if_neg (not_lt.mpr hsize), hrecord]

/-- One more stream comes and goes. -/
private theorem cycle (hconfig : config.Valid) (hlimit : 1 ≤ config.incomingLimit .bidi)
    (hreading : e.reader = .reading) (h : e.conn.Cycled config n) (hn : n < 2 ^ 60) :
    ∃ labels e', Machine.run step e labels = some e' ∧ (∀ a ∈ labels, a.FromOutside) ∧
      e'.reader = .reading ∧ e'.conn.Cycled config (n + 1) := by
  have hid : 4 * n ≤ maxVarint := by
    have : maxVarint = 2 ^ 62 - 1 := rfl
    omega
  have hrecord : 25 ≤ config.maxRecordSize.toNat := le_trans (by decide) hconfig.recordSize_ge
  have hbound : config.incomingLimit .bidi + n < 2 ^ 62 := by
    have hmax : config.incomingLimit .bidi ≤ maxStreams := hconfig.incoming_le
    have : maxStreams = 2 ^ 60 := rfl
    omega
  obtain ⟨first, hfirst⟩ := Frame.Fits.exists_append (f := .stream ⟨4 * n, 0, [], true⟩)
    ⟨hid, Nat.zero_le _, Nat.zero_le _⟩
  obtain ⟨second, hsecond⟩ := Frame.Fits.exists_append (f := .stopSending ⟨4 * n, 0⟩)
    ⟨hid, Nat.zero_le _⟩
  have hfirstLen : first.length ≤ 25 := Wire.Stream.append_length hfirst
  have hsecondLen : second.length ≤ 25 :=
    (StopSending.append_length hsecond).trans (by decide)
  obtain ⟨c₁, hstream, hopened, hcontrol, hsending⟩ := h.stream hlimit hn
  obtain ⟨c₂, hstop, hstopped, hqueued, hsent⟩ := hopened.stopSending hlimit hcontrol hsending
  have hstep₁ : step e (.record first 0) = some { e with conn := c₁ } := by
    apply step_frame hfirst trivial _ hreading h.closeErr
    · simp [Conn.handleFrameLocked, Frame.received, h.ready, Conn.handleOtherLocked, hstream]
    · rw [h.configured]
      exact hfirstLen.trans hrecord
  have hstep₂ : step { e with conn := c₁ } (.record second 0) = some { e with conn := c₂ } := by
    apply step_frame (e := { e with conn := c₁ }) hsecond trivial _ hreading hopened.closeErr
    · simp [Conn.handleFrameLocked, Frame.received, hopened.ready, Conn.handleOtherLocked, hstop]
    · rw [hopened.configured]
      exact hsecondLen.trans hrecord
  refine ⟨[.record first 0, .record second 0, .call (.tryAccept .bidi)],
    { e with conn := (c₂.tryAccept .bidi).1 }, ?_, ?_, hreading,
    hstopped.accept hbound hqueued hsent⟩
  · simp only [Machine.run, hstep₁, hstep₂, Option.bind_some]
    rfl
  · simp [Action.FromOutside]

/-- Any number of streams come and go. -/
theorem cycles (hconfig : config.Valid) (hlimit : 1 ≤ config.incomingLimit .bidi) (n : Nat)
    (hn : n ≤ 2 ^ 60) :
    ∃ labels e, Machine.run step (new config true) labels = some e ∧
      (∀ a ∈ labels, a.FromOutside) ∧ e.reader = .reading ∧ e.conn.Cycled config n := by
  induction n with
  | zero =>
      obtain ⟨rec, hrec⟩ := Frame.Fits.exists_append (f := .transportParameters {})
        (fun f => by cases f <;> decide)
      have hlen := TransportParameters.append_length hrec
      have hstep : step (new config true) (.record rec 0) =
          some { new config true with
            conn := (Conn.new config true).handleParametersLocked (Parameters.received {}) } := by
        apply step_frame hrec _ _ rfl rfl
        · rfl
        · exact ⟨by decide, by decide, Or.inl rfl⟩
        · exact hlen.trans (le_trans (by decide) hconfig.recordSize_ge)
      refine ⟨[.record rec 0], _, by rw [Machine.run, hstep]; rfl, ?_, rfl, ?_⟩
      · simp [Action.FromOutside]
      · exact ⟨rfl, rfl, rfl, rfl, rfl, rfl, rfl, rfl, rfl, fun _ => rfl⟩
  | succ n ih =>
      obtain ⟨labels, e, hrun, hlabels, hreading, hcycled⟩ := ih (by omega)
      obtain ⟨more, e', hmore, houtside, hreading', hcycled'⟩ :=
        cycle hconfig hlimit hreading hcycled (by omega)
      refine ⟨labels ++ more, e', ?_, ?_, hreading', hcycled'⟩
      · rw [Machine.run_append, hrun]
        exact hmore
      · intro a ha
        exact (List.mem_append.mp ha).elim (hlabels a) (houtside a)

end Endpoint

end Qmux
