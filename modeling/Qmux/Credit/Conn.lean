import Qmux.Credit.Stream
import Qmux.Lib.Ledger
import Qmux.Registry.Table

/-!
The accounts of the receiving side of a connection are a ledger: an account
for each stream ever opened, behind the connection's window. Every move keeps
it balanced, up to the point where the total would wrap.
-/

namespace Qmux

open Wire

namespace Conn

/-- The connection's window: the limit the peer was given, over what was
consumed. -/
def window (c : Conn) : Window :=
  ⟨c.recvMax, c.consumed⟩

def ledger (c : Conn) : Ledger where
  received := c.received
  window := c.window
  count := c.count
  arrived r := (c.heap r).recvOffset
  waiting r := (c.heap r).unread.length

/-- What the peer has sent in total, on all streams ever opened: data, and what
a reset declared and skipped. -/
def totalReceived (c : Conn) : Nat :=
  Heap.total c.heap c.count Stream.recvOffset

/-- The ledger is balanced, unless the total has come too close to the end of a
`uint64` for its additions. -/
def Balanced (c : Conn) : Prop :=
  c.totalReceived + c.config.connectionWindow < 2 ^ 64 →
    c.ledger.Balanced c.config.connectionWindow

/-- What a move does to the accounts: the total grows, the ledger stays balanced
and the limit of the peer is not taken back. -/
structure Accounted (c c' : Conn) : Prop where
  config : c'.config = c.config
  total_le : c.totalReceived ≤ c'.totalReceived
  balanced : c'.totalReceived + c.config.connectionWindow < 2 ^ 64 →
    c.ledger.Balanced c.config.connectionWindow →
      c'.ledger.Balanced c.config.connectionWindow ∧ c.recvMax ≤ c'.recvMax

section Accounts

variable {c c' : Conn} {r : Ref}

theorem totalReceived_eq (c : Conn) :
    c.totalReceived = Heap.total c.ledger.arrived c.ledger.count id := rfl

theorem Accounted.same (hconfig : c'.config = c.config) (hledger : c'.ledger = c.ledger) :
    c.Accounted c' := by
  have hmax : c'.recvMax = c.recvMax := congrArg (fun l => l.window.limit) hledger
  refine ⟨hconfig, ?_, fun _ h => ⟨hledger.symm ▸ h, hmax.ge⟩⟩
  rw [totalReceived_eq, totalReceived_eq, hledger]

theorem Accounted.of_core (hcore : c'.core = c.core) : c.Accounted c' := by
  have hconfig := congrArg Conn.config hcore
  have hledger := congrArg ledger hcore
  exact .same hconfig hledger

private theorem ledger_newStreamLocked {s : Stream} (hoffset : s.recvOffset = 0)
    (hunread : s.unread = []) : (c.newStreamLocked s).ledger = c.ledger.alloc := by
  have harrived := Heap.map_update Stream.recvOffset c.heap c.count s
  have hwaiting := Heap.map_update (fun s => s.unread.length) c.heap c.count s
  rw [hoffset] at harrived
  rw [hunread] at hwaiting
  unfold ledger newStreamLocked Ledger.alloc
  dsimp only
  rw [harrived, hwaiting]
  rfl

theorem Accounted.newStreamLocked {s : Stream} (hconfig : c'.config = c.config)
    (hledger : c'.ledger = (c.newStreamLocked s).ledger) (hoffset : s.recvOffset = 0)
    (hunread : s.unread = []) : c.Accounted c' := by
  rw [ledger_newStreamLocked hoffset hunread] at hledger
  have hmax : c'.recvMax = c.recvMax := congrArg (fun l => l.window.limit) hledger
  refine ⟨hconfig, ?_, fun _ h => ⟨hledger.symm ▸ h.alloc, hmax.ge⟩⟩
  rw [totalReceived_eq c', hledger, Ledger.total_alloc]
  exact Nat.le_refl _

/-- Forgetting a stream does not touch the accounts: nothing of it was left to
read. -/
theorem completeLocked_ledger {size : Nat} (htidy : (c.heap r).Tidy)
    (hcredited : (c.heap r).Credited size) : (c.completeLocked r).ledger = c.ledger := by
  have hsame (hrecv : (c.heap r).recvDone = true) :
      (fun i => (Function.update c.heap r { c.heap r with done := true, rbuf := .nil } i
        ).unread.length) = fun i => (c.heap i).unread.length := by
    refine Heap.map_update_of_eq (fun s => s.unread.length) c.heap r _ ?_
    rw [hcredited.unread_of_done htidy hrecv]
    exact congrArg List.length List.drop_nil
  have harrived := Heap.map_update_of_eq Stream.recvOffset c.heap r
    { c.heap r with done := true, rbuf := .nil } rfl
  unfold completeLocked
  dsimp only
  split_ifs with hkeep
  · rfl
  all_goals
    simp only [Bool.or_eq_true, Bool.not_eq_true', not_or, Bool.not_eq_false] at hkeep
    unfold ledger
    simp only [wakeWriter, setIncoming]
    rw [hsame hkeep.1.2, harrived]
    rfl

/-- `consumeLocked` moves the window. -/
theorem consumeLocked_window {n : Nat} (hmax : c.recvMax < 2 ^ 64)
    (hn : c.consumed + n ≤ c.recvMax)
    (hwindow : c.consumed + n + c.config.connectionWindow < 2 ^ 64) :
    (c.consumeLocked n).window = c.window.consume c.config.connectionWindow n := by
  have hadd : Word.add c.consumed n = c.consumed + n := Word.add_of_lt (by omega)
  have hsub : Word.sub c.recvMax (c.consumed + n) = c.recvMax - (c.consumed + n) :=
    Word.sub_of_le hn hmax
  unfold consumeLocked Window.consume
  simp only [hadd, hsub, Word.add_of_lt hwindow]
  change _ = if c.recvMax - (c.consumed + n) < c.config.connectionWindow / 2 then _ else _
  split_ifs <;> rfl

theorem consumeLocked_received (c : Conn) (n : Nat) :
    (c.consumeLocked n).received = c.received := by
  unfold consumeLocked
  dsimp only
  split_ifs <;> rfl

/-- The accounts after a stream changed. -/
theorem Touches.ledger {d : Conn} {s : Stream} {frames : List Frame}
    (h : c.Touches r s frames d) : d.ledger =
      { c.ledger with
        received := d.received
        window := d.window
        arrived := Function.update c.ledger.arrived r s.recvOffset
        waiting := Function.update c.ledger.waiting r s.unread.length } := by
  have harrived := Heap.map_update Stream.recvOffset c.heap r s
  have hwaiting := Heap.map_update (fun s => s.unread.length) c.heap r s
  obtain ⟨a, -, rfl⟩ := h
  exact congrArg₂ (fun arrived waiting => Ledger.mk a.received ⟨a.recvMax, a.consumed⟩ c.count
    arrived waiting) harrived hwaiting

/-- A stream changes and possibly ends: `n` arrived on it, and `taken` left its
buffer. -/
theorem Accounted.touches {d : Conn} {s : Stream} {frames : List Frame} {size : Nat}
    (h : c.Touches r s frames d) (hr : r < c.count) (hsound : s.Sound size) (n taken : Nat)
    (harrived : s.recvOffset = (c.heap r).recvOffset + n)
    (hwaiting : s.unread.length + taken = (c.heap r).unread.length + n)
    (haccounts : c.ledger.Balanced c.config.connectionWindow →
      c.received + n + c.config.connectionWindow < 2 ^ 64 →
      c.consumed + (c.heap r).unread.length ≤ c.received →
        d.received = c.received + n ∧ c.received + n ≤ c.recvMax ∧
          d.window = c.window.consume c.config.connectionWindow taken) :
    c.Accounted (d.completeLocked r) := by
  have hledger : (d.completeLocked r).ledger = d.ledger := by
    have hstream : d.heap r = s := by
      obtain ⟨a, -, rfl⟩ := h
      exact Function.update_self r s c.heap
    exact completeLocked_ledger (hstream.symm ▸ hsound.tidy) (hstream.symm ▸ hsound.credited)
  have hconfig : (d.completeLocked r).config = c.config := by
    rw [(Extends.completeLocked d r).config]
    obtain ⟨a, -, rfl⟩ := h
    rfl
  have htotal : (d.completeLocked r).totalReceived = c.totalReceived + n := by
    rw [totalReceived_eq, totalReceived_eq, hledger, h.ledger, harrived]
    exact Ledger.total_post (l := c.ledger) hr n s.unread.length d.window
  refine ⟨hconfig, htotal ▸ Nat.le_add_right _ _, fun hsmall hbalanced => ?_⟩
  have hreceived : c.received = c.totalReceived := hbalanced.arrived
  have hshare : (c.heap r).unread.length ≤ Heap.total c.ledger.waiting c.count id :=
    Heap.le_total c.ledger.waiting hr id
  have hsum : c.received = c.consumed + Heap.total c.ledger.waiting c.count id :=
    hbalanced.waiting
  obtain ⟨hreceived', hwithin, hwindow⟩ := haccounts hbalanced (by omega) (by omega)
  have hconsumed : (c.window.consume c.config.connectionWindow taken).consumed =
      c.consumed + taken := Window.consume_consumed
  have hlimit := Window.le_consume_limit (n := taken) hbalanced.ample
  have hmax : (d.completeLocked r).recvMax =
      (c.window.consume c.config.connectionWindow taken).limit := by
    rw [← hwindow]
    exact congrArg (fun l => l.window.limit) hledger
  refine ⟨?_, hmax ▸ hlimit⟩
  rw [hledger, h.ledger, hreceived', hwindow, harrived]
  refine hbalanced.post hr hwithin ?_ hlimit (hbalanced.ample.consume ?_)
  · rw [hconsumed]
    change _ = c.consumed + (c.heap r).unread.length + n
    omega
  · change c.consumed + taken ≤ c.recvMax
    omega

/-- A change of a stream that its receiving side has no part in. -/
theorem Accounted.touches_same {d : Conn} {s : Stream} {frames : List Frame} {size : Nat}
    (h : c.Touches r s frames d) (hr : r < c.count) (hsound : s.Sound size)
    (harrived : s.recvOffset = (c.heap r).recvOffset)
    (hwaiting : s.unread = (c.heap r).unread) (hreceived : d.received = c.received)
    (hwindow : d.window = c.window) : c.Accounted (d.completeLocked r) := by
  refine .touches h hr hsound 0 0 harrived (by rw [hwaiting]) (fun hbalanced _ _ => ?_)
  exact ⟨hreceived, hbalanced.within,
    hwindow.trans (Window.consume_zero hbalanced.ample).symm⟩

/-- What a balanced ledger says of `consumeLocked`. -/
private theorem window_of_balanced {n m : Nat} {d : Conn}
    (hbalanced : c.ledger.Balanced c.config.connectionWindow)
    (hsmall : c.received + n + c.config.connectionWindow < 2 ^ 64)
    (hwithin : c.received + n ≤ c.recvMax) (hm : c.consumed + m ≤ c.received + n)
    (hconfig : d.config = c.config) (hwindow : d.window = c.window) :
    (d.consumeLocked m).window = c.window.consume c.config.connectionWindow m := by
  have hwhole : c.recvMax ≤ c.consumed + c.config.connectionWindow := hbalanced.ample.whole
  have hmax : d.recvMax = c.recvMax := congrArg Window.limit hwindow
  have hconsumed : d.consumed = c.consumed := congrArg Window.consumed hwindow
  have hsum : c.received = c.consumed + Heap.total c.ledger.waiting c.count id :=
    hbalanced.waiting
  rw [consumeLocked_window, hconfig, hwindow]
  · omega
  · omega
  · rw [hconfig]
    omega

variable {size : Nat}

theorem takeData_accounted [GoAppend] (hr : r < c.count) {f : Wire.Stream}
    (hold : (c.heap r).Sound size) (hsound : ((c.heap r).takeData f).Sound size)
    (hbound : (Frame.stream f).Bounded maxVarint) (hoffset : f.offset = (c.heap r).recvOffset)
    (hmax : Word.add (c.heap r).recvOffset f.data.length ≤ (c.heap r).recvMax)
    (hconn : Word.add c.received f.data.length ≤ c.recvMax) :
    c.Accounted (({ c with
      received := Word.add c.received f.data.length }.takeData r f).completeLocked r) := by
  have hadd : Word.add (c.heap r).recvOffset f.data.length =
      (c.heap r).recvOffset + f.data.length := by
    obtain ⟨-, hoff, hlen⟩ := hbound
    have : maxVarint = 2 ^ 62 - 1 := rfl
    exact Word.add_of_lt (by omega)
  have hunread := Stream.unread_takeData (hold.credited.fits hold.tidy (hadd ▸ hmax))
  refine .touches (c.takeData_touches r f _) hr hsound f.data.length
    (if (c.heap r).readCancelled then f.data.length else 0) ?_ ?_ ?_
  · rw [(Stream.takeData_fields _ f).1, hadd]
  · rw [hunread]
    split_ifs
    · rfl
    · exact List.length_append
  · intro hbalanced hsmall hwaiting
    rw [Word.add_of_lt (by omega)] at hconn ⊢
    unfold takeData
    dsimp only
    split_ifs
    · refine ⟨consumeLocked_received _ _, hconn, ?_⟩
      exact window_of_balanced hbalanced hsmall hconn (by omega) rfl rfl
    · exact ⟨rfl, hconn, (Window.consume_zero hbalanced.ample).symm⟩

theorem takeReset_accounted (hr : r < c.count) {f : ResetStream}
    (hsound : ((c.heap r).takeReset f).Sound size)
    (hle : (c.heap r).recvOffset ≤ f.finalSize)
    (hconn : Word.add c.received (Word.sub f.finalSize (c.heap r).recvOffset) ≤ c.recvMax) :
    c.Accounted (({ c with
      received := Word.add c.received (Word.sub f.finalSize (c.heap r).recvOffset)
        }.takeReset r f).completeLocked r) := by
  have hfinal : f.finalSize < 2 ^ 63 := hsound.credited.small
  have hsub : Word.sub f.finalSize (c.heap r).recvOffset =
      f.finalSize - (c.heap r).recvOffset := Word.sub_of_le hle (by omega)
  have hlen : (c.heap r).unread.length = (c.heap r).rbuf.data.length - (c.heap r).roff :=
    List.length_drop
  rw [hsub] at hconn ⊢
  refine .touches (c.takeReset_touches r f _) hr hsound (f.finalSize - (c.heap r).recvOffset)
    (f.finalSize - (c.heap r).recvOffset + (c.heap r).unread.length) ?_ ?_ ?_
  · change f.finalSize = _
    omega
  · change (List.drop 0 []).length + _ = _
    simp only [List.drop_nil, List.length_nil]
    omega
  · intro hbalanced hsmall hwaiting
    have htaken : Word.add (Word.sub f.finalSize (c.heap r).recvOffset)
        ((c.heap r).rbuf.data.length - (c.heap r).roff) =
        f.finalSize - (c.heap r).recvOffset + (c.heap r).unread.length := by
      rw [hsub, hlen]
      exact Word.add_of_lt (by omega)
    rw [Word.add_of_lt (by omega)] at hconn ⊢
    unfold takeReset
    dsimp only
    rw [htaken]
    refine ⟨consumeLocked_received _ _, hconn, ?_⟩
    exact window_of_balanced hbalanced hsmall hconn (by omega) rfl rfl

theorem copyOut_accounted (hr : r < c.count) {n : Nat}
    (hsound : ((c.heap r).copyOut n c.config.streamWindow).Sound size)
    (hn : (c.heap r).roff + n ≤ (c.heap r).rbuf.data.length) :
    c.Accounted (((c.setStream r ((c.heap r).advance n)).readLocked r n).completeLocked r) := by
  have hlen : (c.heap r).unread.length = (c.heap r).rbuf.data.length - (c.heap r).roff :=
    List.length_drop
  obtain ⟨hrecv, -, -, -, -, hunread⟩ :=
    Stream.copyOut_keeps_recv (c.heap r) c.config.streamWindow n
  refine .touches (c.readLocked_touches r n) hr hsound 0 n hrecv ?_ ?_
  · rw [hunread, Stream.unread_advance, List.length_drop]
    omega
  · intro hbalanced hsmall hwaiting
    have hwindow := window_of_balanced (n := 0) (m := n) hbalanced hsmall hbalanced.within
      (by omega) (d := (c.setStream r ((c.heap r).advance n)).setStream r
        { (c.setStream r ((c.heap r).advance n)).heap r with
          readOffset := Word.add ((c.setStream r ((c.heap r).advance n)).heap r).readOffset n })
      rfl rfl
    unfold readLocked
    dsimp only
    split_ifs
    · exact ⟨consumeLocked_received _ _, hbalanced.within, hwindow⟩
    · exact ⟨consumeLocked_received _ _, hbalanced.within, hwindow⟩

theorem cancelRead_accounted (hr : r < c.count) {code : Nat}
    (hsound : ((c.heap r).cancelRead code).Sound size) {frames : List Frame} {d : Conn}
    (htouches : c.Touches r ((c.heap r).cancelRead code) frames d)
    (haccounts : d.received = (c.consumeLocked (c.heap r).unread.length).received ∧
      d.window = (c.consumeLocked (c.heap r).unread.length).window) :
    c.Accounted (d.completeLocked r) := by
  refine .touches htouches hr hsound 0 (c.heap r).unread.length rfl ?_ ?_
  · change (List.drop 0 []).length + _ = _
    simp only [List.drop_nil, List.length_nil]
    omega
  · intro hbalanced hsmall hwaiting
    rw [haccounts.1, haccounts.2]
    refine ⟨consumeLocked_received _ _, hbalanced.within, ?_⟩
    exact window_of_balanced hbalanced hsmall hbalanced.within hwaiting rfl rfl

/-- Every act keeps the accounts. -/
theorem Accounted.of_act [GoAppend] {heard : Parsed → Prop} {t : Traffic} {s : Stream}
    {frames : List Frame} {d : Conn} (hr : r < c.count) (hold : (c.heap r).Sound size)
    (hsound : s.Sound size) (hact : Act heard c r t s frames d) :
    c.Accounted (d.completeLocked r) := by
  have htouches := hact.touches
  cases hact with
  | data hready hheard hbound hdir htable hoffset hfin hreset hmax hconn =>
      exact takeData_accounted hr hold hsound hbound hoffset hmax hconn
  | reset hready hheard hbound hdir htable hle hfin hreset hmax hconn =>
      exact takeReset_accounted hr hsound hle hconn
  | resetSend hcause hsend => exact .touches_same htouches hr hsound rfl rfl rfl rfl
  | read hholds herr hunread hn => exact copyOut_accounted hr hsound hn
  | cancel hholds herr hdone =>
      have hlen : (c.heap r).unread.length = (c.heap r).rbuf.data.length - (c.heap r).roff :=
        List.length_drop
      refine cancelRead_accounted hr hsound htouches ?_
      rw [hlen]
      split_ifs <;> exact ⟨rfl, rfl⟩
  | finish hholds herr hfin => exact .touches_same htouches hr hsound rfl rfl rfl rfl

theorem setStream_ledger (c : Conn) {r : Ref} {s : Stream}
    (harrived : s.recvOffset = (c.heap r).recvOffset)
    (hwaiting : s.unread = (c.heap r).unread) : (c.setStream r s).ledger = c.ledger :=
  congrArg₂ (fun arrived waiting => { c.ledger with arrived := arrived, waiting := waiting })
    (Heap.map_update_of_eq Stream.recvOffset c.heap r s harrived)
    (Heap.map_update_of_eq (fun s => s.unread.length) c.heap r s (congrArg List.length hwaiting))

/-- Every move keeps the accounts. -/
theorem Accounted.of_move [Quicvarint] [GoAppend] {heard : Parsed → Prop} {t : Traffic}
    (hordered : c.Ordered) (hsound : ∀ r < c.count, (c.heap r).Sound c.config.streamWindow)
    (hwindow : c.config.streamWindow ≤ maxVarint) (hmove : Move heard c t c') :
    c.Accounted c' := by
  have hstep {r : Ref} {s : Stream} (hr : r < c.count)
      (hstep : (c.heap r).Step c.config.streamWindow s) : s.Sound c.config.streamWindow :=
    (hsound r hr).step hwindow hstep
  cases hmove with
  | still htook hhanded hpings hreads hcore => exact .of_core hcore
  | act hopen hact =>
      have hr := (hordered.of_act (fun r hr => (hsound r hr).tidy) hopen hact).1
      exact .of_act hr (hsound _ hr) (hstep hr hact.step) hact
  | parameters => exact .same rfl rfl
  | openIncoming => exact .newStreamLocked rfl rfl rfl rfl
  | openLocal => exact .newStreamLocked rfl rfl rfl rfl
  | @accept dir r rest hopen hqueue =>
      have hr : r < c.count := hordered.of_queue hqueue
      have haccounted := Accounted.touches_same
        (Touches.setStream (c.setIncoming dir { c.incoming dir with queue := rest }) r
          { c.heap r with accepted := true }) hr (hstep hr .accept) rfl rfl rfl rfl
      exact ⟨haccounted.config, haccounted.total_le, haccounted.balanced⟩
  | raiseStream => exact .same rfl (setStream_ledger c rfl rfl)
  | raiseData => exact .same rfl rfl
  | @raiseStreams f =>
      obtain ⟨out, hout⟩ := c.handleMaxStreams_frame f
      rw [hout]
      exact .same rfl rfl
  | pinged => exact .same rfl rfl
  | pong => exact .same rfl rfl
  | @reserve r p n => exact .same rfl (setStream_ledger c (r := r) rfl rfl)
  | @flush now =>
      obtain ⟨_, _, _, _, hflush⟩ := c.flushed_frame now
      rw [hflush]
      exact .same rfl rfl
  | datagram => exact .same rfl rfl
  | close => exact .same rfl rfl
  | woken => exact .of_core rfl

theorem Accounted.terminate (c : Conn) (err : ConnError) :
    c.Accounted (c.terminate err).1 := by
  unfold Conn.terminate
  split_ifs
  · exact .same rfl rfl
  · refine .same rfl ?_
    have harrived (i : Ref) : ((c.terminated err).heap i).recvOffset = (c.heap i).recvOffset ∧
        ((c.terminated err).heap i).unread = (c.heap i).unread := by
      simp only [terminated]
      split_ifs <;> exact ⟨rfl, rfl⟩
    unfold ledger
    simp only [harrived]
    rfl

end Accounts

section History

variable [Quicvarint] [GoAppend] {config : Config} {isServer : Bool} {heard : Parsed → Prop}
  {t : Traffic} {c : Conn}

/-- The ledger is balanced in every history. -/
theorem History.balanced (hconfig : config.Valid)
    (hhistory : History config isServer heard t c) : c.Balanced := by
  have hstep {c c' : Conn} (h : c.Balanced) (haccounted : c.Accounted c') : c'.Balanced := by
    intro hsmall
    rw [haccounted.config] at hsmall ⊢
    have hle := haccounted.total_le
    exact (haccounted.balanced hsmall (h (by omega))).1
  induction hhistory with
  | start => exact fun _ => ⟨rfl, rfl, Nat.zero_le _, Window.ample_start _⟩
  | move hprior hmove ih =>
      have hsame := (History.config hprior).1
      exact hstep ih (.of_move (History.ordered hconfig hprior)
        (hsame ▸ History.streams_sound hconfig hprior) (hsame ▸ hconfig.streamWindow_le) hmove)
  | @terminate _ c err _ ih => exact hstep ih (.terminate c err)

end History

end Conn

end Qmux
