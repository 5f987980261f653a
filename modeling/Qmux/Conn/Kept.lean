import Qmux.Conn.Touch

/-!
What no move takes back: the streams made so far keep their identity and their
sides, a stream once handed to the application stays handed out, the peer's
parameters are set once, and a closed connection stays closed.
-/

namespace Qmux

open Wire

namespace Conn

/-- `c'` has everything of `c` that is never taken back. -/
structure Extends (c c' : Conn) : Prop where
  config : c'.config = c.config
  isServer : c'.isServer = c.isServer
  closed : c.closeErr.isSome = true → c'.closeErr = c.closeErr
  fresh : (c.ready = false → c.peer = {}) → c'.ready = false → c'.peer = {}
  peer : c.ready = true → c'.ready = true ∧ c'.peer = c.peer
  count : c.count ≤ c'.count
  streams : ∀ r < c.count, (c.heap r).Keeps (c'.heap r)

namespace Extends

variable {c c' c'' : Conn}

theorem refl (c : Conn) : c.Extends c :=
  ⟨rfl, rfl, fun _ => rfl, fun h => h, fun h => ⟨h, rfl⟩, Nat.le_refl _, fun _ _ => .refl _⟩

theorem trans (hfirst : c.Extends c') (hsecond : c'.Extends c'') : c.Extends c'' where
  config := hsecond.config.trans hfirst.config
  isServer := hsecond.isServer.trans hfirst.isServer
  closed h := by
    have hkept := hfirst.closed h
    rw [← hkept]
    exact hsecond.closed (by rw [hkept]; exact h)
  fresh h := hsecond.fresh (hfirst.fresh h)
  peer h := by
    obtain ⟨hready, hpeer⟩ := hfirst.peer h
    obtain ⟨hready', hpeer'⟩ := hsecond.peer hready
    exact ⟨hready', hpeer'.trans hpeer⟩
  count := hfirst.count.trans hsecond.count
  streams r hr := (hfirst.streams r hr).trans (hsecond.streams r (hr.trans_le hfirst.count))

theorem holdsSend (h : c.Extends c') {r : Ref} (hholds : c.holdsSend r = true) :
    c'.holdsSend r = true := by
  simp only [Conn.holdsSend, Bool.and_eq_true, decide_eq_true_eq] at hholds ⊢
  obtain ⟨⟨hr, haccepted⟩, hsend⟩ := hholds
  have hkeeps := h.streams r hr
  exact ⟨⟨hr.trans_le h.count, hkeeps.accepted haccepted⟩, hkeeps.canSend.trans hsend⟩

theorem holdsRecv (h : c.Extends c') {r : Ref} (hholds : c.holdsRecv r = true) :
    c'.holdsRecv r = true := by
  simp only [Conn.holdsRecv, Bool.and_eq_true, decide_eq_true_eq] at hholds ⊢
  obtain ⟨⟨hr, haccepted⟩, hsend⟩ := hholds
  have hkeeps := h.streams r hr
  exact ⟨⟨hr.trans_le h.count, hkeeps.accepted haccepted⟩, hkeeps.canRecv.trans hsend⟩

theorem setStream (c : Conn) {r : Ref} {s : Stream} (hkeeps : (c.heap r).Keeps s) :
    c.Extends (c.setStream r s) := by
  refine { refl c with streams := fun i hi => ?_ }
  rcases eq_or_ne i r with rfl | hne
  · simpa only [Conn.setStream, Function.update_self] using hkeeps
  · simpa only [Conn.setStream, Function.update_of_ne hne] using Stream.Keeps.refl _

theorem newStreamLocked (c : Conn) (s : Stream) : c.Extends (c.newStreamLocked s) := by
  refine { refl c with count := Nat.le_succ _, streams := fun i hi => ?_ }
  simpa only [Conn.newStreamLocked, Function.update_of_ne (Nat.ne_of_lt hi)] using
    Stream.Keeps.refl _

theorem completeLocked (c : Conn) (r : Ref) : c.Extends (c.completeLocked r) := by
  have hstream := setStream c (r := r)
    (s := { c.heap r with done := true, rbuf := .nil }) ⟨rfl, rfl, rfl, fun h => h⟩
  unfold Conn.completeLocked
  dsimp only
  split_ifs
  · exact refl c
  · exact { hstream with }
  · exact { hstream with }

theorem touches {r : Ref} {s : Stream} {frames : List Frame}
    (h : c.Touches r s frames c') (hkeeps : (c.heap r).Keeps s) :
    c.Extends (c'.completeLocked r) := by
  refine trans ?_ (completeLocked c' r)
  obtain ⟨a, -, rfl⟩ := h
  exact { setStream c hkeeps with }

private theorem of_core (hcore : c'.core = c.core) : c.Extends c' := by
  have hfields := congrArg (fun d : Conn => (d.config, d.isServer, d.closeErr, d.ready,
    d.peer, d.count)) hcore
  simp only [core, Prod.mk.injEq] at hfields
  obtain ⟨hconfig, hserver, hclose, hready, hpeer, hcount⟩ := hfields
  refine ⟨hconfig, hserver, fun _ => hclose, fun h h' => hpeer.trans (h (hready.symm.trans h')),
    fun h => ⟨hready.trans h, hpeer⟩, hcount.ge, fun r _ => ?_⟩
  have hstream : (c'.heap r).core = (c.heap r).core := congrFun (congrArg heap hcore) r
  have hid := congrArg Stream.id hstream
  have hrecv := congrArg Stream.canRecv hstream
  have hsend := congrArg Stream.canSend hstream
  have haccepted := congrArg Stream.accepted hstream
  exact ⟨hid, hrecv, hsend, fun h => haccepted.trans h⟩

theorem terminate (c : Conn) (err : ConnError) : c.Extends (c.terminate err).1 := by
  unfold Conn.terminate
  split_ifs with hclosed
  · exact refl c
  · refine { refl c with closed := fun h => absurd h hclosed, streams := fun r _ => ?_ }
    simp only [terminated]
    split_ifs <;> exact ⟨rfl, rfl, rfl, fun h => h⟩

/-- No move takes anything back. -/
theorem of_move [Quicvarint] [GoAppend] {heard : Parsed → Prop} {t : Traffic}
    (hmove : Move heard c t c') : c.Extends c' := by
  cases hmove with
  | still htook hhanded hpings hreads hcore => exact of_core hcore
  | act hopen hact => exact touches hact.touches hact.keeps
  | parameters hopen hready =>
      exact { refl c with fresh := fun _ h => (Bool.noConfusion h : _)
                          peer := fun h => by simp [hready] at h }
  | openIncoming => exact { newStreamLocked c _ with }
  | openLocal => exact { newStreamLocked c _ with }
  | @accept dir r rest =>
      refine trans ?_ (completeLocked _ r)
      exact { setStream c (r := r) (s := { c.heap r with accepted := true })
        ⟨rfl, rfl, rfl, fun _ => rfl⟩ with }
  | raiseStream => exact setStream c ⟨rfl, rfl, rfl, fun h => h⟩
  | raiseData => exact { refl c with }
  | @raiseStreams f =>
      obtain ⟨out, hout⟩ := c.handleMaxStreams_frame f
      rw [hout]
      exact { refl c with }
  | pinged => exact { refl c with }
  | pong => exact { refl c with }
  | @reserve r p n =>
      exact { setStream c (r := r)
        (s := { c.heap r with sendOffset := Word.add (c.heap r).sendOffset n })
        ⟨rfl, rfl, rfl, fun h => h⟩ with }
  | @flush now =>
      obtain ⟨_, _, _, _, hflush⟩ := c.flushed_frame now
      rw [hflush]
      exact { refl c with }
  | datagram => exact refl c
  | close => exact refl c
  | woken => exact of_core rfl

end Extends

/-- `completeLocked` changes nothing of a stream but that it may forget it. -/
theorem completeLocked_stream {α : Type*} (g : Stream → α)
    (hg : ∀ s, g { s with done := true, rbuf := .nil } = g s) (c : Conn) (r i : Ref) :
    g ((c.completeLocked r).heap i) = g (c.heap i) := by
  have hupdate : g (Function.update c.heap r { c.heap r with done := true, rbuf := .nil } i) =
      g (c.heap i) :=
    congrFun (Heap.map_update_of_eq g c.heap r _ (hg (c.heap r))) i
  unfold completeLocked
  dsimp only
  split_ifs
  · rfl
  · exact hupdate
  · exact hupdate

theorem Touches.stream {α : Type*} (g : Stream → α)
    (hg : ∀ s, g { s with done := true, rbuf := .nil } = g s) {c c' : Conn} {r : Ref}
    {s : Stream} {frames : List Frame} (h : c.Touches r s frames c') (i : Ref) :
    g ((c'.completeLocked r).heap i) = Function.update (fun i => g (c.heap i)) r (g s) i := by
  rw [completeLocked_stream g hg]
  obtain ⟨a, -, rfl⟩ := h
  exact congrFun (Heap.map_update g c.heap r s) i

/-- What the end of a stream does not touch. -/
theorem completeLocked_view {α : Type*} (g : Conn → α)
    (hg : ∀ (c : Conn) heap streams incoming wake, g { c with
      heap := heap, streams := streams, incoming := incoming, controlWake := wake } = g c)
    (c : Conn) (r : Ref) : g (c.completeLocked r) = g c := by
  unfold completeLocked
  dsimp only
  split_ifs
  · rfl
  · exact hg c _ _ c.incoming c.controlWake
  · exact hg c _ _ _ _

/-- What an act on a stream does not touch, the end of the stream included. -/
theorem Touches.view {α : Type*} (g : Conn → α)
    (hg : ∀ (c : Conn) heap streams incoming control accounts, g { c.withAccounts accounts with
      heap := heap, streams := streams, incoming := incoming, control := control } = g c)
    {c c' : Conn} {r : Ref} {s : Stream} {frames : List Frame} (h : c.Touches r s frames c') :
    g (c'.completeLocked r) = g c := by
  have hforget : g (c'.completeLocked r) = g c' :=
    completeLocked_view g (fun d heap streams incoming wake =>
      hg d heap streams incoming d.control { d.accounts with controlWake := wake }) c' r
  obtain ⟨a, -, rfl⟩ := h
  exact hforget.trans (hg c _ c.streams c.incoming _ a)

theorem completeLocked_closeErr (c : Conn) (r : Ref) :
    (c.completeLocked r).closeErr = c.closeErr ∧ (c.completeLocked r).cause = c.cause :=
  ⟨completeLocked_view closeErr (fun _ _ _ _ _ => rfl) c r,
    completeLocked_view cause (fun _ _ _ _ _ => rfl) c r⟩

theorem Touches.closeErr {c c' : Conn} {r : Ref} {s : Stream} {frames : List Frame}
    (h : c.Touches r s frames c') :
    (c'.completeLocked r).closeErr = c.closeErr ∧ (c'.completeLocked r).cause = c.cause :=
  ⟨h.view Conn.closeErr fun _ _ _ _ _ _ => rfl, h.view cause fun _ _ _ _ _ _ => rfl⟩

private theorem closeErr_of_core {c c' : Conn} (hcore : c'.core = c.core) :
    c'.closeErr = c.closeErr ∧ c'.cause = c.cause := by
  have hclose := congrArg Conn.closeErr hcore
  have hcause := congrArg Conn.cause hcore
  exact ⟨hclose, hcause⟩

/-- No move closes the connection: only `terminate` does. -/
theorem closeErr_of_move [Quicvarint] [GoAppend] {c c' : Conn} {heard : Parsed → Prop}
    {t : Traffic} (hmove : Move heard c t c') :
    c'.closeErr = c.closeErr ∧ c'.cause = c.cause := by
  cases hmove with
  | still htook hhanded hpings hreads hcore => exact closeErr_of_core hcore
  | act hopen hact => exact hact.touches.closeErr
  | accept => exact completeLocked_closeErr _ _
  | @raiseStreams f =>
      obtain ⟨out, hout⟩ := c.handleMaxStreams_frame f
      rw [hout]
      exact ⟨rfl, rfl⟩
  | @flush now =>
      obtain ⟨_, _, _, _, hflush⟩ := c.flushed_frame now
      rw [hflush]
      exact ⟨rfl, rfl⟩
  | _ => exact ⟨rfl, rfl⟩

/-- A sequence number is used up only by handing its request out. -/
theorem nextPing_of_move [Quicvarint] [GoAppend] {c c' : Conn} {heard : Parsed → Prop}
    {t : Traffic} (hmove : Move heard c t c') :
    c'.nextPing = c.nextPing ∨
      (.ping ⟨false, c.nextPing⟩ ∈ t.handed ∧ c.nextPing ≤ 2 ^ 62 ∧
        c'.nextPing = c.nextPing + 1) := by
  cases hmove with
  | still htook hhanded hpings hreads hcore => exact Or.inl (congrArg Conn.nextPing hcore :)
  | act hopen hact => exact Or.inl (hact.touches.view Conn.nextPing fun _ _ _ _ _ _ => rfl)
  | accept => exact Or.inl (completeLocked_view Conn.nextPing (fun _ _ _ _ _ => rfl) _ _)
  | @raiseStreams f =>
      obtain ⟨out, hout⟩ := c.handleMaxStreams_frame f
      rw [hout]
      exact Or.inl rfl
  | flush hopen hping =>
      by_cases hpending : c.pingPending = true
      · refine Or.inr ⟨by simp [controlFrames, hpending], hping, ?_⟩
        simp only [flushed, hpending, if_true]
        exact Word.add_of_lt (by omega)
      · simp only [flushed, hpending]
        exact Or.inl rfl
  | _ => exact Or.inl rfl

theorem completeLocked_control (c : Conn) (r : Ref) :
    (c.completeLocked r).control = c.control :=
  completeLocked_view control (fun _ _ _ _ _ => rfl) c r

theorem Touches.control {c c' : Conn} {r : Ref} {s : Stream} {frames : List Frame}
    (h : c.Touches r s frames c') : (c'.completeLocked r).control = c.control ++ frames := by
  rw [completeLocked_control]
  obtain ⟨a, -, rfl⟩ := h
  rfl

/-- The frames that go through the control queue. -/
def queuedFrame : Frame → Bool
  | .resetStream _ | .stopSending _ | .maxStreamData _ => true
  | _ => false

/-- Where the frames come from that `takeControl` returns. -/
inductive Pending (c : Conn) : Frame → Prop where
  | queued {f : Frame} (hf : f ∈ c.control) : Pending c f
  | maxData : Pending c (.maxData ⟨c.recvMax⟩)
  | maxStreams (dir : Dir) (hpending : (c.incoming dir).pending = true) :
      Pending c (.maxStreams ⟨dir = .uni, (c.incoming dir).max⟩)
  | ping (response : Bool) :
      Pending c (.ping ⟨response, if response then c.pongSequence else c.nextPing⟩)

theorem pending_of_controlFrames {c : Conn} {f : Frame} (hf : f ∈ c.controlFrames) :
    c.Pending f := by
  unfold controlFrames streamsFrame at hf
  simp only [List.mem_append] at hf
  rcases hf with ((((hf | hf) | hf) | hf) | hf) | hf
  · exact .queued hf
  all_goals
    split_ifs at hf with hpending
    · rw [List.mem_singleton.mp hf]
      first
        | exact .maxData
        | exact .maxStreams .bidi hpending
        | exact .maxStreams .uni hpending
        | exact .ping true
        | exact .ping false
    · cases hf

theorem pending_of_takeControl {c : Conn} {now : Time} {f : Frame}
    (hf : f ∈ (c.takeControl now).2) : c.Pending f := by
  unfold takeControl at hf
  split_ifs at hf
  · cases hf
  · exact pending_of_controlFrames hf

theorem sendErrLocked_none {c : Conn} {s : Stream} (h : c.sendErrLocked s = none) :
    c.closeErr = none ∧ s.sendErr = none ∧ s.finSent = false := by
  unfold sendErrLocked at h
  split at h
  · cases h
  · cases h
  · rename_i hopen herr
    split_ifs at h with hfin
    exact ⟨hopen, herr, by simpa using hfin⟩

theorem terminate_nextPing (c : Conn) (err : ConnError) :
    (c.terminate err).1.nextPing = c.nextPing := by
  unfold terminate
  split_ifs <;> rfl

theorem terminate_closeErr (c : Conn) (err : ConnError) :
    (c.terminate err).1.closeErr = c.closeErr.or (some err) := by
  unfold terminate
  cases hclosed : c.closeErr with
  | none => rfl
  | some e => exact hclosed

theorem terminate_closed (c : Conn) (err : ConnError) : (c.terminate err).1.closeErr ≠ none := by
  simp [terminate_closeErr]

/-- The frames an act queues. -/
theorem Act.queued [Quicvarint] [GoAppend] {heard : Parsed → Prop} {c d : Conn} {r : Ref}
    {t : Traffic} {s : Stream} {frames : List Frame} (hact : Act heard c r t s frames d)
    {f : Frame} (hf : f ∈ frames) : queuedFrame f = true := by
  cases hact with
  | data => cases hf
  | reset => cases hf
  | resetSend =>
      rw [List.mem_singleton.mp hf]
      rfl
  | read =>
      unfold Stream.copyOutGrant at hf
      dsimp only at hf
      split_ifs at hf
      · rw [List.mem_singleton.mp hf]
        rfl
      · cases hf
  | cancel =>
      split_ifs at hf
      · cases hf
      · rw [List.mem_singleton.mp hf]
        rfl
  | finish => cases hf

/-- What a move leaves in the control queue. -/
theorem control_of_move [Quicvarint] [GoAppend] {c c' : Conn} {heard : Parsed → Prop}
    {t : Traffic} (hmove : Move heard c t c') {f : Frame}
    (hf : f ∈ c'.control) : f ∈ c.control ∨ queuedFrame f = true := by
  cases hmove with
  | still htook hhanded hpings hreads hcore =>
      have hcontrol : c'.control = c.control := (congrArg Conn.control hcore :)
      exact Or.inl (hcontrol ▸ hf)
  | act hopen hact =>
      rw [hact.touches.control, List.mem_append] at hf
      exact hf.imp_right hact.queued
  | accept =>
      rw [acceptNext, completeLocked_control] at hf
      exact Or.inl hf
  | @raiseStreams f =>
      obtain ⟨out, hout⟩ := c.handleMaxStreams_frame f
      rw [hout] at hf
      exact Or.inl hf
  | @flush now =>
      obtain ⟨_, _, _, _, hflush⟩ := c.flushed_frame now
      rw [hflush] at hf
      cases hf
  | _ => exact Or.inl hf

theorem History.config [Quicvarint] [GoAppend] {config : Config} {isServer : Bool}
    {heard : Parsed → Prop} {t : Traffic} {c : Conn}
    (hhistory : History config isServer heard t c) :
    c.config = config ∧ c.isServer = isServer := by
  induction hhistory with
  | start => exact ⟨rfl, rfl⟩
  | move _ hmove ih =>
      have hext := Extends.of_move hmove
      exact ⟨hext.config.trans ih.1, hext.isServer.trans ih.2⟩
  | @terminate _ c err _ ih =>
      have hext := Extends.terminate c err
      exact ⟨hext.config.trans ih.1, hext.isServer.trans ih.2⟩

theorem History.control [Quicvarint] [GoAppend] {config : Config} {isServer : Bool}
    {heard : Parsed → Prop} {t : Traffic} {c : Conn}
    (hhistory : History config isServer heard t c) :
    ∀ f ∈ c.control, queuedFrame f = true := by
  induction hhistory with
  | start => intro f hf; cases hf
  | move _ hmove ih => exact fun f hf => (control_of_move hmove hf).elim (ih f) id
  | terminate err _ ih =>
      intro f hf
      refine ih f ?_
      unfold Conn.terminate at hf
      split_ifs at hf <;> exact hf

/-- An open connection hands no CONNECTION_CLOSE out. -/
theorem close_not_handed [Quicvarint] [GoAppend] {c c' : Conn} {heard : Parsed → Prop}
    {t : Traffic} (hcontrol : ∀ f ∈ c.control, queuedFrame f = true)
    (hmove : Move heard c t c') (hopen : c.closeErr = none) (f : ConnectionClose) :
    .connectionClose f ∉ t.handed := by
  intro hf
  cases hmove with
  | still htook hhanded => simp [hhanded] at hf
  | act hopen hact => exact hact.not_handed (fun f => by simp) hf
  | reserve => split_ifs at hf <;> simp at hf
  | flush =>
      cases pending_of_controlFrames hf with
      | queued hf => exact absurd (hcontrol _ hf) Bool.false_ne_true
  | datagram => simp at hf
  | close hclosed => simp [hopen] at hclosed
  | _ => cases hf

namespace Moves

variable [Quicvarint] [GoAppend] {c c' : Conn} {heard : Parsed → Prop} {t : Traffic}

theorem later (hmoves : Moves heard c t c') : c.Extends c' := by
  induction hmoves with
  | refl => exact .refl c
  | tail _ hmove ih => exact ih.trans (.of_move hmove)

theorem closeErr (hmoves : Moves heard c t c') :
    c'.closeErr = c.closeErr ∧ c'.cause = c.cause := by
  induction hmoves with
  | refl => exact ⟨rfl, rfl⟩
  | tail _ hmove ih =>
      obtain ⟨hclose, hcause⟩ := closeErr_of_move hmove
      exact ⟨hclose.trans ih.1, hcause.trans ih.2⟩

theorem nextPing (hmoves : Moves heard c t c') (hhanded : t.handed = []) :
    c'.nextPing = c.nextPing := by
  induction hmoves with
  | refl => rfl
  | tail _ hmove ih =>
      obtain ⟨hfirst, hlast⟩ := List.append_eq_nil_iff.mp hhanded
      rcases nextPing_of_move hmove with hsame | ⟨hmem, -⟩
      · exact hsame.trans (ih hfirst)
      · rw [hlast] at hmem
        cases hmem

end Moves

end Conn

end Qmux
