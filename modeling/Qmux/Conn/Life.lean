import Qmux.Conn.Kept

/-!
The life of one stream. Seen from a single stream, a move is nothing or one of
the steps below, with the guards the code has checked on the stream itself,
and then possibly the step that forgets it. A property that the steps keep
holds of every stream in every history.
-/

namespace Qmux

open Wire

namespace Stream

/-- What can happen to a stream. -/
inductive Step [GoAppend] (window : Nat) (s : Stream) : Stream → Prop where
  | quiet {s' : Stream} (hcore : s'.core = s.core) (hcalm : s.Calm s') : Step window s s'
  | accept : Step window s { s with accepted := true }
  | data {f : Wire.Stream} (hbound : (Frame.stream f).Bounded maxVarint)
      (hoffset : f.offset = s.recvOffset) (hfin : s.finRecv = false)
      (hreset : s.recvReset = false)
      (hmax : Word.add s.recvOffset f.data.length ≤ s.recvMax) :
      Step window s (s.takeData f)
  | reset {f : ResetStream} (hbound : (Frame.resetStream f).Bounded maxVarint)
      (hle : s.recvOffset ≤ f.finalSize)
      (hfin : s.finRecv = true → f.finalSize = s.recvOffset) (hreset : s.recvReset = false)
      (hmax : f.finalSize ≤ s.recvMax) : Step window s (s.takeReset f)
  | resetSend {reason : StreamError} (hsend : s.sendDone = false) :
      Step window s (s.resetSend reason)
  | raise {max : Nat} (hlt : s.sendMax < max) (hbound : max ≤ maxVarint) :
      Step window s { s with sendMax := max, writeSignal := s.writeSignal.broadcast }
  | read {n : Nat} (herr : s.recvErr = none) (hunread : s.roff < s.rbuf.data.length)
      (hn : s.roff + n ≤ s.rbuf.data.length) : Step window s (s.copyOut n window)
  | cancel {code : Nat} (herr : s.recvErr = none) (hdone : s.recvDone = false) :
      Step window s (s.cancelRead code)
  | spend {n : Nat} (hsend : s.sendErr = none ∧ s.finSent = false)
      (hcredit : n = 0 ∨ s.sendOffset + n ≤ s.sendMax) :
      Step window s { s with sendOffset := Word.add s.sendOffset n }
  | finish (hsend : s.sendErr = none ∧ s.finSent = false) :
      Step window s s.endSend
  | forget (hdone : s.done = false) (haccepted : s.accepted = true)
      (hrecv : s.recvDone = true) (hsend : s.sendDone = true) :
      Step window s { s with done := true, rbuf := .nil }

/-- The stream without what changes apart from the acts on it. -/
def bare (s : Stream) : Stream :=
  { s.core with accepted := false, done := false, rbuf := .nil, sendOffset := 0, sendMax := 0 }

end Stream

namespace Conn

/-- What happens to every stream between two states. -/
def Lives [GoAppend] (c c' : Conn) : Prop :=
  ∀ i < c.count,
    Relation.ReflTransGen (Stream.Step c.config.streamWindow) (c.heap i) (c'.heap i)

section Lives

variable [GoAppend] {c c' : Conn}

theorem Lives.setStream {r : Ref} {s : Stream}
    (hstep : (c.heap r).Step c.config.streamWindow s) : c.Lives (c.setStream r s) := by
  intro i hi
  rcases eq_or_ne i r with rfl | hne
  · simpa only [Conn.setStream, Function.update_self] using Relation.ReflTransGen.single hstep
  · simpa only [Conn.setStream, Function.update_of_ne hne] using Relation.ReflTransGen.refl

theorem Lives.completeLocked (c : Conn) (r : Ref) : c.Lives (c.completeLocked r) := by
  unfold Conn.completeLocked
  dsimp only
  split_ifs with hkeep
  · exact fun i hi => .refl
  all_goals
    simp only [Bool.or_eq_true, Bool.not_eq_true', not_or, Bool.not_eq_true,
      Bool.not_eq_false] at hkeep
    obtain ⟨⟨⟨hdone, haccepted⟩, hrecv⟩, hsend⟩ := hkeep
    exact Lives.setStream (c := c) (.forget hdone haccepted hrecv hsend)

theorem Lives.touches {r : Ref} {s : Stream} {frames : List Frame}
    (h : c.Touches r s frames c') (hstep : (c.heap r).Step c.config.streamWindow s) :
    c.Lives (c'.completeLocked r) := by
  intro i hi
  have hfirst : Relation.ReflTransGen (Stream.Step c.config.streamWindow)
      (c.heap i) (c'.heap i) := by
    obtain ⟨a, -, rfl⟩ := h
    exact Lives.setStream hstep i hi
  have hcount : c'.count = c.count ∧ c'.config = c.config := by
    obtain ⟨a, -, rfl⟩ := h
    exact ⟨rfl, rfl⟩
  have hlast := Lives.completeLocked c' r i (hcount.1.symm ▸ hi)
  rw [hcount.2] at hlast
  exact hfirst.trans hlast

private theorem Lives.of_core (hcore : c'.core = c.core) (hcalm : c.Calm c') :
    c.Lives c' := by
  intro i hi
  have hstream : (c'.heap i).core = (c.heap i).core := congrFun (congrArg heap hcore) i
  exact .single (.quiet hstream (hcalm.streams i))

private theorem Lives.same (hheap : c'.heap = c.heap) : c.Lives c' := by
  intro i hi
  rw [hheap]

private theorem Lives.newStreamLocked (s : Stream)
    (hheap : c'.heap = (c.newStreamLocked s).heap) : c.Lives c' := by
  intro i hi
  rw [hheap]
  simp only [Conn.newStreamLocked, Function.update_of_ne (Nat.ne_of_lt hi)]
  exact .refl

theorem Lives.terminate (c : Conn) (err : ConnError) : c.Lives (c.terminate err).1 := by
  unfold Conn.terminate
  split_ifs
  · exact fun i hi => .refl
  · intro i hi
    apply Relation.ReflTransGen.single
    simp only [terminated]
    split_ifs
    · exact .quiet rfl ⟨Or.inr rfl, Or.inr rfl⟩
    · exact .quiet rfl (.refl _)

omit [GoAppend] in
theorem terminate_keeps (c : Conn) (err : ConnError) :
    (c.terminate err).1.count = c.count ∧ (c.terminate err).1.control = c.control := by
  unfold Conn.terminate
  split_ifs <;> exact ⟨rfl, rfl⟩

omit [GoAppend] in
/-- The end of the connection only wakes those who wait on a stream. -/
theorem terminate_stream {α : Type*} (g : Stream → α) (hg : ∀ s, g s.core = g s) (c : Conn)
    (err : ConnError) (r : Ref) : g ((c.terminate err).1.heap r) = g (c.heap r) := by
  have hcore {s s' : Stream} (hsame : s'.core = s.core) : g s' = g s :=
    (hg s').symm.trans ((congrArg g hsame).trans (hg s))
  unfold Conn.terminate
  split_ifs
  · rfl
  · simp only [terminated]
    split_ifs
    · exact hcore rfl
    · rfl

/-- An act is a step in the life of its stream. -/
theorem Act.step {heard : Parsed → Prop} {d : Conn} {r : Ref} {t : Traffic} {s : Stream}
    {frames : List Frame} (hact : Act heard c r t s frames d) :
    (c.heap r).Step c.config.streamWindow s := by
  cases hact with
  | data hready hheard hbound hdir htable hoffset hfin hreset hmax hconn =>
      exact .data hbound hoffset hfin hreset hmax
  | reset hready hheard hbound hdir htable hle hfin hreset hmax hconn =>
      exact .reset hbound hle hfin hreset hmax
  | resetSend hcause hsend => exact .resetSend hsend
  | read hholds herr hunread hn => exact .read herr hunread hn
  | cancel hholds herr hdone => exact .cancel herr hdone
  | finish hholds herr hfin => exact .finish ⟨herr, hfin⟩

/-- A move is a step or two in the life of each stream. -/
theorem Lives.of_move [Quicvarint] {heard : Parsed → Prop} {t : Traffic}
    (hmove : Move heard c t c') : c.Lives c' := by
  cases hmove with
  | still htook hhanded hpings hreads hcore hcalm => exact .of_core hcore hcalm
  | act hopen hact => exact .touches hact.touches hact.step
  | parameters => exact .same rfl
  | openIncoming => exact .newStreamLocked _ rfl
  | openLocal => exact .newStreamLocked _ rfl
  | @accept dir r rest =>
      exact Lives.touches (c := c.setIncoming dir { c.incoming dir with queue := rest })
        (Touches.setStream _ r _) .accept
  | raiseStream hopen hready hheard hbound htable hlt =>
      exact .setStream (.raise hlt hbound.2)
  | raiseData => exact .same rfl
  | @raiseStreams f =>
      refine .same ?_
      obtain ⟨out, hout⟩ := c.handleMaxStreams_frame f
      rw [hout]
  | pinged => exact .same rfl
  | pong => exact .same rfl
  | reserve hopen hholds herr hfin hcredit =>
      refine Lives.setStream (.spend ⟨herr, hfin⟩ ?_)
      unfold sendCreditLocked at hcredit
      split_ifs at hcredit with hnone
      · exact Or.inl (by omega)
      · exact Or.inr (by omega)
  | @flush now =>
      refine .same ?_
      obtain ⟨_, _, _, _, hflush⟩ := c.flushed_frame now
      rw [hflush]
  | datagram => exact .same rfl
  | close => exact .same rfl
  | woken => exact .same rfl

/-- A move makes no stream, or one. -/
theorem count_of_move [Quicvarint] {heard : Parsed → Prop} {t : Traffic}
    (hmove : Move heard c t c') :
    c'.count = c.count ∨ (c'.count = c.count + 1 ∧ t = {} ∧ c'.control = c.control ∧
      ∃ id accepted, c'.heap c.count = { c.newStream id with accepted := accepted }) := by
  cases hmove with
  | still htook hhanded hpings hreads hcore => exact Or.inl (congrArg Conn.count hcore :)
  | act hopen hact => exact Or.inl (hact.touches.view Conn.count fun _ _ _ _ _ _ => rfl)
  | openIncoming =>
      exact Or.inr ⟨rfl, rfl, rfl, _, false, Function.update_self _ _ _⟩
  | openLocal => exact Or.inr ⟨rfl, rfl, rfl, _, true, Function.update_self _ _ _⟩
  | accept => exact Or.inl (completeLocked_view Conn.count (fun _ _ _ _ _ => rfl) _ _)
  | @raiseStreams f =>
      obtain ⟨out, hout⟩ := c.handleMaxStreams_frame f
      rw [hout]
      exact Or.inl rfl
  | @flush now =>
      obtain ⟨_, _, _, _, hflush⟩ := c.flushed_frame now
      rw [hflush]
      exact Or.inl rfl
  | _ => exact Or.inl rfl

/-- A move leaves a stream, as far as `g` can see, unless it is an act on it. -/
theorem stream_of_move [Quicvarint] {α : Type*} (g : Stream → α) (hg : ∀ s, g s.bare = g s)
    {heard : Parsed → Prop} {t : Traffic} (hmove : Move heard c t c') {r : Ref}
    (hr : r < c.count) :
    g (c'.heap r) = g (c.heap r) ∨ ∃ s frames d, Act heard c r t s frames d ∧
      c.closeErr = none ∧ c' = d.completeLocked r ∧ g (c'.heap r) = g s := by
  have hbare {s s' : Stream} (hsame : s'.bare = s.bare) : g s' = g s :=
    (hg s').symm.trans ((congrArg g hsame).trans (hg s))
  have hset {i : Ref} {s : Stream} (hsame : s.bare = (c.heap i).bare) :
      g (Function.update c.heap i s r) = g (c.heap r) :=
    congrFun (Heap.map_update_of_eq g c.heap i s (hbare hsame)) r
  cases hmove with
  | still htook hhanded hpings hreads hcore =>
      have hstream : (c'.heap r).core = (c.heap r).core := congrFun (congrArg heap hcore) r
      exact Or.inl (hbare (congrArg Stream.bare hstream :))
  | @act i _ s frames d hopen hact =>
      have hstream := hact.touches.stream g (fun _ => hbare rfl) r
      rcases eq_or_ne r i with rfl | hne
      · rw [Function.update_self] at hstream
        exact Or.inr ⟨s, frames, d, hact, hopen, rfl, hstream⟩
      · rw [Function.update_of_ne hne] at hstream
        exact Or.inl hstream
  | openIncoming =>
      left
      simp [openIncoming, Conn.newStreamLocked, setIncoming,
        Function.update_of_ne (Nat.ne_of_lt hr)]
  | openLocal =>
      left
      simp [openLocal, Conn.newStreamLocked, setOut, Function.update_of_ne (Nat.ne_of_lt hr)]
  | accept =>
      left
      unfold acceptNext
      rw [completeLocked_stream g (fun _ => hbare rfl)]
      exact hset rfl
  | raiseStream => exact Or.inl (hset rfl)
  | @raiseStreams m =>
      obtain ⟨out, hout⟩ := c.handleMaxStreams_frame m
      exact Or.inl (by rw [hout])
  | reserve => exact Or.inl (hset rfl)
  | @flush now =>
      obtain ⟨_, _, _, _, hflush⟩ := c.flushed_frame now
      exact Or.inl (by rw [hflush])
  | _ => exact Or.inl rfl

/-- What no step takes away from a stream stays. -/
theorem Lives.stream {P : Stream → Prop} (h : c.Lives c')
    (hstep : ∀ s s', Stream.Step c.config.streamWindow s s' → P s → P s') {r : Ref}
    (hr : r < c.count) (hP : P (c.heap r)) : P (c'.heap r) := by
  have hlife := h r hr
  generalize c'.heap r = s at hlife
  induction hlife with
  | refl => exact hP
  | tail _ hlast ih => exact hstep _ _ hlast ih

end Lives

theorem Since.trans [Quicvarint] [GoAppend] {heard : Parsed → Prop} {t₀ t₁ t : Traffic}
    {c₀ c₁ c : Conn} (hfirst : Since heard t₀ c₀ t₁ c₁) (hsecond : Since heard t₁ c₁ t c) :
    Since heard t₀ c₀ t c := by
  induction hsecond with
  | start => exact hfirst
  | move _ hmove ih => exact .move ih hmove
  | terminate err _ ih => exact .terminate err ih

theorem Since.later [Quicvarint] [GoAppend] {heard : Parsed → Prop} {t₀ t : Traffic}
    {c₀ c : Conn} (hsince : Since heard t₀ c₀ t c) : c₀.Extends c := by
  induction hsince with
  | start => exact .refl c₀
  | move _ hmove ih => exact ih.trans (.of_move hmove)
  | terminate err _ ih => exact ih.trans (.terminate _ err)

/-- What no step of a stream takes away stays for good. -/
theorem Since.stream [Quicvarint] [GoAppend] {P : Stream → Prop} {heard : Parsed → Prop}
    {t₀ t : Traffic} {c₀ c : Conn} (hsince : Since heard t₀ c₀ t c)
    (hstep : ∀ window s s', Stream.Step window s s' → P s → P s') {r : Ref}
    (hr : r < c₀.count) (hP : P (c₀.heap r)) : P (c.heap r) := by
  induction hsince with
  | start => exact hP
  | move hprior hmove ih =>
      exact (Lives.of_move hmove).stream (hstep _) (hr.trans_le hprior.later.count) ih
  | terminate err hprior ih =>
      exact (Lives.terminate _ err).stream (hstep _) (hr.trans_le hprior.later.count) ih

/-- A stream that was forgotten stays forgotten. -/
theorem Since.done [Quicvarint] [GoAppend] {heard : Parsed → Prop} {t₀ t : Traffic}
    {c₀ c : Conn} (hsince : Since heard t₀ c₀ t c) {r : Ref} (hr : r < c₀.count)
    (hdone : (c₀.heap r).done = true) : (c.heap r).done = true := by
  refine hsince.stream (P := fun s => s.done = true) (fun window s s' hstep hdone => ?_) hr hdone
  cases hstep with
  | quiet hcore =>
      have hsame := congrArg Stream.done hcore
      exact hsame.trans hdone
  | data =>
      unfold Stream.takeData Stream.bufferLocked
      dsimp only
      split_ifs <;> exact hdone
  | read =>
      unfold Stream.copyOut Stream.advance
      dsimp only
      split_ifs <;> exact hdone
  | forget => rfl
  | _ => exact hdone

/-- A property that fresh streams have, and that no step takes away, holds of
every stream in every history. -/
theorem History.forall_streams [Quicvarint] [GoAppend] {P : Stream → Prop} {config : Config}
    {isServer : Bool} {heard : Parsed → Prop} {t : Traffic} {c : Conn}
    (hhistory : History config isServer heard t c)
    (hnew : ∀ (c : Conn) (id : Nat) (accepted : Bool), c.config = config →
      P { c.newStream id with accepted := accepted })
    (hstep : ∀ s s', Stream.Step config.streamWindow s s' → P s → P s') :
    ∀ r < c.count, P (c.heap r) := by
  have hlives {c c' : Conn} (hconfig : c.config = config) (h : c.Lives c')
      (hP : ∀ r < c.count, P (c.heap r)) : ∀ r < c.count, P (c'.heap r) := by
    subst hconfig
    exact fun r hr => h.stream hstep hr (hP r hr)
  induction hhistory with
  | start => exact fun r hr => absurd hr (Nat.not_lt_zero r)
  | move hprior hmove ih =>
      intro r hr
      have hconfig := (History.config hprior).1
      rcases count_of_move hmove with hsame | ⟨hone, -, -, id, accepted, hfresh⟩
      · exact hlives hconfig (.of_move hmove) ih r (hsame ▸ hr)
      · rcases Nat.lt_succ_iff_lt_or_eq.mp (hone ▸ hr) with hr | rfl
        · exact hlives hconfig (.of_move hmove) ih r hr
        · rw [hfresh]
          exact hnew _ _ _ hconfig
  | @terminate _ c err hprior ih =>
      have hcount : (c.terminate err).1.count = c.count := by
        unfold Conn.terminate
        split_ifs <;> rfl
      exact fun r hr => hlives (History.config hprior).1 (.terminate c err) ih r (hcount ▸ hr)

end Conn

namespace Stream

/-- What holds of a stream whatever its peer and its application do: nothing
of the buffer that was read is kept past its end, a reader learns of a reset
or a cancellation, and nothing is buffered after either. -/
structure Tidy (s : Stream) : Prop where
  buffer : s.canRecv = true → s.roff = 0 ∨ s.roff < s.rbuf.data.length
  err : s.recvErr.isSome = (s.recvReset || s.readCancelled)
  dropped : s.recvReset = true ∨ s.readCancelled = true → s.rbuf.data = []

namespace Tidy

variable {s : Stream}

theorem of_core {s' : Stream} (hcore : s'.core = s.core) (h : s.Tidy) : s'.Tidy := by
  have hfields := congrArg (fun s : Stream => (s.canRecv, s.roff, s.rbuf, s.recvErr,
    s.recvReset, s.readCancelled)) hcore
  simp only [core, Prod.mk.injEq] at hfields
  obtain ⟨hrecv, hroff, hbuf, herr, hreset, hcancel⟩ := hfields
  constructor
  · rw [hrecv, hroff, hbuf]
    exact h.buffer
  · rw [herr, hreset, hcancel]
    exact h.err
  · rw [hreset, hcancel, hbuf]
    exact h.dropped

theorem append_data [GoAppend] (b : Slice) (p : Bytes) : (b.append p).data = b.data ++ p := by
  unfold Slice.append
  split_ifs <;> rfl

theorem takeData [GoAppend] (h : s.Tidy) (f : Wire.Stream) (hreset : s.recvReset = false) :
    (s.takeData f).Tidy := by
  have herr := h.err
  have hbuffer := h.buffer
  unfold Stream.takeData
  dsimp only
  split_ifs with hcancel
  · exact ⟨h.buffer, h.err, h.dropped⟩
  · have hnone : ¬ (s.recvReset = true ∨ s.readCancelled = true) := by
      simp [hreset, hcancel]
    unfold bufferLocked
    dsimp only
    split_ifs with hfull
    · exact ⟨fun _ => Or.inl rfl, herr, fun hcase => absurd hcase hnone⟩
    · refine ⟨fun hrecv => (hbuffer hrecv).imp_right (fun hlt => ?_), herr,
        fun hcase => absurd hcase hnone⟩
      rw [append_data, List.length_append]
      exact Nat.lt_add_right _ hlt

theorem takeReset (s : Stream) (f : ResetStream) : (s.takeReset f).Tidy := by
  refine ⟨fun _ => Or.inl rfl, ?_, fun _ => rfl⟩
  unfold Stream.takeReset
  dsimp only
  cases s.recvErr <;> simp

theorem cancelRead (s : Stream) (code : Nat) : (s.cancelRead code).Tidy :=
  ⟨fun _ => Or.inl rfl, by simp [Stream.cancelRead], fun _ => rfl⟩

theorem advance (h : s.Tidy) {n : Nat} (hn : s.roff + n ≤ s.rbuf.data.length) :
    (s.advance n).Tidy := by
  unfold Stream.advance
  split_ifs with hall
  · exact ⟨fun _ => Or.inl rfl, h.err, fun _ => rfl⟩
  · refine ⟨fun _ => Or.inr ?_, h.err, h.dropped⟩
    change s.roff + n < s.rbuf.data.length
    omega

theorem copyOut (h : s.Tidy) {n : Nat} (window : Nat)
    (hn : s.roff + n ≤ s.rbuf.data.length) : (s.copyOut n window).Tidy := by
  have hadvance := h.advance hn
  unfold Stream.copyOut
  dsimp only
  split_ifs <;> exact ⟨hadvance.buffer, hadvance.err, hadvance.dropped⟩

theorem forget (h : s.Tidy) (hdone : s.recvDone = true) :
    Tidy { s with done := true, rbuf := .nil } := by
  refine ⟨fun hrecv => Or.inl ?_, h.err, fun _ => rfl⟩
  have hcan : s.canRecv = true := hrecv
  change s.roff = 0
  rcases h.buffer hcan with hzero | hlt
  · exact hzero
  · unfold recvDone at hdone
    simp only [hcan, Bool.not_true, Bool.false_or] at hdone
    split_ifs at hdone with hreset
    · rw [h.dropped (Or.inl hreset)] at hlt
      cases hlt
    · simp only [Bool.and_eq_true, Bool.or_eq_true, beq_iff_eq] at hdone
      rcases hdone.2 with hcancel | hall
      · rw [h.dropped (Or.inr hcancel)] at hlt
        cases hlt
      · omega

theorem step [GoAppend] {window : Nat} {s' : Stream} (hstep : s.Step window s') (h : s.Tidy) :
    s'.Tidy := by
  cases hstep with
  | quiet hcore => exact h.of_core hcore
  | data hbound hoffset hfin hreset hmax => exact h.takeData _ hreset
  | reset => exact takeReset s _
  | read herr hunread hn => exact h.copyOut _ hn
  | cancel => exact cancelRead s _
  | forget hdone haccepted hrecv => exact h.forget hrecv
  | _ => exact ⟨h.buffer, h.err, h.dropped⟩

end Tidy

end Stream

theorem Conn.History.tidy [Quicvarint] [GoAppend] {config : Config} {isServer : Bool}
    {heard : Parsed → Prop} {t : Traffic} {c : Conn}
    (hhistory : History config isServer heard t c) : ∀ r < c.count, (c.heap r).Tidy :=
  hhistory.forall_streams (fun _ _ _ _ => ⟨fun _ => Or.inl rfl, rfl, fun _ => rfl⟩)
    (fun _ _ => Stream.Tidy.step)

end Qmux
