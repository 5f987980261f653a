import Qmux.Registry.Open
import Qmux.Registry.Settle
import Qmux.Registry.View

/-!
The streams of a connection stay in order: every move is an operation of the
registry, so the registry stays sound and settled and, while the connection is
open, tabled.
-/

namespace Qmux

open Wire

theorem Config.Valid.incomingLimit_le {config : Config} (h : config.Valid) :
    ∀ dir, config.incomingLimit dir ≤ 2 ^ 60
  | .bidi => h.incoming_le
  | .uni => h.incomingUni_le

namespace Conn

theorem hasOpened_iff (c : Conn) (id : Nat) :
    c.HasOpened id ↔ id >>> 2 < c.registry.next (c.registry.own id) (streamDir id) := by
  unfold HasOpened
  change _ ↔ id >>> 2 < if c.initiatedLocally id then _ else _
  cases c.initiatedLocally id <;> simp

theorem opened_iff (c : Conn) (id : Nat) :
    c.registry.Opened id ↔ id < 2 ^ 62 ∧ c.HasOpened id := by
  rw [hasOpened_iff]
  rfl

/-- The streams of the connection are in order. -/
structure Ordered (c : Conn) : Prop where
  sound : c.registry.Sound c.config.incomingLimit
  settled : c.registry.Settled
  tabled : c.closeErr = none → c.registry.Tabled

namespace Ordered

variable {c c' : Conn}

/-- A change that the registry does not show. -/
theorem of_registry (h : c.Ordered) (hregistry : c'.registry = c.registry)
    (hconfig : c'.config = c.config) (hclose : c'.closeErr = c.closeErr) : c'.Ordered := by
  constructor
  · rw [hregistry, hconfig]
    exact h.sound
  · rw [hregistry]
    exact h.settled
  · rw [hregistry, hclose]
    exact h.tabled

theorem of_core (h : c.Ordered) (hcore : c'.core = c.core) : c'.Ordered := by
  have hregistry := congrArg registry hcore
  have hconfig := congrArg Conn.config hcore
  have hclose := congrArg Conn.closeErr hcore
  exact h.of_registry hregistry hconfig hclose

/-- A stream of the table was not forgotten. -/
theorem of_table (h : c.Ordered) (hopen : c.closeErr = none) {id : Nat} {r : Ref}
    (htable : c.streams id = some r) :
    r < c.count ∧ (c.heap r).id = id ∧ (c.heap r).done = false :=
  (h.tabled hopen id r).mp htable

/-- A stream that was opened is there. -/
theorem of_opened (h : c.Ordered) {id : Nat} (hopened : c.HasOpened id) :
    ∃ r < c.count, (c.heap r).id = id := by
  rw [hasOpened_iff] at hopened
  have hnext := h.sound.named.next_le (c.registry.own id) (streamDir id)
  have hshift := Nat.shiftRight_eq_div_pow id 2
  exact h.sound.named.found id ⟨by omega, hopened⟩

/-- A frame about a stream of the table opens no other. -/
theorem streamLocked_of_table (h : c.Ordered) (hopen : c.closeErr = none) {id : Nat} {r : Ref}
    (htable : c.streams id = some r) (recv : Bool) :
    (c.streamLocked id recv = (c, .ok (some r)) ∧
        ¬ (streamDir id = .uni ∧ c.initiatedLocally id = recv)) ∨
      ∃ err, c.streamLocked id recv = (c, .error err) := by
  obtain ⟨hr, hid, -⟩ := h.of_table hopen htable
  have hopened := ((opened_iff c id).mp (hid ▸ h.sound.named.opened r hr)).2
  unfold streamLocked
  dsimp only
  split_ifs with hdir hlocal hnext hmax
  · exact Or.inr ⟨_, rfl⟩
  · exact Or.inr ⟨_, rfl⟩
  · exact Or.inl ⟨by rw [htable], hdir⟩
  · exact Or.inr ⟨_, rfl⟩
  · have hsame : c.openThrough (streamDir id) (id >>> 2) = c := by
      rw [HasOpened, if_neg hlocal] at hopened
      unfold openThrough
      rw [Nat.sub_eq_zero_of_le (Nat.succ_le_of_lt hopened)]
      rfl
    rw [hsame, htable]
    exact Or.inl ⟨rfl, hdir⟩

/-- The head of a queue is a stream. -/
theorem of_queue (h : c.Ordered) {dir : Dir} {r : Ref} {rest : List Ref}
    (hqueue : (c.incoming dir).queue = r :: rest) : r < c.count := by
  have hhead : c.registry.queue dir = r :: rest := hqueue
  exact (h.sound.queued.head hhead).1

/-- A stream with an open side was not forgotten. -/
theorem not_done (h : c.Ordered) {r : Ref} (hr : r < c.count)
    (hside : (c.heap r).recvDone = false ∨ (c.heap r).sendDone = false) :
    (c.heap r).done = false := by
  by_contra hcase
  have hdone : (c.heap r).done = true := by simpa using hcase
  have hended := (h.sound.over_of_done r hr hdone).2
  change ((c.heap r).recvDone && (c.heap r).sendDone) = true at hended
  rcases hside with hside | hside <;> simp [hside] at hended

/-- The limits of the peer do not come near the end of a `uint64`. -/
theorem incoming_max (h : c.Ordered) (hlimit : ∀ dir, c.config.incomingLimit dir ≤ 2 ^ 60)
    (dir : Dir) : (c.incoming dir).max ≤ 2 ^ 61 := by
  have hcredit := h.sound.limited.credit dir
  have hnext := h.sound.named.next_le false dir
  change (c.incoming dir).max + _ = _ + (c.incoming dir).next at hcredit
  change (c.incoming dir).next ≤ _ at hnext
  have hle := hlimit dir
  omega

end Ordered

theorem holdsRecv_iff {c : Conn} {r : Ref} : c.holdsRecv r = true ↔
    r < c.count ∧ (c.heap r).accepted = true ∧ (c.heap r).canRecv = true := by
  simp [holdsRecv, and_assoc]

theorem holdsSend_iff {c : Conn} {r : Ref} : c.holdsSend r = true ↔
    r < c.count ∧ (c.heap r).accepted = true ∧ (c.heap r).canSend = true := by
  simp [holdsSend, and_assoc]

namespace Ordered

variable {c c' : Conn} {r : Ref}

theorem start (config : Config) (isServer : Bool) : (Conn.new config isServer).Ordered := by
  refine ⟨⟨⟨?_, ?_, ?_, ?_, ?_, ?_⟩, ⟨?_, ?_, ?_⟩, ⟨?_, ?_, ?_, ?_, ?_, ?_⟩, ?_⟩, ?_, ?_⟩
  · exact fun r hr => absurd hr (Nat.not_lt_zero r)
  · exact fun r hr => absurd hr (Nat.not_lt_zero r)
  · rintro id ⟨-, hlt⟩
    simp [registry, Conn.new] at hlt
  · intro isLocal dir
    cases isLocal <;> exact Nat.zero_le _
  · exact fun r hr => absurd hr (Nat.not_lt_zero r)
  · exact fun r hr => absurd hr (Nat.not_lt_zero r)
  · exact fun dir => Nat.zero_le _
  · exact fun dir i r hr => by simp [registry, Conn.new] at hr
  · exact fun r hr => absurd hr (Nat.not_lt_zero r)
  · exact fun dir => Nat.zero_le _
  · exact fun dir => Nat.zero_le _
  · exact fun dir => Nat.zero_le _
  · exact fun _ dir => rfl
  · exact fun dir => rfl
  · exact fun dir => rfl
  · exact fun r hr => absurd hr (Nat.not_lt_zero r)
  · exact fun r hr => absurd hr (Nat.not_lt_zero r)
  · exact fun _ id r => ⟨(fun h => by cases h), fun h => absurd h.1 (Nat.not_lt_zero r)⟩

/-- `completeLocked` settles the one stream that may be over. -/
private theorem complete (hsound : c.registry.Sound c.config.incomingLimit)
    (hbut : c.registry.SettledBut r) (htabled : c.closeErr = none → c.registry.Tabled)
    (hr : r < c.count) (htidy : (c.heap r).Tidy)
    (hmax : ∀ dir, (c.incoming dir).max ≤ 2 ^ 61) : (c.completeLocked r).Ordered := by
  have hview := completeLocked_registry htidy hmax
  have hconfig := (Extends.completeLocked c r).config
  have hclose := (completeLocked_closeErr c r).1
  constructor
  · rw [hview, hconfig]
    exact hsound.complete hr
  · rw [hview]
    exact hbut.complete
  · intro hopen
    rw [hview]
    exact (htabled (hclose ▸ hopen)).complete hsound.named hr

private theorem touches {s : Stream} {frames : List Frame} (h : c.Ordered)
    (hlimit : ∀ dir, c.config.incomingLimit dir ≤ 2 ^ 60) (htouches : c.Touches r s frames c')
    (hr : r < c.count) (hdone : (c.heap r).done = false) (hsame : (c.heap r).SameSlot s)
    (htidy : s.Tidy) : (c'.completeLocked r).Ordered := by
  have hview := registry_touches htouches hsame
  have hmax := h.incoming_max hlimit
  have hparts : c'.config = c.config ∧ c'.closeErr = c.closeErr ∧ c'.count = c.count ∧
      c'.heap r = s ∧ c'.incoming = c.incoming := by
    obtain ⟨a, -, rfl⟩ := htouches
    exact ⟨rfl, rfl, rfl, Function.update_self _ _ _, rfl⟩
  obtain ⟨hconfig, hclose, hcount, hheap, hincoming⟩ := hparts
  refine complete ?_ ?_ ?_ (hcount ▸ hr) (hheap ▸ htidy) (hincoming ▸ hmax)
  · rw [hview, hconfig]
    exact h.sound.settle hdone
  · rw [hview]
    exact h.settled.settle
  · rw [hview, hclose]
    exact fun hopen => (h.tabled hopen).settle

private theorem setStream {s : Stream} (h : c.Ordered) (hslot : s.slot = (c.heap r).slot) :
    (c.setStream r s).Ordered := by
  refine h.of_registry ?_ rfl rfl
  exact congrArg (fun slots => { c.registry with slots := slots })
    (Heap.map_update_of_eq Stream.slot c.heap r s hslot)

private theorem add {isLocal : Bool} {dir : Dir} (h : c.Ordered)
    (hview : c'.registry = c.registry.add isLocal dir (c.registry.fresh isLocal dir))
    (hconfig : c'.config = c.config) (hclose : c'.closeErr = c.closeErr)
    (hnext : c.registry.next isLocal dir < 2 ^ 60)
    (hmax : c.registry.next isLocal dir < c.registry.max isLocal dir) : c'.Ordered := by
  constructor
  · rw [hview, hconfig]
    exact h.sound.add hnext hmax
  · rw [hview]
    exact h.settled.add
  · rw [hview, hclose]
    exact fun hopen => (h.tabled hopen).add h.sound.named hnext

private theorem raise {max : Dir → Nat} (h : c.Ordered)
    (hview : c'.registry = c.registry.raise max) (hconfig : c'.config = c.config)
    (hclose : c'.closeErr = c.closeErr) (hnext : ∀ dir, (c.out dir).next ≤ max dir)
    (hmax : ∀ dir, max dir ≤ 2 ^ 60) : c'.Ordered := by
  constructor
  · rw [hview, hconfig]
    exact h.sound.raise hnext hmax
  · rw [hview]
    exact h.settled
  · rw [hview, hclose]
    exact h.tabled

private theorem accept {dir : Dir} {rest : List Ref} (h : c.Ordered)
    (htidy : ∀ r < c.count, (c.heap r).Tidy)
    (hlimit : ∀ dir, c.config.incomingLimit dir ≤ 2 ^ 60)
    (hqueue : (c.incoming dir).queue = r :: rest) : (c.acceptNext dir r rest).Ordered := by
  have hview := registry_accept c r dir rest
  have hhead : c.registry.queue dir = r :: rest := hqueue
  have hr : r < c.count := h.of_queue hqueue
  have hold := htidy r hr
  have hmax := h.incoming_max hlimit
  have hstate : c.acceptNext dir r rest =
      ((c.setIncoming dir { c.incoming dir with queue := rest }).setStream r
        { c.heap r with accepted := true }).completeLocked r := rfl
  rw [hstate]
  refine complete ?_ ?_ ?_ hr ?_ ?_
  · rw [hview]
    exact h.sound.accept hhead
  · rw [hview]
    exact h.settled.accept
  · rw [hview]
    exact fun hopen => (h.tabled hopen).accept
  · simp only [Conn.setStream, Function.update_self]
    exact ⟨hold.buffer, hold.err, hold.dropped⟩
  · intro d
    rcases eq_or_ne d dir with rfl | hd
    · simpa [Conn.setStream, setIncoming] using hmax d
    · simpa [Conn.setStream, setIncoming, hd] using hmax d

theorem terminate (h : c.Ordered) (err : ConnError) : (c.terminate err).1.Ordered := by
  unfold Conn.terminate
  split_ifs with hclosed
  · exact h
  · have hslots : (fun r => ((c.terminated err).heap r).slot) = fun r => (c.heap r).slot := by
      funext r
      simp only [terminated]
      split_ifs <;> rfl
    have hview : (c.terminated err).registry =
        { c.registry with table := fun _ => none } :=
      congrArg (fun slots => { c.registry with table := fun _ => none, slots := slots }) hslots
    constructor
    · rw [hview]
      exact ⟨{ h.sound.named with }, { h.sound.queued with }, { h.sound.limited with },
        h.sound.over_of_done⟩
    · rw [hview]
      exact h.settled
    · exact fun hcase => by cases hcase

private theorem takeData_same [GoAppend] (s : Stream) (f : Wire.Stream) :
    s.SameSlot (s.takeData f) := by
  unfold Stream.takeData Stream.bufferLocked
  dsimp only
  split_ifs <;> exact ⟨rfl, rfl, rfl, rfl, rfl⟩

private theorem copyOut_same (s : Stream) (n window : Nat) :
    s.SameSlot (s.copyOut n window) := by
  unfold Stream.copyOut Stream.advance
  dsimp only
  split_ifs <;> exact ⟨rfl, rfl, rfl, rfl, rfl⟩

/-- Data that was not read, or a side that can still send, is of a stream that
was not forgotten. -/
private theorem unread_open {s : Stream} (htidy : s.Tidy) (hrecv : s.canRecv = true)
    (herr : s.recvErr = none) (hunread : s.roff < s.rbuf.data.length) : s.recvDone = false := by
  have hnone := htidy.err
  simp only [herr, Option.isSome_none, Bool.false_eq, Bool.or_eq_false_iff] at hnone
  unfold Stream.recvDone
  simp [hrecv, hnone.1, hnone.2, Nat.ne_of_lt hunread]

private theorem send_open {s : Stream} (hsend : s.canSend = true) (herr : s.sendErr = none)
    (hfin : s.finSent = false) : s.sendDone = false := by
  simp [Stream.sendDone, hsend, herr, hfin]

/-- An act is on a stream that was not forgotten. -/
theorem of_act [GoAppend] {heard : Parsed → Prop} {t : Traffic} {s : Stream}
    {frames : List Frame} {d : Conn} (h : c.Ordered) (htidy : ∀ r < c.count, (c.heap r).Tidy)
    (hopen : c.closeErr = none) (hact : Act heard c r t s frames d) :
    r < c.count ∧ (c.heap r).done = false := by
  have htabled {id : Nat} (htable : c.streams id = some r) :
      r < c.count ∧ (c.heap r).done = false :=
    ⟨(h.of_table hopen htable).1, (h.of_table hopen htable).2.2⟩
  cases hact with
  | data hready hheard hbound hdir htable => exact htabled htable
  | reset hready hheard hbound hdir htable => exact htabled htable
  | resetSend hcause hsend =>
      rcases hcause with ⟨hholds, -⟩ | ⟨f, -, -, htable, -⟩
      · have hr := (holdsSend_iff.mp hholds).1
        exact ⟨hr, h.not_done hr (Or.inr hsend)⟩
      · exact htabled htable
  | read hholds herr hunread hn =>
      obtain ⟨hr, -, hrecv⟩ := holdsRecv_iff.mp hholds
      exact ⟨hr, h.not_done hr (Or.inl (unread_open (htidy _ hr) hrecv herr hunread))⟩
  | cancel hholds herr hdone =>
      have hr := (holdsRecv_iff.mp hholds).1
      exact ⟨hr, h.not_done hr (Or.inl hdone)⟩
  | finish hholds herr hfin =>
      obtain ⟨hr, -, hsend⟩ := holdsSend_iff.mp hholds
      exact ⟨hr, h.not_done hr (Or.inr (send_open hsend herr hfin))⟩

private theorem sameSlot_of_act [GoAppend] {heard : Parsed → Prop} {t : Traffic} {s : Stream}
    {frames : List Frame} {d : Conn} (hact : Act heard c r t s frames d) :
    (c.heap r).SameSlot s := by
  cases hact with
  | data => exact takeData_same _ _
  | read => exact copyOut_same _ _ _
  | _ => exact ⟨rfl, rfl, rfl, rfl, rfl⟩

/-- Every move keeps the streams in order. -/
theorem step [Quicvarint] [GoAppend] {heard : Parsed → Prop} {t : Traffic} (h : c.Ordered)
    (htidy : ∀ r < c.count, (c.heap r).Tidy)
    (hlimit : ∀ dir, c.config.incomingLimit dir ≤ 2 ^ 60) (hmove : Move heard c t c') :
    c'.Ordered := by
  cases hmove with
  | still htook hhanded hpings hreads hcore => exact h.of_core hcore
  | act hopen hact =>
      obtain ⟨hr, hdone⟩ := h.of_act htidy hopen hact
      exact h.touches hlimit hact.touches hr hdone (sameSlot_of_act hact) ((htidy _ hr).step hact.step)
  | @parameters p hopen hready hheard hbound =>
      have hunready := h.sound.limited.unready hready
      refine h.raise (registry_parameters p) rfl rfl (fun dir => ?_) (fun dir => ?_)
      · have hzero := h.sound.limited.outgoing dir
        rw [hunready dir] at hzero
        exact Nat.le_trans hzero (Nat.zero_le _)
      · cases dir with
        | bidi => exact hbound.2.1
        | uni => exact hbound.2.2
  | @openIncoming f id hopen hready hheard hstream hbound hpeer hnext hmax =>
      have hindex : (c.incoming (streamDir id)).next < 2 ^ 60 :=
        Nat.lt_of_le_of_lt hnext (index_lt hbound)
      exact h.add (registry_openIncoming hindex) rfl rfl hindex (Nat.lt_of_le_of_lt hnext hmax)
  | @openLocal dir hopen hmax =>
      have hle : (c.out dir).max ≤ 2 ^ 60 := h.sound.limited.outgoing_le dir
      have hindex : (c.out dir).next < 2 ^ 60 := Nat.lt_of_lt_of_le hmax hle
      exact h.add (registry_openLocal hindex) rfl rfl hindex hmax
  | accept hopen hqueue => exact h.accept htidy hlimit hqueue
  | raiseStream => exact h.setStream rfl
  | raiseData => exact h.of_registry rfl rfl rfl
  | @raiseStreams f hopen hheard hbound hready =>
      have hconfig : (c.handleMaxStreams f).config = c.config ∧
          (c.handleMaxStreams f).closeErr = c.closeErr := by
        obtain ⟨out, hout⟩ := c.handleMaxStreams_frame f
        rw [hout]
        exact ⟨rfl, rfl⟩
      have hmax (dir : Dir) : (c.out dir).max ≤ ((c.handleMaxStreams f).out dir).max ∧
          ((c.handleMaxStreams f).out dir).max ≤ 2 ^ 60 := by
        have hold : (c.out dir).max ≤ 2 ^ 60 := h.sound.limited.outgoing_le dir
        unfold handleMaxStreams
        dsimp only
        generalize (if f.uni = true then Dir.uni else Dir.bidi) = d
        split_ifs with hgrows
        · rcases eq_or_ne dir d with rfl | hne
          · simpa [setOut] using ⟨Nat.le_of_lt hgrows, hbound⟩
          · simpa [setOut, hne] using hold
        · exact ⟨Nat.le_refl _, hold⟩
      refine h.raise (registry_maxStreams f hready) hconfig.1 hconfig.2 (fun dir => ?_)
        (fun dir => (hmax dir).2)
      exact Nat.le_trans (h.sound.limited.outgoing dir) (hmax dir).1
  | pinged => exact h.of_registry rfl rfl rfl
  | pong => exact h.of_registry rfl rfl rfl
  | @reserve r p n =>
      have hset : (c.setStream r { c.heap r with
          sendOffset := Word.add (c.heap r).sendOffset n }).Ordered := h.setStream rfl
      exact hset.of_registry rfl rfl rfl
  | @flush now =>
      obtain ⟨_, _, _, _, hflush⟩ := c.flushed_frame now
      rw [hflush]
      exact h.of_registry rfl rfl rfl
  | datagram => exact h
  | close => exact h
  | woken => exact h.of_core rfl

end Ordered

/-- The streams of every history are in order. -/
theorem History.ordered [Quicvarint] [GoAppend] {config : Config} {isServer : Bool}
    {heard : Parsed → Prop} {t : Traffic} {c : Conn} (hconfig : config.Valid)
    (hhistory : History config isServer heard t c) : c.Ordered := by
  induction hhistory with
  | start => exact .start config isServer
  | move hprior hmove ih =>
      refine ih.step (History.tidy hprior) ?_ hmove
      rw [(History.config hprior).1]
      exact hconfig.incomingLimit_le
  | terminate err _ ih => exact ih.terminate err

end Conn

end Qmux
