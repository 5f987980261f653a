import Qmux.Control.Allowance

/-!
How long the control queue can get between two flushes. A stream queues only so
much, and one that is over makes room for another only once the peer was told.
So a peer that keeps to the limits it was told can have only so much queued. The
budget says how much is left: what every stream may still queue, and three
frames for every stream that the peer may still open.
-/

namespace Qmux

open Wire

namespace Conn

/-- What the connection may still queue until the next flush. -/
def allowances (handed : List Frame) (c : Conn) : Nat :=
  Heap.total c.heap c.count (fun s => s.allowance (c.config.toldStreamData handed s.id))

/-- The peer has kept to what it was told, and what was queued since the last
flush is paid for. -/
structure Budget (handed : List Frame) (c : Conn) : Prop where
  funded : ∀ r < c.count, (c.heap r).Funded c.config.streamWindow
    (c.config.toldStreamData handed (c.heap r).id)
  opened : ∀ dir, (c.incoming dir).next ≤ c.config.toldStreams handed dir
  paid : c.control.length + c.allowances handed +
      3 * (c.config.toldStreams handed .bidi + c.config.toldStreams handed .uni) ≤
    3 * (c.config.incomingLimit .bidi + c.config.incomingLimit .uni +
      (c.incoming .bidi).next + (c.incoming .uni).next)

/-- The connection has opened no streams itself. -/
def Passive (c : Conn) : Prop :=
  ∀ r < c.count, c.initiatedLocally (c.heap r).id = false

theorem Extends.passive {c c' : Conn} (h : c.Extends c') (hpassive : c'.Passive) : c.Passive := by
  intro r hr
  have hpeer := hpassive r (hr.trans_le h.count)
  unfold Conn.initiatedLocally at hpeer ⊢
  rw [(h.streams r hr).id, h.isServer] at hpeer
  exact hpeer

/-- What is queued is within the budget for all streams the peer may have. -/
theorem Budget.control_le {handed : List Frame} {c : Conn} (h : c.Budget handed) :
    c.control.length ≤ 3 * (c.config.incomingLimit .bidi + c.config.incomingLimit .uni) := by
  have hpaid := h.paid
  have hbidi := h.opened .bidi
  have huni := h.opened .uni
  omega

namespace Budget

variable {handed : List Frame} {c c' : Conn} {r : Ref}

/-- A change to one stream, which queues `frames`. -/
theorem update {s : Stream} {frames : List Frame} (h : c.Budget handed)
    (hr : r < c.count) (hconfig : c'.config = c.config) (hcount : c'.count = c.count)
    (hheap : c'.heap = Function.update c.heap r s)
    (hnext : ∀ dir, (c'.incoming dir).next = (c.incoming dir).next)
    (hcontrol : c'.control = c.control ++ frames)
    (hfunded : s.Funded c.config.streamWindow (c.config.toldStreamData handed s.id))
    (hcost : frames.length + s.allowance (c.config.toldStreamData handed s.id) ≤
      (c.heap r).allowance (c.config.toldStreamData handed (c.heap r).id)) :
    c'.Budget handed := by
  have hat (i : Ref) : c'.heap i = if i = r then s else c.heap i := by
    rw [hheap, Function.update_apply]
  refine ⟨fun i hi => ?_, fun dir => ?_, ?_⟩
  · rw [hat, hconfig]
    split_ifs
    · exact hfunded
    · exact h.funded i (hcount ▸ hi)
  · rw [hnext, hconfig]
    exact h.opened dir
  · have hpaid := h.paid
    have htotal := Heap.total_update c.heap hr
      (fun s => s.allowance (c.config.toldStreamData handed s.id)) s
    have hsum : c'.allowances handed + (c.heap r).allowance
        (c.config.toldStreamData handed (c.heap r).id) =
        c.allowances handed + s.allowance (c.config.toldStreamData handed s.id) := by
      unfold allowances
      rw [hconfig, hheap, hcount]
      exact htotal
    rw [hcontrol, List.length_append, hconfig, hnext, hnext]
    omega

/-- Nothing of the budget changes. -/
theorem same (h : c.Budget handed) (hconfig : c'.config = c.config)
    (hcount : c'.count = c.count) (hcore : ∀ r, (c'.heap r).core = (c.heap r).core)
    (hnext : ∀ dir, (c'.incoming dir).next = (c.incoming dir).next)
    (hcontrol : c'.control = c.control) : c'.Budget handed := by
  have hid (i : Ref) : (c'.heap i).id = (c.heap i).id := (congrArg Stream.id (hcore i) :)
  have hsum : c'.allowances handed = c.allowances handed := by
    unfold allowances
    rw [hconfig, hcount]
    refine Heap.total_congr (fun i _ => ?_)
    rw [hid i]
    exact (congrArg (Stream.allowance _) (hcore i) :)
  refine ⟨fun i hi => ?_, fun dir => ?_, ?_⟩
  · have hcan : (c'.heap i).canRecv = (c.heap i).canRecv := (congrArg Stream.canRecv (hcore i) :)
    have herr : (c'.heap i).recvErr = (c.heap i).recvErr := (congrArg Stream.recvErr (hcore i) :)
    have hmax : (c'.heap i).recvMax = (c.heap i).recvMax := (congrArg Stream.recvMax (hcore i) :)
    have hoffset : (c'.heap i).recvOffset = (c.heap i).recvOffset :=
      (congrArg Stream.recvOffset (hcore i) :)
    have hfunded := h.funded i (hcount ▸ hi)
    constructor
    · rw [hid, hcan, herr, hoffset, hconfig]
      exact hfunded.within
    · rw [hid, hcan, hmax, hconfig]
      exact hfunded.ahead
  · rw [hnext, hconfig]
    exact h.opened dir
  · rw [hcontrol, hsum, hconfig, hnext, hnext]
    exact h.paid

theorem setIncoming_next (c : Conn) {dir : Dir} {i : Incoming}
    (hnext : i.next = (c.incoming dir).next) (other : Dir) :
    ((c.setIncoming dir i).incoming other).next = (c.incoming other).next :=
  congrFun (Heap.map_update_of_eq Incoming.next c.incoming dir i hnext) other

/-- A stream that is forgotten queues nothing more. -/
theorem completeLocked (h : c.Budget handed) (hr : r < c.count) :
    (c.completeLocked r).Budget handed := by
  have hover : Stream.allowance (c.config.toldStreamData handed (c.heap r).id)
      { c.heap r with done := true, rbuf := .nil } = 0 := if_pos rfl
  unfold Conn.completeLocked
  dsimp only
  split_ifs
  · exact h
  all_goals
    refine h.update (s := { c.heap r with done := true, rbuf := .nil }) hr rfl rfl rfl ?_
      (List.append_nil _).symm ⟨(h.funded r hr).within, (h.funded r hr).ahead⟩ ?_
  · exact fun _ => rfl
  · exact hover.trans_le (Nat.zero_le _)
  · exact setIncoming_next c rfl
  · exact hover.trans_le (Nat.zero_le _)

/-- An act queues what its stream has left. -/
theorem act [GoAppend] {heard : Parsed → Prop} {t : Traffic} {s : Stream} {frames : List Frame}
    {d : Conn} (h : c.Budget handed) (hordered : c.Ordered) (hopen : c.closeErr = none)
    (hsound : ∀ r < c.count, (c.heap r).Sound c.config.streamWindow)
    (hwindow : c.config.streamWindow ≤ maxVarint)
    (hkeeps : ∀ f, heard f → f.keepsTo c.config c.isServer handed = true)
    (hact : Act heard c r t s frames d) : (d.completeLocked r).Budget handed := by
  obtain ⟨hr, hdone⟩ := hordered.of_act (fun r hr => (hsound r hr).tidy) hopen hact
  have hfunded := h.funded r hr
  have htouched : d.Budget handed := by
    obtain ⟨a, -, hd⟩ := hact.touches
    suffices hspent : s.Funded c.config.streamWindow
          (c.config.toldStreamData handed (c.heap r).id) ∧
        frames.length + s.allowance (c.config.toldStreamData handed (c.heap r).id) ≤
          (c.heap r).allowance (c.config.toldStreamData handed (c.heap r).id) by
      rw [← hact.keeps.id] at hspent
      exact h.update hr (by rw [hd]; rfl) (by rw [hd]; rfl) (by rw [hd]; rfl)
        (fun dir => by rw [hd]; rfl) (congrArg Conn.control hd) hspent.1 (hact.keeps.id ▸ hspent.2)
    cases hact with
    | @data f hready hheard hbound hdir htable hoffset =>
        refine ⟨hfunded.takeData ?_, (Nat.zero_add _).le.trans (Stream.takeData_allowance ..).le⟩
        have hvarint : maxVarint = 2 ^ 62 - 1 := rfl
        obtain ⟨-, hsmall, hlen⟩ := hbound
        rw [(hordered.of_table hopen htable).2.1, ← hoffset, Word.add_of_lt (by omega)]
        exact Parsed.keepsTo_data (hkeeps _ hheard)
    | @reset f =>
        refine ⟨⟨fun _ herr => ?_, hfunded.ahead⟩, Stream.takeReset_allowance hdone _ _⟩
        unfold Stream.takeReset at herr
        cases hold : (c.heap r).recvErr <;> simp [hold] at herr
    | resetSend hcause hsend =>
        exact ⟨⟨hfunded.within, hfunded.ahead⟩, Stream.resetSend_allowance hdone hsend _ _⟩
    | read hholds herr hunread hn =>
        exact hfunded.copyOut (hsound r hr) hwindow hdone herr hunread hn
    | cancel hholds herr =>
        have hcan := (holdsRecv_iff.mp hholds).2.2
        refine ⟨⟨nofun, hfunded.ahead⟩, ?_⟩
        refine Nat.le_trans (Nat.add_le_add_right ?_ _)
          (Stream.cancelRead_allowance hdone hcan herr _ _)
        split_ifs <;> simp
    | finish =>
        exact ⟨⟨hfunded.within, hfunded.ahead⟩, Stream.endSend_allowance hdone _⟩
  have hcount : d.count = c.count := by
    obtain ⟨a, -, hd⟩ := hact.touches
    rw [hd]
    rfl
  exact htouched.completeLocked (hcount ▸ hr)

/-- The peer is told no limit. -/
theorem untold {more : List Frame} (h : c.Budget handed)
    (hstreams : ∀ dir, more.filterMap (Frame.maxStreams? dir) = [])
    (hstream : ∀ id, more.filterMap (Frame.maxStreamData? id) = []) :
    c.Budget (handed ++ more) := by
  have htoldStreams : c.config.toldStreams (handed ++ more) = c.config.toldStreams handed := by
    funext dir
    unfold Config.toldStreams
    rw [List.filterMap_append, hstreams, List.append_nil]
  have htoldData : c.config.toldStreamData (handed ++ more) = c.config.toldStreamData handed := by
    funext id
    unfold Config.toldStreamData
    rw [List.filterMap_append, hstream, List.append_nil]
  obtain ⟨hfunded, hopened, hpaid⟩ := h
  unfold allowances at hpaid
  rw [← htoldData] at hfunded hpaid
  rw [← htoldStreams] at hopened hpaid
  exact ⟨hfunded, hopened, hpaid⟩

/-- A stream of the peer is opened: one that it was told it may open. -/
theorem openIncoming {dir : Dir} (h : c.Budget handed)
    (hnext : (c.incoming dir).next < c.config.toldStreams handed dir)
    (hword : (c.incoming dir).next < 2 ^ 60)
    (hfresh : c.config.toldStreamData handed (c.streamID (c.incoming dir).next dir false) =
      c.config.streamWindow) : (c.openIncoming dir).Budget handed := by
  have hadd : Word.add (c.incoming dir).next 1 = (c.incoming dir).next + 1 :=
    Word.add_of_lt (by omega)
  have hopened (other : Dir) : ((c.openIncoming dir).incoming other).next =
      if other = dir then (c.incoming dir).next + 1 else (c.incoming other).next := by
    change (Function.update c.incoming dir _ other).next = _
    rw [Function.update_apply, apply_ite Incoming.next, hadd]
  refine ⟨fun r hr => ?_, fun other => ?_, ?_⟩
  · change (Function.update c.heap c.count _ r).Funded _ (Config.toldStreamData _ _
      (Function.update c.heap c.count _ r).id)
    rcases Nat.lt_succ_iff_lt_or_eq.mp hr with hold | rfl
    · rw [Function.update_of_ne hold.ne]
      exact h.funded r hold
    · rw [Function.update_self]
      exact ⟨fun _ _ => Nat.zero_le _, fun hcan => Or.inl ((if_pos hcan).trans hfresh.symm)⟩
  · rw [hopened]
    split_ifs with hsame
    · exact hsame ▸ hnext
    · exact h.opened other
  · have hpaid := h.paid
    have htotal : (c.openIncoming dir).allowances handed = c.allowances handed + _ :=
      Heap.total_alloc c.heap c.count
        (fun s => s.allowance (c.config.toldStreamData handed s.id)) _
    have hnew : Stream.allowance _ _ ≤ 3 := Stream.allowance_le
      (c.newStream (c.streamID (c.incoming dir).next dir false))
      (c.config.toldStreamData handed (c.newStream (c.streamID (c.incoming dir).next dir false)).id)
    have hsum : ((c.openIncoming dir).incoming .bidi).next +
        ((c.openIncoming dir).incoming .uni).next =
        (c.incoming .bidi).next + (c.incoming .uni).next + 1 := by
      rw [hopened, hopened]
      cases dir <;> simp <;> omega
    have hconfig : (c.openIncoming dir).config = c.config := rfl
    have hcontrol : (c.openIncoming dir).control = c.control := rfl
    rw [htotal, hconfig, hcontrol]
    omega

/-- Three frames for every stream of the peer that is not forgotten. -/
private theorem allowances_le (hpassive : c.Passive) :
    c.allowances handed ≤
      3 * (Heap.total c.registry.slots c.registry.count (c.registry.live .bidi) +
        Heap.total c.registry.slots c.registry.count (c.registry.live .uni)) := by
  unfold allowances Heap.total
  rw [← Finset.sum_add_distrib, Finset.mul_sum]
  refine Finset.sum_le_sum (fun r hr => (Stream.allowance_le _ _).trans ?_)
  have hown : c.registry.own (c.heap r).id = false := hpassive r (Finset.mem_range.mp hr)
  change _ ≤ 3 * (c.registry.live .bidi (c.heap r).slot + c.registry.live .uni (c.heap r).slot)
  unfold Registry.live Stream.slot
  simp only [hown]
  cases (c.heap r).done <;> cases streamDir (c.heap r).id <;> decide

/-- With nothing to send, the peer was told all limits and everything is left. -/
theorem of_told (htold : c.LimitsTold handed) (hordered : c.Ordered)
    (hsound : ∀ r < c.count, (c.heap r).Sound c.config.streamWindow)
    (hpassive : c.Passive)
    (hcontrol : c.control = []) (hpending : ∀ dir, (c.incoming dir).pending = false) :
    c.Budget handed := by
  have hstreams (dir : Dir) : c.config.toldStreams handed dir = (c.incoming dir).max :=
    (htold.streams dir).current (hpending dir)
  have hstream {r : Ref} (hr : r < c.count) (hcan : (c.heap r).canRecv = true) :
      c.config.toldStreamData handed (c.heap r).id = (c.heap r).recvMax := by
    have hcurrent := (htold.stream r hr hcan).current rfl
    rw [hcontrol, List.append_nil] at hcurrent
    exact hcurrent
  have hlimited := hordered.sound.limited
  refine ⟨fun r hr => ⟨fun hcan _ => ?_, fun hcan => Or.inl (hstream hr hcan).symm⟩,
    fun dir => ?_, ?_⟩
  · rw [hstream hr hcan]
    exact (hsound r hr).credited.recv_le
  · rw [hstreams]
    exact hlimited.incoming dir
  · have hbidi := hlimited.credit .bidi
    have huni := hlimited.credit .uni
    have hle : c.allowances handed ≤ _ := allowances_le hpassive
    change (c.incoming .bidi).max + _ = _ + (c.incoming .bidi).next at hbidi
    change (c.incoming .uni).max + _ = _ + (c.incoming .uni).next at huni
    rw [hstreams, hstreams, hcontrol, List.length_nil]
    omega

end Budget

end Conn

end Qmux
