import Qmux.Registry.Basic

/-!
The end of a stream: the application accepts it, its sides end, and the
connection forgets it.
-/

namespace Qmux

open Wire

/-- `s'` is a later slot of the stream of `s`. -/
def Slot.Later (s s' : Slot) : Prop :=
  s'.id = s.id ∧ s'.canRecv = s.canRecv ∧ s'.canSend = s.canSend

namespace Registry

variable {v : Registry} {limit : Dir → Nat} {r : Ref}

/-- What relates a slot to its update, and any slot to itself, relates all
slots. -/
private theorem forall_update {slots : Ref → Slot} {s : Slot} {P : Slot → Slot → Prop}
    (hr : P (slots r) s) (hrest : ∀ s, P s s) (i : Ref) :
    P (slots i) (Function.update slots r s i) := by
  rcases eq_or_ne i r with rfl | hne
  · rwa [Function.update_self]
  · rw [Function.update_of_ne hne]
    exact hrest _

private theorem Named.later {v' : Registry} (h : v.Named) (hserver : v'.isServer = v.isServer)
    (hcount : v'.count = v.count) (hnext : v'.next = v.next)
    (hslots : ∀ i, (v.slots i).Later (v'.slots i)) : v'.Named := by
  have hid (i : Ref) : (v'.slots i).id = (v.slots i).id := (hslots i).1
  have hown (id : Nat) : v'.own id = v.own id := by
    unfold own
    rw [hserver]
  have hopened (id : Nat) : v'.Opened id ↔ v.Opened id := by
    unfold Opened
    rw [hown, hnext]
  refine ⟨fun i hi => ?_, fun i hi j hj heq => ?_, fun id hopen => ?_, fun l d => ?_,
    fun i hi => ?_, fun i hi => ?_⟩
  · rw [hopened, hid]
    exact h.opened i (hcount ▸ hi)
  · rw [hid, hid] at heq
    exact h.unique i (hcount ▸ hi) j (hcount ▸ hj) heq
  · obtain ⟨i, hi, heq⟩ := h.found id ((hopened id).mp hopen)
    exact ⟨i, hcount ▸ hi, (hid i).trans heq⟩
  · rw [hnext]
    exact h.next_le l d
  · rw [(hslots i).2.1, hid, hown]
    exact h.recv i (hcount ▸ hi)
  · rw [(hslots i).2.2, hid, hown]
    exact h.send i (hcount ▸ hi)

private theorem Limited.later {v' : Registry} (h : v.Limited limit)
    (hslots : ∀ i, (v'.slots i).id = (v.slots i).id ∧ (v'.slots i).done = (v.slots i).done)
    (hserver : v'.isServer = v.isServer) (hready : v'.ready = v.ready)
    (hcount : v'.count = v.count) (hnext : v'.next = v.next) (hmax : v'.max = v.max) :
    v'.Limited limit := by
  have hlive (d : Dir) : Heap.total v'.slots v'.count (v'.live d) =
      Heap.total v.slots v.count (v.live d) := by
    rw [hcount]
    refine Heap.total_congr (fun i _ => ?_)
    unfold live own
    rw [(hslots i).1, (hslots i).2, hserver]
  have hfinished (d : Dir) : Heap.total v'.slots v'.count (v'.finished d) =
      Heap.total v.slots v.count (v.finished d) := by
    rw [hcount]
    refine Heap.total_congr (fun i _ => ?_)
    unfold finished own
    rw [(hslots i).1, (hslots i).2, hserver]
  constructor
  · rw [hnext, hmax]
    exact h.incoming
  · rw [hnext, hmax]
    exact h.outgoing
  · rw [hmax]
    exact h.outgoing_le
  · rw [hready, hmax]
    exact h.unready
  · intro d
    rw [hlive, hnext, hmax]
    exact h.credit d
  · intro d
    rw [hfinished, hmax]
    exact h.returned d

private theorem Queued.later {v' : Registry} (h : v.Queued) (hserver : v'.isServer = v.isServer)
    (hcount : v'.count = v.count) (hnext : v'.next = v.next) (hqueue : v'.queue = v.queue)
    (hslots : ∀ i, (v'.slots i).id = (v.slots i).id ∧
      (v'.slots i).accepted = (v.slots i).accepted) : v'.Queued := by
  have haccepted (d : Dir) : v'.acceptedCount d = v.acceptedCount d := by
    unfold acceptedCount
    rw [hnext, hqueue]
  refine ⟨fun d => ?_, fun d i r hr => ?_, fun r hr => ?_⟩
  · rw [hnext, hqueue]
    exact h.length_le d
  · rw [hqueue] at hr
    rw [hcount, (hslots r).1, hserver, haccepted]
    exact h.queued d i r hr
  · unfold own
    rw [(hslots r).1, (hslots r).2, hserver, haccepted]
    exact h.accepted r (hcount ▸ hr)

theorem Tabled.later {v' : Registry} (h : v.Tabled) (hcount : v'.count = v.count)
    (htable : v'.table = v.table)
    (hslots : ∀ i, (v'.slots i).id = (v.slots i).id ∧ (v'.slots i).done = (v.slots i).done) :
    v'.Tabled := by
  intro id i
  rw [htable, hcount, (hslots i).1, (hslots i).2]
  exact h id i

section Settle

variable {ended : Bool}

/-- A stream that was not forgotten may end at any time. -/
theorem Sound.settle (h : v.Sound limit) (hdone : (v.slots r).done = false) :
    (v.settle r ended).Sound limit := by
  have hslots {P : Slot → Slot → Prop} (hr : P (v.slots r) { v.slots r with ended := ended })
      (hrest : ∀ s, P s s) (i : Ref) : P (v.slots i) ((v.settle r ended).slots i) :=
    forall_update hr hrest i
  refine ⟨h.named.later rfl rfl rfl (hslots ⟨rfl, rfl, rfl⟩ (fun _ => ⟨rfl, rfl, rfl⟩)),
    h.queued.later rfl rfl rfl rfl (hslots (P := fun s s' => s'.id = s.id ∧
      s'.accepted = s.accepted) ⟨rfl, rfl⟩ (fun _ => ⟨rfl, rfl⟩)),
    h.limited.later (hslots (P := fun s s' => s'.id = s.id ∧ s'.done = s.done)
      ⟨rfl, rfl⟩ (fun _ => ⟨rfl, rfl⟩)) rfl rfl rfl rfl rfl,
    fun i hi => ?_⟩
  rcases eq_or_ne i r with rfl | hne
  · intro hcase
    simp only [Registry.settle, Function.update_self, hdone, Bool.false_eq_true] at hcase
  · have hrest := h.over_of_done i hi
    simpa only [Registry.settle, Function.update_of_ne hne] using hrest

theorem Settled.settle (h : v.Settled) : (v.settle r ended).SettledBut r := by
  intro i hi hne
  have hrest := h i hi
  simpa only [Registry.settle, Function.update_of_ne hne] using hrest

theorem Tabled.settle (h : v.Tabled) : (v.settle r ended).Tabled :=
  h.later rfl rfl (forall_update (P := fun s s' => s'.id = s.id ∧ s'.done = s.done)
    ⟨rfl, rfl⟩ (fun _ => ⟨rfl, rfl⟩))

end Settle

section Accept

variable {dir : Dir} {rest : List Ref}

theorem acceptedCount_accept (h : v.Queued) (hqueue : v.queue dir = r :: rest) (d : Dir) :
    (v.accept dir r rest).acceptedCount d =
      v.acceptedCount d + if d = dir then 1 else 0 := by
  have hle := h.length_le dir
  rw [hqueue, List.length_cons] at hle
  unfold acceptedCount accept
  dsimp only
  rcases eq_or_ne d dir with rfl | hd
  · simp only [Function.update_self, hqueue, List.length_cons, if_true]
    omega
  · simp [hd]

/-- The stream at the head of the queue has the lowest index that was not
accepted. -/
theorem Queued.head (h : v.Queued) (hqueue : v.queue dir = r :: rest) :
    r < v.count ∧ (v.slots r).id = streamID v.isServer (v.acceptedCount dir) dir false := by
  simpa using h.queued dir 0 r (by rw [hqueue]; rfl)

private theorem Queued.head_parts (h : v.Queued) (hnamed : v.Named)
    (hqueue : v.queue dir = r :: rest) :
    v.own (v.slots r).id = false ∧ streamDir (v.slots r).id = dir ∧
      (v.slots r).id >>> 2 = v.acceptedCount dir := by
  have hbound : v.acceptedCount dir < 2 ^ 62 := by
    have hle := hnamed.next_le false dir
    unfold acceptedCount
    omega
  unfold own
  rw [(h.head hqueue).2]
  exact ⟨initiatedLocally_streamID _ hbound _ _, streamDir_streamID _ hbound _ _,
    streamID_index _ hbound _ _⟩

theorem Queued.accept (h : v.Queued) (hnamed : v.Named) (hqueue : v.queue dir = r :: rest) :
    (v.accept dir r rest).Queued := by
  obtain ⟨hown, hdir, hindex⟩ := h.head_parts hnamed hqueue
  have hcount := acceptedCount_accept h hqueue
  have hslots {P : Slot → Slot → Prop} (hr : P (v.slots r) { v.slots r with accepted := true })
      (hrest : ∀ s, P s s) (i : Ref) : P (v.slots i) ((v.accept dir r rest).slots i) :=
    forall_update hr hrest i
  have hid (i : Ref) : ((v.accept dir r rest).slots i).id = (v.slots i).id :=
    hslots (P := fun s s' => s'.id = s.id) rfl (fun _ => rfl) i
  refine ⟨fun d => ?_, fun d i j hj => ?_, fun i hi => ?_⟩
  · have hle := h.length_le d
    unfold Registry.accept
    dsimp only
    rcases eq_or_ne d dir with rfl | hd
    · rw [hqueue, List.length_cons] at hle
      rw [Function.update_self]
      omega
    · rwa [Function.update_of_ne hd]
  · rw [hid, hcount]
    rcases eq_or_ne d dir with rfl | hd
    · simp only [Registry.accept, Function.update_self] at hj
      have hnext := h.queued d (i + 1) j (by rw [hqueue]; exact hj)
      rw [if_pos rfl, Nat.add_right_comm, Nat.add_assoc]
      exact hnext
    · simp only [Registry.accept, Function.update_of_ne hd] at hj
      rw [if_neg hd]
      exact h.queued d i j hj
  · change i < v.count at hi
    rw [hid, hcount]
    rcases eq_or_ne i r with rfl | hne
    · simp only [Registry.accept, Function.update_self]
      rw [hdir, if_pos rfl, hindex]
      simp
    · have hold := h.accepted i hi
      simp only [Registry.accept, Function.update_of_ne hne]
      rw [hold]
      change (v.own _ || _) = (v.own _ || _)
      cases hlocal : v.own (v.slots i).id with
      | true => rfl
      | false =>
          simp only [Bool.false_or, decide_eq_decide]
          split_ifs with hd
          · have hother : (v.slots i).id >>> 2 ≠ v.acceptedCount dir := by
              intro heq
              refine hne (hnamed.unique i hi r (h.head hqueue).1 ?_)
              have hparts := streamID_parts v.isServer
                (Nat.lt_trans (hnamed.opened i hi).1 (by decide))
              rw [heq, hd] at hparts
              change initiatedLocally v.isServer _ = false at hlocal
              rw [hlocal] at hparts
              exact hparts.symm.trans (h.head hqueue).2.symm
            rw [hd]
            omega
          · rw [Nat.add_zero]

theorem Sound.accept (h : v.Sound limit) (hqueue : v.queue dir = r :: rest) :
    (v.accept dir r rest).Sound limit := by
  have hslots {P : Slot → Slot → Prop} (hr : P (v.slots r) { v.slots r with accepted := true })
      (hrest : ∀ s, P s s) (i : Ref) : P (v.slots i) ((v.accept dir r rest).slots i) :=
    forall_update hr hrest i
  refine ⟨h.named.later rfl rfl rfl (hslots ⟨rfl, rfl, rfl⟩ (fun _ => ⟨rfl, rfl, rfl⟩)),
    h.queued.accept h.named hqueue,
    h.limited.later (hslots (P := fun s s' => s'.id = s.id ∧ s'.done = s.done)
      ⟨rfl, rfl⟩ (fun _ => ⟨rfl, rfl⟩)) rfl rfl rfl rfl rfl,
    fun i hi => ?_⟩
  · refine hslots (P := fun s s' => (s.done = true → s.accepted = true ∧ s.ended = true) →
      s'.done = true → s'.accepted = true ∧ s'.ended = true) ?_ (fun _ hs => hs) i
      (h.over_of_done i hi)
    exact fun hs hdone => ⟨rfl, (hs hdone).2⟩

theorem Settled.accept (h : v.Settled) : (v.accept dir r rest).SettledBut r := by
  intro i hi hne
  have hrest := h i hi
  simpa only [Registry.accept, Function.update_of_ne hne] using hrest

theorem Tabled.accept (h : v.Tabled) : (v.accept dir r rest).Tabled :=
  h.later rfl rfl (forall_update (P := fun s s' => s'.id = s.id ∧ s'.done = s.done)
    ⟨rfl, rfl⟩ (fun _ => ⟨rfl, rfl⟩))

end Accept

section Complete

theorem forget_max_true (v : Registry) (r : Ref) : (v.forget r).max true = v.max true := by
  unfold forget
  dsimp only
  split_ifs
  · rfl
  · exact Function.update_of_ne Bool.false_ne_true.symm _ _

theorem forget_max_false (v : Registry) (r : Ref) (d : Dir) :
    (v.forget r).max false d = v.max false d +
      if v.own (v.slots r).id = false ∧ streamDir (v.slots r).id = d then 1 else 0 := by
  unfold forget
  dsimp only
  cases v.own (v.slots r).id with
  | true => simp
  | false =>
      rcases eq_or_ne d (streamDir (v.slots r).id) with rfl | hd
      · simp
      · simp [hd, hd.symm]

private theorem Limited.forget (h : v.Limited limit) (hr : r < v.count)
    (hdone : (v.slots r).done = false) : (v.forget r).Limited limit := by
  refine ⟨fun d => ?_, fun d => ?_, fun d => ?_, fun hready d => ?_, fun d => ?_, fun d => ?_⟩
  · rw [forget_max_false]
    exact Nat.le_add_right_of_le (h.incoming d)
  · rw [forget_max_true]
    exact h.outgoing d
  · rw [forget_max_true]
    exact h.outgoing_le d
  · rw [forget_max_true]
    exact h.unready hready d
  · have htotal := Heap.total_update v.slots hr (v.live d) { v.slots r with done := true }
    have hcredit := h.credit d
    have hgone : v.live d { v.slots r with done := true } = 0 := rfl
    have hlive : v.live d (v.slots r) =
        if v.own (v.slots r).id = false ∧ streamDir (v.slots r).id = d then 1 else 0 := by
      simp [live, hdone]
    rw [hgone, hlive] at htotal
    rw [forget_max_false]
    change _ + Heap.total (Function.update v.slots r { v.slots r with done := true }) v.count
      (v.live d) = limit d + v.next false d
    omega
  · have htotal := Heap.total_update v.slots hr (v.finished d) { v.slots r with done := true }
    have hreturned := h.returned d
    have hbefore : v.finished d (v.slots r) = 0 := by simp [finished, hdone]
    have hafter : v.finished d { v.slots r with done := true } =
        if v.own (v.slots r).id = false ∧ streamDir (v.slots r).id = d then 1 else 0 := by
      simp [finished]
    rw [hbefore, hafter] at htotal
    rw [forget_max_false]
    change _ = limit d + Heap.total (Function.update v.slots r { v.slots r with done := true })
      v.count (v.finished d)
    omega

theorem Sound.complete (h : v.Sound limit) (hr : r < v.count) :
    (v.complete r).Sound limit := by
  unfold Registry.complete
  split_ifs with hover
  · obtain ⟨hdone, haccepted, hended⟩ := hover
    have hslots {P : Slot → Slot → Prop} (hr : P (v.slots r) { v.slots r with done := true })
        (hrest : ∀ s, P s s) (i : Ref) : P (v.slots i) ((v.forget r).slots i) :=
      forall_update hr hrest i
    refine ⟨h.named.later rfl rfl rfl (hslots ⟨rfl, rfl, rfl⟩ (fun _ => ⟨rfl, rfl, rfl⟩)),
      h.queued.later rfl rfl rfl rfl (hslots (P := fun s s' => s'.id = s.id ∧
        s'.accepted = s.accepted) ⟨rfl, rfl⟩ (fun _ => ⟨rfl, rfl⟩)),
      h.limited.forget hr hdone, fun i hi => ?_⟩
    refine hslots (P := fun s s' => (s.done = true → s.accepted = true ∧ s.ended = true) →
      s'.done = true → s'.accepted = true ∧ s'.ended = true) ?_ (fun _ hs => hs) i
      (h.over_of_done i hi)
    exact fun _ _ => ⟨haccepted, hended⟩
  · exact h

theorem SettledBut.complete (h : v.SettledBut r) : (v.complete r).Settled := by
  unfold Registry.complete
  split_ifs with hover
  · intro i hi
    rcases eq_or_ne i r with rfl | hne
    · simp [forget]
    · have hrest := h i hi hne
      simpa only [forget, Function.update_of_ne hne] using hrest
  · intro i hi haccepted hended
    rcases eq_or_ne i r with rfl | hne
    · by_contra hdone
      exact hover ⟨by simpa using hdone, haccepted, hended⟩
    · exact h i hi hne haccepted hended

theorem Tabled.complete (h : v.Tabled) (hnamed : v.Named) (hr : r < v.count) :
    (v.complete r).Tabled := by
  unfold Registry.complete
  split_ifs with hover
  · intro id i
    change Function.update v.table (v.slots r).id none id = some i ↔ i < v.count ∧
      (Function.update v.slots r _ i).id = id ∧ (Function.update v.slots r _ i).done = false
    rcases eq_or_ne i r with rfl | hne
    · simp only [Function.update_self, Bool.true_eq_false, and_false, iff_false]
      rcases eq_or_ne id (v.slots i).id with rfl | hid
      · simp
      · rw [Function.update_of_ne hid, h id i]
        exact fun hcase => hid hcase.2.1.symm
    · rw [Function.update_of_ne hne]
      rcases eq_or_ne id (v.slots r).id with rfl | hid
      · rw [Function.update_self]
        refine ⟨(fun hcase => by cases hcase), fun ⟨hi, hcase, _⟩ => ?_⟩
        exact absurd (hnamed.unique i hi r hr hcase) hne
      · rw [Function.update_of_ne hid]
        exact h id i
  · exact h

end Complete

section Raise

theorem Sound.raise (h : v.Sound limit) {max : Dir → Nat}
    (hnext : ∀ d, v.next true d ≤ max d) (hmax : ∀ d, max d ≤ 2 ^ 60) :
    (v.raise max).Sound limit := by
  have hsame : (v.raise max).max false = v.max false := by
    simp [Registry.raise]
  have htrue : (v.raise max).max true = max := by
    simp [Registry.raise]
  have hlimited : (v.raise max).Limited limit :=
    ⟨hsame ▸ h.limited.incoming, htrue ▸ hnext, htrue ▸ hmax,
      (fun hcase => by cases hcase), hsame ▸ h.limited.credit, hsame ▸ h.limited.returned⟩
  exact ⟨h.named.later rfl rfl rfl (fun _ => ⟨rfl, rfl, rfl⟩),
    ⟨h.queued.length_le, h.queued.queued, h.queued.accepted⟩, hlimited, h.over_of_done⟩

end Raise

end Registry

end Qmux
