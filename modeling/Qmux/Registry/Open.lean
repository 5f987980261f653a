import Qmux.Registry.Basic

/-!
Opening a stream. The next index of a kind names a stream that was not there
before, so the identifiers stay unique, and a stream of the peer goes to the
end of the queue.
-/

namespace Qmux

open Wire

namespace Registry

variable {v : Registry} {isLocal : Bool} {dir : Dir}

theorem add_next (s : Slot) (l : Bool) (d : Dir) :
    (v.add isLocal dir s).next l d =
      v.next l d + if l = isLocal ∧ d = dir then 1 else 0 := by
  unfold add
  dsimp only
  rcases eq_or_ne l isLocal with rfl | hl
  · rw [Function.update_self]
    rcases eq_or_ne d dir with rfl | hd
    · simp
    · simp [hd]
  · simp [hl]

theorem add_slots_lt (s : Slot) {r : Ref} (hr : r < v.count) :
    (v.add isLocal dir s).slots r = v.slots r :=
  Function.update_of_ne (Nat.ne_of_lt hr) _ _

theorem add_slots_count (s : Slot) : (v.add isLocal dir s).slots v.count = s :=
  Function.update_self _ _ _

theorem Opened.add {id : Nat} (h : v.Opened id) (s : Slot) :
    (v.add isLocal dir s).Opened id := by
  refine ⟨h.1, Nat.lt_of_lt_of_le h.2 ?_⟩
  rw [add_next]
  exact Nat.le_add_right _ _

/-- The parts of the identifier of a new stream. -/
theorem fresh_id (hnext : v.next isLocal dir < 2 ^ 60) :
    (v.fresh isLocal dir).id >>> 2 = v.next isLocal dir ∧
      streamDir (v.fresh isLocal dir).id = dir ∧ v.own (v.fresh isLocal dir).id = isLocal := by
  have hbound : v.next isLocal dir < 2 ^ 62 := Nat.lt_trans hnext (by decide)
  exact ⟨streamID_index v.isServer hbound dir isLocal,
    streamDir_streamID v.isServer hbound dir isLocal,
    initiatedLocally_streamID v.isServer hbound dir isLocal⟩

theorem fresh_id_not_opened (hnext : v.next isLocal dir < 2 ^ 60) :
    ¬ v.Opened (v.fresh isLocal dir).id := by
  obtain ⟨hindex, hdir, hown⟩ := fresh_id hnext
  rintro ⟨-, hlt⟩
  rw [hindex, hdir, hown] at hlt
  exact Nat.lt_irrefl _ hlt

theorem Named.add (h : v.Named) (hnext : v.next isLocal dir < 2 ^ 60) :
    (v.add isLocal dir (v.fresh isLocal dir)).Named := by
  obtain ⟨hindex, hdir, hown⟩ := fresh_id hnext
  have hcases {r : Ref} (hr : r < (v.add isLocal dir (v.fresh isLocal dir)).count) :
      r < v.count ∨ r = v.count := Nat.lt_succ_iff_lt_or_eq.mp hr
  refine ⟨fun r hr => ?_, fun r hr r' hr' hid => ?_, fun id hid => ?_, fun l d => ?_,
    fun r hr => ?_, fun r hr => ?_⟩
  · rcases hcases hr with hr | rfl
    · rw [add_slots_lt _ hr]
      exact (h.opened r hr).add _
    · rw [add_slots_count]
      refine ⟨streamID_lt v.isServer hnext dir isLocal, ?_⟩
      change (v.fresh isLocal dir).id >>> 2 <
        (v.add isLocal dir _).next (v.own (v.fresh isLocal dir).id) _
      rw [hown, add_next, hindex, hdir, if_pos ⟨rfl, rfl⟩]
      exact Nat.lt_succ_self _
  · have hnew {i : Ref} (hi : i < v.count) : (v.slots i).id ≠ (v.fresh isLocal dir).id :=
      fun heq => fresh_id_not_opened hnext (heq ▸ h.opened i hi)
    rcases hcases hr with hr | rfl <;> rcases hcases hr' with hr' | rfl
    · rw [add_slots_lt _ hr, add_slots_lt _ hr'] at hid
      exact h.unique r hr r' hr' hid
    · rw [add_slots_lt _ hr, add_slots_count] at hid
      exact absurd hid (hnew hr)
    · rw [add_slots_lt _ hr', add_slots_count] at hid
      exact absurd hid.symm (hnew hr')
    · rfl
  · by_cases hold : v.Opened id
    · obtain ⟨r, hr, heq⟩ := h.found id hold
      exact ⟨r, Nat.lt_succ_of_lt hr, by rw [add_slots_lt _ hr, heq]⟩
    · refine ⟨v.count, Nat.lt_succ_self _, ?_⟩
      rw [add_slots_count]
      obtain ⟨hlt, hidx⟩ := hid
      change id >>> 2 < (v.add isLocal dir _).next (v.own id) _ at hidx
      rw [add_next] at hidx
      have hkind : v.own id = isLocal ∧ streamDir id = dir := by
        by_contra hne
        rw [if_neg hne, Nat.add_zero] at hidx
        exact hold ⟨hlt, hidx⟩
      rw [if_pos hkind] at hidx
      have hlast : id >>> 2 = v.next isLocal dir := by
        have hge : ¬ id >>> 2 < v.next isLocal dir := by
          intro hlt'
          rw [← hkind.1, ← hkind.2] at hlt'
          exact hold ⟨hlt, hlt'⟩
        rw [hkind.1, hkind.2] at hidx
        omega
      have hparts := streamID_parts v.isServer (Nat.lt_trans hlt (by decide))
      change streamID v.isServer (id >>> 2) (streamDir id) (v.own id) = id at hparts
      rw [hlast, hkind.1, hkind.2] at hparts
      exact hparts
  · rw [add_next]
    split_ifs with hkind
    · rw [hkind.1, hkind.2]
      exact hnext
    · exact h.next_le l d
  · rcases hcases hr with hr | rfl
    · rw [add_slots_lt _ hr]
      exact h.recv r hr
    · rw [add_slots_count]
      rfl
  · rcases hcases hr with hr | rfl
    · rw [add_slots_lt _ hr]
      exact h.send r hr
    · rw [add_slots_count]
      rfl

theorem add_queue (s : Slot) (d : Dir) :
    (v.add isLocal dir s).queue d =
      v.queue d ++ if isLocal = false ∧ d = dir then [v.count] else [] := by
  unfold add
  dsimp only
  cases isLocal with
  | true => simp
  | false =>
      rcases eq_or_ne d dir with rfl | hd
      · simp
      · simp [hd]

theorem acceptedCount_add (s : Slot) (d : Dir) :
    (v.add isLocal dir s).acceptedCount d = v.acceptedCount d := by
  unfold acceptedCount
  rw [add_next, add_queue]
  cases isLocal with
  | true => simp
  | false =>
      rcases eq_or_ne d dir with rfl | hd
      · simp
      · simp [hd]

theorem Queued.add (h : v.Queued) (hnext : v.next isLocal dir < 2 ^ 60) :
    (v.add isLocal dir (v.fresh isLocal dir)).Queued := by
  obtain ⟨hindex, hdir, hown⟩ := fresh_id hnext
  refine ⟨fun d => ?_, fun d i r hr => ?_, fun r hr => ?_⟩
  · have hle := h.length_le d
    rw [add_next, add_queue]
    cases isLocal with
    | true => simpa using hle
    | false =>
        rcases eq_or_ne d dir with rfl | hd
        · simpa using hle
        · simpa [hd] using hle
  · rw [acceptedCount_add]
    rw [add_queue] at hr
    by_cases hi : i < (v.queue d).length
    · rw [List.getElem?_append_left hi] at hr
      obtain ⟨hlt, hid⟩ := h.queued d i r hr
      exact ⟨Nat.lt_succ_of_lt hlt, by rw [add_slots_lt _ hlt, hid]; rfl⟩
    · rw [List.getElem?_append_right (Nat.le_of_not_lt hi)] at hr
      split_ifs at hr with hkind
      · obtain ⟨hfalse, rfl⟩ := hkind
        obtain ⟨hpos, hr⟩ := List.getElem?_eq_some_iff.mp hr
        simp only [List.length_singleton] at hpos
        simp only [List.getElem_singleton] at hr
        subst hr hfalse
        refine ⟨Nat.lt_succ_self _, ?_⟩
        rw [add_slots_count]
        have hlen := h.length_le d
        have hsum : v.acceptedCount d + i = v.next false d := by
          unfold acceptedCount
          omega
        rw [hsum]
        rfl
      · simp at hr
  · rcases Nat.lt_succ_iff_lt_or_eq.mp hr with hr | rfl
    · rw [add_slots_lt _ hr, acceptedCount_add]
      exact h.accepted r hr
    · rw [add_slots_count, acceptedCount_add]
      change isLocal = (v.own (v.fresh isLocal dir).id || _)
      rw [hown]
      cases isLocal with
      | true => rfl
      | false =>
          rw [hindex, hdir, Bool.false_or]
          exact (decide_eq_false (Nat.not_lt.mpr (Nat.sub_le _ _))).symm

theorem Limited.add {limit : Dir → Nat} (h : v.Limited limit)
    (hnext : v.next isLocal dir < 2 ^ 60) (hmax : v.next isLocal dir < v.max isLocal dir) :
    (v.add isLocal dir (v.fresh isLocal dir)).Limited limit := by
  obtain ⟨-, hdir, hown⟩ := fresh_id hnext
  have hlimit (l : Bool) (d : Dir) (hle : v.next l d ≤ v.max l d) :
      (v.add isLocal dir (v.fresh isLocal dir)).next l d ≤ v.max l d := by
    rw [add_next]
    split_ifs with hkind
    · rw [hkind.1, hkind.2]
      exact hmax
    · exact hle
  refine ⟨fun d => hlimit false d (h.incoming d), fun d => hlimit true d (h.outgoing d),
    h.outgoing_le, h.unready, fun d => ?_, fun d => ?_⟩
  · have htotal := Heap.total_alloc v.slots v.count (v.live d) (v.fresh isLocal dir)
    change v.max false d + Heap.total (Function.update v.slots v.count (v.fresh isLocal dir))
      (v.count + 1) (v.live d) = _
    rw [htotal, ← Nat.add_assoc, h.credit d, Nat.add_assoc, add_next]
    congr 2
    unfold live
    rw [hown, hdir]
    simp only [fresh]
    cases isLocal with
    | true => simp
    | false =>
        rcases eq_or_ne d dir with rfl | hd
        · simp
        · simp [hd, hd.symm]
  · have htotal := Heap.total_alloc v.slots v.count (v.finished d) (v.fresh isLocal dir)
    change v.max false d = _ + Heap.total (Function.update v.slots v.count _) (v.count + 1)
      (v.finished d)
    rw [htotal]
    exact h.returned d

/-- Opening a stream within its limit keeps the registry sound. -/
theorem Sound.add {limit : Dir → Nat} (h : v.Sound limit)
    (hnext : v.next isLocal dir < 2 ^ 60) (hmax : v.next isLocal dir < v.max isLocal dir) :
    (v.add isLocal dir (v.fresh isLocal dir)).Sound limit := by
  refine ⟨h.named.add hnext, h.queued.add hnext, h.limited.add hnext hmax, fun r hr => ?_⟩
  rcases Nat.lt_succ_iff_lt_or_eq.mp hr with hr | rfl
  · rw [add_slots_lt _ hr]
    exact h.over_of_done r hr
  · rw [add_slots_count]
    exact fun hdone => by cases hdone

theorem Settled.add (h : v.Settled) :
    (v.add isLocal dir (v.fresh isLocal dir)).Settled := by
  intro r hr
  rcases Nat.lt_succ_iff_lt_or_eq.mp hr with hr | rfl
  · rw [add_slots_lt _ hr]
    exact h r hr
  · rw [add_slots_count]
    exact fun _ hended => by cases hended

theorem Tabled.add (h : v.Tabled) (hnamed : v.Named) (hnext : v.next isLocal dir < 2 ^ 60) :
    (v.add isLocal dir (v.fresh isLocal dir)).Tabled := by
  have hfresh := fresh_id_not_opened (v := v) hnext
  intro id r
  change Function.update v.table (v.fresh isLocal dir).id (some v.count) id = some r ↔ _
  rcases eq_or_ne id (v.fresh isLocal dir).id with rfl | hid
  · rw [Function.update_self]
    constructor
    · intro hr
      obtain rfl := Option.some.inj hr
      exact ⟨Nat.lt_succ_self _, by rw [add_slots_count], by rw [add_slots_count]; rfl⟩
    · rintro ⟨hr, hid, -⟩
      rcases Nat.lt_succ_iff_lt_or_eq.mp hr with hr | rfl
      · rw [add_slots_lt _ hr] at hid
        exact absurd (hid ▸ hnamed.opened r hr) hfresh
      · rfl
  · rw [Function.update_of_ne hid, h id r]
    constructor
    · rintro ⟨hr, hslot⟩
      exact ⟨Nat.lt_succ_of_lt hr, by rwa [add_slots_lt _ hr]⟩
    · rintro ⟨hr, hslot⟩
      rcases Nat.lt_succ_iff_lt_or_eq.mp hr with hr | rfl
      · rw [add_slots_lt _ hr] at hslot
        exact ⟨hr, hslot⟩
      · rw [add_slots_count] at hslot
        exact absurd hslot.1.symm hid

end Registry

end Qmux
