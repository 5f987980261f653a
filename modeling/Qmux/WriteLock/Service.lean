import Qmux.WriteLock.Basic

/-!
The order in which the writers are served. The lock goes to a waiter of the best
class among those that wait, in every run. While fewer than `2 ^ 64` calls had to
wait by their arrival, the arrivals of the waiters also tell who came first. The
count of arrivals wraps after that, and then a later writer is served first.
-/

namespace Qmux

namespace Writers

section Correct

variable [PriorityQueue] {s s' : Writers}

/-- A waiter that is not incremental ranks by its stream. -/
def Placed (s : Writers) : Prop :=
  ∀ w ∈ s.lock.waiters, w.incremental = false → w.order = w.streamID

/-- While the count of arrivals has not wrapped, the waiters that rank by it
rank in the order of their calls. -/
structure Ranked (s : Writers) : Prop where
  arrivals : s.lock.arrivals = s.queued
  arrived : ∀ w ∈ s.lock.waiters, w.incremental = true → w.order ≤ s.queued
  order : ∀ v ∈ s.lock.waiters, ∀ w ∈ s.lock.waiters, v.incremental = true →
    w.incremental = true → (v.order < w.order ↔ v.ready < w.ready)

/-- Who waits after a call of `acquire`: the ones before, and the caller unless it got
the lock. -/
private theorem acquire_waiters {user : LockUser} (hstep : s.step (.acquire user) = some s') :
    s'.lock.waiters = s.lock.waiters ∧ s'.lock.arrivals = s.lock.arrivals ∧
        s'.queued = s.queued ∨
      (user.priority.incremental = true ∧ s'.lock.arrivals = Word.add s.lock.arrivals 1 ∧
          s'.queued = s.queued + 1 ∧ ∀ w, w ∈ s'.lock.waiters ↔
            w = ⟨user.priority, Word.add s.lock.arrivals 1, s.calls.length⟩ ∨
              w ∈ s.lock.waiters) ∨
        user.priority.incremental = false ∧ s'.lock.arrivals = s.lock.arrivals ∧
          s'.queued = s.queued ∧ ∀ w, w ∈ s'.lock.waiters ↔
            w = ⟨user.priority, user.priority.streamID, s.calls.length⟩ ∨
              w ∈ s.lock.waiters := by
  have hpush (x w : LockWaiter) :
      w ∈ PriorityQueue.push LockWaiter.less s.lock.waiters x ↔ w = x ∨ w ∈ s.lock.waiters := by
    rw [(PriorityQueue.push_perm LockWaiter.less _ _).mem_iff, List.mem_cons]
  unfold step WriteLock.acquire at hstep
  dsimp only at hstep
  split_ifs at hstep with hfree hincremental hincremental
  · obtain rfl := Option.some.inj hstep
    exact Or.inl ⟨rfl, rfl, rfl⟩
  · obtain rfl := Option.some.inj hstep
    exact Or.inl ⟨rfl, rfl, rfl⟩
  · obtain rfl := Option.some.inj hstep
    exact Or.inr (Or.inl ⟨hincremental, rfl, rfl, hpush _⟩)
  · obtain rfl := Option.some.inj hstep
    exact Or.inr (Or.inr ⟨by simpa using hincremental, rfl, rfl, hpush _⟩)

/-- Who waits after `Unlock` has waited before. -/
private theorem unlock_waiters (hsound : s.Sound) {call : Nat}
    (hstep : s.step (.unlock call) = some s') :
    (∀ w ∈ s'.lock.waiters, w ∈ s.lock.waiters) ∧ s'.lock.arrivals = s.lock.arrivals ∧
      s'.queued = s.queued := by
  by_cases hne : s.lock.waiters = []
  · obtain rfl := unlock_frees hsound hne hstep
    exact ⟨fun w hw => hw, rfl, rfl⟩
  · obtain ⟨w, rest, hperm, -, -, rfl⟩ := unlock_grants hsound hne hstep
    exact ⟨fun v hv => hperm.mem_iff.mp (List.mem_cons_of_mem w hv), rfl, rfl⟩

private theorem placed_step (hsound : s.Sound) (h : s.Placed) {a : Action}
    (hstep : s.step a = some s') : s'.Placed := by
  cases a with
  | acquire user =>
      rcases acquire_waiters hstep with ⟨hsame, -⟩ | ⟨hp, -, -, hmem⟩ | ⟨hp, -, -, hmem⟩
      · unfold Placed
        rw [hsame]
        exact h
      · intro w hw hincremental
        rcases (hmem w).mp hw with rfl | hw
        · exact absurd (hp.symm.trans hincremental) nofun
        · exact h w hw hincremental
      · intro w hw hincremental
        rcases (hmem w).mp hw with rfl | hw
        · rfl
        · exact h w hw hincremental
  | unlock call =>
      obtain ⟨hsub, -⟩ := unlock_waiters hsound hstep
      exact fun w hw => h w (hsub w hw)

omit [PriorityQueue] in
private theorem Ranked.sub (h : s.Ranked) (hsub : ∀ w ∈ s'.lock.waiters,
    w.incremental = true → w ∈ s.lock.waiters) (harrivals : s'.lock.arrivals = s.lock.arrivals)
    (hqueued : s'.queued = s.queued) : s'.Ranked where
  arrivals := by rw [harrivals, hqueued, h.arrivals]
  arrived w hw hincremental := hqueued ▸ h.arrived w (hsub w hw hincremental) hincremental
  order v hv w hw hv' hw' := h.order v (hsub v hv hv') w (hsub w hw hw') hv' hw'

/-- The caller comes after all that have come before. -/
private theorem ranked_arrival (hsound : s.Sound) (h : s.Ranked) {p : Priority}
    (harrivals : s'.lock.arrivals = s.queued + 1) (hqueued : s'.queued = s.queued + 1)
    (hmem : ∀ w, w ∈ s'.lock.waiters ↔
      w = ⟨p, s.queued + 1, s.calls.length⟩ ∨ w ∈ s.lock.waiters) : s'.Ranked := by
  constructor
  · rw [harrivals, hqueued]
  · intro w hw hincremental
    rw [hqueued]
    rcases (hmem w).mp hw with rfl | hw
    · exact Nat.le_refl _
    · exact (h.arrived w hw hincremental).trans (Nat.le_succ _)
  · intro v hv w hw hv' hw'
    rcases (hmem v).mp hv with rfl | hv <;> rcases (hmem w).mp hw with rfl | hw
    · simp
    · have horder := h.arrived w hw hw'
      have hready := hsound.ready_lt hw
      simp only
      omega
    · have horder := h.arrived v hv hv'
      have hready := hsound.ready_lt hv
      simp only
      omega
    · exact h.order v hv w hw hv' hw'

theorem calls_step {a : Action} (hstep : s.step a = some s') : s.calls <+: s'.calls := by
  cases a with
  | acquire user =>
      unfold step at hstep
      dsimp only at hstep
      split at hstep <;> obtain rfl := Option.some.inj hstep <;> exact List.prefix_append _ _
  | unlock call =>
      obtain ⟨-, ⟨⟩⟩ := Option.ite_none_right_eq_some.mp hstep
      exact List.prefix_rfl

private theorem queued_step (hsound : s.Sound) {a : Action} (hstep : s.step a = some s') :
    s.queued ≤ s'.queued := by
  cases a with
  | acquire user =>
      rcases acquire_waiters hstep with ⟨-, -, hqueued⟩ | ⟨-, -, hqueued, -⟩ | ⟨-, -, hqueued, -⟩
      all_goals omega
  | unlock call =>
      obtain ⟨-, -, hqueued⟩ := unlock_waiters hsound hstep
      omega

private theorem ranked_step (hsound : s.Sound) (h : s.Ranked) {a : Action}
    (hstep : s.step a = some s') (hfew : s'.queued < 2 ^ 64) : s'.Ranked := by
  cases a with
  | acquire user =>
      rcases acquire_waiters hstep with
        ⟨hsame, harrivals, hqueued⟩ | ⟨-, harrivals, hqueued, hmem⟩ | ⟨hp, harrivals, hqueued, hmem⟩
      · exact h.sub (fun w hw _ => hsame ▸ hw) harrivals hqueued
      · have hadd : Word.add s.lock.arrivals 1 = s.queued + 1 := by
          rw [h.arrivals]
          exact Word.add_of_lt (by omega)
        rw [hadd] at harrivals hmem
        exact ranked_arrival hsound h harrivals hqueued hmem
      · refine h.sub (fun w hw hincremental => ?_) harrivals hqueued
        rcases (hmem w).mp hw with rfl | hw
        · exact absurd (hp.symm.trans hincremental) nofun
        · exact hw
  | unlock call =>
      obtain ⟨hsub, harrivals, hqueued⟩ := unlock_waiters hsound hstep
      exact h.sub (fun w hw _ => hsub w hw) harrivals hqueued

theorem placed_run {labels : List Action} (hrun : Machine.run step {} labels = some s) :
    s.Placed := by
  refine (Machine.trace_invariant (P := fun _ (s : Writers) => s.Sound ∧ s.Placed)
    ⟨sound_start, nofun⟩ ?_ labels s hrun).2
  rintro labels s a s' ⟨hsound, hplaced⟩ hstep
  exact ⟨sound_step hsound hstep, placed_step hsound hplaced hstep⟩

theorem ranked_run {labels : List Action} (hrun : Machine.run step {} labels = some s)
    (hfew : s.queued < 2 ^ 64) : s.Ranked := by
  refine (Machine.trace_invariant (P := fun _ (s : Writers) =>
    s.Sound ∧ (s.queued < 2 ^ 64 → s.Ranked)) ⟨sound_start, fun _ => ?_⟩ ?_ labels s
    hrun).2 hfew
  · exact ⟨rfl, nofun, nofun⟩
  · rintro labels s a s' ⟨hsound, hranked⟩ hstep
    refine ⟨sound_step hsound hstep, fun hfew => ?_⟩
    have hqueued := queued_step hsound hstep
    exact ranked_step hsound (hranked (by omega)) hstep hfew

omit [PriorityQueue] in
/-- `Less` ranks two waiters as their users are to be served, where those that rank by
their arrival have come in the order of their counts. -/
theorem less_of_outranks {v w : LockWaiter} {a b : LockUser} {earlier : Prop}
    (hv : v.incremental = false → v.order = v.streamID)
    (hw : w.incremental = false → w.order = w.streamID)
    (horder : v.incremental = true → w.incremental = true → earlier → v.order < w.order)
    (ha : a.priority = v.toPriority) (hb : b.priority = w.toPriority)
    (hrank : a.Outranks earlier b) : v.less w = true := by
  have hmax : maxUrgency = 7 := rfl
  have hcontrol : urgencyControl = -1 := rfl
  obtain ⟨⟨vu, vi, vid⟩, vo, vr⟩ := v
  obtain ⟨⟨wu, wi, wid⟩, wo, wr⟩ := w
  rw [LockWaiter.less_iff]
  cases a with
  | control =>
      obtain ⟨rfl, rfl, rfl⟩ := Priority.mk.inj ha
      cases b with
      | control =>
          obtain ⟨rfl, rfl, rfl⟩ := Priority.mk.inj hb
          exact Or.inr ⟨rfl, Or.inr ⟨rfl, horder rfl rfl hrank⟩⟩
      | stream u inc id =>
          obtain ⟨rfl, rfl, rfl⟩ := Priority.mk.inj hb
          left
          simp only
          omega
  | stream u inc id =>
      obtain ⟨rfl, rfl, rfl⟩ := Priority.mk.inj ha
      cases b with
      | control => exact (hrank : False).elim
      | stream v inc' id' =>
          obtain ⟨rfl, rfl, rfl⟩ := Priority.mk.inj hb
          cases inc with
          | false =>
              cases inc' with
              | false =>
                  rw [hv rfl, hw rfl]
                  rcases hrank with hlt | ⟨heq, hid⟩
                  · exact Or.inl hlt
                  · exact Or.inr ⟨heq, Or.inr ⟨rfl, hid⟩⟩
              | true =>
                  rcases lt_or_eq_of_le hrank with hlt | heq
                  · exact Or.inl hlt
                  · exact Or.inr ⟨heq, Or.inl Nat.one_pos⟩
          | true =>
              cases inc' with
              | false => exact Or.inl hrank
              | true =>
                  rcases hrank with hlt | ⟨heq, hearlier⟩
                  · exact Or.inl hlt
                  · exact Or.inr ⟨heq, Or.inr ⟨rfl, horder rfl rfl hearlier⟩⟩

/-- The waiter that gets the lock is one that `Less` puts no waiter before. -/
private theorem granted_least (hsound : s.Sound) (hplaced : s.Placed) {call granted i : Nat}
    (hstep : s.step (.unlock call) = some s') (hserved : s'.served = s.served ++ [granted])
    (hi : s.Waits i) {a b : LockUser} (ha : s.calls[i]? = some a)
    (hb : s.calls[granted]? = some b) {earlier : Prop}
    (horder : ∀ v ∈ s.lock.waiters, ∀ w ∈ s.lock.waiters, v.ready = i → w.ready = granted →
      v.incremental = true → w.incremental = true → earlier → v.order < w.order) :
    ¬ a.Outranks earlier b := by
  intro hrank
  obtain ⟨v, hv, rfl⟩ := hsound.waits_iff.mp hi
  have hne : s.lock.waiters ≠ [] := List.ne_nil_of_mem hv
  obtain ⟨w, rest, hperm, -, hmin, rfl⟩ := unlock_grants hsound hne hstep
  obtain rfl : w.ready = granted := by simpa using hserved
  have hw : w ∈ s.lock.waiters := hperm.mem_iff.mp List.mem_cons_self
  obtain ⟨a', ha', hpriority⟩ := hsound.user v hv
  obtain ⟨b', hb', hpriority'⟩ := hsound.user w hw
  obtain rfl : a' = a := Option.some.inj (ha'.symm.trans ha)
  obtain rfl : b' = b := Option.some.inj (hb'.symm.trans hb)
  have hless := less_of_outranks (hplaced v hv) (hplaced w hw) (horder v hv w hw rfl rfl)
    hpriority hpriority' hrank
  rw [hmin v hv] at hless
  cases hless

/-- No waiting call is to be served before the one that gets the lock. -/
theorem granted_first (hsound : s.Sound) (hplaced : s.Placed) (hranked : s.Ranked)
    {call granted : Nat} (hstep : s.step (.unlock call) = some s')
    (hserved : s'.served = s.served ++ [granted]) {i : Nat} (hi : s.Waits i) :
    ¬ s.Precedes i granted := by
  rintro ⟨a, b, ha, hb, hrank⟩
  refine granted_least hsound hplaced hstep hserved hi ha hb ?_ hrank
  rintro v hv w hw rfl rfl hv' hw' hearlier
  exact (hranked.order v hv w hw hv' hw').mpr hearlier

/-- No waiting call is of a better class than the one that gets the lock. -/
theorem granted_best (hsound : s.Sound) (hplaced : s.Placed) {call granted : Nat}
    (hstep : s.step (.unlock call) = some s') (hserved : s'.served = s.served ++ [granted])
    {i : Nat} (hi : s.Waits i) : ¬ s.Outclasses i granted := by
  rintro ⟨a, b, ha, hb, hrank⟩
  exact granted_least hsound hplaced hstep hserved hi ha hb
    (fun _ _ _ _ _ _ _ _ hearlier => hearlier.elim) hrank

theorem served_step {a : Action} (hsound : s.Sound) (hstep : s.step a = some s') :
    s'.served = s.served ∨ ∃ granted, s'.served = s.served ++ [granted] ∧
      (granted = s.calls.length ∨ ∃ call, a = .unlock call) := by
  cases a with
  | acquire user =>
      unfold step at hstep
      dsimp only at hstep
      split at hstep
      · obtain rfl := Option.some.inj hstep
        exact Or.inr ⟨_, rfl, Or.inl rfl⟩
      · obtain rfl := Option.some.inj hstep
        exact Or.inl rfl
  | unlock call =>
      by_cases hne : s.lock.waiters = []
      · obtain rfl := unlock_frees hsound hne hstep
        exact Or.inl rfl
      · obtain ⟨w, rest, -, -, -, rfl⟩ := unlock_grants hsound hne hstep
        exact Or.inr ⟨w.ready, rfl, Or.inr ⟨call, rfl⟩⟩

/-- An order of the calls by who makes them, and by their numbers. -/
private def Ordered (earlier : Nat → Nat → Prop) (s : Writers) (i j : Nat) : Prop :=
  ∃ a b, s.calls[i]? = some a ∧ s.calls[j]? = some b ∧ a.Outranks (earlier i j) b

omit [PriorityQueue] in
private theorem Ordered.later {earlier : Nat → Nat → Prop} {i j : Nat}
    (h : Ordered earlier s i j) (hcalls : s.calls <+: s'.calls) : Ordered earlier s' i j := by
  obtain ⟨a, b, ha, hb, hrank⟩ := h
  obtain ⟨more, hmore⟩ := hcalls
  have hold {k : Nat} {user : LockUser} (hk : s.calls[k]? = some user) :
      s'.calls[k]? = some user := by
    rw [← hmore, List.getElem?_append_left (List.getElem?_eq_some_iff.mp hk).1]
    exact hk
  exact ⟨a, b, hold ha, hold hb, hrank⟩

/-- Of two calls that wait together, the one that is to be served first is
served first, as long as no call is served that the order puts after a waiting one. -/
private theorem served_in_order (earlier : Nat → Nat → Prop) (ok : Writers → Prop)
    (hback : ∀ s a s', s.Sound → s.step a = some s' → ok s' → ok s)
    (hfirst : ∀ labels s call s' granted, Machine.run step {} labels = some s → ok s →
      s.step (.unlock call) = some s' → s'.served = s.served ++ [granted] →
        ∀ i, s.Waits i → ¬ Ordered earlier s i granted)
    {i j : Nat} {labels later : List Action} (hrun : Machine.run step {} labels = some s)
    (hi : s.Waits i) (hj : s.Waits j) (hprecedes : Ordered earlier s i j)
    (hlater : Machine.run step s later = some s') (hok : ok s') (hserved : j ∈ s'.served) :
    i ∈ s'.served := by
  have hinvariant := Machine.trace_invariant (P := fun _ (s' : Writers) =>
    (∃ labels, Machine.run step {} labels = some s') ∧
    (ok s' → i ∈ s'.served ∨ s'.Waits i ∧ j ∉ s'.served ∧ Ordered earlier s' i j))
    ⟨⟨labels, hrun⟩, fun _ => Or.inr ⟨hi, hj.2, hprecedes⟩⟩ ?_ later s' hlater
  · rcases hinvariant.2 hok with hserved' | ⟨-, hnot, -⟩
    · exact hserved'
    · exact absurd hserved hnot
  · rintro _ mid a next ⟨⟨labels, hlabels⟩, hprior⟩ hstep
    have hsound := sound_run hlabels
    refine ⟨⟨_, Machine.run_concat hlabels hstep⟩, fun hok => ?_⟩
    have hcalls := calls_step hstep
    have hok' := hback mid a next hsound hstep hok
    rcases hprior hok' with hserved | ⟨hi, hj, hprecedes⟩
    · left
      rcases served_step hsound hstep with hsame | ⟨granted, hgranted, -⟩
      · exact hsame ▸ hserved
      · exact hgranted ▸ List.mem_append_left _ hserved
    · rcases served_step hsound hstep with hsame | ⟨granted, hgranted, hcause⟩
      · right
        rw [hsame]
        exact ⟨⟨hi.1.trans_le hcalls.length_le, hsame ▸ hi.2⟩, hj, hprecedes.later hcalls⟩
      · by_cases hnow : granted = i
        · left
          rw [hgranted, hnow]
          exact List.mem_append_right _ (List.mem_singleton.mpr rfl)
        · right
          have hother : granted ≠ j := by
            rintro rfl
            rcases hcause with rfl | ⟨call, rfl⟩
            · obtain ⟨a, b, -, hb, -⟩ := hprecedes
              exact absurd (List.getElem?_eq_some_iff.mp hb).1 (Nat.lt_irrefl _)
            · exact hfirst labels mid call next granted hlabels hok' hstep hgranted i hi hprecedes
          refine ⟨⟨hi.1.trans_le hcalls.length_le, ?_⟩, ?_, hprecedes.later hcalls⟩
          · rw [hgranted, List.mem_append, List.mem_singleton, not_or]
            exact ⟨hi.2, fun h => hnow h.symm⟩
          · rw [hgranted, List.mem_append, List.mem_singleton, not_or]
            exact ⟨hj, fun h => hother h.symm⟩

/-- The lock has one holder at most, is free only when nobody waits, loses no
waiter and serves none twice, and goes to a waiter that no other one ranks
before: control frames come before streams, lower urgency first, and within an
urgency the streams that are not incremental, by their identifier, before the
others. While fewer than `2 ^ 64` calls had to wait by their arrival, control
writers are served in the order they came, and so are the incremental streams of
an urgency. -/
theorem writers_served {labels : List Action} (hrun : Machine.run step {} labels = some s) :
    IsStrictWeakOrder LockWaiter (fun a b => a.less b = true) ∧
    (if s.lock.held then ∃ call, s.holders = [call] else s.holders = [] ∧ s.lock.waiters = []) ∧
    (s.lock.waiters.map LockWaiter.ready ++ s.served).Perm (List.range s.calls.length) ∧
    (∀ call s', s.step (.unlock call) = some s' → s.lock.waiters ≠ [] →
      ∃ w ∈ s.lock.waiters, s'.holders = [w.ready] ∧ s'.served = s.served ++ [w.ready] ∧
        ∀ y ∈ s.lock.waiters, y.less w = false) ∧
    ((∀ call s' granted, s.step (.unlock call) = some s' →
        s'.served = s.served ++ [granted] → ∀ i, s.Waits i → ¬ s.Outclasses i granted) ∧
      (∀ i j, s.Waits i → s.Waits j → s.Outclasses i j → ∀ later s',
        Machine.run step s later = some s' → j ∈ s'.served → i ∈ s'.served)) ∧
    (s.queued < 2 ^ 64 →
      (∀ call s' granted, s.step (.unlock call) = some s' →
        s'.served = s.served ++ [granted] → ∀ i, s.Waits i → ¬ s.Precedes i granted) ∧
      (∀ i j, s.Waits i → s.Waits j → s.Precedes i j → ∀ later s',
        Machine.run step s later = some s' → s'.queued < 2 ^ 64 →
          j ∈ s'.served → i ∈ s'.served)) := by
  have hsound := sound_run hrun
  have hplaced := placed_run hrun
  refine ⟨LockWaiter.less_strictWeak, ?_, hsound.calls, ?_, ⟨?_, ?_⟩, fun hfew => ⟨?_, ?_⟩⟩
  · have hholder := hsound.holder
    split_ifs at hholder ⊢ with hheld
    · exact hholder
    · exact ⟨hholder, hsound.free (by simpa using hheld)⟩
  · intro call s' hstep hne
    obtain ⟨w, rest, hperm, -, hmin, rfl⟩ := unlock_grants hsound hne hstep
    exact ⟨w, hperm.mem_iff.mp List.mem_cons_self, rfl, rfl, hmin⟩
  · intro call s' granted hstep hserved i hi
    exact granted_best hsound hplaced hstep hserved hi
  · intro i j hi hj hclass later s' hlater hserved
    refine served_in_order (fun _ _ => False) (fun _ => True)
      (fun _ _ _ _ _ _ => trivial) ?_ hrun hi hj hclass hlater trivial hserved
    intro labels s call s' granted hlabels _ hstep hserved i hi
    exact granted_best (sound_run hlabels) (placed_run hlabels) hstep hserved hi
  · intro call s' granted hstep hserved i hi
    exact granted_first hsound hplaced (ranked_run hrun hfew) hstep hserved hi
  · intro i j hi hj hprecedes later s' hlater hfew hserved
    refine served_in_order (fun i j => i < j) (fun s => s.queued < 2 ^ 64)
      (fun s a s' hsound hstep hfew => ?_) ?_ hrun hi hj hprecedes hlater hfew hserved
    · exact (queued_step hsound hstep).trans_lt hfew
    · intro labels s call s' granted hlabels hfew hstep hserved i hi
      exact granted_first (sound_run hlabels) (placed_run hlabels) (ranked_run hlabels hfew)
        hstep hserved hi

end Correct

end Writers

/-- A control writer that comes last is served before two streams. -/
theorem writers_served_control : ∃ s s' : Writers,
    Machine.run Writers.step {} [.acquire .control, .acquire (.stream 3 true 4),
      .acquire (.stream 9 false 8), .acquire .control] = some s ∧
      s.step (.unlock 0) = some s' ∧ s'.served = s.served ++ [3] ∧ ¬ s.Precedes 1 3 := by
  have hrun : (Machine.run Writers.step {} [.acquire .control, .acquire (.stream 3 true 4),
      .acquire (.stream 9 false 8), .acquire .control]).map (fun s => (s.step (.unlock 0)).map
        (fun s' => (s.served, s'.served, s.calls.length, s.queued))) =
        some (some ([0], [0, 3], 4, 2)) := by
    decide +kernel
  obtain ⟨s, hrun, hlast⟩ := Option.map_eq_some_iff.mp hrun
  obtain ⟨s', hstep, hserved⟩ := Option.map_eq_some_iff.mp hlast
  simp only [Prod.mk.injEq] at hserved
  obtain ⟨hbefore, hafter, hcalls, hqueued⟩ := hserved
  have hgranted : s'.served = s.served ++ [3] := by
    rw [hbefore, hafter]
    rfl
  refine ⟨s, s', hrun, hstep, hgranted, ?_⟩
  exact ((Writers.writers_served hrun).2.2.2.2.2 (by rw [hqueued]; decide)).1 0 s' 3 hstep hgranted
    1 ⟨by rw [hcalls]; decide, by rw [hbefore]; decide⟩

namespace Writers

private theorem step_queue (n : Nat) (waiters : List LockWaiter) (calls : List LockUser)
    (holders served : List Nat) (queued : Nat) :
    step ⟨⟨true, n, waiters⟩, calls, holders, served, queued⟩ (.acquire .control) =
      some ⟨⟨true, Word.add n 1, PriorityQueue.insert LockWaiter.less waiters
        ⟨LockUser.control.priority, Word.add n 1, calls.length⟩⟩, calls ++ [.control], holders,
        served, queued + 1⟩ := rfl

private theorem step_hand (n call : Nat) (w : LockWaiter) (waiters : List LockWaiter)
    (calls : List LockUser) (served : List Nat) (queued : Nat) :
    step ⟨⟨true, n, w :: waiters⟩, calls, [call], served, queued⟩ (.unlock call) =
      some ⟨⟨true, n, waiters⟩, calls, [w.ready], served ++ [w.ready], queued⟩ := by
  simp [step, WriteLock.unlock, PriorityQueue.pop]

/-- One control writer after the other queues up and is served. -/
private theorem arrivals_grow {n : Nat} (hn : n < 2 ^ 64) : ∃ labels calls call served,
    Machine.run step {} labels = some ⟨⟨true, n, []⟩, calls, [call], served, n⟩ := by
  induction n with
  | zero => exact ⟨[.acquire .control], [.control], 0, [0], rfl⟩
  | succ n ih =>
      obtain ⟨labels, calls, call, served, hrun⟩ := ih (by omega)
      have hadd : Word.add n 1 = n + 1 := Word.add_of_lt hn
      refine ⟨labels ++ [.acquire .control, .unlock call], calls ++ [.control], calls.length,
        served ++ [calls.length], ?_⟩
      rw [Machine.run_append, hrun, Option.bind_some, Machine.run, step_queue, hadd,
        Option.bind_some, Machine.run, PriorityQueue.insert, step_hand]
      rfl

/-- After `2 ^ 64 - 1` arrivals the count is back at zero, and the control
writer that comes next is served before the one that came before it. -/
theorem arrivals_wrap : ∃ (labels : List Action) (s s' : Writers) (call i granted : Nat),
    Machine.run step {} labels = some s ∧ s.step (.unlock call) = some s' ∧
      s'.served = s.served ++ [granted] ∧ s.Waits i ∧ s.Precedes i granted := by
  have hlast : 2 ^ 64 - 2 < 2 ^ 64 := by decide
  obtain ⟨labels, calls, call, served, hrun⟩ := arrivals_grow hlast
  have hadd : Word.add (2 ^ 64 - 2) 1 = 2 ^ 64 - 1 := by decide
  have hwrap : Word.add (2 ^ 64 - 1) 1 = 0 := by decide
  let first : LockWaiter := ⟨LockUser.control.priority, 2 ^ 64 - 1, calls.length⟩
  let second : LockWaiter := ⟨LockUser.control.priority, 0, calls.length + 1⟩
  have hless : second.less first = true := by
    rw [LockWaiter.less_iff]
    have hlt : 0 < 2 ^ 64 - 1 := by decide
    exact Or.inr ⟨rfl, Or.inr ⟨rfl, hlt⟩⟩
  have hqueued : Machine.run step {} (labels ++ [.acquire .control, .acquire .control]) =
      some ⟨⟨true, 0, [second, first]⟩, calls ++ [.control] ++ [.control], [call], served,
        2 ^ 64 - 2 + 1 + 1⟩ := by
    rw [Machine.run_append, hrun, Option.bind_some, Machine.run, step_queue, hadd,
      Option.bind_some, Machine.run, PriorityQueue.insert, step_queue, hwrap,
      List.length_append]
    change some (Writers.mk ⟨true, 0, if second.less first then _ else _⟩ _ _ _ _) = _
    rw [if_pos hless]
    rfl
  have hwaits : Waits ⟨⟨true, 0, [second, first]⟩, calls ++ [.control] ++ [.control], [call],
      served, 2 ^ 64 - 2 + 1 + 1⟩ calls.length :=
    (sound_run hqueued).waits_iff.mpr
      ⟨first, List.mem_cons_of_mem _ List.mem_cons_self, rfl⟩
  refine ⟨_, _, _, call, calls.length, calls.length + 1, hqueued, step_hand _ _ _ _ _ _ _, rfl,
    hwaits, .control, .control, ?_, ?_, Nat.lt_succ_self _⟩
  · simp
  · simp

end Writers

end Qmux
