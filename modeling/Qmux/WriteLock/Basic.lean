import Qmux.Conn.State
import Qmux.Lib.Machine
import Qmux.Lib.PriorityQueue

/-!
The lock of the transport, which hands itself to its waiters by priority.
`container/heap` is a priority queue. Ownership passes from the holder to the
waiter that ranks first while `held` stays set, so the lock is free only when
nobody waits.

Within an urgency, `order` is the stream of a writer or, if it is incremental,
the number of its arrival. Arrivals are counted in 64 bits.
-/

namespace Qmux

/-- Ranks control frames ahead of all stream data. -/
def urgencyControl : Int := -1

/-- `priority`, the rank of a writer that waits for the transport. -/
structure Priority where
  urgency : Int
  incremental : Bool
  streamID : Nat
deriving DecidableEq, Repr

/-- `lockWaiter`. Its channel `ready` is known by a number. -/
structure LockWaiter extends Priority where
  order : Nat
  ready : Nat
deriving DecidableEq, Repr

/-- `waiterHeap.Less`. -/
def LockWaiter.less (a b : LockWaiter) : Bool :=
  if a.urgency ≠ b.urgency then decide (a.urgency < b.urgency)
  else if a.incremental ≠ b.incremental then !a.incremental
  else decide (a.order < b.order)

namespace LockWaiter

theorem less_iff {a b : LockWaiter} :
    a.less b = true ↔ a.urgency < b.urgency ∨ a.urgency = b.urgency ∧
      (a.incremental.toNat < b.incremental.toNat ∨
        a.incremental.toNat = b.incremental.toNat ∧ a.order < b.order) := by
  unfold less
  by_cases hurgency : a.urgency = b.urgency
  · cases ha : a.incremental <;> cases hb : b.incremental <;> simp [hurgency]
  · simp [hurgency]

/-- `Less` is a strict weak order. -/
theorem less_strictWeak : IsStrictWeakOrder LockWaiter (fun a b => a.less b = true) where
  irrefl a := by
    rw [less_iff]
    omega
  trans a b c hab hbc := by
    rw [less_iff] at hab hbc ⊢
    omega
  incomp_trans a b c hab hbc := by
    simp only [less_iff] at hab hbc ⊢
    omega

end LockWaiter

/-- `writeLock`. -/
structure WriteLock where
  held : Bool := false
  arrivals : Nat := 0
  waiters : List LockWaiter := []
deriving DecidableEq, Repr

namespace WriteLock

variable [PriorityQueue]

/-- `acquire` takes the lock if it is free. Otherwise it returns the channel
`ready`, which is closed when the lock has been handed to the caller. -/
def acquire (l : WriteLock) (p : Priority) (ready : Nat) : WriteLock × Option Nat :=
  if !l.held then ({ l with held := true }, none)
  else if p.incremental then
    let arrivals := Word.add l.arrivals 1
    ({ l with
        arrivals := arrivals
        waiters := PriorityQueue.push LockWaiter.less l.waiters ⟨p, arrivals, ready⟩ },
      some ready)
  else
    ({ l with
        waiters := PriorityQueue.push LockWaiter.less l.waiters ⟨p, p.streamID, ready⟩ },
      some ready)

/-- `Unlock` releases the lock, or hands it to the waiter that ranks first and
closes its channel. -/
def unlock (l : WriteLock) : WriteLock × Option Nat :=
  if l.waiters.length = 0 then ({ l with held := false }, none)
  else
    match PriorityQueue.pop LockWaiter.less l.waiters with
    | none => (l, none)
    | some (w, rest) => ({ l with waiters := rest }, some w.ready)

end WriteLock

/-- Who locks: control frames through `Lock`, or a stream with the priority
that `setPriority` left it. -/
inductive LockUser where
  | control
  | stream (urgency : Int) (incremental : Bool) (streamID : Nat)
deriving DecidableEq, Repr

namespace LockUser

/-- The priority of a stream writer is as `setPriority` clips it. -/
def priority : LockUser → Priority
  | .control => ⟨urgencyControl, true, 0⟩
  | .stream urgency incremental streamID =>
      ⟨min (max urgency 0) maxUrgency, incremental, streamID⟩

/-- Who is to be served first, where `earlier` tells who came first: control
frames, then lower urgency, within an urgency the streams that are not
incremental by their identifier, and then the others in the order they came. -/
def Outranks (earlier : Prop) : LockUser → LockUser → Prop
  | .control, .control => earlier
  | .control, .stream _ _ _ => True
  | .stream _ _ _, .control => False
  | .stream u false i, .stream v false j =>
      min (max u 0) maxUrgency < min (max v 0) maxUrgency ∨
        min (max u 0) maxUrgency = min (max v 0) maxUrgency ∧ i < j
  | .stream u false _, .stream v true _ => min (max u 0) maxUrgency ≤ min (max v 0) maxUrgency
  | .stream u true _, .stream v false _ => min (max u 0) maxUrgency < min (max v 0) maxUrgency
  | .stream u true _, .stream v true _ =>
      min (max u 0) maxUrgency < min (max v 0) maxUrgency ∨
        min (max u 0) maxUrgency = min (max v 0) maxUrgency ∧ earlier

end LockUser

/-- Any number of writers that share the lock. A call of `acquire` is known by
its number; `holders` have the lock, and `served` got it, in this order. `queued`
of the calls have had to wait by their arrival: those of control writers and of
incremental streams. -/
structure Writers where
  lock : WriteLock := {}
  calls : List LockUser := []
  holders : List Nat := []
  served : List Nat := []
  queued : Nat := 0
deriving DecidableEq, Repr

namespace Writers

inductive Action where
  | acquire (user : LockUser)
  /-- The holder unlocks. -/
  | unlock (call : Nat)
deriving DecidableEq, Repr

section Definitions

variable [PriorityQueue]

def step (s : Writers) : Action → Option Writers
  | .acquire user =>
      let call := s.calls.length
      match s.lock.acquire user.priority call with
      | (l, none) => some { s with
          lock := l
          calls := s.calls ++ [user]
          holders := s.holders ++ [call]
          served := s.served ++ [call] }
      | (l, some _) => some { s with
          lock := l
          calls := s.calls ++ [user]
          queued := if user.priority.incremental then s.queued + 1 else s.queued }
  | .unlock call =>
      if call ∈ s.holders then
        let (l, granted) := s.lock.unlock
        some { s with
          lock := l
          holders := s.holders.erase call ++ granted.toList
          served := s.served ++ granted.toList }
      else none

end Definitions

/-- The call waits for the lock. -/
def Waits (s : Writers) (call : Nat) : Prop :=
  call < s.calls.length ∧ call ∉ s.served

/-- The first of two calls is to be served before the second. -/
def Precedes (s : Writers) (i j : Nat) : Prop :=
  ∃ a b, s.calls[i]? = some a ∧ s.calls[j]? = some b ∧ a.Outranks (i < j) b

/-- The first of two calls is to be served before the second, whichever came first. -/
def Outclasses (s : Writers) (i j : Nat) : Prop :=
  ∃ a b, s.calls[i]? = some a ∧ s.calls[j]? = some b ∧ a.Outranks False b

section Correct

variable [PriorityQueue] {s s' : Writers}

/-- What holds of the lock and its users at any time. -/
structure Sound (s : Writers) : Prop where
  ordered : PriorityQueue.Ordered LockWaiter.less s.lock.waiters
  holder : if s.lock.held then ∃ call, s.holders = [call] else s.holders = []
  free : s.lock.held = false → s.lock.waiters = []
  /-- Every call waits or was served, and not both. -/
  calls : (s.lock.waiters.map LockWaiter.ready ++ s.served).Perm (List.range s.calls.length)
  /-- A waiter has the priority of its call. -/
  user : ∀ w ∈ s.lock.waiters, ∃ user, s.calls[w.ready]? = some user ∧
    user.priority = w.toPriority

theorem sound_start : Sound {} :=
  ⟨PriorityQueue.ordered_nil _, rfl, fun _ => rfl, .refl _, fun w hw => by cases hw⟩

private theorem push_sound (h : s.Sound) (hheld : s.lock.held = true) (user : LockUser)
    (arrivals order queued : Nat) :
    Sound { s with
      lock := { s.lock with
        arrivals := arrivals
        waiters := PriorityQueue.push LockWaiter.less s.lock.waiters
          ⟨user.priority, order, s.calls.length⟩ }
      calls := s.calls ++ [user]
      queued := queued } := by
  have hpush := PriorityQueue.push_perm LockWaiter.less s.lock.waiters
    ⟨user.priority, order, s.calls.length⟩
  refine ⟨PriorityQueue.push_ordered _ LockWaiter.less_strictWeak h.ordered, h.holder, ?_, ?_, ?_⟩
  · intro hfree
    rw [hheld] at hfree
    cases hfree
  · rw [List.length_append, List.length_singleton, List.range_succ]
    have hmap := (hpush.map LockWaiter.ready).append_right s.served
    refine hmap.trans (((List.Perm.cons _ h.calls)).trans ?_)
    exact (List.perm_append_singleton _ _).symm
  · intro w hw
    rcases List.mem_cons.mp (hpush.mem_iff.mp hw) with rfl | hw
    · exact ⟨user, by simp, rfl⟩
    · obtain ⟨user', huser, hpriority⟩ := h.user w hw
      refine ⟨user', ?_, hpriority⟩
      rw [List.getElem?_append_left (List.getElem?_eq_some_iff.mp huser).1]
      exact huser

theorem sound_acquire (h : s.Sound) {user : LockUser}
    (hstep : s.step (.acquire user) = some s') : s'.Sound := by
  unfold step WriteLock.acquire at hstep
  cases hheld : s.lock.held with
  | false =>
      simp only [hheld, Bool.not_false, if_true] at hstep
      obtain rfl := Option.some.inj hstep
      have hholders : s.holders = [] := by simpa [hheld] using h.holder
      have hwaiters := h.free hheld
      have hcalls := h.calls
      simp only [hwaiters, List.map_nil, List.nil_append] at hcalls
      refine ⟨h.ordered, ?_, nofun, ?_, ?_⟩
      · simp [hholders]
      · simp only [hwaiters, List.map_nil, List.nil_append, List.length_append,
          List.length_singleton, List.range_succ]
        exact hcalls.append_right _
      · intro w hw
        rw [hwaiters] at hw
        cases hw
  | true =>
      simp only [hheld, Bool.not_true, Bool.false_eq_true, if_false] at hstep
      split_ifs at hstep
      · obtain rfl := Option.some.inj hstep
        simpa only [hheld] using push_sound h hheld user (Word.add s.lock.arrivals 1)
          (Word.add s.lock.arrivals 1) _
      · obtain rfl := Option.some.inj hstep
        simpa only [hheld] using push_sound h hheld user s.lock.arrivals user.priority.streamID _

/-- What `Unlock` does when there are waiters. -/
theorem unlock_grants (h : s.Sound) (hne : s.lock.waiters ≠ []) {call : Nat}
    (hstep : s.step (.unlock call) = some s') :
    ∃ w rest, (w :: rest).Perm s.lock.waiters ∧
      PriorityQueue.Ordered LockWaiter.less rest ∧ (∀ y ∈ s.lock.waiters, y.less w = false) ∧
      s' = { s with
        lock := { s.lock with waiters := rest }
        holders := [w.ready]
        served := s.served ++ [w.ready] } := by
  obtain ⟨w, rest, hpop, hperm, hordered, hmin⟩ :=
    PriorityQueue.pop_spec LockWaiter.less_strictWeak h.ordered hne
  unfold step WriteLock.unlock at hstep
  have hlen : s.lock.waiters.length ≠ 0 := mt List.eq_nil_of_length_eq_zero hne
  simp only [hlen, if_false, hpop] at hstep
  obtain ⟨hmem, hstep⟩ := Option.ite_none_right_eq_some.mp hstep
  refine ⟨w, rest, hperm, hordered, hmin, ?_⟩
  have hheld : s.lock.held = true := by
    by_contra hfree
    exact hne (h.free (by simpa using hfree))
  have hholder := h.holder
  rw [if_pos hheld] at hholder
  obtain ⟨t, ht⟩ := hholder
  rw [ht, List.mem_singleton] at hmem
  obtain rfl := Option.some.inj hstep
  simp [ht, hmem]

/-- What `Unlock` does when there are none. -/
theorem unlock_frees (h : s.Sound) (hnone : s.lock.waiters = []) {call : Nat}
    (hstep : s.step (.unlock call) = some s') :
    s' = { s with lock := { s.lock with held := false }, holders := [] } := by
  have hunlock : s.lock.unlock = ({ s.lock with held := false }, none) := by
    unfold WriteLock.unlock
    rw [if_pos (by rw [hnone]; rfl)]
  simp only [step, hunlock] at hstep
  obtain ⟨hmem, hstep⟩ := Option.ite_none_right_eq_some.mp hstep
  have hholders : s.holders.erase call = [] := by
    have hholder := h.holder
    split_ifs at hholder
    · obtain ⟨t, ht⟩ := hholder
      rw [ht, List.mem_singleton] at hmem
      simp [ht, hmem]
    · rw [hholder] at hmem
      cases hmem
  obtain rfl := Option.some.inj hstep
  simp [hholders]

theorem sound_unlock (h : s.Sound) {call : Nat} (hstep : s.step (.unlock call) = some s') :
    s'.Sound := by
  by_cases hne : s.lock.waiters = []
  · obtain rfl := unlock_frees h hne hstep
    exact ⟨h.ordered, rfl, fun _ => hne, h.calls, h.user⟩
  · obtain ⟨w, rest, hperm, hordered, -, rfl⟩ := unlock_grants h hne hstep
    have hheld : s.lock.held = true := by
      by_contra hfree
      exact hne (h.free (by simpa using hfree))
    refine ⟨hordered, ?_, ?_, ?_, ?_⟩
    · simp [hheld]
    · intro hfree
      rw [hheld] at hfree
      cases hfree
    · have hmap := (hperm.map LockWaiter.ready).append_right s.served
      refine List.Perm.trans ?_ (hmap.trans h.calls)
      rw [List.map_cons, ← List.append_assoc]
      exact List.perm_append_singleton _ _
    · intro v hv
      exact h.user v (hperm.mem_iff.mp (List.mem_cons_of_mem w hv))

theorem sound_step (h : s.Sound) {a : Action} (hstep : s.step a = some s') : s'.Sound := by
  cases a with
  | acquire user => exact sound_acquire h hstep
  | unlock call => exact sound_unlock h hstep

theorem sound_run {labels : List Action} (hrun : Machine.run step {} labels = some s) :
    s.Sound :=
  Machine.invariant sound_start (fun _ _ _ h hstep => sound_step h hstep) ⟨labels, hrun⟩

theorem Sound.waits_iff (h : s.Sound) {call : Nat} :
    s.Waits call ↔ ∃ w ∈ s.lock.waiters, w.ready = call := by
  have hmem : call < s.calls.length ↔
      (∃ w ∈ s.lock.waiters, w.ready = call) ∨ call ∈ s.served := by
    rw [← List.mem_range, ← h.calls.mem_iff, List.mem_append, List.mem_map]
  have hnodup := h.calls.nodup_iff.mpr (List.nodup_range)
  constructor
  · rintro ⟨hcall, hserved⟩
    exact (hmem.mp hcall).resolve_right hserved
  · intro hw
    refine ⟨hmem.mpr (Or.inl hw), fun hserved => ?_⟩
    exact List.disjoint_of_nodup_append hnodup (List.mem_map.mpr hw) hserved

theorem Sound.ready_lt (h : s.Sound) {w : LockWaiter} (hw : w ∈ s.lock.waiters) :
    w.ready < s.calls.length :=
  (h.waits_iff.mpr ⟨w, hw, rfl⟩).1

end Correct

end Writers

end Qmux
