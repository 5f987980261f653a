import Qmux.Conn.Life
import Qmux.Trace.Run
import Qmux.WriteLock.Service

/-!
An endpoint with its write lock. Any number of goroutines ask for the lock, each for
the job it has checked: a stream writer with the priority its stream had when it
asked, the others ahead of all stream data. The holder unlocks when its job is done,
and the lock picks who is next.

The endpoint alone leaves it open who of those that could use the lock is handed it.
With the lock, what a goroutine has checked when it asked has to be true still when
its turn comes, so that the endpoint can go on with its job.
-/

namespace Qmux

open Wire

/-- The action is to be handed `writeMu`. -/
def Action.isLock : Action → Bool
  | .lock _ => true
  | _ => false

/-- `asking` are the goroutines that know their priority and have not called
`acquire`. A call of `acquire` goes by its number among all of them, and `jobs` says
what it is for; the first is the one in `newConn`, for the transport parameters. -/
structure Contended [Quicvarint] where
  endpoint : Endpoint
  writers : Writers
  asking : List (Job × LockUser)
  jobs : Nat → Option Job

namespace Contended

inductive Event where
  /-- The endpoint does anything but hand over the lock. -/
  | act (a : Action)
  /-- A goroutine is about to lock for a job. -/
  | ask (job : Job)
  /-- One of those that are about to lock calls `acquire`. -/
  | acquire (i : Nat)
  /-- The holder is done and calls `Unlock`. -/
  | unlock
deriving DecidableEq, Repr

section Model

variable [Quicvarint] [PriorityQueue]

/-- `newConn` takes the lock before it starts the goroutines. -/
def new (config : Config) (isServer : Bool) : Contended where
  endpoint := .new config isServer
  writers :=
    { lock := { held := true }
      calls := [.control]
      holders := [0]
      served := [0] }
  asking := []
  jobs _ := none

omit [PriorityQueue] in
/-- Who asks: `priority` of the stream, or `Lock`. -/
def user (e : Endpoint) : Job → LockUser
  | .chunk r _ | .closeSend r =>
      let s := e.conn.heap r
      .stream s.urgency s.incremental s.id
  | _ => .control

omit [PriorityQueue] in
/-- The jobs of those that want the lock. -/
def pending (k : Contended) : List Job :=
  k.asking.map Prod.fst ++ k.writers.lock.waiters.filterMap (fun w => k.jobs w.ready)

omit [PriorityQueue] in
/-- The write loop, or the call that closes the connection, is a single goroutine, and
not one that waits already. -/
def unasked (k : Contended) : Job → Bool
  | .flush => decide (Job.flush ∉ k.pending ∧ k.endpoint.writeMu.loop? ≠ some .woken)
  | .close => decide (Job.close ∉ k.pending)
  | _ => true

variable [GoAppend]

omit [PriorityQueue] in
/-- The call got the lock, and goes on with its job. -/
def granted (k : Contended) (call : Nat) : Option Contended := do
  let job ← k.jobs call
  let e ← k.endpoint.step (.lock job)
  return { k with endpoint := e }

def acquire (k : Contended) (i : Nat) : Option Contended := do
  let (job, user) ← k.asking[i]?
  let call := k.writers.calls.length
  let writers ← k.writers.step (.acquire user)
  let next := { k with
    writers := writers
    asking := k.asking.eraseIdx i
    jobs := Function.update k.jobs call (some job) }
  if k.writers.lock.held then some next else next.granted call

/-- The deferred `Unlock` of the holder. -/
def unlock (k : Contended) : Option Contended :=
  match k.writers.holders with
  | [] => none
  | call :: _ => do
      let writers ← k.writers.step (.unlock call)
      let next := { k with writers := writers }
      match writers.holders with
      | [] => some next
      | call :: _ => next.granted call

def step (k : Contended) : Event → Option Contended
  | .act a =>
      if a.isLock then none else (k.endpoint.step a).map (fun e => { k with endpoint := e })
  | .ask job =>
      if (k.endpoint.lock job).isSome ∧ k.unasked job then
        some { k with asking := k.asking ++ [(job, user k.endpoint job)] }
      else none
  | .acquire i => k.acquire i
  | .unlock => if k.endpoint.writeMu = .free then k.unlock else none

end Model

section Steps

variable [Quicvarint] {e e' : Endpoint}

private theorem enter_loop {now : Time} (henter : e.enter now = some e') :
    (e'.writeMu.loop? = some .woken → e.writeMu = .flush) ∧
      (e.writeMu ≠ .flush → e'.loop = e.loop) := by
  unfold Endpoint.enter at henter
  split at henter
  · split at henter
    · obtain rfl := Option.some.inj henter
      exact ⟨nofun, fun _ => rfl⟩
    · obtain rfl := Option.some.inj henter
      refine ⟨fun hloop => ?_, fun _ => rfl⟩
      dsimp only at hloop
      split_ifs at hloop <;> cases hloop
  · split at henter
    all_goals
      obtain rfl := Option.some.inj henter
      exact ⟨nofun, fun _ => rfl⟩
  · rename_i hmu
    exact ⟨fun _ => hmu, fun hother => absurd hmu hother⟩
  · split_ifs at henter
    all_goals
      obtain rfl := Option.some.inj henter
      exact ⟨nofun, fun _ => rfl⟩
  · cases henter

/-- After a write there are more records to write, or the writer is done. -/
private theorem write_done {ok : Bool} (hwrite : e.write ok = some e') :
    ∃ w frames rest, e.writeMu = .writing w (frames :: rest) ∧
      (e'.writeMu = .writing w rest ∧ e'.loop = e.loop ∧ e'.closer = e.closer ∨
        e'.writeMu.loop? = none ∧ (w ≠ .parameters → w ≠ .flush → e'.loop = e.loop) ∧
          (w ≠ .close → e'.closer = e.closer)) := by
  unfold Endpoint.write at hwrite
  split at hwrite
  · rename_i w frames rest hmu
    refine ⟨w, frames, rest, hmu, ?_⟩
    split at hwrite
    · cases hwrite
    · split_ifs at hwrite
      · dsimp only at hwrite
        split at hwrite
        · obtain rfl := Option.some.inj hwrite
          right
          cases w <;> simp [Endpoint.written, Holder.loop?]
        · obtain rfl := Option.some.inj hwrite
          exact Or.inl ⟨rfl, rfl, rfl⟩
      · obtain rfl := Option.some.inj hwrite
        right
        cases w <;> simp [Endpoint.writeFails, Holder.loop?]
  · cases hwrite

variable [GoAppend] {a : Action}

/-- Only who is handed the lock holds it. -/
private theorem step_free (hstep : e.step a = some e') (hother : a.isLock = false)
    (hfree : e.writeMu = .free) : e'.writeMu = .free := by
  cases Endpoint.stepped hstep with
  | lock => cases hother
  | enter henter =>
      rw [Endpoint.enter, hfree] at henter
      cases henter
  | write hwrite =>
      obtain ⟨w, frames, rest, hmu, -⟩ := write_done hwrite
      rw [hfree] at hmu
      cases hmu
  | abort haborts =>
      cases haborts with
      | writer => rfl
      | _ => exact hfree
  | record =>
      obtain ⟨c, reader, hframe⟩ := Endpoint.receive_frame e _ _
      rw [hframe]
      exact hfree
  | _ => exact hfree

/-- Only who is handed the lock for it starts a flush. -/
private theorem step_flushing (hstep : e.step a = some e') (hother : a.isLock = false)
    (hflush : e'.writeMu.loop? = some .woken) : e.writeMu.loop? = some .woken := by
  cases Endpoint.stepped hstep with
  | lock => cases hother
  | enter henter => rw [(enter_loop henter).1 hflush, Holder.loop?]
  | write hwrite =>
      obtain ⟨w, frames, rest, hmu, ⟨hmore, -⟩ | ⟨hdone, -⟩⟩ := write_done hwrite
      · rw [hmore] at hflush
        rw [hmu]
        cases w with
        | flush => rfl
        | _ => cases hflush
      · rw [hdone] at hflush
        cases hflush
  | abort haborts =>
      cases haborts with
      | writer => cases hflush
      | _ => exact hflush
  | record =>
      obtain ⟨c, reader, hframe⟩ := Endpoint.receive_frame e _ _
      rw [hframe] at hflush
      exact hflush
  | _ => exact hflush

/-- The write loop waits for the lock, whatever the others do. -/
private theorem step_woken (hheld : e.Held) (hstep : e.step a = some e')
    (hwoken : e.loop = .woken) (hfree : e.writeMu.loop? ≠ some .woken) : e'.loop = .woken := by
  cases Endpoint.stepped hstep with
  | lock _ hlock =>
      obtain ⟨_, _, rfl, -⟩ := Endpoint.lock_frame hlock
      exact hwoken
  | enter henter =>
      refine ((enter_loop henter).2 (fun hmu => hfree ?_)).trans hwoken
      rw [hmu, Holder.loop?]
  | write hwrite =>
      obtain ⟨w, frames, rest, hmu, ⟨-, hsame, -⟩ | ⟨-, hsame, -⟩⟩ := write_done hwrite
      · exact hsame.trans hwoken
      · refine (hsame ?_ ?_).trans hwoken
        · rintro rfl
          have hloop := hheld.loop .parameters (by rw [hmu]; rfl)
          rw [hwoken] at hloop
          cases hloop
        · rintro rfl
          exact hfree (by rw [hmu]; rfl)
  | abort haborts =>
      cases haborts with
      | writeLoop hloop =>
          rw [hwoken] at hloop
          cases hloop
      | _ => exact hwoken
  | wake => rfl
  | loopEnd hselect =>
      rw [hwoken] at hselect
      cases hselect
  | record =>
      obtain ⟨c, reader, hframe⟩ := Endpoint.receive_frame e _ _
      rw [hframe]
      exact hwoken
  | _ => exact hwoken

/-- The call that closes the connection waits for the lock, whatever the others do. -/
private theorem step_graceful {frame : ConnectionClose}
    (hclosed : e.conn.closeErr.isSome = true)
    (hclosing : ∀ records, e.writeMu = .writing .close records → e.closer = .writing)
    (hstep : e.step a = some e') (hother : a.isLock = false)
    (hcloser : e.closer = .graceful (some frame)) : e'.closer = .graceful (some frame) := by
  cases Endpoint.stepped hstep with
  | lock => cases hother
  | enter henter =>
      obtain ⟨_, _, _, rfl⟩ := Endpoint.enter_frame henter
      exact hcloser
  | write hwrite =>
      obtain ⟨w, frames, rest, hmu, ⟨-, -, hsame⟩ | ⟨-, -, hsame⟩⟩ := write_done hwrite
      · exact hsame.trans hcloser
      · refine (hsame ?_).trans hcloser
        rintro rfl
        have hwriting := hclosing _ hmu
        rw [hcloser] at hwriting
        cases hwriting
  | close => simp [Endpoint.closeGracefully, Conn.terminate, hclosed, hcloser]
  | abort => simp [Endpoint.abort, Conn.terminate, hclosed, hcloser]
  | record =>
      obtain ⟨c, reader, hframe⟩ := Endpoint.receive_frame e _ _
      rw [hframe]
      exact hcloser
  | shutdown hshutdown =>
      rw [hcloser] at hshutdown
      rcases hshutdown with hcase | hcase <;> cases hcase
  | _ => exact hcloser

end Steps

/-- What is checked for a job before it asks for the lock. -/
def Fit [Quicvarint] (e : Endpoint) : Job → Prop
  | .chunk r p => e.conn.holdsSend r = true ∧ p ≠ []
  | .closeSend r => e.conn.holdsSend r = true
  | .flush => e.loop = .woken
  | .datagram p => e.conn.datagramLimit ≠ 0 ∧ Datagram.len ⟨p⟩ ≤ e.conn.datagramLimit
  | .close => ∃ frame, e.closer = .graceful (some frame)

theorem lock_isSome_iff [Quicvarint] {e : Endpoint} {job : Job} :
    (e.lock job).isSome = true ↔ Fit e job := by
  cases job with
  | close =>
      simp only [Endpoint.lock, Fit]
      split
      · rename_i frame hcloser
        exact ⟨fun _ => ⟨frame, hcloser⟩, fun _ => rfl⟩
      · rename_i hother
        constructor
        · intro hsome
          cases hsome
        · rintro ⟨frame, hcloser⟩
          exact (hother frame hcloser).elim
  | _ =>
      simp only [Endpoint.lock, Fit, Option.isSome_iff_exists, Option.ite_none_right_eq_some]
      constructor
      · rintro ⟨_, hfit, -⟩
        exact hfit
      · intro hfit
        exact ⟨_, hfit, rfl⟩

/-- The endpoint can go on with each of the jobs, and with all of them one after the
other. -/
structure Awaited [Quicvarint] (e : Endpoint) (jobs : List Job) : Prop where
  fit : ∀ job ∈ jobs, Fit e job
  flush : jobs.count .flush + (if e.writeMu.loop? = some .woken then 1 else 0) ≤ 1
  close : jobs.count .close ≤ 1

namespace Awaited

variable [Quicvarint] {e e' : Endpoint} {jobs jobs' : List Job} {job : Job}

theorem perm (h : Awaited e jobs) (hperm : jobs.Perm jobs') : Awaited e jobs' where
  fit job hjob := h.fit job (hperm.mem_iff.mpr hjob)
  flush := hperm.count_eq .flush ▸ h.flush
  close := hperm.count_eq .close ▸ h.close

theorem ask {k : Contended} (h : Awaited k.endpoint k.pending) (hfit : Fit k.endpoint job)
    (hunasked : k.unasked job = true) : Awaited k.endpoint (job :: k.pending) where
  fit := List.forall_mem_cons.mpr ⟨hfit, h.fit⟩
  flush := by
    by_cases hflush : job = .flush
    · subst hflush
      obtain ⟨hnone, hfree⟩ := of_decide_eq_true hunasked
      rw [List.count_cons_self, List.count_eq_zero.mpr hnone, if_neg hfree]
    · rw [List.count_cons_of_ne hflush]
      exact h.flush
  close := by
    by_cases hclose : job = .close
    · subst hclose
      have hnone := of_decide_eq_true hunasked
      rw [List.count_cons_self, List.count_eq_zero.mpr hnone]
    · rw [List.count_cons_of_ne hclose]
      exact h.close

/-- Whose turn it is can go on, and the others can when theirs comes. -/
theorem lock [GoAppend] (h : Awaited e (job :: jobs)) (hfree : e.writeMu = .free) :
    ∃ e', e.step (.lock job) = some e' ∧ Awaited e' jobs := by
  obtain ⟨hfit, hrest⟩ := List.forall_mem_cons.mp h.fit
  obtain ⟨e', hlock⟩ := Option.isSome_iff_exists.mp (lock_isSome_iff.mpr hfit)
  have hflush := h.flush
  have hclose := h.close
  rw [hfree] at hflush
  refine ⟨e', by rw [Endpoint.step, if_pos hfree, hlock], ?_⟩
  cases job with
  | close =>
      rw [List.count_cons_self] at hclose
      have hnone : Job.close ∉ jobs := List.count_eq_zero.mp (by omega)
      simp only [Endpoint.lock] at hlock
      split at hlock
      · obtain rfl := Option.some.inj hlock
        refine ⟨fun job hjob => ?_, by simpa [Holder.loop?] using hflush, by omega⟩
        have hother := hrest job hjob
        cases job with
        | close => exact absurd hjob hnone
        | _ => exact hother
      · cases hlock
  | _ =>
      obtain ⟨-, ⟨⟩⟩ := Option.ite_none_right_eq_some.mp hlock
      refine ⟨fun job hjob => ?_, by simpa [Holder.loop?] using hflush,
        by simpa using hclose⟩
      have hother := hrest job hjob
      cases job <;> exact hother

/-- What was checked for a job stays true until its turn. -/
theorem act [GoAppend] {config : Config} {isServer : Bool} {t₀ t : Traffic} {c₀ : Conn}
    {heard : List Parsed} {a : Action} (h : Awaited e jobs)
    (hconfig : config.Valid) (htraced : Endpoint.Traced config isServer t₀ c₀ heard t e)
    (hstep : e.step a = some e') (hother : a.isLock = false) : Awaited e' jobs where
  fit job hjob := by
    have hfit := h.fit job hjob
    obtain ⟨more, hmore, -⟩ := htraced.restart.step hconfig.recordSize_le hstep
    have hextends : e.conn.Extends e'.conn := hmore.past.since.later
    cases job with
    | chunk r p => exact ⟨hextends.holdsSend hfit.1, hfit.2⟩
    | closeSend r => exact hextends.holdsSend hfit
    | flush =>
        have hcount : 0 < jobs.count .flush := List.count_pos_iff.mpr hjob
        have hflush := h.flush
        refine step_woken htraced.held hstep hfit (fun hcase => ?_)
        rw [if_pos hcase] at hflush
        omega
    | datagram p =>
        have hpeer : e.conn.ready = true := by
          by_contra hunready
          have hfresh := htraced.held.fresh (Bool.eq_false_iff.mpr hunready)
          have hlimit := hfit.1
          rw [Conn.datagramLimit, hfresh] at hlimit
          exact hlimit rfl
        have hsame : e'.conn.datagramLimit = e.conn.datagramLimit := by
          unfold Conn.datagramLimit
          rw [(hextends.peer hpeer).2]
        unfold Fit
        rw [hsame]
        exact hfit
    | close =>
        obtain ⟨frame, hcloser⟩ := hfit
        have hclosed : e.conn.closeErr.isSome = true := by
          by_contra hopen
          have hidle := htraced.idle.mpr (by simpa using hopen)
          rw [hcloser] at hidle
          cases hidle
        exact ⟨frame, step_graceful hclosed htraced.closing hstep hother hcloser⟩
  flush := by
    have hbefore := h.flush
    by_cases hflush : e'.writeMu.loop? = some .woken
    · rw [if_pos (step_flushing hstep hother hflush)] at hbefore
      rw [if_pos hflush]
      exact hbefore
    · rw [if_neg hflush]
      omega
  close := h.close

end Awaited

variable [Quicvarint] [PriorityQueue]

/-- What holds of an endpoint and its lock at any time. -/
structure Sound (k : Contended) : Prop where
  writers : k.writers.Sound
  assigned : ∀ w ∈ k.writers.lock.waiters, ∃ job, k.jobs w.ready = some job
  held : k.endpoint.writeMu ≠ .free → k.writers.lock.held = true
  awaited : Awaited k.endpoint k.pending

variable {k k' : Contended}

theorem sound_new (config : Config) (isServer : Bool) : Sound (new config isServer) where
  writers := ⟨PriorityQueue.ordered_nil _, ⟨0, rfl⟩, nofun, .refl _, fun w hw => by cases hw⟩
  assigned w hw := by cases hw
  held _ := rfl
  awaited := ⟨(fun job hjob => by cases hjob), Nat.zero_le 1, Nat.zero_le 1⟩

/-- A new call leaves the jobs of those that wait. -/
private theorem jobs_update (h : k.Sound) (job : Job) :
    k.writers.lock.waiters.filterMap
        (fun w => Function.update k.jobs k.writers.calls.length (some job) w.ready) =
      k.writers.lock.waiters.filterMap (fun w => k.jobs w.ready) := by
  refine List.filterMap_congr (fun w hw => ?_)
  rw [Function.update_of_ne (Nat.ne_of_lt (h.writers.ready_lt hw))]

omit [Quicvarint] in
/-- Who calls `acquire` gets the lock if it is free, and waits otherwise. -/
theorem acquire_cases (s : Writers) (user : LockUser) :
    ∃ s', s.step (.acquire user) = some s' ∧ s'.lock.held = true ∧
      s'.calls = s.calls ++ [user] ∧
      (s.lock.held = false ∧ s'.lock.waiters = s.lock.waiters ∧
          s'.served = s.served ++ [s.calls.length] ∨
        s.lock.held = true ∧ s'.served = s.served ∧ ∃ w : LockWaiter, w.ready = s.calls.length ∧
          s'.lock.waiters.Perm (w :: s.lock.waiters)) := by
  unfold Writers.step WriteLock.acquire
  cases hheld : s.lock.held with
  | false =>
      simp only [Bool.not_false, if_true]
      exact ⟨_, rfl, rfl, rfl, Or.inl ⟨trivial, rfl, rfl⟩⟩
  | true =>
      simp only [Bool.not_true, Bool.false_eq_true, if_false]
      split_ifs
      all_goals
        exact ⟨_, rfl, rfl, rfl,
          Or.inr ⟨trivial, rfl, _, rfl, PriorityQueue.push_perm LockWaiter.less _ _⟩⟩

private theorem ask_sound (h : k.Sound) {job : Job}
    (hsome : (k.endpoint.lock job).isSome = true) (hunasked : k.unasked job = true) :
    Sound { k with asking := k.asking ++ [(job, user k.endpoint job)] } := by
  refine ⟨h.writers, h.assigned, h.held, ?_⟩
  refine (h.awaited.ask (lock_isSome_iff.mp hsome) hunasked).perm ?_
  rw [pending, pending, List.map_append, List.append_assoc]
  exact List.perm_middle.symm

variable [GoAppend]

/-- The call whose turn it is goes on with its job. -/
private theorem granted_sound {call : Nat} {job : Job} {jobs : List Job}
    (hwriters : k.writers.Sound) (hheld : k.writers.lock.held = true)
    (hassigned : ∀ w ∈ k.writers.lock.waiters, ∃ job, k.jobs w.ready = some job)
    (hjob : k.jobs call = some job) (hfree : k.endpoint.writeMu = .free)
    (hawaited : Awaited k.endpoint jobs) (hperm : jobs.Perm (job :: k.pending)) :
    ∃ k', k.granted call = some k' ∧ k'.Sound ∧ k'.writers = k.writers ∧ k'.asking = k.asking ∧
      k.endpoint.step (.lock job) = some k'.endpoint := by
  obtain ⟨e, hlock, hrest⟩ := (hawaited.perm hperm).lock hfree
  refine ⟨{ k with endpoint := e }, ?_, ⟨hwriters, hassigned, fun _ => hheld, hrest⟩, rfl, rfl,
    hlock⟩
  simp [granted, hjob, hlock]

/-- A goroutine that calls `acquire` goes on at once if the lock is free. -/
private theorem acquire_spec (h : k.Sound) {i : Nat} {job : Job} {user : LockUser}
    (hi : k.asking[i]? = some (job, user)) :
    ∃ k', k.acquire i = some k' ∧ k'.Sound ∧ k.writers.step (.acquire user) = some k'.writers ∧
      k'.asking = k.asking.eraseIdx i ∧
      (k.writers.lock.held = true ∧ k'.endpoint = k.endpoint ∨
        k.writers.lock.held = false ∧ k'.writers.lock.waiters = [] ∧
          k.endpoint.step (.lock job) = some k'.endpoint) := by
  obtain ⟨hlt, hget⟩ := List.getElem?_eq_some_iff.mp hi
  have hasking : (k.asking.map Prod.fst).Perm (job :: (k.asking.eraseIdx i).map Prod.fst) := by
    have hperm := (List.getElem_cons_eraseIdx_perm hlt).symm.map Prod.fst
    rwa [hget] at hperm
  obtain ⟨writers, hstep, hheld, hcalls, hcase⟩ := acquire_cases k.writers user
  have hsound := Writers.sound_acquire h.writers hstep
  rcases hcase with ⟨hidle, hsame, -⟩ | ⟨hbusy, -, w, hready, hwaiters⟩
  · have hnone := h.writers.free hidle
    have hfree : k.endpoint.writeMu = .free := by
      by_contra hused
      rw [h.held hused] at hidle
      cases hidle
    have hjob : Function.update k.jobs k.writers.calls.length (some job) k.writers.calls.length =
        some job := Function.update_self ..
    obtain ⟨k', hgranted, hnext, hsame', hasking', hlock⟩ := granted_sound
      (k := ⟨k.endpoint, writers, k.asking.eraseIdx i,
        Function.update k.jobs k.writers.calls.length (some job)⟩) hsound hheld
      (by rw [hsame, hnone]; exact fun w hw => by cases hw) hjob hfree h.awaited
      (by simpa [pending, hsame, hnone] using hasking)
    refine ⟨k', ?_, hnext, hsame' ▸ hstep, hasking', Or.inr ⟨hidle, ?_, hlock⟩⟩
    · simp [acquire, hi, hstep, hidle, hgranted]
    · rw [hsame', hsame, hnone]
  · refine ⟨⟨k.endpoint, writers, k.asking.eraseIdx i,
      Function.update k.jobs k.writers.calls.length (some job)⟩, ?_, ⟨hsound, ?_, fun _ => hheld, ?_⟩,
      hstep, rfl, Or.inl ⟨hbusy, rfl⟩⟩
    · simp [acquire, hi, hstep, hbusy]
    · intro v hv
      rcases List.mem_cons.mp (hwaiters.mem_iff.mp hv) with rfl | hv
      · exact ⟨job, by simp only [hready, Function.update_self]⟩
      · obtain ⟨job', hjob'⟩ := h.assigned v hv
        refine ⟨job', ?_⟩
        simpa [Function.update_of_ne (Nat.ne_of_lt (h.writers.ready_lt hv))] using hjob'
    · refine h.awaited.perm ?_
      have hjobs := hwaiters.filterMap
        (fun w => Function.update k.jobs k.writers.calls.length (some job) w.ready)
      rw [List.filterMap_cons, jobs_update h job, hready, Function.update_self] at hjobs
      unfold pending
      refine (hasking.append_right _).trans ?_
      refine List.Perm.trans ?_ (List.Perm.append_left _ hjobs.symm)
      exact List.perm_middle.symm

/-- The holder that is done hands the lock to a goroutine that can go on, if any waits. -/
private theorem unlock_spec (h : k.Sound) (hfree : k.endpoint.writeMu = .free)
    (hheld : k.writers.lock.held = true) :
    ∃ k' call, k.unlock = some k' ∧ k'.Sound ∧
      k.writers.step (.unlock call) = some k'.writers ∧
      k'.asking = k.asking ∧
      (k.writers.lock.waiters = [] ∧ k'.writers.lock.waiters = [] ∧
          k'.endpoint = k.endpoint ∧ k'.writers.lock.held = false ∨
        ∃ w ∈ k.writers.lock.waiters, ∃ job, k.jobs w.ready = some job ∧
          k'.writers.holders = [w.ready] ∧ k'.writers.served = k.writers.served ++ [w.ready] ∧
          k.endpoint.step (.lock job) = some k'.endpoint) := by
  have hholder := h.writers.holder
  rw [if_pos hheld] at hholder
  obtain ⟨call, hholders⟩ := hholder
  have hdone : ∃ writers, k.writers.step (.unlock call) = some writers := by
    simp [Writers.step, hholders]
  obtain ⟨writers, hstep⟩ := hdone
  have hsound := Writers.sound_unlock h.writers hstep
  by_cases hnone : k.writers.lock.waiters = []
  · obtain rfl := Writers.unlock_frees h.writers hnone hstep
    refine ⟨{ k with writers := _ }, call, ?_, ⟨hsound, h.assigned, ?_, h.awaited⟩, hstep, rfl,
      Or.inl ⟨hnone, hnone, rfl, rfl⟩⟩
    · simp only [unlock, hholders, hstep]
      rfl
    · exact fun hused => absurd hfree hused
  · obtain ⟨w, rest, hperm, -, -, hwriters⟩ := Writers.unlock_grants h.writers hnone hstep
    have hw : w ∈ k.writers.lock.waiters := hperm.mem_iff.mp List.mem_cons_self
    have hrest (v : LockWaiter) (hv : v ∈ rest) : v ∈ k.writers.lock.waiters :=
      hperm.mem_iff.mp (List.mem_cons_of_mem w hv)
    obtain ⟨job, hjob⟩ := h.assigned w hw
    have hjobs := hperm.symm.filterMap (fun w => k.jobs w.ready)
    rw [List.filterMap_cons, hjob] at hjobs
    obtain ⟨k', hgranted, hnext, hsame, hasking, hlock⟩ := granted_sound
      (k := { k with writers := writers }) hsound (by rw [hwriters]; exact hheld)
      (by rw [hwriters]; exact fun v hv => h.assigned v (hrest v hv)) hjob hfree h.awaited (by
        rw [pending, pending, hwriters]
        exact (hjobs.append_left _).trans List.perm_middle)
    refine ⟨k', call, ?_, hnext, hsame ▸ hstep, hasking,
      Or.inr ⟨w, hw, job, hjob, by rw [hsame, hwriters], by rw [hsame, hwriters], hlock⟩⟩
    have hnow : writers.holders = [w.ready] := by rw [hwriters]
    simp only [unlock, hholders, hstep, Option.bind_eq_bind, Option.bind_some, hnow]
    exact hgranted

/-- What a step does: to the lock, and to the endpoint. -/
private theorem step_sound {config : Config} {isServer : Bool} {labels : List Action} {ev : Event}
    (hvalid : config.Valid)
    (hprior : Machine.run Endpoint.step (.new config isServer) labels = some k.endpoint)
    (h : k.Sound) (hstep : k.step ev = some k') :
    k'.Sound ∧ (k'.writers = k.writers ∨ ∃ a, k.writers.step a = some k'.writers) ∧
      (k'.endpoint = k.endpoint ∨ ∃ a, k.endpoint.step a = some k'.endpoint) := by
  cases ev with
  | act a =>
      obtain ⟨hother, hact⟩ := Option.ite_none_left_eq_some.mp hstep
      obtain ⟨e, he, rfl⟩ := Option.map_eq_some_iff.mp hact
      obtain ⟨_, _, t, htraced⟩ := Endpoint.traced hvalid hprior
      refine ⟨⟨h.writers, h.assigned, fun hused => ?_, ?_⟩, Or.inl rfl, Or.inr ⟨a, he⟩⟩
      · exact h.held (fun hfree => hused (step_free he (Bool.eq_false_iff.mpr hother) hfree))
      · exact h.awaited.act hvalid htraced he (Bool.eq_false_iff.mpr hother)
  | ask job =>
      obtain ⟨⟨hsome, hunasked⟩, ⟨⟩⟩ := Option.ite_none_right_eq_some.mp hstep
      exact ⟨ask_sound h hsome hunasked, Or.inl rfl, Or.inl rfl⟩
  | acquire i =>
      obtain ⟨⟨job, user⟩, hi, -⟩ := Option.bind_eq_some_iff.mp hstep
      obtain ⟨next, hnext, hsound, hwriters, -, hcase⟩ := acquire_spec h hi
      obtain rfl : next = k' := Option.some.inj (hnext.symm.trans hstep)
      refine ⟨hsound, Or.inr ⟨_, hwriters⟩, hcase.imp ?_ ?_⟩
      · exact fun hwaits => hwaits.2
      · exact fun hgoes => ⟨_, hgoes.2.2⟩
  | unlock =>
      obtain ⟨hfree, hunlock⟩ := Option.ite_none_right_eq_some.mp hstep
      have hheld : k.writers.lock.held = true := by
        by_contra hidle
        have hholder := h.writers.holder
        rw [if_neg hidle] at hholder
        rw [unlock, hholder] at hunlock
        cases hunlock
      obtain ⟨next, call, hnext, hsound, hwriters, -, hcase⟩ := unlock_spec h hfree hheld
      obtain rfl : next = k' := Option.some.inj (hnext.symm.trans hunlock)
      refine ⟨hsound, Or.inr ⟨_, hwriters⟩, hcase.imp ?_ ?_⟩
      · exact fun hfrees => hfrees.2.2.1
      · exact fun ⟨_, _, job, _, _, _, hlock⟩ => ⟨_, hlock⟩

/-- A run with the lock, as a run of the endpoint and one of the lock. -/
structure Follows (config : Config) (isServer : Bool) (k : Contended) : Prop where
  sound : k.Sound
  endpoint : k.endpoint.Reachable config isServer
  writers : ∃ labels, Machine.run Writers.step {} labels = some k.writers

omit [Quicvarint] [GoAppend] in
private theorem writers_new :
    Machine.run Writers.step {} [.acquire .control] = some
      { lock := { held := true }, calls := [.control], holders := [0], served := [0] } := rfl

theorem follows {config : Config} {isServer : Bool} (hvalid : config.Valid) {events : List Event}
    (hrun : Machine.run step (new config isServer) events = some k) :
    k.Follows config isServer := by
  refine Machine.trace_invariant (P := fun _ k => Follows config isServer k) ?_ ?_ events k hrun
  · exact ⟨sound_new config isServer, ⟨[], rfl⟩, _, writers_new⟩
  · rintro events k ev k' ⟨hsound, ⟨labels, hlabels⟩, calls, hcalls⟩ hstep
    obtain ⟨hnext, hwriters, hendpoint⟩ := step_sound hvalid hlabels hsound hstep
    refine ⟨hnext, ?_, ?_⟩
    · rcases hendpoint with hsame | ⟨a, ha⟩
      · exact ⟨labels, hsame ▸ hlabels⟩
      · exact ⟨labels ++ [a], Machine.run_concat hlabels ha⟩
    · rcases hwriters with hsame | ⟨a, ha⟩
      · exact ⟨calls, hsame ▸ hcalls⟩
      · exact ⟨calls ++ [a], Machine.run_concat hcalls ha⟩

/-- With nobody in the way, the lock goes to whom the endpoint hands it. -/
private theorem matched (h : k.Sound) (hasking : k.asking = [])
    (hnone : k.writers.lock.waiters = []) {a : Action} {e : Endpoint}
    (hstep : k.endpoint.step a = some e) :
    ∃ events k', Machine.run step k events = some k' ∧ k'.endpoint = e ∧ k'.asking = [] ∧
      k'.writers.lock.waiters = [] := by
  by_cases hlock : a.isLock = true
  · obtain ⟨job, rfl⟩ : ∃ job, a = .lock job := by
      cases a with
      | lock job => exact ⟨job, rfl⟩
      | _ => cases hlock
    obtain ⟨hfree, hjob⟩ := Option.ite_none_right_eq_some.mp hstep
    -- the last holder unlocks first, if it has not yet
    obtain ⟨events, mid, hevents, hmid, hsame, hasking', hidle⟩ : ∃ events mid,
        Machine.run step k events = some mid ∧ mid.Sound ∧ mid.endpoint = k.endpoint ∧
          mid.asking = [] ∧ mid.writers.lock.held = false := by
      cases hheld : k.writers.lock.held with
      | false => exact ⟨[], k, rfl, h, rfl, hasking, hheld⟩
      | true =>
          obtain ⟨mid, call, hunlock, hmid, -, hasking', hcase⟩ := unlock_spec h hfree hheld
          rcases hcase with ⟨-, -, hsame, hidle⟩ | ⟨w, hw, -⟩
          · refine ⟨[.unlock], mid, ?_, hmid, hsame, hasking'.trans hasking, hidle⟩
            simp [Machine.run, step, hfree, hunlock]
          · rw [hnone] at hw
            cases hw
    have hfit : (mid.endpoint.lock job).isSome = true := by rw [hsame, hjob]; rfl
    have hunasked : mid.unasked job = true := by
      have hempty := hmid.writers.free hidle
      cases job <;> simp [unasked, pending, hasking', hempty, hsame, hfree, Holder.loop?]
    have hasked := ask_sound hmid hfit hunasked
    rw [hasking', List.nil_append] at hasked
    obtain ⟨last, hacquire, -, -, hnobody, hcase⟩ :=
      acquire_spec (i := 0) hasked List.getElem?_cons_zero
    rcases hcase with ⟨hheld, -⟩ | ⟨-, hempty, hlast⟩
    · rw [hidle] at hheld
      cases hheld
    · refine ⟨events ++ [.ask job, .acquire 0], last, ?_, ?_, hnobody, hempty⟩
      · rw [Machine.run_append, hevents]
        simp [Machine.run, step, hfit, hunasked, hasking', hacquire]
      · rw [hsame] at hlast
        exact Option.some.inj (hlast.symm.trans hstep)
  · refine ⟨[.act a], { k with endpoint := e }, ?_, rfl, hasking, hnone⟩
    simp [Machine.run, step, hlock, hstep]

/-- The lock restricts nothing else. The endpoint with its lock, whoever asks for it and
in whatever order, reaches the states of the endpoint that hands `writeMu` to any
goroutine that can use it, and all of them. -/
theorem endpoint_reachable_iff (config : Option Config) (isServer : Bool) (e : Endpoint) :
    e.Reachable (Config.normalized config) isServer ↔
      ∃ events k, Machine.run step (new (Config.normalized config) isServer) events = some k ∧
        k.endpoint = e := by
  have hvalid := Config.normalized_valid config
  constructor
  · rintro ⟨labels, hrun⟩
    suffices hquiet : ∃ events k,
        Machine.run step (new (Config.normalized config) isServer) events = some k ∧
          k.endpoint = e ∧ k.asking = [] ∧ k.writers.lock.waiters = [] by
      obtain ⟨events, k, hevents, hsame, -⟩ := hquiet
      exact ⟨events, k, hevents, hsame⟩
    refine Machine.trace_invariant (P := fun _ e => ∃ events k,
      Machine.run step (new (Config.normalized config) isServer) events = some k ∧
        k.endpoint = e ∧ k.asking = [] ∧ k.writers.lock.waiters = []) ?_ ?_ labels e hrun
    · exact ⟨[], _, rfl, rfl, rfl, rfl⟩
    · rintro labels _ a e' ⟨events, k, hevents, rfl, hasking, hnone⟩ hstep
      obtain ⟨more, k', hmore, hrest⟩ :=
        matched (follows hvalid hevents).sound hasking hnone hstep
      refine ⟨events ++ more, k', ?_, hrest⟩
      rw [Machine.run_append, hevents]
      exact hmore
  · rintro ⟨events, k, hrun, rfl⟩
    exact (follows hvalid hrun).endpoint

/-- The lock is handed on without fail. Whoever uses the transport holds the lock, nobody
waits for a free lock, and no call of `acquire` fails. When the holder is done it can
always unlock: the lock is then free if nobody waits, and otherwise goes to a call whose
job the endpoint goes on with. No waiting call is of a better class, and none has to
precede it while fewer than `2 ^ 64` calls had to wait by their arrival. -/
theorem lock_handed_on (config : Option Config) (isServer : Bool) {events : List Event}
    (hrun : Machine.run step (new (Config.normalized config) isServer) events = some k) :
    (k.endpoint.writeMu ≠ .free → ∃ call, k.writers.holders = [call]) ∧
    (k.writers.holders = [] → ∀ call, ¬ k.writers.Waits call) ∧
    (∀ i < k.asking.length, ∃ k', k.step (.acquire i) = some k') ∧
    (k.writers.holders ≠ [] → k.endpoint.writeMu = .free → ∃ k', k.step .unlock = some k' ∧
      ((∀ call, ¬ k.writers.Waits call) ∧ k'.endpoint = k.endpoint ∧ k'.writers.holders = [] ∨
        ∃ call job, k.writers.Waits call ∧ k.jobs call = some job ∧
          k'.writers.holders = [call] ∧ k.endpoint.step (.lock job) = some k'.endpoint ∧
          (∀ i, k.writers.Waits i → ¬ k.writers.Outclasses i call) ∧
          (k.writers.queued < 2 ^ 64 →
            ∀ i, k.writers.Waits i → ¬ k.writers.Precedes i call))) := by
  obtain ⟨hsound, -, labels, hlabels⟩ := follows (Config.normalized_valid config) hrun
  have hholder := hsound.writers.holder
  have hnobody (hnone : k.writers.lock.waiters = []) (call : Nat) : ¬ k.writers.Waits call := by
    intro hwaits
    obtain ⟨w, hw, -⟩ := hsound.writers.waits_iff.mp hwaits
    rw [hnone] at hw
    cases hw
  refine ⟨fun hused => ?_, fun hidle => ?_, fun i hi => ?_, fun hbusy hfree => ?_⟩
  · rwa [if_pos (hsound.held hused)] at hholder
  · split_ifs at hholder with hheld
    · rw [hidle] at hholder
      obtain ⟨call, hcall⟩ := hholder
      cases hcall
    · exact hnobody (hsound.writers.free (by simpa using hheld))
  · obtain ⟨k', hacquire, -⟩ := acquire_spec hsound (List.getElem?_eq_getElem hi)
    exact ⟨k', hacquire⟩
  · have hheld : k.writers.lock.held = true := by
      by_contra hidle
      rw [if_neg hidle] at hholder
      exact hbusy hholder
    obtain ⟨k', holder, hunlock, hnext, hstep, -, hcase⟩ := unlock_spec hsound hfree hheld
    refine ⟨k', by rw [step, if_pos hfree, hunlock], hcase.imp ?_ ?_⟩
    · rintro ⟨hnone, -, hsame, hidle⟩
      have hholders := hnext.writers.holder
      rw [hidle] at hholders
      exact ⟨hnobody hnone, hsame, hholders⟩
    · rintro ⟨w, hw, job, hjob, hholders, hserved, hlock⟩
      refine ⟨w.ready, job, hsound.writers.waits_iff.mpr ⟨w, hw, rfl⟩, hjob, hholders, hlock,
        fun i hi => ?_, fun hfew i hi => ?_⟩
      · exact Writers.granted_best hsound.writers (Writers.placed_run hlabels) hstep hserved hi
      · exact Writers.granted_first hsound.writers (Writers.placed_run hlabels)
          (Writers.ranked_run hlabels hfew) hstep hserved hi

end Contended

/-- While the parameters are written, a stream writer asks for the lock, and then the
write loop does, to send a ping. -/
def congested : List Contended.Event :=
  [.act (.record ((Frame.transportParameters
      { initialMaxData := 4, initialMaxStreamDataUni := 3, initialMaxStreamsUni := 1
        }).append.getD []) 0),
    .act (.call (.tryOpen .uni)), .ask (.chunk 0 [7, 8]), .acquire 0, .act (.write true),
    .act (.call (.requestPing 0)), .act .wake, .ask .flush, .acquire 0]

/-- The write loop is served first. -/
theorem lock_handed_on_congested :
    ∃ k k' : Contended,
      Machine.run Contended.step (.new (Config.normalized none) false) congested = some k ∧
      k.step .unlock = some k' ∧ k'.endpoint.writeMu = .flush ∧ k'.writers.holders = [2] ∧
      k.writers.Waits 1 ∧ ¬ k.writers.Precedes 1 2 := by
  have hrun : (Machine.run Contended.step (.new (Config.normalized none) false) congested).map
      (fun k => decide (k.writers.holders = [0] ∧ k.endpoint.writeMu = .free ∧
        k.writers.calls.length = 3 ∧ k.writers.queued = 2 ∧ k.writers.served = [0] ∧
        (k.step .unlock).map (fun k' => (k'.endpoint.writeMu, k'.writers.holders)) =
          some (.flush, [2]))) = some true := by
    decide +kernel
  obtain ⟨k, hrun, hstate⟩ := Option.map_eq_some_iff.mp hrun
  obtain ⟨hholders, hfree, hcalls, hqueued, hserved, hlast⟩ := of_decide_eq_true hstate
  obtain ⟨k', hstep, hlast⟩ := Option.map_eq_some_iff.mp hlast
  obtain ⟨hflush, hnext⟩ := Prod.mk.inj hlast
  have hwaits : k.writers.Waits 1 := ⟨by rw [hcalls]; decide, by rw [hserved]; decide⟩
  obtain ⟨-, -, -, hunlock⟩ := Contended.lock_handed_on none false hrun
  obtain ⟨next, hnext', hcase⟩ := hunlock (by rw [hholders]; exact List.cons_ne_nil _ _) hfree
  obtain rfl : next = k' := Option.some.inj (hnext'.symm.trans hstep)
  rcases hcase with ⟨hnobody, -⟩ | ⟨call, job, -, -, hcall, -, -, hfirst⟩
  · exact absurd hwaits (hnobody 1)
  · obtain rfl : call = 2 := by simpa [hnext] using hcall.symm
    exact ⟨k, next, hrun, hstep, hflush, hnext, hwaits, hfirst (by rw [hqueued]; decide) 1 hwaits⟩

end Qmux
