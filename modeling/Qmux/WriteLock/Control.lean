import Qmux.Trace.Written
import Qmux.WriteLock.Contended

/-!
Control frames ahead of stream data. A stream writer holds the lock for one record.
While a call of `Lock` waits, the lock goes to no stream writer, so that of the stream
data only the record of the present holder can still come before what the call is to
write.
-/

namespace Qmux

open Wire

/-- The frame is a STREAM frame. -/
def Wire.Frame.isStream : Frame → Bool
  | .stream _ => true
  | _ => false

/-- The record carries stream data. -/
def Record.isStream [Quicvarint] (record : Record) : Bool :=
  record.frames.any Frame.isStream

/-- The job is to write stream data. -/
def Job.isStream : Job → Bool
  | .chunk _ _ | .closeSend _ => true
  | _ => false

/-- Who locks is a stream writer. -/
def LockUser.isStream : LockUser → Bool
  | .control => false
  | .stream _ _ _ => true

/-- The records of stream data that the holder may still write. -/
def Holder.streaming : Holder → Nat
  | .chunk _ _ | .closeSend _ => 1
  | .writing .stream records => records.length
  | _ => 0

namespace Endpoint

section Steps

variable [Quicvarint] {e e' : Endpoint}

/-- The records of stream data that were written, or that the holder may write. -/
def streamed (e : Endpoint) : Nat :=
  e.wire.countP Record.isStream + e.writeMu.streaming

private theorem lock_streaming {job : Job} (hlock : e.lock job = some e') :
    e'.wire = e.wire ∧ e'.writeMu.streaming = job.isStream.toNat := by
  cases job with
  | close =>
      simp only [lock] at hlock
      split at hlock
      · obtain rfl := Option.some.inj hlock
        exact ⟨rfl, rfl⟩
      · cases hlock
  | _ =>
      obtain ⟨-, ⟨⟩⟩ := Option.ite_none_right_eq_some.mp hlock
      exact ⟨rfl, rfl⟩

private theorem enter_streamed {now : Time} (henter : e.enter now = some e') :
    e'.wire = e.wire ∧ e'.writeMu.streaming ≤ e.writeMu.streaming := by
  unfold enter at henter
  split at henter
  · rename_i hmu
    rw [hmu]
    split at henter
    · obtain rfl := Option.some.inj henter
      exact ⟨rfl, Nat.zero_le _⟩
    · obtain rfl := Option.some.inj henter
      refine ⟨rfl, ?_⟩
      dsimp only
      split_ifs
      · exact Nat.zero_le _
      · exact Nat.le_refl _
  · rename_i hmu
    rw [hmu]
    split at henter
    · obtain rfl := Option.some.inj henter
      exact ⟨rfl, Nat.le_refl _⟩
    · obtain rfl := Option.some.inj henter
      exact ⟨rfl, Nat.zero_le _⟩
  · dsimp only at henter
    split at henter
    all_goals
      obtain rfl := Option.some.inj henter
      exact ⟨rfl, Nat.zero_le _⟩
  · split_ifs at henter
    all_goals
      obtain rfl := Option.some.inj henter
      exact ⟨rfl, Nat.zero_le _⟩
  · cases henter

/-- A record of stream data is written by a stream writer, which has one less to write
then. -/
private theorem write_streamed {ok : Bool} (hwrite : e.write ok = some e')
    (hpure : ∀ w records, e.writeMu = .writing w records → w ≠ .stream →
      ∀ frames ∈ records, frames.any Frame.isStream = false) : e'.streamed ≤ e.streamed := by
  unfold write at hwrite
  split at hwrite
  · rename_i w frames rest hmu
    have hone (bytes : Bytes) (hencoded : appendAll frames = some bytes) (mu : Holder)
        (hrest : mu.streaming ≤ (Holder.writing w rest).streaming) :
        (e.wire ++ [Record.mk frames bytes hencoded]).countP Record.isStream + mu.streaming ≤
          e.streamed := by
      rw [streamed, hmu, List.countP_append, List.countP_singleton]
      by_cases hstream : w = .stream
      · subst hstream
        simp only [Holder.streaming, List.length_cons] at hrest ⊢
        split_ifs <;> omega
      · have hnone := hpure w _ hmu hstream frames List.mem_cons_self
        have hzero : (Holder.writing w rest).streaming = 0 := by
          cases w with
          | stream => exact absurd rfl hstream
          | _ => rfl
        simp only [Record.isStream, hnone, Bool.false_eq_true, if_false]
        omega
    split at hwrite
    · cases hwrite
    · rename_i bytes hencoded
      split_ifs at hwrite
      · dsimp only at hwrite
        split at hwrite
        · obtain rfl := Option.some.inj hwrite
          cases w <;> exact hone bytes hencoded .free (Nat.zero_le _)
        · obtain rfl := Option.some.inj hwrite
          exact hone bytes hencoded _ (Nat.le_refl _)
      · obtain rfl := Option.some.inj hwrite
        cases w <;> exact Nat.add_le_add_left (Nat.zero_le _) _
  · cases hwrite

end Steps

variable [Quicvarint] [GoAppend] {e e' : Endpoint}

/-- Without a change of the holder, there is no more stream data to come. -/
private theorem step_streamed {a : Action} (hstep : e.step a = some e') (hother : a.isLock = false)
    (hpure : ∀ w records, e.writeMu = .writing w records → w ≠ .stream →
      ∀ frames ∈ records, frames.any Frame.isStream = false) : e'.streamed ≤ e.streamed := by
  cases stepped hstep with
  | lock => cases hother
  | enter henter =>
      obtain ⟨hwire, hle⟩ := enter_streamed henter
      rw [streamed, streamed, hwire]
      omega
  | write hwrite => exact write_streamed hwrite hpure
  | abort haborts =>
      cases haborts with
      | writer => exact Nat.add_le_add_left (Nat.zero_le _) _
      | _ => exact Nat.le_refl _
  | record =>
      obtain ⟨c, reader, hframe⟩ := receive_frame e _ _
      rw [hframe]
      exact Nat.le_refl _
  | _ => exact Nat.le_refl _

/-- Only stream writers write stream data. -/
private theorem pure_of_run {config : Config} {isServer : Bool} {labels : List Action}
    (hconfig : config.Valid) (hrun : Machine.run step (new config isServer) labels = some e) :
    ∀ w records, e.writeMu = .writing w records → w ≠ .stream →
      ∀ frames ∈ records, frames.any Frame.isStream = false := by
  have hall := (forall_records (Q := fun _ w frames => w ≠ .stream →
    frames.any Frame.isStream = false) hconfig (fun _ _ _ _ _ h => h) (fun _ => rfl) ?_ hrun).1
  · exact fun w records hmu hw frames hframes => hall w records hmu frames hframes hw
  · intro labels e w records hprior hhands frames hframes hw
    cases hhands with
    | chunk => exact absurd rfl hw
    | finish => exact absurd rfl hw
    | flush =>
        obtain ⟨_, _, t, htraced⟩ := traced hconfig hprior
        refine List.any_eq_false.mpr (fun f hf => ?_)
        have hsent := List.mem_flatten.mpr ⟨frames, hframes, hf⟩
        rw [packControl_flatten, List.nil_append] at hsent
        cases Conn.pending_of_takeControl hsent with
        | queued hqueued =>
            have hkind := htraced.past.history.control _ hqueued
            cases f with
            | stream f => cases hkind
            | _ => simp [Frame.isStream]
        | _ => simp [Frame.isStream]
    | datagram =>
        obtain rfl := List.mem_singleton.mp hframes
        rfl
    | close =>
        obtain rfl := List.mem_singleton.mp hframes
        rfl

/-- The holder writes one record of stream data at most. -/
private theorem streaming_le_one {config : Config} {isServer : Bool} {labels : List Action}
    (hconfig : config.Valid) (hrun : Machine.run step (new config isServer) labels = some e) :
    e.writeMu.streaming ≤ 1 := by
  induction labels using List.reverseRecOn generalizing e with
  | nil =>
      obtain rfl := Option.some.inj hrun
      exact Nat.zero_le 1
  | append_singleton labels a ih =>
      obtain ⟨mid, hprior, hstep⟩ := Machine.run_snoc hrun
      cases hlock : a.isLock with
      | false =>
          have hle := step_streamed hstep hlock (pure_of_run hconfig hprior)
          have hmore := (step_wire hstep).sublist.countP_le (p := Record.isStream)
          have hone := ih hprior
          unfold streamed at hle
          omega
      | true =>
          cases a with
          | lock job =>
              obtain ⟨-, hlock⟩ := Option.ite_none_right_eq_some.mp hstep
              rw [(lock_streaming hlock).2]
              exact Bool.toNat_le _
          | _ => cases hlock

end Endpoint

namespace Contended

variable [Quicvarint] [PriorityQueue] [GoAppend] {k k' : Contended}

/-- What a step does with the lock, and for whom. -/
inductive Stepped (k : Contended) : Event → Contended → Prop where
  | act {a : Action} {e : Endpoint} (hother : a.isLock = false)
      (he : k.endpoint.step a = some e) : Stepped k (.act a) { k with endpoint := e }
  | ask {job : Job} :
      Stepped k (.ask job) { k with asking := k.asking ++ [(job, user k.endpoint job)] }
  | acquire {i : Nat} {job : Job} {user : LockUser} {writers : Writers} {e : Endpoint}
      (hi : k.asking[i]? = some (job, user))
      (hwriters : k.writers.step (.acquire user) = some writers)
      (he : e = k.endpoint ∨
        k.writers.lock.held = false ∧ k.endpoint.step (.lock job) = some e) :
      Stepped k (.acquire i) ⟨e, writers, k.asking.eraseIdx i,
        Function.update k.jobs k.writers.calls.length (some job)⟩
  | unlock {call : Nat} {writers : Writers} {e : Endpoint}
      (hwriters : k.writers.step (.unlock call) = some writers)
      (he : e = k.endpoint ∨ ∃ next rest job, writers.holders = next :: rest ∧
        k.jobs next = some job ∧ k.endpoint.step (.lock job) = some e) :
      Stepped k .unlock { k with endpoint := e, writers := writers }

omit [PriorityQueue] in
private theorem granted_eq {call : Nat} (hgranted : k.granted call = some k') :
    ∃ job e, k.jobs call = some job ∧ k.endpoint.step (.lock job) = some e ∧
      k' = { k with endpoint := e } := by
  obtain ⟨job, hjob, hrest⟩ := Option.bind_eq_some_iff.mp hgranted
  obtain ⟨e, he, hlast⟩ := Option.bind_eq_some_iff.mp hrest
  exact ⟨job, e, hjob, he, (Option.some.inj hlast).symm⟩

private theorem stepped {ev : Event} (hstep : k.step ev = some k') : k.Stepped ev k' := by
  cases ev with
  | act a =>
      obtain ⟨hother, hact⟩ := Option.ite_none_left_eq_some.mp hstep
      obtain ⟨e, he, rfl⟩ := Option.map_eq_some_iff.mp hact
      exact .act (Bool.eq_false_iff.mpr hother) he
  | ask job =>
      obtain ⟨-, ⟨⟩⟩ := Option.ite_none_right_eq_some.mp hstep
      exact .ask
  | acquire i =>
      obtain ⟨⟨job, user⟩, hi, hrest⟩ := Option.bind_eq_some_iff.mp hstep
      obtain ⟨writers, hwriters, hlast⟩ := Option.bind_eq_some_iff.mp hrest
      dsimp only at hlast
      split_ifs at hlast with hheld
      · obtain rfl := Option.some.inj hlast
        exact .acquire hi hwriters (Or.inl rfl)
      · obtain ⟨job', e, hjob, he, rfl⟩ := granted_eq hlast
        obtain rfl : job = job' := by simpa using hjob
        exact .acquire hi hwriters (Or.inr ⟨by simpa using hheld, he⟩)
  | unlock =>
      obtain ⟨-, hunlock⟩ := Option.ite_none_right_eq_some.mp hstep
      unfold Contended.unlock at hunlock
      split at hunlock
      · cases hunlock
      · obtain ⟨writers, hwriters, hlast⟩ := Option.bind_eq_some_iff.mp hunlock
        dsimp only at hlast
        split at hlast
        · obtain rfl := Option.some.inj hlast
          exact .unlock hwriters (Or.inl rfl)
        · rename_i next rest hholders
          obtain ⟨job, e, hjob, he, rfl⟩ := granted_eq hlast
          exact .unlock hwriters (Or.inr ⟨next, rest, job, hholders, hjob, he⟩)

/-- Stream writers lock as such, and the others through `Lock`. -/
structure Named (k : Contended) : Prop where
  asking : ∀ x ∈ k.asking, x.2.isStream = x.1.isStream
  jobs : ∀ call job, k.jobs call = some job →
    ∃ user, k.writers.calls[call]? = some user ∧ user.isStream = job.isStream

omit [PriorityQueue] [GoAppend] in
private theorem user_isStream (e : Endpoint) (job : Job) :
    (user e job).isStream = job.isStream := by
  cases job <;> rfl

private theorem Named.step (h : k.Named) {ev : Event} (hstep : k.Stepped ev k') : k'.Named := by
  have hlater {writers : Writers} (hcalls : k.writers.calls <+: writers.calls) {call : Nat}
      {job : Job} (hjob : k.jobs call = some job) :
      ∃ user, writers.calls[call]? = some user ∧ user.isStream = job.isStream := by
    obtain ⟨user, huser, hkind⟩ := h.jobs call job hjob
    obtain ⟨more, hmore⟩ := hcalls
    refine ⟨user, ?_, hkind⟩
    rw [← hmore, List.getElem?_append_left (List.getElem?_eq_some_iff.mp huser).1]
    exact huser
  cases hstep with
  | act => exact ⟨h.asking, h.jobs⟩
  | ask =>
      refine ⟨fun x hx => ?_, h.jobs⟩
      rcases List.mem_append.mp hx with hx | hx
      · exact h.asking x hx
      · obtain rfl := List.mem_singleton.mp hx
        exact user_isStream _ _
  | @acquire i job user writers e hi hwriters =>
      refine ⟨fun x hx => h.asking x (List.mem_of_mem_eraseIdx hx), fun call job' hjob => ?_⟩
      have hcalls := Writers.calls_step hwriters
      by_cases hnew : call = k.writers.calls.length
      · subst hnew
        obtain rfl : job = job' := by simpa using hjob
        obtain ⟨_, hsame, -, hcalls', -⟩ := acquire_cases k.writers user
        obtain rfl := Option.some.inj (hwriters.symm.trans hsame)
        exact ⟨user, by simp [hcalls'], h.asking _ (List.mem_of_getElem? hi)⟩
      · exact hlater hcalls (by simpa [Function.update_of_ne hnew] using hjob)
  | unlock hwriters => exact ⟨h.asking, fun call job => hlater (Writers.calls_step hwriters)⟩

/-- While a call of `Lock` waits, no stream writer is handed the lock. -/
private theorem step_ahead {labels : List Action} {config : Config} {isServer : Bool} {ev : Event}
    {call : Nat} (hvalid : config.Valid)
    (hprior : Machine.run Endpoint.step (.new config isServer) labels = some k.endpoint)
    (hsound : k.Sound) (hplaced : k.writers.Placed) (hnamed : k.Named)
    (hwaits : k.writers.Waits call) (hcontrol : k.writers.calls[call]? = some .control)
    (hstep : k.Stepped ev k') : k'.endpoint.streamed ≤ k.endpoint.streamed := by
  have hlocked {job : Job} {e : Endpoint} (he : k.endpoint.step (.lock job) = some e)
      (hjob : job.isStream = false) : e.streamed ≤ k.endpoint.streamed := by
    obtain ⟨-, hlock⟩ := Option.ite_none_right_eq_some.mp he
    obtain ⟨hwire, hstreaming⟩ := Endpoint.lock_streaming hlock
    rw [Endpoint.streamed, Endpoint.streamed, hwire, hstreaming, hjob]
    exact Nat.add_le_add_left (Nat.zero_le _) _
  obtain ⟨w, hw, -⟩ := hsound.writers.waits_iff.mp hwaits
  have hne : k.writers.lock.waiters ≠ [] := List.ne_nil_of_mem hw
  cases hstep with
  | act hother he =>
      exact Endpoint.step_streamed he hother (Endpoint.pure_of_run hvalid hprior)
  | ask => exact Nat.le_refl _
  | acquire hi hwriters he =>
      rcases he with rfl | ⟨hidle, -⟩
      · exact Nat.le_refl _
      · exact absurd (hsound.writers.free hidle) hne
  | unlock hwriters he =>
      rcases he with rfl | ⟨next, rest, job, hholders, hjob, he⟩
      · exact Nat.le_refl _
      · obtain ⟨v, _, -, -, -, hafter⟩ := Writers.unlock_grants hsound.writers hne hwriters
        have hserved := congrArg Writers.served hafter
        rw [hafter] at hholders
        obtain ⟨rfl, -⟩ := List.cons.inj hholders
        have hfirst := Writers.granted_best hsound.writers hplaced hwriters hserved hwaits
        obtain ⟨user, huser, hkind⟩ := hnamed.jobs _ _ hjob
        refine hlocked he (hkind ▸ ?_)
        cases user with
        | control => rfl
        | stream => exact absurd ⟨_, _, hcontrol, huser, trivial⟩ hfirst

/-- No call is taken back, and none that was served. -/
private theorem Stepped.writers (hsound : k.Sound) {ev : Event} (hstep : k.Stepped ev k') :
    k.writers.calls <+: k'.writers.calls ∧ k.writers.served <+: k'.writers.served := by
  have hmore {a : Writers.Action} {writers : Writers}
      (hwriters : k.writers.step a = some writers) :
      k.writers.calls <+: writers.calls ∧ k.writers.served <+: writers.served := by
    refine ⟨Writers.calls_step hwriters, ?_⟩
    rcases Writers.served_step hsound.writers hwriters with hsame | ⟨granted, hgranted, -⟩
    · exact hsame ▸ List.prefix_rfl
    · exact hgranted ▸ List.prefix_append _ _
  cases hstep with
  | act => exact ⟨List.prefix_rfl, List.prefix_rfl⟩
  | ask => exact ⟨List.prefix_rfl, List.prefix_rfl⟩
  | acquire _ hwriters => exact hmore hwriters
  | unlock hwriters => exact hmore hwriters

private theorem Stepped.wire {ev : Event} (hstep : k.Stepped ev k') :
    k.endpoint.wire <+: k'.endpoint.wire := by
  cases hstep with
  | act _ he => exact Endpoint.step_wire he
  | ask => exact List.prefix_rfl
  | acquire _ _ he =>
      rcases he with rfl | ⟨-, he⟩
      · exact List.prefix_rfl
      · exact Endpoint.step_wire he
  | unlock _ he =>
      rcases he with rfl | ⟨_, _, _, -, -, he⟩
      · exact List.prefix_rfl
      · exact Endpoint.step_wire he

private theorem named {config : Config} {isServer : Bool} {events : List Event}
    (hrun : Machine.run step (new config isServer) events = some k) : k.Named :=
  Machine.invariant (P := Named) ⟨by simp [new], (fun _ _ hjob => by cases hjob)⟩
    (fun _ _ _ h hstep => h.step (stepped hstep)) ⟨events, hrun⟩

/-- Control frames go ahead of stream data. While a call of `Lock` waits, whoever else
asks for the lock, at most one record of stream data is written, and none unless the
present holder is a stream writer. -/
theorem control_ahead (config : Option Config) (isServer : Bool) {before after : List Event}
    (hbefore : Machine.run step (new (Config.normalized config) isServer) before = some k)
    (hafter : Machine.run step k after = some k') {call : Nat}
    (hwaits : k.writers.Waits call) (hcontrol : k.writers.calls[call]? = some .control)
    (hstill : call ∉ k'.writers.served) :
    (k'.endpoint.wire.drop k.endpoint.wire.length).countP Record.isStream ≤
        k.endpoint.writeMu.streaming ∧
      k.endpoint.writeMu.streaming ≤ 1 := by
  have hvalid := Config.normalized_valid config
  obtain ⟨labels, hlabels⟩ := (follows hvalid hbefore).endpoint
  refine ⟨?_, Endpoint.streaming_le_one hvalid hlabels⟩
  have hinvariant := Machine.trace_invariant (P := fun _ (m : Contended) =>
    (∃ events, Machine.run step (new (Config.normalized config) isServer) events = some m) ∧
      k.endpoint.wire <+: m.endpoint.wire ∧
      (call ∉ m.writers.served →
        m.writers.Waits call ∧ m.writers.calls[call]? = some .control ∧
          m.endpoint.streamed ≤ k.endpoint.streamed))
    ⟨⟨before, hbefore⟩, List.prefix_rfl, fun _ => ⟨hwaits, hcontrol, Nat.le_refl _⟩⟩ ?_ after k'
    hafter
  · obtain ⟨-, ⟨more, hmore⟩, hlast⟩ := hinvariant
    obtain ⟨-, -, hle⟩ := hlast hstill
    rw [Endpoint.streamed, Endpoint.streamed, ← hmore, List.countP_append] at hle
    rw [← hmore, List.drop_left]
    omega
  · rintro _ m ev m' ⟨⟨events, hevents⟩, hwire, hprior⟩ hstep
    obtain ⟨hsound, ⟨labels, hlabels⟩, calls, hcalls⟩ := follows hvalid hevents
    have hstepped := stepped hstep
    obtain ⟨⟨more, hmore⟩, hserved⟩ := hstepped.writers hsound
    refine ⟨⟨_, Machine.run_concat hevents hstep⟩, hwire.trans hstepped.wire, ?_⟩
    intro hstill
    obtain ⟨hwaits, hcontrol, hle⟩ := hprior (fun hin => hstill (hserved.subset hin))
    refine ⟨⟨?_, hstill⟩, ?_, Nat.le_trans ?_ hle⟩
    · rw [← hmore, List.length_append]
      exact Nat.lt_add_right _ hwaits.1
    · rw [← hmore, List.getElem?_append_left hwaits.1]
      exact hcontrol
    · exact step_ahead hvalid hlabels hsound (Writers.placed_run hcalls) (named hevents) hwaits
        hcontrol hstepped

end Contended

/-- A stream writer is in the middle of its record when the write loop asks for the lock;
another stream writer waits already. -/
def crowded : List Contended.Event :=
  [.act (.record ((Frame.transportParameters
      { initialMaxData := 4, initialMaxStreamDataUni := 3, initialMaxStreamsUni := 2
        }).append.getD []) 0),
    .act (.call (.tryOpen .uni)), .act (.call (.tryOpen .uni)), .act (.write true), .unlock,
    .ask (.chunk 0 [7, 8]), .acquire 0, .ask (.chunk 1 [9]), .acquire 0,
    .act (.call (.requestPing 0)), .act .wake, .ask .flush, .acquire 0]

/-- The record of the holder is the last of the stream data before the ping. -/
theorem control_ahead_crowded :
    ∃ k k' : Contended,
      Machine.run Contended.step (.new (Config.normalized none) false) crowded = some k ∧
      Machine.run Contended.step k [.act (.enter 0), .act (.write true)] = some k' ∧
      k.writers.Waits 3 ∧ k.writers.Waits 2 ∧
      (k'.endpoint.wire.drop k.endpoint.wire.length).countP Record.isStream = 1 ∧
      k.endpoint.writeMu.streaming = 1 := by
  have hrun : (Machine.run Contended.step (.new (Config.normalized none) false) crowded).map
      (fun k => decide (k.writers.calls.length = 4 ∧ k.writers.served = [0, 1] ∧
        k.writers.calls[3]? = some .control ∧
        (Machine.run Contended.step k [.act (.enter 0), .act (.write true)]).map (fun k' =>
          decide (k'.writers.served = [0, 1] ∧
            (k'.endpoint.wire.drop k.endpoint.wire.length).countP Record.isStream = 1)) =
          some true)) = some true := by
    decide +kernel
  obtain ⟨k, hrun, hstate⟩ := Option.map_eq_some_iff.mp hrun
  obtain ⟨hcalls, hserved, hcontrol, hlast⟩ := of_decide_eq_true hstate
  obtain ⟨k', hafter, hlast⟩ := Option.map_eq_some_iff.mp hlast
  obtain ⟨hserved', hone⟩ := of_decide_eq_true hlast
  have hwaits : k.writers.Waits 3 := ⟨by rw [hcalls]; decide, by rw [hserved]; decide⟩
  obtain ⟨hahead, hle⟩ := Contended.control_ahead none false hrun hafter hwaits hcontrol
    (by rw [hserved']; decide)
  refine ⟨k, k', hrun, hafter, hwaits, ⟨by rw [hcalls]; decide, by rw [hserved]; decide⟩, hone, ?_⟩
  omega

end Qmux
