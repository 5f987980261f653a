import Qmux.Agreement
import Qmux.Datagrams.Queue

/-!
Datagrams from end to end. What an application receives are datagrams that the other
application has sent, in order and each once. One is lost only if the application is
too far behind when it arrives.
-/

namespace Qmux

open Wire

/-- The datagram that a frame carries. -/
def Wire.Frame.datagram? : Frame → Option Bytes
  | .datagram f => some f.data
  | _ => none

namespace Endpoint

variable [Quicvarint] [GoAppend] {e e' : Endpoint}

/-- A read loop that goes on while the connection does was going on before. -/
private theorem step_reading {a : Action} (hstep : e.step a = some e')
    (hopen : e'.conn.closeErr = none) (hreading : e'.reader = .reading) :
    e.reader = .reading := by
  cases stepped hstep with
  | close hcloses =>
      cases hcloses with
      | violation => exact absurd hopen (e.conn.terminate_closed _)
      | _ => exact hreading
  | abort haborts =>
      cases haborts with
      | readLoop => cases hreading
      | _ => exact hreading
  | lock _ hlock =>
      obtain ⟨_, _, rfl, -⟩ := lock_frame hlock
      exact hreading
  | enter henter =>
      obtain ⟨_, _, _, rfl⟩ := enter_frame henter
      exact hreading
  | write hwrite =>
      obtain ⟨_, _, _, _, _, rfl, -⟩ := write_frame hwrite
      exact hreading
  | record hbefore => exact hbefore
  | readFailed hbefore => exact hbefore
  | _ => exact hreading

end Endpoint

namespace System

variable [Quicvarint] [GoAppend]

/-- What a step returns to the callers of `ReceiveDatagram` of each side. -/
def datagramsBy (σ : System) : Event → List (Bool × Bytes)
  | .act s a => ((σ.ends s).datagramsBy a).map (Prod.mk s)
  | .deliver _ _ => []

/-- The datagrams that one side has received. -/
def datagramsOf (s : Bool) (log : List (Bool × Bytes)) : List Bytes :=
  (log.filter (fun x => x.1 = s)).map Prod.snd

/-- The application of one side is never behind by more than the datagrams that can wait. -/
def Prompt (config : Bool → Config) (events : List Event) (s : Bool) : Prop :=
  ∀ before ∈ events.inits, ∀ x ∈ Machine.run (Machine.watch step datagramsBy) (new config, []) before,
    ((x.1.heard s).filterMap Parsed.datagram?).length ≤
      (datagramsOf s x.2).length + datagramQueueSize

instance (config : Bool → Config) (events : List Event) (s : Bool) :
    Decidable (Prompt config events s) :=
  inferInstanceAs (Decidable (∀ before ∈ events.inits,
    ∀ x ∈ Machine.run (Machine.watch step datagramsBy) (new config, []) before, _))

variable {config : Bool → Config} {σ σ' : System} {events : List Event} {ev : Event}
  {log : List (Bool × Bytes)} {s : Bool}

/-- The datagrams of one side. -/
private structure Delivered (config : Bool → Config) (events : List Event) (σ : System)
    (log : List (Bool × Bytes)) (s : Bool) : Prop where
  delivers : Mailbox.Delivers datagramQueueSize ((σ.heard s).filterMap Parsed.datagram?)
    (datagramsOf s log) (σ.ends s).conn.datagrams
  complete : (σ.ends s).conn.closeErr = none → (σ.ends s).reader = .reading →
    Prompt config events s →
    datagramsOf s log ++ (σ.ends s).conn.datagrams = (σ.heard s).filterMap Parsed.datagram?

omit [Quicvarint] [GoAppend] in
private theorem datagramsOf_append (first second : List (Bool × Bytes)) :
    datagramsOf s (first ++ second) = datagramsOf s first ++ datagramsOf s second := by
  unfold datagramsOf
  rw [List.filter_append, List.map_append]

omit [Quicvarint] [GoAppend] in
private theorem datagramsOf_mk (s i : Bool) (datagrams : List Bytes) :
    datagramsOf i (datagrams.map (Prod.mk s)) = if s = i then datagrams else [] := by
  unfold datagramsOf
  rw [List.filter_map, List.map_map]
  split_ifs with hsame
  · simp [Function.comp_def, hsame]
  · simp [Function.comp_def, hsame]

omit [GoAppend] in
/-- A step returns datagrams to the side that takes it. -/
private theorem datagramsBy_eq {a : Action} (hact : a.isRecord = false → ev = .act s a)
    (hdeliver : a.isRecord = true → ∃ now, ev = .deliver s now) :
    σ.datagramsBy ev = ((σ.ends s).datagramsBy a).map (Prod.mk s) := by
  cases hrecord : a.isRecord with
  | false => rw [hact hrecord]; rfl
  | true =>
      obtain ⟨now, rfl⟩ := hdeliver hrecord
      cases a with
      | record => rfl
      | _ => cases hrecord

private theorem Prompt.of_append (h : Prompt config (events ++ [ev]) s) :
    Prompt config events s := by
  intro before hbefore
  rw [List.mem_inits] at hbefore
  exact h before ((List.mem_inits _ _).mpr (hbefore.trans (List.prefix_append _ _)))

/-- The side that moves. -/
private theorem Delivered.step {a : Action} (h : Delivered config events σ log s)
    (hsize : (σ.ends s).conn.config.maxRecordSize.toNat ≤ maxVarint)
    (hmoved : σ.Moved ev s a σ')
    (hby : σ.datagramsBy ev = ((σ.ends s).datagramsBy a).map (Prod.mk s))
    (hrun : Machine.run (Machine.watch step datagramsBy) (new config, []) (events ++ [ev]) =
      some (σ', log ++ σ.datagramsBy ev)) :
    Delivered config (events ++ [ev]) σ' (log ++ σ.datagramsBy ev) s := by
  have hlog : datagramsOf s (log ++ σ.datagramsBy ev) =
      datagramsOf s log ++ (σ.ends s).datagramsBy a := by
    rw [datagramsOf_append, hby, datagramsOf_mk, if_pos rfl]
  have hbefore (hopen : (σ'.ends s).conn.closeErr = none)
      (hreading : (σ'.ends s).reader = .reading) (hprompt : Prompt config (events ++ [ev]) s) :
      datagramsOf s log ++ (σ.ends s).conn.datagrams =
        (σ.heard s).filterMap Parsed.datagram? := by
    refine h.complete ?_ (Endpoint.step_reading hmoved.step hopen hreading) hprompt.of_append
    rw [Endpoint.step_closeErr hsize hmoved.step] at hopen
    exact (Option.or_eq_none_iff.mp hopen).1
  by_cases hrecord : ∃ rec now, a = .record rec now
  · obtain ⟨rec, now, rfl⟩ := hrecord
    obtain ⟨-, hreceive⟩ := Option.ite_none_right_eq_some.mp hmoved.step
    obtain ⟨hpart, hall⟩ := Endpoint.accepted_frames hsize rec now
    have hqueue := (σ.ends s).receive_datagrams rec now
    rw [Option.some.inj hreceive] at hqueue hall
    have hheard := congrArg (List.filterMap Parsed.datagram?) hmoved.heard
    rw [List.filterMap_append] at hheard
    have hsame : datagramsOf s (log ++ σ.datagramsBy ev) = datagramsOf s log := by
      rw [hlog]
      exact List.append_nil _
    refine ⟨?_, fun hopen hreading hprompt => ?_⟩
    · rw [hheard, hsame, hqueue]
      exact h.delivers.offers (hpart.sublist.filterMap _)
    · have hold := hbefore hopen hreading hprompt
      -- what has arrived by now can wait, so it was not dropped
      have hroom := hprompt _ ((List.mem_inits _ _).mpr (List.prefix_refl _)) _ hrun
      rw [hheard, hsame, ← hold] at hroom ⊢
      rw [hqueue, hall hopen hreading]
      simp only [List.length_append] at hroom
      rw [Mailbox.foldl_offer (by simp only [Endpoint.heardBy] at hroom; omega)]
      exact (List.append_assoc _ _ _).symm
  · have hother (rec : Bytes) (now : Time) : a ≠ .record rec now :=
      fun hcase => hrecord ⟨rec, now, hcase⟩
    have hsplit := Endpoint.step_datagrams hmoved.step hother
    have hheard : σ'.heard s = σ.heard s := by
      rw [hmoved.heard]
      cases a with
      | record rec now => exact absurd rfl (hother rec now)
      | _ => exact List.append_nil _
    refine ⟨?_, fun hopen hreading hprompt => ?_⟩
    · rw [hheard, hlog]
      exact (hsplit ▸ h.delivers).receive
    · rw [hheard, hlog, List.append_assoc, ← hsplit]
      exact hbefore hopen hreading hprompt

/-- The other side. -/
private theorem Delivered.aside (h : Delivered config events σ log (!s)) {a : Action}
    (hmoved : σ.Moved ev s a σ') (hheard : σ'.heard (!s) = σ.heard (!s))
    (hby : σ.datagramsBy ev = ((σ.ends s).datagramsBy a).map (Prod.mk s)) :
    Delivered config (events ++ [ev]) σ' (log ++ σ.datagramsBy ev) (!s) := by
  have hlog : datagramsOf (!s) (log ++ σ.datagramsBy ev) = datagramsOf (!s) log := by
    rw [datagramsOf_append, hby, datagramsOf_mk, if_neg (by simp), List.append_nil]
  refine ⟨?_, fun hopen hreading hprompt => ?_⟩
  · rw [hheard, hlog, hmoved.other]
    exact h.delivers
  · rw [hmoved.other] at hopen hreading
    rw [hheard, hlog, hmoved.other]
    exact h.complete hopen hreading hprompt.of_append

private theorem datagrams_tracked (hvalid : ∀ s, (config s).Valid)
    (hrun : Machine.run (Machine.watch step datagramsBy) (new config, []) events = some (σ, log))
    (s : Bool) : Delivered config events σ log s := by
  refine (Machine.trace_invariant (P := fun events (x : System × List (Bool × Bytes)) =>
    Machine.run (Machine.watch step datagramsBy) (new config, []) events = some x ∧
      ∀ s, Delivered config events x.1 x.2 s) ⟨rfl, fun s => ?_⟩ ?_ events (σ, log) hrun).2 s
  · have hnothing : (new config).heard s = [] := by simp [heard, new]
    refine ⟨?_, fun _ _ _ => ?_⟩
    · rw [hnothing]
      exact ⟨.refl _, Nat.zero_le _⟩
    · rw [hnothing]
      rfl
  · rintro events ⟨σ, log⟩ ev ⟨σ', log'⟩ ⟨hprior, ih⟩ hwatch
    have hnext : Machine.run (Machine.watch step datagramsBy) (new config, []) (events ++ [ev]) =
        some (σ', log') := by
      simp [Machine.run_append, hprior, Machine.run, hwatch]
    refine ⟨hnext, fun i => ?_⟩
    obtain ⟨hstep, rfl⟩ := Machine.watch_step hwatch
    obtain ⟨s, a, hmoved, hact, hdeliver⟩ := moved_by hstep
    have hby := datagramsBy_eq (σ := σ) hact hdeliver
    obtain ⟨_, hreads⟩ := Machine.exists_watch readsBy [] (Machine.run_of_watch hprior)
    obtain ⟨_, hfollows⟩ := follows hreads i
    rcases Bool.eq_or_eq_not i s with rfl | rfl
    · exact (ih i).step (Endpoint.recordSize_le (hvalid i) (Machine.run_of_watch hfollows.run))
        hmoved hby hnext
    · exact (ih (!s)).aside hmoved (hfollows.heard_other hmoved) hby

/-- Datagrams arrive. Those that an application has received and those that wait for it are
datagrams that the other application has sent, in order and each once, and at most so many
wait. None of those that were read is lost as long as the connection is up and the application
was never behind by more than can wait. -/
theorem datagrams_delivered (config : Bool → Option Config) {events : List Event} {σ : System}
    {log : List (Bool × Bytes)}
    (hrun : Machine.run (Machine.watch step datagramsBy)
      (new (fun s => Config.normalized (config s)), []) events = some (σ, log))
    (hwithin : σ.Within) (s : Bool) :
    let arrived := datagramsOf s log ++ (σ.ends s).conn.datagrams
    arrived.Sublist ((σ.ends (!s)).sent.filterMap Frame.datagram?) ∧
      (σ.ends s).conn.datagrams.length ≤ datagramQueueSize ∧
      ((σ.ends s).conn.closeErr = none → (σ.ends s).reader = .reading →
        Prompt (fun s => Config.normalized (config s)) events s →
        arrived = (σ.heard s).filterMap Parsed.datagram?) := by
  have hvalid (s : Bool) := Config.normalized_valid (config s)
  have hdelivered := datagrams_tracked hvalid hrun s
  refine ⟨hdelivered.delivers.sublist.trans ?_, hdelivered.delivers.room, hdelivered.complete⟩
  obtain ⟨_, hreads⟩ := Machine.exists_watch readsBy [] (Machine.run_of_watch hrun)
  obtain ⟨_, hfollows⟩ := follows hreads (!s)
  obtain ⟨_, ⟨_, _, hother⟩, -⟩ := hfollows.traced hvalid
  have hheard : σ.heard s = _ := hother.frames_take (hvalid (!s)) (hwithin (!s)) (σ.read s)
  have hcarried (f : Frame) : f.arrived.datagram? = f.datagram? := by
    cases f <;> rfl
  rw [hheard, List.filterMap_map]
  simp only [Function.comp_def, hcarried]
  refine List.Sublist.filterMap _ ?_
  have hsplit := congrArg (List.flatMap Record.frames)
    (List.take_append_drop (σ.read s) (σ.ends (!s)).wire)
  rw [List.flatMap_append] at hsplit
  rw [Endpoint.sent, ← hsplit]
  exact List.sublist_append_left _ _

end System

/-- A client sends three datagrams, of which the server receives the first. -/
def telegrams : List System.Event :=
  [.act false (.write true), .act true (.write true), .deliver true 0, .deliver false 0,
    .act false (.lock (.datagram [1])), .act false (.enter 0), .act false (.write true),
    .act false (.lock (.datagram [2])), .act false (.enter 0), .act false (.write true),
    .deliver true 0, .act true (.call .receiveDatagram), .deliver true 0,
    .act false (.lock (.datagram [3])), .act false (.enter 0), .act false (.write true)]

theorem datagrams_delivered_telegrams :
    ∃ (σ : System) (log : List (Bool × Bytes)),
      Machine.run (Machine.watch System.step System.datagramsBy)
        (System.new (fun _ => Config.normalized (some { enableDatagrams := true })), []) telegrams =
          some (σ, log) ∧
      log = [(true, [1])] ∧ (σ.ends true).conn.datagrams = [[2]] ∧
      (System.datagramsOf true log ++ (σ.ends true).conn.datagrams).Sublist
        ((σ.ends false).sent.filterMap Frame.datagram?) ∧
      System.datagramsOf true log ++ (σ.ends true).conn.datagrams =
        (σ.heard true).filterMap Parsed.datagram? := by
  have hrun : (Machine.run (Machine.watch System.step System.datagramsBy)
      (System.new (fun _ => Config.normalized (some { enableDatagrams := true })), [])
      telegrams).map (fun x => decide (x.1.Within ∧ x.2 = [(true, [1])] ∧
        (x.1.ends true).conn.datagrams = [[2]] ∧ (x.1.ends true).conn.closeErr = none ∧
        (x.1.ends true).reader = .reading)) = some true := by
    decide +kernel
  have hprompt : System.Prompt
      (fun _ => Config.normalized (some { enableDatagrams := true })) telegrams true := by
    decide +kernel
  obtain ⟨⟨σ, log⟩, hrun, hstate⟩ := Option.map_eq_some_iff.mp hrun
  obtain ⟨hwithin, hlog, hqueue, hopen, hreading⟩ := of_decide_eq_true hstate
  obtain ⟨hsome, -, hall⟩ := System.datagrams_delivered
    (fun _ => some { enableDatagrams := true }) hrun hwithin true
  exact ⟨σ, log, hrun, hlog, hqueue, hsome, hall hopen hreading hprompt⟩

end Qmux
