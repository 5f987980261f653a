import Qmux.Dialogue.Accepts
import Qmux.RecordSizes

/-!
A client and a server, joined by a transport in each direction that loses
nothing and keeps the order of the records. A step is a step of one of them; one
that reads a record reads the next that the other has written. So a run of the
system is a run of each endpoint, and while the limits on streams can be read,
the two connections are in a dialogue.
-/

namespace Qmux

open Wire

section Records

variable [Quicvarint] [GoAppend] {config : Config} {isServer : Bool} {t₀ t : Traffic} {c₀ : Conn}
  {heard : List Parsed} {e : Endpoint}

/-- What was written can be read, but for limits on streams. -/
theorem Endpoint.Traced.acceptable (h : Traced config isServer t₀ c₀ heard t e)
    (hvalid : config.Valid) {f : Frame} (hf : f ∈ e.sent) :
    f.Acceptable ∨
      ∃ m dir, f = .maxStreams m ∧ m.max ≤ (e.conn.incoming dir).max := by
  obtain ⟨rest, hlog, -⟩ := h.wire
  have hhanded : f ∈ t.handed := hlog ▸ List.mem_append_left rest hf
  have hwarrants := Conn.History.warrants hvalid h.past.history f (List.mem_append_left _ hhanded)
  cases f with
  | maxStreams f => exact Or.inr ⟨f, _, rfl, hwarrants⟩
  | transportParameters p =>
      obtain rfl : p = e.conn.localParameters := hwarrants
      have hsame : e.conn.localParameters = (Conn.new config isServer).localParameters := by
        unfold Conn.localParameters
        rw [(Conn.History.config h.past.history).1]
        rfl
      exact Or.inl (hsame ▸ localParameters_acceptable hvalid isServer)
  | _ => exact Or.inl trivial

/-- What was written can be read, while the limits on streams can. -/
theorem Endpoint.Traced.parses (h : Traced config isServer t₀ c₀ heard t e)
    (hvalid : config.Valid) (hwithin : ∀ dir, (e.conn.incoming dir).max ≤ maxStreams)
    {record : Record} (hrecord : record ∈ e.wire) :
    Parses record.bytes (record.frames.map Frame.arrived) := by
  refine appendAll_parses record.encoded (fun f hf => ?_)
  rcases h.acceptable hvalid (List.mem_flatMap.mpr ⟨record, hrecord, hf⟩) with
    hacceptable | ⟨m, dir, rfl, hle⟩
  · exact hacceptable
  · exact hle.trans (hwithin dir)

/-- The frames of some of the records, as they are read. -/
theorem Endpoint.Traced.frames_take (h : Traced config isServer t₀ c₀ heard t e)
    (hvalid : config.Valid) (hwithin : ∀ dir, (e.conn.incoming dir).max ≤ maxStreams) (n : Nat) :
    (e.wire.take n).flatMap (fun record => frames record.bytes) =
      ((e.wire.take n).flatMap Record.frames).map Frame.arrived := by
  rw [List.map_flatMap]
  refine List.flatMap_congr (fun record hrecord => ?_)
  exact (h.parses hvalid hwithin (List.mem_of_mem_take hrecord)).frames_eq

/-- What was written was handed out, in order. -/
theorem Endpoint.Traced.take_handed (h : Traced config isServer t₀ c₀ heard t e) (n : Nat) :
    (e.wire.take n).flatMap Record.frames <+: t.handed := by
  obtain ⟨rest, hlog, -⟩ := h.wire
  rw [hlog, sent]
  refine List.IsPrefix.trans ?_ (List.prefix_append _ _)
  have hsplit := congrArg (List.flatMap Record.frames) (List.take_append_drop n e.wire)
  rw [List.flatMap_append] at hsplit
  exact ⟨_, hsplit⟩

end Records

/-- Two endpoints. Each goes by whether it is the server. -/
structure System [Quicvarint] where
  ends : Bool → Endpoint
  /-- How many records of the other side each side has read. -/
  read : Bool → Nat

/-- The action is to read a record. -/
def Action.isRecord : Action → Bool
  | .record _ _ => true
  | _ => false

namespace System

inductive Event where
  /-- One side does anything but read a record. -/
  | act (isServer : Bool) (a : Action)
  /-- One side reads the next record of the other. -/
  | deliver (isServer : Bool) (now : Time)
deriving DecidableEq, Repr

variable [Quicvarint]

def new (config : Bool → Config) : System where
  ends s := .new (config s) s
  read _ := 0

variable [GoAppend]

/-- One side takes a step. -/
def move (σ : System) (s : Bool) (a : Action) : Option System :=
  ((σ.ends s).step a).map (fun e => { σ with ends := Function.update σ.ends s e })

def step (σ : System) : Event → Option System
  | .act s a => if a.isRecord then none else σ.move s a
  | .deliver s now =>
      match (σ.ends (!s)).wire[σ.read s]? with
      | none => none
      | some record => (σ.move s (.record record.bytes now)).map (fun next =>
          { next with read := Function.update σ.read s (σ.read s + 1) })

/-- The frames of the other side that one side has read. -/
def heard (σ : System) (s : Bool) : List Parsed :=
  ((σ.ends (!s)).wire.take (σ.read s)).flatMap (fun record => frames record.bytes)

/-- What a step returns to the readers of each side. -/
def readsBy (σ : System) : Event → List (Bool × Ref × ReadResult)
  | .act s a => ((σ.ends s).readsBy a).map (Prod.mk s)
  | .deliver _ _ => []

/-- The reads of one side. -/
def readsOf (s : Bool) (log : List (Bool × Ref × ReadResult)) : List (Ref × ReadResult) :=
  (log.filter (fun x => x.1 = s)).map Prod.snd

/-- No limit on streams is beyond what can be declared. -/
def Within (σ : System) : Prop :=
  ∀ s dir, ((σ.ends s).conn.incoming dir).max ≤ maxStreams

instance (σ : System) : Decidable σ.Within :=
  decidable_of_iff
    (∀ s, ((σ.ends s).conn.incoming .bidi).max ≤ maxStreams ∧
      ((σ.ends s).conn.incoming .uni).max ≤ maxStreams)
    ⟨fun h s dir => match dir with
      | .bidi => (h s).1
      | .uni => (h s).2,
    fun h s => ⟨h s .bidi, h s .uni⟩⟩

/-- What a step does: one side takes it, and has then heard `heardBy a` more. -/
structure Moved (σ : System) (ev : Event) (s : Bool) (a : Action) (σ' : System) : Prop where
  step : (σ.ends s).step a = some (σ'.ends s)
  other : σ'.ends (!s) = σ.ends (!s)
  read : σ'.read s = σ.read s + if a.isRecord then 1 else 0
  read_other : σ'.read (!s) = σ.read (!s)
  reads : σ.readsBy ev = ((σ.ends s).readsBy a).map (Prod.mk s)
  record : ∀ rec now, a = .record rec now →
    ∃ record, (σ.ends (!s)).wire[σ.read s]? = some record ∧ record.bytes = rec
  heard : σ'.heard s = σ.heard s ++ Endpoint.heardBy a
  within : σ.read s ≤ (σ.ends (!s)).wire.length → σ'.read s ≤ (σ.ends (!s)).wire.length

variable {config : Bool → Config} {σ σ' : System} {ev : Event}
  {log : List (Bool × Ref × ReadResult)}

theorem move_eq {s : Bool} {a : Action} (hmove : σ.move s a = some σ') :
    (σ.ends s).step a = some (σ'.ends s) ∧ σ'.ends (!s) = σ.ends (!s) ∧ σ'.read = σ.read := by
  obtain ⟨e, hstep, rfl⟩ := Option.map_eq_some_iff.mp hmove
  exact ⟨by simp [hstep], by simp, rfl⟩

theorem act_moved {s : Bool} {a : Action} (hstep : σ.step (.act s a) = some σ') :
    a.isRecord = false ∧ σ.Moved (.act s a) s a σ' := by
  obtain ⟨hrecord, hmove⟩ := Option.ite_none_left_eq_some.mp hstep
  obtain ⟨hmove, hother, hread⟩ := move_eq hmove
  refine ⟨by simpa using hrecord, hmove, hother, by rw [hread, if_neg hrecord]; rfl,
    by rw [hread], rfl, ?_, ?_, by rw [hread]; exact id⟩
  · rintro rec now rfl
    exact absurd rfl hrecord
  · have hnone : Endpoint.heardBy a = [] := by
      cases a with
      | record rec now => exact absurd rfl hrecord
      | _ => rfl
    unfold heard
    rw [hother, hread, hnone, List.append_nil]

theorem deliver_moved {s : Bool} {now : Time} (hstep : σ.step (.deliver s now) = some σ') :
    ∃ rec, σ.Moved (.deliver s now) s (.record rec now) σ' := by
  simp only [step] at hstep
  split at hstep
  · cases hstep
  · rename_i record hrecord
    obtain ⟨next, hnext, rfl⟩ := Option.map_eq_some_iff.mp hstep
    obtain ⟨hmove, hother, hread⟩ := move_eq hnext
    obtain ⟨hlt, hget⟩ := List.getElem?_eq_some_iff.mp hrecord
    refine ⟨record.bytes, hmove, hother, by simp [Action.isRecord], by simp, rfl, ?_, ?_, ?_⟩
    · intro rec later hsame
      exact ⟨record, hrecord, (Action.record.inj hsame).1⟩
    · unfold heard
      simp only [hother, Function.update_self]
      rw [List.take_add_one, hrecord, List.flatMap_append]
      simp [Endpoint.heardBy]
    · simp only [Function.update_self]
      omega

/-- A step that reads no record is what its label says, and one that reads a record is a
delivery. -/
theorem moved_by (hstep : σ.step ev = some σ') :
    ∃ s a, σ.Moved ev s a σ' ∧ (a.isRecord = false → ev = .act s a) ∧
      (a.isRecord = true → ∃ now, ev = .deliver s now) := by
  cases ev with
  | act s a =>
      obtain ⟨hrecord, hmoved⟩ := act_moved hstep
      refine ⟨s, a, hmoved, fun _ => rfl, fun hcase => ?_⟩
      rw [hrecord] at hcase
      cases hcase
  | deliver s now =>
      obtain ⟨rec, hmoved⟩ := deliver_moved hstep
      refine ⟨s, .record rec now, hmoved, fun hcase => ?_, fun _ => ⟨now, rfl⟩⟩
      cases hcase

theorem moved (hstep : σ.step ev = some σ') : ∃ s a, σ.Moved ev s a σ' := by
  obtain ⟨s, a, hmoved, -⟩ := moved_by hstep
  exact ⟨s, a, hmoved⟩

/-- Every run of the system is a run of each of its sides, on the records that the
other has written. -/
structure Follows (config : Bool → Config) (log : List (Bool × Ref × ReadResult)) (σ : System)
    (s : Bool) (labels : List Action) : Prop where
  run : Machine.run (Machine.watch Endpoint.step Endpoint.readsBy) (.new (config s) s, []) labels =
    some (σ.ends s, readsOf s log)
  heard : labels.flatMap Endpoint.heardBy = σ.heard s
  within : σ.read s ≤ (σ.ends (!s)).wire.length

omit [Quicvarint] [GoAppend] in
theorem readsOf_append (s : Bool) (first second : List (Bool × Ref × ReadResult)) :
    readsOf s (first ++ second) = readsOf s first ++ readsOf s second := by
  unfold readsOf
  rw [List.filter_append, List.map_append]

omit [Quicvarint] [GoAppend] in
private theorem readsOf_mk (s i : Bool) (reads : List (Ref × ReadResult)) :
    readsOf i (reads.map (Prod.mk s)) = if s = i then reads else [] := by
  unfold readsOf
  rw [List.filter_map, List.map_map]
  split_ifs with hsame
  · simp [Function.comp_def, hsame]
  · simp [Function.comp_def, hsame]

/-- The side that moves. -/
theorem Follows.step {s : Bool} {a : Action} {labels : List Action}
    (h : Follows config log σ s labels) (hmoved : σ.Moved ev s a σ') :
    Follows config (log ++ σ.readsBy ev) σ' s (labels ++ [a]) where
  run := by
    rw [Machine.run_append, h.run, readsOf_append, hmoved.reads, readsOf_mk, if_pos rfl]
    simp [Machine.run, Machine.watch, hmoved.step]
  heard := by
    rw [List.flatMap_append, h.heard, hmoved.heard]
    simp
  within := hmoved.other ▸ hmoved.within h.within

/-- The other side hears nothing new. -/
theorem Follows.heard_other {s : Bool} {a : Action} {labels : List Action}
    (h : Follows config log σ (!s) labels) (hmoved : σ.Moved ev s a σ') :
    σ'.heard (!s) = σ.heard (!s) := by
  have hwithin := h.within
  rw [Bool.not_not] at hwithin
  have htake := List.prefix_iff_eq_take.mp (Endpoint.step_wire hmoved.step)
  rw [System.heard, System.heard, Bool.not_not, hmoved.read_other, htake, List.take_take,
    Nat.min_eq_left hwithin]

/-- The other side. -/
theorem Follows.aside {s : Bool} {a : Action} {labels : List Action}
    (h : Follows config log σ (!s) labels) (hmoved : σ.Moved ev s a σ') :
    Follows config (log ++ σ.readsBy ev) σ' (!s) labels := by
  have hwithin := h.within
  have hwire := Endpoint.step_wire hmoved.step
  rw [Bool.not_not] at hwithin
  refine ⟨?_, ?_, ?_⟩
  · rw [h.run, readsOf_append, hmoved.reads, readsOf_mk, if_neg (by simp), List.append_nil,
      hmoved.other]
  · rw [h.heard, h.heard_other hmoved]
  · rw [Bool.not_not, hmoved.read_other]
    exact hwithin.trans hwire.length_le

/-- Both sides follow their own runs, which are made of what happens at the side. -/
theorem follows_by {events : List Event}
    (hrun : Machine.run (Machine.watch step readsBy) (new config, []) events = some (σ, log))
    (i : Bool) : ∃ labels, Follows config log σ i labels ∧
      ∀ a ∈ labels, a.isRecord = false → .act i a ∈ events := by
  refine Machine.trace_invariant
    (P := fun events (x : System × List (Bool × Ref × ReadResult)) =>
      ∀ i, ∃ labels, Follows config x.2 x.1 i labels ∧
        ∀ a ∈ labels, a.isRecord = false → .act i a ∈ events) ?_ ?_ events (σ, log) hrun i
  · intro i
    exact ⟨[], ⟨rfl, by simp [heard, new], Nat.zero_le _⟩, by simp⟩
  · rintro events ⟨σ, log⟩ ev ⟨σ', log'⟩ ih hwatch i
    obtain ⟨hstep, rfl⟩ := Machine.watch_step hwatch
    obtain ⟨s, a, hmoved, hev, -⟩ := moved_by hstep
    obtain ⟨labels, hfollows, hlabels⟩ := ih i
    have hold (b : Action) (hb : b ∈ labels) (hother : b.isRecord = false) :
        .act i b ∈ events ++ [ev] :=
      List.mem_append_left _ (hlabels b hb hother)
    rcases Bool.eq_or_eq_not i s with rfl | rfl
    · refine ⟨labels ++ [a], hfollows.step hmoved, fun b hb hother => ?_⟩
      rcases List.mem_append.mp hb with hb | hb
      · exact hold b hb hother
      · obtain rfl := List.mem_singleton.mp hb
        rw [hev hother]
        exact List.mem_append_right _ (List.mem_singleton.mpr rfl)
    · exact ⟨labels, hfollows.aside hmoved, hold⟩

/-- Both sides follow their own runs. -/
theorem follows {events : List Event}
    (hrun : Machine.run (Machine.watch step readsBy) (new config, []) events = some (σ, log))
    (i : Bool) : ∃ labels, Follows config log σ i labels := by
  obtain ⟨labels, hfollows, -⟩ := follows_by hrun i
  exact ⟨labels, hfollows⟩

/-- A side with its traffic. -/
def Traced (config : Bool → Config) (σ : System) (s : Bool) (t : Traffic) : Prop :=
  ∃ t₀ c₀, Endpoint.Traced (config s) s t₀ c₀ (σ.heard s) t (σ.ends s)

theorem Follows.traced {s : Bool} {labels : List Action} (hvalid : ∀ s, (config s).Valid)
    (h : Follows config log σ s labels) :
    ∃ t, Traced config σ s t ∧ t.reads = readsOf s log := by
  obtain ⟨t₀, c₀, t, htraced, hlog⟩ := Endpoint.traced_watch Traffic.reads (fun _ _ => rfl)
    (fun _ _ _ hreads _ _ => hreads) (hvalid s) h.run
  rw [h.heard] at htraced
  exact ⟨t, ⟨t₀, c₀, htraced⟩, hlog⟩

/-- The two connections are in a dialogue. -/
theorem dialogue {s : Bool} {t u : Traffic} (hvalid : ∀ s, (config s).Valid)
    (hwithin : σ.Within) (hside : Traced config σ s t) (hother : Traced config σ (!s) u) :
    Conn.Dialogue (config s) (config (!s)) s (σ.heard s) (σ.heard (!s)) t (σ.ends s).conn u
      (σ.ends (!s)).conn := by
  obtain ⟨_, _, hside⟩ := hside
  obtain ⟨_, _, hother⟩ := hother
  refine ⟨hvalid s, hvalid (!s), hside.past.history, hother.past.history, fun f hf => ?_,
    hother.took.subset, ?_⟩
  · rw [heard, Bool.not_not, hside.frames_take (hvalid s) (hwithin s)] at hf
    obtain ⟨g, hg, rfl⟩ := List.mem_map.mp hf
    exact ⟨g, (hside.take_handed _).subset hg, rfl⟩
  · refine hside.took.trans ?_
    rw [heard, hother.frames_take (hvalid (!s)) (hwithin (!s))]
    exact (hother.take_handed _).map Frame.arrived

end System

end Qmux
