import Qmux.System.Basic
import Qmux.Transport.Link

/-!
A client and a server over their transports. Each writes its records into the
link that the other reads from: with a Size field in front of them on a byte
stream, one to a message otherwise. The read loop takes what `readRecord` makes of
the bytes that have arrived. The client and the server cannot tell this from a
transport that hands over the records themselves.
-/

namespace Qmux

open ByteStream Wire

/-- Two endpoints and the links between them. -/
structure Linked [Quicvarint] where
  ends : Bool → Endpoint
  /-- What each side reads from. -/
  links : Bool → Link
  /-- How many records each side has read. -/
  read : Bool → Nat

namespace Linked

inductive Event where
  /-- One side does anything but read a record. -/
  | act (isServer : Bool) (a : Action)
  /-- Something arrives at one side. -/
  | arrive (isServer : Bool) (n : Nat)
  /-- A call of `readRecord` returns at one side. -/
  | deliver (isServer : Bool) (now : Time)
deriving DecidableEq, Repr

variable [Quicvarint]

def new (config : Bool → Config) (carrier : Carrier) : Linked where
  ends s := .new (config s) s
  links s := .new carrier (config s).maxRecordSize.toNat
  read _ := 0

/-- The records that were just written go into the link. What the headroom of the
write buffer holds is not sent. -/
def writeRecords (l : Link) (records : List Record) : Option Link :=
  records.foldlM (fun l record => l.writeRecord (List.replicate recordHeadroom 0 ++ record.bytes)) l

variable [GoAppend]

def act (τ : Linked) (s : Bool) (a : Action) : Option Linked := do
  let e ← (τ.ends s).step a
  let l ← writeRecords (τ.links (!s)) (e.wire.drop (τ.ends s).wire.length)
  return { τ with ends := Function.update τ.ends s e, links := Function.update τ.links (!s) l }

/-- The read loop goes on with what `readRecord` returns. -/
def received (e : Endpoint) (now : Time) : Except ReadError Bytes → Option Endpoint
  | .ok rec => e.step (.record rec now)
  | .error (.wire err) =>
      if e.reader = .reading then some { e with reader := .violation err } else none
  | .error (.transport _) => none

def step (τ : Linked) : Event → Option Linked
  | .act s a => if a.isRecord then none else τ.act s a
  | .arrive s n => some { τ with links := Function.update τ.links s ((τ.links s).arrive n) }
  | .deliver s now =>
      let (result, l) := (τ.links s).readRecord
      (received (τ.ends s) now result).map (fun e =>
        { ends := Function.update τ.ends s e
          links := Function.update τ.links s l
          read := Function.update τ.read s (τ.read s + 1) })

/-- The two endpoints, without the bytes between them. -/
def system (τ : Linked) : System :=
  ⟨τ.ends, τ.read⟩

omit [Quicvarint] [GoAppend] in
/-- What of an event is more than the arrival of bytes. -/
def Event.seen : Event → Option System.Event
  | .act s a => some (.act s a)
  | .arrive _ _ => none
  | .deliver s now => some (.deliver s now)

/-- Each link conveys the records that were written into it and not read yet. -/
def Sound (config : Bool → Config) (τ : Linked) : Prop :=
  ∀ s, (τ.links s).Conveys (config s).maxRecordSize.toNat
    (((τ.ends (!s)).wire.drop (τ.read s)).map Record.bytes)

variable {config : Bool → Config} {τ τ' : Linked} {σ : System}

omit [GoAppend] in
theorem writeRecords_conveys {limit : Nat} {l : Link} {recs : List Bytes} {records : List Record}
    (h : l.Conveys limit recs) (hmax : ∀ record ∈ records, record.bytes.length ≤ maxVarint) :
    ∃ next, writeRecords l records = some next ∧
      next.Conveys limit (recs ++ records.map Record.bytes) := by
  induction records generalizing l recs with
  | nil => exact ⟨l, rfl, by simpa using h⟩
  | cons record records ih =>
      obtain ⟨hone, hrest⟩ := List.forall_mem_cons.mp hmax
      obtain ⟨mid, hwrite, hmid⟩ := h.writeRecord (List.length_replicate (a := (0 : UInt8))) hone
      obtain ⟨next, hwrites, hnext⟩ := ih hmid hrest
      refine ⟨next, ?_, by simpa using hnext⟩
      rw [writeRecords, List.foldlM_cons, hwrite]
      exact hwrites

/-- What a run of the two endpoints leaves at one side. -/
private theorem run_facts (hvalid : ∀ s, (config s).Valid) {events : List System.Event}
    (hrun : Machine.run System.step (.new config) events = some σ) (s : Bool) :
    (σ.ends s).conn.config = config s ∧
      (∀ record ∈ (σ.ends s).wire, record.bytes.length ≤ maxVarint) ∧
      σ.read (!s) ≤ (σ.ends s).wire.length := by
  obtain ⟨log, hwatch⟩ := Machine.exists_watch System.readsBy [] hrun
  obtain ⟨labels, hfollows⟩ := System.follows hwatch s
  obtain ⟨_, hother⟩ := System.follows hwatch (!s)
  have hlabels := Machine.run_of_watch hfollows.run
  obtain ⟨_, _, t, htraced⟩ := Endpoint.traced (hvalid s) hlabels
  refine ⟨htraced.past.history.config.1, fun record hrecord => ?_, ?_⟩
  · have hpeer := (htraced.past.history.outbox (hvalid s)).peer .maxRecordSize
    rcases Endpoint.wire_sized (hvalid s) hlabels record hrecord with hdefault | ⟨-, -, hlimit⟩
    · exact hdefault.trans (by decide)
    · exact hlimit.trans ((Nat.min_le_right _ _).trans hpeer)
  · have hwithin := hother.within
    rwa [Bool.not_not] at hwithin

/-- A step of one side is taken with the links as without them. -/
private theorem act_spec (h : τ.Sound config) {s : Bool} {a : Action} {σ' : System}
    (hread : τ.read (!s) ≤ (τ.ends s).wire.length) (hmove : τ.system.move s a = some σ')
    (hmax : ∀ record ∈ (σ'.ends s).wire, record.bytes.length ≤ maxVarint) :
    ∃ τ', τ.act s a = some τ' ∧ τ'.system = σ' ∧ τ'.Sound config := by
  obtain ⟨e, hstep, rfl⟩ := Option.map_eq_some_iff.mp hmove
  simp only [system] at hstep
  simp only [Function.update_self] at hmax
  obtain ⟨more, hmore⟩ := Endpoint.step_wire hstep
  have hlink := h (!s)
  rw [Bool.not_not] at hlink
  have hshort : ∀ record ∈ more, record.bytes.length ≤ maxVarint :=
    fun record hrecord => hmax record (hmore ▸ List.mem_append_right _ hrecord)
  obtain ⟨l, hwrites, hl⟩ := writeRecords_conveys hlink hshort
  refine ⟨{ τ with
    ends := Function.update τ.ends s e
    links := Function.update τ.links (!s) l }, ?_, rfl, fun i => ?_⟩
  · simp [act, hstep, ← hmore, hwrites]
  · rcases Bool.eq_or_eq_not i s with rfl | rfl
    · simpa using h i
    · simp only [Function.update_self, Bool.not_not]
      rw [← hmore, List.drop_append_of_le_length hread, List.map_append]
      exact hl

/-- What is too large is reported to the read loop as the endpoint reports it. -/
private theorem received_outcome {e : Endpoint} {limit : Nat}
    (hlimit : e.conn.config.maxRecordSize.toNat = limit) (rec : Bytes) (now : Time) :
    received e now (outcome limit rec) = e.step (.record rec now) := by
  unfold outcome
  split_ifs with hlarge
  · simp [received, Endpoint.step, Endpoint.receive, hlimit, hlarge]
  · rfl

/-- A record that `readRecord` returns is the next that was written. -/
private theorem deliver_spec (h : τ.Sound config) {s : Bool}
    (hconfig : (τ.ends s).conn.config = config s) {rec : Bytes} {rest : List Bytes} {next : Link}
    (hrecs : ((τ.ends (!s)).wire.drop (τ.read s)).map Record.bytes = rec :: rest)
    (hread : (τ.links s).readRecord = (outcome (config s).maxRecordSize.toNat rec, next))
    (hnext : next.Conveys (config s).maxRecordSize.toNat rest) (now : Time) :
    (τ.step (.deliver s now)).map system = τ.system.step (.deliver s now) ∧
      ∀ τ', τ.step (.deliver s now) = some τ' → τ'.Sound config := by
  obtain ⟨record, records, hdrop, rfl, rfl⟩ := List.map_eq_cons_iff.mp hrecs
  have hrecord : (τ.ends (!s)).wire[τ.read s]? = some record := by
    rw [← List.head?_drop, hdrop, List.head?_cons]
  have hreceived : received (τ.ends s) now (outcome (config s).maxRecordSize.toNat record.bytes) =
      (τ.ends s).step (.record record.bytes now) :=
    received_outcome (by rw [hconfig]) _ _
  have hdeliver : τ.step (.deliver s now) = ((τ.ends s).step (.record record.bytes now)).map
      (fun e => ⟨Function.update τ.ends s e, Function.update τ.links s next,
        Function.update τ.read s (τ.read s + 1)⟩) := by
    simp only [step, hread, hreceived]
  constructor
  · simp only [hdeliver, System.step, system, hrecord, System.move, Option.map_map]
    rfl
  · intro τ' hstep i
    rw [hdeliver] at hstep
    obtain ⟨e, he, rfl⟩ := Option.map_eq_some_iff.mp hstep
    rcases Bool.eq_or_eq_not i s with rfl | rfl
    · have hafter : (τ.ends (!i)).wire.drop (τ.read i + 1) = records := by
        rw [← List.drop_drop, hdrop, List.drop_one, List.tail_cons]
      simpa [hafter] using hnext
    · have hwire : (τ.ends s).wire = e.wire := by
        obtain ⟨-, hreceive⟩ := Option.ite_none_right_eq_some.mp he
        obtain ⟨c, reader, hframe⟩ := Endpoint.receive_frame (τ.ends s) record.bytes now
        rw [← Option.some.inj hreceive, hframe]
      have hother := h (!s)
      simp only [Bool.not_not] at hother
      simpa [hwire] using hother

private theorem act_system {s : Bool} {a : Action} (hact : τ.act s a = some τ') :
    τ.system.move s a = some τ'.system := by
  obtain ⟨e, hstep, hrest⟩ := Option.bind_eq_some_iff.mp hact
  obtain ⟨l, -, hlast⟩ := Option.bind_eq_some_iff.mp hrest
  obtain rfl := Option.some.inj hlast
  simp [System.move, system, hstep]

/-- The sides of a sound system, as the run so far has left them. -/
private structure Follows (config : Bool → Config) (events : List System.Event) (τ : Linked) :
    Prop where
  run : Machine.run System.step (.new config) events = some τ.system
  sound : τ.Sound config

/-- What happens over the links happens without them. -/
private theorem Follows.step {events : List System.Event} {ev : Event}
    (hvalid : ∀ s, (config s).Valid) (h : Follows config events τ) (hstep : τ.step ev = some τ') :
    Follows config (events ++ ev.seen.toList) τ' := by
  cases ev with
  | act s a =>
      obtain ⟨hrecord, hact⟩ := Option.ite_none_left_eq_some.mp hstep
      have hmove := act_system hact
      have hrun : Machine.run System.step (.new config) (events ++ [.act s a]) =
          some τ'.system := by
        rw [Machine.run_append, h.run]
        simp [Machine.run, System.step, hrecord, hmove]
      obtain ⟨-, -, hread⟩ := run_facts hvalid h.run s
      obtain ⟨-, hmax, -⟩ := run_facts hvalid hrun s
      obtain ⟨next, hnext, -, hsound⟩ := act_spec h.sound hread hmove hmax
      obtain rfl := Option.some.inj (hact.symm.trans hnext)
      exact ⟨hrun, hsound⟩
  | arrive s n =>
      obtain rfl := Option.some.inj hstep
      refine ⟨(List.append_nil events).symm ▸ h.run, fun i => ?_⟩
      rcases Bool.eq_or_eq_not i s with rfl | rfl
      · simpa using (h.sound i).arrive n
      · simpa using h.sound (!s)
  | deliver s now =>
      obtain ⟨hconfig, -, -⟩ := run_facts hvalid h.run s
      rcases (h.sound s).readRecord with ⟨rec, rest, next, hrecs, hread, hnext⟩ | ⟨⟨cause, hblocks⟩, -⟩
      · obtain ⟨hsystem, hsound⟩ := deliver_spec h.sound hconfig hrecs hread hnext now
        refine ⟨?_, hsound τ' hstep⟩
        rw [hstep] at hsystem
        rw [Machine.run_append, h.run]
        simp [Machine.run, Event.seen, ← hsystem]
      · simp only [Linked.step, hblocks] at hstep
        cases hstep

/-- What happens without the links happens over them, once enough has arrived. -/
private theorem Follows.matched {events : List System.Event} {ev : System.Event} {σ' : System}
    (hvalid : ∀ s, (config s).Valid) (h : Follows config events τ)
    (hstep : τ.system.step ev = some σ') :
    ∃ labels τ', Machine.run Linked.step τ labels = some τ' ∧ τ'.system = σ' ∧
      labels.filterMap Event.seen = [ev] := by
  cases ev with
  | act s a =>
      have hrun : Machine.run System.step (.new config) (events ++ [.act s a]) = some σ' := by
        rw [Machine.run_append, h.run]
        simp [Machine.run, hstep]
      obtain ⟨hrecord, hmove⟩ := Option.ite_none_left_eq_some.mp hstep
      obtain ⟨-, -, hread⟩ := run_facts hvalid h.run s
      obtain ⟨-, hmax, -⟩ := run_facts hvalid hrun s
      obtain ⟨next, hnext, hsystem, -⟩ := act_spec h.sound hread hmove hmax
      refine ⟨[.act s a], next, ?_, hsystem, rfl⟩
      simp [Machine.run, Linked.step, hrecord, hnext]
  | deliver s now =>
      obtain ⟨hconfig, -, -⟩ := run_facts hvalid h.run s
      obtain ⟨n, harrived⟩ := (τ.links s).exists_arrived
      have hmid : τ.step (.arrive s n) =
          some { τ with links := Function.update τ.links s ((τ.links s).arrive n) } := rfl
      have hafter := h.step hvalid hmid
      rcases (hafter.sound s).readRecord with ⟨rec, rest, next, hrecs, hread, hnext⟩ | ⟨-, hnone⟩
      · obtain ⟨hsystem, -⟩ := deliver_spec hafter.sound hconfig hrecs hread hnext now
        obtain ⟨τ', hdeliver, hsame⟩ := Option.map_eq_some_iff.mp (hsystem.trans hstep)
        refine ⟨[.arrive s n, .deliver s now], τ', ?_, hsame, rfl⟩
        simp [Machine.run, hmid, hdeliver]
      · have hempty := hnone (by simpa using harrived)
        have hnothing : (τ.ends (!s)).wire[τ.read s]? = none := by
          rw [← List.head?_drop, List.map_eq_nil_iff.mp hempty, List.head?_nil]
        simp [System.step, system, hnothing] at hstep

private theorem follows {carrier : Carrier} (hvalid : ∀ s, (config s).Valid) {events : List Event}
    (hrun : Machine.run step (new config carrier) events = some τ) :
    Follows config (events.filterMap Event.seen) τ := by
  refine Machine.trace_invariant (P := fun events τ =>
    Follows config (events.filterMap Event.seen) τ) ?_ ?_ events τ hrun
  · exact ⟨rfl, fun s => Link.new_conveys carrier _⟩
  · intro events τ ev τ' ih hstep
    have hnext := ih.step hvalid hstep
    rw [List.filterMap_append]
    cases ev <;> exact hnext

/-- The transports are transparent. Over a byte stream that arrives in any pieces, or
over messages, two endpoints do exactly what they do when the records themselves are
handed over: the runs over the links are, but for the arrival of bytes, the runs
without them. -/
theorem transports_transparent (config : Bool → Option Config) (carrier : Carrier)
    (events : List System.Event) (σ : System) :
    Machine.run System.step (.new (fun s => Config.normalized (config s))) events = some σ ↔
      ∃ (arrivals : List Event) (τ : Linked),
        Machine.run step (new (fun s => Config.normalized (config s)) carrier) arrivals = some τ ∧
        arrivals.filterMap Event.seen = events ∧ τ.system = σ := by
  have hvalid (s : Bool) := Config.normalized_valid (config s)
  constructor
  · intro hrun
    -- over the events, each matched by what has to arrive for it
    refine Machine.trace_invariant (P := fun events (σ : System) =>
      ∃ (arrivals : List Event) (τ : Linked),
        Machine.run step (new (fun s => Config.normalized (config s)) carrier) arrivals = some τ ∧
        arrivals.filterMap Event.seen = events ∧ τ.system = σ) ?_ ?_ events σ hrun
    · exact ⟨[], _, rfl, rfl, rfl⟩
    · rintro events _ ev σ' ⟨arrivals, τ, hprior, rfl, rfl⟩ hstep
      obtain ⟨labels, τ', hlabels, hsystem, hseen⟩ :=
        (follows hvalid hprior).matched hvalid hstep
      refine ⟨arrivals ++ labels, τ', ?_, by rw [List.filterMap_append, hseen], hsystem⟩
      rw [Machine.run_append, hprior]
      exact hlabels
  · rintro ⟨arrivals, τ, hrun, rfl, rfl⟩
    exact (follows hvalid hrun).run

end Linked

/-- The parameters of the client are read once the last of three pieces is there. -/
example : [[], [Linked.Event.arrive true 40]].map (fun last =>
    (Machine.run Linked.step (.new (fun _ => Config.normalized none) .byteStream)
      ([.act false (.write true), .arrive true 1, .arrive true 7] ++ last ++
        [.deliver true 0])).map (fun τ => (τ.ends true).conn.ready)) = [none, some true] := by
  decide +kernel

end Qmux
