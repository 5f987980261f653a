import Qmux.Closing
import Qmux.Quiet.System
import Qmux.Quiet.Unrest

/-!
Two endpoints that are left alone come to rest. While the applications do not
call, no timer fires and the transport works, what is left are the steps of the
read loops, of the write loops and of those who have `writeMu`. Each of them uses up
some of the unrest of the system, so that there are only so many of them in a
row; neither side closes the connection in the course of them; and when none is
left to take, all is quiet.
-/

namespace Qmux

open Wire

namespace Endpoint

/-- Whoever has `writeMu` has something to do with it, and a goroutine has a reason for not
going on. -/
structure Poised [Quicvarint] (e : Endpoint) : Prop where
  records : ∀ w, e.writeMu ≠ .writing w []
  parameters : e.loop = .parameters → ∃ records, e.writeMu = .writing .parameters records
  failed : e.writeMu = .aborting ∨ e.loop = .failed → e.failed = true
  ended : e.loop = .ended → e.conn.closeErr.isSome = true

section Poised

variable [Quicvarint] {e e' : Endpoint}

/-- Another goroutine moves. -/
private theorem Poised.aside (h : e.Poised) (hmu : e'.writeMu = e.writeMu)
    (hloop : e'.loop = e.loop) (hfailed : e'.failed = e.failed)
    (hclosed : e.conn.closeErr.isSome = true → e'.conn.closeErr.isSome = true) : e'.Poised where
  records := hmu ▸ h.records
  parameters := by
    rw [hmu, hloop]
    exact h.parameters
  failed := by
    rw [hmu, hloop, hfailed]
    exact h.failed
  ended hended := hclosed (h.ended (hloop ▸ hended))

/-- The lock changes hands, or its holder moves on. -/
private theorem Poised.hold (h : e.Poised)
    (hloop : e'.loop = .select ∨ e'.loop = e.loop ∧ e.loop ≠ .parameters)
    (hrecords : ∀ w, e'.writeMu ≠ .writing w []) (hmu : e'.writeMu ≠ .aborting)
    (hfailed : e'.failed = e.failed)
    (hclosed : e.conn.closeErr.isSome = true → e'.conn.closeErr.isSome = true) : e'.Poised := by
  rcases hloop with hselect | ⟨hsame, hother⟩
  · refine ⟨hrecords, ?_, ?_, ?_⟩
    all_goals
      rw [hselect]
      simp [hmu]
  · refine ⟨hrecords, fun hcase => absurd (hsame ▸ hcase) hother, fun hcase => ?_, ?_⟩
    · rw [hfailed]
      exact h.failed (Or.inr (hsame ▸ hcase.resolve_left hmu))
    · rw [hsame]
      exact fun hended => hclosed (h.ended hended)

/-- The write loop has the lock while it writes the parameters. -/
private theorem Poised.started (h : e.Poised)
    (hmu : ∀ records, e.writeMu ≠ .writing .parameters records) : e.loop ≠ .parameters := by
  intro hparameters
  obtain ⟨records, hwriting⟩ := h.parameters hparameters
  exact hmu records hwriting

private theorem Poised.lock (h : e.Poised) (hfree : e.writeMu = .free) {job : Job}
    (hlock : e.lock job = some e') : e'.Poised := by
  have hloop : e.loop ≠ .parameters := h.started (by simp [hfree])
  cases job with
  | close =>
      simp only [Endpoint.lock] at hlock
      split at hlock
      · obtain rfl := Option.some.inj hlock
        exact h.hold (Or.inr ⟨rfl, hloop⟩) (by simp) (by simp) rfl
          (fun hclosed => hclosed)
      · cases hlock
  | _ =>
      obtain ⟨-, ⟨⟩⟩ := Option.ite_none_right_eq_some.mp hlock
      exact h.hold (Or.inr ⟨rfl, hloop⟩) (by simp) (by simp) rfl
          (fun hclosed => hclosed)

private theorem Poised.enter (h : e.Poised) {now : Time} (henter : e.enter now = some e') :
    e'.Poised := by
  have hclosed : e.conn.closeErr.isSome = true → e'.conn.closeErr.isSome = true := by
    rw [(enter_closeErr henter).1]
    exact fun hsome => hsome
  unfold Endpoint.enter at henter
  split at henter
  · rename_i r p hmu
    have hloop : e.loop ≠ .parameters := h.started (by simp [hmu])
    split at henter
    · obtain rfl := Option.some.inj henter
      exact h.hold (Or.inr ⟨rfl, hloop⟩) (by simp) (by simp) rfl hclosed
    · obtain rfl := Option.some.inj henter
      refine h.hold (Or.inr ⟨rfl, hloop⟩) (fun w => ?_) ?_ rfl hclosed
      · dsimp only
        split_ifs <;> simp
      · dsimp only
        split_ifs <;> simp
  · rename_i r hmu
    have hloop : e.loop ≠ .parameters := h.started (by simp [hmu])
    split at henter
    · obtain rfl := Option.some.inj henter
      exact h.hold (Or.inr ⟨rfl, hloop⟩) (by simp) (by simp) rfl hclosed
    · obtain rfl := Option.some.inj henter
      exact h.hold (Or.inr ⟨rfl, hloop⟩) (by simp) (by simp) rfl hclosed
  · rename_i hmu
    have hloop : e.loop ≠ .parameters := h.started (by simp [hmu])
    dsimp only at henter
    split at henter
    · obtain rfl := Option.some.inj henter
      exact h.hold (Or.inl rfl) (by simp) (by simp) rfl hclosed
    · rename_i hsome
      obtain rfl := Option.some.inj henter
      exact h.hold (Or.inr ⟨rfl, hloop⟩) (by simpa using hsome) (by simp) rfl hclosed
  · rename_i p hmu
    have hloop : e.loop ≠ .parameters := h.started (by simp [hmu])
    split_ifs at henter
    all_goals
      obtain rfl := Option.some.inj henter
      exact h.hold (Or.inr ⟨rfl, hloop⟩) (by simp) (by simp) rfl hclosed
  · cases henter

private theorem Poised.write (h : e.Poised) {ok : Bool} (hwrite : e.write ok = some e') :
    e'.Poised := by
  unfold Endpoint.write at hwrite
  split at hwrite
  · rename_i w frames rest hmu
    have hloop (hw : w ≠ .parameters) : e.loop ≠ .parameters :=
      h.started (fun records hcase => hw (Holder.writing.inj (hmu.symm.trans hcase)).1)
    split at hwrite
    · cases hwrite
    · split_ifs at hwrite
      · dsimp only at hwrite
        split at hwrite
        · obtain rfl := Option.some.inj hwrite
          cases w with
          | parameters | flush =>
              refine h.hold (Or.inl rfl) ?_ ?_ rfl ?_ <;> simp [written]
          | stream | datagram | close =>
              refine h.hold (Or.inr ⟨rfl, hloop (by simp)⟩) ?_ ?_ rfl ?_ <;> simp [written]
        · rename_i hrest
          obtain rfl := Option.some.inj hwrite
          refine ⟨by simpa using hrest, fun hcase => ?_, fun hcase => ?_, h.ended⟩
          · obtain ⟨records, hwriting⟩ := h.parameters hcase
            obtain ⟨rfl, -⟩ := Holder.writing.inj (hmu.symm.trans hwriting)
            exact ⟨rest, rfl⟩
          · exact h.failed (Or.inr (by simpa using hcase))
      · obtain rfl := Option.some.inj hwrite
        cases w with
        | parameters | flush => constructor <;> simp [writeFails]
        | stream | datagram | close =>
            exact ⟨by simp [writeFails], fun hcase => absurd hcase (hloop (by simp)),
              fun _ => rfl, h.ended⟩
  · cases hwrite

variable [GoAppend]

private theorem Poised.step (h : e.Poised) (hcause : e.conn.cause = e.conn.closeErr)
    (hsize : e.conn.config.maxRecordSize.toNat ≤ maxVarint) {a : Action}
    (hstep : e.step a = some e') : e'.Poised := by
  have hclosed : e.conn.closeErr.isSome = true → e'.conn.closeErr.isSome = true := by
    intro hsome
    rw [step_closeErr hsize hstep]
    cases hclose : e.conn.closeErr with
    | none => simp [hclose] at hsome
    | some err => rfl
  cases stepped hstep with
  | lock hfree hlock => exact h.lock hfree hlock
  | enter henter => exact h.enter henter
  | write hwrite => exact h.write hwrite
  | abort haborts =>
      cases haborts with
      | start | readLoop => exact h.aside rfl rfl rfl hclosed
      | writer hmu =>
          exact h.hold (Or.inr ⟨rfl, h.started (by simp [hmu])⟩) (by simp) (by simp) rfl hclosed
      | writeLoop hloop =>
          refine ⟨h.records, by simp, fun hcase => ?_, fun _ => ?_⟩
          · exact h.failed (Or.inl (by simpa using hcase))
          · exact Option.isSome_iff_ne_none.mpr (Conn.terminate_closed _ _)
  | wake hselect =>
      exact ⟨h.records, by simp, fun hcase => h.failed (Or.inl (by simpa using hcase)), by simp⟩
  | loopEnd hselect hended =>
      exact ⟨h.records, by simp, fun hcase => h.failed (Or.inl (by simpa using hcase)),
        fun _ => hcause ▸ hended⟩
  | record => 
      obtain ⟨c, reader, hframe⟩ := e.receive_frame _ _
      rw [hframe] at hclosed ⊢
      exact h.aside rfl rfl rfl hclosed
  | _ => exact h.aside rfl rfl rfl hclosed

/-- So it is in every run. -/
private theorem poised {config : Config} {isServer : Bool} {labels : List Action}
    (hconfig : config.Valid) (hrun : Machine.run step (new config isServer) labels = some e) :
    e.Poised := by
  refine (Machine.trace_invariant (P := fun labels e =>
    Machine.run step (new config isServer) labels = some e ∧ e.Poised)
    ⟨rfl, by constructor <;> simp [new]⟩ ?_ labels e hrun).2
  rintro labels e a e' ⟨hprior, h⟩ hstep
  obtain ⟨_, _, t, htraced⟩ := traced hconfig hprior
  refine ⟨?_, h.step htraced.cause ?_ hstep⟩
  · simp [Machine.run_append, hprior, Machine.run, hstep]
  · rw [htraced.past.history.config.1]
    exact hconfig.recordSize_le

end Poised

/-- The connection is open at this side, and its transport works. -/
structure Up [Quicvarint] (e : Endpoint) : Prop where
  connected : e.conn.closeErr = none
  reading : e.reader = .reading
  working : e.failed = false
  transport : e.closed = false

instance [Quicvarint] (e : Endpoint) : Decidable e.Up :=
  decidable_of_iff
    (e.conn.closeErr = none ∧ e.reader = .reading ∧ e.failed = false ∧ e.closed = false)
    ⟨fun ⟨hconnected, hreading, hworking, htransport⟩ =>
      ⟨hconnected, hreading, hworking, htransport⟩,
    fun h => ⟨h.connected, h.reading, h.working, h.transport⟩⟩

end Endpoint

/-- The action is one of the write loop or of whoever has `writeMu`, and no write fails. -/
def Action.own : Action → Bool
  | .wake | .lock .flush | .enter _ | .write true => true
  | _ => false

/-- What a record costs that was written: its delivery, and what it stirs. -/
def Record.inFlight [Quicvarint] (record : Record) : Nat :=
  1 + (record.frames.map (fun f => f.arrived.stirs)).sum

namespace Endpoint

variable [Quicvarint] {e e' : Endpoint}

private theorem write_failed (hwrite : e.write true = some e') : e'.failed = e.failed := by
  unfold write at hwrite
  split at hwrite
  · rename_i w _ _ _
    split at hwrite
    · cases hwrite
    · rw [if_pos rfl] at hwrite
      split_ifs at hwrite
      split at hwrite
      · obtain rfl := Option.some.inj hwrite
        cases w <;> rfl
      · obtain rfl := Option.some.inj hwrite
        rfl
  · cases hwrite

private theorem enter_eq_none {now : Time} (hnone : e.enter now = none) :
    e.writeMu = .free ∨ (∃ w records, e.writeMu = .writing w records) ∨
      e.writeMu = .aborting := by
  unfold enter at hnone
  cases hmu : e.writeMu with
  | free => exact Or.inl rfl
  | writing w records => exact Or.inr (Or.inl ⟨w, records, rfl⟩)
  | aborting => exact Or.inr (Or.inr rfl)
  | chunk | closeSend | flush | datagram =>
      rw [hmu] at hnone
      dsimp only at hnone
      split at hnone <;> cases hnone

private theorem write_eq_none {w : Writer} {frames : List Frame} {rest : List (List Frame)}
    (hmu : e.writeMu = .writing w (frames :: rest)) (hup : e.Up) (hnone : e.write true = none) :
    appendAll frames = none := by
  unfold write at hnone
  rw [hmu] at hnone
  dsimp only at hnone
  split at hnone
  · assumption
  · simp only [hup.working, hup.transport, Bool.or_self, Bool.false_eq_true, if_true, if_false] at hnone
    split at hnone <;> cases hnone

variable [GoAppend]

/-- A record keeps the connection up, unless it is a violation or closes it. -/
private theorem Up.receive (h : e.Up)
    (hsize : e.conn.config.maxRecordSize.toNat ≤ maxVarint) {rec : Bytes} {now : Time}
    (hclose : ∀ close, .frame (.connectionClose close) ∉ frames rec)
    (hviolation : ∀ err, (e.receive rec now).reader ≠ .violation err) :
    (e.receive rec now).Up := by
  have hreader : (e.receive rec now).reader = .reading := by
    unfold Endpoint.receive at hviolation ⊢
    dsimp only at hviolation ⊢
    split_ifs at hviolation ⊢
    · exact absurd rfl (hviolation _)
    · rcases hrecord : e.conn.handleRecord rec now with ⟨c, _ | err | err⟩
      · exact h.reading
      · rw [hrecord] at hviolation
        exact absurd rfl (hviolation err)
      · obtain ⟨close, -, hpart⟩ := Conn.handleRecord_closedBy hrecord
        exact absurd (hpart.subset (by simp)) (hclose close)
  have hopen := step_closeErr hsize (show e.step (.record rec now) = some (e.receive rec now) from
    if_pos h.reading)
  rw [h.connected] at hopen
  obtain ⟨_, _, hframe⟩ := e.receive_frame rec now
  exact ⟨hopen, hreader, hframe ▸ h.working, hframe ▸ h.transport⟩

/-- A step of the write loop, or of whoever has `writeMu`, keeps the connection up and makes
the endpoint less restless, by more than the records cost that it writes. -/
theorem Up.own (h : e.Up) (hheld : e.Held)
    (hsize : e.conn.config.maxRecordSize.toNat ≤ maxVarint) {a : Action} (hown : a.own = true)
    (hstep : e.step a = some e') :
    e'.Up ∧ ∃ records, e'.wire = e.wire ++ records ∧
      e'.unrest + (records.map Record.inFlight).sum + 1 ≤ e.unrest := by
  have hclose := step_closeErr hsize hstep
  cases stepped hstep with
  | wake hselect hwake =>
      refine ⟨⟨h.connected, h.reading, h.working, h.transport⟩, [], ?_⟩
      simpa using wake_unrest hheld hselect hwake
  | @lock job _ hfree hlock =>
      cases job with
      | flush =>
          have hless := lock_unrest hfree hlock
          obtain ⟨_, _, rfl, -⟩ := lock_frame hlock
          exact ⟨⟨h.connected, h.reading, h.working, h.transport⟩, [], by simpa using hless⟩
      | _ => cases hown
  | enter henter =>
      have hless := enter_unrest henter
      obtain ⟨_, _, _, rfl⟩ := enter_frame henter
      refine ⟨⟨hclose.trans ?_, h.reading, h.working, h.transport⟩, [], by simpa using hless⟩
      rw [h.connected]
      rfl
  | @write ok _ hwrite =>
      cases ok with
      | false => cases hown
      | true =>
          obtain ⟨record, hwire, hless⟩ := write_unrest hwrite
          have hworking := (write_failed hwrite).trans h.working
          obtain ⟨_, _, _, _, _, rfl, -⟩ := write_frame hwrite
          refine ⟨⟨h.connected, h.reading, hworking, h.transport⟩, [record], hwire, ?_⟩
          have hcost : recordCost record.frames = record.inFlight + 1 := by
            unfold recordCost Record.inFlight
            omega
          simp only [List.map_cons, List.map_nil, List.sum_cons, List.sum_nil]
          omega
  | close hcloses => cases hcloses <;> cases hown
  | abort haborts => cases haborts <;> cases hown
  | _ => cases hown

end Endpoint

namespace System

/-- The event is no call, no timer and no failure: a goroutine goes on with what it has to do. -/
def Event.own : Event → Bool
  | .act _ a => a.own
  | .deliver _ _ => true

/-- What is still to come of one side: what it has to do, and its records on the way. -/
def due [Quicvarint] (σ : System) (s : Bool) : Nat :=
  (σ.ends s).unrest + (((σ.ends s).wire.drop (σ.read (!s))).map Record.inFlight).sum

/-- The unrest of the system. -/
def unrest [Quicvarint] (σ : System) : Nat :=
  σ.due false + σ.due true

/-- The connection is open at both sides, and their transports work. -/
def Up [Quicvarint] (σ : System) : Prop :=
  ∀ s, (σ.ends s).Up

instance [Quicvarint] (σ : System) : Decidable σ.Up :=
  inferInstanceAs (Decidable (∀ _, Endpoint.Up _))

variable [Quicvarint] [GoAppend] {config : Bool → Config} {σ σ' : System} {ev : Event}
  {log : List (Bool × Ref × ReadResult)}

omit [GoAppend] in
private theorem unrest_eq (s : Bool) : σ.unrest = σ.due s + σ.due (!s) := by
  cases s with
  | false => rfl
  | true => exact Nat.add_comm _ _

/-- A side does something with its lock. -/
private theorem Up.act (hvalid : ∀ s, (config s).Valid)
    (hfollows : ∀ s, ∃ labels, Follows config log σ s labels) (h : σ.Up) {s : Bool} {a : Action}
    (hown : a.own = true) (hmove : σ.move s a = some σ') : σ'.Up ∧ σ'.unrest < σ.unrest := by
  obtain ⟨hstep, hother, hread⟩ := move_eq hmove
  obtain ⟨_, hside⟩ := hfollows s
  obtain ⟨_, hpeer⟩ := hfollows (!s)
  have hwithin := hpeer.within
  rw [Bool.not_not] at hwithin
  obtain ⟨t, ⟨_, _, htraced⟩, -⟩ := hside.traced hvalid
  obtain ⟨hup, records, hwire, hless⟩ :=
    (h s).own htraced.held (Endpoint.recordSize_le (hvalid _) (Machine.run_of_watch hside.run)) hown hstep
  constructor
  · intro i
    rcases Bool.eq_or_eq_not i s with rfl | rfl
    · exact hup
    · exact hother ▸ h (!s)
  · have hpeerDue : σ'.due (!s) = σ.due (!s) := by
      unfold due
      rw [hother, hread]
    have hdue : σ'.due s < σ.due s := by
      unfold due
      rw [hwire, hread, List.drop_append_of_le_length hwithin, List.map_append, List.sum_append]
      omega
    rw [unrest_eq s, unrest_eq s, hpeerDue]
    omega

/-- An open side has not said that it closes the connection. -/
private theorem unclosed {s : Bool} {u : Traffic} (hvalid : ∀ s, (config s).Valid)
    (hwithin : σ.Within) (hother : Traced config σ s u) (hopen : (σ.ends s).conn.closeErr = none)
    {record : Record} (hrecord : record ∈ (σ.ends s).wire) (close : ConnectionClose) :
    .frame (.connectionClose close) ∉ frames record.bytes := by
  obtain ⟨_, _, hother⟩ := hother
  rw [(hother.parses (hvalid s) (hwithin s) hrecord).frames_eq]
  intro hmem
  obtain ⟨f, hf, harrived⟩ := List.mem_map.mp hmem
  obtain ⟨rest, hlog, -⟩ := hother.wire
  obtain ⟨g, rfl⟩ : ∃ g, f = .connectionClose g := by
    cases f with
    | connectionClose g => exact ⟨g, rfl⟩
    | _ => cases harrived
  refine hother.unsent (Or.inl (hother.idle.mpr hopen)) g ?_
  rw [hlog]
  exact List.mem_append_left _ (List.mem_flatMap.mpr ⟨record, hrecord, hf⟩)

/-- A side reads a record. -/
private theorem Up.deliver (hvalid : ∀ s, (config s).Valid)
    (hfollows : ∀ s, ∃ labels, Follows config log σ s labels) (hwithin : σ.Within) (h : σ.Up)
    {s : Bool} {now : Time} (hstep : σ.step (.deliver s now) = some σ') :
    σ'.Up ∧ σ'.unrest < σ.unrest := by
  have htrust := trust_step hvalid hfollows hwithin
    (fun s err hcase => by simp [(h s).reading] at hcase) hstep s
  obtain ⟨_, hside⟩ := hfollows s
  obtain ⟨_, hpeer⟩ := hfollows (!s)
  obtain ⟨u, hother, -⟩ := hpeer.traced hvalid
  simp only [step] at hstep
  split at hstep
  · cases hstep
  · rename_i record hrecord
    obtain ⟨next, hnext, rfl⟩ := Option.map_eq_some_iff.mp hstep
    obtain ⟨hmove, hsame, hread⟩ := move_eq hnext
    have hmem : record ∈ (σ.ends (!s)).wire := List.mem_of_getElem? hrecord
    obtain ⟨-, hreceive⟩ := Option.ite_none_right_eq_some.mp hmove
    have hreceive := Option.some.inj hreceive
    constructor
    · intro i
      rcases Bool.eq_or_eq_not i s with rfl | rfl
      · rw [← hreceive] at htrust
        exact hreceive ▸ (h i).receive (Endpoint.recordSize_le (hvalid _) (Machine.run_of_watch hside.run))
          (unclosed hvalid hwithin hother (h (!i)).connected hmem) htrust
      · exact hsame ▸ h (!s)
    · have hcost := (σ.ends s).receive_unrest record.bytes now
      obtain ⟨c, reader, hframe⟩ := (σ.ends s).receive_frame record.bytes now
      obtain ⟨hlt, hget⟩ := List.getElem?_eq_some_iff.mp hrecord
      obtain ⟨_, _, hother⟩ := hother
      rw [(hother.parses (hvalid (!s)) (hwithin (!s)) hmem).frames_eq, List.map_map] at hcost
      have hpeerDue : due { next with read := Function.update σ.read s (σ.read s + 1) } (!s) +
          record.inFlight = σ.due (!s) := by
        unfold due
        dsimp only
        rw [hsame, Bool.not_not, Function.update_self, List.drop_eq_getElem_cons hlt, hget,
          List.map_cons, List.sum_cons]
        omega
      have hdue : due { next with read := Function.update σ.read s (σ.read s + 1) } s + 1 ≤
          σ.due s + record.inFlight := by
        unfold due Record.inFlight
        dsimp only
        rw [← hreceive, Function.update_of_ne (by simp)]
        have hwire : ((σ.ends s).receive record.bytes now).wire = (σ.ends s).wire := by
          rw [hframe]
        rw [hwire]
        simp only [Function.comp_def] at hcost
        omega
      rw [unrest_eq s, unrest_eq s]
      omega

/-- A step of a goroutine uses up some of the unrest. -/
private theorem Up.step (hvalid : ∀ s, (config s).Valid)
    (hfollows : ∀ s, ∃ labels, Follows config log σ s labels) (hwithin : σ.Within) (h : σ.Up)
    (hown : ev.own = true) (hstep : σ.step ev = some σ') : σ'.Up ∧ σ'.unrest < σ.unrest := by
  cases ev with
  | act s a =>
      obtain ⟨-, hmove⟩ := Option.ite_none_left_eq_some.mp hstep
      exact h.act hvalid hfollows hown hmove
  | deliver s now => exact h.deliver hvalid hfollows hwithin hstep

/-- The limits on streams are not taken back by a run. -/
private theorem Within.of_run {events more : List Event} (hvalid : ∀ s, (config s).Valid)
    (hrun : Machine.run System.step (new config) events = some σ)
    (hmore : Machine.run System.step σ more = some σ') (h : σ'.Within) : σ.Within := by
  induction more generalizing σ events with
  | nil =>
      obtain rfl := Option.some.inj hmore
      exact h
  | cons ev more ih =>
      obtain ⟨mid, hmid, hrest⟩ := Option.bind_eq_some_iff.mp hmore
      obtain ⟨log, hwatch⟩ := Machine.exists_watch readsBy [] hrun
      have hnext : Machine.run System.step (new config) (events ++ [ev]) = some mid := by
        simp [Machine.run_append, hrun, Machine.run, hmid]
      exact Within.of_step hvalid (follows hwatch) hmid (ih hnext hrest)

/-- The same of a step of a run that ends within the limits on streams. -/
private theorem settle_step (hvalid : ∀ s, (config s).Valid) (hwithin : σ'.Within) (σ : System)
    (ev : Event) (mid : System) (rest : List Event)
    (h : Machine.Reachable System.step (new config) σ ∧ σ.Up) (hown : ev.own = true)
    (hstep : σ.step ev = some mid) (hrest : Machine.run System.step mid rest = some σ') :
    (Machine.Reachable System.step (new config) mid ∧ mid.Up) ∧ mid.unrest < σ.unrest := by
  obtain ⟨⟨events, hrun⟩, hup⟩ := h
  have hmore : Machine.run System.step σ (ev :: rest) = some σ' := by
    simp [Machine.run, hstep, hrest]
  obtain ⟨log, hwatch⟩ := Machine.exists_watch readsBy [] hrun
  obtain ⟨hup', hlt⟩ :=
    hup.step hvalid (follows hwatch) (hwithin.of_run hvalid hrun hmore) hown hstep
  refine ⟨⟨⟨events ++ [ev], ?_⟩, hup'⟩, hlt⟩
  simp [Machine.run_append, hrun, Machine.run, hstep]

/-- A side that can do nothing is at rest, unless it has a record that cannot be encoded. -/
private theorem Up.resting {s : Bool} {labels : List Action} (hvalid : ∀ s, (config s).Valid)
    (hside : Follows config log σ s labels) (h : σ.Up)
    (hstuck : ∀ a, a.own = true → (σ.ends s).step a = none) :
    (σ.ends s).Resting ∨ ∃ w frames rest, (σ.ends s).writeMu = .writing w (frames :: rest) ∧
      appendAll frames = none := by
  have hpoised := Endpoint.poised (hvalid s) (Machine.run_of_watch hside.run)
  have hup := h s
  cases hmu : (σ.ends s).writeMu with
  | free =>
      have hselect : (σ.ends s).loop = .select := by
        cases hloop : (σ.ends s).loop with
        | select => rfl
        | parameters =>
            obtain ⟨_, hwriting⟩ := hpoised.parameters hloop
            simp [hmu] at hwriting
        | woken =>
            have hlock := hstuck (.lock .flush) rfl
            simp [Endpoint.step, hmu, Endpoint.lock, hloop] at hlock
        | failed =>
            have hfailed := hpoised.failed (Or.inr hloop)
            simp [hup.working] at hfailed
        | ended =>
            have hended := hpoised.ended hloop
            simp [hup.connected] at hended
      refine Or.inl ⟨hup.connected, hup.reading, hmu, hselect, ?_, hup.working⟩
      by_contra hwake
      have hnone := hstuck .wake rfl
      simp [Endpoint.step, hselect, hwake] at hnone
  | writing w records =>
      cases records with
      | nil => exact absurd hmu (hpoised.records w)
      | cons frames rest =>
          have hnone := hstuck (.write true) rfl
          exact Or.inr ⟨w, frames, rest, rfl, Endpoint.write_eq_none hmu hup hnone⟩
  | aborting =>
      have hfailed := hpoised.failed (Or.inl hmu)
      simp [hup.working] at hfailed
  | chunk | closeSend | flush | datagram =>
      have hnone := hstuck (.enter 0) rfl
      rcases Endpoint.enter_eq_none hnone with hfree | ⟨_, _, hwriting⟩ | haborting
      · simp [hmu] at hfree
      · simp [hmu] at hwriting
      · simp [hmu] at haborting

/-- Where neither side can do anything, all is quiet. -/
private theorem Up.quiet (hvalid : ∀ s, (config s).Valid)
    (hfollows : ∀ s, ∃ labels, Follows config log σ s labels) (h : σ.Up)
    (hstuck : ∀ ev, ev.own = true → σ.step ev = none) :
    σ.Quiet ∨ ∃ s w frames rest, (σ.ends s).writeMu = .writing w (frames :: rest) ∧
      appendAll frames = none := by
  have hends (s : Bool) (a : Action) (hown : a.own = true) : (σ.ends s).step a = none := by
    have hnone := hstuck (.act s a) hown
    have hother : a.isRecord = false := by
      cases a with
      | record => cases hown
      | _ => rfl
    simpa [System.step, hother, move] using hnone
  by_cases hpanic : ∃ s w frames rest, (σ.ends s).writeMu = .writing w (frames :: rest) ∧
      appendAll frames = none
  · exact Or.inr hpanic
  · refine Or.inl (fun s => ?_)
    obtain ⟨_, hside⟩ := hfollows s
    refine ⟨(h.resting hvalid hside (hends s)).resolve_right (fun hcase => hpanic ⟨s, hcase⟩), ?_⟩
    refine hside.within.antisymm (List.getElem?_eq_none_iff.mp ?_)
    have hnone := hstuck (.deliver s 0) rfl
    cases hrecord : (σ.ends (!s)).wire[σ.read s]? with
    | none => rfl
    | some record => simp [System.step, hrecord, move, Endpoint.step, (h s).reading] at hnone

/-- Two endpoints that are left alone come to rest. From every state in which the connection
is up, the goroutines can take only so many steps, in whatever order they take them, until a
call, a timer or a failure comes in; the connection stays up; and a state in which there is
none left to take is quiet, unless the encoder of a frame has panicked. -/
theorem settles (config : Bool → Option Config) {events more : List Event} {σ σ' : System}
    (hrun : Machine.run step (new (fun s => Config.normalized (config s))) events = some σ)
    (hup : σ.Up) (hown : ∀ ev ∈ more, ev.own = true)
    (hmore : Machine.run step σ more = some σ') (hwithin : σ'.Within) :
    σ'.Up ∧ more.length + σ'.unrest ≤ σ.unrest ∧
      ((∀ ev, ev.own = true → σ'.step ev = none) →
        σ'.Quiet ∨ ∃ s w frames rest, (σ'.ends s).writeMu = .writing w (frames :: rest) ∧
          appendAll frames = none) := by
  have hvalid (s : Bool) := Config.normalized_valid (config s)
  obtain ⟨⟨⟨_, hreach⟩, hup'⟩, hle⟩ := Machine.run_le_potential (settle_step hvalid hwithin)
    ⟨⟨events, hrun⟩, hup⟩ hown hmore
  obtain ⟨log, hwatch⟩ := Machine.exists_watch readsBy [] hreach
  exact ⟨hup', hle, hup'.quiet hvalid (follows hwatch)⟩

end System

/-- The client opens a stream and takes the lock for a write. -/
def locked : List System.Event :=
  [.act false (.write true), .act true (.write true), .deliver true 0, .deliver false 0,
    .act false (.call (.tryOpen .uni)), .act false (.lock (.chunk 0 [7, 8]))]

/-- The goroutines go on from there. -/
def goesOn : List System.Event :=
  [.act false (.enter 0), .act false (.write true), .deliver true 0]

theorem settles_goesOn :
    ∃ σ σ' : System, Machine.run System.step (System.new (fun _ => Config.normalized (some narrow)))
        locked = some σ ∧
      Machine.run System.step σ goesOn = some σ' ∧ σ'.Up ∧ 3 + σ'.unrest ≤ σ.unrest := by
  have hrun : (Machine.run System.step (System.new (fun _ => Config.normalized (some narrow)))
      locked).map (fun σ => (decide σ.Up,
        (Machine.run System.step σ goesOn).map (fun σ' => decide σ'.Within))) =
        some (true, some true) := by
    decide +kernel
  obtain ⟨σ, hrun, hstate⟩ := Option.map_eq_some_iff.mp hrun
  obtain ⟨hup, hmore⟩ := Prod.mk.inj hstate
  obtain ⟨σ', hmore, hwithin⟩ := Option.map_eq_some_iff.mp hmore
  obtain ⟨hup', hle, -⟩ := System.settles (fun _ => some narrow) hrun (of_decide_eq_true hup)
    (by decide) hmore (of_decide_eq_true hwithin)
  exact ⟨σ, σ', hrun, hmore, hup', hle⟩

end Qmux
