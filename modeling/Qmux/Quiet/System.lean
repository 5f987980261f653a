import Qmux.ControlLoop
import Qmux.Quiet.Credit
import Qmux.Quiet.Legal
import Qmux.Streams
import Qmux.Write.Peers

/-!
Two endpoints at rest. When no record is on its way and neither side has anything
to write, the two sides agree: on every limit, on what was sent on every stream,
and on which streams have ended. So neither side waits for the other without a
reason: what keeps a writer waiting is data that the other application has not
read, and what keeps an opener waiting are streams that are not over.
-/

namespace Qmux

open Wire

/-- The goroutines of the endpoint wait for something to do: the read loop for a record and
the write loop for a token, and nobody has `writeMu`. -/
structure Endpoint.Resting [Quicvarint] (e : Endpoint) : Prop where
  connected : e.conn.closeErr = none
  reading : e.reader = .reading
  unlocked : e.writeMu = .free
  selecting : e.loop = .select
  token : e.conn.controlWake = false
  working : e.failed = false

instance [Quicvarint] (e : Endpoint) : Decidable e.Resting :=
  decidable_of_iff
    (e.conn.closeErr = none ∧ e.reader = .reading ∧ e.writeMu = .free ∧ e.loop = .select ∧
      e.conn.controlWake = false ∧ e.failed = false)
    ⟨fun ⟨hconnected, hreading, hunlocked, hselecting, htoken, hworking⟩ =>
      ⟨hconnected, hreading, hunlocked, hselecting, htoken, hworking⟩,
    fun h => ⟨h.connected, h.reading, h.unlocked, h.selecting, h.token, h.working⟩⟩

namespace System

/-- Both sides are at rest, and each has read all records of the other. -/
def Quiet [Quicvarint] (σ : System) : Prop :=
  ∀ s, (σ.ends s).Resting ∧ σ.read s = (σ.ends (!s)).wire.length

instance [Quicvarint] (σ : System) : Decidable σ.Quiet :=
  inferInstanceAs (Decidable (∀ _, _ ∧ _))

variable [Quicvarint] [GoAppend] {config : Bool → Config} {σ : System} {s : Bool}
  {t u : Traffic}

/-- All that one side has handed out was written. -/
private theorem written_of_quiet (hquiet : σ.Quiet) (hside : Traced config σ s t) :
    t.handed = (σ.ends s).sent := by
  obtain ⟨_, _, hside⟩ := hside
  obtain ⟨rest, hlog, hpending⟩ := hside.wire
  have hnone : rest = [] := by
    rw [hpending (hquiet s).1.working, (hquiet s).1.unlocked]
    rfl
  rw [hlog, hnone, List.append_nil]

/-- A side has no control frames to write. -/
private theorem nothing_of_quiet (hvalid : ∀ s, (config s).Valid) (hquiet : σ.Quiet)
    {log : List (Bool × Ref × ReadResult)} {labels : List Action}
    (hfollows : Follows config log σ s labels) : ¬ (σ.ends s).conn.HasControl := by
  intro hcontrol
  have hrest := (hquiet s).1
  rcases Endpoint.alert_of_run (hvalid s) (Machine.run_of_watch hfollows.run)
    hrest.connected hcontrol with htoken | ⟨hwoken, -⟩
  · rw [hrest.token] at htoken
    cases htoken
  · rw [hrest.selecting] at hwoken
    cases hwoken

/-- When all is quiet, no limit on streams is beyond what can be declared: it was
declared, and the other side has read on. -/
theorem within_of_quiet (hvalid : ∀ s, (config s).Valid) {events : List Event}
    (hrun : Machine.run step (new config) events = some σ) (hquiet : σ.Quiet) : σ.Within := by
  intro s dir
  obtain ⟨log, hwatch⟩ := Machine.exists_watch readsBy [] hrun
  obtain ⟨_, hfollows⟩ := follows hwatch s
  obtain ⟨t, hside, -⟩ := hfollows.traced hvalid
  have hwritten := written_of_quiet hquiet hside
  obtain ⟨_, _, hside⟩ := hside
  have hdue : ((σ.ends s).conn.incoming dir).pending = false := by
    by_contra hcase
    exact nothing_of_quiet hvalid hquiet hfollows
      (Or.inr (Or.inr (Or.inl ⟨dir, by simpa using hcase⟩)))
  have htold := (Conn.History.limitsTold (hvalid s) hside.past.history).streams dir
  rcases htold.value_mem hdue with hfirst | hlater
  · change ((σ.ends s).conn.incoming dir).max = _ at hfirst
    rw [hfirst, (Conn.History.config hside.past.history).1]
    exact (hvalid s).incomingLimit_le dir
  · obtain ⟨f, hf, hlimit⟩ := List.mem_filterMap.mp hlater
    rw [hwritten] at hf
    obtain ⟨record, hrecord, hin⟩ := List.mem_flatMap.mp hf
    obtain ⟨hpeer, hread⟩ := hquiet (!s)
    have hall := parses_read hvalid hrun (!s) hpeer.connected hpeer.reading
    rw [hread, List.take_length, Bool.not_not] at hall
    obtain ⟨fs, hparses⟩ := hall record hrecord
    have hframes (g : Frame) (hg : g ∈ record.frames) :
        g.Acceptable ∨ ∃ m, g = .maxStreams m :=
      (hside.acceptable (hvalid s) (List.mem_flatMap.mpr ⟨record, hrecord, hg⟩)).imp_right
        (fun ⟨m, _, hm, _⟩ => ⟨m, hm⟩)
    cases f with
    | maxStreams m =>
        have hmax : m.max = ((σ.ends s).conn.incoming dir).max :=
          (Option.ite_none_right_eq_some.mp hlimit).2 |> Option.some.inj
        rw [← hmax]
        exact appendAll_legal record.encoded hframes hparses hin
    | _ => cases hlimit

/-- All that one side has handed out was heard. -/
private theorem heard_of_quiet (hvalid : ∀ s, (config s).Valid) (hwithin : σ.Within)
    (hquiet : σ.Quiet) (hother : Traced config σ (!s) u) :
    σ.heard s = u.handed.map Frame.arrived := by
  have hwritten := written_of_quiet hquiet hother
  obtain ⟨_, _, hother⟩ := hother
  rw [heard, hother.frames_take (hvalid (!s)) (hwithin (!s)), (hquiet s).2, List.take_length,
    hwritten]
  rfl

/-- When all is quiet, each side has said all it has to say. -/
private theorem saidAll (hvalid : ∀ s, (config s).Valid) (hwithin : σ.Within)
    (hquiet : σ.Quiet) {log : List (Bool × Ref × ReadResult)} {labels labels' : List Action}
    (hfollows : Follows config log σ s labels) (hpeer : Follows config log σ (!s) labels')
    (hside : Traced config σ s t) (hother : Traced config σ (!s) u) :
    Conn.SaidAll u (σ.ends (!s)).conn t (σ.ends s).conn := by
  have hheard := heard_of_quiet hvalid hwithin hquiet hother
  have hrest := (hquiet s).1
  have htook : t.took = σ.heard s := by
    obtain ⟨_, _, hside⟩ := hside
    exact hside.reading hrest.connected hrest.reading
  refine ⟨nothing_of_quiet hvalid hquiet hpeer, htook.trans hheard, fun f hf => ?_⟩
  refine Endpoint.heeded (hvalid s) (Machine.run_of_watch hfollows.run) hrest.connected
    hrest.reading f ?_
  rw [hfollows.heard, ← htook]
  exact hf

/-- The two sides of a quiet system, as each other's peers. -/
private structure Settled (config : Bool → Config) (σ : System) (s : Bool) (t u : Traffic) :
    Prop where
  dialogue : Conn.Dialogue (config s) (config (!s)) s (σ.heard s) (σ.heard (!s)) t
    (σ.ends s).conn u (σ.ends (!s)).conn
  connected : (σ.ends s).conn.closeErr = none
  said : Conn.SaidAll t (σ.ends s).conn u (σ.ends (!s)).conn
  told : Conn.SaidAll u (σ.ends (!s)).conn t (σ.ends s).conn
  written : u.handed = (σ.ends (!s)).sent

private theorem settled (hvalid : ∀ s, (config s).Valid) {events : List Event}
    {log : List (Bool × Ref × ReadResult)}
    (hrun : Machine.run (Machine.watch step readsBy) (new config, []) events = some (σ, log))
    (hquiet : σ.Quiet) (s : Bool) :
    ∃ t u, Settled config σ s t u ∧ t.reads = readsOf s log := by
  have hwithin := within_of_quiet hvalid (Machine.run_of_watch hrun) hquiet
  obtain ⟨_, hfollows⟩ := follows hrun s
  obtain ⟨_, hpeer⟩ := follows hrun (!s)
  obtain ⟨t, hside, hreads⟩ := hfollows.traced hvalid
  obtain ⟨u, hother, -⟩ := hpeer.traced hvalid
  refine ⟨t, u, ⟨dialogue hvalid hwithin hside hother, (hquiet s).1.connected, ?_,
    saidAll hvalid hwithin hquiet hfollows hpeer hside hother, written_of_quiet hquiet hother⟩,
    hreads⟩
  have hself : Follows config log σ (!!s) _ := (Bool.not_not s).symm ▸ hfollows
  have hback : Conn.SaidAll t (σ.ends (!!s)).conn u (σ.ends (!s)).conn :=
    saidAll hvalid hwithin hquiet hpeer hself hother ((Bool.not_not s).symm ▸ hside)
  rw [Bool.not_not] at hback
  exact hback

/-- When all is quiet, each side works with the limits that the other has: on the data of
all streams, on the number of streams, and on the data of each stream that has not ended. -/
theorem quiet_limits (config : Bool → Option Config) {events : List Event} {σ : System}
    (hrun : Machine.run step (new (fun s => Config.normalized (config s))) events = some σ)
    (hquiet : σ.Quiet) (s : Bool) :
    let c := (σ.ends s).conn
    let d := (σ.ends (!s)).conn
    d.ready = true ∧ d.sendMax = c.recvMax ∧ (∀ dir, (d.out dir).max = (c.incoming dir).max) ∧
      ∀ i < d.count, (d.heap i).sendDone = false →
        (∃ r < c.count, (c.heap r).id = (d.heap i).id ∧
          (d.heap i).sendMax = (c.heap r).recvMax) ∨
        ((∀ r < c.count, (c.heap r).id ≠ (d.heap i).id) ∧
          (d.heap i).sendMax = c.config.streamWindow) := by
  obtain ⟨log, hwatch⟩ := Machine.exists_watch readsBy [] hrun
  obtain ⟨t, u, h, -⟩ := settled (fun s => Config.normalized_valid (config s)) hwatch hquiet
    s
  have hdialogue := h.dialogue
  refine ⟨hdialogue.peer_ready h.said, hdialogue.sendMax_eq h.connected h.said,
    hdialogue.outMax_eq h.said, fun i hi hsend => ?_⟩
  have hcan : ((σ.ends (!s)).conn.heap i).canSend = true := by
    simp only [Stream.sendDone, Bool.or_eq_false_iff, Bool.not_eq_false'] at hsend
    exact hsend.1.1
  by_cases hknown : ∃ r < (σ.ends s).conn.count,
      ((σ.ends s).conn.heap r).id = ((σ.ends (!s)).conn.heap i).id
  · obtain ⟨r, hr, hid⟩ := hknown
    have hrecv := (hdialogue.canSend_eq hr hi hid.symm).symm.trans hcan
    exact Or.inl ⟨r, hr, hid, hdialogue.streamMax_eq h.said hr hrecv hi hid.symm hsend⟩
  · have hnone : ∀ r < (σ.ends s).conn.count,
        ((σ.ends s).conn.heap r).id ≠ ((σ.ends (!s)).conn.heap i).id :=
      fun r hr hid => hknown ⟨r, hr, hid⟩
    exact Or.inr ⟨hnone, hdialogue.streamMax_unknown hi hcan hnone⟩

/-- When all is quiet and an application has read all there is, no writer of the other side
has to wait for flow control, as long as the windows are larger than one. -/
theorem quiet_sends (config : Bool → Option Config) {events : List Event} {σ : System}
    (hrun : Machine.run step (new (fun s => Config.normalized (config s))) events = some σ)
    (hquiet : σ.Quiet) (s : Bool)
    (hwindows : 2 ≤ (Config.normalized (config s)).connectionWindow ∧
      2 ≤ (Config.normalized (config s)).streamWindow)
    (hread : ∀ r < (σ.ends s).conn.count, ((σ.ends s).conn.heap r).unread = []) {i : Ref}
    (hi : i < (σ.ends (!s)).conn.count)
    (hsend : ((σ.ends (!s)).conn.heap i).sendDone = false) {now : Time}
    (hdeadline : ∀ time ∈ ((σ.ends (!s)).conn.heap i).writeDeadline, now < time) :
    ((σ.ends (!s)).conn.trySend i now).2 = .ready := by
  obtain ⟨log, hwatch⟩ := Machine.exists_watch readsBy [] hrun
  obtain ⟨t, u, h, -⟩ := settled (fun s => Config.normalized_valid (config s)) hwatch hquiet
    s
  have hcredit := h.dialogue.sendCredit_pos h.connected h.said h.told hwindows hread hi hsend
  simp only [Stream.sendDone, Bool.or_eq_false_iff, Bool.not_eq_false', Option.isSome_eq_false_iff,
    Option.isNone_iff_eq_none] at hsend
  have hopen : (σ.ends (!s)).conn.sendErrLocked ((σ.ends (!s)).conn.heap i) = none := by
    simp [Conn.sendErrLocked, (hquiet (!s)).1.connected, hsend]
  have htime : ((σ.ends (!s)).conn.heap i).writeDeadline.any (fun t => decide (t ≤ now)) =
      false := by
    cases hset : ((σ.ends (!s)).conn.heap i).writeDeadline with
    | none => rfl
    | some time => simpa using hdeadline time hset
  simp [Conn.trySend, hopen, htime, hcredit]

/-- When all is quiet, a side can open a stream exactly if, not counting those that are over
at the other side, it has opened fewer than the other side is configured to take. -/
theorem quiet_opens (config : Bool → Option Config) {events : List Event} {σ : System}
    (hrun : Machine.run step (new (fun s => Config.normalized (config s))) events = some σ)
    (hquiet : σ.Quiet) (s : Bool) (dir : Dir) :
    (∃ r, ((σ.ends (!s)).conn.tryOpen dir).2 = .stream r) ↔
      ((σ.ends (!s)).conn.out dir).next <
        ((σ.ends s).conn.completedStreams dir).card +
          (Config.normalized (config s)).incomingLimit dir := by
  obtain ⟨log, hwatch⟩ := Machine.exists_watch readsBy [] hrun
  obtain ⟨t, u, h, -⟩ := settled (fun s => Config.normalized_valid (config s)) hwatch hquiet
    s
  have hmax := (Conn.History.ordered h.dialogue.valid h.dialogue.history).incoming_max_eq dir
  rw [(Conn.History.config h.dialogue.history).1, ← h.dialogue.outMax_eq h.said dir] at hmax
  simp only [Conn.tryOpen, (hquiet (!s)).1.connected]
  split_ifs with hfull
  · simp only [exists_false, false_iff]
    omega
  · simp only [Opened.stream.injEq, exists_eq', true_iff]
    omega

/-- When all is quiet no ping is unanswered, so the keep-alive does not give the peer up. -/
theorem quiet_pings (config : Bool → Option Config) {events : List Event} {σ : System}
    (hrun : Machine.run step (new (fun s => Config.normalized (config s))) events = some σ)
    (hquiet : σ.Quiet) (s : Bool) :
    (σ.ends s).conn.pingUnanswered = false ∧
      ∀ now, ((σ.ends s).conn.requestPing now).2 = true := by
  obtain ⟨log, hwatch⟩ := Machine.exists_watch readsBy [] hrun
  obtain ⟨t, u, h, -⟩ := settled (fun s => Config.normalized_valid (config s)) hwatch hquiet s
  have hanswered := h.dialogue.ping_answered h.said h.told
  exact ⟨hanswered, fun now => by simp [Conn.requestPing, hanswered]⟩

end System

namespace Peers

variable [Quicvarint] [GoAppend]

/-- When all is quiet, each stream stands the same at its two ends. What the calls of
`Write` have put on it was received, with the end or the reset if there was one; what was
received was read or is there to be read, unless the reader has cancelled or learned of a
reset; and a reader that has cancelled has stopped the writer. -/
theorem quiet_streams (config : Bool → Option Config) {events : List Event} {σ : Peers}
    {log : List (Bool × Ref × ReadResult)}
    (hrun : Machine.run (Machine.watch step readsBy)
      (new (fun s => Config.normalized (config s)), []) events = some (σ, log))
    (hquiet : σ.system.Quiet) (s : Bool) {i : Ref}
    (hi : i < (σ.system.ends (!s)).conn.count)
    (hcan : ((σ.system.ends (!s)).conn.heap i).canSend = true) :
    let c := (σ.system.ends s).conn
    let writer := (σ.system.ends (!s)).conn.heap i
    let written := σ.written (!s) writer.id
    (∃ r < c.count, (c.heap r).id = writer.id ∧ (c.heap r).recvOffset = writer.sendOffset ∧
      (c.heap r).finRecv = writer.finSent ∧ (c.heap r).recvReset = writer.sendErr.isSome ∧
      ((c.heap r).readCancelled = true → writer.sendDone = true) ∧
      ((c.heap r).recvErr = none →
        readOn r (System.readsOf s log) ++ (c.heap r).unread = written)) ∨
    ((∀ r < c.count, (c.heap r).id ≠ writer.id) ∧ written = [] ∧ writer.sendOffset = 0 ∧
      writer.sendDone = false) := by
  have hvalid (s : Bool) := Config.normalized_valid (config s)
  obtain ⟨_, hsystem⟩ := system_run hrun
  obtain ⟨t, u, h, hreads⟩ := System.settled hvalid hsystem hquiet s
  obtain ⟨_, hpeer⟩ := follows hrun (!s)
  obtain ⟨v, hother, hdata⟩ := hpeer.traced hvalid
  have hwritten (id : Nat) : σ.written (!s) id =
      Transfer.payload (u.handed.filterMap (Frame.message? id)) := by
    rw [← hdata, System.written_of_quiet hquiet hother, h.written]
  have hdialogue := h.dialogue
  dsimp only
  rw [hwritten]
  by_cases hknown : ∃ r < (σ.system.ends s).conn.count,
      ((σ.system.ends s).conn.heap r).id = ((σ.system.ends (!s)).conn.heap i).id
  · obtain ⟨r, hr, hid⟩ := hknown
    have hrecv := (hdialogue.canSend_eq hr hi hid.symm).symm.trans hcan
    obtain ⟨hoffset, hfin, hreset⟩ :=
      hdialogue.stream_eq h.connected h.told hr hrecv hi hid.symm
    refine Or.inl ⟨r, hr, hid, hoffset, hfin, hreset, fun hcancelled => ?_, fun herr => ?_⟩
    · exact hdialogue.stream_stopped h.connected h.told h.said hr hrecv hi hid.symm hcancelled
    · rw [← hid, ← hreads]
      exact hdialogue.stream_content h.connected h.told hr hrecv herr
  · have hnone : ∀ r < (σ.system.ends s).conn.count,
        ((σ.system.ends s).conn.heap r).id ≠ ((σ.system.ends (!s)).conn.heap i).id :=
      fun r hr hid => hknown ⟨r, hr, hid⟩
    obtain ⟨hmessages, hzero, hfin, herr⟩ := hdialogue.stream_unknown h.told hi hnone
    refine Or.inr ⟨hnone, ?_, hzero, ?_⟩
    · rw [← Conn.Dialogue.messages_eq h.told, hmessages]
      rfl
    · simp [Stream.sendDone, hcan, hfin, herr]

end Peers

section Runs

/-- Both windows are two. -/
def narrow : Config :=
  { initialStreamReceiveWindow := 2, initialConnectionReceiveWindow := 2 }

/-- A flush of the control frames of one side, which the other side then reads. -/
def flushes (s : Bool) : List Peers.Event :=
  [.side s (.act .wake), .side s (.act (.lock .flush)), .side s (.act (.enter 0)),
    .side s (.act (.write true)), .deliver (!s) 0]

/-- A client uses up both windows on a stream; the server reads what there is, and tells the
client of the limits it has raised. Then the client sends a ping, and the server answers. -/
def refill : List Peers.Event :=
  [.side false (.act (.write true)), .side true (.act (.write true)), .deliver true 0,
    .deliver false 0, .side false (.act (.call (.tryOpen .uni))),
    .side false (.write 0 [7, 8]), .side false (.trySend 0 0), .side false (.lock 0),
    .side false (.act (.enter 0)), .side false (.act (.write true)), .deliver true 0,
    .side true (.act (.call (.tryAccept .uni))), .side true (.act (.call (.tryRead 0 8)))] ++
    flushes true ++ [.side false (.act (.call (.requestPing 0)))] ++ flushes false ++
    flushes true

private theorem refill_quiet :
    ∃ (σ : Peers) (log : List (Bool × Ref × ReadResult)),
      Machine.run (Machine.watch Peers.step Peers.readsBy)
        (Peers.new (fun _ => Config.normalized (some narrow)), []) refill = some (σ, log) ∧
      σ.system.Quiet ∧ ((σ.system.ends false).conn.out .uni).next = 1 ∧
      (σ.system.ends false).conn.count = 1 ∧
      ((σ.system.ends false).conn.heap 0).canSend = true ∧
      ((σ.system.ends false).conn.heap 0).sendDone = false ∧
      ((σ.system.ends false).conn.heap 0).sendOffset = 2 ∧
      ((σ.system.ends false).conn.heap 0).writeDeadline = none ∧
      (σ.system.ends false).conn.nextPing = 1 ∧ (σ.system.ends true).conn.count = 1 ∧
      ((σ.system.ends true).conn.heap 0).unread = [] ∧
      ((σ.system.ends true).conn.heap 0).recvErr = none ∧
      (σ.system.ends true).conn.recvMax = 4 := by
  have hrun : (Machine.run (Machine.watch Peers.step Peers.readsBy)
      (Peers.new (fun _ => Config.normalized (some narrow)), []) refill).map (fun x => decide
        (x.1.system.Quiet ∧ ((x.1.system.ends false).conn.out .uni).next = 1 ∧
          (x.1.system.ends false).conn.count = 1 ∧
          ((x.1.system.ends false).conn.heap 0).canSend = true ∧
          ((x.1.system.ends false).conn.heap 0).sendDone = false ∧
          ((x.1.system.ends false).conn.heap 0).sendOffset = 2 ∧
          ((x.1.system.ends false).conn.heap 0).writeDeadline = none ∧
          (x.1.system.ends false).conn.nextPing = 1 ∧ (x.1.system.ends true).conn.count = 1 ∧
          ((x.1.system.ends true).conn.heap 0).unread = [] ∧
          ((x.1.system.ends true).conn.heap 0).recvErr = none ∧
          (x.1.system.ends true).conn.recvMax = 4)) = some true := by
    decide +kernel
  obtain ⟨⟨σ, log⟩, hrun, hstate⟩ := Option.map_eq_some_iff.mp hrun
  exact ⟨σ, log, hrun, of_decide_eq_true hstate⟩

theorem quiet_limits_refill :
    ∃ σ : System, σ.Quiet ∧ (σ.ends true).conn.recvMax = 4 ∧ (σ.ends false).conn.sendMax = 4 := by
  obtain ⟨σ, log, hwatch, hquiet, -, -, -, -, -, -, -, -, -, -, hmax⟩ := refill_quiet
  obtain ⟨_, hrun⟩ := Peers.system_run hwatch
  obtain ⟨-, hdata, -⟩ := System.quiet_limits (fun _ => some narrow) (Machine.run_of_watch hrun)
    hquiet true
  exact ⟨σ.system, hquiet, hmax, hdata.trans hmax⟩

theorem quiet_streams_refill :
    ∃ (σ : Peers) (log : List (Bool × Ref × ReadResult)), σ.system.Quiet ∧
      ((σ.system.ends false).conn.heap 0).sendOffset = 2 ∧
      ∃ r < (σ.system.ends true).conn.count,
        ((σ.system.ends true).conn.heap r).recvOffset = 2 ∧
        readOn r (System.readsOf true log) =
          σ.written false ((σ.system.ends false).conn.heap 0).id := by
  obtain ⟨σ, log, hwatch, hquiet, -, hcount, hcan, -, hoffset, -, -, hpeer, hread, herr, -⟩ :=
    refill_quiet
  rcases Peers.quiet_streams (fun _ => some narrow) hwatch hquiet true
    (hcount ▸ Nat.one_pos) hcan with ⟨r, hr, -, hsame, -, -, -, hall⟩ | ⟨-, -, hzero, -⟩
  · obtain rfl : r = 0 := by omega
    have hcontent := hall herr
    rw [hread, List.append_nil] at hcontent
    exact ⟨σ, log, hquiet, hoffset, 0, hr, hsame.trans hoffset, hcontent⟩
  · cases hoffset.symm.trans hzero

theorem quiet_sends_refill :
    ∃ σ : System, σ.Quiet ∧ ((σ.ends false).conn.trySend 0 0).2 = .ready := by
  obtain ⟨σ, log, hwatch, hquiet, -, hcount, -, hopen, -, hdeadline, -, hpeer, hread, -⟩ :=
    refill_quiet
  obtain ⟨_, hrun⟩ := Peers.system_run hwatch
  refine ⟨σ.system, hquiet, System.quiet_sends (fun _ => some narrow) (Machine.run_of_watch hrun)
    hquiet true (by decide) (fun r hr => ?_) (hcount ▸ Nat.one_pos) hopen (fun time htime => ?_)⟩
  · change r < (σ.system.ends true).conn.count at hr
    obtain rfl : r = 0 := by omega
    exact hread
  · change _ ∈ ((σ.system.ends false).conn.heap 0).writeDeadline at htime
    rw [hdeadline] at htime
    cases htime

theorem quiet_opens_refill :
    ∃ σ : System, σ.Quiet ∧ ∃ r, ((σ.ends false).conn.tryOpen .uni).2 = .stream r := by
  obtain ⟨σ, log, hwatch, hquiet, hnext, -⟩ := refill_quiet
  obtain ⟨_, hrun⟩ := Peers.system_run hwatch
  refine ⟨σ.system, hquiet, (System.quiet_opens (fun _ => some narrow) (Machine.run_of_watch hrun)
    hquiet true .uni).mpr (Nat.lt_of_lt_of_le ?_ (Nat.le_add_left _ _))⟩
  change ((σ.system.ends false).conn.out .uni).next < _
  rw [hnext]
  decide

theorem quiet_pings_refill :
    ∃ σ : System, σ.Quiet ∧ (σ.ends false).conn.nextPing = 1 ∧
      (σ.ends false).conn.pingUnanswered = false := by
  obtain ⟨σ, log, hwatch, hquiet, -, -, -, -, -, -, hping, -⟩ := refill_quiet
  obtain ⟨_, hrun⟩ := Peers.system_run hwatch
  exact ⟨σ.system, hquiet, hping,
    (System.quiet_pings (fun _ => some narrow) (Machine.run_of_watch hrun) hquiet false).1⟩

end Runs

end Qmux
