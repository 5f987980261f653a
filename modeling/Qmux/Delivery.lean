import Qmux.Agreement
import Qmux.Write.Peers

/-!
Streams are delivered. What one side reads of a stream is at every moment the
start of what the calls of `Write` on the other side have put on it, and a reader
that is returned the end has read all of it: the other side has closed the stream
and has not reset it.
-/

namespace Qmux

open Wire

namespace System

variable [Quicvarint] [GoAppend] {config : Bool → Config} {σ : System} {s : Bool}
  {t u : Traffic}

/-- What one side has taken of a stream is the start of what the other has written. -/
private theorem messages_written (hvalid : ∀ s, (config s).Valid) (hwithin : σ.Within)
    (hside : Traced config σ s t) (hother : Traced config σ (!s) u) (id : Nat) :
    t.messages id <+: (σ.ends (!s)).sent.filterMap (Frame.message? id) := by
  obtain ⟨_, _, hside⟩ := hside
  obtain ⟨_, _, hother⟩ := hother
  have hall := congrArg (List.flatMap Record.frames)
    (List.take_append_drop (σ.read s) (σ.ends (!s)).wire)
  rw [List.flatMap_append] at hall
  have htook := hside.took
  rw [heard, hother.frames_take (hvalid (!s)) (hwithin (!s))] at htook
  have hstart := htook.filterMap (Parsed.message? id)
  rw [messages_arrived] at hstart
  refine hstart.trans ?_
  rw [Endpoint.sent, ← hall, List.filterMap_append]
  exact List.prefix_append _ _

/-- The stream, on the side that sends on it, once its end was taken. -/
private theorem ended_written (hvalid : ∀ s, (config s).Valid) (hwithin : σ.Within)
    (hside : Traced config σ s t) (hother : Traced config σ (!s) u) {id : Nat}
    (hfin : ∃ m ∈ t.messages id, m.fin = true) :
    u.handed.filterMap (Frame.message? id) = t.messages id ∧
      ∃ i < (σ.ends (!s)).conn.count, ((σ.ends (!s)).conn.heap i).id = id ∧
        ((σ.ends (!s)).conn.heap i).finSent = true ∧
        ((σ.ends (!s)).conn.heap i).sendErr = none ∧
        ((σ.ends (!s)).conn.heap i).sendOffset = (Transfer.payload (t.messages id)).length := by
  have hstart := messages_written hvalid hwithin hside hother id
  have hdialogue := dialogue hvalid hwithin hside hother
  obtain ⟨_, _, hother⟩ := hother
  obtain ⟨rest, hlog, -⟩ := hother.wire
  obtain ⟨m, hm, hlast⟩ := hfin
  have hends : m.ends = true := by rw [Transfer.Message.ends, hlast, Bool.true_or]
  obtain ⟨f, hf, hmessage⟩ := List.mem_filterMap.mp (hstart.subset hm)
  have hhanded : f ∈ u.handed := hlog ▸ List.mem_append_left rest hf
  obtain ⟨i, hi, hid⟩ := (Conn.History.warrants hdialogue.other_valid hdialogue.peer f
    (List.mem_append_left _ hhanded)).named (Frame.stream_of_message hmessage)
  have hsent := ((Conn.History.outbox hdialogue.other_valid hdialogue.peer).streams i hi).sent
  have hhandedStart : t.messages id <+: u.handed.filterMap (Frame.message? id) := by
    rw [hlog, List.filterMap_append]
    exact hstart.trans (List.prefix_append _ _)
  rw [hid, List.filterMap_append] at hsent
  have hall := hsent.inOrder.all_of_ended (hhandedStart.trans (List.prefix_append _ _))
    ⟨m, hm, hends⟩
  have hwritten := hsent.inOrder.of_append.all_of_ended hhandedStart ⟨m, hm, hends⟩
  rw [hall] at hsent
  refine ⟨hwritten, i, hi, hid, hsent.fin.mpr ⟨m, hm, hlast⟩, ?_, hsent.offset⟩
  by_contra hcase
  obtain ⟨x, hx, hreset⟩ := hsent.reset.mp (Option.isSome_iff_ne_none.mpr hcase)
  obtain rfl := hsent.inOrder.end_unique hm hends hx
    (by rw [Transfer.Message.ends, hreset, Bool.or_true])
  cases x with
  | segment => cases hreset
  | reset => cases hlast

end System

namespace Peers

variable [Quicvarint] [GoAppend]

/-- End-to-end delivery. From any two configurations, in every run in which no limit
on streams goes beyond what a MAX_STREAMS frame can declare: what a side has read of a
stream is the start of what is on the wire for it, which is the start of what the calls
of `Write` on the other side have put on it; and if a read has returned the end, the
other has closed the stream, has not reset it, and all that was put on it was read. What
a call puts is the start of what it was given, on its own stream, and all of it once the
call has returned without an error. -/
theorem delivered (config : Bool → Option Config) {events : List Event} {σ : Peers}
    {log : List (Bool × Ref × ReadResult)}
    (hrun : Machine.run (Machine.watch step readsBy)
      (new (fun s => Config.normalized (config s)), []) events = some (σ, log))
    (hwithin : σ.system.Within) (s : Bool) (r : Ref) :
    let id := ((σ.system.ends s).conn.heap r).id
    let other := σ.system.ends (!s)
    let onWire := Transfer.payload (other.sent.filterMap (Frame.message? id))
    let written := σ.written (!s) id
    readOn r (System.readsOf s log) <+: onWire ∧ onWire <+: written ∧
      (∀ p, (r, .eof p) ∈ System.readsOf s log →
        p = [] ∧ readOn r (System.readsOf s log) = written ∧
          ∃ i < other.conn.count, (other.conn.heap i).id = id ∧
            (other.conn.heap i).finSent = true ∧ (other.conn.heap i).sendErr = none ∧
            (other.conn.heap i).sendOffset = written.length) ∧
      (∀ x ∈ (σ.writes (!s)).put, ∃ c, (σ.writes (!s)).calls[x.call]? = some c ∧ c.r = x.r) ∧
      ∀ i c, (σ.writes (!s)).calls[i]? = some c →
        ∃ n, (σ.writes (!s)).putOf i = c.p.take n ∧ c.total ≤ n ∧
          (c.phase = .returned none → c.total = c.p.length ∧ n = c.p.length) := by
  have hvalid (s : Bool) := Config.normalized_valid (config s)
  obtain ⟨_, hfollows⟩ := follows hrun s
  obtain ⟨_, hpeer⟩ := follows hrun (!s)
  obtain ⟨t, hside, hreads⟩ := hfollows.system.traced hvalid
  obtain ⟨u, hother, hdata⟩ := hpeer.traced hvalid
  have hinbox := (System.dialogue hvalid hwithin hside hother).inbox
  have hstart := System.messages_written hvalid hwithin hside hother
    ((σ.system.ends s).conn.heap r).id
  rw [← hreads]
  dsimp only
  refine ⟨?_, ?_, fun p hread => ?_, hpeer.sound.put, fun i c hc => ?_⟩
  · by_cases hreader : ∃ x ∈ t.reads, x.1 = r
    · obtain ⟨x, hx, rfl⟩ := hreader
      obtain ⟨hr, hcan⟩ := hinbox.readers x hx
      exact (hinbox.read x.1 hr hcan).trans (Transfer.payload_mono hstart)
    · rw [readOn_nil (fun x hx hr => absurd ⟨x, hx, hr⟩ hreader)]
      exact List.nil_prefix
  · obtain ⟨_, _, htraced⟩ := hother
    obtain ⟨rest, hlog, -⟩ := htraced.wire
    rw [← hdata, hlog, List.filterMap_append, Transfer.payload_append]
    exact List.prefix_append _ _
  · obtain ⟨hnone, hall, hfin⟩ := hinbox.ended r p hread
    obtain ⟨hwritten, hstream⟩ := System.ended_written hvalid hwithin hside hother hfin
    rw [← hdata, hwritten]
    exact ⟨hnone, hall, hstream⟩
  · obtain ⟨n, hput, hprogress⟩ := hpeer.sound.progress i c hc
    refine ⟨n, hput, hprogress.total, fun hreturned => ?_⟩
    obtain ⟨htotal, hlast⟩ := hprogress.returned hreturned
    exact ⟨htotal.symm.trans hlast, hlast⟩

end Peers

/-- A client calls `Write` on a stream that has credit for two of the three bytes, and
closes the stream while the call waits for more; the server reads the stream to its end. -/
def interrupted : List Peers.Event :=
  [.side false (.act (.write true)), .side true (.act (.write true)), .deliver true 0,
    .deliver false 0, .side false (.act (.call (.tryOpen .uni))),
    .side false (.write 0 [7, 8, 9]), .side false (.trySend 0 0), .side false (.lock 0),
    .side false (.act (.enter 0)), .side false (.act (.write true)),
    .side false (.trySend 0 0), .side false (.act (.lock (.closeSend 0))),
    .side false (.act (.enter 0)), .side false (.act (.write true)),
    .side false (.woken 0), .side false (.trySend 0 0), .deliver true 0, .deliver true 0,
    .side true (.act (.call (.tryAccept .uni))), .side true (.act (.call (.tryRead 0 8))),
    .side true (.act (.call (.tryRead 0 8)))]

/-- The server has read the two bytes that the call has put, and then the end. -/
theorem delivered_interrupted :
    ∃ (σ : Peers) (log : List (Bool × Ref × ReadResult)),
      Machine.run (Machine.watch Peers.step Peers.readsBy)
        (Peers.new (fun _ => Config.normalized (some { initialStreamReceiveWindow := 2 })), [])
        interrupted = some (σ, log) ∧
      (σ.writes false).calls = [⟨0, [7, 8, 9], 2, .returned (some (.send (.finished 2)))⟩] ∧
      readOn 0 (System.readsOf true log) = [7, 8] ∧ σ.written false 2 = [7, 8] ∧
      (∃ n, (σ.writes false).putOf 0 = [7, 8, 9].take n ∧ 2 ≤ n) ∧
      ∃ i < (σ.system.ends false).conn.count, ((σ.system.ends false).conn.heap i).id = 2 ∧
        ((σ.system.ends false).conn.heap i).finSent = true ∧
        ((σ.system.ends false).conn.heap i).sendErr = none := by
  have hrun : (Machine.run (Machine.watch Peers.step Peers.readsBy)
      (Peers.new (fun _ => Config.normalized (some { initialStreamReceiveWindow := 2 })), [])
        interrupted).map (fun x =>
        decide (x.2 = [(true, 0, .data [7, 8]), (true, 0, .eof [])] ∧
          ((x.1.system.ends true).conn.heap 0).id = 2 ∧ x.1.system.Within ∧
          (x.1.writes false).calls =
            [⟨0, [7, 8, 9], 2, .returned (some (.send (.finished 2)))⟩])) = some true := by
    decide +kernel
  obtain ⟨⟨σ, log⟩, hrun, hstate⟩ := Option.map_eq_some_iff.mp hrun
  obtain ⟨hlog, hid, hwithin, hcalls⟩ := of_decide_eq_true hstate
  change log = _ at hlog
  change (σ.writes false).calls = _ at hcalls
  have hended : (0, .eof []) ∈ System.readsOf true log := by
    rw [hlog]
    decide
  have hread : readOn 0 (System.readsOf true log) = [7, 8] := by
    rw [hlog]
    decide
  obtain ⟨-, -, hend, -, hgiven⟩ := Peers.delivered (fun _ => some
    { initialStreamReceiveWindow := 2 }) hrun hwithin true 0
  obtain ⟨-, hall, i, hi, hname, hfin, hreset, -⟩ := hend [] hended
  obtain ⟨n, hput, htotal, -⟩ := hgiven 0 _ (by rw [Bool.not_true, hcalls]; rfl)
  rw [hid] at hall hname
  exact ⟨σ, log, hrun, hcalls, hread, hall.symm.trans hread, ⟨n, hput, htotal⟩, i, hi, hname,
    hfin, hreset⟩

end Qmux
