import Qmux.Credit.Stream
import Qmux.Registry.Table
import Qmux.Trace.Run
import Qmux.Wire.RoundTrip

/-!
What a peek can wait for. A peek of more than is there waits for the peer, and the
peer may send up to the limit of the stream. A read moves the limit to a whole
window beyond what was read, but only once less than half a window is left of it.
So what a peek may ask for depends on how much was read since the limit was last
raised: after a read that does not raise it, a peek of the whole window waits for
data that the peer may not send.
-/

namespace Qmux

open Wire

/-- What a read does for the credit of a stream: it takes bytes, and may queue a new
limit. -/
inductive CreditEvent where
  | read (r : Ref) (n : Nat)
  | queued (f : MaxStreamData)
deriving DecidableEq, Repr

/-- How many bytes were read of the stream `r` with the identifier `id` since its limit
was last raised, after one more event. -/
def CreditEvent.since (r : Ref) (id n : Nat) : CreditEvent → Nat
  | .read i k => if i = r then n + k else n
  | .queued f => if f.streamID = id then 0 else n

/-- How many bytes were read of the stream since its limit was last raised. -/
def readSince (r : Ref) (id : Nat) (log : List CreditEvent) : Nat :=
  log.foldl (CreditEvent.since r id) 0

theorem readSince_append (r : Ref) (id : Nat) (first second : List CreditEvent) :
    readSince r id (first ++ second) =
      second.foldl (CreditEvent.since r id) (readSince r id first) :=
  List.foldl_append

def Wire.Frame.creditEvent? : Frame → Option CreditEvent
  | .maxStreamData f => some (.queued f)
  | _ => none

namespace Conn

variable {c : Conn} {r : Ref}

/-- What a call takes of a stream, and the limits that it queues. -/
def creditBy (c : Conn) : Call → List CreditEvent
  | .tryRead r size =>
      match (c.tryRead r size).2 with
      | .data p => .read r p.length ::
          ((c.tryRead r size).1.control.drop c.control.length).filterMap Frame.creditEvent?
      | _ => []
  | _ => []

/-- A peek waits for data that is not there. -/
theorem tryPeek_wait_iff (hopen : c.closeErr = none) (size : Nat) :
    (∃ channel deadline, (c.tryPeek r size).2 = .wait channel deadline) ↔
      (c.heap r).recvErr = none ∧ (c.heap r).unread.length < size ∧
        (c.heap r).finRecv = false := by
  cases herr : (c.heap r).recvErr with
  | some e => simp [tryPeek, hopen, herr]
  | none =>
      simp only [tryPeek, hopen, herr]
      split_ifs with hthere hfin
      · simp [Nat.not_lt.mpr hthere]
      · simp [hfin]
      · simp [Nat.lt_of_not_le hthere, hfin]

end Conn

/-- The read returns data. -/
def ReadResult.isData : ReadResult → Bool
  | .data _ => true
  | _ => false

/-- How many of the reads have returned data. -/
def Traffic.dataReads (t : Traffic) : Nat :=
  t.reads.countP (fun x => x.2.isData)

namespace Conn

section Moves

variable [Quicvarint] [GoAppend] {heard : Parsed → Prop} {t t₀ : Traffic} {c c₀ c' : Conn}

/-- Only a read that returns data counts against the limit of a stream, or raises it. -/
private theorem credit_of_move (hmove : Move heard c t c') (hreads : t.dataReads = 0) {r : Ref}
    (hr : r < c.count) : (c'.heap r).recvMax = (c.heap r).recvMax ∧
      (c'.heap r).readOffset = (c.heap r).readOffset := by
  rw [← Prod.mk.injEq]
  rcases stream_of_move (fun s => (s.recvMax, s.readOffset)) (fun _ => rfl) hmove hr with
    hsame | ⟨s, frames, d, hact, -, -, hsame⟩
  · exact hsame
  · refine hsame.trans ?_
    cases hact with
    | data =>
        obtain ⟨-, -, hread, hmax, -⟩ := Stream.takeData_fields (c.heap r) _
        rw [hread, hmax]
    | read => cases hreads
    | _ => rfl

/-- What is left of the limits of the streams, over steps that return no data. -/
private theorem Since.credit (hsince : Since heard t₀ c₀ t c) :
    t₀.dataReads ≤ t.dataReads ∧ (t.dataReads = t₀.dataReads → ∀ r < c.count,
      (c.heap r).canRecv = true →
        r < c₀.count ∧ (c.heap r).recvMax = (c₀.heap r).recvMax ∧
            (c.heap r).readOffset = (c₀.heap r).readOffset ∨
          c₀.count ≤ r ∧ (c.heap r).recvMax = c₀.config.streamWindow ∧
            (c.heap r).readOffset = 0) := by
  induction hsince with
  | start => exact ⟨Nat.le_refl _, fun _ r hr _ => Or.inl ⟨hr, rfl, rfl⟩⟩
  | @move t t' c c' hprior hmove ih =>
      obtain ⟨hle, hkept⟩ := ih
      have hsum : (t ++ t').dataReads = t.dataReads + t'.dataReads := List.countP_append
      refine ⟨by omega, fun hnone r hr hcan => ?_⟩
      have hkept := hkept (by omega)
      rcases Nat.lt_or_ge r c.count with hold | hnew
      · obtain ⟨hmax, hread⟩ := credit_of_move hmove (by omega) hold
        rw [hmax, hread]
        exact hkept r hold (((Extends.of_move hmove).streams r hold).canRecv.symm.trans hcan)
      · rcases count_of_move hmove with hcount | ⟨hone, -, -, id, accepted, hfresh⟩
        · exact absurd (hcount ▸ hr) (Nat.not_lt.mpr hnew)
        obtain rfl : r = c.count := Nat.le_antisymm (Nat.lt_succ_iff.mp (hr.trans_eq hone)) hnew
        rw [hfresh] at hcan ⊢
        refine Or.inr ⟨hprior.later.count, ?_, rfl⟩
        rw [← hprior.later.config]
        exact if_pos hcan
  | @terminate t c err hprior ih =>
      obtain ⟨hcount, -⟩ := terminate_keeps c err
      refine ⟨ih.1, fun hnone r hr => ?_⟩
      rw [terminate_stream Stream.canRecv (fun _ => rfl),
        terminate_stream Stream.recvMax (fun _ => rfl),
        terminate_stream Stream.readOffset (fun _ => rfl)]
      exact ih.2 hnone r (hcount ▸ hr)

end Moves

section Read

variable {c : Conn} {r : Ref} {size : Nat} {p : Bytes}

/-- What a read does that returns data. -/
private structure Consumes (c c' : Conn) (r : Ref) (n : Nat) (queued : List CreditEvent) :
    Prop where
  count : c'.count = c.count
  others : ∀ i ≠ r, (c'.heap i).recvMax = (c.heap i).recvMax ∧
    (c'.heap i).readOffset = (c.heap i).readOffset
  readOffset : (c'.heap r).readOffset = (c.heap r).readOffset + n
  queued : queued = [] ∧ (c'.heap r).recvMax = (c.heap r).recvMax ∨
    ∃ f, queued = [.queued f] ∧ f.streamID = (c.heap r).id ∧
      (c'.heap r).recvMax = (c.heap r).readOffset + n + c.config.streamWindow

/-- A read leaves the limit, or raises it to a whole window beyond what was read and queues
the new one. -/
private theorem copyOut_credit {s : Stream} {n window : Nat}
    (hsmall : s.readOffset + n + window < 2 ^ 64) :
    (s.copyOut n window).readOffset = s.readOffset + n ∧
      (s.copyOutGrant n window = [] ∧ (s.copyOut n window).recvMax = s.recvMax ∨
        ∃ f, s.copyOutGrant n window = [.maxStreamData f] ∧ f.streamID = s.id ∧
          (s.copyOut n window).recvMax = s.readOffset + n + window) := by
  have hadd : Word.add s.readOffset n = s.readOffset + n := Word.add_of_lt (by omega)
  have hraised : Word.add (s.readOffset + n) window = s.readOffset + n + window :=
    Word.add_of_lt hsmall
  have hadvance : (s.advance n).readOffset = s.readOffset ∧ (s.advance n).finRecv = s.finRecv ∧
      (s.advance n).recvMax = s.recvMax := by
    unfold Stream.advance
    split_ifs <;> exact ⟨rfl, rfl, rfl⟩
  unfold Stream.copyOut Stream.copyOutGrant Stream.lowCredit
  simp only [hadvance, hadd]
  split_ifs with hlow
  · exact ⟨rfl, Or.inr ⟨_, rfl, rfl, hraised⟩⟩
  · exact ⟨rfl, Or.inl ⟨rfl, rfl⟩⟩

/-- A read returns data that is there, on a stream that has no error. -/
private theorem tryRead_data (hdata : (c.tryRead r size).2 = .data p) :
    (c.heap r).recvErr = none ∧ p = (c.heap r).unread.take size ∧
      (c.tryRead r size).1 = c.copyOut r p.length := by
  cases hclose : c.closeErr with
  | some e => simp [tryRead, hclose] at hdata
  | none =>
      cases herr : (c.heap r).recvErr with
      | some e => simp [tryRead, hclose, herr] at hdata
      | none =>
          simp only [tryRead, hclose, herr] at hdata ⊢
          split_ifs at hdata ⊢
          obtain rfl := ReadResult.data.inj hdata
          exact ⟨trivial, rfl, rfl⟩

private theorem copyOut_consumes {n : Nat}
    (hsmall : (c.heap r).readOffset + n + c.config.streamWindow < 2 ^ 64) :
    c.Consumes (c.copyOut r n) r n
      (((c.copyOut r n).control.drop c.control.length).filterMap Frame.creditEvent?) := by
  have htouches := c.readLocked_touches r n
  have hstream := htouches.stream (fun s => (s.recvMax, s.readOffset)) (fun _ => rfl)
  obtain ⟨hoffset, hgrant⟩ := copyOut_credit hsmall
  have hself := hstream r
  rw [Function.update_self] at hself
  obtain ⟨hmax, hread⟩ := Prod.mk.inj hself
  refine ⟨htouches.view count fun _ _ _ _ _ _ => rfl, fun i hi => ?_, hread.trans hoffset, ?_⟩
  · have hother := hstream i
    rw [Function.update_of_ne hi] at hother
    exact Prod.mk.inj hother
  · rw [copyOut, htouches.control, List.drop_left]
    rcases hgrant with ⟨hnone, hsame⟩ | ⟨f, hone, hid, hraised⟩
    · rw [hnone]
      exact Or.inl ⟨rfl, hmax.trans hsame⟩
    · rw [hone]
      exact Or.inr ⟨f, rfl, hid, hmax.trans hraised⟩

private theorem tryRead_credit (hsound : (c.heap r).Sound c.config.streamWindow)
    (hwindow : c.config.streamWindow ≤ maxVarint) (hdata : (c.tryRead r size).2 = .data p) :
    ∃ queued, c.creditBy (.tryRead r size) = .read r p.length :: queued ∧
      c.Consumes (c.tryRead r size).1 r p.length queued := by
  obtain ⟨herr, hp, hstate⟩ := tryRead_data hdata
  have hflags := hsound.tidy.err
  rw [herr] at hflags
  obtain ⟨hreset, hcancelled⟩ := Bool.or_eq_false_iff.mp hflags.symm
  have hcontent := hsound.credited.unread hreset hcancelled
  have hbound := hsound.credited.small
  have hlen : p.length ≤ (c.heap r).unread.length := hp ▸ List.length_take_le' _ _
  have hvarint : maxVarint = 2 ^ 62 - 1 := rfl
  have hsmall : (c.heap r).readOffset + p.length + c.config.streamWindow < 2 ^ 64 := by omega
  have hconsumes := copyOut_consumes hsmall
  rw [← hstate] at hconsumes
  refine ⟨_, ?_, hconsumes⟩
  simp only [creditBy, hdata]

end Read

/-- The event is about a stream of the connection. -/
private def Known (c : Conn) : CreditEvent → Prop
  | .read r _ => r < c.count
  | .queued f => ∃ r < c.count, (c.heap r).id = f.streamID

private theorem Known.later {c c' : Conn} (hext : c.Extends c') {ev : CreditEvent}
    (h : c.Known ev) : c'.Known ev := by
  cases ev with
  | read r n => exact h.trans_le hext.count
  | queued f =>
      obtain ⟨r, hr, hid⟩ := h
      exact ⟨r, hr.trans_le hext.count, (hext.streams r hr).id.trans hid⟩

/-- Nothing was read of a stream that no event is about. -/
private theorem readSince_unknown {c : Conn} {log : List CreditEvent} {r : Ref} {id : Nat}
    (hlog : ∀ ev ∈ log, c.Known ev) (hr : c.count ≤ r)
    (hid : ∀ i < c.count, (c.heap i).id ≠ id) : readSince r id log = 0 := by
  unfold readSince
  refine List.foldlRecOn log _ (motive := fun n => n = 0) rfl (fun n hn ev hev => ?_)
  have hknown := hlog ev hev
  cases ev with
  | read i k =>
      have hne : i ≠ r := (Nat.lt_of_lt_of_le hknown hr).ne
      simpa [CreditEvent.since, hne] using hn
  | queued f =>
      obtain ⟨i, hi, hname⟩ := hknown
      have hne : f.streamID ≠ id := hname ▸ hid i hi
      simpa [CreditEvent.since, hne] using hn

end Conn

namespace Endpoint

variable [Quicvarint]

/-- What a step takes of the streams, and the limits that it queues for them. -/
def creditBy (e : Endpoint) : Action → List CreditEvent
  | .call op => e.conn.creditBy op
  | _ => []

/-- The limit of a stream that can be read is a window beyond what had been read when it
was last raised. -/
private structure Lagging (e : Endpoint) (log : List CreditEvent) : Prop where
  known : ∀ ev ∈ log, e.conn.Known ev
  limit : ∀ r < e.conn.count, (e.conn.heap r).canRecv = true →
    (e.conn.heap r).recvMax + readSince r (e.conn.heap r).id log =
      (e.conn.heap r).readOffset + e.conn.config.streamWindow

variable {e e' : Endpoint} {log : List CreditEvent} {t t' : Traffic}

/-- A read that returns data counts, and may raise the limit. -/
private theorem Lagging.read (h : e.Lagging log) {r : Ref} {n : Nat} {queued : List CreditEvent}
    (hr : r < e.conn.count)
    (hunique : ∀ i < e.conn.count, ∀ j < e.conn.count,
      (e.conn.heap i).id = (e.conn.heap j).id → i = j)
    (hext : e.conn.Extends e'.conn)
    (hreads : e.conn.Consumes e'.conn r n queued) :
    e'.Lagging (log ++ .read r n :: queued) := by
  refine ⟨fun ev hev => ?_, fun i hi hcan => ?_⟩
  · rcases List.mem_append.mp hev with hold | hnew
    · exact (h.known ev hold).later hext
    · rcases List.mem_cons.mp hnew with rfl | hnew
      · exact hr.trans_le hext.count
      · rcases hreads.queued with ⟨hnone, -⟩ | ⟨f, hone, hid, -⟩
        · rw [hnone] at hnew
          cases hnew
        · rw [hone] at hnew
          rw [List.mem_singleton.mp hnew]
          exact ⟨r, hr.trans_le hext.count, (hext.streams r hr).id.trans hid.symm⟩
  · rw [hreads.count] at hi
    have hkeeps := hext.streams i hi
    have hlimit := h.limit i hi (hkeeps.canRecv.symm.trans hcan)
    rw [hext.config, hkeeps.id, readSince_append]
    by_cases hsame : i = r
    · subst hsame
      rw [hreads.readOffset]
      rcases hreads.queued with ⟨rfl, hmax⟩ | ⟨f, rfl, hid, hmax⟩
      · simp only [List.foldl_cons, List.foldl_nil, CreditEvent.since, if_true]
        omega
      · simp only [List.foldl_cons, List.foldl_nil, CreditEvent.since, if_pos hid]
        omega
    · obtain ⟨hmax, hread⟩ := hreads.others i hsame
      have hother : (e.conn.heap r).id ≠ (e.conn.heap i).id :=
        fun hid => hsame (hunique i hi r hr hid.symm)
      rw [hmax, hread]
      rcases hreads.queued with ⟨rfl, -⟩ | ⟨f, rfl, hid, -⟩
      · simp only [List.foldl_cons, List.foldl_nil, CreditEvent.since, if_neg (Ne.symm hsame)]
        exact hlimit
      · simp only [List.foldl_cons, List.foldl_nil, CreditEvent.since, if_neg (Ne.symm hsame),
          hid, if_neg hother]
        exact hlimit

/-- A call that returns no data is not logged. -/
private theorem creditBy_nil {a : Action} (hnone : (e.readsBy a).countP (fun x => x.2.isData) = 0) :
    e.creditBy a = [] := by
  cases a with
  | call op =>
      cases op with
      | tryRead r size =>
          simp only [creditBy, Conn.creditBy]
          split
          · rename_i p hdata
            simp [readsBy, Conn.readsBy, hdata, ReadResult.isData] at hnone
          · rfl
      | _ => rfl
  | _ => rfl

variable [GoAppend]

/-- A step that returns no data leaves the limits. -/
private theorem Lagging.still (h : e.Lagging log) {heard : Parsed → Prop}
    (hunique : ∀ i < e'.conn.count, ∀ j < e'.conn.count,
      (e'.conn.heap i).id = (e'.conn.heap j).id → i = j)
    (hsince : Conn.Since heard t e.conn t' e'.conn) (hreads : t'.dataReads = t.dataReads) :
    e'.Lagging log := by
  have hext := hsince.later
  refine ⟨fun ev hev => (h.known ev hev).later hext, fun r hr hcan => ?_⟩
  rw [hext.config]
  rcases (Conn.Since.credit hsince).2 hreads r hr hcan with
    ⟨hold, hmax, hread⟩ | ⟨hnew, hmax, hread⟩
  · have hkeeps := hext.streams r hold
    rw [hmax, hread, hkeeps.id]
    exact h.limit r hold (hkeeps.canRecv.symm.trans hcan)
  · have hother (i : Ref) (hi : i < e.conn.count) :
        (e.conn.heap i).id ≠ (e'.conn.heap r).id := by
      intro hid
      rw [← (hext.streams i hi).id] at hid
      obtain rfl := hunique i (hi.trans_le hext.count) r hr hid
      exact absurd hi (Nat.not_lt.mpr hnew)
    rw [Conn.readSince_unknown h.known hnew hother, hmax, hread, Nat.add_zero, Nat.zero_add]

/-- In every run the limits lag behind the reads by what was read since they were raised. -/
private theorem lagging {config : Config} {isServer : Bool} {labels : List Action}
    (hvalid : config.Valid)
    (hrun : Machine.run (Machine.watch step creditBy) (new config isServer, []) labels =
      some (e, log)) : e.Lagging log := by
  refine (Machine.trace_invariant (P := fun labels (s : Endpoint × List CreditEvent) =>
    (∃ t₀ c₀ t, Traced config isServer t₀ c₀ (labels.flatMap heardBy) t s.1) ∧ s.1.Lagging s.2)
    ⟨⟨_, _, _, .start config isServer⟩, by simp, fun r hr => absurd hr (Nat.not_lt_zero r)⟩ ?_
    labels (e, log) hrun).2
  rintro labels ⟨e, log⟩ a ⟨e', log'⟩ ⟨⟨t₀, c₀, t, htraced⟩, hlagging⟩ hstep
  obtain ⟨hstep, rfl⟩ := Machine.watch_step hstep
  dsimp only at htraced hlagging hstep ⊢
  obtain ⟨more, hnext, hreads, -⟩ := htraced.restart.step hvalid.recordSize_le hstep
  refine ⟨⟨_, _, _, by simpa using hnext⟩, ?_⟩
  have hsince := hnext.past.since
  by_cases hnone : (e.readsBy a).countP (fun x => x.2.isData) = 0
  · rw [creditBy_nil hnone, List.append_nil]
    refine hlagging.still (Conn.History.ordered hvalid hnext.past.history).sound.named.unique
      hsince ?_
    change (t.reads ++ more.reads).countP _ = _
    rw [List.countP_append, hreads, hnone]
    rfl
  · cases a with
    | call op =>
        cases op with
        | tryRead r size =>
            cases hresult : (e.conn.tryRead r size).2 with
            | data p =>
                obtain ⟨c, hcall, rfl⟩ := Option.map_eq_some_iff.mp hstep
                obtain ⟨hholds, ⟨⟩⟩ := Option.ite_none_right_eq_some.mp hcall
                have hr := (Conn.holdsRecv_iff.mp hholds).1
                have hhistory := htraced.past.history
                have hwindow := (Conn.History.config hhistory).1
                have hsound := Conn.History.streams_sound hvalid hhistory r hr
                obtain ⟨queued, hcredit, hreads⟩ := Conn.tryRead_credit (hwindow ▸ hsound)
                  (hwindow ▸ hvalid.streamWindow_le) hresult
                change Lagging _ (log ++ e.conn.creditBy (.tryRead r size))
                rw [hcredit]
                exact hlagging.read hr (Conn.History.ordered hvalid hhistory).sound.named.unique
                  hsince.later hreads
            | _ => simp [readsBy, Conn.readsBy, hresult, ReadResult.isData] at hnone
        | _ => exact absurd rfl hnone
    | _ => exact absurd rfl hnone

/-- In every run the peer may send what a peek waits for exactly if the peek asks for no
more than a window less what was read of the stream since its limit was last raised. A
peek of up to half a window never waits for more than the peer may send. -/
theorem peek_covered_iff (config : Option Config) (isServer : Bool) {labels : List Action}
    (hrun : Machine.run (Machine.watch step creditBy)
      (new (Config.normalized config) isServer, []) labels = some (e, log))
    (hopen : e.conn.closeErr = none) {r : Ref} (hr : r < e.conn.count)
    (hcan : (e.conn.heap r).canRecv = true) {size : Nat}
    (hwait : ∃ channel deadline, (e.conn.tryPeek r size).2 = .wait channel deadline) :
    ((e.conn.heap r).readOffset + size ≤ (e.conn.heap r).recvMax ↔
      size + readSince r (e.conn.heap r).id log ≤ e.conn.config.streamWindow) ∧
    (size ≤ e.conn.config.streamWindow / 2 →
      (e.conn.heap r).readOffset + size ≤ (e.conn.heap r).recvMax) := by
  have hvalid := Config.normalized_valid config
  have hlimit := (lagging hvalid hrun).limit r hr hcan
  obtain ⟨_, _, t, htraced⟩ := traced hvalid (Machine.run_of_watch hrun)
  have hhistory := htraced.past.history
  have hsound : (e.conn.heap r).Sound e.conn.config.streamWindow := by
    rw [hhistory.config.1]
    exact Conn.History.streams_sound hvalid hhistory r hr
  obtain ⟨-, -, hfin⟩ := (Conn.tryPeek_wait_iff hopen size).mp hwait
  have hhalf := hsound.credited.half hcan hfin
  exact ⟨by omega, by omega⟩

end Endpoint

/-- The peer sends four bytes on a stream, of which some are read. -/
def readOfFour (size : Nat) : List Action :=
  [.record ((Frame.transportParameters {}).append.getD []) 0,
    .record ((Frame.stream ⟨2, 0, [1, 2, 3, 4], false⟩).append.getD []) 0,
    .call (.tryAccept .uni), .call (.tryRead 0 size)]

/-- With a window of four bytes a read of three raises the limit, and a peek of four waits
for what the peer may send. -/
theorem peek_covered_raised :
    ∃ e log, Machine.run (Machine.watch Endpoint.step Endpoint.creditBy)
        (Endpoint.new (Config.normalized (some { initialStreamReceiveWindow := 4 })) true, [])
        (readOfFour 3) = some (e, log) ∧
      log = [.read 0 3, .queued ⟨2, 7⟩] ∧ (e.conn.tryPeek 0 4).2 = .wait 0 none ∧
      (e.conn.heap 0).readOffset + 4 ≤ (e.conn.heap 0).recvMax := by
  have hrun : (Machine.run (Machine.watch Endpoint.step Endpoint.creditBy)
      (Endpoint.new (Config.normalized (some { initialStreamReceiveWindow := 4 })) true, [])
      (readOfFour 3)).map (fun (e, log) => decide (log = [.read 0 3, .queued ⟨2, 7⟩] ∧
        (e.conn.tryPeek 0 4).2 = .wait 0 none ∧ e.conn.closeErr = none ∧ 0 < e.conn.count ∧
        (e.conn.heap 0).canRecv = true ∧
        4 + readSince 0 (e.conn.heap 0).id log ≤ e.conn.config.streamWindow)) = some true := by
    decide +kernel
  obtain ⟨⟨e, log⟩, hrun, hstate⟩ := Option.map_eq_some_iff.mp hrun
  obtain ⟨hlog, hwait, hopen, hr, hcan, hroom⟩ := of_decide_eq_true hstate
  exact ⟨e, log, hrun, hlog, hwait,
    (Endpoint.peek_covered_iff _ true hrun hopen hr hcan ⟨_, _, hwait⟩).1.mpr hroom⟩

/-- A read of two does not raise it: a peek of four is admitted and waits, but the peer
has used up its limit and nothing that would raise it is to be sent. -/
theorem peek_stuck :
    ∃ e : Endpoint, e.Reachable (Config.normalized (some
        { initialStreamReceiveWindow := 4 })) true ∧ e.conn.closeErr = none ∧
      e.conn.holdsRecv 0 = true ∧ 4 ≤ e.conn.config.streamWindow ∧
      (e.conn.tryPeek 0 4).2 = .wait 0 none ∧
      ¬ (e.conn.heap 0).readOffset + 4 ≤ (e.conn.heap 0).recvMax ∧
      (e.conn.heap 0).recvOffset = (e.conn.heap 0).recvMax ∧
      (e.conn.takeControl 0).2 = [] := by
  have hrun : (Machine.run Endpoint.step (Endpoint.new (Config.normalized (some
      { initialStreamReceiveWindow := 4 })) true) (readOfFour 2)).map (fun e =>
        decide (e.conn.closeErr = none ∧ e.conn.holdsRecv 0 = true ∧
          4 ≤ e.conn.config.streamWindow ∧ (e.conn.tryPeek 0 4).2 = .wait 0 none ∧
          ¬ (e.conn.heap 0).readOffset + 4 ≤ (e.conn.heap 0).recvMax ∧
          (e.conn.heap 0).recvOffset = (e.conn.heap 0).recvMax ∧
          (e.conn.takeControl 0).2 = [])) = some true := by
    decide +kernel
  obtain ⟨e, hrun, hstate⟩ := Option.map_eq_some_iff.mp hrun
  exact ⟨e, ⟨_, hrun⟩, of_decide_eq_true hstate⟩

end Qmux
