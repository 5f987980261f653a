import Qmux.Conn.Signals
import Qmux.Lib.Heap
import Qmux.Lib.Probe
import Qmux.Wire.Bounds

/-!
What a critical section can do. Every call, every frame of a record and every
critical section of a writer is a chain of the moves below, with the guards
the code has checked; the invariants of a connection are proved of the moves.
A move also says what crosses the border of the connection: the frames of the
peer it took, the frames it hands to the holder of `writeMu`, and what it
returns to a reader. So a history of moves comes with the log of its traffic,
in order.

The moves know the frames the peer has sent by a predicate, `heard`. A call or
a writer makes its move whatever was heard.
-/

namespace Qmux

open Wire

/-- The stream a frame is about. -/
def Wire.Parsed.stream? : Parsed → Option Nat
  | .frame (.stream f) => some f.streamID
  | .frame (.resetStream f) => some f.streamID
  | .frame (.stopSending f) => some f.streamID
  | .frame (.maxStreamData f) => some f.streamID
  | _ => none

/-- The stream without what only wakes, delays or orders its callers. -/
def Stream.core (s : Stream) : Stream :=
  { s with
    readDeadline := none
    readSignal := {}
    urgency := 0
    incremental := false
    writeDeadline := none
    writeSignal := {} }

/-- The stream once `n` bytes of it were copied out and accounted for. -/
def Stream.copyOut (s : Stream) (n window : Nat) : Stream :=
  let s := s.advance n
  let s := { s with readOffset := Word.add s.readOffset n }
  if s.lowCredit window then { s with recvMax := Word.add s.readOffset window } else s

/-- The limit that a read raises, if it is time to. -/
def Stream.copyOutGrant (s : Stream) (n window : Nat) : List Frame :=
  let s := { s with readOffset := Word.add s.readOffset n }
  if s.lowCredit window then [.maxStreamData ⟨s.id, Word.add s.readOffset window⟩] else []

/-- The stream once its sending side was reset. -/
def Stream.resetSend (s : Stream) (reason : StreamError) : Stream :=
  { s with sendErr := some reason, writeSignal := s.writeSignal.broadcast }

/-- The stream once its sending side has ended. -/
def Stream.endSend (s : Stream) : Stream :=
  { s with finSent := true, writeSignal := s.writeSignal.broadcast }

/-- What the keep-alive is about: a QX_PING request is handed out, or a response
is processed. -/
abbrev PingEvent := Probe.Event Time

/-- What crosses the border of a connection: the frames of the peer it
accepted, the frames it handed to the holder of `writeMu`, the results of
`tryRead`, the pings in the order of both, and whether the write loop took its
token. -/
structure Traffic where
  took : List Parsed := []
  handed : List Frame := []
  reads : List (Ref × ReadResult) := []
  pings : List PingEvent := []
  woken : Bool := false

namespace Traffic

instance : Append Traffic where
  append first second :=
    ⟨first.took ++ second.took, first.handed ++ second.handed, first.reads ++ second.reads,
      first.pings ++ second.pings, first.woken || second.woken⟩

@[simp] theorem append_took (first second : Traffic) :
    (first ++ second).took = first.took ++ second.took := rfl

@[simp] theorem append_handed (first second : Traffic) :
    (first ++ second).handed = first.handed ++ second.handed := rfl

@[simp] theorem append_reads (first second : Traffic) :
    (first ++ second).reads = first.reads ++ second.reads := rfl

@[simp] theorem append_pings (first second : Traffic) :
    (first ++ second).pings = first.pings ++ second.pings := rfl

@[simp] theorem append_woken (first second : Traffic) :
    (first ++ second).woken = (first.woken || second.woken) := rfl

theorem append_empty (t : Traffic) : t ++ {} = t := by
  change Traffic.mk _ _ _ _ _ = t
  simp only [List.append_nil, Bool.or_false]

theorem append_assoc (first second third : Traffic) :
    first ++ second ++ third = first ++ (second ++ third) := by
  change Traffic.mk _ _ _ _ _ = Traffic.mk _ _ _ _ _
  simp only [append_took, append_handed, append_reads, append_pings, append_woken,
    List.append_assoc, Bool.or_assoc]

end Traffic

namespace Conn

/-- The connection without what only wakes, delays or orders its callers, and
without the datagrams received and the round trip times. -/
def core (c : Conn) : Conn :=
  { c with
    heap := fun r => (c.heap r).core
    out := fun dir => { c.out dir with signal := {} }
    incoming := fun dir => { c.incoming dir with signal := {} }
    sendSignal := {}
    pingPending := false
    controlWake := false
    pingSentAt := 0
    rtt := {}
    datagrams := [] }

theorem core_setStream (c : Conn) {r : Ref} {s : Stream}
    (hcore : s.core = (c.heap r).core) : (c.setStream r s).core = c.core :=
  congrArg (fun heap => { c.core with heap := heap })
    (Heap.map_update_of_eq Stream.core c.heap r s hcore)

theorem core_setOut (c : Conn) (dir : Dir) (signal : Signal) :
    (c.setOut dir { c.out dir with signal := signal }).core = c.core :=
  congrArg (fun out => { c.core with out := out })
    (Heap.map_update_of_eq (fun o => { o with signal := {} }) c.out dir
      { c.out dir with signal := signal } rfl)

theorem core_setIncoming (c : Conn) (dir : Dir) (signal : Signal) :
    (c.setIncoming dir { c.incoming dir with signal := signal }).core = c.core :=
  congrArg (fun incoming => { c.core with incoming := incoming })
    (Heap.map_update_of_eq (fun i => { i with signal := {} }) c.incoming dir
      { c.incoming dir with signal := signal } rfl)

section Quiet

variable (c : Conn)

private theorem tryPeek_quiet (r : Ref) (size : Nat) :
    (c.tryPeek r size).1.core = c.core ∧ c.Calm (c.tryPeek r size).1 := by
  unfold tryPeek
  dsimp only
  split
  · exact ⟨rfl, .refl c⟩
  · exact ⟨rfl, .refl c⟩
  · split_ifs
    · exact ⟨rfl, .refl c⟩
    · exact ⟨rfl, .refl c⟩
    · exact ⟨c.core_setStream rfl,
        .setStream c ⟨Or.inl ⟨Signal.kept_wait _, rfl⟩, Or.inl ⟨.refl _, rfl⟩⟩⟩

private theorem trySend_quiet (r : Ref) (now : Time) :
    (c.trySend r now).1.core = c.core ∧ c.Calm (c.trySend r now).1 := by
  unfold trySend
  dsimp only
  split
  · exact ⟨rfl, .refl c⟩
  · split_ifs
    · exact ⟨rfl, .refl c⟩
    · exact ⟨rfl, .refl c⟩
    · have hcalm : c.Calm (c.setStream r
          { c.heap r with writeSignal := (c.heap r).writeSignal.wait.1 }) :=
        .setStream c ⟨Or.inl ⟨.refl _, rfl⟩, Or.inl ⟨Signal.kept_wait _, rfl⟩⟩
      exact ⟨c.core_setStream rfl, { hcalm with send := Signal.kept_wait _ }⟩

private theorem requestPing_quiet (now : Time) :
    (c.requestPing now).1.core = c.core ∧ c.Calm (c.requestPing now).1 := by
  unfold requestPing
  split_ifs
  · exact ⟨rfl, .refl c⟩
  · exact ⟨rfl, { Calm.refl c with token := fun _ => rfl, ping := fun _ => Or.inr rfl }⟩

private theorem receiveDatagram_quiet :
    (c.receiveDatagram).1.core = c.core ∧ c.Calm (c.receiveDatagram).1 := by
  unfold receiveDatagram
  split
  · exact ⟨rfl, .refl c⟩
  · exact ⟨rfl, { Calm.refl c with }⟩

end Quiet

/-- The stream was opened, by either side. -/
def HasOpened (c : Conn) (id : Nat) : Prop :=
  if c.initiatedLocally id then id >>> 2 < (c.out (streamDir id)).next
  else id >>> 2 < (c.incoming (streamDir id)).next

/-- The connection may take the frame without a change: it says nothing new,
or nothing that the connection keeps. -/
def Passes (c : Conn) : Parsed → Prop
  | .frame (.stream f) => c.HasOpened f.streamID ∧
      ¬ (streamDir f.streamID = .uni ∧ c.initiatedLocally f.streamID = true) ∧
      ∀ r, c.streams f.streamID = some r → f.offset = (c.heap r).recvOffset ∧ f.data = [] ∧
        ((c.heap r).finRecv = true ∨ (c.heap r).recvReset = true) ∧
        (f.fin = true → (c.heap r).finRecv = true)
  | .frame (.resetStream f) => c.HasOpened f.streamID ∧
      ¬ (streamDir f.streamID = .uni ∧ c.initiatedLocally f.streamID = true) ∧
      ∀ r, c.streams f.streamID = some r →
        (c.heap r).recvReset = true ∧ f.finalSize = (c.heap r).recvOffset
  | .frame (.ping _) => False
  | .frame (.transportParameters _) => False
  | .frame (.connectionClose _) => False
  | _ => True

/-- What a read that copies nothing returns. -/
def Answers (c : Conn) (r : Ref) : ReadResult → Prop
  | .closed e => c.closeErr = some e
  | .reset e => c.closeErr = none ∧ (c.heap r).recvErr = some e
  | .data _ => False
  | .eof p => c.closeErr = none ∧ (c.heap r).recvErr = none ∧ p = [] ∧
      (c.heap r).rbuf.data.length ≤ (c.heap r).roff ∧ (c.heap r).finRecv = true
  | .wait _ _ => c.closeErr = none ∧ (c.heap r).recvErr = none ∧
      (c.heap r).rbuf.data.length ≤ (c.heap r).roff ∧ (c.heap r).finRecv = false

/-- The request that a flush sends. -/
def askedBy (c : Conn) (now : Time) : List PingEvent :=
  if c.closeErr.isSome then [] else if c.pingPending then [.asked c.nextPing now] else []

variable [Quicvarint] [GoAppend]

/-- What a critical section does to the stream `r`: its traffic, the new state
of the stream, the frames it queues and the connection it leaves to
`completeLocked`. -/
inductive Act (heard : Parsed → Prop) (c : Conn) (r : Ref) :
    Traffic → Stream → List Frame → Conn → Prop where
  | data {f : Wire.Stream} (hready : c.ready = true) (hheard : heard (.frame (.stream f)))
      (hbound : (Frame.stream f).Bounded maxVarint)
      (hdir : ¬ (streamDir f.streamID = .uni ∧ c.initiatedLocally f.streamID = true))
      (htable : c.streams f.streamID = some r)
      (hoffset : f.offset = (c.heap r).recvOffset)
      (hfin : (c.heap r).finRecv = false) (hreset : (c.heap r).recvReset = false)
      (hmax : Word.add (c.heap r).recvOffset f.data.length ≤ (c.heap r).recvMax)
      (hconn : Word.add c.received f.data.length ≤ c.recvMax) :
      Act heard c r { took := [.frame (.stream f)] } ((c.heap r).takeData f) []
        ({ c with received := Word.add c.received f.data.length }.takeData r f)
  | reset {f : ResetStream} (hready : c.ready = true)
      (hheard : heard (.frame (.resetStream f)))
      (hbound : (Frame.resetStream f).Bounded maxVarint)
      (hdir : ¬ (streamDir f.streamID = .uni ∧ c.initiatedLocally f.streamID = true))
      (htable : c.streams f.streamID = some r)
      (hle : (c.heap r).recvOffset ≤ f.finalSize)
      (hfin : (c.heap r).finRecv = true → f.finalSize = (c.heap r).recvOffset)
      (hreset : (c.heap r).recvReset = false) (hmax : f.finalSize ≤ (c.heap r).recvMax)
      (hconn : Word.add c.received (Word.sub f.finalSize (c.heap r).recvOffset) ≤ c.recvMax) :
      Act heard c r { took := [.frame (.resetStream f)] } ((c.heap r).takeReset f) []
        ({ c with
            received := Word.add c.received (Word.sub f.finalSize (c.heap r).recvOffset)
          }.takeReset r f)
  | resetSend {t : Traffic} {reason : StreamError}
      (hcause : (c.holdsSend r = true ∧ t = {}) ∨
        ∃ f, c.ready = true ∧ heard (.frame (.stopSending f)) ∧
          c.streams f.streamID = some r ∧ t = { took := [.frame (.stopSending f)] })
      (hsend : (c.heap r).sendDone = false) :
      Act heard c r t ((c.heap r).resetSend reason)
        [.resetStream ⟨(c.heap r).id, reason.code, (c.heap r).sendOffset⟩]
        ((c.setStream r ((c.heap r).resetSend reason)).queueLocked
          (.resetStream ⟨(c.heap r).id, reason.code, (c.heap r).sendOffset⟩))
  | read {n : Nat} (hholds : c.holdsRecv r = true) (herr : (c.heap r).recvErr = none)
      (hunread : (c.heap r).roff < (c.heap r).rbuf.data.length)
      (hn : (c.heap r).roff + n ≤ (c.heap r).rbuf.data.length) :
      Act heard c r { reads := [(r, .data ((c.heap r).unread.take n))] }
        ((c.heap r).copyOut n c.config.streamWindow)
        ((c.heap r).copyOutGrant n c.config.streamWindow)
        ((c.setStream r ((c.heap r).advance n)).readLocked r n)
  | cancel {code : Nat} (hholds : c.holdsRecv r = true) (herr : (c.heap r).recvErr = none)
      (hdone : (c.heap r).recvDone = false) :
      Act heard c r {} ((c.heap r).cancelRead code)
        (if (c.heap r).finRecv then [] else [.stopSending ⟨(c.heap r).id, code⟩])
        (if (c.heap r).finRecv then
          (c.consumeLocked ((c.heap r).rbuf.data.length - (c.heap r).roff)).setStream r
            ((c.heap r).cancelRead code)
        else
          ((c.consumeLocked ((c.heap r).rbuf.data.length - (c.heap r).roff)).setStream r
            ((c.heap r).cancelRead code)).queueLocked (.stopSending ⟨(c.heap r).id, code⟩))
  | finish (hholds : c.holdsSend r = true) (herr : (c.heap r).sendErr = none)
      (hfin : (c.heap r).finSent = false) :
      Act heard c r { handed := [.stream ⟨(c.heap r).id, (c.heap r).sendOffset, [], true⟩] }
        (c.heap r).endSend [] (c.setStream r (c.heap r).endSend)

/-- What one critical section, or one frame of a record, does to the
connection, with its traffic. -/
inductive Move (heard : Parsed → Prop) (c : Conn) : Traffic → Conn → Prop where
  | still {t : Traffic} {c' : Conn}
      (htook : ∀ f ∈ t.took, heard f ∧ c.ready = true ∧ c.Passes f)
      (hhanded : t.handed = []) (hpings : t.pings = [])
      (hreads : ∀ r result, (r, result) ∈ t.reads →
        c.holdsRecv r = true ∧ c.Answers r result)
      (hcore : c'.core = c.core) (hcalm : c.Calm c') : Move heard c t c'
  | act {r : Ref} {t : Traffic} {s : Stream} {frames : List Frame} {d : Conn}
      (hopen : c.closeErr = none) (hact : Act heard c r t s frames d) :
      Move heard c t (d.completeLocked r)
  | parameters {p : Parameters} (hopen : c.closeErr = none) (hready : c.ready = false)
      (hheard : heard (.frame (.transportParameters p))) (hbound : p.Bounded) :
      Move heard c { took := [.frame (.transportParameters p)] } (c.handleParametersLocked p)
  | openIncoming {f : Parsed} {id : Nat} (hopen : c.closeErr = none)
      (hready : c.ready = true) (hheard : heard f) (hstream : f.stream? = some id)
      (hbound : id ≤ maxVarint) (hpeer : c.initiatedLocally id = false)
      (hnext : (c.incoming (streamDir id)).next ≤ id >>> 2)
      (hmax : id >>> 2 < (c.incoming (streamDir id)).max) :
      Move heard c {} (c.openIncoming (streamDir id))
  | openLocal {dir : Dir} (hopen : c.closeErr = none)
      (hmax : (c.out dir).next < (c.out dir).max) :
      Move heard c {} (c.openLocal dir)
  | accept {dir : Dir} {r : Ref} {rest : List Ref} (hopen : c.closeErr = none)
      (hqueue : (c.incoming dir).queue = r :: rest) :
      Move heard c {} (c.acceptNext dir r rest)
  | raiseStream {r : Ref} {f : MaxStreamData} (hopen : c.closeErr = none)
      (hready : c.ready = true) (hheard : heard (.frame (.maxStreamData f)))
      (hbound : (Frame.maxStreamData f).Bounded maxVarint)
      (htable : c.streams f.streamID = some r) (hlt : (c.heap r).sendMax < f.max) :
      Move heard c { took := [.frame (.maxStreamData f)] } (c.raiseStream r f.max)
  | raiseData {f : MaxData} (hopen : c.closeErr = none)
      (hheard : heard (.frame (.maxData f))) (hbound : f.max ≤ maxVarint)
      (hready : c.ready = true) (hlt : c.sendMax < f.max) :
      Move heard c { took := [.frame (.maxData f)] }
        { c with sendMax := f.max, sendSignal := c.sendSignal.broadcast }
  | raiseStreams {f : MaxStreams} (hopen : c.closeErr = none)
      (hheard : heard (.frame (.maxStreams f))) (hbound : f.max ≤ maxStreams)
      (hready : c.ready = true) :
      Move heard c { took := [.frame (.maxStreams f)] } (c.handleMaxStreams f)
  | pinged {f : Ping} (hopen : c.closeErr = none) (hready : c.ready = true)
      (hheard : heard (.frame (.ping f))) (hrequest : f.response = false)
      (hsequence : ¬ (c.peerPinged = true ∧ f.sequence ≤ c.peerPingLast)) :
      Move heard c { took := [.frame (.ping f)] } (c.pinged f.sequence)
  | pong {f : Ping} (now : Time) (rtt : RTTStats) (hready : c.ready = true)
      (hheard : heard (.frame (.ping f))) (hresponse : f.response = true)
      (hlt : f.sequence < c.nextPing) :
      Move heard c { took := [.frame (.ping f)], pings := [.answered f.sequence now] }
        { c with
          rtt := rtt
          pingUnanswered := c.pingUnanswered && decide (f.sequence + 1 ≠ c.nextPing) }
  | reserve {r : Ref} {p : Bytes} {n : Nat} (hopen : c.closeErr = none)
      (hholds : c.holdsSend r = true) (herr : (c.heap r).sendErr = none)
      (hfin : (c.heap r).finSent = false) (hcredit : n ≤ c.sendCreditLocked (c.heap r))
      (hlen : n ≤ p.length) (hchunk : n ≤ maxStreamData) :
      Move heard c
        { handed := if n = 0 then []
            else [.stream ⟨(c.heap r).id, (c.heap r).sendOffset, p.take n, false⟩] }
        (c.spend r n)
  | flush {now : Time} (hopen : c.closeErr = none) (hping : c.nextPing ≤ 2 ^ 62) :
      Move heard c { handed := c.controlFrames, pings := c.askedBy now } (c.flushed now)
  | datagram {p : Bytes} (hopen : c.closeErr = none)
      (hlimit : c.datagramLimit ≠ 0) (hlen : Datagram.len ⟨p⟩ ≤ c.datagramLimit) :
      Move heard c { handed := [.datagram ⟨p⟩] } c
  | close {f : ConnectionClose} (hclosed : c.closeErr.isSome = true) :
      Move heard c { handed := [.connectionClose f] } c
  | woken : Move heard c { woken := true } { c with controlWake := false }

namespace Move

variable {heard : Parsed → Prop} {c c' : Conn}

theorem quiet (hcore : c'.core = c.core) (hcalm : c.Calm c') : Move heard c {} c' :=
  .still (fun _ hf => by cases hf) rfl rfl (fun _ _ h => by cases h) hcore hcalm

theorem refl (c : Conn) : Move heard c {} c :=
  .quiet rfl (.refl c)

theorem pass {f : Parsed} (hready : c.ready = true) (hheard : heard f)
    (hpasses : c.Passes f) (hcore : c'.core = c.core) (hcalm : c.Calm c') :
    Move heard c { took := [f] } c' := by
  refine .still (fun g hg => ?_) rfl rfl (fun _ _ h => by cases h) hcore hcalm
  rw [List.mem_singleton.mp hg]
  exact ⟨hheard, hready, hpasses⟩

theorem answer {r : Ref} {result : ReadResult} (hholds : c.holdsRecv r = true)
    (hanswers : c.Answers r result) (hcore : c'.core = c.core) (hcalm : c.Calm c') :
    Move heard c { reads := [(r, result)] } c' := by
  refine .still (fun _ hf => by cases hf) rfl rfl (fun i a h => ?_) hcore hcalm
  obtain ⟨rfl, rfl⟩ := Prod.mk.inj (List.mem_singleton.mp h)
  exact ⟨hholds, hanswers⟩

end Move

/-- A chain of moves, with its traffic. -/
inductive Moves (heard : Parsed → Prop) (c : Conn) : Traffic → Conn → Prop where
  | refl : Moves heard c {} c
  | tail {t t' : Traffic} {c' c'' : Conn} (hmoves : Moves heard c t c')
      (hmove : Move heard c' t' c'') : Moves heard c (t ++ t') c''

/-- The states that moves and the end of the connection lead to from `c₀`,
with the traffic since then after the traffic `t₀`. -/
inductive Since (heard : Parsed → Prop) (t₀ : Traffic) (c₀ : Conn) : Traffic → Conn → Prop where
  | start : Since heard t₀ c₀ t₀ c₀
  | move {t t' : Traffic} {c c' : Conn} (hsince : Since heard t₀ c₀ t c)
      (hmove : Move heard c t' c') : Since heard t₀ c₀ (t ++ t') c'
  | terminate {t : Traffic} {c : Conn} (err : ConnError) (hsince : Since heard t₀ c₀ t c) :
      Since heard t₀ c₀ t (c.terminate err).1

/-- The states a connection can be in, with its traffic so far. The transport
parameters are handed out before the first move. -/
abbrev History (config : Config) (isServer : Bool) (heard : Parsed → Prop) :
    Traffic → Conn → Prop :=
  Since heard { handed := [.transportParameters (Conn.new config isServer).localParameters] }
    (Conn.new config isServer)

theorem Moves.single {heard : Parsed → Prop} {c c' : Conn} {t : Traffic}
    (hmove : Move heard c t c') : Moves heard c t c' :=
  Moves.refl.tail hmove

theorem Moves.trans {heard : Parsed → Prop} {c c' c'' : Conn} {t t' : Traffic}
    (hfirst : Moves heard c t c') (hsecond : Moves heard c' t' c'') :
    Moves heard c (t ++ t') c'' := by
  induction hsecond with
  | refl => exact (Traffic.append_empty t).symm ▸ hfirst
  | tail _ hmove ih => exact Traffic.append_assoc .. ▸ ih.tail hmove

section Mono

variable {heard heard' : Parsed → Prop} (hsub : ∀ f, heard f → heard' f)
include hsub

omit [Quicvarint] in
theorem Act.mono {c d : Conn} {r : Ref} {t : Traffic} {s : Stream} {frames : List Frame}
    (hact : Act heard c r t s frames d) : Act heard' c r t s frames d := by
  cases hact with
  | data hready hheard hbound hdir htable hoffset hfin hreset hmax hconn =>
      exact .data hready (hsub _ hheard) hbound hdir htable hoffset hfin hreset hmax hconn
  | reset hready hheard hbound hdir htable hle hfin hreset hmax hconn =>
      exact .reset hready (hsub _ hheard) hbound hdir htable hle hfin hreset hmax hconn
  | resetSend hcause hsend =>
      exact .resetSend (hcause.imp_right
        (fun ⟨f, hready, hheard, h⟩ => ⟨f, hready, hsub _ hheard, h⟩)) hsend
  | read hholds herr hunread hn => exact .read hholds herr hunread hn
  | cancel hholds herr hdone => exact .cancel hholds herr hdone
  | finish hholds herr hfin => exact .finish hholds herr hfin

theorem Move.mono {c c' : Conn} {t : Traffic} (hmove : Move heard c t c') :
    Move heard' c t c' := by
  cases hmove with
  | still htook hhanded hpings hreads hcore hcalm =>
      exact .still (fun f hf => ⟨hsub _ (htook f hf).1, (htook f hf).2⟩) hhanded hpings hreads
        hcore hcalm
  | act hopen hact => exact .act hopen (hact.mono hsub)
  | parameters hopen hready hheard => exact .parameters hopen hready (hsub _ hheard) ‹_›
  | openIncoming hopen hready hheard hstream =>
      exact .openIncoming hopen hready (hsub _ hheard) hstream ‹_› ‹_› ‹_› ‹_›
  | openLocal => exact .openLocal ‹_› ‹_›
  | accept => exact .accept ‹_› ‹_›
  | raiseStream hopen hready hheard =>
      exact .raiseStream hopen hready (hsub _ hheard) ‹_› ‹_› ‹_›
  | raiseData hopen hheard => exact .raiseData hopen (hsub _ hheard) ‹_› ‹_› ‹_›
  | raiseStreams hopen hheard => exact .raiseStreams hopen (hsub _ hheard) ‹_› ‹_›
  | pinged hopen hready hheard => exact .pinged hopen hready (hsub _ hheard) ‹_› ‹_›
  | pong now rtt hready hheard => exact .pong now rtt hready (hsub _ hheard) ‹_› ‹_›
  | reserve hopen hholds herr hfin hcredit hlen hchunk =>
      exact .reserve hopen hholds herr hfin hcredit hlen hchunk
  | flush hopen hping => exact .flush hopen hping
  | datagram hopen hlimit hlen => exact .datagram hopen hlimit hlen
  | close hclosed => exact .close hclosed
  | woken => exact .woken

theorem Since.mono {t₀ t : Traffic} {c₀ c : Conn} (hsince : Since heard t₀ c₀ t c) :
    Since heard' t₀ c₀ t c := by
  induction hsince with
  | start => exact .start
  | move _ hmove ih => exact .move ih (hmove.mono hsub)
  | terminate err _ ih => exact .terminate err ih

end Mono

/-- What a call returns to a reader. -/
def readsBy (c : Conn) : Call → List (Ref × ReadResult)
  | .tryRead r size => [(r, (c.tryRead r size).2)]
  | _ => []

section Calls

variable {heard : Parsed → Prop} (c : Conn)

private theorem tryOpen_move (dir : Dir) : Move heard c {} (c.tryOpen dir).1 := by
  unfold tryOpen
  cases hopen : c.closeErr with
  | some e => exact .refl c
  | none =>
      dsimp only
      split_ifs with hmax
      · exact .quiet (core_setOut c dir _) (.setOut c (Signal.kept_wait _))
      · exact .openLocal hopen (by omega)

private theorem tryAccept_move (dir : Dir) : Move heard c {} (c.tryAccept dir).1 := by
  unfold tryAccept
  cases hopen : c.closeErr with
  | some e => exact .refl c
  | none =>
      dsimp only
      split
      · exact .quiet (core_setIncoming c dir _) (.setIncoming c (Signal.kept_wait _))
      · rename_i r rest hqueue
        exact .accept hopen hqueue

private theorem tryRead_move {r : Ref} (hholds : c.holdsRecv r = true) (size : Nat) :
    Move heard c { reads := [(r, (c.tryRead r size).2)] } (c.tryRead r size).1 := by
  unfold tryRead
  dsimp only
  split
  · rename_i e hclosed
    exact .answer hholds hclosed rfl (.refl c)
  · rename_i e hopen herr
    exact .answer hholds ⟨hopen, herr⟩ rfl (.refl c)
  · rename_i hopen herr
    split_ifs with hunread hfin
    · have hmin : (c.heap r).unread.take size =
          (c.heap r).unread.take ((c.heap r).unread.take size).length := by
        rw [List.length_take, List.take_eq_take_iff]
        omega
      have hn : (c.heap r).roff + ((c.heap r).unread.take size).length ≤
          (c.heap r).rbuf.data.length := by
        simp only [Stream.unread, List.length_take, List.length_drop]
        omega
      dsimp only
      nth_rewrite 1 [hmin]
      exact .act hopen (.read hholds herr hunread hn)
    · exact .answer hholds ⟨hopen, herr, rfl, Nat.le_of_not_lt hunread, hfin⟩ rfl (.refl c)
    · exact .answer hholds ⟨hopen, herr, Nat.le_of_not_lt hunread, by simpa using hfin⟩
        (c.core_setStream rfl)
        (.setStream c ⟨Or.inl ⟨Signal.kept_wait _, rfl⟩, Or.inl ⟨.refl _, rfl⟩⟩)

private theorem cancelRead_move {r : Ref} (hholds : c.holdsRecv r = true) (code : Nat) :
    Move heard c {} (c.cancelRead r code) := by
  unfold cancelRead
  dsimp only
  split_ifs with hdone
  · exact .refl c
  · simp only [Bool.or_eq_true, not_or, Bool.not_eq_true, Option.isSome_eq_false_iff,
      Option.isNone_iff_eq_none] at hdone
    have hact : Act heard c r {} ((c.heap r).cancelRead code) _ _ :=
      .cancel hholds hdone.1.2 hdone.2
    exact .act hdone.1.1 hact

private theorem cancelWrite_move {r : Ref} (hholds : c.holdsSend r = true) (code : Nat) :
    Move heard c {} (c.cancelWrite r code) := by
  unfold cancelWrite
  split_ifs with hclosed
  · exact .refl c
  · cases hsend : (c.heap r).sendDone with
    | false =>
        simp only [resetSendLocked, hsend, Bool.false_eq_true, if_false]
        exact .act (by simpa using hclosed) (.resetSend (Or.inl ⟨hholds, rfl⟩) hsend)
    | true =>
        simp only [resetSendLocked, hsend, if_true]
        exact .refl c

/-- Every call of the application is one move. -/
theorem call_move {c' : Conn} {op : Call} (hcall : c.call op = some c') :
    Move heard c { reads := c.readsBy op } c' := by
  cases op with
  | tryOpen dir =>
      obtain rfl : (c.tryOpen dir).1 = c' := Option.some.inj hcall
      exact c.tryOpen_move dir
  | tryAccept dir =>
      obtain rfl : (c.tryAccept dir).1 = c' := Option.some.inj hcall
      exact c.tryAccept_move dir
  | tryRead r size =>
      obtain ⟨hholds, ⟨⟩⟩ := Option.ite_none_right_eq_some.mp hcall
      exact c.tryRead_move hholds size
  | tryPeek r size =>
      obtain ⟨-, ⟨⟩⟩ := Option.ite_none_right_eq_some.mp hcall
      exact .quiet (c.tryPeek_quiet r size).1 (c.tryPeek_quiet r size).2
  | cancelRead r code =>
      obtain ⟨hholds, ⟨⟩⟩ := Option.ite_none_right_eq_some.mp hcall
      exact c.cancelRead_move hholds code
  | cancelWrite r code =>
      obtain ⟨hholds, ⟨⟩⟩ := Option.ite_none_right_eq_some.mp hcall
      exact c.cancelWrite_move hholds code
  | trySend r now =>
      obtain ⟨-, ⟨⟩⟩ := Option.ite_none_right_eq_some.mp hcall
      exact .quiet (c.trySend_quiet r now).1 (c.trySend_quiet r now).2
  | setPriority r urgency incremental =>
      obtain ⟨-, ⟨⟩⟩ := Option.ite_none_right_eq_some.mp hcall
      exact .quiet (c.core_setStream rfl)
        (.setStream c ⟨Or.inl ⟨.refl _, rfl⟩, Or.inl ⟨.refl _, rfl⟩⟩)
  | setReadDeadline r t =>
      obtain ⟨-, ⟨⟩⟩ := Option.ite_none_right_eq_some.mp hcall
      exact .quiet (c.core_setStream rfl) (.setStream c ⟨Or.inr rfl, Or.inl ⟨.refl _, rfl⟩⟩)
  | setWriteDeadline r t =>
      obtain ⟨-, ⟨⟩⟩ := Option.ite_none_right_eq_some.mp hcall
      exact .quiet (c.core_setStream rfl) (.setStream c ⟨Or.inl ⟨.refl _, rfl⟩, Or.inr rfl⟩)
  | requestPing now =>
      obtain rfl : (c.requestPing now).1 = c' := Option.some.inj hcall
      exact .quiet (c.requestPing_quiet now).1 (c.requestPing_quiet now).2
  | receiveDatagram =>
      obtain rfl : (c.receiveDatagram).1 = c' := Option.some.inj hcall
      exact .quiet c.receiveDatagram_quiet.1 c.receiveDatagram_quiet.2

end Calls

end Conn

end Qmux
