import Qmux.Conn.Signals
import Qmux.System.Basic
import Qmux.Write.Reserved

/-!
The calls of `Write`. A call goes round a loop: it waits until its stream has
credit, takes `writeMu`, reserves credit for the start of what it has left to
write, and writes that as one record. Any number of calls go round at once, on
the same stream or on others.

Two endpoints whose stream writers are such calls are `Peers`. Every step of
theirs is a step of the system of the two endpoints, or a step of a call that
does not touch its endpoint.
-/

namespace Qmux

open Wire

/-- What `write` returns as its error. -/
inductive WriteError where
  | send (e : SendError)
  | deadlineExceeded
  /-- `context.Cause` after a failed write. -/
  | aborted (cause : Option ConnError)
deriving DecidableEq, Repr

/-- Where a call of `write` is: about to call `trySend`, in `wait` with the channels and
the deadline it was given, about to take `writeMu`, before `reserve`, with `n` bytes to
write in a record, before `abort`, or done. -/
inductive WritePhase where
  | trySend
  | wait (channel connChannel : Nat) (deadline : Option Time)
  | lock
  | reserve
  | record (n : Nat)
  | abort
  | returned (err : Option WriteError)
deriving DecidableEq, Repr

/-- The call has `writeMu`. -/
def WritePhase.holds : WritePhase → Bool
  | .reserve | .record _ | .abort => true
  | _ => false

/-- A call of `write` on the stream `r` with the bytes `p`. -/
structure WriteCall where
  r : Ref
  p : Bytes
  total : Nat := 0
  phase : WritePhase := .trySend
deriving DecidableEq, Repr

namespace WriteCall

/-- `p[total:]`. -/
def rest (c : WriteCall) : Bytes :=
  c.p.drop c.total

/-- The head of the loop. -/
def loop (c : WriteCall) : WriteCall :=
  { c with phase := if c.total < c.p.length then .trySend else .returned none }

/-- `waitSendCredit` goes on after `trySend`. -/
def tried (c : WriteCall) : SendResult → WriteCall
  | .ready => { c with phase := .lock }
  | .failed e => { c with phase := .returned (some (.send e)) }
  | .deadlineExceeded => { c with phase := .returned (some .deadlineExceeded) }
  | .wait channel connChannel deadline => { c with phase := .wait channel connChannel deadline }

/-- `writeChunk` goes on after `reserve`. -/
def reserved (c : WriteCall) : Except SendError (Nat × Nat) → WriteCall
  | .error e => { c with phase := .returned (some (.send e)) }
  | .ok (_, n) => if n = 0 then c.loop else { c with phase := .record n }

/-- `writeChunk` goes on after `writeFramesLocked`. -/
def wrote (c : WriteCall) (ok : Bool) : WriteCall :=
  match c.phase with
  | .record n => if ok then loop { c with total := c.total + n } else { c with phase := .abort }
  | _ => c

variable [Quicvarint]

/-- What a step of the holder of `writeMu` is for the call. -/
def acted (c : WriteCall) (e e' : Endpoint) : Action → WriteCall
  | .enter _ => c.reserved (e.conn.reserve c.r c.rest.length).2
  | .write ok => c.wrote ok
  | .abortWrite _ => { c with phase := .returned (some (.aborted e'.conn.cause)) }
  | _ => c

end WriteCall

/-- What a call has reserved credit for. -/
structure Put where
  call : Nat
  r : Ref
  data : Bytes
deriving DecidableEq, Repr

/-- The calls of `write` on one side. A call goes by its number; `holder` has `writeMu`,
and `put` is what the calls have reserved credit for, in this order. -/
structure WriteCalls where
  calls : List WriteCall := []
  holder : Option Nat := none
  put : List Put := []

inductive WriteEvent where
  /-- `Write` is called. -/
  | write (r : Ref) (p : Bytes)
  | trySend (i : Nat) (now : Time)
  /-- A channel that the call waits for is closed, or its deadline passes. -/
  | woken (i : Nat)
  | expired (i : Nat) (now : Time)
  /-- The call is handed `writeMu`. -/
  | lock (i : Nat)
  /-- Any other step of the endpoint. If it is one of the holder of `writeMu`, it may be
  one of a call. -/
  | act (a : Action)
deriving DecidableEq, Repr

/-- Only calls of `write` take this step. -/
def Action.isWrite : Action → Bool
  | .call (.trySend _ _) | .lock (.chunk _ _) => true
  | _ => false

namespace WriteCalls

/-- What one call has reserved credit for, in order. -/
def putOf (w : WriteCalls) (i : Nat) : Bytes :=
  (w.put.filter (fun x => x.call = i)).flatMap Put.data

/-- What was reserved, by stream. -/
def reserved (w : WriteCalls) : List (Ref × Bytes) :=
  w.put.map (fun x => (x.r, x.data))

def setCall (w : WriteCalls) (i : Nat) (c : WriteCall) : WriteCalls :=
  { w with calls := w.calls.set i c }

/-- The step of the endpoint that an event is, if it is one. -/
def action (w : WriteCalls) : WriteEvent → Option Action
  | .trySend i now => w.calls[i]?.map (fun c => .call (.trySend c.r now))
  | .lock i => w.calls[i]?.map (fun c => .lock (.chunk c.r c.rest))
  | .act a => some a
  | _ => none

variable [Quicvarint]

/-- The calls after a step of the endpoint that is none of the steps only calls take. -/
def acted (w : WriteCalls) (e e' : Endpoint) (a : Action) : WriteCalls :=
  match w.holder with
  | none => w
  | some i =>
      match w.calls[i]? with
      | none => w
      | some c =>
          let c := c.acted e e' a
          { w.setCall i c with
            holder := if c.phase.holds then some i else none
            put := w.put ++ (e.reservedBy a).map (fun x => ⟨i, x.1, x.2⟩) }

/-- The calls after an event, where `e` and `e'` are the endpoint before and after. -/
def next (w : WriteCalls) (e e' : Endpoint) : WriteEvent → Option WriteCalls
  | .write r p =>
      if e.conn.holdsSend r then
        some { w with calls := w.calls ++ [WriteCall.loop { r := r, p := p }] }
      else none
  | .trySend i now => w.calls[i]?.bind (fun c =>
      if c.phase = .trySend then some (w.setCall i (c.tried (e.conn.trySend c.r now).2))
      else none)
  | .woken i => w.calls[i]?.bind (fun c =>
      match c.phase with
      | .wait channel connChannel _ =>
          if (e.conn.heap c.r).writeSignal.IsOpen channel ∧
              e.conn.sendSignal.IsOpen connChannel then none
          else some (w.setCall i { c with phase := .trySend })
      | _ => none)
  | .expired i now => w.calls[i]?.bind (fun c =>
      match c.phase with
      | .wait _ _ (some t) =>
          if t ≤ now then
            some (w.setCall i { c with phase := .returned (some .deadlineExceeded) })
          else none
      | _ => none)
  | .lock i => w.calls[i]?.bind (fun c =>
      if c.phase = .lock then
        some { w.setCall i { c with phase := .reserve } with holder := some i }
      else none)
  | .act a => if a.isWrite then none else some (w.acted e e' a)

end WriteCalls

/-- Two endpoints and the calls of `write` on each. -/
structure Peers [Quicvarint] where
  system : System
  writes : Bool → WriteCalls

namespace Peers

inductive Event where
  /-- One side does anything but read a record. -/
  | side (isServer : Bool) (ev : WriteEvent)
  /-- One side reads the next record of the other. -/
  | deliver (isServer : Bool) (now : Time)
deriving DecidableEq, Repr

variable [Quicvarint]

def new (config : Bool → Config) : Peers where
  system := .new config
  writes _ := {}

/-- What the calls of `write` on one side have put on the stream `id`, in order. -/
def written (σ : Peers) (s : Bool) (id : Nat) : Bytes :=
  (σ.system.ends s).conn.reservedOn id (σ.writes s).reserved

variable [GoAppend]

def step (σ : Peers) : Event → Option Peers
  | .side s ev =>
      let w := σ.writes s
      let e := σ.system.ends s
      match w.action ev with
      | none => (w.next e e ev).map (fun w => { σ with writes := Function.update σ.writes s w })
      | some a =>
          (σ.system.step (.act s a)).bind (fun system =>
            (w.next e (system.ends s) ev).map (fun w =>
              ⟨system, Function.update σ.writes s w⟩))
  | .deliver s now =>
      (σ.system.step (.deliver s now)).map (fun system => { σ with system := system })

/-- What a step returns to the readers of each side. -/
def readsBy (σ : Peers) : Event → List (Bool × Ref × ReadResult)
  | .side s (.act a) => σ.system.readsBy (.act s a)
  | _ => []

end Peers

end Qmux
