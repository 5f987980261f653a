import Qmux.Conn.Ids
import Qmux.Lib.Heap

/-!
The registry of streams, as an abstract machine. It forgets the data of the
streams and keeps what decides their life: whether the application holds a
stream, whether both of its directions have ended, and whether the connection
has forgotten it. The operations are those of the connection: opening the next
stream of a kind, accepting the oldest that the peer opened, the end of a
stream, and forgetting it.

`Sound` holds at all times. Between critical sections every stream that is
over has also been forgotten, `Settled`, and while the connection is open the
table has the others, `Tabled`. During a critical section one stream may be
over without being forgotten yet, until `complete` looks at it.
-/

namespace Qmux

open Wire

/-- A stream, as far as the registry is concerned. -/
structure Slot where
  id : Nat
  canRecv : Bool
  canSend : Bool
  accepted : Bool
  ended : Bool
  done : Bool

structure Registry where
  isServer : Bool
  /-- The peer has declared its limits. -/
  ready : Bool
  slots : Ref → Slot
  count : Nat
  table : Nat → Option Ref
  /-- The streams opened so far, by initiator and direction kind. -/
  next : Bool → Dir → Nat
  /-- How many may be opened. -/
  max : Bool → Dir → Nat
  /-- The streams the peer opened that were not accepted yet. -/
  queue : Dir → List Ref

namespace Registry

/-- The stream was opened by this endpoint. -/
def own (v : Registry) (id : Nat) : Bool :=
  initiatedLocally v.isServer id

/-- The stream was opened, by either side. -/
def Opened (v : Registry) (id : Nat) : Prop :=
  id < 2 ^ 62 ∧ id >>> 2 < v.next (v.own id) (streamDir id)

/-- One for a stream the peer opened that is not forgotten. -/
def live (v : Registry) (dir : Dir) (s : Slot) : Nat :=
  if !s.done && !v.own s.id && streamDir s.id == dir then 1 else 0

/-- One for a stream the peer opened that was forgotten. -/
def finished (v : Registry) (dir : Dir) (s : Slot) : Nat :=
  if s.done && !v.own s.id && streamDir s.id == dir then 1 else 0

/-- The number of streams of a direction kind that were accepted. -/
def acceptedCount (v : Registry) (dir : Dir) : Nat :=
  v.next false dir - (v.queue dir).length

/-- The identifiers are those of the streams opened so far, each once, and an
identifier tells which sides its stream has. -/
structure Named (v : Registry) : Prop where
  opened : ∀ r < v.count, v.Opened (v.slots r).id
  unique : ∀ r < v.count, ∀ r' < v.count, (v.slots r).id = (v.slots r').id → r = r'
  found : ∀ id, v.Opened id → ∃ r < v.count, (v.slots r).id = id
  next_le : ∀ isLocal dir, v.next isLocal dir ≤ 2 ^ 60
  recv : ∀ r < v.count, (v.slots r).canRecv =
    (streamDir (v.slots r).id != .uni || !v.own (v.slots r).id)
  send : ∀ r < v.count, (v.slots r).canSend =
    (streamDir (v.slots r).id != .uni || v.own (v.slots r).id)

/-- The queue has the streams the peer opened last, in order. -/
structure Queued (v : Registry) : Prop where
  length_le : ∀ dir, (v.queue dir).length ≤ v.next false dir
  queued : ∀ dir i r, (v.queue dir)[i]? = some r →
    r < v.count ∧ (v.slots r).id = streamID v.isServer (v.acceptedCount dir + i) dir false
  accepted : ∀ r < v.count, (v.slots r).accepted =
    (v.own (v.slots r).id ||
      decide ((v.slots r).id >>> 2 < v.acceptedCount (streamDir (v.slots r).id)))

/-- The numbers of streams are within their limits. Every stream of the peer
that is not forgotten takes up one of the `limit` the peer may have, and every
one that was forgotten has given it back. -/
structure Limited (limit : Dir → Nat) (v : Registry) : Prop where
  incoming : ∀ dir, v.next false dir ≤ v.max false dir
  outgoing : ∀ dir, v.next true dir ≤ v.max true dir
  outgoing_le : ∀ dir, v.max true dir ≤ 2 ^ 60
  unready : v.ready = false → ∀ dir, v.max true dir = 0
  credit : ∀ dir, v.max false dir + Heap.total v.slots v.count (v.live dir) =
    limit dir + v.next false dir
  returned : ∀ dir, v.max false dir =
    limit dir + Heap.total v.slots v.count (v.finished dir)

/-- What holds at all times. -/
structure Sound (limit : Dir → Nat) (v : Registry) : Prop where
  named : v.Named
  queued : v.Queued
  limited : v.Limited limit
  over_of_done : ∀ r < v.count, (v.slots r).done = true →
    (v.slots r).accepted = true ∧ (v.slots r).ended = true

/-- Every stream that is over was forgotten, except possibly `r`. -/
def SettledBut (v : Registry) (r : Ref) : Prop :=
  ∀ i < v.count, i ≠ r → (v.slots i).accepted = true → (v.slots i).ended = true →
    (v.slots i).done = true

/-- Every stream that is over was forgotten. -/
def Settled (v : Registry) : Prop :=
  ∀ i < v.count, (v.slots i).accepted = true → (v.slots i).ended = true →
    (v.slots i).done = true

/-- The table has the streams that are not forgotten, each under its own id. -/
def Tabled (v : Registry) : Prop :=
  ∀ id r, v.table id = some r ↔
    r < v.count ∧ (v.slots r).id = id ∧ (v.slots r).done = false

/-- Opens the next stream of a kind. -/
def add (v : Registry) (isLocal : Bool) (dir : Dir) (s : Slot) : Registry :=
  { v with
    slots := Function.update v.slots v.count s
    count := v.count + 1
    table := Function.update v.table s.id (some v.count)
    next := Function.update v.next isLocal
      (Function.update (v.next isLocal) dir (v.next isLocal dir + 1))
    queue := if isLocal then v.queue
      else Function.update v.queue dir (v.queue dir ++ [v.count]) }

/-- The slot of a stream that was just opened. -/
def fresh (v : Registry) (isLocal : Bool) (dir : Dir) : Slot :=
  let id := streamID v.isServer (v.next isLocal dir) dir isLocal
  { id := id
    canRecv := streamDir id != .uni || !v.own id
    canSend := streamDir id != .uni || v.own id
    accepted := isLocal
    ended := false
    done := false }

/-- Hands the oldest stream of the queue to the application. -/
def accept (v : Registry) (dir : Dir) (r : Ref) (rest : List Ref) : Registry :=
  { v with
    slots := Function.update v.slots r { v.slots r with accepted := true }
    queue := Function.update v.queue dir rest }

/-- A side of the stream may have ended. -/
def settle (v : Registry) (r : Ref) (ended : Bool) : Registry :=
  { v with slots := Function.update v.slots r { v.slots r with ended := ended } }

/-- Forgets a stream, and lets the peer open another in place of one of its
own. -/
def forget (v : Registry) (r : Ref) : Registry :=
  { v with
    slots := Function.update v.slots r { v.slots r with done := true }
    table := Function.update v.table (v.slots r).id none
    max := if v.own (v.slots r).id then v.max
      else Function.update v.max false (Function.update (v.max false)
        (streamDir (v.slots r).id) (v.max false (streamDir (v.slots r).id) + 1)) }

/-- Forgets the stream if it is over. -/
def complete (v : Registry) (r : Ref) : Registry :=
  if (v.slots r).done = false ∧ (v.slots r).accepted = true ∧ (v.slots r).ended = true then
    v.forget r
  else v

/-- The peer raises how many streams this endpoint may open. -/
def raise (v : Registry) (max : Dir → Nat) : Registry :=
  { v with ready := true, max := Function.update v.max true max }

end Registry

end Qmux
