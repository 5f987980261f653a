import Qmux.Closing
import Qmux.Conn.Aside
import Qmux.Lib.Mailbox

/-!
The datagrams that wait for the application. Of all that happens to a connection,
two things touch them: a DATAGRAM frame, which is dropped if too many wait, and a
call of `ReceiveDatagram`.
-/

namespace Qmux

open Wire

/-- The datagram that a frame carries. -/
def Wire.Parsed.datagram? : Parsed → Option Bytes
  | .frame (.datagram f) => some f.data
  | _ => none

namespace Conn

/-- What the handling of a frame leaves of the queue: a datagram that is accepted is offered to
it, and a frame that is not accepted leaves it alone. -/
private def Queues (c : Conn) (f : Parsed) (result : Conn × Option Failure) : Prop :=
  (result.2 = none → result.1.datagrams =
      f.datagram?.toList.foldl (Mailbox.offer datagramQueueSize) c.datagrams) ∧
    (result.2 ≠ none → result.1.datagrams = c.datagrams)

private theorem Queues.same {c c' : Conn} {f : Parsed} (hother : f.datagram? = none)
    (hsame : c'.datagrams = c.datagrams) (failure : Option Failure) :
    Queues c f (c', failure) := by
  unfold Queues
  rw [hother]
  exact ⟨fun _ => hsame, fun _ => hsame⟩

private theorem Queues.failed (c : Conn) (f : Parsed) (failure : Failure) :
    Queues c f (c, some failure) :=
  ⟨(fun h => by cases h), fun _ => rfl⟩

private theorem handleDatagramLocked_queues (c : Conn) (f : Datagram) :
    Queues c (.frame (.datagram f)) ((c.handleDatagramLocked f).1,
      (c.handleDatagramLocked f).2.map Failure.violation) := by
  unfold handleDatagramLocked Queues Parsed.datagram? Mailbox.offer
  split_ifs with hlarge hroom
  · exact ⟨(fun h => by cases h), fun _ => rfl⟩
  · exact ⟨fun _ => by simp [hroom], fun h => absurd rfl h⟩
  · exact ⟨fun _ => by simp [hroom], fun _ => rfl⟩

private theorem handleFrameLocked_queues [GoAppend] (c : Conn) (f : Parsed) (now : Time) :
    Queues c f (c.handleFrameLocked f now) := by
  by_cases hdatagram : ∃ g, f = .frame (.datagram g)
  · obtain ⟨g, rfl⟩ := hdatagram
    cases hready : c.ready with
    | false => simpa [handleFrameLocked, hready] using Queues.failed c _ _
    | true =>
        simp only [handleFrameLocked, hready, not_true_eq_false, if_false]
        exact c.handleDatagramLocked_queues g
  · have hother (g : Datagram) : f ≠ .frame (.datagram g) := fun hcase => hdatagram ⟨g, hcase⟩
    have hnone : f.datagram? = none := by
      rcases f with f | _
      · cases f with
        | datagram g => exact absurd rfl (hother g)
        | _ => rfl
      · rfl
    exact .same hnone (congrArg Prod.fst (c.handleFrameLocked_aside hother now)) _

/-- The datagrams of a record are offered to the queue, as far as the record is accepted. -/
theorem handleRecord_datagrams [Quicvarint] [GoAppend] (c : Conn) (rec : Bytes) (now : Time) :
    (c.handleRecord rec now).1.datagrams =
      ((c.accepted rec now).filterMap Parsed.datagram?).foldl
        (Mailbox.offer datagramQueueSize) c.datagrams := by
  unfold handleRecord accepted
  generalize rec.length = fuel
  induction fuel generalizing c rec with
  | zero => rfl
  | succ fuel ih =>
      unfold handleFrames acceptedFrom
      split_ifs with hend
      · rfl
      · rcases hparse : parse rec with e | _ | ⟨f, rest⟩
        · rfl
        · rfl
        · have hqueues := c.handleFrameLocked_queues f now
          rcases hresult : c.handleFrameLocked f now with ⟨next, _ | failure⟩
          · rw [hresult] at hqueues
            have hnext := hqueues.1 rfl
            dsimp only at hnext ⊢
            simp only [hresult]
            rw [ih next rest, hnext, ← List.foldl_append, List.filterMap_cons]
            cases f.datagram? <;> rfl
          · rw [hresult] at hqueues
            simp only [hresult]
            exact hqueues.2 (fun h => by cases h)

end Conn

namespace Endpoint

variable [Quicvarint] [GoAppend] {e e' : Endpoint}

/-- What a step returns to a caller of `ReceiveDatagram`. -/
def datagramsBy (e : Endpoint) : Action → List Bytes
  | .call .receiveDatagram => e.conn.receiveDatagram.2.toList
  | _ => []

omit [GoAppend] in
private theorem enter_datagrams {now : Time} (henter : e.enter now = some e') :
    e'.conn.datagrams = e.conn.datagrams := by
  rcases enter_conn henter with ⟨r, n, hconn⟩ | ⟨r, hconn⟩ | hconn | hconn
  · rw [hconn]
    exact congrArg Prod.fst (e.conn.reserve_aside r n)
  · rw [hconn]
    exact congrArg Prod.fst (e.conn.finish_aside r)
  · rw [hconn]
    unfold Conn.takeControl
    split_ifs
    · rfl
    · obtain ⟨_, _, _, _, hflush⟩ := e.conn.flushed_frame now
      rw [hflush]
  · rw [hconn]

/-- A step that reads no record takes from the queue what it returns. -/
theorem step_datagrams {a : Action} (hstep : e.step a = some e')
    (hother : ∀ rec now, a ≠ .record rec now) :
    e.conn.datagrams = e.datagramsBy a ++ e'.conn.datagrams := by
  have hterminate (err : ConnError) : e.conn.datagrams = (e.conn.terminate err).1.datagrams :=
    (congrArg Prod.fst (e.conn.terminate_aside err)).symm
  cases stepped hstep with
  | @call op c hcall =>
      cases op with
      | receiveDatagram =>
          obtain rfl := Option.some.inj hcall
          simp only [datagramsBy, Conn.receiveDatagram]
          split <;> simp_all
      | requestPing now =>
          obtain rfl := Option.some.inj hcall
          change _ = [] ++ (e.conn.requestPing now).1.datagrams
          unfold Conn.requestPing
          split_ifs <;> rfl
      | _ =>
          exact (congrArg Prod.fst (e.conn.call_aside hcall (by simp) (by simp))).symm
  | close hcloses => cases hcloses <;> exact hterminate _
  | abort haborts => cases haborts <;> exact hterminate _
  | lock _ hlock =>
      obtain ⟨_, _, rfl, -⟩ := lock_frame hlock
      rfl
  | enter henter => exact (enter_datagrams henter).symm
  | write hwrite =>
      obtain ⟨_, _, _, _, _, rfl, -⟩ := write_frame hwrite
      rfl
  | @record rec now => exact absurd rfl (hother rec now)
  | _ => rfl

/-- A record is offered to the queue, as far as it is accepted. -/
theorem receive_datagrams (e : Endpoint) (rec : Bytes) (now : Time) :
    (e.receive rec now).conn.datagrams =
      ((e.accepted rec now).filterMap Parsed.datagram?).foldl
        (Mailbox.offer datagramQueueSize) e.conn.datagrams := by
  have hrecord := e.conn.handleRecord_datagrams rec now
  unfold receive accepted
  dsimp only
  split_ifs
  · rfl
  · rcases hresult : e.conn.handleRecord rec now with ⟨c, _ | err | err⟩
    all_goals
      rw [hresult] at hrecord
      exact hrecord

/-- The frames that are accepted are the first of the record. They are all, if the connection
then goes on. -/
theorem accepted_frames (hsize : e.conn.config.maxRecordSize.toNat ≤ maxVarint) (rec : Bytes)
    (now : Time) :
    e.accepted rec now <+: frames rec ∧
      ((e.receive rec now).conn.closeErr = none → (e.receive rec now).reader = .reading →
        e.accepted rec now = frames rec) := by
  unfold accepted receive
  dsimp only
  split_ifs with hlarge
  · exact ⟨List.nil_prefix, fun _ h => by cases h⟩
  · obtain ⟨hmoves, hpart, hall⟩ := @Conn.handleRecord_moves _ _ (fun _ => True) e.conn rec now
      ((Nat.le_of_not_lt hlarge).trans hsize) (fun _ _ => trivial)
    refine ⟨hpart, fun hopen hnext => ?_⟩
    rcases hresult : e.conn.handleRecord rec now with ⟨c, _ | err | err⟩
    all_goals rw [hresult] at hmoves hall hopen hnext
    · exact hall (hmoves.closeErr.1.symm.trans hopen) rfl
    · cases hnext
    · cases hnext

end Endpoint

end Qmux
