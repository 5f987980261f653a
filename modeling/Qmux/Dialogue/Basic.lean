import Qmux.Handshake
import Qmux.Limits.Told
import Qmux.Receiving.Inbox

/-!
A connection and its peer, over any reliable transport between them. What the
peer has heard was handed out by the connection, and what the connection has
taken is the start of what the peer has handed out, as it is read. The limits
that the peer sends under are then within those of the connection, and the
streams that the peer uses are streams that the connection has, or may get.
-/

namespace Qmux

open Wire

/-- A frame as its receiver gets it. -/
def Wire.Frame.arrived (f : Frame) : Parsed :=
  .frame f.received

namespace Conn

/-- The connection `c` with its traffic `t`, and its peer `d` with the traffic `u`. -/
structure Dialogue [Quicvarint] [GoAppend] (config other : Config) (isServer : Bool)
    (heard told : List Parsed) (t : Traffic) (c : Conn) (u : Traffic) (d : Conn) : Prop where
  valid : config.Valid
  other_valid : other.Valid
  history : History config isServer (· ∈ heard) t c
  peer : History other (!isServer) (· ∈ told) u d
  said : ∀ f ∈ told, ∃ g ∈ t.handed, f = g.arrived
  taken : u.took ⊆ told
  hears : t.took <+: u.handed.map Frame.arrived

namespace Dialogue

variable [Quicvarint] [GoAppend] {config other : Config} {isServer : Bool}
  {heard told : List Parsed} {t u : Traffic} {c d : Conn}

/-- The peer knows the parameters of the connection. -/
theorem parameters (h : Dialogue config other isServer heard told t c u d) {p : Parameters}
    (hp : .frame (.transportParameters p) ∈ told) : p = c.localParameters.received := by
  obtain ⟨g, hg, hread⟩ := h.said _ hp
  have hwarrants := History.warrants h.valid h.history g (List.mem_append_left _ hg)
  cases g with
  | transportParameters q =>
      obtain rfl : q = c.localParameters := hwarrants
      simpa [Frame.arrived, Frame.received] using hread
  | _ => simp [Frame.arrived, Frame.received] at hread

/-- The connection stands by the other frames that the peer has heard. -/
theorem warrants (h : Dialogue config other isServer heard told t c u d) {f : Frame}
    (hf : .frame f ∈ told) (hparameters : ∀ p, f ≠ .transportParameters p)
    (hclose : ∀ k, f ≠ .connectionClose k) : f ∈ t.handed ∧ c.Warrants f := by
  obtain ⟨g, hg, hread⟩ := h.said _ hf
  have hsame : f = g := by
    have hreceived : f = g.received := Parsed.frame.inj hread
    cases g with
    | transportParameters p => exact absurd hreceived (hparameters _)
    | connectionClose k => exact absurd hreceived (hclose _)
    | _ => exact hreceived
  rw [hsame]
  exact ⟨hg, History.warrants h.valid h.history g (List.mem_append_left _ hg)⟩

theorem initiator (h : Dialogue config other isServer heard told t c u d) (id : Nat) :
    d.initiatedLocally id = !c.initiatedLocally id := by
  unfold Conn.initiatedLocally
  rw [initiatedLocally_eq, initiatedLocally_eq, (History.config h.history).2,
    (History.config h.peer).2]
  cases decide (id % 2 = 1) <;> cases isServer <;> rfl

/-- Every limit that the peer was given, by the parameters or by a later frame, is one
that the connection stands by. -/
private theorem largest_le (h : Dialogue config other isServer heard told t c u d)
    {limit? : Parsed → Option Nat} {bound : Nat} (hblocked : limit? .blocked = none)
    (hclose : ∀ k, limit? (.frame (.connectionClose k)) = none)
    (hparameters : ∀ n, limit? (.frame (.transportParameters c.localParameters.received)) =
      some n → n ≤ bound)
    (hlater : ∀ f n, (∀ p, f ≠ .transportParameters p) → c.Warrants f →
      limit? (.frame f) = some n → n ≤ bound) :
    Log.largest limit? u.took ≤ bound := by
  refine Log.largest_le (fun f hf n hn => ?_)
  cases f with
  | blocked =>
      rw [hblocked] at hn
      cases hn
  | frame f =>
      cases f with
      | transportParameters p => exact hparameters n (h.parameters (h.taken hf) ▸ hn)
      | connectionClose k =>
          rw [hclose] at hn
          cases hn
      | _ => exact hlater _ n (by simp) (h.warrants (h.taken hf) (by simp) (by simp)).2 hn

/-- What the peer may send in total, the connection takes. -/
theorem sendMax_le (h : Dialogue config other isServer heard told t c u d)
    (hsmall : c.totalReceived + c.config.connectionWindow < 2 ^ 64) : d.sendMax ≤ c.recvMax := by
  refine (History.facing h.peer).1.sendMax_given.trans
    (h.largest_le rfl (fun _ => rfl) (fun n hn => ?_) (fun f n hother hwarrants hn => ?_))
  · obtain rfl := Option.some.inj hn
    exact ((History.limitsTold h.valid h.history).data hsmall).first_le
  · cases f with
    | maxData f =>
        obtain rfl : f.max = n := Option.some.inj hn
        exact hwarrants hsmall
    | transportParameters p => exact absurd rfl (hother p)
    | _ => cases hn

/-- The peer opens no more streams than the connection allows. -/
theorem outMax_le (h : Dialogue config other isServer heard told t c u d) (dir : Dir) :
    (d.out dir).max ≤ (c.incoming dir).max := by
  refine ((History.facing h.peer).1.outMax_given dir).trans
    (h.largest_le rfl (fun _ => rfl) (fun n hn => ?_) (fun f n hother hwarrants hn => ?_))
  · have hlimit : n = c.config.incomingLimit dir := by
      cases dir <;> exact (Option.some.inj hn).symm
    rw [hlimit]
    exact ((History.limitsTold h.valid h.history).streams dir).first_le
  · cases f with
    | maxStreams f =>
        obtain ⟨rfl, hmax⟩ := Option.ite_none_right_eq_some.mp hn
        obtain rfl : f.max = n := Option.some.inj hmax
        exact hwarrants
    | transportParameters p => exact absurd rfl (hother p)
    | _ => cases hn

/-- What the peer may send on a stream, the connection takes. -/
theorem streamMax_le (h : Dialogue config other isServer heard told t c u d) {r i : Ref}
    (hr : r < c.count) (hcan : (c.heap r).canRecv = true) (hi : i < d.count)
    (hid : (d.heap i).id = (c.heap r).id) : (d.heap i).sendMax ≤ (c.heap r).recvMax := by
  have hnamed := (History.ordered h.valid h.history).sound.named
  refine ((History.outbox h.other_valid h.peer).streams i hi).given.trans
    (h.largest_le rfl (fun _ => rfl) (fun n hn => ?_) (fun f n hother hwarrants hn => ?_))
  · have hwindow : n ≤ c.config.streamWindow := by
      obtain rfl := Option.some.inj hn
      unfold Parameters.initialSendMax
      split
      · exact Nat.le_refl _
      · exact Nat.zero_le _
      · exact Nat.le_refl _
      · exact Nat.le_refl _
    exact hwindow.trans ((History.limitsTold h.valid h.history).stream r hr hcan).first_le
  · cases f with
    | maxStreamData f =>
        obtain ⟨hname, hmax⟩ := Option.ite_none_right_eq_some.mp hn
        obtain rfl : f.max = n := Option.some.inj hmax
        obtain ⟨j, hj, hjname, -, hle⟩ := hwarrants
        obtain rfl : j = r := hnamed.unique j hj r hr (hjname.trans (hname.trans hid))
        exact hle
    | transportParameters p => exact absurd rfl (hother p)
    | _ => cases hn

end Dialogue

end Conn

end Qmux
