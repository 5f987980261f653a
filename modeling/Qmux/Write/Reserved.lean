import Qmux.Sending.Outbox
import Qmux.Trace.Run

/-!
The data of the writers. A writer takes credit for the start of what it has to
write, and hands these bytes over under the name of its stream. What was handed
out for a stream is the bytes that its writers have taken credit for, in this
order: no other writer carries data, and the control frames carry none.
-/

namespace Qmux

open Wire

/-- The bytes that were reserved for the stream `id`, in order. -/
def Conn.reservedOn (c : Conn) (id : Nat) (log : List (Ref × Bytes)) : Bytes :=
  (log.filter (fun x => (c.heap x.1).id = id)).flatMap Prod.snd

namespace Conn

theorem reservedOn_append (c : Conn) (id : Nat) (first second : List (Ref × Bytes)) :
    c.reservedOn id (first ++ second) = c.reservedOn id first ++ c.reservedOn id second := by
  unfold reservedOn
  rw [List.filter_append, List.flatMap_append]

/-- The streams keep their names. -/
theorem reservedOn_extends {c c' : Conn} (hext : c.Extends c') {log : List (Ref × Bytes)}
    (hlog : ∀ x ∈ log, x.1 < c.count) (id : Nat) :
    c'.reservedOn id log = c.reservedOn id log := by
  unfold reservedOn
  congr 1
  refine List.filter_congr (fun x hx => ?_)
  rw [(hext.streams x.1 (hlog x hx)).id]

theorem holdsSend_lt {c : Conn} {r : Ref} (h : c.holdsSend r = true) : r < c.count := by
  simp only [holdsSend, Bool.and_eq_true, decide_eq_true_eq] at h
  exact h.1.1

end Conn

namespace Endpoint

variable [Quicvarint]

/-- What the holder of `writeMu` reserves in its critical section: the start of what a
call of `write` has left to write. -/
def reservedBy (e : Endpoint) : Action → List (Ref × Bytes)
  | .enter _ =>
      match e.writeMu with
      | .chunk r p =>
          match (e.conn.reserve r p.length).2 with
          | .ok (_, n) => if n = 0 then [] else [(r, p.take n)]
          | .error _ => []
      | _ => []
  | _ => []

variable {e e' : Endpoint}

omit [Quicvarint] in
/-- Control frames carry no data. -/
private theorem control_payload {c : Conn}
    (hcontrol : ∀ f ∈ c.control, Conn.queuedFrame f = true) (now : Time) (id : Nat) :
    Transfer.payload ((c.takeControl now).2.filterMap (Frame.message? id)) = [] := by
  unfold Conn.takeControl
  split_ifs with hclosed
  · rfl
  · change Transfer.payload (c.controlFrames.filterMap _) = []
    rw [Conn.controlFrames_message]
    refine List.flatMap_eq_nil_iff.mpr (fun m hm => ?_)
    have hreset := Conn.control_resets hcontrol id m hm
    cases m with
    | segment => cases hreset
    | reset => rfl

/-- The data that the holder hands over in its critical section is what it has reserved. -/
private theorem enter_payload (hcontrol : ∀ f ∈ e.conn.control, Conn.queuedFrame f = true)
    {now : Time} (henter : e.enter now = some e') (id : Nat) :
    Transfer.payload (e'.writeMu.pending.filterMap (Frame.message? id)) =
      e'.conn.reservedOn id (e.reservedBy (.enter now)) := by
  unfold enter at henter
  unfold reservedBy
  split at henter
  · rename_i r p hmu
    rw [hmu]
    dsimp only
    rcases hreserve : e.conn.reserve r p.length with ⟨c, err | ⟨offset, n⟩⟩
    · rw [hreserve] at henter
      obtain rfl := Option.some.inj henter
      rfl
    · rw [hreserve] at henter
      obtain rfl := Option.some.inj henter
      dsimp only
      split_ifs with hn
      · rfl
      · by_cases hid : (c.heap r).id = id
        · simp [Holder.pending, Frame.message?, hid, Transfer.payload, Transfer.Message.data,
            Conn.reservedOn]
        · simp [Holder.pending, Frame.message?, hid, Transfer.payload, Conn.reservedOn]
  · rename_i r hmu
    rw [hmu]
    split at henter
    · rename_i c finalSize hfinish
      obtain rfl := Option.some.inj henter
      by_cases hid : (c.heap r).id = id
      · simp [Holder.pending, Frame.message?, hid, Transfer.payload, Transfer.Message.data,
          Conn.reservedOn]
      · simp [Holder.pending, Frame.message?, hid, Transfer.payload, Conn.reservedOn]
    · obtain rfl := Option.some.inj henter
      rfl
  · rename_i hmu
    rw [hmu]
    have hnone := control_payload hcontrol now id
    dsimp only at henter
    split at henter
    · obtain rfl := Option.some.inj henter
      rfl
    · obtain rfl := Option.some.inj henter
      change Transfer.payload ((packControl (e.conn.takeControl now).2 [] 0).flatten.filterMap
        (Frame.message? id)) = []
      rw [packControl_flatten]
      exact hnone
  · rename_i p hmu
    rw [hmu]
    split_ifs at henter
    · obtain rfl := Option.some.inj henter
      rfl
    · obtain rfl := Option.some.inj henter
      rfl
  · cases henter

variable [GoAppend]

/-- The data that a step hands over is what it has reserved. -/
private theorem handed_payload (hcontrol : ∀ f ∈ e.conn.control, Conn.queuedFrame f = true)
    {a : Action} (hstep : e.step a = some e') (id : Nat) :
    Transfer.payload ((e.handedBy a).filterMap (Frame.message? id)) =
      e'.conn.reservedOn id (e.reservedBy a) := by
  cases a with
  | lock job =>
      simp only [handedBy, hstep, Option.map_some, Option.getD_some]
      obtain ⟨-, hlock⟩ := Option.ite_none_right_eq_some.mp hstep
      cases job with
      | close =>
          simp only [lock] at hlock
          split at hlock
          · obtain rfl := Option.some.inj hlock
            rfl
          · cases hlock
      | _ =>
          obtain ⟨-, ⟨⟩⟩ := Option.ite_none_right_eq_some.mp hlock
          rfl
  | enter now =>
      simp only [handedBy, hstep, Option.map_some, Option.getD_some]
      exact enter_payload hcontrol hstep id
  | _ => rfl

omit [GoAppend] in
/-- Credit is reserved for streams that the application holds. -/
private theorem reserved_lt (hheld : e.Held) {a : Action} {x : Ref × Bytes}
    (hx : x ∈ e.reservedBy a) : x.1 < e.conn.count := by
  unfold reservedBy at hx
  split at hx
  · split at hx
    · rename_i r p hmu
      have hr : r < e.conn.count :=
        Conn.holdsSend_lt (hheld.stream r (by rw [hmu]; rfl))
      split at hx
      · split_ifs at hx
        · cases hx
        · rw [List.mem_singleton.mp hx]
          exact hr
      · cases hx
    · cases hx
  · cases hx

/-- Every run of an endpoint has traffic in which the data of every stream is what was
reserved for it. -/
theorem traced_reserved {config : Config} {isServer : Bool} {labels : List Action}
    {log : List (Ref × Bytes)} (hvalid : config.Valid)
    (hrun : Machine.run (Machine.watch step reservedBy) (new config isServer, []) labels =
      some (e, log)) :
    (∀ x ∈ log, x.1 < e.conn.count) ∧
    ∃ t₀ c₀ t, Traced config isServer t₀ c₀ (labels.flatMap heardBy) t e ∧
      ∀ id, Transfer.payload (t.handed.filterMap (Frame.message? id)) =
        e.conn.reservedOn id log := by
  refine Machine.trace_invariant (P := fun labels (s : Endpoint × List (Ref × Bytes)) =>
    (∀ x ∈ s.2, x.1 < s.1.conn.count) ∧
    ∃ t₀ c₀ t, Traced config isServer t₀ c₀ (labels.flatMap heardBy) t s.1 ∧
      ∀ id, Transfer.payload (t.handed.filterMap (Frame.message? id)) =
        s.1.conn.reservedOn id s.2)
    ⟨by simp, _, _, _, .start config isServer, fun _ => rfl⟩ ?_ labels (e, log) hrun
  rintro labels ⟨e, log⟩ a ⟨e', log'⟩ ⟨hlog, t₀, c₀, t, htraced, hdata⟩ hstep
  obtain ⟨hstep, rfl⟩ := Machine.watch_step hstep
  dsimp only at hlog hdata htraced hstep ⊢
  obtain ⟨more, hmore, -, -, hhanded⟩ := htraced.step hvalid.recordSize_le hstep
  obtain ⟨_, hnext, -⟩ := htraced.restart.step hvalid.recordSize_le hstep
  have hext := Conn.Since.later hnext.past.since
  refine ⟨fun x hx => ?_, t₀, c₀, t ++ more, by simpa using hmore, fun id => ?_⟩
  · rcases List.mem_append.mp hx with hx | hx
    · exact (hlog x hx).trans_le hext.count
    · exact (reserved_lt htraced.held hx).trans_le hext.count
  · rw [Traffic.append_handed, List.filterMap_append, Transfer.payload_append, hdata,
      hhanded, handed_payload (Conn.History.control htraced.past.history) hstep,
      Conn.reservedOn_append, Conn.reservedOn_extends hext hlog]

end Endpoint

end Qmux
