import Qmux.Conn.Life
import Qmux.Trace.Run

/-!
What is written. The records the holder of `writeMu` has to write come from its
critical section, or from the call that closes the connection, and they go to
the transport one by one. So what holds of the records of every writer holds of
the records on the wire.
-/

namespace Qmux

open Wire

namespace Endpoint

section Steps

variable [Quicvarint]

/-- The records that a step hands to the holder of `writeMu`. -/
inductive Hands (e : Endpoint) : Writer → List (List Frame) → Prop where
  | chunk {r : Ref} {p : Bytes} {c : Conn} {offset n : Nat} (hmu : e.writeMu = .chunk r p)
      (hreserve : e.conn.reserve r p.length = (c, .ok (offset, n))) :
      Hands e .stream [[.stream ⟨(c.heap r).id, offset, p.take n, false⟩]]
  | finish {r : Ref} {c : Conn} {finalSize : Nat} (hmu : e.writeMu = .closeSend r)
      (hfinish : e.conn.finish r = (c, .ok (some finalSize))) :
      Hands e .stream [[.stream ⟨(c.heap r).id, finalSize, [], true⟩]]
  | flush {now : Time} (hmu : e.writeMu = .flush) :
      Hands e .flush (packControl (e.conn.takeControl now).2 [] 0)
  | datagram {p : Bytes} (hmu : e.writeMu = .datagram p) :
      Hands e .datagram [[.datagram ⟨p⟩]]
  | close {frame : ConnectionClose} (hcloser : e.closer = .graceful (some frame)) :
      Hands e .close [[.connectionClose frame]]

/-- What a step does for the holder of `writeMu`: it leaves the records, writes
the first of them, or hands over new ones. -/
structure Writes (e e' : Endpoint) : Prop where
  pending : ∀ w records, e'.writeMu = .writing w records →
    e.writeMu = .writing w records ∨ (∃ frames, e.writeMu = .writing w (frames :: records)) ∨
      e.Hands w records
  wire : e'.wire = e.wire ∨ ∃ w frames rest record, e.writeMu = .writing w (frames :: rest) ∧
    record.frames = frames ∧ e'.wire = e.wire ++ [record]

variable {e e' : Endpoint}

private theorem Writes.same (hmu : e'.writeMu = e.writeMu) (hwire : e'.wire = e.wire) :
    e.Writes e' :=
  ⟨fun _ _ h => Or.inl (hmu ▸ h), Or.inl hwire⟩

private theorem Writes.rest (hmu : ∀ w records, e'.writeMu ≠ .writing w records)
    (hwire : e'.wire = e.wire) : e.Writes e' :=
  ⟨fun w records h => absurd h (hmu w records), Or.inl hwire⟩

private theorem Writes.hands {w : Writer} {records : List (List Frame)}
    (hmu : e'.writeMu = .writing w records) (hhands : e.Hands w records)
    (hwire : e'.wire = e.wire) : e.Writes e' := by
  refine ⟨fun w' records' h => Or.inr (Or.inr ?_), Or.inl hwire⟩
  obtain ⟨rfl, rfl⟩ := Holder.writing.inj (hmu.symm.trans h)
  exact hhands

private theorem lock_writes {job : Job} (hlock : e.lock job = some e') : e.Writes e' := by
  cases job with
  | chunk r p =>
      obtain ⟨-, ⟨⟩⟩ := Option.ite_none_right_eq_some.mp hlock
      exact .rest (fun _ _ h => by cases h) rfl
  | closeSend r =>
      obtain ⟨-, ⟨⟩⟩ := Option.ite_none_right_eq_some.mp hlock
      exact .rest (fun _ _ h => by cases h) rfl
  | flush =>
      obtain ⟨-, ⟨⟩⟩ := Option.ite_none_right_eq_some.mp hlock
      exact .rest (fun _ _ h => by cases h) rfl
  | datagram p =>
      obtain ⟨-, ⟨⟩⟩ := Option.ite_none_right_eq_some.mp hlock
      exact .rest (fun _ _ h => by cases h) rfl
  | close =>
      simp only [lock] at hlock
      split at hlock
      · rename_i frame hcloser
        obtain rfl := Option.some.inj hlock
        exact .hands rfl (.close hcloser) rfl
      · cases hlock

private theorem enter_writes {now : Time} (henter : e.enter now = some e') : e.Writes e' := by
  unfold enter at henter
  split at henter
  · rename_i r p hmu
    split at henter
    · obtain rfl := Option.some.inj henter
      exact .rest (fun _ _ h => by cases h) rfl
    · rename_i c offset n hreserve
      obtain rfl := Option.some.inj henter
      by_cases hn : n = 0
      · exact .rest (fun _ _ h => by simp [hn] at h) rfl
      · exact .hands (if_neg hn) (.chunk hmu hreserve) rfl
  · rename_i r hmu
    split at henter
    · rename_i c finalSize hfinish
      obtain rfl := Option.some.inj henter
      exact .hands rfl (.finish hmu hfinish) rfl
    · obtain rfl := Option.some.inj henter
      exact .rest (fun _ _ h => by cases h) rfl
  · rename_i hmu
    dsimp only at henter
    split at henter
    · obtain rfl := Option.some.inj henter
      exact .rest (fun _ _ h => by cases h) rfl
    · obtain rfl := Option.some.inj henter
      exact .hands rfl (.flush hmu) rfl
  · rename_i p hmu
    split_ifs at henter
    · obtain rfl := Option.some.inj henter
      exact .rest (fun _ _ h => by cases h) rfl
    · obtain rfl := Option.some.inj henter
      exact .hands rfl (.datagram hmu) rfl
  · cases henter

private theorem write_writes {ok : Bool} (hwrite : e.write ok = some e') : e.Writes e' := by
  unfold write at hwrite
  split at hwrite
  · rename_i w frames rest hmu
    split at hwrite
    · cases hwrite
    · rename_i bytes hencoded
      split_ifs at hwrite
      · dsimp only at hwrite
        split at hwrite
        · obtain rfl := Option.some.inj hwrite
          refine ⟨fun w' records h => ?_, Or.inr ⟨w, frames, [], ⟨frames, bytes, hencoded⟩, hmu,
            rfl, ?_⟩⟩
          · cases w <;> cases h
          · cases w <;> rfl
        · obtain rfl := Option.some.inj hwrite
          refine ⟨fun w' records h => Or.inr (Or.inl ?_), Or.inr ⟨w, frames, rest,
            ⟨frames, bytes, hencoded⟩, hmu, rfl, rfl⟩⟩
          obtain ⟨rfl, rfl⟩ := Holder.writing.inj h
          exact ⟨frames, hmu⟩
      · obtain rfl := Option.some.inj hwrite
        exact .rest (fun _ _ h => by cases w <;> cases h) (by cases w <;> rfl)
  · cases hwrite

end Steps

variable [Quicvarint] [GoAppend] {e e' : Endpoint}

private theorem receive_writes (rec : Bytes) (now : Time) : e.Writes (e.receive rec now) := by
  unfold receive
  dsimp only
  split_ifs
  · exact .same rfl rfl
  · split <;> exact .same rfl rfl

/-- Every step leaves the records, writes one of them, or hands over new ones. -/
theorem step_writes {a : Action} (hstep : step e a = some e') : e.Writes e' := by
  cases stepped hstep with
  | lock _ hlock => exact lock_writes hlock
  | enter henter => exact enter_writes henter
  | write hwrite => exact write_writes hwrite
  | abort haborts =>
      cases haborts with
      | writer => exact .rest (fun _ _ h => by cases h) rfl
      | _ => exact .same rfl rfl
  | record => exact receive_writes _ _
  | _ => exact .same rfl rfl

/-- What was written stays written. -/
theorem step_wire {a : Action} (hstep : step e a = some e') : e.wire <+: e'.wire := by
  rcases (step_writes hstep).wire with hsame | ⟨_, _, _, record, -, -, hwire⟩
  · exact hsame ▸ List.prefix_rfl
  · exact hwire ▸ List.prefix_append _ _

/-- What holds of every record that is handed over, and stays true, holds of every
record that is written or about to be. -/
theorem forall_records {Q : Conn → Writer → List Frame → Prop} {config : Config}
    {isServer : Bool} (hconfig : config.Valid)
    (hmono : ∀ c c' w frames, c.Extends c' → Q c w frames → Q c' w frames)
    (hparameters : Q (Conn.new config isServer) .parameters
      [.transportParameters (Conn.new config isServer).localParameters])
    (hhands : ∀ labels e w records, Machine.run step (new config isServer) labels = some e →
      e.Hands w records → ∀ frames ∈ records, Q e.conn w frames)
    {labels : List Action} {e : Endpoint}
    (hrun : Machine.run step (new config isServer) labels = some e) :
    (∀ w records, e.writeMu = .writing w records → ∀ frames ∈ records, Q e.conn w frames) ∧
      ∀ record ∈ e.wire, ∃ w, Q e.conn w record.frames := by
  induction labels using List.reverseRecOn generalizing e with
  | nil =>
      obtain rfl := Option.some.inj hrun
      refine ⟨fun w records hmu frames hframes => ?_, fun record hrecord => by cases hrecord⟩
      obtain ⟨rfl, rfl⟩ := Holder.writing.inj hmu
      rw [List.mem_singleton.mp hframes]
      exact hparameters
  | append_singleton labels a ih =>
      obtain ⟨mid, hmid, hstep⟩ := Machine.run_snoc hrun
      obtain ⟨hpending, hwire⟩ := ih hmid
      obtain ⟨_, _, _, htraced⟩ := traced hconfig hmid
      obtain ⟨_, hnext, -⟩ := htraced.restart.step hconfig.recordSize_le hstep
      have hext : mid.conn.Extends e.conn := hnext.past.since.later
      have hwrites := step_writes hstep
      constructor
      · intro w records hmu frames hframes
        apply hmono _ _ _ _ hext
        rcases hwrites.pending w records hmu with hsame | ⟨first, hfirst⟩ | hnew
        · exact hpending w records hsame frames hframes
        · exact hpending w _ hfirst frames (List.mem_cons_of_mem _ hframes)
        · exact hhands labels mid w records hmid hnew frames hframes
      · intro record hrecord
        have hold (h : record ∈ mid.wire) : ∃ w, Q e.conn w record.frames := by
          obtain ⟨w, hw⟩ := hwire record h
          exact ⟨w, hmono _ _ _ _ hext hw⟩
        rcases hwrites.wire with hsame | ⟨w, frames, rest, last, hmu, rfl, hlast⟩
        · exact hold (hsame ▸ hrecord)
        · rw [hlast] at hrecord
          rcases List.mem_append.mp hrecord with h | h
          · exact hold h
          · rw [List.mem_singleton.mp h]
            exact ⟨w, hmono _ _ _ _ hext (hpending w _ hmu _ List.mem_cons_self)⟩

end Endpoint

end Qmux
