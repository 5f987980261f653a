import Qmux.Endpoint

/-!
What a step of an endpoint can do, each way with what the code has checked. The
calls that end the connection come in two kinds: those that tell the peer, and
those that abort.
-/

namespace Qmux

open Wire

namespace Endpoint

variable [Quicvarint]

/-- The step calls `closeGracefully`, with the error and the frame, and leaves the read
loop where the last argument says. -/
inductive Closes (e : Endpoint) :
    Action → ConnError → Option ConnectionClose → ReadLoop → Prop where
  | application {code : Nat} {msg : Bytes} :
      Closes e (.closeWithError code msg) (applicationClose code msg).1
        (some (applicationClose code msg).2) e.reader
  | handshakeTimeout : Closes e .handshakeTimeout .handshakeTimeout none e.reader
  | idleTimeout : Closes e .idleTimeout .idleTimeout none e.reader
  | violation {err : Wire.Error} (hreader : e.reader = .violation err) :
      Closes e .readerCloses (transportClose err).1 (some (transportClose err).2) .reading

/-- The step calls `abort` with the error, on behalf of the goroutine that then moves on. -/
inductive Aborts (e : Endpoint) :
    Action → ConnError → Holder → Loop → ReadLoop → Prop where
  | start {cause : String} :
      Aborts e (.abort cause) (.cancelled cause) e.writeMu e.loop e.reader
  | writer {cause : String} (hmu : e.writeMu = .aborting) :
      Aborts e (.abortWrite cause) (.writeFailed cause) .free e.loop e.reader
  | writeLoop {cause : String} (hloop : e.loop = .failed) :
      Aborts e (.loopAbort cause) (.writeFailed cause) e.writeMu .ended e.reader
  | readLoop {err : ConnError} (hreader : e.reader = .aborting err) :
      Aborts e .readerCloses err e.writeMu e.loop .ended

section Frames

variable {e e' : Endpoint}

/-- To be handed `writeMu` changes nothing but who holds it. -/
theorem lock_frame {job : Job} (hlock : e.lock job = some e') :
    ∃ mu closer, e' = { e with writeMu := mu, closer := closer } ∧
      (closer = e.closer ∨ closer = .writing) := by
  cases job with
  | close =>
      simp only [lock] at hlock
      split at hlock
      · obtain rfl := Option.some.inj hlock
        exact ⟨_, _, rfl, Or.inr rfl⟩
      · cases hlock
  | _ =>
      obtain ⟨-, ⟨⟩⟩ := Option.ite_none_right_eq_some.mp hlock
      exact ⟨_, _, rfl, Or.inl rfl⟩

/-- The critical section of the holder is about the connection. -/
theorem enter_frame {now : Time} (henter : e.enter now = some e') :
    ∃ c mu loop, e' = { e with conn := c, writeMu := mu, loop := loop } := by
  have hkept {next : Endpoint} (hnext : some next = some e')
      (hsame : ∃ c mu loop, next = { e with conn := c, writeMu := mu, loop := loop }) :
      ∃ c mu loop, e' = { e with conn := c, writeMu := mu, loop := loop } :=
    Option.some.inj hnext ▸ hsame
  unfold enter at henter
  split at henter
  · split at henter <;> exact hkept henter ⟨_, _, _, rfl⟩
  · split at henter <;> exact hkept henter ⟨_, _, _, rfl⟩
  · dsimp only at henter
    split at henter <;> exact hkept henter ⟨_, _, _, rfl⟩
  · split_ifs at henter <;> exact hkept henter ⟨_, _, _, rfl⟩
  · cases henter

/-- What the holder does under `mu` is one of three critical sections. -/
theorem enter_conn {now : Time} (henter : e.enter now = some e') :
    (∃ r n, e'.conn = (e.conn.reserve r n).1) ∨ (∃ r, e'.conn = (e.conn.finish r).1) ∨
      e'.conn = (e.conn.takeControl now).1 ∨ e'.conn = e.conn := by
  unfold enter at henter
  split at henter
  · rename_i r p hmu
    refine Or.inl ⟨r, p.length, ?_⟩
    rcases hresult : e.conn.reserve r p.length with ⟨c, _ | ⟨offset, n⟩⟩
    all_goals
      rw [hresult] at henter
      obtain rfl := Option.some.inj henter
      rfl
  · rename_i r hmu
    refine Or.inr (Or.inl ⟨r, ?_⟩)
    rcases hresult : e.conn.finish r with ⟨c, _ | _ | finalSize⟩
    all_goals
      rw [hresult] at henter
      obtain rfl := Option.some.inj henter
      rfl
  · refine Or.inr (Or.inr (Or.inl ?_))
    rcases hresult : e.conn.takeControl now with ⟨c, frames⟩
    rw [hresult] at henter
    dsimp only at henter
    split at henter
    all_goals
      obtain rfl := Option.some.inj henter
      rfl
  · refine Or.inr (Or.inr (Or.inr ?_))
    split_ifs at henter
    all_goals
      obtain rfl := Option.some.inj henter
      rfl
  · cases henter

/-- A write is not about the connection, or the read loop. -/
theorem write_frame {ok : Bool} (hwrite : e.write ok = some e') :
    ∃ mu loop closer failed wire, e' = { e with
        writeMu := mu, loop := loop, closer := closer, failed := failed, wire := wire } ∧
      (closer = e.closer ∨ closer = .shutdown) := by
  unfold write at hwrite
  split at hwrite
  · rename_i w frames rest hmu
    split at hwrite
    · cases hwrite
    · split_ifs at hwrite
      · dsimp only at hwrite
        split at hwrite
        · obtain rfl := Option.some.inj hwrite
          cases w with
          | close => exact ⟨_, _, _, _, _, rfl, Or.inr rfl⟩
          | _ => exact ⟨_, _, _, _, _, rfl, Or.inl rfl⟩
        · obtain rfl := Option.some.inj hwrite
          exact ⟨_, _, _, _, _, rfl, Or.inl rfl⟩
      · obtain rfl := Option.some.inj hwrite
        cases w with
        | close => exact ⟨_, _, _, _, _, rfl, Or.inr rfl⟩
        | _ => exact ⟨_, _, _, _, _, rfl, Or.inl rfl⟩
  · cases hwrite

variable [GoAppend]

/-- A record is about the connection and the read loop. -/
theorem receive_frame (e : Endpoint) (rec : Bytes) (now : Time) :
    ∃ c reader, e.receive rec now = { e with conn := c, reader := reader } := by
  unfold receive
  dsimp only
  split_ifs
  · exact ⟨_, _, rfl⟩
  · split <;> exact ⟨_, _, rfl⟩

/-- A record that is not too large is handled. -/
theorem receive_conn (e : Endpoint) (rec : Bytes) (now : Time) :
    (e.receive rec now).conn = e.conn ∨ rec.length ≤ e.conn.config.maxRecordSize.toNat ∧
      (e.receive rec now).conn = (e.conn.handleRecord rec now).1 := by
  unfold receive
  dsimp only
  split_ifs with hlong
  · exact Or.inl rfl
  · refine Or.inr ⟨Nat.le_of_not_lt hlong, ?_⟩
    split <;> (rename_i hrecord; rw [hrecord])

end Frames

variable [GoAppend]

inductive Stepped (e : Endpoint) : Action → Endpoint → Prop where
  | call {op : Call} {c : Conn} (hcall : e.conn.call op = some c) :
      Stepped e (.call op) { e with conn := c }
  | close {a : Action} {err : ConnError} {frame : Option ConnectionClose} {reader : ReadLoop}
      (hcloses : e.Closes a err frame reader) :
      Stepped e a { e.closeGracefully err frame with reader := reader }
  | abort {a : Action} {err : ConnError} {mu : Holder} {loop : Loop} {reader : ReadLoop}
      (haborts : e.Aborts a err mu loop reader) :
      Stepped e a { e.abort err with writeMu := mu, loop := loop, reader := reader }
  | lock {job : Job} {e' : Endpoint} (hfree : e.writeMu = .free) (hlock : e.lock job = some e') :
      Stepped e (.lock job) e'
  | enter {now : Time} {e' : Endpoint} (henter : e.enter now = some e') :
      Stepped e (.enter now) e'
  | write {ok : Bool} {e' : Endpoint} (hwrite : e.write ok = some e') : Stepped e (.write ok) e'
  | wake (hselect : e.loop = .select) (hwake : e.conn.controlWake = true) :
      Stepped e .wake
        { e with loop := .woken, conn := { e.conn with controlWake := false } }
  | loopEnd (hselect : e.loop = .select) (hcause : e.conn.cause.isSome = true) :
      Stepped e .loopEnd { e with loop := .ended }
  | record {rec : Bytes} {now : Time} (hreading : e.reader = .reading) :
      Stepped e (.record rec now) (e.receive rec now)
  | readFailed {cause : String} (hreading : e.reader = .reading) :
      Stepped e (.readFailed cause)
        { e with reader := .aborting (.transportClosed cause) }
  | shutdown (hcloser : e.closer = .graceful none ∨ e.closer = .shutdown) :
      Stepped e .shutdown { e with closed := true, closer := .ended }
  | transportCloses : Stepped e .transportCloses { e with closed := true }

/-- These are all the steps. -/
theorem stepped {e e' : Endpoint} {a : Action} (hstep : e.step a = some e') :
    e.Stepped a e' := by
  cases a with
  | call op =>
      obtain ⟨c, hcall, rfl⟩ := Option.map_eq_some_iff.mp hstep
      exact .call hcall
  | closeWithError code msg =>
      obtain rfl := Option.some.inj hstep
      exact .close .application
  | handshakeTimeout =>
      obtain rfl := Option.some.inj hstep
      exact .close .handshakeTimeout
  | idleTimeout =>
      obtain rfl := Option.some.inj hstep
      exact .close .idleTimeout
  | abort cause =>
      obtain rfl := Option.some.inj hstep
      exact .abort .start
  | lock job =>
      obtain ⟨hfree, hlock⟩ := Option.ite_none_right_eq_some.mp hstep
      exact .lock hfree hlock
  | enter now => exact .enter hstep
  | write ok => exact .write hstep
  | abortWrite cause =>
      obtain ⟨hmu, ⟨⟩⟩ := Option.ite_none_right_eq_some.mp hstep
      exact .abort (.writer hmu)
  | wake =>
      obtain ⟨⟨hselect, hwake⟩, ⟨⟩⟩ := Option.ite_none_right_eq_some.mp hstep
      exact .wake hselect hwake
  | loopAbort cause =>
      obtain ⟨hloop, ⟨⟩⟩ := Option.ite_none_right_eq_some.mp hstep
      exact .abort (.writeLoop hloop)
  | loopEnd =>
      obtain ⟨⟨hselect, hcause⟩, ⟨⟩⟩ := Option.ite_none_right_eq_some.mp hstep
      exact .loopEnd hselect hcause
  | record rec now =>
      obtain ⟨hreading, ⟨⟩⟩ := Option.ite_none_right_eq_some.mp hstep
      exact .record hreading
  | readFailed cause =>
      obtain ⟨hreading, ⟨⟩⟩ := Option.ite_none_right_eq_some.mp hstep
      exact .readFailed hreading
  | readerCloses =>
      simp only [step, readerCloses] at hstep
      split at hstep
      · rename_i err hreader
        obtain rfl := Option.some.inj hstep
        exact .close (.violation hreader)
      · rename_i err hreader
        obtain rfl := Option.some.inj hstep
        exact .abort (.readLoop hreader)
      · cases hstep
  | shutdown =>
      simp only [step] at hstep
      split at hstep
      · rename_i hcloser
        obtain rfl := Option.some.inj hstep
        exact .shutdown (Or.inl hcloser)
      · rename_i hcloser
        obtain rfl := Option.some.inj hstep
        exact .shutdown (Or.inr hcloser)
      · cases hstep
  | transportCloses =>
      obtain rfl := Option.some.inj hstep
      exact .transportCloses

end Endpoint

end Qmux
