import Qmux.Write.Basic

/-!
What a call of `write` puts on its stream. The call that has `writeMu` is where the
endpoint is in its work; every other call waits or is done. So a call reserves
credit for one part of what it was given after the other, all of them on its own
stream, and one that succeeds has put all of it.
-/

namespace Qmux

open Wire

/-- Only the holder of `writeMu` takes this step, or becomes it. -/
def Action.isHolder : Action → Bool
  | .lock _ | .enter _ | .write _ | .abortWrite _ => true
  | _ => false

namespace Endpoint

variable [Quicvarint] {e e' : Endpoint}

/-- What follows `reserve` in `writeChunk`. -/
private theorem enter_reserve {now : Time} {r : Ref} {p : Bytes} (hmu : e.writeMu = .chunk r p)
    (henter : e.enter now = some e') :
    (∃ err, (e.conn.reserve r p.length).2 = .error err) ∧ e'.writeMu = .free ∨
      ∃ offset n, (e.conn.reserve r p.length).2 = .ok (offset, n) ∧ n ≤ p.length ∧
        (n = 0 ∧ e'.writeMu = .free ∨ n ≠ 0 ∧ ∃ f, e'.writeMu = .writing .stream [[f]]) := by
  have hle {c : Conn} {offset n : Nat}
      (hreserve : e.conn.reserve r p.length = (c, .ok (offset, n))) : n ≤ p.length := by
    unfold Conn.reserve at hreserve
    dsimp only at hreserve
    split at hreserve
    · cases hreserve
    · obtain ⟨-, hsame⟩ := Prod.mk.inj hreserve
      obtain ⟨-, rfl⟩ := Prod.mk.inj (Except.ok.inj hsame)
      exact (Nat.min_le_left _ _).trans (Nat.min_le_left _ _)
  simp only [enter, hmu] at henter
  rcases hreserve : e.conn.reserve r p.length with ⟨c, err | ⟨offset, n⟩⟩
  · rw [hreserve] at henter
    obtain rfl := Option.some.inj henter
    exact Or.inl ⟨⟨err, rfl⟩, rfl⟩
  · rw [hreserve] at henter
    obtain rfl := Option.some.inj henter
    refine Or.inr ⟨offset, n, rfl, hle hreserve, ?_⟩
    by_cases hn : n = 0
    · exact Or.inl ⟨hn, if_pos hn⟩
    · exact Or.inr ⟨hn, _, if_neg hn⟩

/-- A stream writer has one record to write. -/
private theorem write_stream {ok : Bool} {f : Frame}
    (hmu : e.writeMu = .writing .stream [[f]]) (hwrite : e.write ok = some e') :
    e'.writeMu = if ok then .free else .aborting := by
  unfold write at hwrite
  rw [hmu] at hwrite
  dsimp only at hwrite
  split at hwrite
  · cases hwrite
  · cases ok with
    | true =>
        obtain ⟨-, ⟨⟩⟩ := Option.ite_none_left_eq_some.mp hwrite
        rfl
    | false =>
        obtain rfl := Option.some.inj hwrite
        rfl

/-- Only a call of `write` is before `reserve`. -/
private theorem enter_ne_chunk {now : Time} (henter : e.enter now = some e') (r : Ref)
    (p : Bytes) : e'.writeMu ≠ .chunk r p := by
  intro hmu
  unfold enter at henter
  split at henter
  · split at henter
    · obtain rfl := Option.some.inj henter
      cases hmu
    · obtain rfl := Option.some.inj henter
      dsimp only at hmu
      split_ifs at hmu
  · split at henter <;> obtain rfl := Option.some.inj henter <;> cases hmu
  · dsimp only at henter
    split at henter <;> obtain rfl := Option.some.inj henter <;> cases hmu
  · split_ifs at henter <;> obtain rfl := Option.some.inj henter <;> cases hmu
  · cases henter

private theorem write_ne_chunk {ok : Bool} (hwrite : e.write ok = some e') (r : Ref)
    (p : Bytes) : e'.writeMu ≠ .chunk r p := by
  intro hmu
  unfold write at hwrite
  split at hwrite
  · rename_i w frames rest _
    split at hwrite
    · cases hwrite
    · split_ifs at hwrite
      · dsimp only at hwrite
        split at hwrite
        · obtain rfl := Option.some.inj hwrite
          cases w <;> cases hmu
        · obtain rfl := Option.some.inj hwrite
          cases hmu
      · obtain rfl := Option.some.inj hwrite
        cases w <;> cases hmu
  · cases hwrite

variable [GoAppend] {a : Action}

/-- The others leave `writeMu` to its holder. -/
theorem step_writeMu (hstep : e.step a = some e') (hother : a.isHolder = false) :
    e'.writeMu = e.writeMu := by
  cases stepped hstep with
  | lock => cases hother
  | enter => cases hother
  | write => cases hother
  | abort haborts =>
      cases haborts with
      | writer => cases hother
      | _ => rfl
  | record =>
      obtain ⟨c, reader, hframe⟩ := receive_frame e _ _
      rw [hframe]
  | _ => rfl

/-- Only a call of `write` takes `writeMu` to reserve credit. -/
theorem step_chunk (hstep : e.step a = some e') (hother : a.isWrite = false) {r : Ref}
    {p : Bytes} (hmu : e'.writeMu = .chunk r p) : e.writeMu = .chunk r p := by
  cases hholder : a.isHolder with
  | false => rw [← step_writeMu hstep hholder, hmu]
  | true =>
      cases stepped hstep with
      | @lock job e' _ hlock =>
          cases job with
          | chunk => cases hother
          | close =>
              simp only [lock] at hlock
              split at hlock
              · obtain rfl := Option.some.inj hlock
                cases hmu
              · cases hlock
          | _ =>
              obtain ⟨-, ⟨⟩⟩ := Option.ite_none_right_eq_some.mp hlock
              cases hmu
      | enter henter => exact absurd hmu (enter_ne_chunk henter r p)
      | write hwrite => exact absurd hmu (write_ne_chunk hwrite r p)
      | abort haborts =>
          cases haborts with
          | writer => cases hmu
          | _ => cases hholder
      | close hcloses => cases hcloses <;> cases hholder
      | _ => cases hholder

end Endpoint

namespace WriteCall

/-- The call is where the holder of `writeMu` is. -/
def Holds (c : WriteCall) (mu : Holder) : Prop :=
  match c.phase with
  | .reserve => mu = .chunk c.r c.rest
  | .record _ => ∃ f, mu = .writing .stream [[f]]
  | .abort => mu = .aborting
  | _ => False

/-- The call is between two records. -/
def Waits (c : WriteCall) : Prop :=
  c.phase = .trySend ∨ (∃ channel connChannel deadline,
    c.phase = .wait channel connChannel deadline) ∨ c.phase = .lock ∨ c.phase = .reserve

/-- The call has reserved credit for `n` bytes of what it was given. It counts them once
they are written, and returns no error when all are. -/
structure Progress (c : WriteCall) (n : Nat) : Prop where
  total : c.total ≤ n
  all : n ≤ c.p.length
  waits : c.Waits → n = c.total
  record : ∀ k, c.phase = .record k → n = c.total + k
  returned : c.phase = .returned none → n = c.total ∧ n = c.p.length

variable {c : WriteCall} {n : Nat}

theorem Holds.phase {mu : Holder} (h : c.Holds mu) :
    c.phase = .reserve ∧ mu = .chunk c.r c.rest ∨
      (∃ k f, c.phase = .record k ∧ mu = .writing .stream [[f]]) ∨
        c.phase = .abort ∧ mu = .aborting := by
  unfold Holds at h
  split at h
  · exact Or.inl ⟨by assumption, h⟩
  · obtain ⟨f, hf⟩ := h
    exact Or.inr (Or.inl ⟨_, f, by assumption, hf⟩)
  · exact Or.inr (Or.inr ⟨by assumption, h⟩)
  · exact h.elim

theorem Holds.holds {mu : Holder} (h : c.Holds mu) : c.phase.holds = true := by
  rcases h.phase with ⟨hphase, -⟩ | ⟨k, f, hphase, -⟩ | ⟨hphase, -⟩
  all_goals
    rw [hphase]
    rfl

/-- At the head of the loop the call does not have `writeMu`. -/
theorem loop_holds (c : WriteCall) : c.loop.phase.holds = false := by
  unfold WriteCall.loop
  dsimp only
  split_ifs <;> rfl

/-- Nothing is reserved, and the call fails. -/
theorem Progress.fails (h : c.Progress n) (err : WriteError) :
    Progress { c with phase := .returned (some err) } n :=
  ⟨h.total, h.all, by simp [Waits], by simp, by simp⟩

/-- The call goes on to its next record, if it has not written all. -/
theorem Progress.loop {total : Nat} (hall : total ≤ c.p.length) :
    (WriteCall.loop { c with total := total }).Progress total := by
  unfold WriteCall.loop
  refine ⟨Nat.le_refl _, hall, fun _ => rfl, fun k hk => ?_, fun hreturned => ⟨rfl, ?_⟩⟩
  · dsimp only at hk
    split_ifs at hk
  · dsimp only at hreturned
    split_ifs at hreturned with hless
    exact Nat.le_antisymm hall (Nat.le_of_not_lt hless)

/-- The call goes from one wait to another. -/
theorem Progress.wait (h : c.Progress n) (hwaits : c.Waits) {phase : WritePhase}
    (hphase : Waits { c with phase := phase }) : Progress { c with phase := phase } n := by
  refine ⟨h.total, h.all, fun _ => h.waits hwaits, fun k hk => ?_, fun hreturned => ?_⟩
  · simp only at hk
    simp [Waits, hk] at hphase
  · simp only at hreturned
    simp [Waits, hreturned] at hphase

variable [Quicvarint] {e e' : Endpoint}

/-- What the call has become after a step of its endpoint, where the step has reserved
credit for `data` on behalf of it. -/
structure Acted (c : WriteCall) (n : Nat) (e e' : Endpoint) (a : Action) (c' : WriteCall)
    (data : Bytes) : Prop where
  r : c'.r = c.r
  p : c'.p = c.p
  holds : c'.phase.holds = true → c'.Holds e'.writeMu
  chunk : c'.phase.holds = false → ∀ r p, e'.writeMu ≠ .chunk r p
  reserved : e.reservedBy a = if data = [] then [] else [(c.r, data)]
  progress : ∃ m, c.p.take n ++ data = c.p.take m ∧ c'.Progress m

private theorem acted_enter (h : c.Progress n) (hphase : c.phase = .reserve)
    (hmu : e.writeMu = .chunk c.r c.rest) {now : Time} (henter : e.enter now = some e') :
    ∃ data, Acted c n e e' (.enter now) (c.acted e e' (.enter now)) data := by
  have hn : n = c.total := h.waits (Or.inr (Or.inr (Or.inr hphase)))
  have hidle (hfree : e'.writeMu = .free) (r : Ref) (p : Bytes) : e'.writeMu ≠ .chunk r p := by
    simp [hfree]
  unfold acted
  rcases Endpoint.enter_reserve hmu henter with
    ⟨⟨err, herr⟩, hfree⟩ | ⟨offset, k, hok, hle, ⟨rfl, hfree⟩ | ⟨hk, hwriting⟩⟩
  · have hreserved : e.reservedBy (.enter now) = [] := by
      simp only [Endpoint.reservedBy, hmu, herr]
    rw [herr]
    exact ⟨[], rfl, rfl, nofun, fun _ => hidle hfree, hreserved, n, List.append_nil _,
      h.fails _⟩
  · have hreserved : e.reservedBy (.enter now) = [] := by
      simp only [Endpoint.reservedBy, hmu, hok, if_true]
    rw [hok]
    have hloop : c.loop.Progress n := hn ▸ Progress.loop (hn ▸ h.all)
    refine ⟨[], rfl, rfl, fun hholds => ?_, fun _ => hidle hfree, hreserved, n,
      List.append_nil _, hloop⟩
    exact absurd (c.loop_holds.symm.trans hholds) nofun
  · have hreserved : e.reservedBy (.enter now) = [(c.r, c.rest.take k)] := by
      simp only [Endpoint.reservedBy, hmu, hok, if_neg hk]
    have hlen : c.rest.length = c.p.length - c.total := List.length_drop
    have hne : c.rest.take k ≠ [] := by
      intro hnil
      have hzero := congrArg List.length hnil
      rw [List.length_take, List.length_nil] at hzero
      omega
    have hall := h.all
    simp only [hok, reserved, if_neg hk]
    refine ⟨c.rest.take k, rfl, rfl, fun _ => hwriting, nofun, ?_, n + k, ?_, ?_⟩
    · rw [hreserved, if_neg hne]
    · rw [List.take_add, hn]
      rfl
    · refine ⟨by simp only; omega, by simp only; omega, by simp [Waits], ?_, by simp⟩
      intro m hm
      obtain rfl := WritePhase.record.inj hm
      simp only
      omega

private theorem acted_write (h : c.Progress n) {k : Nat} (hphase : c.phase = .record k)
    {f : Frame} (hmu : e.writeMu = .writing .stream [[f]]) {ok : Bool}
    (hwrite : e.write ok = some e') :
    Acted c n e e' (.write ok) (c.acted e e' (.write ok)) [] := by
  have hnext := Endpoint.write_stream hmu hwrite
  have hn := h.record k hphase
  have hreserved : e.reservedBy (.write ok) = [] := rfl
  unfold acted wrote
  simp only [hphase]
  cases ok with
  | true =>
      simp only [if_true] at hnext ⊢
      have hdone := loop_holds { c with total := c.total + k }
      refine ⟨rfl, rfl, fun hholds => absurd (hdone.symm.trans hholds) nofun, ?_, hreserved, n,
        List.append_nil _, hn ▸ Progress.loop (hn ▸ h.all)⟩
      simp [hnext]
  | false =>
      simp only [Bool.false_eq_true, if_false] at hnext ⊢
      exact ⟨rfl, rfl, fun _ => hnext, nofun, hreserved, n, List.append_nil _,
        h.total, h.all, by simp [Waits], by simp, by simp⟩

private theorem acted_abort (h : c.Progress n) {cause : String}
    (hstep : e'.writeMu = .free) :
    Acted c n e e' (.abortWrite cause) (c.acted e e' (.abortWrite cause)) [] :=
  ⟨rfl, rfl, nofun, fun _ _ _ => by simp [hstep], rfl, n, List.append_nil _, h.fails _⟩

/-- The step of another goroutine, which leaves the call where it is. -/
private theorem acted_aside [GoAppend] (h : c.Progress n) (hholds : c.Holds e.writeMu)
    {a : Action} (hstep : e.step a = some e') (hother : a.isHolder = false) :
    Acted c n e e' a (c.acted e e' a) [] := by
  have hsame := Endpoint.step_writeMu hstep hother
  have hcall : c.acted e e' a = c := by
    cases a with
    | enter | write | abortWrite => cases hother
    | _ => rfl
  have hnone : e.reservedBy a = [] := by
    cases a with
    | enter => cases hother
    | _ => rfl
  rw [hcall]
  exact ⟨rfl, rfl, fun _ => hsame.symm ▸ hholds,
    fun hidle => absurd (hholds.holds.symm.trans hidle) nofun, hnone, n, List.append_nil _, h⟩

/-- The step of an endpoint, as the call that has `writeMu` sees it. -/
theorem acted_spec [GoAppend] (h : c.Progress n) (hholds : c.Holds e.writeMu) {a : Action}
    (hstep : e.step a = some e') : ∃ data, Acted c n e e' a (c.acted e e' a) data := by
  cases hholder : a.isHolder with
  | false => exact ⟨[], acted_aside h hholds hstep hholder⟩
  | true =>
      rcases hholds.phase with ⟨hphase, hmu⟩ | ⟨k, f, hphase, hmu⟩ | ⟨hphase, hmu⟩
      · cases a with
        | enter now => exact acted_enter h hphase hmu hstep
        | lock job => simp [Endpoint.step, hmu] at hstep
        | write ok => simp [Endpoint.step, Endpoint.write, hmu] at hstep
        | abortWrite cause => simp [Endpoint.step, hmu] at hstep
        | _ => cases hholder
      · cases a with
        | enter now => simp [Endpoint.step, Endpoint.enter, hmu] at hstep
        | lock job => simp [Endpoint.step, hmu] at hstep
        | write ok => exact ⟨[], acted_write h hphase hmu hstep⟩
        | abortWrite cause => simp [Endpoint.step, hmu] at hstep
        | _ => cases hholder
      · cases a with
        | enter now => simp [Endpoint.step, Endpoint.enter, hmu] at hstep
        | lock job => simp [Endpoint.step, hmu] at hstep
        | write ok => simp [Endpoint.step, Endpoint.write, hmu] at hstep
        | abortWrite cause =>
            obtain ⟨-, ⟨⟩⟩ := Option.ite_none_right_eq_some.mp hstep
            exact ⟨[], acted_abort h rfl⟩
        | _ => cases hholder

end WriteCall

namespace WriteCalls

/-- What holds of the calls at any time, where `mu` says who has `writeMu`. -/
structure Sound (w : WriteCalls) (mu : Holder) : Prop where
  holder : ∀ i, w.holder = some i → ∃ c, w.calls[i]? = some c ∧ c.Holds mu
  chunk : w.holder = none → ∀ r p, mu ≠ .chunk r p
  put : ∀ x ∈ w.put, ∃ c, w.calls[x.call]? = some c ∧ c.r = x.r
  progress : ∀ i c, w.calls[i]? = some c → ∃ n, w.putOf i = c.p.take n ∧ c.Progress n

variable {w w' : WriteCalls} {mu : Holder} {i : Nat} {c c' : WriteCall}

theorem sound_start (hmu : ∀ r p, mu ≠ .chunk r p) : Sound {} mu :=
  ⟨nofun, fun _ => hmu, nofun, by simp⟩

/-- What was put stays on the stream of its call. -/
private theorem Sound.put_setCall (h : w.Sound mu) (hc : w.calls[i]? = some c)
    (hr : c'.r = c.r) {x : Put} (hx : x ∈ w.put) :
    ∃ d, (w.setCall i c').calls[x.call]? = some d ∧ d.r = x.r := by
  obtain ⟨hi, -⟩ := List.getElem?_eq_some_iff.mp hc
  obtain ⟨d, hd, hsame⟩ := h.put x hx
  by_cases hcall : i = x.call
  · subst hcall
    obtain rfl : c = d := Option.some.inj (hc.symm.trans hd)
    exact ⟨c', List.getElem?_set_self hi, hr.trans hsame⟩
  · exact ⟨d, (List.getElem?_set_ne hcall).trans hd, hsame⟩

/-- A call that does not have `writeMu` goes on. -/
private theorem Sound.setCall (h : w.Sound mu) (hc : w.calls[i]? = some c)
    (hphase : c.phase.holds = false) (hr : c'.r = c.r) (hp : c'.p = c.p)
    (hprogress : ∀ n, c.Progress n → c'.Progress n) : (w.setCall i c').Sound mu := by
  obtain ⟨hi, -⟩ := List.getElem?_eq_some_iff.mp hc
  have hself : (w.setCall i c').calls[i]? = some c' := List.getElem?_set_self hi
  have hother {j : Nat} (hj : i ≠ j) : (w.setCall i c').calls[j]? = w.calls[j]? :=
    List.getElem?_set_ne hj
  refine ⟨fun j hj => ?_, h.chunk, fun x hx => h.put_setCall hc hr hx, fun j d hd => ?_⟩
  · obtain ⟨d, hd, hholds⟩ := h.holder j hj
    have hne : i ≠ j := by
      rintro rfl
      obtain rfl : c = d := Option.some.inj (hc.symm.trans hd)
      exact absurd (hphase.symm.trans hholds.holds) nofun
    exact ⟨d, (hother hne).trans hd, hholds⟩
  · by_cases hj : i = j
    · subst hj
      obtain rfl : c' = d := Option.some.inj (hself.symm.trans hd)
      obtain ⟨n, hn, hc'⟩ := h.progress i c hc
      exact ⟨n, hp ▸ hn, hprogress n hc'⟩
    · exact h.progress j d ((hother hj).symm.trans hd)

/-- A new call has reserved nothing. -/
private theorem Sound.write (h : w.Sound mu) (r : Ref) (p : Bytes) :
    Sound { w with calls := w.calls ++ [WriteCall.loop { r := r, p := p }] } mu := by
  have hold {j : Nat} {d : WriteCall} (hd : w.calls[j]? = some d) (new : WriteCall) :
      (w.calls ++ [new])[j]? = some d := by
    rw [List.getElem?_append_left (List.getElem?_eq_some_iff.mp hd).1, hd]
  refine ⟨fun j hj => ?_, h.chunk, fun x hx => ?_, fun j d hd => ?_⟩
  · obtain ⟨d, hd, hholds⟩ := h.holder j hj
    exact ⟨d, hold hd _, hholds⟩
  · obtain ⟨d, hd, hsame⟩ := h.put x hx
    exact ⟨d, hold hd _, hsame⟩
  · rcases Nat.lt_or_ge j w.calls.length with hj | hj
    · rw [List.getElem?_append_left hj] at hd
      exact h.progress j d hd
    · rw [List.getElem?_append_right hj] at hd
      obtain ⟨hlt, hlast⟩ := List.getElem?_eq_some_iff.mp hd
      obtain rfl : d = WriteCall.loop { r := r, p := p } := by
        rw [← hlast]
        simp
      refine ⟨0, ?_, WriteCall.Progress.loop (c := { r := r, p := p }) (Nat.zero_le _)⟩
      refine List.flatMap_eq_nil_iff.mpr (fun x hx => ?_)
      obtain ⟨hmem, hcall⟩ := List.mem_filter.mp hx
      obtain ⟨d, hd, -⟩ := h.put x hmem
      have hlt := (List.getElem?_eq_some_iff.mp hd).1
      have hsame : x.call = j := by simpa using hcall
      omega

/-- A call takes `writeMu`. -/
private theorem Sound.lock (h : w.Sound .free) (hc : w.calls[i]? = some c)
    (hphase : c.phase = .lock) :
    Sound { w.setCall i { c with phase := .reserve } with holder := some i }
      (.chunk c.r c.rest) := by
  have hset : (w.setCall i { c with phase := .reserve }).Sound .free :=
    h.setCall hc (by rw [hphase]; rfl) rfl rfl
      (fun n hn => hn.wait (Or.inr (Or.inr (Or.inl hphase))) (Or.inr (Or.inr (Or.inr rfl))))
  obtain ⟨hi, -⟩ := List.getElem?_eq_some_iff.mp hc
  refine ⟨fun j hj => ?_, nofun, hset.put, hset.progress⟩
  obtain rfl : i = j := Option.some.inj hj
  exact ⟨_, List.getElem?_set_self hi, rfl⟩

variable [Quicvarint] [GoAppend] {e e' : Endpoint}

omit [GoAppend] in
/-- The call that has `writeMu` goes on, and may have reserved credit. -/
private theorem Sound.holding (h : w.Sound mu) (hc : w.calls[i]? = some c) {n : Nat}
    (hput : w.putOf i = c.p.take n) {a : Action} {data : Bytes}
    (hacted : WriteCall.Acted c n e e' a c' data) :
    Sound { w.setCall i c' with
      holder := if c'.phase.holds then some i else none
      put := w.put ++ (e.reservedBy a).map (fun x => ⟨i, x.1, x.2⟩) } e'.writeMu := by
  obtain ⟨hi, -⟩ := List.getElem?_eq_some_iff.mp hc
  have hself : (w.setCall i c').calls[i]? = some c' := List.getElem?_set_self hi
  have hother {j : Nat} (hj : i ≠ j) : (w.setCall i c').calls[j]? = w.calls[j]? :=
    List.getElem?_set_ne hj
  have hmore : (e.reservedBy a).map (fun x => Put.mk i x.1 x.2) =
      if data = [] then [] else [⟨i, c.r, data⟩] := by
    rw [hacted.reserved]
    split_ifs <;> rfl
  rw [hmore]
  refine ⟨fun j hj => ?_, fun hnone => ?_, fun x hx => ?_, fun j d hd => ?_⟩
  · obtain ⟨hholds, ⟨⟩⟩ := Option.ite_none_right_eq_some.mp hj
    exact ⟨c', hself, hacted.holds hholds⟩
  · refine hacted.chunk (Bool.eq_false_iff.mpr (fun hholds => ?_))
    simp [hholds] at hnone
  · rcases List.mem_append.mp hx with hx | hx
    · exact h.put_setCall hc hacted.r hx
    · split_ifs at hx
      · cases hx
      · rw [List.mem_singleton.mp hx]
        exact ⟨c', hself, hacted.r⟩
  · by_cases hj : i = j
    · subst hj
      obtain rfl : c' = d := Option.some.inj (hself.symm.trans hd)
      obtain ⟨m, hm, hprogress⟩ := hacted.progress
      refine ⟨m, ?_, hprogress⟩
      rw [hacted.p, ← hm, ← hput]
      by_cases hdata : data = [] <;> simp [putOf, hdata]
    · obtain ⟨m, hm, hprogress⟩ := h.progress j d ((hother hj).symm.trans hd)
      refine ⟨m, ?_, hprogress⟩
      rw [← hm]
      by_cases hdata : data = [] <;> simp [putOf, hdata, hj]

/-- The endpoint takes a step that is not one only calls take. -/
private theorem Sound.acted (h : w.Sound e.writeMu) {a : Action} (hstep : e.step a = some e')
    (hother : a.isWrite = false) :
    (w.acted e e' a).Sound e'.writeMu ∧
      (w.acted e e' a).reserved = w.reserved ++ e.reservedBy a := by
  unfold WriteCalls.acted
  cases hholder : w.holder with
  | none =>
      have hchunk := h.chunk hholder
      have hnone : e.reservedBy a = [] := by
        unfold Endpoint.reservedBy
        split
        · split
          · rename_i r p hmu
            exact absurd hmu (hchunk r p)
          · rfl
        · rfl
      refine ⟨⟨?_, fun _ r p hmu => ?_, h.put, h.progress⟩, ?_⟩
      · rw [hholder]
        exact nofun
      · exact hchunk r p (Endpoint.step_chunk hstep hother hmu)
      · rw [hnone, List.append_nil]
  | some i =>
      obtain ⟨c, hc, hholds⟩ := h.holder i hholder
      obtain ⟨n, hput, hprogress⟩ := h.progress i c hc
      obtain ⟨data, hacted⟩ := WriteCall.acted_spec hprogress hholds hstep
      simp only [hc]
      exact ⟨h.holding hc hput hacted, by simp [reserved, Function.comp_def]⟩

/-- An event keeps the calls sound, and what it puts is what the endpoint reserves. -/
theorem Sound.next (h : w.Sound e.writeMu) {ev : WriteEvent}
    (hnext : w.next e e' ev = some w') (hidle : w.action ev = none → e' = e)
    (hstep : ∀ a, w.action ev = some a → e.step a = some e') :
    w'.Sound e'.writeMu ∧
      w'.reserved = w.reserved ++ ((w.action ev).map e.reservedBy).getD [] := by
  cases ev with
  | write r p =>
      obtain ⟨-, ⟨⟩⟩ := Option.ite_none_right_eq_some.mp hnext
      obtain rfl := hidle rfl
      exact ⟨h.write r p, (List.append_nil _).symm⟩
  | trySend i now =>
      obtain ⟨c, hc, hrest⟩ := Option.bind_eq_some_iff.mp hnext
      obtain ⟨hphase, ⟨⟩⟩ := Option.ite_none_right_eq_some.mp hrest
      have haction : w.action (.trySend i now) = some (.call (.trySend c.r now)) := by
        simp [action, hc]
      rw [haction, Endpoint.step_writeMu (hstep _ haction) rfl]
      refine ⟨h.setCall hc (by rw [hphase]; rfl) ?_ ?_ fun n hn => ?_, (List.append_nil _).symm⟩
      all_goals cases (e.conn.trySend c.r now).2
      all_goals try rfl
      · exact hn.wait (Or.inl hphase) (Or.inr (Or.inr (Or.inl rfl)))
      · exact hn.fails _
      · exact hn.fails _
      · exact hn.wait (Or.inl hphase) (Or.inr (Or.inl ⟨_, _, _, rfl⟩))
  | woken i =>
      obtain ⟨c, hc, hrest⟩ := Option.bind_eq_some_iff.mp hnext
      obtain rfl := hidle rfl
      split at hrest
      · rename_i channel connChannel deadline hphase
        obtain ⟨-, ⟨⟩⟩ := Option.ite_none_left_eq_some.mp hrest
        exact ⟨h.setCall hc (by rw [hphase]; rfl) rfl rfl (fun n hn =>
          hn.wait (Or.inr (Or.inl ⟨_, _, _, hphase⟩)) (Or.inl rfl)), (List.append_nil _).symm⟩
      · cases hrest
  | expired i now =>
      obtain ⟨c, hc, hrest⟩ := Option.bind_eq_some_iff.mp hnext
      obtain rfl := hidle rfl
      split at hrest
      · rename_i channel connChannel t hphase
        obtain ⟨-, ⟨⟩⟩ := Option.ite_none_right_eq_some.mp hrest
        exact ⟨h.setCall hc (by rw [hphase]; rfl) rfl rfl (fun n hn => hn.fails _),
          (List.append_nil _).symm⟩
      · cases hrest
  | lock i =>
      obtain ⟨c, hc, hrest⟩ := Option.bind_eq_some_iff.mp hnext
      obtain ⟨hphase, ⟨⟩⟩ := Option.ite_none_right_eq_some.mp hrest
      have haction : w.action (.lock i) = some (.lock (.chunk c.r c.rest)) := by
        simp [action, hc]
      obtain ⟨hfree, hlock⟩ := Option.ite_none_right_eq_some.mp (hstep _ haction)
      obtain ⟨-, ⟨⟩⟩ := Option.ite_none_right_eq_some.mp hlock
      rw [hfree] at h
      rw [haction]
      exact ⟨h.lock hc hphase, (List.append_nil _).symm⟩
  | act a =>
      obtain ⟨hother, ⟨⟩⟩ := Option.ite_none_left_eq_some.mp hnext
      exact h.acted (hstep a rfl) (by simpa using hother)

end WriteCalls

end Qmux
