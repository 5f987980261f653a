import Qmux.Trace.Steps
import Qmux.Trace.Writers

/-!
Every step of an endpoint continues the history of its connection, and so does
every run.
-/

namespace Qmux

open Wire

namespace Endpoint

variable [Quicvarint] [GoAppend]

namespace Traced

variable {config : Config} {isServer : Bool} {t₀ t : Traffic} {c₀ : Conn}
  {heard : List Parsed} {e e' : Endpoint}

/-- The read loop handles a record. -/
theorem receive (h : Traced config isServer t₀ c₀ heard t e) (hreading : e.reader = .reading)
    (hconfig : config.maxRecordSize.toNat ≤ maxVarint) (rec : Bytes) (now : Time) :
    Traced config isServer t₀ c₀ (heard ++ frames rec)
      (t ++ .accepting (e.accepted rec now) now) (e.receive rec now) := by
  have hsub : heard ⊆ heard ++ frames rec := List.subset_append_left _ _
  have hlater : t.took <+: heard ++ frames rec := h.took.trans (List.prefix_append _ _)
  have hempty : (t ++ .accepting [] now).took = t.took := List.append_nil _
  unfold Endpoint.receive Endpoint.accepted
  dsimp only
  split_ifs with hsize
  · exact h.moves hsub .refl rfl (hempty.symm ▸ hlater) (fun _ hcase => by cases hcase)
      rfl rfl rfl rfl rfl
  · cases hclose : e.conn.closeErr with
    | some err =>
        obtain ⟨hrecord, hnone⟩ := @Conn.handleRecord_closed _ _ e.conn (by rw [hclose]; rfl) rec now
        rw [hrecord, hnone]
        refine h.moves hsub .refl rfl (hempty.symm ▸ hlater) (fun hopen _ => ?_)
          rfl rfl rfl rfl rfl
        rw [hclose] at hopen
        cases hopen
    | none =>
        have hle : rec.length ≤ maxVarint := by
          rw [h.past.history.config.1] at hsize
          omega
        obtain ⟨hmoves, hprefix, hall⟩ := Conn.handleRecord_moves (c := e.conn) now hle
          (fun f hf => List.mem_append_right heard hf)
        have htook : (t ++ .accepting (e.conn.accepted rec now) now).took <+:
            heard ++ frames rec := by
          rw [Traffic.append_took, h.reading hclose hreading]
          exact (List.prefix_append_right_inj heard).mpr hprefix
        rcases hrecord : e.conn.handleRecord rec now with ⟨c, _ | err | err⟩
        · rw [hrecord] at hmoves hall
          refine h.moves hsub hmoves rfl htook (fun _ _ => ?_) rfl rfl rfl rfl rfl
          rw [Traffic.append_took, h.reading hclose hreading]
          exact congrArg (heard ++ ·) (hall hclose rfl)
        all_goals
          rw [hrecord] at hmoves
          exact h.moves hsub hmoves rfl htook (fun _ hcase => by cases hcase)
            rfl rfl rfl rfl rfl

theorem closeGracefully (h : Traced config isServer t₀ c₀ heard t e) (err : ConnError)
    (frame : Option ConnectionClose) :
    Traced config isServer t₀ c₀ heard t (e.closeGracefully err frame) :=
  h.terminate err (.graceful frame) (fun hcase => by cases hcase)

theorem abort (h : Traced config isServer t₀ c₀ heard t e) (err : ConnError) :
    Traced config isServer t₀ c₀ heard t (e.abort err) :=
  h.terminate err .shutdown (fun hcase => by cases hcase)

private theorem shutdown (h : Traced config isServer t₀ c₀ heard t e)
    (hcloser : e.closer = .graceful none ∨ e.closer = .shutdown) :
    Traced config isServer t₀ c₀ heard t { e with closed := true, closer := .ended } := by
  have hclosed : e.conn.closeErr ≠ none := by
    intro hnone
    rw [h.idle.mpr hnone] at hcloser
    rcases hcloser with hcase | hcase <;> cases hcase
  refine ⟨h.past, h.took, h.reading, h.wire, h.held.carry (.refl _) rfl rfl rfl, h.cause,
    ?_, ?_, ?_, h.last⟩
  · simpa using hclosed
  · rintro (hcase | ⟨f, hcase⟩) <;> cases hcase
  · intro records hmu
    have hwriting := h.closing records hmu
    rw [hwriting] at hcloser
    rcases hcloser with hcase | hcase <;> cases hcase

/-- The write loop moves on while it does not hold the lock. -/
private theorem relocate (h : Traced config isServer t₀ c₀ heard t e) {c : Conn} {l : Loop}
    {woken : Bool} (hmove : Conn.Move (· ∈ heard) e.conn { woken := woken } c)
    (hcore : c.core = e.conn.core) (hloop : e.loop ≠ .woken ∧ e.loop ≠ .parameters)
    (hping : e.conn.nextPing ≤ 2 ^ 62 ∨ l = .ended) :
    Traced config isServer t₀ c₀ heard (t ++ { woken := woken })
      { e with conn := c, loop := l } := by
  have htook : (t ++ { woken := woken }).took = t.took := List.append_nil _
  have hhanded : (t ++ { woken := woken }).handed = t.handed := List.append_nil _
  obtain ⟨hclose, hcause⟩ := Conn.closeErr_of_move hmove
  have hheld : Held { e with conn := c } :=
    h.held.carry (.of_move hmove) (congrArg Conn.nextPing hcore :) rfl rfl
  refine ⟨h.past.move hmove, htook.symm ▸ h.took,
    fun hopen hreading => htook.trans (h.reading (hclose ▸ hopen) hreading),
    hhanded.symm ▸ h.wire, ?_, hcause.trans (h.cause.trans hclose.symm),
    hclose ▸ h.idle, hhanded.symm ▸ h.unsent, h.closing, hhanded.symm ▸ h.last⟩
  refine ⟨hheld.stream, hheld.datagram, fun l' hl => ?_, hheld.fresh, ?_⟩
  · have hheldLoop := h.held.loop l' hl
    exact (Holder.loop?_eq hl).elim (fun hw => absurd (hheldLoop.trans hw) hloop.1)
      (fun hp => absurd (hheldLoop.trans hp) hloop.2)
  · have hsame := congrArg Conn.nextPing hcore
    change c.nextPing = e.conn.nextPing at hsame
    rcases hping with hle | rfl
    · exact Or.inl (hsame ▸ hle)
    · exact Or.inr (Or.inr (Or.inr rfl))

private theorem selecting (h : Traced config isServer t₀ c₀ heard t e) (hselect : e.loop = .select) :
    e.conn.nextPing ≤ 2 ^ 62 := by
  have hmu : ∀ records, e.writeMu ≠ .writing .flush records := by
    intro records hmu
    have hloop := h.held.loop .woken (by rw [hmu]; rfl)
    rw [hselect] at hloop
    cases hloop
  simpa [hselect] using h.not_stuck hmu

/-- A step of an endpoint continues its history. -/
theorem step (h : Traced config isServer t₀ c₀ heard t e)
    (hconfig : config.maxRecordSize.toNat ≤ maxVarint) {a : Action}
    (hstep : e.step a = some e') :
    ∃ more : Traffic, Traced config isServer t₀ c₀ (heard ++ heardBy a) (t ++ more) e' ∧
      more.reads = e.readsBy a ∧ more.pings = e.pingsBy a ∧ more.handed = e.handedBy a := by
  have still {e' : Endpoint} (h' : Traced config isServer t₀ c₀ heard t e') :
      ∃ more : Traffic, Traced config isServer t₀ c₀ (heard ++ []) (t ++ more) e' ∧
        more.reads = [] ∧ more.pings = [] ∧ more.handed = [] :=
    ⟨{}, by simpa [t.append_empty] using h', rfl, rfl, rfl⟩
  have relocating {woken : Bool} {e' : Endpoint}
      (h' : Traced config isServer t₀ c₀ heard (t ++ { woken := woken }) e') :
      ∃ more : Traffic, Traced config isServer t₀ c₀ (heard ++ []) (t ++ more) e' ∧
        more.reads = [] ∧ more.pings = [] ∧ more.handed = [] :=
    ⟨{ woken := woken }, by simpa using h', rfl, rfl, rfl⟩
  have handing {handed : List Frame} {pings : List PingEvent}
      (h' : Traced config isServer t₀ c₀ heard
        (t ++ { handed := e'.writeMu.pending, pings := pings }) e')
      (hhanded : ((e.step a).map (fun e => e.writeMu.pending)).getD [] = handed) :
      ∃ more : Traffic, Traced config isServer t₀ c₀ (heard ++ []) (t ++ more) e' ∧
        more.reads = [] ∧ more.pings = pings ∧ more.handed = handed := by
    rw [hstep] at hhanded
    exact ⟨_, by simpa using h', rfl, rfl, hhanded⟩
  cases stepped hstep with
  | @call op c hcall =>
      have hmove : Conn.Move (· ∈ heard) e.conn _ c := Conn.call_move _ hcall
      have htook : (t ++ { reads := e.conn.readsBy op }).took = t.took := List.append_nil _
      have h' : Traced config isServer t₀ c₀ heard (t ++ { reads := e.conn.readsBy op })
          { e with conn := c } := by
        refine h.moves (List.Subset.refl _) (.single hmove) rfl (htook.symm ▸ h.took)
          (fun hopen hread => htook.trans (h.reading ?_ hread)) rfl rfl rfl rfl rfl
        exact (Conn.closeErr_of_move hmove).1.symm.trans hopen
      exact ⟨{ reads := e.conn.readsBy op }, by simpa [heardBy] using h', rfl, rfl, rfl⟩
  | close hcloses =>
      cases hcloses with
      | violation hreader =>
          refine still ((h.closeGracefully _ _).aside rfl (fun hopen => ?_) rfl rfl rfl rfl rfl)
          exact absurd hopen (Conn.terminate_closed _ _)
      | _ => exact still (h.closeGracefully _ _)
  | abort haborts =>
      cases haborts with
      | start => exact still (h.abort _)
      | @writer cause hmu =>
          refine still ((h.abort _).unlock rfl rfl (Or.inl rfl) ?_ (Or.inl rfl) ?_)
          · obtain ⟨rest, hlog, hrest⟩ := (h.abort (.writeFailed cause)).wire
            refine ⟨rest, hlog, fun hfailed => (hrest hfailed).trans ?_⟩
            change e.writeMu.pending = []
            rw [hmu]
            rfl
          · refine (h.abort (.writeFailed cause)).not_stuck (fun records hwriting => ?_)
            change e.writeMu = _ at hwriting
            rw [hmu] at hwriting
            cases hwriting
      | writeLoop hloop =>
          refine relocating ((h.abort _).relocate (.refl _) rfl ?_ (Or.inr rfl))
          change e.loop ≠ _ ∧ e.loop ≠ _
          simp [hloop]
      | readLoop =>
          exact still ((h.abort _).aside rfl (fun _ hcase => by cases hcase) rfl rfl rfl rfl rfl)
  | lock hfree hlock => exact handing (h.lock hfree hlock) rfl
  | enter henter => exact handing (h.enter henter) rfl
  | write hwrite => exact still (h.write hwrite)
  | wake hselect =>
      exact relocating (h.relocate .woken rfl (by simp [hselect]) (Or.inl (h.selecting hselect)))
  | loopEnd hselect =>
      exact relocating (h.relocate (.refl _) rfl (by simp [hselect]) (Or.inr rfl))
  | record hreading => exact ⟨_, h.receive hreading hconfig _ _, rfl, rfl, rfl⟩
  | readFailed =>
      exact still (h.aside rfl (fun _ hcase => by cases hcase) rfl rfl rfl rfl rfl)
  | shutdown hcloser => exact still (h.shutdown hcloser)
  | transportCloses => exact still (h.aside rfl (fun _ hcase => hcase) rfl rfl rfl rfl rfl)

/-- And so does a run. -/
theorem run (h : Traced config isServer t₀ c₀ heard t e)
    (hconfig : config.maxRecordSize.toNat ≤ maxVarint) {labels : List Action}
    (hrun : Machine.run Endpoint.step e labels = some e') :
    ∃ t', Traced config isServer t₀ c₀ (heard ++ labels.flatMap heardBy) t' e' := by
  refine Machine.trace_invariant (P := fun labels e => ∃ t',
    Traced config isServer t₀ c₀ (heard ++ labels.flatMap heardBy) t' e)
    ⟨t, by simpa using h⟩ ?_ labels e' hrun
  rintro labels e a e' ⟨t', h'⟩ hstep
  obtain ⟨more, hmore, -⟩ := h'.step hconfig hstep
  exact ⟨t' ++ more, by simpa using hmore⟩

end Traced

/-- Every run of an endpoint is a history of its connection. -/
theorem traced {config : Config} {isServer : Bool} {labels : List Action} {e : Endpoint}
    (hconfig : config.Valid)
    (hrun : Machine.run step (new config isServer) labels = some e) :
    ∃ t₀ c₀ t, Traced config isServer t₀ c₀ (labels.flatMap heardBy) t e := by
  obtain ⟨t, h⟩ := (Traced.start config isServer).run hconfig.recordSize_le hrun
  exact ⟨_, _, t, h⟩

/-- A log of what the steps put out is the log `g` of the traffic. -/
theorem traced_watch {L : Type*} {out : Endpoint → Action → List L} (g : Traffic → List L)
    (happend : ∀ t more, g (t ++ more) = g t ++ g more)
    (hout : ∀ (e : Endpoint) (a : Action) (more : Traffic), more.reads = e.readsBy a →
      more.pings = e.pingsBy a → more.handed = e.handedBy a → g more = out e a)
    {config : Config} {isServer : Bool} {labels : List Action} {e : Endpoint} {log : List L}
    (hconfig : config.Valid)
    (hrun : Machine.run (Machine.watch step out) (new config isServer, []) labels =
      some (e, log)) :
    ∃ t₀ c₀ t, Traced config isServer t₀ c₀ (labels.flatMap heardBy) t e ∧
      g t = g { handed := [.transportParameters (Conn.new config isServer).localParameters] } ++
        log := by
  refine Machine.trace_invariant (P := fun labels (s : Endpoint × List L) =>
    ∃ t₀ c₀ t, Traced config isServer t₀ c₀ (labels.flatMap heardBy) t s.1 ∧ g t = _ ++ s.2)
    ⟨_, _, _, .start config isServer, (List.append_nil _).symm⟩ ?_ labels (e, log) hrun
  rintro labels s a s' ⟨t₀, c₀, t, htraced, hlog⟩ hstep
  obtain ⟨hstep, hlog'⟩ := Machine.watch_step hstep
  obtain ⟨more, hmore, hreads, hpings, hhanded⟩ := htraced.step hconfig.recordSize_le hstep
  refine ⟨t₀, c₀, t ++ more, by simpa using hmore, ?_⟩
  rw [hlog', happend, hlog, hout s.1 a more hreads hpings hhanded, List.append_assoc]

end Endpoint

end Qmux
