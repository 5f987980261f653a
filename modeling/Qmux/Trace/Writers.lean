import Qmux.Trace.Basic

/-!
The steps of the holder of `writeMu`: taking the lock, the critical section
under `mu`, and the writes. Each continues the history of the connection and
keeps the wire a start of the log.
-/

namespace Qmux

open Wire

section Pack

variable [Quicvarint]

theorem packControl_flatten (frames built : List Frame) (size : Nat) :
    (packControl frames built size).flatten = built ++ frames := by
  induction frames generalizing built size with
  | nil =>
      unfold packControl
      split_ifs with hempty
      · simp [hempty]
      · simp
  | cons f rest ih =>
      unfold packControl
      split_ifs
      · simp [ih]
      · simp [ih]

private theorem ping_append_eq_none {f : Ping} (hsequence : maxVarint < f.sequence) :
    f.append = none := by
  have hnone : Quicvarint.append f.sequence = none := by
    cases hencode : Quicvarint.append f.sequence with
    | none => rfl
    | some b => exact absurd (append_le hencode) (Nat.not_le_of_lt hsequence)
  unfold Ping.append
  cases Quicvarint.append (if f.response then typePingResponse else typePingRequest) with
  | none => rfl
  | some t => simp [hnone]

theorem appendAll_eq_none {frames : List Frame} {f : Frame} (hmem : f ∈ frames)
    (hf : f.append = none) : appendAll frames = none := by
  induction frames with
  | nil => cases hmem
  | cons g rest ih =>
      unfold appendAll
      rcases List.mem_cons.mp hmem with rfl | hrest
      · simp [hf]
      · cases g.append with
        | none => rfl
        | some b => simp [ih hrest]

end Pack

namespace Endpoint

variable [Quicvarint] [GoAppend]

namespace Traced

variable {config : Config} {isServer : Bool} {t₀ t more : Traffic} {c₀ : Conn}
  {heard : List Parsed} {e e' : Endpoint}

private theorem last_append (h : Traced config isServer t₀ c₀ heard t e) {handed : List Frame}
    (hhanded : handed.Pairwise (fun f _ => ∀ g, f ≠ .connectionClose g))
    (hunsent : ∀ f, .connectionClose f ∉ t.handed) :
    (t.handed ++ handed).Pairwise (fun f _ => ∀ g, f ≠ .connectionClose g) :=
  List.pairwise_append.mpr
    ⟨h.last, hhanded, fun _ hf _ _ g hg => hunsent g (hg ▸ hf)⟩

private theorem wire_lock (h : Traced config isServer t₀ c₀ heard t e)
    (hmu : e.writeMu.pending = []) (handed : List Frame) :
    ∃ rest, t.handed ++ handed = e.sent ++ rest ∧ (e.failed = false → rest = handed) := by
  obtain ⟨rest, hlog, hrest⟩ := h.wire
  refine ⟨rest ++ handed, by rw [hlog, List.append_assoc], fun hfailed => ?_⟩
  rw [hrest hfailed, hmu, List.nil_append]

omit [Quicvarint] [GoAppend] in
private theorem took_append (t : Traffic) (handed : List Frame) (pings : List PingEvent) :
    (t ++ { handed := handed, pings := pings }).took = t.took :=
  List.append_nil _

private theorem relock (h : Traced config isServer t₀ c₀ heard t e) (hfree : e.writeMu = .free)
    {w : Holder} (hpending : w.pending = []) (hwriting : ∀ v records, w ≠ .writing v records)
    (hheld : Held { e with writeMu := w }) :
    Traced config isServer t₀ c₀ heard t { e with writeMu := w } := by
  have hwire := h.wire_lock (by rw [hfree]; rfl) []
  rw [List.append_nil] at hwire
  exact ⟨h.past, h.took, h.reading, hpending ▸ hwire, hheld, h.cause, h.idle, h.unsent,
    fun records hw => absurd hw (hwriting _ _), h.last⟩

/-- Nothing is handed out. -/
private theorem nothing (h : Traced config isServer t₀ c₀ heard t e)
    (hpending : e.writeMu.pending = []) :
    Traced config isServer t₀ c₀ heard (t ++ { handed := e.writeMu.pending }) e := by
  rw [hpending]
  exact t.append_empty.symm ▸ h

theorem lock (h : Traced config isServer t₀ c₀ heard t e) (hfree : e.writeMu = .free) {job : Job}
    (hlock : e.lock job = some e') :
    Traced config isServer t₀ c₀ heard (t ++ { handed := e'.writeMu.pending }) e' := by
  cases job with
  | chunk r p =>
      obtain ⟨⟨hholds, -⟩, ⟨⟩⟩ := Option.ite_none_right_eq_some.mp hlock
      exact (h.relock hfree rfl (fun v rs hw => by cases hw) (h.held.lock hfree
        (fun i hi => by cases hi; exact hholds) (fun q hq => by cases hq)
        (fun l hl => by cases hl))).nothing rfl
  | closeSend r =>
      obtain ⟨hholds, ⟨⟩⟩ := Option.ite_none_right_eq_some.mp hlock
      exact (h.relock hfree rfl (fun v rs hw => by cases hw) (h.held.lock hfree
        (fun i hi => by cases hi; exact hholds) (fun q hq => by cases hq)
        (fun l hl => by cases hl))).nothing rfl
  | flush =>
      obtain ⟨hwoken, ⟨⟩⟩ := Option.ite_none_right_eq_some.mp hlock
      exact (h.relock hfree rfl (fun v rs hw => by cases hw) (h.held.lock hfree
        (fun i hi => by cases hi) (fun q hq => by cases hq)
        (fun l hl => by cases hl; exact hwoken))).nothing rfl
  | datagram p =>
      obtain ⟨hlimit, ⟨⟩⟩ := Option.ite_none_right_eq_some.mp hlock
      have hready : e.conn.ready = true := by
        by_contra hnot
        have hpeer := h.held.fresh (by simpa using hnot)
        simp [Conn.datagramLimit, hpeer] at hlimit
      exact (h.relock hfree rfl (fun v rs hw => by cases hw) (h.held.lock hfree
        (fun i hi => by cases hi) (fun q hq => by cases hq; exact ⟨hready, hlimit⟩)
        (fun l hl => by cases hl))).nothing rfl
  | close =>
      simp only [Endpoint.lock] at hlock
      split at hlock
      · rename_i f hcloser
        obtain rfl := Option.some.inj hlock
        have hclosed : e.conn.closeErr ≠ none := by
          intro hnone
          rw [h.idle.mpr hnone] at hcloser
          cases hcloser
        refine ⟨h.past.move (.close (Option.isSome_iff_ne_none.mpr hclosed)),
          (took_append t _ _).symm ▸ h.took, fun hopen => absurd hopen hclosed,
          h.wire_lock (by rw [hfree]; rfl) _,
          h.held.lock hfree (fun i hi => by cases hi) (fun q hq => by cases hq)
            (fun l hl => by cases hl), h.cause, ?_, ?_, fun _ _ => rfl,
          h.last_append (List.pairwise_singleton _ _) (h.unsent (Or.inr ⟨_, hcloser⟩))⟩
        · simpa using hclosed
        · rintro (hcase | ⟨g, hcase⟩) <;> cases hcase
      · cases hlock

/-- The holder of the lock runs its critical section under `mu`. -/
private theorem handOver (h : Traced config isServer t₀ c₀ heard t e)
    (hpending : e.writeMu.pending = []) {handed : List Frame} {pings : List PingEvent}
    {c : Conn} {w : Holder} {l : Loop}
    (hmove : Conn.Move (· ∈ heard) e.conn { handed := handed, pings := pings } c)
    (hw : w.pending = handed)
    (hopen : e.conn.closeErr = none) (hstream : w.stream? = none)
    (hdatagram : ∀ p, w ≠ .datagram p) (hclosing : ∀ records, w ≠ .writing .close records)
    (hloop : ∀ l', w.loop? = some l' → l = l')
    (hping : c.nextPing ≤ 2 ^ 62 ∨ Stuck { e with conn := c, writeMu := w, loop := l }) :
    Traced config isServer t₀ c₀ heard (t ++ { handed := w.pending, pings := pings })
      { e with conn := c, writeMu := w, loop := l } := by
  subst hw
  obtain ⟨hclose, hcause⟩ := Conn.closeErr_of_move hmove
  have hnone := Conn.close_not_handed h.past.history.control hmove hopen
  refine ⟨h.past.move hmove, (took_append t _ _).symm ▸ h.took,
    fun hopen' hreading => (took_append t _ _).trans (h.reading hopen hreading),
    h.wire_lock hpending w.pending,
    h.held.settle (.of_move hmove) hstream hdatagram hloop hping,
    hcause.trans (h.cause.trans hclose.symm), hclose ▸ h.idle, ?_,
    fun records hw => absurd hw (hclosing records), ?_⟩
  · intro hcloser f hf
    rcases List.mem_append.mp hf with hf | hf
    · exact h.unsent hcloser f hf
    · exact hnone f hf
  · refine h.last_append ?_ (h.unsent (Or.inl (h.idle.mpr hopen)))
    exact List.pairwise_of_forall_mem_list (fun f hf _ _ g hg => hnone g (hg ▸ hf))

/-- The holder finds nothing to send. -/
private theorem release (h : Traced config isServer t₀ c₀ heard t e)
    (hpending : e.writeMu.pending = []) {l : Loop}
    (hping : e.conn.nextPing ≤ 2 ^ 62 ∨ Stuck { e with writeMu := .free, loop := l }) :
    Traced config isServer t₀ c₀ heard (t ++ { handed := [] })
      { e with writeMu := .free, loop := l } := by
  have hwire := h.wire_lock hpending []
  rw [List.append_nil] at hwire
  have hheld : Held { e with writeMu := .free, loop := l } :=
    h.held.settle (.refl _) rfl (fun p hp => by cases hp) (fun l hl => by cases hl) hping
  have hfree : Traced config isServer t₀ c₀ heard t { e with writeMu := .free, loop := l } :=
    ⟨h.past, h.took, h.reading, hwire, hheld, h.cause, h.idle, h.unsent,
      (fun records hw => by cases hw), h.last⟩
  exact hfree.nothing rfl

theorem not_stuck (h : Traced config isServer t₀ c₀ heard t e)
    (hmu : ∀ records, e.writeMu ≠ .writing .flush records) :
    e.conn.nextPing ≤ 2 ^ 62 ∨ e.loop = .failed ∨ e.loop = .ended := by
  rcases h.held.ping with hle | ⟨records, hcase, -⟩ | hloop
  · exact Or.inl hle
  · exact absurd hcase (hmu records)
  · exact Or.inr hloop

private theorem enter_chunk (h : Traced config isServer t₀ c₀ heard t e) {r : Ref} {p : Bytes}
    (hmu : e.writeMu = .chunk r p) {now : Time} (henter : e.enter now = some e') :
    Traced config isServer t₀ c₀ heard (t ++ { handed := e'.writeMu.pending }) e' := by
  have hpending : e.writeMu.pending = [] := by rw [hmu]; rfl
  have hping := h.not_stuck (fun records hcase => by rw [hmu] at hcase; cases hcase)
  simp only [Endpoint.enter, hmu, Conn.reserve] at henter
  cases herr : e.conn.sendErrLocked (e.conn.heap r) with
  | some err =>
      simp only [herr] at henter
      obtain rfl := Option.some.inj henter
      exact h.release hpending (hping.imp_right Or.inr)
  | none =>
      obtain ⟨hopen, herr', hfin⟩ := Conn.sendErrLocked_none herr
      simp only [herr] at henter
      obtain rfl := Option.some.inj henter
      have hcredit : min (min p.length maxStreamData)
          (e.conn.sendCreditLocked (e.conn.heap r)) ≤
            e.conn.sendCreditLocked (e.conn.heap r) := Nat.min_le_right _ _
      have hlen : min (min p.length maxStreamData)
          (e.conn.sendCreditLocked (e.conn.heap r)) ≤ p.length := by omega
      have hchunk : min (min p.length maxStreamData)
          (e.conn.sendCreditLocked (e.conn.heap r)) ≤ maxStreamData := by omega
      generalize min (min p.length maxStreamData)
        (e.conn.sendCreditLocked (e.conn.heap r)) = n at hcredit hlen hchunk
      have hmove : Conn.Move (· ∈ heard) e.conn { handed := _ } (e.conn.spend r n) :=
        .reserve hopen (h.held.stream r (by rw [hmu]; rfl)) herr' hfin hcredit hlen hchunk
      refine h.handOver hpending hmove ?_ hopen ?_ ?_ ?_ ?_ ?_
      · split_ifs
        · rfl
        · simp [Holder.pending, Conn.spend, Conn.setStream]
      · split_ifs <;> rfl
      · intro q hq
        split_ifs at hq
      · intro records hw
        split_ifs at hw
        simp at hw
      · intro l hl
        split_ifs at hl <;> cases hl
      · exact hping.imp_right Or.inr

private theorem enter_closeSend (h : Traced config isServer t₀ c₀ heard t e) {r : Ref}
    (hmu : e.writeMu = .closeSend r) {now : Time} (henter : e.enter now = some e') :
    Traced config isServer t₀ c₀ heard (t ++ { handed := e'.writeMu.pending }) e' := by
  have hpending : e.writeMu.pending = [] := by rw [hmu]; rfl
  have hping := h.not_stuck (fun records hcase => by rw [hmu] at hcase; cases hcase)
  have hholds := h.held.stream r (by rw [hmu]; rfl)
  simp only [Endpoint.enter, hmu, Conn.finish] at henter
  cases hopen : e.conn.closeErr with
  | some err =>
      simp only [hopen] at henter
      obtain rfl := Option.some.inj henter
      exact h.release hpending (hping.imp_right Or.inr)
  | none =>
      simp only [hopen] at henter
      split_ifs at henter with hended
      · obtain rfl := Option.some.inj henter
        exact h.release hpending (hping.imp_right Or.inr)
      · obtain rfl := Option.some.inj henter
        simp only [Bool.or_eq_true, not_or, Bool.not_eq_true, Option.isSome_eq_false_iff,
          Option.isNone_iff_eq_none] at hended
        have hmove : Conn.Move (· ∈ heard) e.conn { handed := _ } (e.conn.endSend r) :=
          .act hopen (.finish hholds hended.2 hended.1)
        have hr : r < e.conn.count := by
          simp only [Conn.holdsSend, Bool.and_eq_true, decide_eq_true_eq] at hholds
          exact hholds.1.1
        have hid := ((Conn.Extends.of_move hmove).streams r hr).id
        refine h.handOver hpending hmove ?_ hopen rfl (fun q hq => by cases hq)
          (fun records hw => by cases hw) (fun l hl => by cases hl) ?_
        · simp [Holder.pending, hid]
        · rcases Conn.nextPing_of_move hmove with hsame | ⟨hmem, -⟩
          · rw [hsame]
            exact hping.imp_right Or.inr
          · simp at hmem

/-- The sequence number that cannot be encoded ends the write loop. -/
private theorem ping_stuck {c c' : Conn} {pings : List PingEvent}
    (hmove : Conn.Move (· ∈ heard) c { handed := c.controlFrames, pings := pings } c')
    {records : List (List Frame)} (hrecords : records.flatten = c.controlFrames)
    (hle : c.nextPing ≤ 2 ^ 62) :
    c'.nextPing ≤ 2 ^ 62 ∨ ∃ frames ∈ records, appendAll frames = none := by
  rcases Conn.nextPing_of_move hmove with hsame | ⟨hmem, -, hnext⟩
  · exact Or.inl (hsame ▸ hle)
  · rcases Nat.lt_or_eq_of_le hle with hlt | heq
    · exact Or.inl (by omega)
    · rw [← hrecords, List.mem_flatten] at hmem
      obtain ⟨frames, hframes, hmem⟩ := hmem
      refine Or.inr ⟨frames, hframes, appendAll_eq_none hmem ?_⟩
      exact ping_append_eq_none (by simp [heq, maxVarint])

private theorem enter_flush (h : Traced config isServer t₀ c₀ heard t e)
    (hmu : e.writeMu = .flush) {now : Time} (henter : e.enter now = some e') :
    Traced config isServer t₀ c₀ heard
      (t ++ { handed := e'.writeMu.pending, pings := e.conn.askedBy now }) e' := by
  have hpending : e.writeMu.pending = [] := by rw [hmu]; rfl
  have hloop : e.loop = .woken := h.held.loop _ (by rw [hmu]; rfl)
  have hle : e.conn.nextPing ≤ 2 ^ 62 := by
    have hping := h.not_stuck (fun records hcase => by rw [hmu] at hcase; cases hcase)
    simpa [hloop] using hping
  simp only [Endpoint.enter, hmu, Conn.takeControl] at henter
  split_ifs at henter with hclosed
  · simp only [packControl, if_true] at henter
    obtain rfl := Option.some.inj henter
    have hnone : e.conn.askedBy now = [] := if_pos hclosed
    rw [hnone]
    exact h.release hpending (Or.inl hle)
  · have hopen : e.conn.closeErr = none := by simpa using hclosed
    have hmove : Conn.Move (· ∈ heard) e.conn { handed := _, pings := _ }
        (e.conn.flushed now) := .flush hopen hle
    have hflatten := packControl_flatten e.conn.controlFrames [] 0
    rw [List.nil_append] at hflatten
    have hstuck := ping_stuck hmove hflatten hle
    split at henter
    · rename_i hnone
      obtain rfl := Option.some.inj henter
      rw [hnone] at hflatten hstuck
      refine h.handOver hpending hmove hflatten hopen rfl (fun p hp => by cases hp)
        (fun records hw => by cases hw) (fun l hl => by cases hl) ?_
      exact hstuck.imp_right (fun ⟨frames, hframes, _⟩ => by cases hframes)
    · obtain rfl := Option.some.inj henter
      refine h.handOver hpending hmove hflatten hopen rfl (fun p hp => by cases hp)
        (fun records hw => by cases hw) (fun l hl => by cases hl; exact hloop) ?_
      exact hstuck.imp_right (fun hframes => Or.inl ⟨_, rfl, hframes⟩)

private theorem enter_datagram (h : Traced config isServer t₀ c₀ heard t e) {p : Bytes}
    (hmu : e.writeMu = .datagram p) {now : Time} (henter : e.enter now = some e') :
    Traced config isServer t₀ c₀ heard (t ++ { handed := e'.writeMu.pending }) e' := by
  have hpending : e.writeMu.pending = [] := by rw [hmu]; rfl
  have hping := h.not_stuck (fun records hcase => by rw [hmu] at hcase; cases hcase)
  simp only [Endpoint.enter, hmu] at henter
  split_ifs at henter with hcause
  · obtain rfl := Option.some.inj henter
    exact h.release hpending (hping.imp_right Or.inr)
  · obtain rfl := Option.some.inj henter
    have hopen : e.conn.closeErr = none := by
      rw [← h.cause]
      simpa using hcause
    obtain ⟨-, hlimit, hlen⟩ := h.held.datagram p hmu
    exact h.handOver hpending (.datagram hopen hlimit hlen) rfl hopen rfl
      (fun q hq => by cases hq) (fun records hw => by cases hw) (fun l hl => by cases hl)
      (hping.imp_right Or.inr)

theorem enter (h : Traced config isServer t₀ c₀ heard t e) {now : Time}
    (henter : e.enter now = some e') :
    Traced config isServer t₀ c₀ heard
      (t ++ { handed := e'.writeMu.pending, pings := e.askedBy now }) e' := by
  unfold Endpoint.askedBy
  cases hmu : e.writeMu with
  | chunk r p => exact h.enter_chunk hmu henter
  | closeSend r => exact h.enter_closeSend hmu henter
  | flush => exact h.enter_flush hmu henter
  | datagram p => exact h.enter_datagram hmu henter
  | free => simp [Endpoint.enter, hmu] at henter
  | writing w records => simp [Endpoint.enter, hmu] at henter
  | aborting => simp [Endpoint.enter, hmu] at henter

private theorem wire_write (h : Traced config isServer t₀ c₀ heard t e) (hfailed : e.failed = false)
    {w : Writer} {rest : List (List Frame)} (record : Record)
    (hmu : e.writeMu = .writing w (record.frames :: rest)) :
    t.handed = (e.wire ++ [record]).flatMap Record.frames ++ rest.flatten := by
  obtain ⟨left, hlog, hleft⟩ := h.wire
  rw [hlog, hleft hfailed, hmu]
  simp [sent, Holder.pending]

/-- A record that was encoded leaves the write loop as stuck as it was. -/
private theorem ping_write (h : Traced config isServer t₀ c₀ heard t e) {w : Writer}
    {frames : List Frame} {rest : List (List Frame)}
    (hmu : e.writeMu = .writing w (frames :: rest)) {bytes : Bytes}
    (hbytes : appendAll frames = some bytes) :
    e.conn.nextPing ≤ 2 ^ 62 ∨ (w = .flush ∧ ∃ frames ∈ rest, appendAll frames = none) ∨
      e.loop = .failed ∨ e.loop = .ended := by
  rcases h.held.ping with hle | ⟨records, hcase, stuck, hmem, hnone⟩ | hloop
  · exact Or.inl hle
  · rw [hmu] at hcase
    obtain ⟨rfl, rfl⟩ : w = .flush ∧ frames :: rest = records := by simpa using hcase
    rcases List.mem_cons.mp hmem with rfl | hrest
    · rw [hbytes] at hnone
      cases hnone
    · exact Or.inr (Or.inl ⟨rfl, stuck, hrest, hnone⟩)
  · exact Or.inr (Or.inr hloop)

/-- The lock is released after a write: only the loop, the closer, the wire and
the failure flag may have changed. -/
theorem unlock (h : Traced config isServer t₀ c₀ heard t e) (hconn : e'.conn = e.conn)
    (hreader : e'.reader = e.reader)
    (hmu : e'.writeMu = .free ∨ e'.writeMu = .aborting)
    (hwire : ∃ rest, t.handed = e'.sent ++ rest ∧ (e'.failed = false → rest = []))
    (hcloser : e'.closer = e.closer ∨ (e.closer = .writing ∧ e'.closer = .shutdown))
    (hping : e.conn.nextPing ≤ 2 ^ 62 ∨ e'.loop = .failed ∨ e'.loop = .ended) :
    Traced config isServer t₀ c₀ heard t e' := by
  refine ⟨hconn ▸ h.past, h.took, hconn ▸ hreader ▸ h.reading, ?_, h.held.settle (hconn ▸ .refl _) ?_ ?_ ?_ ?_, hconn ▸ h.cause,
    ?_, ?_, ?_, h.last⟩
  · obtain ⟨rest, hlog, hrest⟩ := hwire
    refine ⟨rest, hlog, fun hfailed => (hrest hfailed).trans ?_⟩
    rcases hmu with hmu | hmu <;> rw [hmu] <;> rfl
  · rcases hmu with hmu | hmu <;> rw [hmu] <;> rfl
  · intro p hp
    rcases hmu with hmu | hmu <;> rw [hmu] at hp <;> cases hp
  · intro l hl
    rcases hmu with hmu | hmu <;> rw [hmu] at hl <;> cases hl
  · rw [hconn]
    exact hping.imp_right Or.inr
  · rw [hconn, ← h.idle]
    rcases hcloser with hsame | ⟨hwriting, hshutdown⟩
    · rw [hsame]
    · simp [hwriting, hshutdown]
  · rcases hcloser with hsame | ⟨-, hshutdown⟩
    · rw [hsame]
      exact h.unsent
    · simp [hshutdown]
  · intro records hw
    rcases hmu with hmu | hmu <;> rw [hmu] at hw <;> cases hw

private theorem written (h : Traced config isServer t₀ c₀ heard t e) (hfailed : e.failed = false)
    {w : Writer} (record : Record) (hmu : e.writeMu = .writing w [record.frames]) :
    Traced config isServer t₀ c₀ heard t
      (({ e with wire := e.wire ++ [record] } : Endpoint).written w) := by
  have hwire : ∃ rest, t.handed = (e.wire ++ [record]).flatMap Record.frames ++ rest ∧
      (e.failed = false → rest = []) := ⟨[], h.wire_write hfailed record hmu, fun _ => rfl⟩
  have hping := h.ping_write hmu record.encoded
  simp only [List.not_mem_nil, false_and, exists_false, and_false, false_or] at hping
  cases w with
  | parameters =>
      have hloop : e.loop = .parameters := h.held.loop _ (by rw [hmu]; rfl)
      exact h.unlock rfl rfl (Or.inl rfl) hwire (Or.inl rfl)
        (Or.inl (by simpa [hloop] using hping))
  | flush =>
      have hloop : e.loop = .woken := h.held.loop _ (by rw [hmu]; rfl)
      exact h.unlock rfl rfl (Or.inl rfl) hwire (Or.inl rfl)
        (Or.inl (by simpa [hloop] using hping))
  | stream => exact h.unlock rfl rfl (Or.inl rfl) hwire (Or.inl rfl) hping
  | datagram => exact h.unlock rfl rfl (Or.inl rfl) hwire (Or.inl rfl) hping
  | close => exact h.unlock rfl rfl (Or.inl rfl) hwire (Or.inr ⟨h.closing _ hmu, rfl⟩) hping

private theorem writeFails (h : Traced config isServer t₀ c₀ heard t e) {w : Writer}
    {frames : List Frame} {rest : List (List Frame)}
    (hmu : e.writeMu = .writing w (frames :: rest)) {bytes : Bytes}
    (hbytes : appendAll frames = some bytes) :
    Traced config isServer t₀ c₀ heard t (e.writeFails w) := by
  have hwire : ∃ rest, t.handed = e.sent ++ rest ∧ (true = false → rest = []) := by
    obtain ⟨rest, hlog, -⟩ := h.wire
    exact ⟨rest, hlog, fun hcase => by cases hcase⟩
  have hping (hw : w ≠ .flush) :=
    (h.ping_write hmu hbytes).imp_right (fun hcase => hcase.resolve_left (fun hf => hw hf.1))
  cases w with
  | parameters => exact h.unlock rfl rfl (Or.inl rfl) hwire (Or.inl rfl) (Or.inr (Or.inl rfl))
  | flush => exact h.unlock rfl rfl (Or.inl rfl) hwire (Or.inl rfl) (Or.inr (Or.inl rfl))
  | stream => exact h.unlock rfl rfl (Or.inr rfl) hwire (Or.inl rfl) (hping (by decide))
  | datagram => exact h.unlock rfl rfl (Or.inr rfl) hwire (Or.inl rfl) (hping (by decide))
  | close =>
      exact h.unlock rfl rfl (Or.inl rfl) hwire (Or.inr ⟨h.closing _ hmu, rfl⟩)
        (hping (by decide))

theorem write (h : Traced config isServer t₀ c₀ heard t e) {ok : Bool}
    (hwrite : e.write ok = some e') : Traced config isServer t₀ c₀ heard t e' := by
  unfold Endpoint.write at hwrite
  split at hwrite
  · rename_i w frames rest hmu
    split at hwrite
    · cases hwrite
    · rename_i bytes hbytes
      cases ok with
      | false =>
          obtain rfl := Option.some.inj hwrite
          exact h.writeFails hmu hbytes
      | true =>
          simp only [if_true] at hwrite
          split_ifs at hwrite with hdown
          simp only [Bool.or_eq_true, not_or, Bool.not_eq_true] at hdown
          cases rest with
          | nil =>
              obtain rfl := Option.some.inj hwrite
              exact h.written hdown.2 ⟨frames, bytes, hbytes⟩ hmu
          | cons more rest =>
              obtain rfl := Option.some.inj hwrite
              have hwire := h.wire_write hdown.2 ⟨frames, bytes, hbytes⟩ hmu
              have hloop := h.held.loop
              have hclosing := h.closing
              rw [hmu] at hloop hclosing
              refine ⟨h.past, h.took, h.reading, ⟨_, hwire, fun _ => rfl⟩,
                h.held.settle (.refl _) rfl (fun p hp => by cases hp) ?_ ?_,
                h.cause, h.idle, h.unsent, ?_, h.last⟩
              · intro l hl
                refine hloop l ?_
                cases w <;> exact hl
              · rcases h.ping_write hmu hbytes with hle | ⟨rfl, hstuck⟩ | hended
                · exact Or.inl hle
                · exact Or.inr (Or.inl ⟨_, rfl, hstuck⟩)
                · exact Or.inr (Or.inr hended)
              · intro records hw
                cases hw
                exact hclosing _ rfl
  · cases hwrite

end Traced

end Endpoint

end Qmux
