import Qmux.Facing.View
import Qmux.FlowControl
import Qmux.Waiting.Steps

/-!
No caller is left waiting: as long as the channel of a caller is open, calling
again would only lead to the same wait. A stream that the connection has
forgotten is not in the table that `terminate` goes through; nobody waits on
it.
-/

namespace Qmux

open Wire

namespace Conn

section Moves

variable [Quicvarint] [GoAppend] {heard : Parsed → Prop} {c c' : Conn} {t : Traffic}

variable {config : Config} {isServer : Bool} {t₀ : Traffic} {c₀ : Conn} {w : Waiting}

/-- A move ends the wait of those it wakes only. -/
theorem waits_of_move (hhistory : History config isServer heard t₀ c)
    (hmove : Move heard c t c') (h : c.Waits w) : c'.Waits w := by
  have hclose : c'.closeErr = c.closeErr := (closeErr_of_move hmove).1
  have hextends : c.Extends c' := .of_move hmove
  have hlives : c.Lives c' := .of_move hmove
  cases w with
  | opening dir channel =>
      refine Signal.Sleeps.guarded h ((out_guards hmove dir).imp_right ?_)
      rintro ⟨hkept, himp⟩
      exact ⟨hkept, And.imp hclose.trans himp⟩
  | accepting dir channel =>
      refine Signal.Sleeps.guarded h ((incoming_guards hmove dir).imp_right ?_)
      rintro ⟨hkept, himp⟩
      exact ⟨hkept, And.imp hclose.trans himp⟩
  | reading r size channel deadline =>
      refine ⟨hextends.holdsRecv h.1, ?_⟩
      rw [hclose]
      exact hlives.stream (fun _ _ => Stream.starves_step) (holdsRecv_iff.mp h.1).1 h.2
  | peeking r size channel deadline =>
      refine ⟨hextends.holdsRecv h.1, ?_⟩
      rw [hclose]
      exact hlives.stream (fun _ _ => Stream.starves_step) (holdsRecv_iff.mp h.1).1 h.2
  | sending r channel connChannel deadline =>
      obtain ⟨hholds, hissued, hsleeps⟩ := h
      have hr := (holdsSend_iff.mp hholds).1
      have hlimited := (History.facing hhistory).1
      have hsent : c.sent < 2 ^ 64 := by
        have hle := hlimited.sent_le.trans hlimited.sendMax_le
        change c.sent ≤ 2 ^ 62 - 1 at hle
        omega
      have hoffset : (c.heap r).sendOffset < 2 ^ 64 :=
        History.forall_streams hhistory (P := fun s => s.sendOffset < 2 ^ 64)
          (fun _ _ _ _ => Nat.two_pow_pos 64) (fun _ _ => Stream.sendOffset_step) r hr
      -- The stream's part first, with the state of the connection as it was.
      have hstream := (hlives.stream (r := r)
        (P := fun s => s.sendOffset < 2 ^ 64 ∧ s.writeSignal.Sleeps channel
          (c.sendSignal.IsOpen connChannel → c.closeErr = none ∧ s.Sendable deadline ∧
            (c.sendMax ≤ c.sent ∨ s.sendMax ≤ s.sendOffset)))
        (fun _ _ hstep hs => ⟨Stream.sendOffset_step hstep hs.1, Stream.sendable_step hstep hs.1 hs.2⟩)
        hr ⟨hoffset, hsleeps⟩).2
      rcases send_guards hmove hsent with hwoken | ⟨hkept, himp⟩
      · refine ⟨hextends.holdsSend hholds, hwoken ▸ hissued.broadcast, hstream.1, ?_⟩
        intro _ hopen
        rw [hwoken] at hopen
        exact absurd hopen (Signal.not_open_broadcast _ _)
      · refine ⟨hextends.holdsSend hholds, hissued.kept hkept, hstream.kept (.refl _) ?_⟩
        intro hsends hopen
        obtain ⟨hnone, hsendable, hcredit⟩ := hsends (hissued.was_open hkept hopen)
        exact ⟨hclose.trans hnone, hsendable, hcredit.imp_left himp⟩

/-- A stream that somebody waits on is in the table, so that `terminate` wakes
them. -/
private theorem in_table (hconfig : config.Valid) (hhistory : History config isServer heard t c)
    (hopen : c.closeErr = none) {r : Ref} (hr : r < c.count)
    (hside : (c.heap r).recvDone = false ∨ (c.heap r).sendDone = false) :
    c.streams (c.heap r).id = some r := by
  have hordered := History.ordered hconfig hhistory
  exact (hordered.tabled hopen _ r).mpr ⟨hr, rfl, hordered.not_done hr hside⟩

omit [Quicvarint] [GoAppend] in
private theorem recvDone_of_starves {size : Nat} {deadline : Option Time} {s : Stream}
    (htidy : s.Tidy) (hrecv : s.canRecv = true) (h : s.Starves size deadline) :
    s.recvDone = false := by
  have hnone := htidy.err
  rw [h.err, Option.isSome_none, Bool.false_eq, Bool.or_eq_false_iff] at hnone
  simp [Stream.recvDone, hrecv, hnone.1, h.fin]

/-- The end of the connection wakes everybody. -/
theorem waits_of_terminate (hconfig : config.Valid)
    (hhistory : History config isServer heard t c) (err : ConnError) (h : c.Waits w) :
    (c.terminate err).1.Waits w := by
  unfold terminate
  split_ifs with hclosed
  · exact h
  have hopen : c.closeErr = none := by simpa using hclosed
  have hextends : c.Extends (c.terminated err) := by
    have := Extends.terminate c err
    rwa [terminate, if_neg hclosed] at this
  have reader {r : Ref} {size channel : Nat} {deadline : Option Time}
      (hholds : c.holdsRecv r = true) (hsleeps : (c.heap r).readSignal.Sleeps channel
        (c.closeErr = none ∧ (c.heap r).Starves size deadline)) :
      ((c.terminated err).heap r).readSignal.Sleeps channel
        ((c.terminated err).closeErr = none ∧
          ((c.terminated err).heap r).Starves size deadline) := by
    obtain ⟨hr, -, hrecv⟩ := holdsRecv_iff.mp hholds
    simp only [terminated]
    split_ifs with htable
    · exact hsleeps.broadcast
    · refine ⟨hsleeps.1, fun hwaits => absurd ?_ htable⟩
      exact in_table hconfig hhistory hopen hr (Or.inl (recvDone_of_starves
        (History.tidy hhistory r hr) hrecv (hsleeps.2 hwaits).2))
  cases w with
  | opening dir channel => exact Signal.Sleeps.broadcast h
  | accepting dir channel => exact Signal.Sleeps.broadcast h
  | reading r size channel deadline => exact ⟨hextends.holdsRecv h.1, reader h.1 h.2⟩
  | peeking r size channel deadline => exact ⟨hextends.holdsRecv h.1, reader h.1 h.2⟩
  | sending r channel connChannel deadline =>
      obtain ⟨hholds, hissued, hsleeps⟩ := h
      refine ⟨hextends.holdsSend hholds, hissued.broadcast, ?_, ?_⟩
      · simp only [terminated]
        split_ifs
        · exact hsleeps.1.broadcast
        · exact hsleeps.1
      · exact fun _ hwaits => absurd hwaits (Signal.not_open_broadcast _ _)

theorem Since.waits (hconfig : config.Valid) (hstart : History config isServer heard t₀ c₀)
    (hsince : Since heard t₀ c₀ t c) (h : c₀.Waits w) : c.Waits w := by
  induction hsince with
  | start => exact h
  | move hprior hmove ih => exact waits_of_move (hstart.trans hprior) hmove ih
  | terminate err hprior ih => exact waits_of_terminate hconfig (hstart.trans hprior) err ih

end Moves

end Conn

namespace Endpoint

variable [Quicvarint] [GoAppend]

/-- A goroutine that found nothing to do in one state of a run and got channels
to wait on: in every later state, as long as they are open, calling again would
lead to the same wait. -/
theorem wakeups_kept (config : Option Config) (isServer : Bool) {before after : List Action}
    {e e₀ e' : Endpoint} {op : Call} {w : Waiting}
    (hbefore : Machine.run step (new (Config.normalized config) isServer) before = some e)
    (hcall : e.step (.call op) = some e₀) (hwait : e.conn.waitsBy op = some w)
    (hafter : Machine.run step e₀ after = some e') (hopen : e'.conn.Sleeping w) :
    e'.conn.Blocks w := by
  have hvalid := Config.normalized_valid config
  obtain ⟨t₀, c₀, t, htraced⟩ := traced hvalid hbefore
  obtain ⟨more, hmore, -⟩ := htraced.step hvalid.recordSize_le hcall
  obtain ⟨t', hlater⟩ := hmore.restart.run hvalid.recordSize_le hafter
  obtain ⟨c, hconn, rfl⟩ := Option.map_eq_some_iff.mp hcall
  have hsub : ∀ f, f ∈ before.flatMap heardBy ++ heardBy (.call op) →
      f ∈ before.flatMap heardBy ++ heardBy (.call op) ++ after.flatMap heardBy :=
    fun f hf => List.mem_append_left _ hf
  have hwaits := Conn.Since.waits hvalid (hmore.past.history.mono hsub) hlater.past.since
    (Conn.waits_of_call hconn hwait)
  exact hwaits.blocks hopen

end Endpoint

/-- A reader that waits for the next byte, while data comes on another
stream. -/
theorem wakeups_kept_reader : ∃ e e₀ e' : Endpoint,
    Machine.run Endpoint.step (Endpoint.new (Config.normalized none) true) oneByte = some e ∧
    e.step (.call (.tryRead 0 1)) = some e₀ ∧
    Machine.run Endpoint.step e₀
      [.record ((Frame.stream ⟨6, 0, [8], false⟩).append.getD []) 0] = some e' ∧
    e'.conn.Blocks (.reading 0 1 0 none) := by
  have hrun : ((Machine.run Endpoint.step (Endpoint.new (Config.normalized none) true)
      oneByte).bind (fun e => (e.step (.call (.tryRead 0 1))).bind (fun e₀ =>
        (Machine.run Endpoint.step e₀
          [.record ((Frame.stream ⟨6, 0, [8], false⟩).append.getD []) 0]).map (fun e' =>
            (e.conn.waitsBy (.tryRead 0 1), (e'.conn.heap 0).readSignal))))) =
      some (some (.reading 0 1 0 none), ⟨0, true⟩) := by
    decide +kernel
  obtain ⟨e, hbefore, hrun⟩ := Option.bind_eq_some_iff.mp hrun
  obtain ⟨e₀, hcall, hrun⟩ := Option.bind_eq_some_iff.mp hrun
  obtain ⟨e', hafter, hstate⟩ := Option.map_eq_some_iff.mp hrun
  obtain ⟨hwait, hsignal⟩ := Prod.mk.inj hstate
  have hopen : e'.conn.Sleeping (.reading 0 1 0 none) := by
    change (e'.conn.heap 0).readSignal.IsOpen 0
    rw [hsignal]
    exact ⟨rfl, rfl⟩
  exact ⟨e, e₀, e', hbefore, hcall, hafter,
    Endpoint.wakeups_kept none true hbefore hcall hwait hafter hopen⟩

end Qmux
