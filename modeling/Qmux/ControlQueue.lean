import Qmux.Control.Budget
import Qmux.Control.Growth
import Qmux.Trace.Run

/-!
The length of the control queue. If the peer keeps to the limits it was told, the
queue holds at most three frames for each stream the peer may have open.

But the limits that are enforced are not those: they move on as streams end and
as data is read, whether or not the peer was told. A peer that never reads can
open streams and let them end, and every one of them leaves a RESET_STREAM
behind.
-/

namespace Qmux

open Wire

namespace Conn

section History

variable [Quicvarint] [GoAppend] {config : Config} {isServer : Bool} {heard : Parsed → Prop}
  {t t' : Traffic} {c c' : Conn}

/-- A move of a connection that opens no streams itself keeps to the budget, as
long as the peer keeps to what it was told. -/
theorem Budget.move (hconfig : config.Valid) (hprior : History config isServer heard t c)
    (hkeeps : ∀ f, heard f → f.keepsTo config isServer t.handed = true)
    (hpassive : c'.Passive)
    (hmove : Move heard c t' c') (h : c.Budget t.handed) : c'.Budget (t ++ t').handed := by
  obtain ⟨hsame, hserver⟩ := History.config hprior
  have hnext : History config isServer heard (t ++ t') c' := .move hprior hmove
  have hordered := History.ordered hconfig hprior
  have hsound : ∀ r < c.count, (c.heap r).Sound c.config.streamWindow :=
    hsame ▸ History.streams_sound hconfig hprior
  have hwindow : c.config.streamWindow ≤ maxVarint := hsame ▸ hconfig.streamWindow_le
  rw [← hsame, ← hserver] at hkeeps
  have hquiet {d : Conn} (h : d.Budget t.handed)
      (hnone : ∀ g : Frame → Option Nat, (∀ f, g (.stream f) = none) →
        (∀ f, g (.datagram f) = none) → (∀ f, g (.connectionClose f) = none) →
          t'.handed.filterMap g = []) : d.Budget (t ++ t').handed :=
    h.untold (fun dir => hnone _ (fun _ => rfl) (fun _ => rfl) (fun _ => rfl))
      (fun id => hnone _ (fun _ => rfl) (fun _ => rfl) (fun _ => rfl))
  cases hmove with
  | still htook hhanded hpings hreads hcore =>
      refine hquiet (h.same (congrArg Conn.config hcore :) (congrArg Conn.count hcore :)
        (fun r => congrFun (congrArg heap hcore) r) (fun dir => ?_)
        (congrArg Conn.control hcore :)) (fun g _ _ _ => by rw [hhanded]; rfl)
      exact (congrArg (fun d : Conn => (d.incoming dir).next) hcore :)
  | act hopen hact =>
      exact hquiet (h.act hordered hopen hsound hwindow hkeeps hact)
        (fun g hstream _ _ => hact.handed_none hstream)
  | @openIncoming f id hopen hready hheard hstream hbound hpeer hle hmax =>
      have hvarint : maxVarint = 2 ^ 62 - 1 := rfl
      have hindex : id >>> 2 = id / 4 := Nat.shiftRight_eq_div_pow id 2
      have hlt := Parsed.keepsTo_stream (hkeeps f hheard) hstream hpeer
      refine hquiet (h.openIncoming (hle.trans_lt hlt) (by omega) ?_) (fun _ _ _ _ => rfl)
      -- No limit was declared of the stream yet, for it is new.
      have hother : ∀ i < c.count, (c.heap i).canRecv = true → (c.heap i).id ≠
          c.streamID (c.incoming (streamDir id)).next (streamDir id) false := by
        intro i hi _ heq
        have hkept : ((c.openIncoming (streamDir id)).heap i).id = (c.heap i).id :=
          congrArg Stream.id (Function.update_of_ne hi.ne _ _)
        have hnew : ((c.openIncoming (streamDir id)).heap c.count).id =
            c.streamID (c.incoming (streamDir id)).next (streamDir id) false := by
          change (Function.update c.heap c.count _ c.count).id = _
          rw [Function.update_self]
          rfl
        have hsingle := (History.ordered hconfig hnext).sound.named.unique i
          (Nat.lt_succ_of_lt hi) c.count (Nat.lt_succ_self _)
          (hkept.trans (heq.trans hnew.symm))
        exact hi.ne hsingle
      have hnone := unannounced (History.warrants hconfig hprior) hother
      rw [List.filterMap_append] at hnone
      unfold Config.toldStreamData
      rw [(List.append_eq_nil_iff.mp hnone).1]
      rfl
  | @openLocal dir =>
      have hown := hpassive c.count (Nat.lt_succ_self _)
      have hid : ((c.openLocal dir).heap c.count).id = c.streamID (c.out dir).next dir true := by
        change (Function.update c.heap c.count _ c.count).id = _
        rw [Function.update_self]
        rfl
      have hle : (c.out dir).next ≤ 2 ^ 60 := hordered.sound.named.next_le true dir
      have hlt : (c.out dir).next < 2 ^ 62 := by omega
      have hlocal := initiatedLocally_streamID c.isServer hlt dir true
      rw [hid] at hown
      exact absurd (hown.symm.trans hlocal) Bool.false_ne_true
  | @accept dir r rest hopen hqueue =>
      have hr := hordered.of_queue hqueue
      have haccepted : Budget t.handed ((c.setIncoming dir { c.incoming dir with queue := rest }
          ).setStream r { c.heap r with accepted := true }) :=
        h.update hr rfl rfl rfl (Budget.setIncoming_next c rfl) (List.append_nil _).symm
          ⟨(h.funded r hr).within, (h.funded r hr).ahead⟩ (Nat.zero_add _).le
      exact hquiet (haccepted.completeLocked hr) (fun _ _ _ _ => rfl)
  | @raiseStream r f hopen hready hheard hbound htable =>
      have hr := (hordered.of_table hopen htable).1
      exact hquiet (h.update hr rfl rfl rfl (fun _ => rfl) (List.append_nil _).symm
        ⟨(h.funded r hr).within, (h.funded r hr).ahead⟩ (Nat.zero_add _).le) (fun _ _ _ _ => rfl)
  | @raiseStreams f =>
      refine hquiet ?_ (fun _ _ _ _ => rfl)
      obtain ⟨out, hout⟩ := c.handleMaxStreams_frame f
      rw [hout]
      exact h.same rfl rfl (fun _ => rfl) (fun _ => rfl) rfl
  | @reserve r p n hopen hholds =>
      have hr := (holdsSend_iff.mp hholds).1
      refine hquiet (h.update hr rfl rfl rfl (fun _ => rfl) (List.append_nil _).symm
        ⟨(h.funded r hr).within, (h.funded r hr).ahead⟩ (Nat.zero_add _).le)
        (fun g hstream _ _ => ?_)
      dsimp only
      split_ifs
      · rfl
      · exact List.filterMap_cons_none (hstream _)
  | @flush now =>
      have hstate : (c.flushed now).control = [] ∧
          ∀ dir, ((c.flushed now).incoming dir).pending = false := by
        obtain ⟨_, _, _, _, hflush⟩ := c.flushed_frame now
        rw [hflush]
        exact ⟨rfl, fun _ => rfl⟩
      have hsame' := (History.config hnext).1
      exact .of_told (History.limitsTold hconfig hnext) (History.ordered hconfig hnext)
        (hsame' ▸ History.streams_sound hconfig hnext) hpassive hstate.1 hstate.2
  | datagram =>
      exact hquiet h (fun g _ hdatagram _ => List.filterMap_cons_none (hdatagram _))
  | close => exact hquiet h (fun g _ _ hclose => List.filterMap_cons_none (hclose _))
  | _ => exact hquiet (h.same rfl rfl (fun _ => rfl) (fun _ => rfl) rfl) (fun _ _ _ _ => rfl)

/-- What the peer was told is not taken back. -/
private theorem told_le (hconfig : config.Valid) (hhistory : History config isServer heard (t ++ t') c) :
    (∀ dir, config.toldStreams t.handed dir ≤ config.toldStreams (t ++ t').handed dir) ∧
      ∀ id, config.toldStreamData t.handed id ≤ config.toldStreamData (t ++ t').handed id := by
  have htold := History.limitsTold hconfig hhistory
  have hordered := htold.ordered (History.warrants hconfig hhistory)
  have hsame := (History.config hhistory).1
  unfold Config.toldStreams Config.toldStreamData
  rw [Traffic.append_handed] at htold hordered ⊢
  simp only [List.filterMap_append] at hordered ⊢
  refine ⟨fun dir => ?_, fun id => ?_⟩
  · have hstreams := (htold.streams dir).ordered
    rw [List.filterMap_append, hsame] at hstreams
    exact Announcer.last_le hstreams
  · have hstream := hordered id
    rw [hsame] at hstream
    exact Announcer.last_le (hstream.sublist
      (List.cons_sublist_cons.mpr (List.sublist_append_left _ _)))

/-- A frame that keeps to what the peer was told does so when it is told more. -/
private theorem keepsTo_mono (hconfig : config.Valid)
    (hhistory : History config isServer heard (t ++ t') c) {f : Parsed}
    (h : f.keepsTo config isServer t.handed = true) :
    f.keepsTo config isServer (t ++ t').handed = true := by
  obtain ⟨hstreams, hstream⟩ := told_le hconfig hhistory
  obtain ⟨hopens, hsends⟩ := Bool.and_eq_true_iff.mp h
  refine Bool.and_eq_true_iff.mpr ⟨?_, ?_⟩
  · cases hid : f.stream? with
    | none => rfl
    | some id =>
        rw [hid] at hopens
        simp only [Bool.or_eq_true, decide_eq_true_eq] at hopens ⊢
        exact hopens.imp_right (fun hlt => hlt.trans_le (hstreams _))
  · cases f with
    | blocked => rfl
    | frame f =>
        cases f with
        | stream f => exact decide_eq_true ((of_decide_eq_true hsends).trans (hstream _))
        | _ => rfl

omit [Quicvarint] [GoAppend] in
private theorem Budget.terminate {handed : List Frame} (h : c.Budget handed) (err : ConnError) :
    (c.terminate err).1.Budget handed := by
  unfold Conn.terminate
  split_ifs
  · exact h
  · refine h.same rfl rfl (fun r => ?_) (fun _ => rfl) rfl
    simp only [terminated]
    split_ifs <;> rfl

/-- As long as the peer keeps to what it was told, and the connection opens no
streams itself, it keeps to its budget. -/
theorem Since.budget {t₀ : Traffic} {c₀ : Conn} (hconfig : config.Valid)
    (hprior : History config isServer heard t₀ c₀) (hsince : Since heard t₀ c₀ t c)
    (hkeeps : ∀ f, heard f → f.keepsTo config isServer t₀.handed = true)
    (h : c₀.Passive → c₀.Budget t₀.handed) :
    (∀ f, heard f → f.keepsTo config isServer t.handed = true) ∧
      (c.Passive → c.Budget t.handed) := by
  induction hsince with
  | start => exact ⟨hkeeps, h⟩
  | @move t t' c c' hsince hmove ih =>
      have hhistory := hprior.trans hsince
      refine ⟨fun f hf => keepsTo_mono hconfig (hhistory.move hmove) (ih.1 f hf), ?_⟩
      intro hpassive
      exact .move hconfig hhistory ih.1 hpassive hmove
        (ih.2 ((Extends.of_move hmove).passive hpassive))
  | @terminate t c err hsince ih =>
      refine ⟨ih.1, fun hpassive => ?_⟩
      exact (ih.2 ((Extends.terminate c err).passive hpassive)).terminate err

end History

end Conn

namespace Endpoint

section

variable [Quicvarint] [GoAppend]

/-- The step makes heard only frames that keep to what the peer was told by the
frames taken for writing so far, `s.2`. -/
def keepsTo (s : Endpoint × List Frame) : Action → Bool
  | .record rec _ =>
      (frames rec).all (Parsed.keepsTo s.1.conn.config s.1.conn.isServer s.2)
  | _ => true

/-- A run of an endpoint and the log of what was taken for writing: the peer has
kept to what it was told, and so the endpoint to its budget. -/
private structure Kept (config : Config) (isServer : Bool) (heard : List Parsed)
    (s : Endpoint × List Frame) (t₀ t : Traffic) (c₀ : Conn) : Prop where
  traced : Traced config isServer t₀ c₀ heard t s.1
  log : t.handed = .transportParameters (Conn.new config isServer).localParameters :: s.2
  keeps : ∀ f ∈ heard, f.keepsTo config isServer t.handed = true
  budget : s.1.conn.Passive → s.1.conn.Budget t.handed

private theorem Kept.step {config : Config} {isServer : Bool} {heard : List Parsed}
    {s s' : Endpoint × List Frame} {t₀ t : Traffic} {c₀ : Conn} {a : Action}
    (hconfig : config.Valid) (h : Kept config isServer heard s t₀ t c₀)
    (hstep : Machine.guard keepsTo (Machine.watch Endpoint.step handedBy) s a = some s') :
    ∃ t' c', Kept config isServer (heard ++ heardBy a) s' t' t' c' := by
  obtain ⟨hok, hwatch⟩ := Machine.guard_step hstep
  obtain ⟨hstep, hlog⟩ := Machine.watch_step hwatch
  obtain ⟨more, hmore, -, -, hhanded⟩ := h.traced.restart.step hconfig.recordSize_le hstep
  have hhistory := h.traced.past.history
  obtain ⟨hsame, hserver⟩ := hhistory.config
  have hprior : Conn.History config isServer (· ∈ heard ++ heardBy a) t s.1.conn :=
    hhistory.mono (fun f hf => List.mem_append_left _ hf)
  have hkeeps : ∀ f ∈ heard ++ heardBy a, f.keepsTo config isServer t.handed = true := by
    intro f hf
    rcases List.mem_append.mp hf with hold | hnew
    · exact h.keeps f hold
    · cases a with
      | record rec now =>
          have hall := List.all_eq_true.mp hok f hnew
          rw [hsame, hserver] at hall
          rw [h.log]
          exact hall
      | _ => cases hnew
  obtain ⟨hkept, hbudget⟩ :=
    Conn.Since.budget hconfig hprior hmore.past.since hkeeps h.budget
  refine ⟨t ++ more, s'.1.conn, hmore.restart, ?_, hkept, hbudget⟩
  rw [Traffic.append_handed, h.log, hhanded, hlog]
  rfl

/-- In every run in which the peer keeps to the limits it was told, an endpoint
that opens no streams itself never has more than three control frames queued for
each stream the peer may have open. -/
theorem control_bounded (config : Option Config) (isServer : Bool) {labels : List Action}
    {e : Endpoint} {log : List Frame}
    (hrun : Machine.run (Machine.guard keepsTo (Machine.watch step handedBy))
      (new (Config.normalized config) isServer, []) labels = some (e, log))
    (hown : ∀ dir, (e.conn.out dir).next = 0) :
    e.conn.control.length ≤ 3 * ((Config.normalized config).incomingLimit .bidi +
      (Config.normalized config).incomingLimit .uni) := by
  have hvalid := Config.normalized_valid config
  have hinvariant := Machine.trace_invariant (P := fun labels s => ∃ t₀ t c₀,
    Kept (Config.normalized config) isServer (labels.flatMap heardBy) s t₀ t c₀) ?_ ?_
    labels (e, log) hrun
  · obtain ⟨_, t, _, h⟩ := hinvariant
    have hhistory := h.traced.past.history
    have hpassive : e.conn.Passive := by
      intro r hr
      have hopened := ((hhistory.ordered hvalid).sound.named.opened r hr).2
      cases hlocal : e.conn.initiatedLocally (e.conn.heap r).id with
      | false => rfl
      | true =>
          have hindex : (e.conn.heap r).id >>> 2 < e.conn.registry.next
              (e.conn.initiatedLocally (e.conn.heap r).id) (streamDir (e.conn.heap r).id) := hopened
          have hnone : e.conn.registry.next true (streamDir (e.conn.heap r).id) = 0 := hown _
          rw [hlocal, hnone] at hindex
          exact absurd hindex (Nat.not_lt_zero _)
    have hle := (h.budget hpassive).control_le
    rw [hhistory.config.1] at hle
    exact hle
  · refine ⟨_, _, _, .start _ isServer, rfl, nofun, fun hpassive => ?_⟩
    have hstart : Conn.History (Config.normalized config) isServer (fun _ => True) _ _ := .start
    exact .of_told (hstart.limitsTold hvalid) (hstart.ordered hvalid)
      (hstart.streams_sound hvalid) hpassive rfl (fun _ => rfl)
  · rintro labels s a s' ⟨t₀, t, c₀, h⟩ hstep
    obtain ⟨t', c', h'⟩ := h.step hvalid hstep
    exact ⟨t', t', c', by simpa using h'⟩

end

end Endpoint

section Runs

/-- With windows of two and one stream of each kind, the peer sends two bytes on a
stream and stops another, and the application reads. The write loop is still
writing the transport parameters. -/
def threeQueued : List Action :=
  [.record ((Frame.transportParameters {}).append.getD []) 0,
    .record ((Frame.stream ⟨2, 0, [7, 8], false⟩).append.getD []) 0, .call (.tryAccept .uni),
    .call (.tryRead 0 2), .record ((Frame.stopSending ⟨0, 5⟩).append.getD []) 0,
    .call (.tryAccept .bidi), .call (.cancelRead 1 6)]

theorem control_bounded_threeQueued :
    ∃ (e : Endpoint) (log : List Frame),
      Machine.run (Machine.guard Endpoint.keepsTo
          (Machine.watch Endpoint.step Endpoint.handedBy))
        (Endpoint.new (Config.normalized (some
          { initialStreamReceiveWindow := 2, initialConnectionReceiveWindow := 2,
            maxIncomingStreams := 1, maxIncomingUniStreams := 1 })) true, [])
        threeQueued = some (e, log) ∧
      e.conn.control = [.maxStreamData ⟨2, 4⟩, .resetStream ⟨0, 5, 0⟩, .stopSending ⟨0, 6⟩] ∧
      e.conn.control.length ≤ 3 * (1 + 1) := by
  have hrun : (Machine.run (Machine.guard Endpoint.keepsTo
        (Machine.watch Endpoint.step Endpoint.handedBy))
      (Endpoint.new (Config.normalized (some
        { initialStreamReceiveWindow := 2, initialConnectionReceiveWindow := 2,
          maxIncomingStreams := 1, maxIncomingUniStreams := 1 })) true, [])
      threeQueued).map (fun s => (s.1.conn.control, (s.1.conn.out .bidi).next,
        (s.1.conn.out .uni).next)) =
      some ([.maxStreamData ⟨2, 4⟩, .resetStream ⟨0, 5, 0⟩, .stopSending ⟨0, 6⟩], 0, 0) := by
    decide +kernel
  obtain ⟨⟨e, log⟩, hrun, hstate⟩ := Option.map_eq_some_iff.mp hrun
  simp only [Prod.mk.injEq] at hstate
  obtain ⟨hcontrol, hbidi, huni⟩ := hstate
  have hown : ∀ dir, (e.conn.out dir).next = 0 := by
    intro dir
    cases dir with
    | bidi => exact hbidi
    | uni => exact huni
  exact ⟨e, log, hrun, hcontrol, Endpoint.control_bounded _ true hrun hown⟩

/-- Without that condition nothing but the supply of stream identifiers bounds the
queue. However the server is configured, if it takes bidirectional streams at all, a
peer that never reads and an application that accepts its streams fill the queue
past any number below `2 ^ 60`. -/
theorem control_unbounded :
    ¬ ∃ (config : Option Config) (bound : Nat),
      1 ≤ (Config.normalized config).incomingLimit .bidi ∧ bound < 2 ^ 60 ∧
      ∀ (labels : List Action) (e : Endpoint),
        Machine.run Endpoint.step (Endpoint.new (Config.normalized config) true) labels =
          some e →
        (∀ a ∈ labels, a.FromOutside) → e.conn.closeErr = none →
        (∀ dir, (e.conn.out dir).next = 0) → e.conn.control.length ≤ bound := by
  rintro ⟨config, bound, hlimit, hbound, hall⟩
  obtain ⟨labels, e, hrun, hlabels, _, hcycled⟩ :=
    Endpoint.cycles (Config.normalized_valid config) hlimit (bound + 1) hbound
  have hle := hall labels e hrun hlabels hcycled.closeErr hcycled.out
  rw [hcycled.control] at hle
  omega

end Runs

end Qmux
