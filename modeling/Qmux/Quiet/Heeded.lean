import Qmux.Conn.Alerts
import Qmux.Facing.View
import Qmux.KeepAlive
import Qmux.Registry.Table

/-!
What the peer asks of a connection, it does. A limit that was raised is used, a
stream that the peer wants no more of has ended, and a ping that was answered is
no longer waited for; and none of this is ever taken back. So as long as the
connection is open and its read loop goes on, it has heeded every frame that it
has heard.
-/

namespace Qmux

open Wire

/-- No step of a stream takes back what it may send, or reopens its sending side. -/
theorem Stream.Step.sends [GoAppend] {window : Nat} {s s' : Stream} (hstep : s.Step window s') :
    s.sendMax ≤ s'.sendMax ∧ (s.sendDone = true → s'.sendDone = true) := by
  cases hstep with
  | quiet hcore =>
      have hmax : s'.sendMax = s.sendMax := (congrArg Stream.sendMax hcore :)
      have hdone : s'.sendDone = s.sendDone := (congrArg Stream.sendDone hcore :)
      rw [hmax, hdone]
      exact ⟨Nat.le_refl _, fun h => h⟩
  | data =>
      unfold Stream.takeData Stream.bufferLocked
      dsimp only
      split_ifs <;> exact ⟨Nat.le_refl _, fun h => h⟩
  | resetSend =>
      refine ⟨Nat.le_refl _, fun _ => ?_⟩
      simp [Stream.resetSend, Stream.sendDone]
  | raise hlt => exact ⟨Nat.le_of_lt hlt, fun h => h⟩
  | read =>
      unfold Stream.copyOut Stream.advance
      dsimp only
      split_ifs <;> exact ⟨Nat.le_refl _, fun h => h⟩
  | finish =>
      refine ⟨Nat.le_refl _, fun _ => ?_⟩
      simp [Stream.endSend, Stream.sendDone]
  | _ => exact ⟨Nat.le_refl _, fun h => h⟩

/-- The limits of the peer are not taken back. -/
theorem Facing.Step.limits {heard : Parsed → Prop} {isServer : Bool} {t t' : Traffic}
    {v v' : Facing} (h : v.Limited t) (hstep : v.Step heard isServer t' v') :
    v.sendMax ≤ v'.sendMax ∧ ∀ dir, v.outMax dir ≤ v'.outMax dir := by
  cases hstep with
  | parameters hready =>
      obtain ⟨-, hdata, hstreams⟩ := h.unready hready
      refine ⟨hdata ▸ Nat.zero_le _, fun dir => ?_⟩
      rw [hstreams dir]
      exact Nat.zero_le _
  | raiseData _ _ hlt => exact ⟨Nat.le_of_lt hlt, fun dir => Nat.le_refl _⟩
  | @raiseStreams f dir =>
      refine ⟨Nat.le_refl _, fun other => ?_⟩
      dsimp only
      rcases eq_or_ne other dir with rfl | hne
      · rw [Function.update_self]
        exact Nat.le_max_left _ _
      · rw [Function.update_of_ne hne]
  | _ => exact ⟨Nat.le_refl _, fun dir => Nat.le_refl _⟩

namespace Conn

/-- The connection does what the frame asks of it. -/
structure Heeded (c : Conn) (f : Parsed) : Prop where
  data : ∀ n, f.dataLimit? = some n → n ≤ c.sendMax
  streams : ∀ dir n, f.streamsLimit? dir = some n → n ≤ (c.out dir).max
  stream : ∀ m : MaxStreamData, f = .frame (.maxStreamData m) →
    ∃ r < c.count, (c.heap r).id = m.streamID ∧
      (m.max ≤ (c.heap r).sendMax ∨ (c.heap r).sendDone = true)
  stop : ∀ m : StopSending, f = .frame (.stopSending m) →
    ∃ r < c.count, (c.heap r).id = m.streamID ∧ (c.heap r).sendDone = true
  pong : ∀ n, f = .frame (.ping ⟨true, n⟩) → Probe.Settled n c.monitor

variable [Quicvarint] [GoAppend] {config : Config} {isServer : Bool} {heard : Parsed → Prop}
  {t t' : Traffic} {c c' : Conn} {f : Parsed}

omit [Quicvarint] [GoAppend] in
/-- A frame that asks for nothing. -/
theorem Heeded.of_idle (hdata : f.dataLimit? = none) (hstreams : ∀ dir, f.streamsLimit? dir = none)
    (hstream : ∀ m, f ≠ .frame (.maxStreamData m)) (hstop : ∀ m, f ≠ .frame (.stopSending m))
    (hpong : ∀ n, f ≠ .frame (.ping ⟨true, n⟩)) : c.Heeded f where
  data n hn := by
    rw [hdata] at hn
    cases hn
  streams dir n hn := by
    rw [hstreams] at hn
    cases hn
  stream m hm := absurd hm (hstream m)
  stop m hm := absurd hm (hstop m)
  pong n hn := absurd hn (hpong n)

omit [Quicvarint] in
/-- What the connection has done for the peer stays done while the limits stay. -/
private theorem Heeded.carry (h : c.Heeded f) (hext : c.Extends c') (hlives : c.Lives c')
    (hdata : c.sendMax ≤ c'.sendMax) (hstreams : ∀ dir, (c.out dir).max ≤ (c'.out dir).max)
    (hpong : ∀ n, Probe.Settled n c.monitor → Probe.Settled n c'.monitor) : c'.Heeded f where
  data n hn := (h.data n hn).trans hdata
  streams dir n hn := (h.streams dir n hn).trans (hstreams dir)
  stream m hm := by
    obtain ⟨r, hr, hid, hsends⟩ := h.stream m hm
    refine ⟨r, hr.trans_le hext.count, (hext.streams r hr).id.trans hid, ?_⟩
    refine hlives.stream (P := fun s => m.max ≤ s.sendMax ∨ s.sendDone = true)
      (fun s s' hstep => ?_) hr hsends
    exact Or.imp (fun hle => hle.trans hstep.sends.1) hstep.sends.2
  stop m hm := by
    obtain ⟨r, hr, hid, hdone⟩ := h.stop m hm
    refine ⟨r, hr.trans_le hext.count, (hext.streams r hr).id.trans hid, ?_⟩
    exact hlives.stream (P := fun s => s.sendDone = true)
      (fun s s' hstep => hstep.sends.2) hr hdone
  pong n hn := hpong n (h.pong n hn)

/-- What the connection has done for the peer is never taken back. -/
theorem Heeded.since (hprior : History config isServer heard t c) (hsince : Since heard t c t' c')
    (h : c.Heeded f) : c'.Heeded f := by
  induction hsince with
  | start => exact h
  | @move t t' c₁ c₂ hsince hmove ih =>
      have hhistory := hprior.trans hsince
      have hlimited := (History.facing hhistory).1
      have hlimits := (facing_of_move hlimited (History.control hhistory) hmove).limits hlimited
      exact ih.carry (.of_move hmove) (.of_move hmove) hlimits.1 hlimits.2
        (fun n hn => hn.step (monitor_of_move hmove))
  | @terminate t c₁ err hsince ih =>
      have hsame : (c₁.terminate err).1.facing = c₁.facing ∧
          (c₁.terminate err).1.monitor = c₁.monitor := by
        unfold Conn.terminate
        split_ifs <;> exact ⟨rfl, rfl⟩
      have hdata : (c₁.terminate err).1.sendMax = c₁.sendMax := congrArg Facing.sendMax hsame.1
      have hstreams (dir : Dir) : ((c₁.terminate err).1.out dir).max = (c₁.out dir).max :=
        congrFun (congrArg Facing.outMax hsame.1) dir
      exact ih.carry (.terminate c₁ err) (.terminate c₁ err) hdata.ge
        (fun dir => (hstreams dir).ge) (fun n hn => hsame.2 ▸ hn)

/-- The stream that a frame about its sending side names is there, and has ended if it
is not in the table. -/
private theorem named_of_lookup (hconfig : config.Valid)
    (hhistory : History config isServer heard t c) (hopen : c.closeErr = none)
    {id : Nat} (hopened : c.HasOpened id) {found : Option Ref} (htable : c.streams id = found) :
    ∃ r < c.count, (c.heap r).id = id ∧
      (found = some r ∨ found = none ∧ (c.heap r).sendDone = true) := by
  have hordered := History.ordered hconfig hhistory
  obtain ⟨r, hr, rfl⟩ := hordered.of_opened hopened
  refine ⟨r, hr, rfl, ?_⟩
  cases hdone : (c.heap r).done with
  | false =>
      have hthere := (hordered.tabled hopen (c.heap r).id r).mpr ⟨hr, rfl, hdone⟩
      exact Or.inl (htable.symm.trans hthere)
  | true =>
      have hended := Bool.and_eq_true_iff.mp (hordered.sound.over_of_done r hr hdone).2
      refine Or.inr ⟨?_, hended.2⟩
      cases hfound : found with
      | none => rfl
      | some i =>
          obtain ⟨hi, hid, hnot⟩ := hordered.of_table hopen (htable.trans hfound)
          obtain rfl := hordered.sound.named.unique i hi r hr hid
          exact absurd (hdone.symm.trans hnot) (by simp)

private theorem handleMaxStreamData_heeded (hconfig : config.Valid)
    (hhistory : History config isServer heard t c) (hopen : c.closeErr = none)
    (hready : c.ready = true) {m : MaxStreamData} (hheard : heard (.frame (.maxStreamData m)))
    (hbound : (Frame.maxStreamData m).Bounded maxVarint)
    (haccepted : (c.handleMaxStreamData m).2 = none) :
    (c.handleMaxStreamData m).1.Heeded (.frame (.maxStreamData m)) := by
  suffices hthere : ∃ r < (c.handleMaxStreamData m).1.count,
      ((c.handleMaxStreamData m).1.heap r).id = m.streamID ∧
        (m.max ≤ ((c.handleMaxStreamData m).1.heap r).sendMax ∨
          ((c.handleMaxStreamData m).1.heap r).sendDone = true) by
    refine ⟨by simp [Parsed.dataLimit?], by simp [Parsed.streamsLimit?], fun m' hm => ?_,
      by simp, by simp⟩
    cases hm
    exact hthere
  obtain ⟨hmoves, hopen', hready', hfound⟩ :=
    streamLocked_moves false hopen hready hheard rfl hbound.1
  unfold handleMaxStreamData at haccepted ⊢
  rcases hlookup : c.streamLocked m.streamID false with ⟨mid, found⟩
  simp only [hlookup] at hmoves hopen' hready' hfound haccepted ⊢
  cases found with
  | error e => cases haccepted
  | ok found =>
      obtain ⟨htable, hopened, -⟩ := hfound found rfl
      obtain ⟨r, hr, hid, hcase⟩ :=
        named_of_lookup hconfig (Since.moves hhistory hmoves) hopen' hopened htable
      cases found with
      | none =>
          exact ⟨r, hr, hid, Or.inr (hcase.resolve_left (by simp)).2⟩
      | some i =>
          obtain rfl : i = r := Option.some.inj (hcase.resolve_right (by simp))
          dsimp only
          split_ifs with hmax
          · refine ⟨i, hr, ?_, Or.inl ?_⟩
            · simpa [raiseStream, setStream] using hid
            · simp [raiseStream, setStream]
          · exact ⟨i, hr, hid, Or.inl (Nat.le_of_not_lt hmax)⟩

private theorem handleStopSending_heeded (hconfig : config.Valid)
    (hhistory : History config isServer heard t c) (hopen : c.closeErr = none)
    (hready : c.ready = true) {m : StopSending} (hheard : heard (.frame (.stopSending m)))
    (hbound : (Frame.stopSending m).Bounded maxVarint)
    (haccepted : (c.handleStopSending m).2 = none) :
    (c.handleStopSending m).1.Heeded (.frame (.stopSending m)) := by
  suffices hthere : ∃ r < (c.handleStopSending m).1.count,
      ((c.handleStopSending m).1.heap r).id = m.streamID ∧
        ((c.handleStopSending m).1.heap r).sendDone = true by
    refine ⟨by simp [Parsed.dataLimit?], by simp [Parsed.streamsLimit?], by simp,
      fun m' hm => ?_, by simp⟩
    cases hm
    exact hthere
  obtain ⟨hmoves, hopen', hready', hfound⟩ :=
    streamLocked_moves false hopen hready hheard rfl hbound.1
  unfold handleStopSending at haccepted ⊢
  rcases hlookup : c.streamLocked m.streamID false with ⟨mid, found⟩
  simp only [hlookup] at hmoves hopen' hready' hfound haccepted ⊢
  cases found with
  | error e => cases haccepted
  | ok found =>
      obtain ⟨htable, hopened, -⟩ := hfound found rfl
      obtain ⟨r, hr, hid, hcase⟩ :=
        named_of_lookup hconfig (Since.moves hhistory hmoves) hopen' hopened htable
      cases found with
      | none => exact ⟨r, hr, hid, (hcase.resolve_left (by simp)).2⟩
      | some i =>
          obtain rfl : i = r := Option.some.inj (hcase.resolve_right (by simp))
          simp only [stopSendingLocked, resetSendLocked]
          split_ifs with hsend
          · exact ⟨i, hr, hid, hsend⟩
          · have hext := Extends.completeLocked ((mid.setStream i { mid.heap i with
                sendErr := some ⟨(mid.heap i).id, m.code, true⟩
                writeSignal := (mid.heap i).writeSignal.broadcast }).queueLocked
              (.resetStream ⟨(mid.heap i).id, m.code, (mid.heap i).sendOffset⟩)) i
            refine ⟨i, hr.trans_le hext.count, (hext.streams i hr).id.trans ?_, ?_⟩
            · simpa [queueLocked, setStream] using hid
            · rw [completeLocked_stream Stream.sendDone (fun _ => rfl)]
              simp [queueLocked, setStream, Stream.sendDone]

omit [Quicvarint] [GoAppend] in
private theorem handlePingLocked_heeded {m : Ping} {now : Time}
    (haccepted : (c.handlePingLocked m now).2 = none) :
    (c.handlePingLocked m now).1.Heeded (.frame (.ping m)) := by
  refine ⟨by simp [Parsed.dataLimit?], by simp [Parsed.streamsLimit?], by simp, by simp,
    fun n hn => ?_⟩
  cases hn
  simp only [handlePingLocked, if_true] at haccepted ⊢
  split_ifs at haccepted ⊢ with hunsent hlast
  · exact ⟨Nat.lt_of_not_le hunsent, fun _ => rfl⟩
  · refine ⟨Nat.lt_of_not_le hunsent, fun hnext => absurd ?_ hlast⟩
    change n + 1 = c.nextPing at hnext
    omega

omit [Quicvarint] [GoAppend] in
private theorem handleMaxStreams_heeded (m : MaxStreams) :
    (c.handleMaxStreams m).Heeded (.frame (.maxStreams m)) := by
  refine ⟨by simp [Parsed.dataLimit?], fun dir n hn => ?_, by simp, by simp, by simp⟩
  obtain ⟨hdir, hmax⟩ := Option.ite_none_right_eq_some.mp hn
  obtain rfl : m.max = n := Option.some.inj hmax
  unfold handleMaxStreams
  simp only [hdir]
  split_ifs with hgrows
  · simp [setOut]
  · exact Nat.le_of_not_lt hgrows

/-- A frame that is accepted is heeded. -/
private theorem handleFrameLocked_heeded (hconfig : config.Valid)
    (hhistory : History config isServer heard t c) (hopen : c.closeErr = none)
    (hheard : heard f) (hbound : f.Bounded maxVarint) {now : Time}
    (haccepted : (c.handleFrameLocked f now).2 = none) :
    (c.handleFrameLocked f now).1.Heeded f := by
  cases hready : c.ready with
  | false =>
      cases f with
      | blocked => simp [handleFrameLocked, hready] at haccepted
      | frame f =>
          cases f with
          | transportParameters p =>
              simp only [handleFrameLocked, hready, Bool.false_eq_true, if_false]
              refine ⟨fun n hn => ?_, fun dir n hn => ?_, by simp, by simp, by simp⟩
              · exact (Option.some.inj hn).ge
              · cases dir <;> exact (Option.some.inj hn).ge
          | _ => simp [handleFrameLocked, hready] at haccepted
  | true =>
      cases f with
      | blocked => exact .of_idle rfl (fun _ => rfl) (by simp) (by simp) (by simp)
      | frame f =>
          cases f with
          | transportParameters p => simp [handleFrameLocked, hready] at haccepted
          | stopSending m =>
              simp only [handleFrameLocked, hready, not_true_eq_false, if_false] at haccepted ⊢
              exact handleStopSending_heeded hconfig hhistory hopen hready hheard hbound
                (Option.map_eq_none_iff.mp haccepted)
          | maxStreamData m =>
              simp only [handleFrameLocked, hready, not_true_eq_false, if_false] at haccepted ⊢
              exact handleMaxStreamData_heeded hconfig hhistory hopen hready hheard hbound
                (Option.map_eq_none_iff.mp haccepted)
          | maxData m =>
              refine ⟨fun n hn => ?_, by simp [Parsed.streamsLimit?], by simp, by simp, by simp⟩
              obtain rfl : m.max = n := Option.some.inj hn
              simp only [handleFrameLocked, hready, not_true_eq_false, if_false,
                handleOtherLocked, handleMaxData]
              split_ifs with hgrows
              · exact Nat.le_refl _
              · exact Nat.le_of_not_lt hgrows
          | maxStreams m =>
              simp only [handleFrameLocked, hready, not_true_eq_false, if_false]
              exact handleMaxStreams_heeded m
          | ping m =>
              simp only [handleFrameLocked, hready, not_true_eq_false, if_false] at haccepted ⊢
              exact handlePingLocked_heeded (Option.map_eq_none_iff.mp haccepted)
          | _ => exact .of_idle rfl (fun _ => rfl) (by simp) (by simp) (by simp)

/-- The frames of a record that is accepted are all heeded. -/
private theorem handleFrames_heeded (hconfig : config.Valid) {fuel : Nat} {rec : Bytes}
    (now : Time) (hsize : rec.length ≤ maxVarint) (hheard : ∀ f ∈ framesFrom fuel rec, heard f)
    (hhistory : History config isServer heard t c) (hopen : c.closeErr = none)
    (haccepted : (handleFrames fuel c rec now).2 = none) :
    ∀ f ∈ framesFrom fuel rec, (handleFrames fuel c rec now).1.Heeded f := by
  induction fuel generalizing c rec t with
  | zero => exact fun f hf => by cases hf
  | succ fuel ih =>
      unfold handleFrames at haccepted ⊢
      by_cases hend : rec = [] ∨ c.closeErr.isSome = true
      · obtain rfl : rec = [] := by simpa [hopen] using hend
        exact fun f hf => by cases hf
      rw [if_neg hend] at haccepted ⊢
      unfold framesFrom at hheard ⊢
      rcases hparse : parse rec with e | _ | ⟨f, rest⟩
      · exact fun f hf => by cases hf
      · exact fun f hf => by cases hf
      simp only [hparse, List.mem_cons] at hheard haccepted ⊢
      obtain ⟨hbound, hrest⟩ := parse_bounded hparse
      have hfirst := handleFrameLocked_moves hopen (hheard f (Or.inl rfl))
        (hbound.mono hsize) now
      have hheeded (haccepts : (c.handleFrameLocked f now).2 = none) :=
        handleFrameLocked_heeded hconfig hhistory hopen (hheard f (Or.inl rfl))
          (hbound.mono hsize) haccepts
      rcases hframe : c.handleFrameLocked f now with ⟨next, _ | failure⟩
      · rw [hframe] at hfirst hheeded
        simp only [hframe] at haccepted ⊢
        have hnext := Since.moves hhistory hfirst
        have hopen' : next.closeErr = none := hfirst.closeErr.1.trans hopen
        have hshort : rest.length ≤ maxVarint := by omega
        have hlater := ih hshort (fun g hg => hheard g (Or.inr hg)) hnext hopen' haccepted
        have hmoves : Moves heard next _ (handleFrames fuel next rest now).1 :=
          (handleFrames_moves now hshort (fun g hg => hheard g (Or.inr hg))).1
        rintro g (rfl | hg)
        · exact (hheeded rfl).since hnext (Since.start.moves hmoves)
        · exact hlater g hg
      · simp [hframe] at haccepted

private theorem handleRecord_heeded (hconfig : config.Valid) {rec : Bytes} {now : Time}
    (hsize : rec.length ≤ maxVarint) (hheard : ∀ f ∈ frames rec, heard f)
    (hhistory : History config isServer heard t c) (hopen : c.closeErr = none)
    (haccepted : (c.handleRecord rec now).2 = none) :
    ∀ f ∈ frames rec, (c.handleRecord rec now).1.Heeded f :=
  handleFrames_heeded hconfig now hsize hheard hhistory hopen haccepted

end Conn

namespace Endpoint

variable [Quicvarint] [GoAppend] {config : Config} {isServer : Bool} {e e' : Endpoint}

/-- An open endpoint that reads on was reading before. -/
theorem reading_before {a : Action} (hstep : e.step a = some e')
    (hopen : e'.conn.closeErr = none) (hreading : e'.reader = .reading) :
    e.reader = .reading := by
  cases stepped hstep with
  | close hcloses =>
      cases hcloses with
      | violation => exact absurd hopen (Conn.terminate_closed _ _)
      | _ => exact hreading
  | abort haborts =>
      cases haborts with
      | readLoop => cases hreading
      | _ => exact hreading
  | lock _ hlock =>
      obtain ⟨_, _, rfl, -⟩ := lock_frame hlock
      exact hreading
  | enter henter =>
      obtain ⟨_, _, _, rfl⟩ := enter_frame henter
      exact hreading
  | write hwrite =>
      obtain ⟨_, _, _, _, _, rfl, -⟩ := write_frame hwrite
      exact hreading
  | record hbefore => exact hbefore
  | readFailed => cases hreading
  | _ => exact hreading

/-- The frames of the next record are heeded. -/
private theorem receive_heeded (hvalid : config.Valid) {t₀ t : Traffic} {c₀ : Conn}
    {heard : List Parsed} (h : Traced config isServer t₀ c₀ heard t e) {rec : Bytes} {now : Time}
    (hopen : e.conn.closeErr = none) (hreading : (e.receive rec now).reader = .reading) :
    ∀ f ∈ frames rec, (e.receive rec now).conn.Heeded f := by
  unfold receive at hreading ⊢
  dsimp only at hreading ⊢
  by_cases hlarge : rec.length > e.conn.config.maxRecordSize.toNat
  · rw [if_pos hlarge] at hreading
    cases hreading
  rw [if_neg hlarge] at hreading ⊢
  have hsize : rec.length ≤ maxVarint := by
    have hle := hvalid.recordSize_le
    rw [(Conn.History.config h.past.history).1] at hlarge
    omega
  have hhistory : Conn.History config isServer (· ∈ heard ++ frames rec) t e.conn :=
    h.past.history.mono (fun f hf => List.mem_append_left _ hf)
  have hheeded (haccepted : (e.conn.handleRecord rec now).2 = none) :=
    Conn.handleRecord_heeded hvalid hsize (fun f hf => List.mem_append_right _ hf) hhistory hopen
      haccepted
  rcases hrecord : e.conn.handleRecord rec now with ⟨c, _ | err | err⟩
  · rw [hrecord] at hheeded
    exact hheeded rfl
  all_goals
    rw [hrecord] at hreading
    cases hreading

/-- In every run, an open endpoint whose read loop goes on has heeded all that it has
heard. -/
theorem heeded (hvalid : config.Valid) {labels : List Action}
    (hrun : Machine.run step (new config isServer) labels = some e)
    (hopen : e.conn.closeErr = none) (hreading : e.reader = .reading) :
    ∀ f ∈ labels.flatMap heardBy, e.conn.Heeded f := by
  refine (Machine.trace_invariant (P := fun labels e =>
    (∃ t₀ c₀ t, Traced config isServer t₀ c₀ (labels.flatMap heardBy) t e) ∧
      (e.conn.closeErr = none → e.reader = .reading →
        ∀ f ∈ labels.flatMap heardBy, e.conn.Heeded f))
    ⟨⟨_, _, _, .start config isServer⟩, fun _ _ f hf => by cases hf⟩ ?_
    labels e hrun).2 hopen hreading
  rintro labels e a e' ⟨⟨t₀, c₀, t, htraced⟩, hheeded⟩ hstep
  obtain ⟨more, hmore, -⟩ := htraced.step hvalid.recordSize_le hstep
  refine ⟨⟨t₀, c₀, t ++ more, by simpa using hmore⟩, fun hopen hreading f hf => ?_⟩
  obtain ⟨later, hlater, -⟩ := htraced.restart.step hvalid.recordSize_le hstep
  have hbefore := hlater.past.since.open_before hopen
  have hprior := reading_before hstep hopen hreading
  rw [List.flatMap_append] at hf
  rcases List.mem_append.mp hf with hf | hf
  · -- What was heeded before stays so.
    have hhistory := htraced.past.history.mono
      (fun f hf => List.mem_append_left (heardBy a) hf)
    exact (hheeded hbefore hprior f hf).since hhistory hlater.past.since
  · cases a with
    | record rec now =>
        obtain ⟨-, ⟨⟩⟩ := Option.ite_none_right_eq_some.mp hstep
        exact receive_heeded hvalid htraced hbefore hreading f (by simpa [heardBy] using hf)
    | _ => simp [heardBy] at hf

end Endpoint

end Qmux
