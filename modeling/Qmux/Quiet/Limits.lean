import Qmux.Dialogue.Accepts
import Qmux.Quiet.Heeded

/-!
A connection that has said all it has to say, to a peer that has heard all of it.
The peer then works with the limits that the connection has: the last value of
each limit was declared, and the peer has heeded every declaration. And if the
peer has said all it has to say in turn, the last ping was answered.
-/

namespace Qmux

open Wire

namespace Facing

variable {heard : Parsed → Prop} {isServer : Bool} {t t' : Traffic} {v v' : Facing}

/-- The latest request of the peer was answered, or is going to be, and the latest request
of the connection was handed out. -/
structure Answering (t : Traffic) (v : Facing) : Prop where
  pong : ∀ n, v.lastPing = some n → v.pong = some n ∨ .ping ⟨true, n⟩ ∈ t.handed
  ping : v.nextPing ≠ 0 → .ping ⟨false, v.nextPing - 1⟩ ∈ t.handed

private theorem Answering.carry (h : v.Answering t) (hlast : v'.lastPing = v.lastPing)
    (hpong : v'.pong = v.pong) (hnext : v'.nextPing = v.nextPing) : v'.Answering (t ++ t') where
  pong n hn := by
    rw [hpong]
    exact (h.pong n (hlast ▸ hn)).imp_right (List.mem_append_left _)
  ping hn := by
    rw [hnext] at hn ⊢
    exact List.mem_append_left _ (h.ping hn)

theorem Answering.step (h : v.Answering t) (hstep : v.Step heard isServer t' v') :
    v'.Answering (t ++ t') := by
  cases hstep with
  | pinged =>
      refine ⟨fun n hn => Or.inl hn, fun hn => List.mem_append_left _ (h.ping hn)⟩
  | @flush idle asked pings hidle =>
      constructor
      · intro n hn
        right
        rcases h.pong n hn with hpong | hhanded
        · refine List.mem_append_right _ ?_
          simp [hpong]
        · exact List.mem_append_left _ hhanded
      · intro hn
        cases asked with
        | true =>
            refine List.mem_append_right _ ?_
            simp
        | false => exact List.mem_append_left _ (h.ping hn)
  | _ => exact h.carry rfl rfl rfl

end Facing

namespace Conn

/-- The connection `c` with its traffic `t` has nothing left to say, and the peer `d` with
the traffic `u` has taken and heeded all of it. -/
structure SaidAll (t : Traffic) (c : Conn) (u : Traffic) (d : Conn) : Prop where
  nothing : ¬ c.HasControl
  took : u.took = t.handed.map Frame.arrived
  heeded : ∀ f ∈ u.took, d.Heeded f

theorem SaidAll.control {t u : Traffic} {c d : Conn} (h : SaidAll t c u d) : c.control = [] := by
  by_contra hcontrol
  exact h.nothing (Or.inl hcontrol)

theorem SaidAll.mem {t u : Traffic} {c d : Conn} (h : SaidAll t c u d) {g : Frame}
    (hg : g ∈ t.handed) : d.Heeded g.arrived := by
  refine h.heeded _ ?_
  rw [h.took]
  exact List.mem_map_of_mem hg

section History

variable [Quicvarint] [GoAppend] {config : Config} {isServer : Bool} {heard : Parsed → Prop}
  {t t' : Traffic} {c c' : Conn}

/-- What was handed out stays so. -/
theorem Since.handed {t₀ : Traffic} {c₀ : Conn} (hsince : Since heard t₀ c₀ t c) :
    t₀.handed <+: t.handed := by
  induction hsince with
  | start => exact List.prefix_rfl
  | move _ _ ih => exact ih.trans (List.prefix_append _ _)
  | terminate _ _ ih => exact ih

/-- Streams are there only once the parameters of the peer are. -/
private theorem ready_of_move (hprior : History config isServer heard t c)
    (hmove : Move heard c t' c') (hcount : c'.count ≠ c.count) : c.ready = true := by
  cases hmove with
  | still _ _ _ _ hcore => exact absurd (congrArg Conn.count hcore :) hcount
  | act hopen hact =>
      exact absurd (hact.touches.view Conn.count (fun _ _ _ _ _ _ => rfl)) hcount
  | openIncoming hopen hready => exact hready
  | @openLocal dir hopen hmax =>
      by_contra hcase
      have hunready : c.facing.ready = false := Bool.eq_false_iff.mpr hcase
      have hzero : (c.out dir).max = 0 := ((History.facing hprior).1.unready hunready).2.2 dir
      omega
  | accept =>
      exact absurd (completeLocked_view Conn.count (fun _ _ _ _ _ => rfl) _ _) hcount
  | @raiseStreams f =>
      obtain ⟨out, hout⟩ := c.handleMaxStreams_frame f
      rw [hout] at hcount
      exact absurd rfl hcount
  | @flush now =>
      obtain ⟨_, _, _, _, hflush⟩ := c.flushed_frame now
      rw [hflush] at hcount
      exact absurd rfl hcount
  | _ => exact absurd rfl hcount

/-- A stream may send what the parameters of the peer allow. -/
theorem History.initialSendMax_le (hhistory : History config isServer heard t c) :
    ∀ r < c.count, c.ready = true ∧
      c.peer.initialSendMax c.isServer (c.heap r).id ≤ (c.heap r).sendMax := by
  induction hhistory with
  | start => exact fun r hr => absurd hr (Nat.not_lt_zero r)
  | @move t t' c c' hprior hmove ih =>
      intro r hr
      have hext := Extends.of_move hmove
      rcases Nat.lt_or_ge r c.count with hold | hnew
      · obtain ⟨hready, hle⟩ := ih r hold
        obtain ⟨hready', hpeer⟩ := hext.peer hready
        rw [hpeer, hext.isServer, (hext.streams r hold).id]
        refine ⟨hready', (Lives.of_move hmove).stream
          (P := fun s => c.peer.initialSendMax c.isServer (c.heap r).id ≤ s.sendMax)
          (fun s s' hstep hle => ?_) hold hle⟩
        exact hle.trans hstep.sends.1
      · rcases count_of_move hmove with hcount | ⟨hone, -, -, id, accepted, hfresh⟩
        · exact absurd (hcount ▸ hr) (Nat.not_lt.mpr hnew)
        obtain rfl : r = c.count := Nat.le_antisymm (Nat.lt_succ_iff.mp (hr.trans_eq hone)) hnew
        obtain ⟨hready', hpeer⟩ := hext.peer (ready_of_move hprior hmove (by omega))
        have hmax := congrArg Transfer.Sender.limit (newStream_sender c id accepted)
        rw [hpeer, hext.isServer, hfresh]
        exact ⟨hready', hmax.ge⟩
  | @terminate t c err hprior ih =>
      intro r hr
      have hext := Extends.terminate c err
      obtain ⟨hready, hle⟩ := ih r ((terminate_keeps c err).1 ▸ hr)
      obtain ⟨hready', hpeer⟩ := hext.peer hready
      rw [hpeer, hext.isServer, terminate_stream Stream.id (fun _ => rfl),
        terminate_stream Stream.sendMax (fun _ => rfl)]
      exact ⟨hready', hle⟩

/-- The latest request of the peer is answered in every history. -/
theorem History.answering (hhistory : History config isServer heard t c) :
    c.facing.Answering t := by
  induction hhistory with
  | start => exact ⟨(fun n hn => by cases hn), fun hn => absurd rfl hn⟩
  | move hprior hmove ih =>
      exact ih.step (facing_of_move (History.facing hprior).1 (History.control hprior) hmove)
  | @terminate _ c err hprior ih =>
      have hsame : (c.terminate err).1.facing = c.facing := by
        unfold Conn.terminate
        split_ifs <;> rfl
      rw [hsame]
      exact ih

/-- Only a request can be unanswered. -/
theorem History.unanswered (hhistory : History config isServer heard t c)
    (hwaiting : c.pingUnanswered = true) : c.nextPing ≠ 0 := by
  suffices hmonitor : c.monitor.waiting = true → c.monitor.next ≠ 0 from hmonitor hwaiting
  clear hwaiting
  induction hhistory with
  | start => exact fun hwaiting => by cases hwaiting
  | @move _ _ c c' hprior hmove ih =>
      have hstep := monitor_of_move hmove
      generalize c'.monitor = v, Traffic.pings _ = events at hstep
      cases hstep with
      | still => exact ih
      | ask => exact fun _ => Nat.succ_ne_zero _
      | answer => exact fun hwaiting => ih (Bool.and_eq_true_iff.mp hwaiting).1
  | @terminate _ c err hprior ih =>
      have hsame : (c.terminate err).1.monitor = c.monitor := by
        unfold Conn.terminate
        split_ifs <;> rfl
      rw [hsame]
      exact ih

end History

namespace Dialogue

variable [Quicvarint] [GoAppend] {config other : Config} {isServer : Bool}
  {heard told : List Parsed} {t u : Traffic} {c d : Conn}

/-- The totals of an open connection in a dialogue are far from the end of a `uint64`. -/
theorem small (h : Dialogue config other isServer heard told t c u d)
    (hopen : c.closeErr = none) : c.totalReceived + c.config.connectionWindow < 2 ^ 64 := by
  obtain ⟨rest, hrest⟩ := h.hears
  obtain ⟨before, after, hsplit, htook, -⟩ := List.map_eq_append_iff.mp hrest.symm
  have htotal := h.total_le hopen htook.symm
  have hlimited := (History.facing h.peer).1
  have hsum : _ = d.sent := hlimited.sent_eq
  rw [hsplit, List.map_append, List.sum_append] at hsum
  have hsent : d.sent ≤ d.sendMax := hlimited.sent_le
  have hbound : d.sendMax ≤ maxVarint := hlimited.sendMax_le
  have hmax : maxVarint = 2 ^ 62 - 1 := rfl
  have hwindow : config.connectionWindow ≤ maxVarint := h.valid.connectionWindow_le
  rw [(History.config h.history).1]
  omega

/-- The parameters of the connection were handed out first. -/
private theorem parameters_handed (h : Dialogue config other isServer heard told t c u d) :
    .transportParameters c.localParameters ∈ t.handed := by
  have hsame : c.localParameters = (Conn.new config isServer).localParameters := by
    unfold localParameters
    rw [(History.config h.history).1]
    rfl
  rw [hsame]
  exact (Since.handed h.history).subset (List.mem_singleton_self _)

/-- The peer sends up to the limit on data. -/
theorem sendMax_eq (h : Dialogue config other isServer heard told t c u d)
    (hopen : c.closeErr = none) (hsaid : SaidAll t c u d) : d.sendMax = c.recvMax := by
  have hsmall := h.small hopen
  refine Nat.le_antisymm (h.sendMax_le hsmall) ?_
  have hdue : c.maxDataPending = false := by
    by_contra hcase
    exact hsaid.nothing (Or.inr (Or.inl (by simpa using hcase)))
  have htold := (History.limitsTold h.valid h.history).data hsmall
  rcases htold.value_mem hdue with hfirst | hlater
  · have hvalue : c.recvMax = c.config.connectionWindow := hfirst
    rw [hvalue]
    exact (hsaid.mem h.parameters_handed).data _ rfl
  · exact (hsaid.mem (Frame.mem_maxData? hlater)).data _ rfl

/-- The peer opens streams up to the limit on their number. -/
theorem outMax_eq (h : Dialogue config other isServer heard told t c u d)
    (hsaid : SaidAll t c u d) (dir : Dir) : (d.out dir).max = (c.incoming dir).max := by
  refine Nat.le_antisymm (h.outMax_le dir) ?_
  have hdue : (c.incoming dir).pending = false := by
    by_contra hcase
    exact hsaid.nothing (Or.inr (Or.inr (Or.inl ⟨dir, by simpa using hcase⟩)))
  have htold := (History.limitsTold h.valid h.history).streams dir
  rcases htold.value_mem hdue with hfirst | hlater
  · have hvalue : (c.incoming dir).max = c.config.incomingLimit dir := hfirst
    rw [hvalue]
    refine (hsaid.mem h.parameters_handed).streams dir _ ?_
    cases dir <;> rfl
  · obtain ⟨f, hf, hmax⟩ := List.mem_filterMap.mp hlater
    cases f with
    | maxStreams f =>
        obtain ⟨huni, hvalue⟩ := Option.ite_none_right_eq_some.mp hmax
        refine (hsaid.mem hf).streams dir _ ?_
        have hdir : (if f.uni then Dir.uni else Dir.bidi) = dir := by
          cases dir <;> simp [huni]
        exact (if_pos hdir).trans hvalue
    | _ => cases hmax

/-- The limit that a stream of the peer starts with is the window of the connection. -/
theorem initialSendMax_eq (h : Dialogue config other isServer heard told t c u d) {i : Ref}
    (hi : i < d.count) (hcan : (d.heap i).canSend = true) :
    d.peer.initialSendMax d.isServer (d.heap i).id = c.config.streamWindow := by
  have hready := (History.initialSendMax_le h.peer i hi).1
  have hsend := (History.ordered h.other_valid h.peer).sound.named.send i hi
  change (d.heap i).canSend = (streamDir (d.heap i).id != .uni || d.initiatedLocally (d.heap i).id)
    at hsend
  rw [hcan] at hsend
  rw [h.peer_parameters hready]
  unfold Parameters.initialSendMax
  split
  · rfl
  · rename_i hdir hlocal
    rw [hdir] at hsend
    change initiatedLocally d (d.heap i).id = false at hlocal
    rw [hlocal] at hsend
    cases hsend
  · rfl
  · rfl

/-- The peer sends up to the limit of the stream. -/
theorem streamMax_eq (h : Dialogue config other isServer heard told t c u d)
    (hsaid : SaidAll t c u d) {r i : Ref} (hr : r < c.count)
    (hcan : (c.heap r).canRecv = true) (hi : i < d.count)
    (hid : (d.heap i).id = (c.heap r).id) (hsend : (d.heap i).sendDone = false) :
    (d.heap i).sendMax = (c.heap r).recvMax := by
  refine Nat.le_antisymm (h.streamMax_le hr hcan hi hid) ?_
  have hcanSend : (d.heap i).canSend = true := by
    simp only [Stream.sendDone, Bool.or_eq_false_iff, Bool.not_eq_false'] at hsend
    exact hsend.1.1
  have htold := (History.limitsTold h.valid h.history).stream r hr hcan
  rw [hsaid.control, List.append_nil] at htold
  rcases htold.value_mem rfl with hfirst | hlater
  · have hvalue : (c.heap r).recvMax = c.config.streamWindow := hfirst
    rw [hvalue, ← h.initialSendMax_eq hi hcanSend]
    exact (History.initialSendMax_le h.peer i hi).2
  · obtain ⟨j, hj, hname, hcase⟩ :=
      (hsaid.mem (Frame.mem_maxStreamData? hlater)).stream _ rfl
    have hnamed := (History.ordered h.other_valid h.peer).sound.named
    obtain rfl : j = i := hnamed.unique j hj i hi (hname.trans hid.symm)
    exact hcase.resolve_right (by simp [hsend])

/-- A stream of the peer that the connection does not know of starts with a whole
window. -/
theorem streamMax_unknown (h : Dialogue config other isServer heard told t c u d) {i : Ref}
    (hi : i < d.count) (hcan : (d.heap i).canSend = true)
    (hnone : ∀ r < c.count, (c.heap r).id ≠ (d.heap i).id) :
    (d.heap i).sendMax = c.config.streamWindow := by
  have hinitial := h.initialSendMax_eq hi hcan
  obtain ⟨hready, hle⟩ := History.initialSendMax_le h.peer i hi
  refine Nat.le_antisymm ?_ (hinitial ▸ hle)
  refine ((History.outbox h.other_valid h.peer).streams i hi).given.trans
    (Log.largest_le (fun f hf n hn => ?_))
  cases f with
  | blocked => cases hn
  | frame f =>
      cases f with
      | transportParameters p =>
          rw [h.parameters (h.taken hf), ← h.peer_parameters hready] at hn
          exact (Option.some.inj hn).symm.trans hinitial |>.le
      | maxStreamData f =>
          obtain ⟨hname, -⟩ := Option.ite_none_right_eq_some.mp hn
          obtain ⟨r, hr, hid, -⟩ := (h.warrants (h.taken hf) (by simp) (by simp)).2
          exact absurd (hid.trans hname) (hnone r hr)
      | _ => cases hn

/-- The peer knows the parameters. -/
theorem peer_ready (h : Dialogue config other isServer heard told t c u d)
    (hsaid : SaidAll t c u d) : d.ready = true := by
  by_contra hcase
  have hunready : d.facing.ready = false := Bool.eq_false_iff.mpr hcase
  have hnone := ((History.facing h.peer).1.unready hunready).1
  rw [hsaid.took, List.map_eq_nil_iff] at hnone
  have hhanded := h.parameters_handed
  rw [hnone] at hhanded
  cases hhanded

/-- The last ping was answered. -/
theorem ping_answered (h : Dialogue config other isServer heard told t c u d)
    (hsaid : SaidAll t c u d) (hsaid' : SaidAll u d t c) : c.pingUnanswered = false := by
  by_contra hcase
  have hnext := History.unanswered h.history (by simpa using hcase)
  have hasked := (History.answering h.history).ping hnext
  have htaken : Parsed.frame (.ping ⟨false, c.nextPing - 1⟩) ∈ u.took := by
    rw [hsaid.took]
    exact List.mem_map_of_mem hasked
  have hpings := (History.facing h.peer).2.1
  obtain ⟨n, hlast, hle⟩ := hpings.taken_le _ htaken
  -- The peer has answered its latest request, which is no later than that of the connection.
  have hanswer : .ping ⟨true, n⟩ ∈ u.handed := by
    refine ((History.answering h.peer).pong n hlast).resolve_left (fun hpong => ?_)
    refine hsaid'.nothing (Or.inr (Or.inr (Or.inr (Or.inl ?_))))
    unfold facing at hpong
    dsimp only at hpong
    split_ifs at hpong with hpending
    exact hpending
  have hrequest := hpings.last_taken n hlast
  rw [hsaid.took] at hrequest
  obtain ⟨g, hg, hread⟩ := List.mem_map.mp hrequest
  obtain rfl : g = .ping ⟨false, n⟩ := by
    cases g with
    | ping g => exact Parsed.frame.inj hread
    | _ => simp [Frame.arrived, Frame.received] at hread
  have hlt : n < c.nextPing := (History.facing h.history).2.1.asked_lt n hg
  have hlatest : n + 1 = c.nextPing := by omega
  exact hcase (((hsaid'.mem hanswer).pong n rfl).2 hlatest)

end Dialogue

end Conn

end Qmux
