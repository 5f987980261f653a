import Qmux.Conn.Alerts
import Qmux.Limits.Told
import Qmux.Trace.Run

/-!
Nothing that is to be sent is forgotten. Whatever there is to send has left a
token for the write loop; the loop takes the token first and empties the queue
after, so that what comes in between is either sent along or has left a token of
its own. And what the loop takes tells the peer every limit.
-/

namespace Qmux

open Wire

namespace Endpoint

variable [Quicvarint]

/-- The write loop will take what there is to send: a token is there for it, or
it has taken one and has not run `takeControl` yet. -/
def Alert (e : Endpoint) : Prop :=
  e.conn.HasControl → e.conn.controlWake = true ∨
    (e.loop = .woken ∧ ∀ records, e.writeMu ≠ .writing .flush records)

variable {e e' : Endpoint}

private theorem Alert.carry (h : e.Alert) (halerts : e.conn.Alerts e'.conn)
    (hloop : e.loop = .woken → e'.loop = .woken)
    (hmu : ∀ records, e'.writeMu = .writing .flush records →
      ∃ records, e.writeMu = .writing .flush records) : e'.Alert := by
  intro hcontrol
  rcases halerts.control hcontrol with hbefore | htoken
  · refine (h hbefore).imp halerts.token (fun ⟨hwoken, hnone⟩ => ⟨hloop hwoken, ?_⟩)
    intro records hwriting
    obtain ⟨records, hwriting⟩ := hmu records hwriting
    exact hnone records hwriting
  · exact Or.inl htoken

private theorem Alert.same (h : e.Alert) (hconn : e'.conn = e.conn) (hloop : e'.loop = e.loop)
    (hmu : e'.writeMu = e.writeMu) : e'.Alert := by
  unfold Alert
  rw [hconn, hloop, hmu]
  exact h

private theorem Alert.lock {job : Job} (h : e.Alert) (hlock : e.lock job = some e') :
    e'.Alert := by
  have hheld {w : Holder} {closer : Closer} (hw : ∀ records, w ≠ .writing .flush records) :
      Alert { e with writeMu := w, closer := closer } :=
    h.carry ⟨fun h => h, Or.inl⟩ (fun h => h) (fun records hcase => absurd hcase (hw records))
  cases job with
  | chunk r p =>
      obtain ⟨-, ⟨⟩⟩ := Option.ite_none_right_eq_some.mp hlock
      exact hheld (fun _ => by simp)
  | closeSend r =>
      obtain ⟨-, ⟨⟩⟩ := Option.ite_none_right_eq_some.mp hlock
      exact hheld (fun _ => by simp)
  | flush =>
      obtain ⟨-, ⟨⟩⟩ := Option.ite_none_right_eq_some.mp hlock
      exact hheld (fun _ => by simp)
  | datagram p =>
      obtain ⟨-, ⟨⟩⟩ := Option.ite_none_right_eq_some.mp hlock
      exact hheld (fun _ => by simp)
  | close =>
      simp only [Endpoint.lock] at hlock
      split at hlock
      · obtain rfl := Option.some.inj hlock
        exact hheld (fun _ => by simp)
      · cases hlock

private theorem Alert.enter {now : Time} (h : e.Alert) (hopen : e'.conn.closeErr = none)
    (henter : e.enter now = some e') : e'.Alert := by
  have hmoved {c : Conn} {w : Holder} (halerts : e.conn.Alerts c)
      (hw : ∀ records, w ≠ .writing .flush records) : Alert { e with conn := c, writeMu := w } :=
    h.carry halerts (fun h => h) (fun records hcase => absurd hcase (hw records))
  unfold Endpoint.enter at henter
  split at henter
  · rename_i r p hmu
    have halerts := e.conn.reserve_alerts r p.length
    rcases hresult : e.conn.reserve r p.length with ⟨c, _ | ⟨offset, n⟩⟩
    all_goals
      rw [hresult] at henter halerts
      obtain rfl := Option.some.inj henter
    · exact hmoved halerts (fun _ => by simp)
    · refine hmoved halerts (fun _ => ?_)
      split_ifs <;> simp
  · rename_i r hmu
    have halerts := e.conn.finish_alerts r
    rcases hresult : e.conn.finish r with ⟨c, _ | _ | finalSize⟩
    all_goals
      rw [hresult] at henter halerts
      obtain rfl := Option.some.inj henter
      exact hmoved halerts (fun _ => by simp)
  · -- Once the queue is empty there is nothing to wake the loop for.
    dsimp only at henter
    split at henter
    all_goals
      obtain rfl := Option.some.inj henter
      exact fun hcontrol => absurd hcontrol (Conn.takeControl_hasControl hopen)
  · split_ifs at henter
    all_goals
      obtain rfl := Option.some.inj henter
      exact hmoved ⟨fun h => h, Or.inl⟩ (fun _ => by simp)
  · cases henter

/-- A write loop that is not on its way to `takeControl` has a token for what
there is to send. -/
private theorem Alert.token (h : e.Alert) (hheld : e.Held) {w : Writer}
    {records : List (List Frame)} (hmu : e.writeMu = .writing w records)
    (hw : w = .flush ∨ w = .parameters) (hcontrol : e.conn.HasControl) :
    e.conn.controlWake = true := by
  rcases h hcontrol with htoken | ⟨hwoken, hnone⟩
  · exact htoken
  · rcases hw with rfl | rfl
    · exact absurd hmu (hnone records)
    · have hloop := hheld.loop .parameters (by rw [hmu]; rfl)
      rw [hwoken] at hloop
      cases hloop

private theorem Alert.write {ok : Bool} (h : e.Alert) (hheld : e.Held)
    (hwrite : e.write ok = some e') : e'.Alert := by
  unfold Endpoint.write at hwrite
  split at hwrite
  · rename_i w frames rest hmu
    have hpassed {mid : Endpoint} (hconn : mid.conn = e.conn)
        (hw : w = .flush ∨ w = .parameters) : mid.Alert := by
      intro hcontrol
      rw [hconn] at hcontrol ⊢
      exact Or.inl (h.token hheld hmu hw hcontrol)
    have hkept {mid : Endpoint} (hconn : mid.conn = e.conn) (hloop : mid.loop = e.loop)
        (hfree : ∀ records, mid.writeMu ≠ .writing .flush records) : mid.Alert :=
      h.carry (hconn.symm ▸ ⟨fun h => h, Or.inl⟩) (fun h => hloop.trans h)
        (fun records hcase => absurd hcase (hfree records))
    split at hwrite
    · cases hwrite
    · split_ifs at hwrite
      · dsimp only at hwrite
        split at hwrite
        · obtain rfl := Option.some.inj hwrite
          cases w with
          | parameters => exact hpassed rfl (Or.inr rfl)
          | flush => exact hpassed rfl (Or.inl rfl)
          | stream => exact hkept rfl rfl (fun _ hcase => by cases hcase)
          | datagram => exact hkept rfl rfl (fun _ hcase => by cases hcase)
          | close => exact hkept rfl rfl (fun _ hcase => by cases hcase)
        · obtain rfl := Option.some.inj hwrite
          refine h.carry ⟨fun h => h, Or.inl⟩ (fun h => h) (fun records hcase => ?_)
          obtain ⟨rfl, -⟩ := Holder.writing.inj hcase
          exact ⟨_, hmu⟩
      · obtain rfl := Option.some.inj hwrite
        cases w with
        | parameters => exact hpassed rfl (Or.inr rfl)
        | flush => exact hpassed rfl (Or.inl rfl)
        | stream => exact hkept rfl rfl (fun _ hcase => by cases hcase)
        | datagram => exact hkept rfl rfl (fun _ hcase => by cases hcase)
        | close => exact hkept rfl rfl (fun _ hcase => by cases hcase)
  · cases hwrite

variable [GoAppend]

private theorem Alert.receive (h : e.Alert) {rec : Bytes} {now : Time}
    (hsize : e.conn.config.maxRecordSize.toNat ≤ maxVarint) : (e.receive rec now).Alert := by
  unfold Endpoint.receive
  dsimp only
  split_ifs with hlarge
  · exact h
  · have hmoves := (Conn.handleRecord_moves (c := e.conn) now
      (Nat.le_trans (Nat.le_of_not_lt hlarge) hsize) (fun _ hf => hf)).1
    have halerts := hmoves.alerts rfl
    rcases hrecord : e.conn.handleRecord rec now with ⟨c, _ | err | err⟩
    all_goals
      rw [hrecord] at halerts
      exact h.carry halerts (fun h => h) (fun records hmu => ⟨records, hmu⟩)

/-- Every step of an open connection leaves the write loop aware of what there
is to send. -/
private theorem Alert.step {config : Config} {isServer : Bool} {t₀ t : Traffic} {c₀ : Conn}
    {heard : List Parsed} (htraced : Traced config isServer t₀ c₀ heard t e)
    (hsize : config.maxRecordSize.toNat ≤ maxVarint)
    (halert : e.conn.closeErr = none → e.Alert) {a : Action} (hstep : e.step a = some e')
    (hopen : e'.conn.closeErr = none) : e'.Alert := by
  have hended {err : ConnError} (hconn : (e.conn.terminate err).1 = e'.conn) : e'.Alert :=
    absurd (hconn ▸ hopen) (Conn.terminate_closed e.conn err)
  have hbefore : e.conn.closeErr = none := by
    obtain ⟨more, hmore, -⟩ := htraced.restart.step hsize hstep
    exact hmore.past.since.open_before hopen
  have h := halert hbefore
  cases stepped hstep with
  | call hcall =>
      have hmove : Conn.Move (fun _ => True) e.conn _ _ := Conn.call_move _ hcall
      exact h.carry ((Conn.Moves.single hmove).alerts rfl) (fun h => h)
        (fun records hmu => ⟨records, hmu⟩)
  | close => exact hended rfl
  | abort => exact hended rfl
  | lock _ hlock => exact h.lock hlock
  | enter henter => exact h.enter hopen henter
  | write hwrite => exact h.write htraced.held hwrite
  | wake hselect =>
      refine fun _ => Or.inr ⟨rfl, fun records hmu => ?_⟩
      -- A loop that waits for a token is not in the middle of a flush.
      change e.writeMu = .writing .flush records at hmu
      have hloop := htraced.held.loop .woken (by rw [hmu]; rfl)
      rw [hselect] at hloop
      cases hloop
  | loopEnd _ hcause =>
      rw [htraced.cause, hbefore] at hcause
      cases hcause
  | record => exact h.receive (htraced.past.history.config.1 ▸ hsize)
  | _ => exact h.same rfl rfl rfl

/-- In every state of an open connection the write loop is aware of what there
is to send. -/
theorem alert_of_run {config : Config} {isServer : Bool} {labels : List Action}
    (hconfig : config.Valid)
    (hrun : Machine.run step (new config isServer) labels = some e)
    (hopen : e.conn.closeErr = none) : e.Alert := by
  refine (Machine.trace_invariant (P := fun labels e =>
    (∃ t₀ c₀ t, Traced config isServer t₀ c₀ (labels.flatMap heardBy) t e) ∧
      (e.conn.closeErr = none → e.Alert)) ⟨⟨_, _, _, .start config isServer⟩, ?_⟩ ?_
    labels e hrun).2 hopen
  · rintro - (hcase | hcase | ⟨dir, hcase⟩ | hcase | hcase)
    · exact absurd rfl hcase
    all_goals cases hcase
  · rintro labels e a e' ⟨⟨t₀, c₀, t, htraced⟩, halert⟩ hstep
    obtain ⟨more, hmore, -⟩ := htraced.step hconfig.recordSize_le hstep
    exact ⟨⟨t₀, c₀, t ++ more, by simpa using hmore⟩,
      Alert.step htraced hconfig.recordSize_le halert hstep⟩

/-- In every state of an open connection whose total does not wrap, the write
loop is aware of what there is to send, and what was taken for writing tells the
peer every limit: the last value is the limit, unless its flag is set, and the
values grow. The limit of a stream is told by what was taken or is queued. -/
theorem control_never_lost (config : Option Config) (isServer : Bool) {labels : List Action}
    {log : List Frame}
    (hrun : Machine.run (Machine.watch step handedBy)
      (new (Config.normalized config) isServer, []) labels = some (e, log))
    (hopen : e.conn.closeErr = none)
    (htotal : e.conn.totalReceived + (Config.normalized config).connectionWindow < 2 ^ 64) :
    e.Alert ∧
    e.conn.dataLimit.Told (Config.normalized config).connectionWindow
      (log.filterMap Frame.maxData?) ∧
    (∀ dir, (e.conn.streamsLimit dir).Told ((Config.normalized config).incomingLimit dir)
      (log.filterMap (Frame.maxStreams? dir))) ∧
    (∀ r < e.conn.count, (e.conn.heap r).canRecv = true →
      Announcer.Told (Config.normalized config).streamWindow
        ((log ++ e.conn.control).filterMap (Frame.maxStreamData? (e.conn.heap r).id))
        ⟨(e.conn.heap r).recvMax, false⟩) ∧
    ∀ id, ((log ++ e.conn.control).filterMap (Frame.maxStreamData? id)).Pairwise (· < ·) := by
  have hvalid := Config.normalized_valid config
  obtain ⟨_, _, t, htraced, hlog⟩ := traced_watch Traffic.handed (fun _ _ => rfl)
    (fun _ _ _ _ _ hhanded => hhanded) hvalid hrun
  have hhistory := htraced.past.history
  have htold := hhistory.limitsTold hvalid
  have hordered := htold.ordered (hhistory.warrants hvalid)
  obtain ⟨hdata, hstreams, hstream⟩ := htold
  -- The transport parameters come before the log and declare no limit.
  rw [hlog] at hdata hstreams hstream hordered
  rw [hhistory.config.1] at hdata hstreams hstream
  exact ⟨alert_of_run hvalid (Machine.run_of_watch hrun) hopen, hdata htotal, hstreams, hstream,
    fun id => (hordered id).of_cons⟩

end Endpoint

section Runs

/-- With windows of two, the peer sends two bytes on a stream and the application
reads them. The write loop wakes and takes what there is to send, and then a
ping is requested. -/
def twoBytes : List Action :=
  [.write true, .record ((Frame.transportParameters {}).append.getD []) 0,
    .record ((Frame.stream ⟨2, 0, [7, 8], false⟩).append.getD []) 0, .call (.tryAccept .uni),
    .call (.tryRead 0 2), .wake, .lock .flush, .enter 0, .call (.requestPing 0)]

theorem control_never_lost_twoBytes :
    ∃ (e : Endpoint) (log : List Frame),
      Machine.run (Machine.watch Endpoint.step Endpoint.handedBy)
        (Endpoint.new (Config.normalized (some
          { initialStreamReceiveWindow := 2, initialConnectionReceiveWindow := 2 })) true, [])
        twoBytes = some (e, log) ∧
      log = [.maxStreamData ⟨2, 4⟩, .maxData ⟨4⟩] ∧ e.conn.HasControl ∧ e.Alert ∧
      e.conn.dataLimit.Told 2 (log.filterMap Frame.maxData?) := by
  have hrun : (Machine.run (Machine.watch Endpoint.step Endpoint.handedBy)
      (Endpoint.new (Config.normalized (some
        { initialStreamReceiveWindow := 2, initialConnectionReceiveWindow := 2 })) true, [])
      twoBytes).map (fun s => (s.2, s.1.conn.closeErr, s.1.conn.totalReceived,
        s.1.conn.pingPending)) =
      some ([.maxStreamData ⟨2, 4⟩, .maxData ⟨4⟩], none, 2, true) := by
    decide +kernel
  obtain ⟨⟨e, log⟩, hrun, hstate⟩ := Option.map_eq_some_iff.mp hrun
  simp only [Prod.mk.injEq] at hstate
  obtain ⟨hlog, hopen, htotal, hping⟩ := hstate
  have hkept := Endpoint.control_never_lost _ true hrun hopen (by rw [htotal]; decide)
  exact ⟨e, log, hrun, hlog, Or.inr (Or.inr (Or.inr (Or.inr hping))), hkept.1, hkept.2.1⟩

end Runs

end Qmux
