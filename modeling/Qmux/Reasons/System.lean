import Qmux.Agreement
import Qmux.Reasons.Closing
import Qmux.Reasons.Errors

/-!
What an application is told of the other. The error that ends a stream early, or the
connection, and that is said to come from the peer, is what the application at the
other side has asked for, with the same code and the same words.
-/

namespace Qmux

open Wire

namespace System

variable [Quicvarint] [GoAppend] {config : Bool → Config} {σ : System} {s : Bool}

/-- What one side has heard, the other has handed out. -/
private theorem handed_of_heard {u : Traffic} (hvalid : ∀ s, (config s).Valid)
    (hwithin : σ.Within) (hother : Traced config σ (!s) u) {f : Parsed} (hf : f ∈ σ.heard s) :
    ∃ g ∈ u.handed, g.arrived = f := by
  obtain ⟨_, _, hother⟩ := hother
  rw [heard, hother.frames_take (hvalid (!s)) (hwithin (!s))] at hf
  obtain ⟨g, hg, harrived⟩ := List.mem_map.mp hf
  exact ⟨g, (hother.take_handed _).subset hg, harrived⟩

/-- A side, as far as the errors of its streams go. -/
private structure Accounted (events : List Event) (σ : System) (s : Bool) : Prop where
  ordered : (σ.ends s).conn.Ordered
  reasoned : (σ.ends s).conn.Reasoned (fun op => .act s (.call op) ∈ events) (· ∈ σ.heard s)
  told : ∀ f, .frame f ∈ σ.heard (!s) → f.cuts = true →
    ∃ r < (σ.ends s).conn.count, ((σ.ends s).conn.heap r).CutShort f

private theorem accounted (hvalid : ∀ s, (config s).Valid) {events : List Event}
    (hrun : Machine.run step (new config) events = some σ) (hwithin : σ.Within) (s : Bool) :
    Accounted events σ s := by
  obtain ⟨log, hwatch⟩ := Machine.exists_watch readsBy [] hrun
  obtain ⟨labels, hfollows, hlabels⟩ := follows_by hwatch s
  obtain ⟨t, hside, -⟩ := hfollows.traced hvalid
  have hreasoned := Endpoint.reasoned (hvalid s) (Machine.run_of_watch hfollows.run)
  rw [hfollows.heard] at hreasoned
  have hhistory : Conn.History (config s) s (· ∈ σ.heard s) t (σ.ends s).conn := by
    obtain ⟨_, _, htraced⟩ := hside
    exact htraced.past.history
  refine ⟨Conn.History.ordered (hvalid s) hhistory,
    hreasoned.mono (fun op hop => hlabels _ hop rfl) (fun _ hf => hf), fun f hf hcuts => ?_⟩
  have hself : Traced config σ (!!s) t := (Bool.not_not s).symm ▸ hside
  obtain ⟨g, hg, harrived⟩ := handed_of_heard hvalid hwithin hself hf
  obtain rfl : g = f := by
    cases f with
    | resetStream f =>
        cases g with
        | resetStream g => exact Parsed.frame.inj harrived
        | _ => cases harrived
    | stopSending f =>
        cases g with
        | stopSending g => exact Parsed.frame.inj harrived
        | _ => cases harrived
    | _ => cases hcuts
  exact Conn.History.cutShort (hvalid s) hhistory g (List.mem_append_left _ hg) hcuts

/-- An error of a stream that is said to come from the peer does. When a reader is returned
the error of a reset, the application at the other side has cancelled the stream, with this
code; when a writer is returned the error of a peer that does not want to read any more, the
application at the other side has cancelled reading, with this code. An error that is said to
be the own is the own. -/
theorem errors_agree (config : Bool → Option Config) {events : List Event} {σ : System}
    (hrun : Machine.run step (new (fun s => Config.normalized (config s))) events = some σ)
    (hwithin : σ.Within) (s : Bool) {r : Ref} (hr : r < (σ.ends s).conn.count) {id code : Nat}
    {remote : Bool} :
    let stream := (σ.ends s).conn.heap r
    let peer := (σ.ends (!s)).conn
    (stream.recvErr = some ⟨id, code, remote⟩ → id = stream.id ∧
      if remote then ∃ i < peer.count, (peer.heap i).id = id ∧
        .act (!s) (.call (.cancelWrite i code)) ∈ events
      else .act s (.call (.cancelRead r code)) ∈ events) ∧
    (stream.sendErr = some ⟨id, code, remote⟩ → id = stream.id ∧
      if remote then ∃ i < peer.count, (peer.heap i).id = id ∧
        .act (!s) (.call (.cancelRead i code)) ∈ events
      else .act s (.call (.cancelWrite r code)) ∈ events) := by
  have hvalid (s : Bool) := Config.normalized_valid (config s)
  have hside := accounted hvalid hrun hwithin s
  have hother := accounted hvalid hrun hwithin (!s)
  have htold := hother.told
  rw [Bool.not_not] at htold
  dsimp only
  constructor
  · intro herr
    obtain ⟨hid, hreason⟩ := hside.reasoned .recv r _ herr
    refine ⟨hid, ?_⟩
    cases remote with
    | false => exact hreason
    | true =>
        obtain ⟨_, hheard, size, rfl⟩ := hreason
        obtain ⟨i, hi, hname, e, hsend, rfl⟩ := htold _ hheard rfl
        obtain ⟨hpeer, hreason⟩ := hother.reasoned .send i e hsend
        refine ⟨i, hi, hname.trans hid.symm, ?_⟩
        -- were the writer stopped by this side, its reader would have its own error
        cases hremote : e.remote with
        | false =>
            rw [hremote] at hreason
            exact hreason
        | true =>
            simp only [hremote, if_true] at hreason
            obtain ⟨_, hstop, rfl⟩ := hreason
            obtain ⟨r', hr', hname', hown⟩ := hside.told _ hstop rfl
            obtain rfl := hside.ordered.sound.named.unique r' hr' r hr (hname'.trans hname)
            cases herr.symm.trans hown
  · intro herr
    obtain ⟨hid, hreason⟩ := hside.reasoned .send r _ herr
    refine ⟨hid, ?_⟩
    cases remote with
    | false => exact hreason
    | true =>
        obtain ⟨_, hheard, rfl⟩ := hreason
        obtain ⟨i, hi, hname, hrecv⟩ := htold _ hheard rfl
        obtain ⟨-, hreason⟩ := hother.reasoned .recv i _ hrecv
        exact ⟨i, hi, hname.trans hid.symm, hreason⟩

/-- Why the connection of each side has ended, while neither accuses the other. -/
private theorem explained (hvalid : ∀ s, (config s).Valid) {events : List Event}
    (hrun : Machine.run step (new config) events = some σ) (hwithin : σ.Within) (s : Bool) :
    (∀ err, (σ.ends s).reader ≠ .violation err) ∧
      (σ.ends s).Explained (fun a => .act s a ∈ events) (· ∈ σ.heard s) False := by
  induction events using List.reverseRecOn generalizing σ s with
  | nil =>
      obtain rfl := Option.some.inj hrun
      exact ⟨(fun err h => by cases h), (fun err h => by cases h), (fun err h => by cases h)⟩
  | append_singleton events ev ih =>
      obtain ⟨mid, hmid, hstep⟩ := Machine.run_snoc hrun
      obtain ⟨log, hwatch⟩ := Machine.exists_watch readsBy [] hmid
      have hfollows := follows hwatch
      have hbefore := hwithin.of_step hvalid hfollows hstep
      have htrust (s : Bool) := (ih hmid hbefore s).1
      refine ⟨trust_step hvalid hfollows hbefore htrust hstep s, ?_⟩
      obtain ⟨i, a, hmoved, hev, -⟩ := moved_by hstep
      have hold (b : Action) (hb : .act s b ∈ events) : .act s b ∈ events ++ [ev] :=
        List.mem_append_left _ hb
      rcases Bool.eq_or_eq_not s i with rfl | rfl
      · obtain ⟨_, hside⟩ := hfollows s
        have hsize := Endpoint.recordSize_le (hvalid s) (Machine.run_of_watch hside.run)
        rw [hmoved.heard]
        refine ((ih hmid hbefore s).2.mono hold (fun f hf => List.mem_append_left _ hf)).step hsize
          (fun hother => ?_) (fun f hf => List.mem_append_right _ hf)
          (fun v hv => htrust s v hv) hmoved.step
        rw [hev hother]
        exact List.mem_append_right _ (List.mem_singleton.mpr rfl)
      · rw [hmoved.other]
        refine (ih hmid hbefore (!i)).2.mono hold (fun f hf => ?_)
        obtain ⟨_, hother⟩ := hfollows (!i)
        rw [hother.heard_other hmoved]
        exact hf

/-- After a CONNECTION_CLOSE there is nothing to hear. -/
private theorem heard_all {u : Traffic} (hvalid : ∀ s, (config s).Valid) (hwithin : σ.Within)
    (hother : Traced config σ (!s) u) {close : ConnectionClose}
    (hclose : .frame (.connectionClose close) ∈ σ.heard s) :
    ∃ f, .connectionClose f ∈ (σ.ends (!s)).sent ∧
      Frame.received (.connectionClose f) = .connectionClose close ∧
      σ.heard s = (σ.ends (!s)).sent.map Frame.arrived := by
  obtain ⟨_, _, hother⟩ := hother
  have hheard : σ.heard s = _ := hother.frames_take (hvalid (!s)) (hwithin (!s)) (σ.read s)
  have hsplit := congrArg (List.flatMap Record.frames)
    (List.take_append_drop (σ.read s) (σ.ends (!s)).wire)
  rw [List.flatMap_append] at hsplit
  obtain ⟨rest, hlog, -⟩ := hother.wire
  rw [hheard] at hclose ⊢
  obtain ⟨g, hg, harrived⟩ := List.mem_map.mp hclose
  cases g with
  | connectionClose f =>
      have hsent : Frame.connectionClose f ∈ (σ.ends (!s)).sent :=
        (hsplit ▸ List.mem_append_left _ hg : _ ∈ (σ.ends (!s)).wire.flatMap Record.frames)
      refine ⟨f, hsent, Parsed.frame.inj harrived, ?_⟩
      -- what was written behind it would have been handed out behind it
      have hnothing : ((σ.ends (!s)).wire.drop (σ.read s)).flatMap Record.frames = [] := by
        refine List.eq_nil_iff_forall_not_mem.mpr (fun h hh => ?_)
        have hlast := hother.last
        rw [hlog, Endpoint.sent, ← hsplit] at hlast
        exact (List.pairwise_append.mp (List.pairwise_append.mp hlast).1).2.2 _ hg h hh f rfl
      rw [Endpoint.sent, ← hsplit, hnothing, List.append_nil]
  | _ => cases harrived

/-- The two sides agree on why the connection has ended. An error that is said to come from
the peer is the error of the application at the other side: the connection has ended there
with the same code and the same words, from a call of that application, and all that the other
side has written was read. Every other error has its cause at this side, and neither side is
ever told that it has violated the protocol. -/
theorem closes_agree (config : Bool → Option Config) {events : List Event} {σ : System}
    (hrun : Machine.run step (new (fun s => Config.normalized (config s))) events = some σ)
    (hwithin : σ.Within) (s : Bool) {err : ConnError}
    (hclosed : (σ.ends s).conn.closeErr = some err) :
    match err with
    | .application false code msg =>
        ∃ reason, .act s (.closeWithError code reason) ∈ events ∧
          msg = reason.take maxReasonLength
    | .application true code msg =>
        (σ.ends (!s)).conn.closeErr = some (.application false code msg) ∧
        (∃ reason, .act (!s) (.closeWithError code reason) ∈ events ∧
          msg = reason.take maxReasonLength) ∧
        σ.heard s = (σ.ends (!s)).sent.map Frame.arrived
    | .transport _ _ _ _ => False
    | .idleTimeout => .act s .idleTimeout ∈ events
    | .handshakeTimeout => .act s .handshakeTimeout ∈ events
    | .writeFailed cause =>
        .act s (.abortWrite cause) ∈ events ∨ .act s (.loopAbort cause) ∈ events
    | .transportClosed cause => .act s (.readFailed cause) ∈ events
    | .cancelled cause => .act s (.abort cause) ∈ events := by
  have hvalid (s : Bool) := Config.normalized_valid (config s)
  have hself := (explained hvalid hrun hwithin s).2.closed err hclosed
  have hother := (explained hvalid hrun hwithin (!s)).2.closed
  -- a CONNECTION_CLOSE that was heard is the error that the other side has ended with
  have hremote {close : ConnectionClose} (hheard : .frame (.connectionClose close) ∈ σ.heard s) :
      close.application = true ∧
        (σ.ends (!s)).conn.closeErr = some (.application false close.code close.reason) ∧
        σ.heard s = (σ.ends (!s)).sent.map Frame.arrived := by
    obtain ⟨log, hwatch⟩ := Machine.exists_watch readsBy [] hrun
    obtain ⟨labels, hfollows⟩ := follows hwatch (!s)
    obtain ⟨u, hpeer, -⟩ := hfollows.traced hvalid
    obtain ⟨f, hsent, hreceived, hall⟩ := heard_all hvalid hwithin hpeer hheard
    have hended := Endpoint.sent_error (hvalid (!s)) (Machine.run_of_watch hfollows.run) hsent
    have hreason := hother _ hended
    obtain rfl := Frame.connectionClose.inj hreceived
    cases happlication : f.application with
    | true =>
        refine ⟨rfl, ?_, hall⟩
        rw [hended]
        simp [ConnectionClose.error, happlication]
    | false =>
        simp only [ConnectionClose.error, happlication] at hreason
        exact hreason.elim
  cases err with
  | application remote code msg =>
      cases remote with
      | false => exact hself
      | true =>
          obtain ⟨close, hheard, herr⟩ := hself
          obtain ⟨happlication, hended, hall⟩ := hremote hheard
          simp only [Conn.remoteError, happlication, if_true] at herr
          obtain ⟨-, rfl, rfl⟩ := ConnError.application.inj herr
          exact ⟨hended, hother _ hended, hall⟩
  | transport remote code frameType msg =>
      cases remote with
      | false => exact hself
      | true =>
          obtain ⟨close, hheard, herr⟩ := hself
          obtain ⟨happlication, -⟩ := hremote hheard
          simp only [Conn.remoteError, happlication, if_true] at herr
          cases herr
  | _ => exact hself

end System

/-- A client writes a byte to a stream and then gives the stream up, with a code. -/
def abandoned : List System.Event :=
  [.act false (.write true), .act true (.write true), .deliver true 0, .deliver false 0,
    .act false (.call (.tryOpen .uni)), .act false (.lock (.chunk 0 [7])), .act false (.enter 0),
    .act false (.write true), .act false (.call (.cancelWrite 0 5)), .act false .wake,
    .act false (.lock .flush), .act false (.enter 0), .act false (.write true),
    .deliver true 0, .deliver true 0]

theorem errors_agree_abandoned :
    ∃ σ : System, Machine.run System.step (System.new (fun _ => Config.normalized none))
        abandoned = some σ ∧
      ((σ.ends true).conn.heap 0).recvErr = some ⟨2, 5, true⟩ ∧
      ∃ i < (σ.ends false).conn.count, ((σ.ends false).conn.heap i).id = 2 ∧
        .act false (.call (.cancelWrite i 5)) ∈ abandoned := by
  have hrun : (Machine.run System.step (System.new (fun _ => Config.normalized none))
      abandoned).map (fun σ => decide (σ.Within ∧ 0 < (σ.ends true).conn.count ∧
        ((σ.ends true).conn.heap 0).recvErr = some ⟨2, 5, true⟩)) = some true := by
    decide +kernel
  obtain ⟨σ, hrun, hstate⟩ := Option.map_eq_some_iff.mp hrun
  obtain ⟨hwithin, hcount, herr⟩ := of_decide_eq_true hstate
  exact ⟨σ, hrun, herr, ((System.errors_agree (fun _ => none) hrun hwithin true hcount).1 herr).2⟩

/-- A client closes the connection with a code and a reason, and the server reads that. -/
def dismissed : List System.Event :=
  [.act false (.write true), .act true (.write true), .deliver true 0, .deliver false 0,
    .act false (.closeWithError 9 [78, 111]), .act false (.lock .close),
    .act false (.write true), .act false .shutdown, .deliver true 0, .act true .readerCloses]

theorem closes_agree_dismissed :
    ∃ σ : System, Machine.run System.step (System.new (fun _ => Config.normalized none))
        dismissed = some σ ∧
      (σ.ends true).conn.closeErr = some (.application true 9 [78, 111]) ∧
      (σ.ends false).conn.closeErr = some (.application false 9 [78, 111]) := by
  have hrun : (Machine.run System.step (System.new (fun _ => Config.normalized none))
      dismissed).map (fun σ => decide (σ.Within ∧
        (σ.ends true).conn.closeErr = some (.application true 9 [78, 111]))) = some true := by
    decide +kernel
  obtain ⟨σ, hrun, hstate⟩ := Option.map_eq_some_iff.mp hrun
  obtain ⟨hwithin, hclosed⟩ := of_decide_eq_true hstate
  exact ⟨σ, hrun, hclosed,
    (System.closes_agree (fun _ => none) hrun hwithin true hclosed).1⟩

end Qmux
