import Qmux.Closing
import Qmux.System.Basic

/-!
Why a connection has ended. The error that everybody is returned from then on is
accounted for: by a call of the application, by a timeout, by a failure of the
transport, or by a CONNECTION_CLOSE of the peer. And what the peer is told in a
CONNECTION_CLOSE is this error.
-/

namespace Qmux

open Wire

/-- The error that the peer is told in the frame. -/
def Wire.ConnectionClose.error (f : ConnectionClose) : ConnError :=
  if f.application then .application false f.code f.reason
  else .transport false f.code f.frameType f.reason

namespace Endpoint

variable [Quicvarint] [GoAppend] {config : Config} {isServer : Bool} {labels : List Action}
  {e e' : Endpoint}

/-- What explains an error: something that was done at this side, a violation by the peer, or
a CONNECTION_CLOSE of the peer. -/
def Explains (did : Action → Prop) (heard : Parsed → Prop) (violated : Prop) : ConnError → Prop
  | .application false code msg =>
      ∃ reason, did (.closeWithError code reason) ∧ msg = reason.take maxReasonLength
  | .application true code msg => ∃ close, heard (.frame (.connectionClose close)) ∧
      Conn.remoteError close = .application true code msg
  | .transport false _ _ _ => violated
  | .transport true code frameType msg => ∃ close, heard (.frame (.connectionClose close)) ∧
      Conn.remoteError close = .transport true code frameType msg
  | .idleTimeout => did .idleTimeout
  | .handshakeTimeout => did .handshakeTimeout
  | .writeFailed cause => did (.abortWrite cause) ∨ did (.loopAbort cause)
  | .transportClosed cause => did (.readFailed cause)
  | .cancelled cause => did (.abort cause)

section Explains

variable {did did' : Action → Prop} {heard heard' : Parsed → Prop} {violated : Prop}
  {err : ConnError}

omit [Quicvarint] [GoAppend] in
theorem Explains.mono (h : Explains did heard violated err)
    (hdid : ∀ a, did a → did' a) (hheard : ∀ f, heard f → heard' f) :
    Explains did' heard' violated err := by
  cases err with
  | application remote code msg =>
      cases remote with
      | false => exact h.imp (fun _ h => ⟨hdid _ h.1, h.2⟩)
      | true => exact h.imp (fun _ h => ⟨hheard _ h.1, h.2⟩)
  | transport remote code frameType msg =>
      cases remote with
      | false => exact h
      | true => exact h.imp (fun _ h => ⟨hheard _ h.1, h.2⟩)
  | writeFailed cause => exact h.imp (hdid _) (hdid _)
  | _ => exact hdid _ h

omit [Quicvarint] [GoAppend] in
/-- The peer has closed the connection. -/
private theorem Explains.remote {close : ConnectionClose}
    (hheard : heard (.frame (.connectionClose close))) :
    Explains did heard violated (Conn.remoteError close) := by
  cases happlication : close.application with
  | true =>
      have herr : Conn.remoteError close = .application true close.code close.reason := by
        simp [Conn.remoteError, happlication]
      rw [herr]
      exact ⟨close, hheard, herr⟩
  | false =>
      have herr : Conn.remoteError close =
          .transport true close.code close.frameType close.reason := by
        simp [Conn.remoteError, happlication]
      rw [herr]
      exact ⟨close, hheard, herr⟩

/-- The error that the read loop is about to abort with is explained, and the one that the
connection has ended with. -/
structure Explained (did : Action → Prop) (heard : Parsed → Prop) (violated : Prop)
    (e : Endpoint) : Prop where
  aborting : ∀ err, e.reader = .aborting err → Explains did heard violated err
  closed : ∀ err, e.conn.closeErr = some err → Explains did heard violated err

omit [GoAppend] in
theorem Explained.mono (h : Explained did heard violated e) (hdid : ∀ a, did a → did' a)
    (hheard : ∀ f, heard f → heard' f) : Explained did' heard' violated e :=
  ⟨fun err herr => (h.aborting err herr).mono hdid hheard,
    fun err herr => (h.closed err herr).mono hdid hheard⟩

/-- The error that the read loop comes to. -/
private theorem step_aborting
    (h : ∀ err, e.reader = .aborting err → Explains did heard violated err) {a : Action}
    (hact : ∀ cause, a = .readFailed cause → did a) (hnew : ∀ f ∈ heardBy a, heard f)
    (hstep : e.step a = some e') (haborting : e'.reader = .aborting err) :
    Explains did heard violated err := by
  cases stepped hstep with
  | close hcloses =>
      cases hcloses with
      | violation => cases haborting
      | _ => exact h err haborting
  | abort haborts =>
      cases haborts with
      | readLoop => cases haborting
      | _ => exact h err haborting
  | lock _ hlock =>
      obtain ⟨_, _, rfl, -⟩ := lock_frame hlock
      exact h err haborting
  | enter henter =>
      obtain ⟨_, _, _, rfl⟩ := enter_frame henter
      exact h err haborting
  | write hwrite =>
      obtain ⟨_, _, _, _, _, rfl, -⟩ := write_frame hwrite
      exact h err haborting
  | @record rec now hreading =>
      unfold receive at haborting
      dsimp only at haborting
      split_ifs at haborting
      rcases hrecord : e.conn.handleRecord rec now with ⟨c, _ | v | closed⟩
      all_goals rw [hrecord] at haborting
      · exact h err haborting
      · cases haborting
      · obtain rfl := ReadLoop.aborting.inj haborting
        obtain ⟨close, rfl, hpart⟩ := Conn.handleRecord_closedBy hrecord
        exact .remote (hnew _ (hpart.subset (by simp)))
  | readFailed =>
      obtain rfl := ReadLoop.aborting.inj haborting
      exact hact _ rfl
  | _ => exact h err haborting

/-- The read loop aborts for what the transport or the peer has done. -/
theorem aborting_explained (hrun : Machine.run step (new config isServer) labels = some e)
    (haborting : e.reader = .aborting err) :
    Explains (fun a => ∃ cause, a = .readFailed cause) (fun _ => True) violated err := by
  refine Machine.trace_invariant (P := fun _ (e : Endpoint) => ∀ err, e.reader = .aborting err →
    Explains (fun a => ∃ cause, a = .readFailed cause) (fun _ => True) violated err)
    (fun err h => by cases h) ?_ labels e hrun err haborting
  intro _ e a e' h hstep err haborting
  exact step_aborting h (fun cause hcause => ⟨cause, hcause⟩) (fun _ _ => trivial) hstep haborting

omit [GoAppend] in
/-- A call of `terminate`. -/
theorem terminates_explained
    (h : ∀ err, e.reader = .aborting err → Explains did heard violated err) {a : Action}
    (hact : a.isRecord = false → did a) (hviolated : ∀ v, e.reader = .violation v → violated)
    (hterminates : err ∈ e.terminatesBy a) : Explains did heard violated err := by
  cases a with
  | closeWithError code msg =>
      obtain rfl := List.mem_singleton.mp hterminates
      exact ⟨msg, hact rfl, rfl⟩
  | abortWrite cause =>
      obtain rfl := List.mem_singleton.mp hterminates
      exact Or.inl (hact rfl)
  | loopAbort cause =>
      obtain rfl := List.mem_singleton.mp hterminates
      exact Or.inr (hact rfl)
  | handshakeTimeout | idleTimeout | abort =>
      obtain rfl := List.mem_singleton.mp hterminates
      exact hact rfl
  | readerCloses =>
      unfold terminatesBy at hterminates
      dsimp only at hterminates
      split at hterminates
      · rename_i v hreader
        obtain rfl := List.mem_singleton.mp hterminates
        exact hviolated v hreader
      · rename_i hreader
        obtain rfl := List.mem_singleton.mp hterminates
        exact h err hreader
      · cases hterminates
  | _ => cases hterminates

/-- A step at this side. -/
theorem Explained.step (h : Explained did heard violated e) {a : Action}
    (hsize : e.conn.config.maxRecordSize.toNat ≤ maxVarint)
    (hact : a.isRecord = false → did a) (hnew : ∀ f ∈ heardBy a, heard f)
    (hviolated : ∀ v, e.reader = .violation v → violated) (hstep : e.step a = some e') :
    Explained did heard violated e' := by
  refine ⟨fun err haborting => step_aborting h.aborting (fun _ hcause => hact (by rw [hcause]; rfl))
    hnew hstep haborting, fun err hclosed => ?_⟩
  rw [step_closeErr hsize hstep] at hclosed
  rcases Option.or_eq_some_iff.mp hclosed with hbefore | ⟨-, hfirst⟩
  · exact h.closed err hbefore
  · exact terminates_explained h.aborting hact hviolated (List.mem_of_head? hfirst)

end Explains

/-- The call that ended the connection is about to tell the peer the error. -/
private theorem graceful_error (hconfig : config.Valid)
    (hrun : Machine.run step (new config isServer) labels = some e) {f : ConnectionClose}
    (hcloser : e.closer = .graceful (some f)) : e.conn.closeErr = some f.error := by
  refine (Machine.trace_invariant (P := fun labels e =>
    Machine.run step (new config isServer) labels = some e ∧
      ∀ f, e.closer = .graceful (some f) → e.conn.closeErr = some f.error)
    ⟨rfl, fun f hf => by cases hf⟩ ?_ labels e hrun).2 f hcloser
  rintro labels e a e' ⟨hprior, h⟩ hstep
  refine ⟨by simp [Machine.run_append, hprior, Machine.run, hstep], fun f hcloser => ?_⟩
  have hclose := step_closeErr (recordSize_le hconfig hprior) hstep
  have hold (hsame : e.closer = .graceful (some f)) : e'.conn.closeErr = some f.error := by
    rw [hclose, h f hsame]
    rfl
  cases stepped hstep with
  | close hcloses =>
      by_cases hended : e.conn.closeErr.isSome = true
      · simp only [closeGracefully, Conn.terminate, hended, if_true] at hcloser
        exact hold hcloser
      · simp only [closeGracefully, Conn.terminate, hended] at hcloser ⊢
        obtain rfl := Closer.graceful.inj hcloser
        cases hcloses <;> rfl
  | abort haborts =>
      by_cases hended : e.conn.closeErr.isSome = true
      · simp only [Endpoint.abort, Conn.terminate, hended, if_true] at hcloser
        exact hold hcloser
      · simp [Endpoint.abort, Conn.terminate, hended] at hcloser
  | lock _ hlock =>
      obtain ⟨_, _, rfl, hsame | hwriting⟩ := lock_frame hlock
      · exact hold (hsame ▸ hcloser)
      · rw [hwriting] at hcloser
        cases hcloser
  | enter henter =>
      obtain ⟨_, _, _, rfl⟩ := enter_frame henter
      exact hold hcloser
  | write hwrite =>
      obtain ⟨_, _, _, _, _, rfl, hsame | hshutdown⟩ := write_frame hwrite
      · exact hold (hsame ▸ hcloser)
      · rw [hshutdown] at hcloser
        cases hcloser
  | record =>
      obtain ⟨_, _, hframe⟩ := e.receive_frame _ _
      rw [hframe] at hcloser
      exact hold hcloser
  | shutdown => cases hcloser
  | _ => exact hold hcloser

/-- What the peer is told in a CONNECTION_CLOSE is the error that the connection has ended
with. -/
theorem sent_error (hconfig : config.Valid)
    (hrun : Machine.run step (new config isServer) labels = some e) {f : ConnectionClose}
    (hsent : .connectionClose f ∈ e.sent) : e.conn.closeErr = some f.error := by
  have hrecords := (forall_records (Q := fun c _ frames => ∀ f, .connectionClose f ∈ frames →
    c.closeErr = some f.error) hconfig ?_ ?_ ?_ hrun).2
  · obtain ⟨record, hrecord, hf⟩ := List.mem_flatMap.mp hsent
    obtain ⟨_, herror⟩ := hrecords record hrecord
    exact herror f hf
  · intro c c' w frames hext herror f hf
    have hclosed := herror f hf
    rw [hext.closed (by rw [hclosed]; rfl), hclosed]
  · simp
  · intro before mid w records hmid hhands frames hframes f hf
    cases hhands with
    | chunk | finish | datagram =>
        rw [List.mem_singleton.mp hframes, List.mem_singleton] at hf
        cases hf
    | @flush now =>
        obtain ⟨_, _, t, htraced⟩ := traced hconfig hmid
        have hmem : .connectionClose f ∈ (mid.conn.takeControl now).2 := by
          have hflat := packControl_flatten (mid.conn.takeControl now).2 [] 0
          rw [List.nil_append] at hflat
          rw [← hflat]
          exact List.mem_flatten.mpr ⟨frames, hframes, hf⟩
        cases Conn.pending_of_takeControl hmem with
        | queued hqueued =>
            have hcontrol := Conn.History.control htraced.past.history _ hqueued
            cases hcontrol
    | close hcloser =>
        rw [List.mem_singleton.mp hframes, List.mem_singleton] at hf
        obtain rfl := Frame.connectionClose.inj hf
        exact graceful_error hconfig hmid hcloser

end Endpoint

end Qmux
