import Qmux.System.Basic

/-!
Two endpoints never accuse each other. Whatever either side does, and however
its goroutines interleave with the deliveries, the records of the other side are
within the size that was declared, they parse, and no frame in them is a
violation.
-/

namespace Qmux

open Wire

namespace Endpoint

variable [Quicvarint] [GoAppend] {e e' : Endpoint}

/-- Only a record is found to be a violation. -/
theorem step_reader {a : Action} (hstep : step e a = some e') (hother : a.isRecord = false)
    {err : Wire.Error} (hviolation : e'.reader = .violation err) : e.reader = .violation err := by
  cases stepped hstep with
  | close hcloses =>
      cases hcloses with
      | violation => cases hviolation
      | _ => exact hviolation
  | abort haborts =>
      cases haborts with
      | readLoop => cases hviolation
      | _ => exact hviolation
  | lock _ hlock =>
      obtain ⟨_, _, rfl, -⟩ := lock_frame hlock
      exact hviolation
  | enter henter =>
      obtain ⟨_, _, _, rfl⟩ := enter_frame henter
      exact hviolation
  | write hwrite =>
      obtain ⟨_, _, _, _, _, rfl, -⟩ := write_frame hwrite
      exact hviolation
  | record => cases hother
  | readFailed => cases hviolation
  | _ => exact hviolation

end Endpoint

namespace System

variable [Quicvarint] [GoAppend] {config : Bool → Config} {σ σ' : System} {ev : Event}

/-- The limits on streams are not taken back. -/
theorem Within.of_step {log : List (Bool × Ref × ReadResult)} (hvalid : ∀ s, (config s).Valid)
    (hfollows : ∀ s, ∃ labels, Follows config log σ s labels) (hstep : σ.step ev = some σ')
    (h : σ'.Within) : σ.Within := by
  obtain ⟨s, a, hmoved⟩ := moved hstep
  intro i dir
  rcases Bool.eq_or_eq_not i s with rfl | rfl
  · obtain ⟨_, hrun⟩ := hfollows i
    obtain ⟨t, ⟨_, _, hside⟩, -⟩ := hrun.traced hvalid
    obtain ⟨more, hnext, -⟩ := hside.restart.step (hvalid i).recordSize_le hmoved.step
    have hprior := hside.past.history.mono (fun f (hf : f ∈ σ.heard i) =>
      List.mem_append_left (Endpoint.heardBy a) hf)
    exact (Conn.Since.incoming_le (hvalid i) hprior hnext.past.since dir).trans (h i dir)
  · have hkept := h (!s) dir
    rw [hmoved.other] at hkept
    exact hkept

/-- The next record of the other side is within the size that was declared. -/
private theorem record_le {s : Bool} {t u : Traffic} (hvalid : ∀ s, (config s).Valid)
    (hwithin : σ.Within) (hside : Traced config σ s t) (hother : Traced config σ (!s) u)
    {record : Record}
    (hsized : Endpoint.Sized (σ.ends (!s)).conn record.frames record.bytes) :
    record.bytes.length ≤ (σ.ends s).conn.config.maxRecordSize.toNat := by
  have hdialogue := dialogue hvalid hwithin hside hother
  rw [(Conn.History.config hdialogue.history).1]
  rcases hsized with hdefault | ⟨-, hready, hlimit⟩
  · exact hdefault.trans (hvalid s).recordSize_ge
  · refine (hlimit.trans (Nat.min_le_right _ _)).trans ?_
    rw [hdialogue.peer_parameters hready, ← received_maxRecordSize (hvalid s) s]
    unfold Conn.localParameters
    rw [(Conn.History.config hdialogue.history).1]
    exact Nat.le_refl _

/-- The next record of the other side is no violation. -/
private theorem receive_accepts {s : Bool} {t u : Traffic} (hvalid : ∀ s, (config s).Valid)
    (hwithin : σ.Within) (hside : Traced config σ s t) (hother : Traced config σ (!s) u)
    {record : Record} (hrecord : (σ.ends (!s)).wire[σ.read s]? = some record)
    (hsized : Endpoint.Sized (σ.ends (!s)).conn record.frames record.bytes)
    (hreading : (σ.ends s).reader = .reading) (now : Time) (err : Wire.Error) :
    ((σ.ends s).receive record.bytes now).reader ≠ .violation err := by
  have hdialogue := dialogue hvalid hwithin hside hother
  have hsize := record_le hvalid hwithin hside hother hsized
  obtain ⟨_, _, hside⟩ := hside
  obtain ⟨_, _, hother⟩ := hother
  have hparses := hother.parses (hvalid (!s)) (hwithin (!s)) (List.mem_of_getElem? hrecord)
  have hnext := hother.take_handed (σ.read s + 1)
  rw [List.take_add_one, hrecord, List.flatMap_append] at hnext
  have haccepts (err : Wire.Error) :
      ((σ.ends s).conn.handleRecord record.bytes now).2 ≠ some (.violation err) := by
    refine hdialogue.accepts_frames (fun hopen => ?_)
      (by simpa using hnext) hparses ?_ now err _
    · rw [hside.reading hopen hreading]
      exact hother.frames_take (hvalid (!s)) (hwithin (!s)) _
    · rw [(Conn.History.config hdialogue.history).1] at hsize
      exact hsize.trans (hvalid s).recordSize_le
  unfold Endpoint.receive
  dsimp only
  rw [if_neg (Nat.not_lt.mpr hsize)]
  split
  · simp [hreading]
  · rename_i c err' hviolation
    exact absurd (congrArg Prod.snd hviolation) (haccepts err')
  · simp

/-- A step does not make one side accuse the other. -/
theorem trust_step {log : List (Bool × Ref × ReadResult)}
    (hvalid : ∀ s, (config s).Valid) (hfollows : ∀ s, ∃ labels, Follows config log σ s labels)
    (hwithin : σ.Within) (htrust : ∀ s err, (σ.ends s).reader ≠ .violation err)
    (hstep : σ.step ev = some σ') (i : Bool) (err : Wire.Error) :
    (σ'.ends i).reader ≠ .violation err := by
  obtain ⟨s, a, hmoved⟩ := moved hstep
  rcases Bool.eq_or_eq_not i s with rfl | rfl
  · by_cases hread : a.isRecord = true
    · cases a with
      | record rec now =>
          obtain ⟨record, hrecord, rfl⟩ := hmoved.record rec now rfl
          obtain ⟨hreading, hreceive⟩ := Option.ite_none_right_eq_some.mp hmoved.step
          obtain ⟨_, hside⟩ := hfollows i
          obtain ⟨_, hother⟩ := hfollows (!i)
          obtain ⟨t, ht, -⟩ := hside.traced hvalid
          obtain ⟨u, hu, -⟩ := hother.traced hvalid
          have hsized := Endpoint.wire_sized (hvalid (!i)) (Machine.run_of_watch hother.run)
            record (List.mem_of_getElem? hrecord)
          rw [← Option.some.inj hreceive]
          exact receive_accepts hvalid hwithin ht hu hrecord hsized hreading now err
      | _ => cases hread
    · intro hviolation
      exact htrust i err
        (Endpoint.step_reader hmoved.step (Bool.eq_false_iff.mpr hread) hviolation)
  · rw [hmoved.other]
    exact htrust (!s) err

/-- Two endpoints never accuse each other. From any two configurations, in every run
in which no limit on streams goes beyond what a MAX_STREAMS frame can declare, no
record that either side reads is a violation, and none is too large. -/
theorem never_accused (config : Bool → Option Config) {events : List Event} {σ : System}
    (hrun : Machine.run step (new (fun s => Config.normalized (config s))) events = some σ)
    (hwithin : σ.Within) (s : Bool) (err : Wire.Error) :
    (σ.ends s).reader ≠ .violation err := by
  have hvalid (s : Bool) := Config.normalized_valid (config s)
  induction events using List.reverseRecOn generalizing σ s err with
  | nil =>
      obtain rfl := Option.some.inj hrun
      intro hviolation
      cases hviolation
  | append_singleton events ev ih =>
      obtain ⟨mid, hmid, hstep⟩ := Machine.run_snoc hrun
      obtain ⟨log, hwatch⟩ := Machine.exists_watch readsBy [] hmid
      have hfollows := follows hwatch
      have hbefore := hwithin.of_step hvalid hfollows hstep
      exact trust_step hvalid hfollows hbefore (ih hmid hbefore) hstep s err

end System

/-- A client writes two bytes to a stream and closes it; the server reads the stream to
its end, and lets the client open another. -/
def exchange : List System.Event :=
  [.act false (.write true), .act true (.write true), .deliver true 0, .deliver false 0,
    .act false (.call (.tryOpen .uni)), .act false (.lock (.chunk 0 [7, 8])),
    .act false (.enter 0), .act false (.write true), .act false (.lock (.closeSend 0)),
    .act false (.enter 0), .act false (.write true), .deliver true 0, .deliver true 0,
    .act true (.call (.tryAccept .uni)), .act true (.call (.tryRead 0 8)),
    .act true (.call (.tryRead 0 8)), .act true .wake, .act true (.lock .flush),
    .act true (.enter 0), .act true (.write true), .deliver false 0]

theorem never_accused_exchange :
    ∃ σ : System, Machine.run System.step (System.new (fun _ => Config.normalized none))
        exchange = some σ ∧ σ.read true = 3 ∧ σ.read false = 2 ∧ σ.Within ∧
      ∀ s err, (σ.ends s).reader ≠ .violation err := by
  have hrun : (Machine.run System.step (System.new (fun _ => Config.normalized none))
      exchange).map (fun σ => decide (σ.read true = 3 ∧ σ.read false = 2 ∧ σ.Within)) =
        some true := by
    decide +kernel
  obtain ⟨σ, hrun, hstate⟩ := Option.map_eq_some_iff.mp hrun
  obtain ⟨hserver, hclient, hwithin⟩ := of_decide_eq_true hstate
  exact ⟨σ, hrun, hserver, hclient, hwithin,
    System.never_accused (fun _ => none) hrun hwithin⟩

end Qmux
