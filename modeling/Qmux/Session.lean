import Qmux.Trace.Run

/-!
The shape of a session on the wire: the transport parameters come first and
once, and a CONNECTION_CLOSE is the last frame.
-/

namespace Qmux

open Wire

/-- The frames of a session start with QX_TRANSPORT_PARAMETERS, which does not
come again, and nothing follows a CONNECTION_CLOSE. -/
structure WellShaped (frames : List Frame) : Prop where
  parameters : ∀ f rest, frames = f :: rest →
    (∃ p, f = .transportParameters p) ∧ ∀ p, .transportParameters p ∉ rest
  close : ∀ before f after, frames = before ++ .connectionClose f :: after →
    after = [] ∧ ∀ g, .connectionClose g ∉ before

section

variable [Quicvarint] [GoAppend]

namespace Conn

private theorem parameters_not_handed {c c' : Conn} {heard : Parsed → Prop}
    {t : Traffic} (hcontrol : ∀ f ∈ c.control, queuedFrame f = true)
    (hmove : Move heard c t c') (p : Parameters) :
    .transportParameters p ∉ t.handed := by
  intro hp
  cases hmove with
  | still htook hhanded => simp [hhanded] at hp
  | act hopen hact => exact hact.not_handed (fun f => by simp) hp
  | reserve => split_ifs at hp <;> simp at hp
  | flush =>
      cases pending_of_controlFrames hp with
      | queued hp => exact absurd (hcontrol _ hp) Bool.false_ne_true
  | datagram => simp at hp
  | close => simp at hp
  | _ => cases hp

/-- The transport parameters are handed out first, and once. -/
theorem History.parameters {config : Config} {isServer : Bool} {heard : Parsed → Prop}
    {t : Traffic} {c : Conn} (hhistory : History config isServer heard t c) :
    ∃ rest, t.handed =
      .transportParameters (Conn.new config isServer).localParameters :: rest ∧
      ∀ p, .transportParameters p ∉ rest := by
  induction hhistory with
  | start => exact ⟨[], rfl, fun p hp => by cases hp⟩
  | @move _ t' _ _ hprior hmove ih =>
      obtain ⟨rest, hlog, hrest⟩ := ih
      refine ⟨rest ++ t'.handed, by rw [Traffic.append_handed, hlog, List.cons_append],
        fun p hp => ?_⟩
      rcases List.mem_append.mp hp with hp | hp
      · exact hrest p hp
      · exact parameters_not_handed (History.control hprior) hmove p hp
  | terminate err _ ih => exact ih

end Conn

namespace Endpoint

/-- What one endpoint writes to the transport is well shaped, however its
goroutines interleave and however many calls close it. -/
theorem sent_wellShaped (config : Option Config) (isServer : Bool) {e : Endpoint}
    (hreach : Reachable (Config.normalized config) isServer e) : WellShaped e.sent := by
  obtain ⟨labels, hrun⟩ := hreach
  obtain ⟨_, _, t, htraced⟩ := traced (Config.normalized_valid config) hrun
  obtain ⟨left, hlog, -⟩ := htraced.wire
  refine ⟨fun f rest hsent => ?_, fun before f after hsent => ?_⟩
  · obtain ⟨more, hparams, honce⟩ := htraced.past.history.parameters
    rw [hsent, List.cons_append] at hlog
    obtain ⟨rfl, rfl⟩ := List.cons.inj (hlog.symm.trans hparams)
    exact ⟨⟨_, rfl⟩, fun p hp => honce p (List.mem_append_left left hp)⟩
  · have hlast := htraced.last
    rw [hlog, hsent, List.append_assoc, List.cons_append] at hlast
    obtain ⟨-, hclose, hbefore⟩ := List.pairwise_append.mp hlast
    refine ⟨?_, fun g hg => hbefore _ hg _ List.mem_cons_self g rfl⟩
    cases after with
    | nil => rfl
    | cons next after =>
        have hnext := (List.pairwise_cons.mp hclose).1 next List.mem_cons_self f
        exact absurd rfl hnext

end Endpoint

end

/-- A client that is closed at once writes its parameters and the close. -/
theorem sent_wellShaped_closed :
    ∃ e : Endpoint, e.Reachable (Config.normalized none) false ∧ e.sent.length = 2 ∧
      WellShaped e.sent := by
  have hrun : (Machine.run Endpoint.step (Endpoint.new (Config.normalized none) false)
      [.closeWithError 0 [], .write true, .lock .close, .write true]).map
        (fun e => e.sent.length) = some 2 := by
    decide +kernel
  obtain ⟨e, hrun, hlen⟩ := Option.map_eq_some_iff.mp hrun
  exact ⟨e, ⟨_, hrun⟩, hlen, Endpoint.sent_wellShaped none false ⟨_, hrun⟩⟩

end Qmux
