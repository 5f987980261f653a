import Qmux.Limits.Moves

/-!
What a connection has told its peer of its limits, over every history: the last
value handed out for a limit is the limit, unless a declaration is due, and
every declaration gives more than the one before.
-/

namespace Qmux

open Wire

namespace Conn

/-- What the connection has declared of its limits: the peer knows each one, or
a declaration is due. -/
structure LimitsTold (handed : List Frame) (c : Conn) : Prop where
  data : c.totalReceived + c.config.connectionWindow < 2 ^ 64 →
    c.dataLimit.Told c.config.connectionWindow (handed.filterMap Frame.maxData?)
  streams : ∀ dir, (c.streamsLimit dir).Told (c.config.incomingLimit dir)
    (handed.filterMap (Frame.maxStreams? dir))
  stream : ∀ r < c.count, (c.heap r).canRecv = true →
    Announcer.Told c.config.streamWindow
      ((handed ++ c.control).filterMap (Frame.maxStreamData? (c.heap r).id))
      ⟨(c.heap r).recvMax, false⟩

section History

variable [Quicvarint] [GoAppend] {config : Config} {isServer : Bool} {heard : Parsed → Prop}
  {t t' : Traffic} {c c' : Conn}

omit [Quicvarint] [GoAppend] in
/-- Moving on the limit on data raises it, as long as the total does not wrap. -/
private theorem Raises.lt (hraises : c.Raises c') (hbalanced : c.Balanced)
    (hbalanced' : c'.Balanced) (haccounted : c.Accounted c')
    (hsmall : c'.totalReceived + c'.config.connectionWindow < 2 ^ 64) :
    c.recvMax < c'.recvMax := by
  have hconfig := haccounted.config
  have htotal := haccounted.total_le
  have hledger' := hbalanced' hsmall
  rw [hconfig] at hsmall
  have hledger := hbalanced (by omega)
  have hreceived : c.received = c.totalReceived := hledger.arrived
  have hconsumed : c.received = c.consumed + _ := hledger.waiting
  have hwhole : c.recvMax ≤ c.consumed + c.config.connectionWindow := hledger.ample.whole
  have hreceived' : c'.received = c'.totalReceived := hledger'.arrived
  have hconsumed' : c'.received = c'.consumed + _ := hledger'.waiting
  have hmax : c'.recvMax = _ := congrArg Announcer.value hraises.whole
  rw [hmax]
  exact limit_lt hraises.low (by omega) (by omega)

omit [GoAppend] in
/-- No limit was declared of a stream that is not there. -/
theorem unannounced {handed : List Frame}
    (hwarrants : ∀ f ∈ handed ++ c.control, c.Warrants f) {id : Nat}
    (hnone : ∀ r < c.count, (c.heap r).canRecv = true → (c.heap r).id ≠ id) :
    (handed ++ c.control).filterMap (Frame.maxStreamData? id) = [] := by
  refine List.filterMap_eq_nil_iff.mpr (fun f hf => ?_)
  cases f with
  | maxStreamData f =>
      obtain ⟨r, hr, hid, hrecv, -⟩ := hwarrants _ hf
      exact if_neg (fun hcase => hnone r hr hrecv (hid.trans hcase))
  | _ => rfl

omit [GoAppend] in
/-- The limits declared of a stream grow. -/
theorem LimitsTold.ordered {handed : List Frame} (h : c.LimitsTold handed)
    (hwarrants : ∀ f ∈ handed ++ c.control, c.Warrants f) (id : Nat) :
    (c.config.streamWindow ::
      (handed ++ c.control).filterMap (Frame.maxStreamData? id)).Pairwise (· < ·) := by
  by_cases hstream : ∃ r < c.count, (c.heap r).canRecv = true ∧ (c.heap r).id = id
  · obtain ⟨r, hr, hrecv, rfl⟩ := hstream
    exact (h.stream r hr hrecv).ordered
  · rw [unannounced hwarrants (fun r hr hrecv hid => hstream ⟨r, hr, hrecv, hid⟩)]
    exact List.pairwise_singleton _ _

/-- In every history the limits are told. -/
theorem History.limitsTold (hconfig : config.Valid)
    (hhistory : History config isServer heard t c) : c.LimitsTold t.handed := by
  induction hhistory with
  | start =>
      exact ⟨fun _ => Announcer.told_start _, fun _ => Announcer.told_start _,
        fun r hr => absurd hr (Nat.not_lt_zero r)⟩
  | @move t t' c c' hprior hmove ih =>
      have hsame := (History.config hprior).1
      have hnext : History config isServer heard (t ++ t') c' := .move hprior hmove
      have hordered := History.ordered hconfig hprior
      have hcontrol := History.control hprior
      have hsound : ∀ r < c.count, (c.heap r).Sound c.config.streamWindow :=
        hsame ▸ History.streams_sound hconfig hprior
      have hwindow : c.config.streamWindow ≤ maxVarint := hsame ▸ hconfig.streamWindow_le
      have haccounted := Accounted.of_move hordered hsound hwindow hmove
      refine ⟨fun hsmall => ?_, fun dir => ?_, fun r hr hcan => ?_⟩
      · have hstep := dataLimit_of_move hcontrol (fun hraises => hraises.lt
          (History.balanced hconfig hprior) (History.balanced hconfig hnext) haccounted hsmall)
          hmove
        have htotal := haccounted.total_le
        rw [haccounted.config] at hsmall ⊢
        rw [Traffic.append_handed, List.filterMap_append]
        exact (ih.data (by omega)).step hstep
      · have hmax := hordered.incoming_max (hsame.symm ▸ hconfig.incomingLimit_le) dir
        rw [Traffic.append_handed, List.filterMap_append, haccounted.config]
        exact (ih.streams dir).step (streamsLimit_of_move hcontrol (by omega) hmove)
      · rw [haccounted.config, Traffic.append_handed, List.append_assoc, List.filterMap_append]
        rcases Nat.lt_or_ge r c.count with hold | hnew
        · have hkeeps := (Extends.of_move hmove).streams r hold
          obtain ⟨more, hlog, hcase⟩ := streamLimit_of_move hordered hsound hwindow hmove hold
          have htold := ih.stream r hold (hkeeps.canRecv.symm.trans hcan)
          rw [hkeeps.id, hlog, ← List.append_assoc, ← List.filterMap_append]
          rcases hcase with ⟨rfl, hmax⟩ | ⟨rfl, hlt⟩
          · rw [List.append_nil, hmax]
            exact htold
          · exact htold.grant hlt
        · rcases count_of_move hmove with hcount | ⟨hone, hnone, hqueue, id, accepted, hfresh⟩
          · omega
          · obtain rfl : r = c.count := by omega
            have hother : ∀ i < c.count, (c.heap i).id ≠ (c'.heap c.count).id := by
              intro i hi heq
              have hkept := ((Extends.of_move hmove).streams i hi).id
              have hsound' := (History.ordered hconfig hnext).sound.named
              have hsingle := hsound'.unique i (hi.trans hr) c.count hr (hkept.trans heq)
              omega
            have hhanded : t'.handed = [] := hnone ▸ rfl
            rw [hhanded, hqueue, List.nil_append, ← List.filterMap_append,
              unannounced (History.warrants hconfig hprior) (fun i hi _ => hother i hi)]
            rw [hfresh] at hcan ⊢
            have hmax : ({ c.newStream id with accepted := accepted } : Stream).recvMax =
                c.config.streamWindow := if_pos hcan
            rw [hmax]
            exact Announcer.told_start _
  | @terminate t c err hprior ih =>
      have htotal := (Accounted.terminate c err).total_le
      unfold Conn.terminate at htotal ⊢
      split_ifs at htotal ⊢
      · exact ih
      · refine ⟨fun hsmall => ?_, ih.streams, fun r hr => ?_⟩
        · change (c.terminated err).totalReceived + c.config.connectionWindow < 2 ^ 64 at hsmall
          dsimp only at htotal
          exact ih.data (by omega)
        · have hkept : ((c.terminated err).heap r).canRecv = (c.heap r).canRecv ∧
              ((c.terminated err).heap r).recvMax = (c.heap r).recvMax ∧
              ((c.terminated err).heap r).id = (c.heap r).id := by
            simp only [terminated]
            split_ifs <;> exact ⟨rfl, rfl, rfl⟩
          rw [hkept.1, hkept.2.1, hkept.2.2]
          exact ih.stream r hr

end History

end Conn

end Qmux
