import Qmux.Limits.Basic

/-!
What a move declares of a limit. The limits on data and on the number of
streams are raised with their flag and declared by the next flush; a read that
raises the limit of its stream queues the declaration.
-/

namespace Qmux

open Wire

namespace Conn

section Moves

variable [GoAppend] {heard : Parsed → Prop} {t : Traffic} {c c' : Conn}

/-- An act hands out no limit. -/
theorem Act.handed_none {r : Ref} {s : Stream} {frames : List Frame}
    (hact : Act heard c r t s frames c') {g : Frame → Option Nat}
    (hstream : ∀ f, g (.stream f) = none) : t.handed.filterMap g = [] := by
  refine List.filterMap_eq_nil_iff.mpr (fun f hf => ?_)
  by_contra hcase
  refine hact.not_handed (fun f' heq => hcase ?_) hf
  rw [heq, hstream]

variable [Quicvarint]

/-- What a move declares of the limit on data. -/
theorem dataLimit_of_move (hcontrol : ∀ f ∈ c.control, queuedFrame f = true)
    (hraise : c.Raises c' → c.recvMax < c'.recvMax) (hmove : Move heard c t c') :
    c.dataLimit.Step (t.handed.filterMap Frame.maxData?) c'.dataLimit := by
  have hkept {d : Conn} (h : d.dataLimit = c.dataLimit) : c.dataLimit.Step [] d.dataLimit :=
    h.symm ▸ .still
  cases hmove with
  | still htook hhanded hpings hreads hcore =>
      rw [hhanded]
      exact hkept (congrArg dataLimit hcore :)
  | @act r _ s frames d hopen hact =>
      obtain ⟨hlimit, hconsumed⟩ := completeLocked_dataLimit d r
      rw [hact.handed_none (fun _ => rfl), hlimit]
      rcases hact.dataLimit with hsame | hraises
      · exact hkept hsame
      · have hlt := hraise ⟨hconsumed.symm ▸ hraises.low, by
          rw [hlimit, hconsumed]
          exact hraises.whole⟩
        have hdue : d.dataLimit = ⟨(d.completeLocked r).recvMax, true⟩ := by
          rw [← hlimit]
          exact congrArg (Announcer.mk _)
            (hlimit.trans hraises.whole |> congrArg Announcer.due)
        rw [hdue]
        exact .raise hlt
  | accept =>
      unfold acceptNext
      rw [(completeLocked_dataLimit _ _).1]
      exact .still
  | @raiseStreams f =>
      obtain ⟨out, hout⟩ := c.handleMaxStreams_frame f
      rw [hout]
      exact .still
  | @reserve r p n =>
      have hnone : (if n = 0 then [] else
          [Frame.stream ⟨(c.heap r).id, (c.heap r).sendOffset, p.take n, false⟩]).filterMap
            Frame.maxData? = [] := by
        split_ifs <;> rfl
      rw [hnone]
      exact .still
  | flush =>
      rw [controlFrames_maxData hcontrol, flushed_dataLimit]
      exact .settle _
  | _ => exact .still

omit [GoAppend] [Quicvarint] in
private theorem completeLocked_streamsLimit {r : Ref} {dir : Dir}
    (hmax : (c.incoming dir).max + 1 < 2 ^ 64)
    (hsame : c'.streamsLimit dir = c.streamsLimit dir) :
    (c.streamsLimit dir).Step [] ((c'.completeLocked r).streamsLimit dir) := by
  have hmax' : (c'.incoming dir).max = (c.incoming dir).max := congrArg Announcer.value hsame
  rw [← hmax'] at hmax
  rw [← hsame]
  unfold completeLocked
  dsimp only
  split_ifs
  · exact .still
  · exact .still
  · rcases eq_or_ne dir (streamDir (c'.heap r).id) with rfl | hne
    · simp only [streamsLimit, wakeWriter, setIncoming, Function.update_self]
      refine .raise ?_
      rw [Word.add_of_lt hmax]
      exact Nat.lt_succ_self _
    · simp only [streamsLimit, wakeWriter, setIncoming, Function.update_of_ne hne]
      exact .still

/-- What a move declares of a limit on the number of streams. -/
theorem streamsLimit_of_move (hcontrol : ∀ f ∈ c.control, queuedFrame f = true)
    {dir : Dir} (hmax : (c.incoming dir).max + 1 < 2 ^ 64) (hmove : Move heard c t c') :
    (c.streamsLimit dir).Step (t.handed.filterMap (Frame.maxStreams? dir))
      (c'.streamsLimit dir) := by
  have hkept {other : Dir} {i : Incoming} {d : Conn}
      (hd : d.incoming = Function.update c.incoming other i)
      (hsame : (⟨i.max, i.pending⟩ : Announcer) = c.streamsLimit other) :
      d.streamsLimit dir = c.streamsLimit dir := by
    unfold streamsLimit
    rw [hd]
    rcases eq_or_ne dir other with rfl | hne
    · rw [Function.update_self]
      exact hsame
    · rw [Function.update_of_ne hne]
  cases hmove with
  | still htook hhanded hpings hreads hcore =>
      have hsame : c'.streamsLimit dir = c.streamsLimit dir :=
        (congrArg (fun d : Conn => d.streamsLimit dir) hcore :)
      rw [hhanded, hsame]
      exact .still
  | @act r _ s frames d hopen hact =>
      rw [hact.handed_none (fun _ => rfl)]
      obtain ⟨a, -, rfl⟩ := hact.touches
      exact completeLocked_streamsLimit hmax rfl
  | openIncoming =>
      rw [hkept (d := c.openIncoming _) rfl rfl]
      exact .still
  | accept => exact completeLocked_streamsLimit hmax (hkept rfl rfl)
  | @raiseStreams f =>
      obtain ⟨out, hout⟩ := c.handleMaxStreams_frame f
      rw [hout]
      exact .still
  | @reserve r p n =>
      have hnone : (if n = 0 then [] else
          [Frame.stream ⟨(c.heap r).id, (c.heap r).sendOffset, p.take n, false⟩]).filterMap
            (Frame.maxStreams? dir) = [] := by
        split_ifs <;> rfl
      rw [hnone]
      exact .still
  | flush =>
      rw [controlFrames_maxStreams hcontrol, flushed_streamsLimit]
      exact .settle _
  | _ => exact .still

/-- What a move declares of the limit of a stream. -/
theorem streamLimit_of_move (hordered : c.Ordered)
    (hsound : ∀ r < c.count, (c.heap r).Sound c.config.streamWindow)
    (hwindow : c.config.streamWindow ≤ maxVarint) (hmove : Move heard c t c') {r : Ref}
    (hr : r < c.count) :
    ∃ more, (t.handed ++ c'.control).filterMap (Frame.maxStreamData? (c.heap r).id) =
        c.control.filterMap (Frame.maxStreamData? (c.heap r).id) ++ more ∧
      ((more = [] ∧ (c'.heap r).recvMax = (c.heap r).recvMax) ∨
        (more = [(c'.heap r).recvMax] ∧ (c.heap r).recvMax < (c'.heap r).recvMax)) := by
  have hkept (hlog : t.handed.filterMap (Frame.maxStreamData? (c.heap r).id) = [])
      (hcontrol : c'.control = c.control) (hmax : (c'.heap r).recvMax = (c.heap r).recvMax) :
      ∃ more, (t.handed ++ c'.control).filterMap (Frame.maxStreamData? (c.heap r).id) =
          c.control.filterMap (Frame.maxStreamData? (c.heap r).id) ++ more ∧
        ((more = [] ∧ (c'.heap r).recvMax = (c.heap r).recvMax) ∨
          (more = [(c'.heap r).recvMax] ∧ (c.heap r).recvMax < (c'.heap r).recvMax)) := by
    refine ⟨[], ?_, Or.inl ⟨rfl, hmax⟩⟩
    rw [List.filterMap_append, hlog, hcontrol, List.nil_append, List.append_nil]
  have hset (i : Ref) (s : Stream) (hs : s.recvMax = (c.heap i).recvMax) :
      (Function.update c.heap i s r).recvMax = (c.heap r).recvMax :=
    congrFun (Heap.map_update_of_eq Stream.recvMax c.heap i s hs) r
  have hnew (s : Stream) : (Function.update c.heap c.count s r).recvMax = (c.heap r).recvMax := by
    rw [Function.update_of_ne (Nat.ne_of_lt hr)]
  cases hmove with
  | still htook hhanded hpings hreads hcore =>
      have hstream : (c'.heap r).core = (c.heap r).core := congrFun (congrArg heap hcore) r
      exact hkept (by rw [hhanded]; rfl) (congrArg Conn.control hcore :)
        (congrArg Stream.recvMax hstream :)
  | @act i _ s frames d hopen hact =>
      have hi := (hordered.of_act (fun r hr => (hsound r hr).tidy) hopen hact).1
      rw [List.filterMap_append, hact.handed_none (fun _ => rfl), hact.touches.control,
        List.filterMap_append, List.nil_append, hact.touches.stream Stream.recvMax (fun _ => rfl)]
      refine ⟨_, rfl, ?_⟩
      rcases eq_or_ne r i with rfl | hne
      · rw [Function.update_self]
        cases hact with
        | data => exact Or.inl ⟨rfl, (Stream.takeData_fields _ _).2.2.2.1⟩
        | @read n hholds herr hunread hn =>
            rcases (hsound r hr).copyOut_limit hwindow herr hunread hn with
              ⟨hnone, hsame⟩ | ⟨hone, hlt⟩
            · rw [hnone]
              exact Or.inl ⟨rfl, hsame⟩
            · rw [hone]
              exact Or.inr ⟨by simp [Frame.maxStreamData?], hlt⟩
        | cancel =>
            refine Or.inl ⟨?_, rfl⟩
            split_ifs <;> rfl
        | _ => exact Or.inl ⟨rfl, rfl⟩
      · rw [Function.update_of_ne hne]
        refine Or.inl ⟨List.filterMap_eq_nil_iff.mpr (fun f hf => ?_), rfl⟩
        -- Only a read queues a limit, and it is that of its own stream.
        have hother : (c.heap i).id ≠ (c.heap r).id :=
          fun heq => hne (hordered.sound.named.unique r hr i hi heq.symm)
        cases hact with
        | @read n =>
            rcases (c.heap i).copyOut_grant n c.config.streamWindow with ⟨hnone, -⟩ | ⟨hone, -⟩
            · simp [hnone] at hf
            · rw [hone, List.mem_singleton] at hf
              rw [hf]
              exact if_neg hother
        | cancel =>
            split_ifs at hf
            · cases hf
            · rw [List.mem_singleton.mp hf]
              rfl
        | resetSend =>
            rw [List.mem_singleton.mp hf]
            rfl
        | _ => cases hf
  | openIncoming => exact hkept rfl rfl (hnew _)
  | openLocal => exact hkept rfl rfl (hnew _)
  | @accept dir i rest =>
      refine hkept rfl (completeLocked_control _ _) ?_
      unfold acceptNext
      rw [completeLocked_stream Stream.recvMax (fun _ => rfl)]
      exact hset _ _ rfl
  | raiseStream => exact hkept rfl rfl (hset _ _ rfl)
  | @raiseStreams f =>
      obtain ⟨out, hout⟩ := c.handleMaxStreams_frame f
      rw [hout] at hkept ⊢
      exact hkept rfl rfl rfl
  | @reserve i p n =>
      refine hkept ?_ rfl (hset i _ rfl)
      dsimp only
      split_ifs <;> rfl
  | @flush now =>
      obtain ⟨_, _, _, _, hflush⟩ := c.flushed_frame now
      rw [hflush]
      refine ⟨[], ?_, Or.inl ⟨rfl, rfl⟩⟩
      rw [List.append_nil, List.append_nil, controlFrames_maxStreamData]
  | _ => exact hkept rfl rfl rfl

end Moves

end Conn

end Qmux
