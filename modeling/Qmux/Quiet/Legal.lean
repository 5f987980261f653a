import Qmux.Agreement
import Qmux.Quiet.Heeded

/-!
Records that were read to their end. An endpoint that is connected and reads on has
parsed every record that it has read, to its end; so the limits on streams in these
records are such that a MAX_STREAMS frame can declare them.
-/

namespace Qmux

open Wire

section Records

variable [Quicvarint]

/-- A record that parses to its end has no limit on streams that the parser refuses. -/
theorem appendAll_legal {frames : List Frame} {b : Bytes} {fs : List Parsed}
    (h : appendAll frames = some b)
    (hframes : ∀ f ∈ frames, f.Acceptable ∨ ∃ m, f = .maxStreams m) (hparses : Parses b fs)
    {m : MaxStreams} (hm : .maxStreams m ∈ frames) : m.max ≤ maxStreams := by
  induction frames generalizing b fs with
  | nil => cases hm
  | cons f frames ih =>
      simp only [appendAll, Option.bind_eq_bind, Option.bind_eq_some_iff, Option.pure_def,
        Option.some.injEq] at h
      obtain ⟨e, he, more, hmore, rfl⟩ := h
      have hacceptable : f.Acceptable := by
        rcases hframes f List.mem_cons_self with hf | ⟨m, rfl⟩
        · exact hf
        · by_contra hlarge
          have hparse := parse_maxStreams he more
          rw [if_neg (show ¬ m.max ≤ maxStreams from hlarge)] at hparse
          cases hparses with
          | nil hend => cases hparse.symm.trans hend
          | cons hfirst => cases hparse.symm.trans hfirst
      rcases List.mem_cons.mp hm with rfl | hm
      · exact hacceptable
      · have hparse := parse_append he hacceptable more
        cases hparses with
        | nil hend => cases hparse.symm.trans hend
        | cons hfirst hrest =>
            cases hparse.symm.trans hfirst
            exact ih hmore (fun g hg => hframes g (List.mem_cons_of_mem _ hg)) hrest hm

variable [GoAppend]

/-- The loop of `handleRecord` ends without an error, on an open connection, only at the
end of the record. -/
private theorem handleFrames_parses {fuel : Nat} {c c' : Conn} {rec : Bytes} {now : Time}
    (hresult : Conn.handleFrames fuel c rec now = (c', none)) (hopen : c'.closeErr = none)
    (hfuel : rec.length ≤ fuel) : ∃ fs, Parses rec fs := by
  induction fuel generalizing c rec with
  | zero =>
      obtain rfl := List.length_eq_zero_iff.mp (Nat.le_zero.mp hfuel)
      exact ⟨[], .nil (parse_zeros 0)⟩
  | succ fuel ih =>
      unfold Conn.handleFrames at hresult
      split_ifs at hresult with hdone
      · obtain ⟨rfl, -⟩ := Prod.mk.inj hresult
        rcases hdone with rfl | hclosed
        · exact ⟨[], .nil (parse_zeros 0)⟩
        · rw [hopen] at hclosed
          cases hclosed
      · split at hresult
        · cases hresult
        · rename_i hend
          exact ⟨[], .nil hend⟩
        · rename_i f rest hparse
          split at hresult
          · cases hresult
          · have hshort := (parse_bounded hparse).2
            obtain ⟨fs, hfs⟩ := ih hresult (by omega)
            exact ⟨f :: fs, .cons hparse hfs⟩

end Records

namespace Endpoint

variable [Quicvarint] [GoAppend] {e : Endpoint}

/-- The read loop reads on after a record only if it has parsed it to its end. -/
private theorem receive_parses {rec : Bytes} {now : Time}
    (hopen : (e.receive rec now).conn.closeErr = none)
    (hreading : (e.receive rec now).reader = .reading) : ∃ fs, Parses rec fs := by
  unfold receive at hopen hreading
  dsimp only at hopen hreading
  split_ifs at hopen hreading
  rcases hrecord : e.conn.handleRecord rec now with ⟨c, _ | err | err⟩
  · rw [hrecord] at hopen
    exact handleFrames_parses hrecord hopen (Nat.le_refl _)
  · rw [hrecord] at hreading
    cases hreading
  · rw [hrecord] at hreading
    cases hreading

end Endpoint

namespace System

variable [Quicvarint] [GoAppend] {config : Bool → Config} {σ : System}

/-- A side that is connected and reads on has parsed all records that it has read. -/
theorem parses_read (hvalid : ∀ s, (config s).Valid) {events : List Event}
    (hrun : Machine.run step (new config) events = some σ) (s : Bool)
    (hopen : (σ.ends s).conn.closeErr = none) (hreading : (σ.ends s).reader = .reading) :
    ∀ record ∈ (σ.ends (!s)).wire.take (σ.read s), ∃ fs, Parses record.bytes fs := by
  induction events using List.reverseRecOn generalizing σ s with
  | nil =>
      obtain rfl := Option.some.inj hrun
      simp [new]
  | append_singleton events ev ih =>
      obtain ⟨mid, hmid, hstep⟩ := Machine.run_snoc hrun
      obtain ⟨log, hwatch⟩ := Machine.exists_watch readsBy [] hmid
      obtain ⟨i, a, hmoved⟩ := moved hstep
      rcases Bool.eq_or_eq_not s i with rfl | rfl
      · obtain ⟨_, hfollows⟩ := follows hwatch s
        obtain ⟨t, ⟨_, _, htraced⟩, -⟩ := hfollows.traced hvalid
        obtain ⟨more, hnext, -⟩ := htraced.restart.step (hvalid s).recordSize_le hmoved.step
        have hprior := ih hmid s (hnext.past.since.open_before hopen)
          (Endpoint.reading_before hmoved.step hopen hreading)
        rw [hmoved.other, hmoved.read]
        cases a with
        | record rec now =>
            obtain ⟨record, hrecord, rfl⟩ := hmoved.record rec now rfl
            obtain ⟨-, hreceive⟩ := Option.ite_none_right_eq_some.mp hmoved.step
            rw [← Option.some.inj hreceive] at hopen hreading
            intro x hx
            rw [Action.isRecord, if_pos rfl, List.take_add_one, hrecord] at hx
            rcases List.mem_append.mp hx with hx | hx
            · exact hprior x hx
            · rw [List.mem_singleton.mp hx]
              exact Endpoint.receive_parses hopen hreading
        | _ => exact hprior
      · obtain ⟨_, hfollows⟩ := follows hwatch (!i)
        have hwithin := hfollows.within
        have hwire := List.prefix_iff_eq_take.mp (Endpoint.step_wire hmoved.step)
        rw [hmoved.other] at hopen hreading
        have hprior := ih hmid (!i) hopen hreading
        rw [Bool.not_not] at hwithin hprior ⊢
        rw [hwire, List.take_take, Nat.min_eq_left hwithin] at hprior
        rw [hmoved.read_other]
        exact hprior

end System

end Qmux
