import Qmux.Limits.Told

/-!
How many frames a stream can queue between two flushes. There are at most three:
a RESET_STREAM, a STOP_SENDING and a MAX_STREAM_DATA. A second MAX_STREAM_DATA
takes data beyond what the peer was told it may send, and a peer that keeps to
what it was told does not send that.
-/

namespace Qmux

open Wire

/-- How many streams of the direction kind the peer was told it may open. -/
def Config.toldStreams (config : Config) (handed : List Frame) (dir : Dir) : Nat :=
  (handed.filterMap (Frame.maxStreams? dir)).getLastD (config.incomingLimit dir)

/-- How much the peer was told it may send on the stream. -/
def Config.toldStreamData (config : Config) (handed : List Frame) (id : Nat) : Nat :=
  (handed.filterMap (Frame.maxStreamData? id)).getLastD config.streamWindow

/-- The frame keeps to what the peer was told: it is not about a stream that the
peer may not open yet, and has no data that the peer may not send yet. -/
def Wire.Parsed.keepsTo (config : Config) (isServer : Bool) (handed : List Frame)
    (f : Parsed) : Bool :=
  (match f.stream? with
    | some id => initiatedLocally isServer id ||
        decide (id >>> 2 < config.toldStreams handed (streamDir id))
    | none => true) &&
  (match f with
    | .frame (.stream f) =>
        decide (f.offset + f.data.length ≤ config.toldStreamData handed f.streamID)
    | _ => true)

section Keeping

variable {config : Config} {isServer : Bool} {handed : List Frame}

theorem Wire.Parsed.keepsTo_stream {f : Parsed} {id : Nat}
    (h : f.keepsTo config isServer handed = true) (hid : f.stream? = some id)
    (hpeer : initiatedLocally isServer id = false) :
    id >>> 2 < config.toldStreams handed (streamDir id) := by
  have hfirst := (Bool.and_eq_true_iff.mp h).1
  rw [hid] at hfirst
  simpa [hpeer] using hfirst

theorem Wire.Parsed.keepsTo_data {f : Wire.Stream}
    (h : (Parsed.frame (.stream f)).keepsTo config isServer handed = true) :
    f.offset + f.data.length ≤ config.toldStreamData handed f.streamID :=
  of_decide_eq_true (Bool.and_eq_true_iff.mp h).2

end Keeping

namespace Stream

/-- How many frames the stream can queue until the next flush, if the peer was
told that it may send up to `told` on it. -/
def allowance (told : Nat) (s : Stream) : Nat :=
  if s.done then 0
  else (!s.sendDone).toNat + (s.canRecv && s.recvErr.isNone).toNat +
    (s.canRecv && s.recvMax == told).toNat

/-- The peer has sent what it was told it may send, and was told the stream's
limit, or the limit was moved on once since. -/
structure Funded (window told : Nat) (s : Stream) : Prop where
  within : s.canRecv = true → s.recvErr = none → s.recvOffset ≤ told
  ahead : s.canRecv = true → s.recvMax = told ∨ told + window < s.recvMax + window / 2

variable {s : Stream} {told window n : Nat}

theorem allowance_le (s : Stream) (told : Nat) : s.allowance told ≤ if s.done then 0 else 3 := by
  unfold allowance
  split_ifs
  · exact Nat.le_refl 0
  · have hsend := Bool.toNat_le (!s.sendDone)
    have herr := Bool.toNat_le (s.canRecv && s.recvErr.isNone)
    have hmax := Bool.toNat_le (s.canRecv && s.recvMax == told)
    omega

/-- The parts of the allowance of a stream that is not over. -/
private theorem allowance_spent {s' : Stream} {k : Nat} (hdone : s.done = false)
    (hdone' : s'.done = false)
    (hle : k + ((!s'.sendDone).toNat + (s'.canRecv && s'.recvErr.isNone).toNat +
        (s'.canRecv && s'.recvMax == told).toNat) ≤
      (!s.sendDone).toNat + (s.canRecv && s.recvErr.isNone).toNat +
        (s.canRecv && s.recvMax == told).toNat) :
    k + s'.allowance told ≤ s.allowance told := by
  unfold allowance
  rw [hdone, hdone']
  exact hle

theorem takeReset_allowance (hdone : s.done = false) (f : ResetStream) (told : Nat) :
    0 + (s.takeReset f).allowance told ≤ s.allowance told := by
  have herr : (s.takeReset f).recvErr.isNone = false := by
    unfold takeReset
    cases s.recvErr <;> rfl
  refine allowance_spent hdone hdone ?_
  rw [herr, Bool.and_false]
  change 0 + ((!s.sendDone).toNat + 0 + (s.canRecv && s.recvMax == told).toNat) ≤ _
  omega

theorem resetSend_allowance (hdone : s.done = false) (hsend : s.sendDone = false)
    (reason : StreamError) (told : Nat) :
    1 + (s.resetSend reason).allowance told ≤ s.allowance told := by
  have hsent : (s.resetSend reason).sendDone = true := Bool.or_true _
  refine allowance_spent hdone hdone ?_
  rw [hsent, hsend]
  change 1 + (0 + (s.canRecv && s.recvErr.isNone).toNat +
    (s.canRecv && s.recvMax == told).toNat) ≤ 1 + _ + _
  omega

theorem cancelRead_allowance (hdone : s.done = false) (hcan : s.canRecv = true)
    (herr : s.recvErr = none) (code told : Nat) :
    1 + (s.cancelRead code).allowance told ≤ s.allowance told := by
  refine allowance_spent hdone hdone ?_
  rw [hcan, herr]
  change 1 + ((!s.sendDone).toNat + (s.canRecv && false).toNat +
    (s.canRecv && s.recvMax == told).toNat) ≤ (!s.sendDone).toNat + 1 + _
  rw [hcan, Bool.and_false, Bool.toNat_false]
  omega

theorem endSend_allowance (hdone : s.done = false) (told : Nat) :
    0 + s.endSend.allowance told ≤ s.allowance told := by
  have hsent : s.endSend.sendDone = true := by simp [endSend, sendDone]
  refine allowance_spent hdone hdone ?_
  rw [hsent]
  change 0 + (0 + (s.canRecv && s.recvErr.isNone).toNat +
    (s.canRecv && s.recvMax == told).toNat) ≤ _
  omega

theorem takeData_allowance [GoAppend] (s : Stream) (f : Wire.Stream) (told : Nat) :
    (s.takeData f).allowance told = s.allowance told := by
  unfold takeData bufferLocked
  dsimp only
  split_ifs <;> rfl

theorem Funded.takeData [GoAppend] (h : s.Funded window told) {f : Wire.Stream}
    (hle : Word.add s.recvOffset f.data.length ≤ told) : (s.takeData f).Funded window told := by
  obtain ⟨hoffset, -, -, hmax, hcan, -⟩ := takeData_fields s f
  refine ⟨fun _ _ => hoffset ▸ hle, ?_⟩
  rw [hcan, hmax]
  exact h.ahead

/-- A read keeps everything that counts, but the limit of its stream. -/
private theorem copyOut_told (s : Stream) (n window told : Nat) :
    (s.copyOut n window).recvErr = s.recvErr ∧ (s.copyOut n window).allowance told =
      allowance told { s with recvMax := (s.copyOut n window).recvMax } := by
  unfold copyOut advance
  dsimp only
  split_ifs <;> exact ⟨rfl, rfl⟩

/-- A limit is moved on once until the peer is told: a read that moves it on again
has data that the peer was not told it may send. -/
theorem Funded.copyOut (h : s.Funded window told) (hsound : s.Sound window)
    (hwindow : window ≤ maxVarint) (hdone : s.done = false) (herr : s.recvErr = none)
    (hunread : s.roff < s.rbuf.data.length) (hn : s.roff + n ≤ s.rbuf.data.length) :
    (s.copyOut n window).Funded window told ∧
      (s.copyOutGrant n window).length + (s.copyOut n window).allowance told ≤
        s.allowance told := by
  obtain ⟨hcan, hread⟩ := hsound.credited.readable hsound.tidy herr hunread hn
  have hwithin := h.within hcan herr
  have hahead := h.ahead hcan
  have hsmall := hsound.credited.small
  have hle := hsound.credited.recv_le
  have hmax := hsound.credited.max_le
  have hvarint : maxVarint = 2 ^ 62 - 1 := rfl
  have hadd : Word.add s.readOffset n = s.readOffset + n := Word.add_of_lt (by omega)
  obtain ⟨hoffset, -, -, -, hcan', -⟩ := s.copyOut_keeps_recv window n
  rw [(s.copyOut_told n window told).2]
  rcases s.copyOut_grant n window with ⟨hnone, hsame⟩ | ⟨hone, hlow, hwhole⟩
  · rw [hsame, hnone]
    exact ⟨⟨fun _ _ => hoffset ▸ hwithin, fun _ => hsame ▸ hahead⟩, (Nat.zero_add _).le⟩
  · rw [hadd, Word.sub_of_le (by omega) (by omega)] at hlow
    rw [hadd, Word.add_of_lt (by omega)] at hwhole
    have htold : s.recvMax = told := by omega
    have hne : (s.readOffset + n + window == told) = false := by
      rw [beq_eq_false_iff_ne]
      omega
    refine ⟨⟨fun _ _ => hoffset ▸ hwithin, fun _ => Or.inr (by omega)⟩, ?_⟩
    rw [hwhole, hone]
    refine allowance_spent hdone hdone ?_
    change 1 + ((!s.sendDone).toNat + (s.canRecv && s.recvErr.isNone).toNat +
      (s.canRecv && s.readOffset + n + window == told).toNat) ≤ _
    rw [hne, htold, hcan, beq_self_eq_true]
    change 1 + (_ + 0) ≤ _ + 1
    omega

end Stream

end Qmux
