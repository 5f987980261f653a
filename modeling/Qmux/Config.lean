import Qmux.Wire.Basic

/-!
The configuration of a connection and its normal form: every default filled
in, every limit within what the protocol allows.
-/

namespace Qmux

open Wire

/-- A `time.Duration`: a signed 64-bit number of nanoseconds. -/
abbrev Duration := Int64

def millisecond : Nat := 1000000
def second : Nat := 1000000000

/-- `Config`. A zero field takes its default. -/
structure Config where
  maxIncomingStreams : Int64 := 0
  maxIncomingUniStreams : Int64 := 0
  initialStreamReceiveWindow : UInt64 := 0
  initialConnectionReceiveWindow : UInt64 := 0
  maxRecordSize : UInt64 := 0
  keepAlivePeriod : Duration := 0
  handshakeIdleTimeout : Duration := 0
  maxIdleTimeout : Duration := 0
  enableDatagrams : Bool := false
  maxDatagramFrameSize : UInt64 := 0

def defaultMaxIncomingStreams : Int64 := 100
def defaultMaxIncomingUniStreams : Int64 := 100
def defaultStreamReceiveWindow : UInt64 := 512 * 1024
def defaultConnectionReceiveWindow : UInt64 := 1024 * 1024
def defaultMaxIdleTimeout : Duration := 30000000000
def defaultHandshakeIdleTimeout : Duration := 5000000000
def defaultMaxDatagramFrameSize : UInt64 := 1200

def streamLimit (v default : Int64) : Int64 :=
  if v = 0 then default
  else if v < 0 then 0
  else min v (Int64.ofNat (2 ^ 60))

/-- `Config.normalized` of the pointer `c`, which may be nil. -/
def Config.normalized (c : Option Config) : Config :=
  let n := c.getD {}
  let maxRecordSize :=
    min (max n.maxRecordSize (UInt64.ofNat defaultMaxRecordSize)) (UInt64.ofNat maxVarint)
  let maxIdleTimeout :=
    max (if n.maxIdleTimeout = 0 then defaultMaxIdleTimeout else n.maxIdleTimeout) 0
  { maxIncomingStreams := streamLimit n.maxIncomingStreams defaultMaxIncomingStreams
    maxIncomingUniStreams :=
      streamLimit n.maxIncomingUniStreams defaultMaxIncomingUniStreams
    initialStreamReceiveWindow :=
      min (if n.initialStreamReceiveWindow = 0 then defaultStreamReceiveWindow
        else n.initialStreamReceiveWindow) (UInt64.ofNat maxVarint)
    initialConnectionReceiveWindow :=
      min (if n.initialConnectionReceiveWindow = 0 then defaultConnectionReceiveWindow
        else n.initialConnectionReceiveWindow) (UInt64.ofNat maxVarint)
    maxRecordSize := maxRecordSize
    keepAlivePeriod :=
      if n.keepAlivePeriod > 0 ∧ maxIdleTimeout > 0 then
        min n.keepAlivePeriod (maxIdleTimeout / 2)
      else n.keepAlivePeriod
    handshakeIdleTimeout :=
      if n.handshakeIdleTimeout ≤ 0 then defaultHandshakeIdleTimeout
      else n.handshakeIdleTimeout
    maxIdleTimeout := maxIdleTimeout
    enableDatagrams := n.enableDatagrams
    maxDatagramFrameSize :=
      min (if !n.enableDatagrams then 0
        else if n.maxDatagramFrameSize = 0 then defaultMaxDatagramFrameSize
        else n.maxDatagramFrameSize) maxRecordSize }

/-- What the rest of the connection relies on of a normalized configuration. -/
structure Config.Valid (c : Config) : Prop where
  streamWindow_pos : 1 ≤ c.initialStreamReceiveWindow.toNat
  streamWindow_le : c.initialStreamReceiveWindow.toNat ≤ maxVarint
  connectionWindow_pos : 1 ≤ c.initialConnectionReceiveWindow.toNat
  connectionWindow_le : c.initialConnectionReceiveWindow.toNat ≤ maxVarint
  recordSize_ge : defaultMaxRecordSize ≤ c.maxRecordSize.toNat
  recordSize_le : c.maxRecordSize.toNat ≤ maxVarint
  datagramSize_le : c.maxDatagramFrameSize.toNat ≤ c.maxRecordSize.toNat
  incoming_le : c.maxIncomingStreams.toUInt64.toNat ≤ maxStreams
  incomingUni_le : c.maxIncomingUniStreams.toUInt64.toNat ≤ maxStreams
  idleTimeout_nonneg : 0 ≤ c.maxIdleTimeout.toInt

private theorem toNat_maxVarint : (UInt64.ofNat maxVarint).toNat = maxVarint := by
  decide

private theorem clamp_window (w default : UInt64) (hdefault : 1 ≤ default.toNat) :
    1 ≤ (min (if w = 0 then default else w) (UInt64.ofNat maxVarint)).toNat ∧
      (min (if w = 0 then default else w) (UInt64.ofNat maxVarint)).toNat ≤ maxVarint := by
  rw [UInt64.toNat_min, toNat_maxVarint]
  refine ⟨Nat.le_min.mpr ⟨?_, by decide⟩, Nat.min_le_right _ _⟩
  split_ifs with hzero
  · exact hdefault
  · have hne : w.toNat ≠ 0 := by
      intro h
      exact hzero (UInt64.toNat_inj.mp h)
    omega

private theorem toInt_max (a b : Int64) : (max a b).toInt = max a.toInt b.toInt := by
  change (if a ≤ b then b else a).toInt = _
  split_ifs with h
  · exact (max_eq_right (Int64.le_iff_toInt_le.mp h)).symm
  · have hlt : ¬ a.toInt ≤ b.toInt := fun hle => h (Int64.le_iff_toInt_le.mpr hle)
    exact (max_eq_left (by omega)).symm

theorem streamLimit_le (v default : Int64) (hdefault : default.toUInt64.toNat ≤ maxStreams) :
    (streamLimit v default).toUInt64.toNat ≤ maxStreams := by
  unfold streamLimit
  split_ifs with hzero hneg
  · exact hdefault
  · decide
  · change (if v ≤ Int64.ofNat (2 ^ 60) then v else Int64.ofNat (2 ^ 60)).toUInt64.toNat ≤
      maxStreams
    have hnonneg : 0 ≤ v := Int64.not_lt.mp hneg
    split_ifs with hle
    · have hword := UInt64.le_iff_toNat_le.mp (Int64.toUInt64_le hnonneg hle)
      exact hword.trans (by decide)
    · decide

/-- Every normalized configuration, of whatever field values, is valid. -/
theorem Config.normalized_valid (c : Option Config) : (Config.normalized c).Valid where
  streamWindow_pos := (clamp_window _ _ (by decide)).1
  streamWindow_le := (clamp_window _ _ (by decide)).2
  connectionWindow_pos := (clamp_window _ _ (by decide)).1
  connectionWindow_le := (clamp_window _ _ (by decide)).2
  recordSize_ge := by
    simp only [Config.normalized, UInt64.toNat_min, UInt64.toNat_max, toNat_maxVarint]
    have hdefault : (UInt64.ofNat defaultMaxRecordSize).toNat = defaultMaxRecordSize := by
      decide
    rw [hdefault]
    exact Nat.le_min.mpr ⟨Nat.le_max_right _ _, by decide⟩
  recordSize_le := by
    simp only [Config.normalized, UInt64.toNat_min, toNat_maxVarint]
    exact Nat.min_le_right _ _
  datagramSize_le := by
    simp only [Config.normalized]
    rw [UInt64.toNat_min]
    exact Nat.min_le_right _ _
  incoming_le := streamLimit_le _ _ (by decide)
  incomingUni_le := streamLimit_le _ _ (by decide)
  idleTimeout_nonneg := by
    simp only [Config.normalized, toInt_max]
    exact le_max_right _ _

end Qmux
