import Qmux.Lib.Announcer
import Qmux.Promises

/-!
The limits a connection declares, each as an announcer. The limits on data and
on the number of streams are due while their flag is set, and a flush declares
what is due; the limit of a stream goes through the control queue at once.
-/

namespace Qmux

open Wire

namespace Wire.Frame

/-- The limit on data that the frame declares. -/
def maxData? : Frame → Option Nat
  | .maxData f => some f.max
  | _ => none

/-- The limit on the number of streams of one direction kind that the frame
declares. -/
def maxStreams? (dir : Dir) : Frame → Option Nat
  | .maxStreams f => if f.uni = decide (dir = .uni) then some f.max else none
  | _ => none

/-- The limit on the data of one stream that the frame declares. -/
def maxStreamData? (id : Nat) : Frame → Option Nat
  | .maxStreamData f => if f.streamID = id then some f.max else none
  | _ => none

theorem mem_maxData? {frames : List Frame} {max : Nat}
    (h : max ∈ frames.filterMap maxData?) : .maxData ⟨max⟩ ∈ frames := by
  obtain ⟨f, hf, hmax⟩ := List.mem_filterMap.mp h
  cases f with
  | maxData f =>
      obtain rfl : f.max = max := Option.some.inj hmax
      exact hf
  | _ => cases hmax

theorem mem_maxStreamData? {frames : List Frame} {id max : Nat}
    (h : max ∈ frames.filterMap (maxStreamData? id)) : .maxStreamData ⟨id, max⟩ ∈ frames := by
  obtain ⟨f, hf, hmax⟩ := List.mem_filterMap.mp h
  cases f with
  | maxStreamData f =>
      change (if f.streamID = id then some f.max else none) = some max at hmax
      obtain ⟨rfl, hsome⟩ := Option.ite_none_right_eq_some.mp hmax
      obtain rfl : f.max = max := Option.some.inj hsome
      exact hf
  | _ => cases hmax

end Wire.Frame

/-- A limit with less than half a window left is moved on. -/
theorem limit_lt {limit consumed size : Nat} (hlow : Word.sub limit consumed < size / 2)
    (hlimit : limit < 2 ^ 64) (hsize : consumed + size < 2 ^ 64) :
    limit < Word.add consumed size := by
  rw [Word.add_of_lt hsize]
  rcases Nat.lt_or_ge limit consumed with hlt | hle
  · omega
  · rw [Word.sub_of_le hle hlimit] at hlow
    omega

/-- A read leaves the stream's limit, or moves it on and declares it. -/
theorem Stream.Sound.copyOut_limit {s : Stream} {size n : Nat} (h : s.Sound size)
    (hsize : size ≤ maxVarint) (herr : s.recvErr = none)
    (hunread : s.roff < s.rbuf.data.length) (hn : s.roff + n ≤ s.rbuf.data.length) :
    (s.copyOutGrant n size = [] ∧ (s.copyOut n size).recvMax = s.recvMax) ∨
      (s.copyOutGrant n size = [.maxStreamData ⟨s.id, (s.copyOut n size).recvMax⟩] ∧
        s.recvMax < (s.copyOut n size).recvMax) := by
  have hread := (h.credited.readable h.tidy herr hunread hn).2
  have hsmall := h.credited.small
  have hmax := h.credited.max_le
  have hvarint : maxVarint = 2 ^ 62 - 1 := rfl
  refine (s.copyOut_grant n size).imp_right (fun ⟨hone, hlow, hwhole⟩ => ⟨hone, ?_⟩)
  have hadd : Word.add s.readOffset n = s.readOffset + n := Word.add_of_lt (by omega)
  rw [hadd] at hlow hwhole
  rw [hwhole]
  exact limit_lt hlow (by omega) (by omega)

namespace Conn

/-- The limit on the data of all streams. -/
def dataLimit (c : Conn) : Announcer :=
  ⟨c.recvMax, c.maxDataPending⟩

/-- The limit on the number of streams the peer opens. -/
def streamsLimit (c : Conn) (dir : Dir) : Announcer :=
  ⟨(c.incoming dir).max, (c.incoming dir).pending⟩

/-- The limit on data moved on to a whole window beyond what was consumed. -/
structure Raises (c c' : Conn) : Prop where
  low : Word.sub c.recvMax c'.consumed < c.config.connectionWindow / 2
  whole : c'.dataLimit = ⟨Word.add c'.consumed c.config.connectionWindow, true⟩

section Data

variable {c c' : Conn}

private theorem consumeLocked_dataLimit (c : Conn) (n : Nat) :
    (c.consumeLocked n).dataLimit = c.dataLimit ∨ c.Raises (c.consumeLocked n) := by
  unfold consumeLocked
  dsimp only
  split_ifs with hlow
  · exact Or.inr ⟨hlow, rfl⟩
  · exact Or.inl rfl

theorem completeLocked_dataLimit (c : Conn) (r : Ref) :
    (c.completeLocked r).dataLimit = c.dataLimit ∧
      (c.completeLocked r).consumed = c.consumed :=
  ⟨completeLocked_view dataLimit (fun _ _ _ _ _ => rfl) c r,
    completeLocked_view consumed (fun _ _ _ _ _ => rfl) c r⟩

theorem Act.dataLimit [GoAppend] {heard : Parsed → Prop} {r : Ref} {t : Traffic} {s : Stream}
    {frames : List Frame} (hact : Act heard c r t s frames c') :
    c'.dataLimit = c.dataLimit ∨ c.Raises c' := by
  -- All that counts of the connection consumed from is its window.
  have hconsume {d : Conn} (n : Nat) (hsame : d.dataLimit = c.dataLimit)
      (hconfig : d.config = c.config) :
      (d.consumeLocked n).dataLimit = c.dataLimit ∨ c.Raises (d.consumeLocked n) := by
    rcases consumeLocked_dataLimit d n with hkept | hraises
    · exact Or.inl (hkept.trans hsame)
    · have hmax : d.recvMax = c.recvMax := congrArg Announcer.value hsame
      exact Or.inr ⟨hmax ▸ hconfig ▸ hraises.low, hconfig ▸ hraises.whole⟩
  cases hact with
  | data =>
      unfold takeData
      dsimp only
      split_ifs
      · exact hconsume _ rfl rfl
      · exact Or.inl rfl
  | @reset f =>
      rcases hconsume (d := { c with
          received := Word.add c.received (Word.sub f.finalSize (c.heap r).recvOffset) })
        (Word.add (Word.sub f.finalSize (c.heap r).recvOffset)
          ((c.heap r).rbuf.data.length - (c.heap r).roff)) rfl rfl with hkept | hraises
      · exact Or.inl hkept
      · exact Or.inr ⟨hraises.low, hraises.whole⟩
  | resetSend => exact Or.inl rfl
  | @read n =>
      have hread := hconsume (d := (c.setStream r ((c.heap r).advance n)).setStream r
        { (c.setStream r ((c.heap r).advance n)).heap r with
          readOffset := Word.add ((c.setStream r ((c.heap r).advance n)).heap r).readOffset n })
        n rfl rfl
      unfold readLocked
      dsimp only
      split_ifs
      · exact hread.imp id (fun h => ⟨h.low, h.whole⟩)
      · exact hread
  | cancel =>
      have hcancel := hconsume ((c.heap r).rbuf.data.length - (c.heap r).roff) rfl rfl
      split_ifs <;> exact hcancel.imp id (fun h => ⟨h.low, h.whole⟩)
  | finish => exact Or.inl rfl

end Data

section Flush

variable {c : Conn}

/-- The limits among the frames of a flush, apart from those of streams. -/
private theorem controlFrames_limits (hcontrol : ∀ f ∈ c.control, queuedFrame f = true)
    {g : Frame → Option Nat} (hqueued : ∀ f, queuedFrame f = true → g f = none)
    (hping : ∀ f, g (.ping f) = none) : c.controlFrames.filterMap g =
      (if c.maxDataPending then [.maxData ⟨c.recvMax⟩] else []).filterMap g ++
        (c.streamsFrame .bidi ++ c.streamsFrame .uni).filterMap g := by
  have hnone : c.control.filterMap g = [] :=
    List.filterMap_eq_nil_iff.mpr (fun f hf => hqueued f (hcontrol f hf))
  have hpings (p : Bool) (f : Ping) :
      (if p then [Frame.ping f] else []).filterMap g = [] := by
    split_ifs
    · simp [hping]
    · rfl
  unfold controlFrames
  simp only [List.filterMap_append, hnone, hpings, List.nil_append, List.append_nil,
    List.append_assoc]

theorem flushed_dataLimit (c : Conn) (now : Time) :
    (c.flushed now).dataLimit = { c.dataLimit with due := false } := by
  obtain ⟨_, _, _, _, hflush⟩ := c.flushed_frame now
  rw [hflush]
  rfl

theorem flushed_streamsLimit (c : Conn) (now : Time) (dir : Dir) :
    (c.flushed now).streamsLimit dir = { c.streamsLimit dir with due := false } := by
  obtain ⟨_, _, _, _, hflush⟩ := c.flushed_frame now
  rw [hflush]
  rfl

theorem controlFrames_maxData (hcontrol : ∀ f ∈ c.control, queuedFrame f = true) :
    c.controlFrames.filterMap Frame.maxData? =
      if c.dataLimit.due then [c.dataLimit.value] else [] := by
  have hstreams (dir : Dir) : (c.streamsFrame dir).filterMap Frame.maxData? = [] := by
    unfold streamsFrame
    dsimp only
    split_ifs <;> rfl
  rw [controlFrames_limits hcontrol (fun f hf => by cases f <;> trivial) (fun _ => rfl),
    List.filterMap_append, hstreams, hstreams, List.append_nil, List.append_nil]
  change _ = if c.maxDataPending then [c.recvMax] else []
  split_ifs <;> rfl

theorem controlFrames_maxStreams (hcontrol : ∀ f ∈ c.control, queuedFrame f = true)
    (dir : Dir) : c.controlFrames.filterMap (Frame.maxStreams? dir) =
      if (c.streamsLimit dir).due then [(c.streamsLimit dir).value] else [] := by
  have hframe (other : Dir) : (c.streamsFrame other).filterMap (Frame.maxStreams? dir) =
      if other = dir then if (c.streamsLimit dir).due then [(c.streamsLimit dir).value] else []
      else [] := by
    unfold streamsFrame streamsLimit
    dsimp only
    cases other <;> cases dir <;> split_ifs <;> simp_all [Frame.maxStreams?]
  have hdata : (if c.maxDataPending then [Frame.maxData ⟨c.recvMax⟩] else []).filterMap
      (Frame.maxStreams? dir) = [] := by
    split_ifs <;> rfl
  rw [controlFrames_limits hcontrol (fun f hf => by cases f <;> trivial) (fun _ => rfl),
    List.filterMap_append, hframe, hframe, hdata]
  cases dir <;> simp

theorem controlFrames_maxStreamData (c : Conn) (id : Nat) :
    c.controlFrames.filterMap (Frame.maxStreamData? id) =
      c.control.filterMap (Frame.maxStreamData? id) := by
  unfold controlFrames streamsFrame
  simp only [List.filterMap_append]
  split_ifs <;> simp [Frame.maxStreamData?]

end Flush

end Conn

end Qmux
