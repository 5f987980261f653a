import Qmux.Conn.Life
import Qmux.Registry.Basic

/-!
The streams of a connection, as a registry. The view forgets everything else;
what the connection does to its streams is an operation of the registry on it.
-/

namespace Qmux

open Wire

def Stream.slot (s : Stream) : Slot where
  id := s.id
  canRecv := s.canRecv
  canSend := s.canSend
  accepted := s.accepted
  ended := s.recvDone && s.sendDone
  done := s.done

/-- The stream is the same to the registry, up to its end. -/
structure Stream.SameSlot (s s' : Stream) : Prop where
  id : s'.id = s.id
  canRecv : s'.canRecv = s.canRecv
  canSend : s'.canSend = s.canSend
  accepted : s'.accepted = s.accepted
  done : s'.done = s.done

namespace Conn

/-- The registry of a connection. -/
def registry (c : Conn) : Registry where
  isServer := c.isServer
  ready := c.ready
  slots r := (c.heap r).slot
  count := c.count
  table := c.streams
  next isLocal dir := if isLocal then (c.out dir).next else (c.incoming dir).next
  max isLocal dir := if isLocal then (c.out dir).max else (c.incoming dir).max
  queue dir := (c.incoming dir).queue

variable {c c' : Conn} {r : Ref}

private theorem slot_forget {s : Stream} (htidy : s.Tidy) (hrecv : s.recvDone = true) :
    Stream.slot { s with done := true, rbuf := .nil } = { s.slot with done := true } := by
  have hroff : s.canRecv = true → s.roff = 0 := by
    intro hcan
    rcases (htidy.forget hrecv).buffer hcan with hzero | hlt
    · exact hzero
    · cases hlt
  have hkept : Stream.recvDone { s with done := true, rbuf := .nil } = s.recvDone := by
    rw [hrecv]
    unfold Stream.recvDone at hrecv ⊢
    dsimp only
    split_ifs at hrecv ⊢ with hclosed
    · rfl
    · simp only [Bool.or_eq_true, Bool.not_eq_true', not_or, Bool.not_eq_false] at hclosed
      simp only [Bool.and_eq_true] at hrecv ⊢
      exact ⟨hrecv.1, by simp [hroff hclosed.1, Slice.nil]⟩
  have hsend : Stream.sendDone { s with done := true, rbuf := .nil } = s.sendDone := rfl
  unfold Stream.slot
  rw [hkept, hsend]

theorem completeLocked_registry (htidy : (c.heap r).Tidy)
    (hmax : ∀ dir, (c.incoming dir).max ≤ 2 ^ 61) :
    (c.completeLocked r).registry = c.registry.complete r := by
  have hcond : ((c.heap r).done || !(c.heap r).accepted || !(c.heap r).recvDone ||
      !(c.heap r).sendDone) = false ↔ (c.registry.slots r).done = false ∧
        (c.registry.slots r).accepted = true ∧ (c.registry.slots r).ended = true := by
    simp [registry, Stream.slot, and_assoc]
  unfold completeLocked Registry.complete
  dsimp only
  by_cases hover : ((c.heap r).done || !(c.heap r).accepted || !(c.heap r).recvDone ||
      !(c.heap r).sendDone) = true
  · have hnot := mt hcond.mpr (by simp [hover])
    rw [if_pos hover, if_neg hnot]
  · have hyes := hcond.mp (by simpa using hover)
    have hrecv : (c.heap r).recvDone = true := by
      have hended : ((c.heap r).recvDone && (c.heap r).sendDone) = true := hyes.2.2
      exact (Bool.and_eq_true_iff.mp hended).1
    rw [if_neg hover, if_pos hyes]
    have hslots : (fun i => (Function.update c.heap r
        { c.heap r with done := true, rbuf := .nil } i).slot) =
        Function.update c.registry.slots r { c.registry.slots r with done := true } := by
      rw [Heap.map_update, slot_forget htidy hrecv]
      rfl
    have hword := Word.add_of_lt (a := (c.incoming (streamDir (c.heap r).id)).max) (b := 1)
      (by have := hmax (streamDir (c.heap r).id); omega)
    cases hlocal : c.initiatedLocally (c.heap r).id with
    | true =>
        have hown : c.registry.own (c.registry.slots r).id = true := hlocal
        simp only [if_true, Registry.forget, hown]
        unfold registry
        dsimp only
        rw [hslots]
        rfl
    | false =>
        have hown : c.registry.own (c.registry.slots r).id = false := hlocal
        simp only [Bool.false_eq_true, if_false, Registry.forget, hown]
        unfold registry wakeWriter setIncoming
        dsimp only
        rw [hslots, hword]
        congr 1
        · funext isLocal dir
          cases isLocal with
          | true => simp
          | false =>
              rcases eq_or_ne dir (streamDir (c.heap r).id) with rfl | hdir
              · simp
              · simp [hdir]
        · funext isLocal dir
          cases isLocal with
          | true => simp
          | false =>
              rcases eq_or_ne dir (streamDir (c.heap r).id) with rfl | hdir
              · simp [Stream.slot]
              · simp [Stream.slot, hdir]
        · funext dir
          rcases eq_or_ne dir (streamDir (c.heap r).id) with rfl | hdir
          · simp
          · simp [hdir]

theorem registry_setStream {s : Stream} (hsame : (c.heap r).SameSlot s) :
    (c.setStream r s).registry = c.registry.settle r (s.recvDone && s.sendDone) := by
  have hslot : s.slot = { (c.heap r).slot with ended := s.recvDone && s.sendDone } := by
    unfold Stream.slot
    rw [hsame.id, hsame.canRecv, hsame.canSend, hsame.accepted, hsame.done]
  have hslots := Heap.map_update Stream.slot c.heap r s
  rw [hslot] at hslots
  exact congrArg (fun slots => { c.registry with slots := slots }) hslots

theorem registry_touches {s : Stream} {frames : List Frame}
    (h : c.Touches r s frames c') (hsame : (c.heap r).SameSlot s) :
    c'.registry = c.registry.settle r (s.recvDone && s.sendDone) := by
  rw [← registry_setStream hsame]
  obtain ⟨a, -, rfl⟩ := h
  rfl

private theorem slot_newStream (c : Conn) (isLocal : Bool) (dir : Dir) :
    Stream.slot { c.newStream (c.streamID (if isLocal then (c.out dir).next
      else (c.incoming dir).next) dir isLocal) with accepted := isLocal } =
      c.registry.fresh isLocal dir := by
  generalize hid : c.streamID _ dir isLocal = id
  have hfresh : (c.registry.fresh isLocal dir).id = id := hid
  unfold Registry.fresh at hfresh ⊢
  dsimp only at hfresh
  rw [hfresh]
  have hbidi : (streamDir id == Dir.uni) = !(streamDir id != Dir.uni) := by simp [bne]
  have hended : (Stream.recvDone { c.newStream id with accepted := isLocal } &&
      Stream.sendDone { c.newStream id with accepted := isLocal }) = false := by
    unfold Stream.recvDone Stream.sendDone newStream
    cases streamDir id == Dir.uni <;> cases c.initiatedLocally id <;> rfl
  unfold Stream.slot
  rw [hended]
  simp only [newStream, hbidi, Bool.not_not]
  rfl

theorem registry_openIncoming {dir : Dir}
    (hnext : (c.incoming dir).next < 2 ^ 60) :
    (c.openIncoming dir).registry = c.registry.add false dir (c.registry.fresh false dir) := by
  have hword := Word.add_of_lt (a := (c.incoming dir).next) (b := 1) (by omega)
  rw [← slot_newStream]
  unfold openIncoming registry Registry.add newStreamLocked setIncoming
  dsimp only
  rw [Heap.map_update, hword]
  congr 1
  · funext isLocal d
    cases isLocal with
    | true => simp
    | false =>
        rcases eq_or_ne d dir with rfl | hd
        · simp
        · simp [hd]
  · funext isLocal d
    rcases eq_or_ne d dir with rfl | hd
    · simp
    · simp [hd]
  · funext d
    rcases eq_or_ne d dir with rfl | hd
    · simp
    · simp [hd]

theorem registry_openLocal {dir : Dir} (hnext : (c.out dir).next < 2 ^ 60) :
    (c.openLocal dir).registry = c.registry.add true dir (c.registry.fresh true dir) := by
  have hword := Word.add_of_lt (a := (c.out dir).next) (b := 1) (by omega)
  rw [← slot_newStream]
  unfold openLocal registry Registry.add newStreamLocked setOut
  dsimp only
  rw [Heap.map_update, hword]
  congr 1
  · funext isLocal d
    cases isLocal with
    | false => simp
    | true =>
        rcases eq_or_ne d dir with rfl | hd
        · simp
        · simp [hd]
  · funext isLocal d
    rcases eq_or_ne d dir with rfl | hd
    · simp
    · simp [hd]

theorem registry_accept (c : Conn) (r : Ref) (dir : Dir) (rest : List Ref) :
    ((c.setIncoming dir { c.incoming dir with queue := rest }).setStream r
      { c.heap r with accepted := true }).registry = c.registry.accept dir r rest := by
  have hslot : Stream.slot { c.heap r with accepted := true } =
      { (c.heap r).slot with accepted := true } := rfl
  unfold registry Registry.accept setStream setIncoming
  dsimp only
  rw [Heap.map_update, hslot]
  congr 1
  · funext isLocal d
    rcases eq_or_ne d dir with rfl | hd
    · simp
    · simp [hd]
  · funext isLocal d
    rcases eq_or_ne d dir with rfl | hd
    · simp
    · simp [hd]
  · funext d
    rcases eq_or_ne d dir with rfl | hd
    · simp
    · simp [hd]

theorem registry_parameters (p : Parameters) :
    (c.handleParametersLocked p).registry = c.registry.raise
      (fun dir => ((c.handleParametersLocked p).out dir).max) := by
  unfold registry Registry.raise handleParametersLocked
  dsimp only
  congr 1
  funext isLocal d
  cases isLocal <;> simp

theorem registry_maxStreams (f : MaxStreams) (hready : c.ready = true) :
    (c.handleMaxStreams f).registry = c.registry.raise
      (fun dir => ((c.handleMaxStreams f).out dir).max) := by
  unfold handleMaxStreams
  dsimp only
  generalize (if f.uni = true then Dir.uni else Dir.bidi) = dir
  split_ifs with hmax
  · unfold registry Registry.raise setOut
    dsimp only
    rw [hready]
    congr 1
    · funext isLocal d
      rcases eq_or_ne d dir with rfl | hd
      · simp
      · simp [hd]
    · funext isLocal d
      cases isLocal <;> simp
  · unfold registry Registry.raise
    dsimp only
    rw [hready]
    congr 1
    funext isLocal d
    cases isLocal <;> simp

end Conn

end Qmux
