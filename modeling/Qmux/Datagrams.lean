import Qmux.Sending.Outbox
import Qmux.Trace.Run
import Qmux.Wire.Sizes

/-!
The size of datagrams. `SendDatagram` refuses a payload exactly if its frame does
not fit the limit of the peer. The payload size it then reports leaves room for a
length as wide as that of the limit. A payload just below a width boundary has a
narrower length, so at a few limits above each boundary the reported size is too
small, and for a limit of one byte it is negative.
-/

namespace Qmux

open Wire

/-- Why `SendDatagram` refuses a payload. -/
inductive DatagramRefusal where
  | notSupported
  | tooLarge (maxDatagramPayloadSize : Int64)
deriving DecidableEq, Repr

namespace Conn

variable [Quicvarint]

/-- The payload size that `SendDatagram` reports: the frame's type and length take
the rest of the limit. -/
def maxDatagramPayloadSize (limit : Nat) : Int64 :=
  Int64.ofNat (Word.sub (Word.sub limit 1) (Quicvarint.len limit))

/-- The checks of `SendDatagram`, before it takes `writeMu`. -/
def refuseDatagram (c : Conn) (p : Bytes) : Option DatagramRefusal :=
  let limit := c.datagramLimit
  if limit = 0 then some .notSupported
  else if Datagram.len ⟨p⟩ > limit then some (.tooLarge (maxDatagramPayloadSize limit))
  else none

/-- The size limit is exact: a payload is refused if its frame does not fit, and
the size reported is the largest that is accepted. A limit that no frame fits is
not reported as a negative size. -/
structure ExactDatagrams (c : Conn) : Prop where
  refused : ∀ p b, (Frame.datagram ⟨p⟩).append = some b →
    ((∃ m, c.refuseDatagram p = some (.tooLarge m)) ↔ c.datagramLimit < b.length)
  largest : 2 ≤ c.datagramLimit → ∀ p m, c.refuseDatagram p = some (.tooLarge m) →
    ∀ q : Bytes, c.refuseDatagram q = none ↔ (q.length : Int) ≤ m.toInt
  nonneg : c.datagramLimit = 1 → ∀ p m, c.refuseDatagram p = some (.tooLarge m) →
    0 ≤ m.toInt

/-- A limit so close above a boundary of the encoding of lengths that some payload
has a narrower length than the limit. -/
def NearBoundary (limit : Nat) : Prop :=
  limit = 1 ∨ (2 ^ 6 ≤ limit ∧ limit < 2 ^ 6 + 2) ∨ (2 ^ 14 ≤ limit ∧ limit < 2 ^ 14 + 4) ∨
    (2 ^ 30 ≤ limit ∧ limit < 2 ^ 30 + 8)

/-- The size reported, as long as the limit leaves room for a frame. -/
theorem maxDatagramPayloadSize_toInt {limit : Nat} (hlimit : 2 ≤ limit)
    (hmax : limit ≤ maxVarint) :
    (maxDatagramPayloadSize limit).toInt = (limit - 1 - Quicvarint.len limit : Nat) := by
  have hlen : Quicvarint.len limit < limit := by
    rw [Quicvarint.len_eq]
    split_ifs <;> omega
  have hvarint : maxVarint = 2 ^ 62 - 1 := rfl
  have hone : Word.sub limit 1 = limit - 1 := Word.sub_of_le (by omega) (by omega)
  unfold maxDatagramPayloadSize
  rw [hone, Word.sub_of_le (by omega) (by omega)]
  exact Int64.toInt_ofNat_of_lt (by omega)

theorem refuseDatagram_none {c : Conn} (hlimit : c.datagramLimit ≠ 0) (p : Bytes) :
    c.refuseDatagram p = none ↔ 1 + Quicvarint.len p.length + p.length ≤ c.datagramLimit := by
  unfold refuseDatagram
  simp only [hlimit, if_false, ite_eq_right_iff, reduceCtorEq, imp_false, Nat.not_lt]
  rfl

theorem refuseDatagram_tooLarge {c : Conn} (hlimit : c.datagramLimit ≠ 0) {p : Bytes}
    {m : Int64} (h : c.refuseDatagram p = some (.tooLarge m)) :
    m = maxDatagramPayloadSize c.datagramLimit := by
  unfold refuseDatagram at h
  simp only [hlimit, if_false] at h
  split_ifs at h
  simpa using h.symm

/-- Some payload does not fit. -/
private theorem exists_refused {c : Conn} (hlimit : c.datagramLimit ≠ 0) :
    ∃ p, c.refuseDatagram p = some (.tooLarge (maxDatagramPayloadSize c.datagramLimit)) := by
  refine ⟨List.replicate c.datagramLimit 0, ?_⟩
  have hlarge : Datagram.len ⟨List.replicate c.datagramLimit 0⟩ > c.datagramLimit := by
    unfold Datagram.len
    rw [List.length_replicate]
    omega
  unfold refuseDatagram
  simp only [hlimit, if_false, hlarge, if_true]

/-- Away from the boundaries the payloads that fit are those up to the size
reported. -/
private theorem fits_iff {limit : Nat} (hlimit : 2 ≤ limit) (hfar : ¬ NearBoundary limit)
    (n : Nat) :
    1 + Quicvarint.len n + n ≤ limit ↔ n ≤ limit - 1 - Quicvarint.len limit := by
  unfold NearBoundary at hfar
  rw [Quicvarint.len_eq, Quicvarint.len_eq]
  split_ifs <;> omega

/-- Near a boundary a payload of one byte more fits too. -/
private theorem fits_next {limit : Nat} (hlimit : 2 ≤ limit) (hnear : NearBoundary limit) :
    1 + Quicvarint.len (limit - 1 - Quicvarint.len limit + 1) +
      (limit - 1 - Quicvarint.len limit + 1) ≤ limit := by
  unfold NearBoundary at hnear
  rw [Quicvarint.len_eq, Quicvarint.len_eq]
  split_ifs <;> omega

/-- A limit that leaves room for a frame, away from the boundaries, is exact. -/
private theorem exactDatagrams_of_far {c : Conn} (hlimit : 2 ≤ c.datagramLimit)
    (hmax : c.datagramLimit ≤ maxVarint) (hfar : ¬ NearBoundary c.datagramLimit) (q : Bytes) :
    c.refuseDatagram q = none ↔
      (q.length : Int) ≤ (maxDatagramPayloadSize c.datagramLimit).toInt := by
  rw [refuseDatagram_none (by omega), maxDatagramPayloadSize_toInt hlimit hmax,
    fits_iff hlimit hfar]
  omega

/-- The limit is exact unless it is near a boundary. -/
theorem exactDatagrams_iff {c : Conn} (hlimit : c.datagramLimit ≠ 0)
    (hmax : c.datagramLimit ≤ maxVarint) :
    c.ExactDatagrams ↔ ¬ NearBoundary c.datagramLimit := by
  constructor
  · intro hexact hnear
    obtain ⟨p, hp⟩ := exists_refused hlimit
    by_cases hone : c.datagramLimit = 1
    · have hnonneg := hexact.nonneg hone p _ hp
      rw [hone] at hnonneg
      have hreported : maxDatagramPayloadSize 1 = -1 := by
        unfold maxDatagramPayloadSize
        rw [Quicvarint.len_eq]
        decide
      rw [hreported] at hnonneg
      exact absurd hnonneg (by decide)
    · have htwo : 2 ≤ c.datagramLimit := by omega
      have hlargest := hexact.largest htwo p _ hp
      have hnext := hlargest (List.replicate
        (c.datagramLimit - 1 - Quicvarint.len c.datagramLimit + 1) 0)
      rw [refuseDatagram_none hlimit, List.length_replicate,
        maxDatagramPayloadSize_toInt htwo hmax] at hnext
      have hle := hnext.mp (fits_next htwo hnear)
      omega
  · intro hfar
    refine ⟨fun p b hb => ?_, fun htwo p m hm q => ?_, fun hone => ?_⟩
    · rw [Datagram.append_length hb]
      unfold refuseDatagram
      simp only [hlimit, if_false]
      split_ifs with hlarge
      · simp [hlarge]
      · simp [Nat.not_lt.mp hlarge]
    · rw [refuseDatagram_tooLarge hlimit hm]
      exact exactDatagrams_of_far htwo hmax hfar q
    · exact absurd (Or.inl hone) hfar

end Conn

namespace Endpoint

variable [Quicvarint] [GoAppend]

/-- In every state of an endpoint a payload goes on to be written unless it is
refused, and the size limit of a peer that takes datagrams is exact, unless it is
one byte or just above a boundary of the encoding of lengths. -/
theorem datagrams_exact_iff (config : Option Config) (isServer : Bool) {e : Endpoint}
    (hreach : e.Reachable (Config.normalized config) isServer)
    (hlimit : e.conn.datagramLimit ≠ 0) :
    (∀ p, (e.lock (.datagram p)).isSome = true ↔ e.conn.refuseDatagram p = none) ∧
      (e.conn.ExactDatagrams ↔ ¬ Conn.NearBoundary e.conn.datagramLimit) := by
  obtain ⟨labels, hrun⟩ := hreach
  have hvalid := Config.normalized_valid config
  obtain ⟨_, _, t, htraced⟩ := traced hvalid hrun
  have hpeer := (Conn.History.outbox hvalid htraced.past.history).peer .maxDatagramFrameSize
  constructor
  · intro p
    rw [Conn.refuseDatagram_none hlimit]
    simp [lock, hlimit, Datagram.len]
  · exact Conn.exactDatagrams_iff hlimit ((Nat.min_le_left _ _).trans hpeer)

end Endpoint

section Runs

/-- A client whose peer takes datagrams of at most `limit` bytes. -/
def datagramPeer (limit : Nat) : List Action :=
  [.record ((Frame.transportParameters { maxDatagramFrameSize := limit }).append.getD []) 0]

theorem datagrams_exact_default :
    ∃ e : Endpoint, e.Reachable (Config.normalized none) false ∧ e.conn.datagramLimit = 1200 ∧
      e.conn.ExactDatagrams := by
  have hrun : (Machine.run Endpoint.step (Endpoint.new (Config.normalized none) false)
      (datagramPeer 1200)).map (fun e => e.conn.datagramLimit) = some 1200 := by
    decide +kernel
  obtain ⟨e, hrun, hlimit⟩ := Option.map_eq_some_iff.mp hrun
  have hreach : e.Reachable (Config.normalized none) false := ⟨_, hrun⟩
  refine ⟨e, hreach, hlimit, ?_⟩
  refine (Endpoint.datagrams_exact_iff none false hreach (by omega)).2.mpr ?_
  rw [hlimit]
  unfold Conn.NearBoundary
  omega

/-- A peer that takes frames of 64 bytes takes a payload of 62 bytes, and the size
reported is 61; with a limit of one byte it is minus one. -/
theorem datagrams_inexact :
    (∃ e : Endpoint, e.Reachable (Config.normalized none) false ∧ e.conn.closeErr = none ∧
      e.conn.datagramLimit = 64 ∧
      e.conn.refuseDatagram (List.replicate 63 0) = some (.tooLarge 61) ∧
      e.conn.refuseDatagram (List.replicate 62 0) = none) ∧
    ∃ e : Endpoint, e.Reachable (Config.normalized none) false ∧ e.conn.closeErr = none ∧
      e.conn.datagramLimit = 1 ∧ e.conn.refuseDatagram [] = some (.tooLarge (-1)) := by
  have hwide : (Machine.run Endpoint.step (Endpoint.new (Config.normalized none) false)
      (datagramPeer 64)).map (fun e => (e.conn.closeErr, e.conn.datagramLimit,
        e.conn.refuseDatagram (List.replicate 63 0),
        e.conn.refuseDatagram (List.replicate 62 0))) =
      some (none, 64, some (.tooLarge 61), none) := by
    decide +kernel
  have hnarrow : (Machine.run Endpoint.step (Endpoint.new (Config.normalized none) false)
      (datagramPeer 1)).map (fun e => (e.conn.closeErr, e.conn.datagramLimit,
        e.conn.refuseDatagram [])) = some (none, 1, some (.tooLarge (-1))) := by
    decide +kernel
  obtain ⟨e, hrun, hstate⟩ := Option.map_eq_some_iff.mp hwide
  obtain ⟨e', hrun', hstate'⟩ := Option.map_eq_some_iff.mp hnarrow
  simp only [Prod.mk.injEq] at hstate hstate'
  exact ⟨⟨e, ⟨_, hrun⟩, hstate⟩, e', ⟨_, hrun'⟩, hstate'⟩

end Runs

end Qmux
