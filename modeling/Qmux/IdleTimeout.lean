import Qmux.Handshake

/-!
The idle timeout that two endpoints arrive at. Each keeps its own to the
nanosecond and declares it in whole milliseconds, and none is zero. So the two
agree on the shorter timeout if it is a whole number of milliseconds, and
otherwise only where neither declares one.
-/

namespace Qmux

open Wire

/-- The timeout of a connection between endpoints with timeouts `a` and `b`: the
shorter, or the only one. None is zero. -/
def agreedTimeout (a b : Int) : Int :=
  if a = 0 then b else if b = 0 then a else min a b

/-- The timeout as it is declared. -/
def declaredTimeout (t : Int) : Int :=
  t / millisecond * millisecond

/-- The timeout of an endpoint once it has the parameters of its peer. -/
theorem handleParametersLocked_idleTimeout (config : Config) {other : Config}
    (hother : other.Valid) (isServer : Bool) :
    ((Conn.new config isServer).handleParametersLocked
      (Conn.new other (!isServer)).localParameters.received).idleTimeout =
        let own := config.maxIdleTimeout.toInt
        let peer := declaredTimeout other.maxIdleTimeout.toInt
        if 0 < peer ∧ (own = 0 ∨ peer < own) then peer else own := by
  have hlt := other.maxIdleTimeout.toInt_lt
  have hnonneg := hother.idleTimeout_nonneg
  have hmilliseconds : _ = other.maxIdleTimeout.toInt / 1000000 := milliseconds_eq hnonneg
  -- A timeout that a `Duration` holds is never too long for one.
  have hfits : (other.maxIdleTimeout / 1000000).toUInt64.toNat ≤ maxIdleMilliseconds := by
    have hmax : maxIdleMilliseconds = 9223372036854 := by decide
    omega
  have hdeclared : ((other.maxIdleTimeout / 1000000).toUInt64.toNat : Int) * millisecond =
      declaredTimeout other.maxIdleTimeout.toInt := by
    rw [hmilliseconds]
    rfl
  have hpos : 0 < (other.maxIdleTimeout / 1000000).toUInt64.toNat ↔
      0 < declaredTimeout other.maxIdleTimeout.toInt := by
    change _ ↔ 0 < other.maxIdleTimeout.toInt / 1000000 * 1000000
    omega
  simp only [Conn.handleParametersLocked, Conn.localParameters, Parameters.received, Conn.new,
    gt_iff_lt, hpos, hfits, true_and, hdeclared]

/-- Both endpoints arrive at the agreed timeout if it is declared exactly, or if
the two are the same and too short to be declared. -/
private theorem agreed_iff {a b : Int} (ha : 0 ≤ a) (hb : 0 ≤ b) :
    ((if 0 < declaredTimeout b ∧ (a = 0 ∨ declaredTimeout b < a) then declaredTimeout b else a) =
        agreedTimeout a b ∧
      (if 0 < declaredTimeout a ∧ (b = 0 ∨ declaredTimeout a < b) then declaredTimeout a else b) =
        agreedTimeout a b) ↔
      (millisecond : Int) ∣ agreedTimeout a b ∨ a = b ∧ a < millisecond := by
  have hmillisecond : (millisecond : Int) = 1000000 := rfl
  unfold declaredTimeout agreedTimeout
  rw [hmillisecond]
  split_ifs <;> omega

/-- Two endpoints of any configurations that read each other's parameters both hold
the shorter of their timeouts, or the only one, or none, exactly if that timeout is
a whole number of milliseconds, or both are the same and below one millisecond. -/
theorem idleTimeout_agreement_iff [Quicvarint] (a b : Option Config) (isServer : Bool) :
    ∃ p q, (Conn.new (Config.normalized a) isServer).Declares p ∧
      (Conn.new (Config.normalized b) (!isServer)).Declares q ∧
      let c := (Conn.new (Config.normalized a) isServer).handleParametersLocked q
      let d := (Conn.new (Config.normalized b) (!isServer)).handleParametersLocked p
      let x := (Config.normalized a).maxIdleTimeout.toInt
      let y := (Config.normalized b).maxIdleTimeout.toInt
      (c.idleTimeout = agreedTimeout x y ∧ d.idleTimeout = agreedTimeout x y) ↔
        (millisecond : Int) ∣ agreedTimeout x y ∨ x = y ∧ x < millisecond := by
  have ha := Config.normalized_valid a
  have hb := Config.normalized_valid b
  refine ⟨_, _, declares ha isServer, declares hb (!isServer), ?_⟩
  have hc := handleParametersLocked_idleTimeout (Config.normalized a) hb isServer
  have hd := handleParametersLocked_idleTimeout (Config.normalized b) ha (!isServer)
  rw [Bool.not_not] at hd
  dsimp only
  rw [hc, hd]
  exact agreed_iff ha.idleTimeout_nonneg hb.idleTimeout_nonneg

/-- Timeouts of ten and of one and a half milliseconds. The second endpoint keeps
its own, and the first takes the millisecond that it was told. -/
theorem idleTimeout_disagreement :
    ∃ p q,
      (Conn.new (Config.normalized (some { maxIdleTimeout := 10000000 })) false).Declares p ∧
      (Conn.new (Config.normalized (some { maxIdleTimeout := 1500000 })) true).Declares q ∧
      ((Conn.new (Config.normalized (some { maxIdleTimeout := 10000000 })) false
        ).handleParametersLocked q).idleTimeout = 1000000 ∧
      ((Conn.new (Config.normalized (some { maxIdleTimeout := 1500000 })) true
        ).handleParametersLocked p).idleTimeout = 1500000 :=
  ⟨_, _, declares (Config.normalized_valid _) false, declares (Config.normalized_valid _) true,
    by decide +kernel, by decide +kernel⟩

end Qmux
