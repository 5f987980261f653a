import Mathlib.Tactic
import Qmux.Lib.ByteStream

/-!
Variable-length integers. The encoding is that of `quicvarint`, a package the
repository imports: it is a parameter of the model here. The fields of
`Quicvarint` are the behaviour the package documents, that of the codec of
RFC 9000, Section 16, and every other module uses these fields only.

`rfc9000` is the codec itself, of the definitions in `Varint`. It shows that
the assumptions can be met, and closed runs evaluate with it.
-/

namespace Qmux.Wire

open ByteStream

abbrev Bytes := List UInt8

/-- `quicvarint.Max`, the largest integer the encoding can carry. -/
def maxVarint : Nat := 2 ^ 62 - 1

namespace Varint

/-- The `n` low-order bytes of `v`, most significant first. -/
def bigEndian : Nat → Nat → Bytes
  | 0, _ => []
  | n + 1, v => UInt8.ofNat (v / 256 ^ n % 256) :: bigEndian n v

/-- The value of a big-endian sequence of bytes. -/
def value : Bytes → Nat
  | [] => 0
  | b :: rest => b.toNat * 256 ^ rest.length + value rest

@[simp] theorem bigEndian_length (n v : Nat) : (bigEndian n v).length = n := by
  induction n with
  | zero => rfl
  | succ n ih => simp [bigEndian, ih]

theorem value_bigEndian (n v : Nat) : value (bigEndian n v) = v % 256 ^ n := by
  induction n with
  | zero => simp [bigEndian, value, Nat.mod_one]
  | succ n ih =>
      have hbyte : (UInt8.ofNat (v / 256 ^ n % 256)).toNat =
          v / 256 ^ n % 256 := by
        simp
      simp only [bigEndian, value, bigEndian_length, ih, hbyte]
      rw [Nat.pow_succ, Nat.mod_mul, Nat.add_comm, Nat.mul_comm]

/-- The two high-order bits of the first byte, and the width they stand for. -/
def width : Nat → Nat
  | 0 => 1
  | 1 => 2
  | 2 => 4
  | _ => 8

/-- The code of the shortest width that holds `v`. -/
def code (v : Nat) : Nat :=
  if v < 2 ^ 6 then 0 else if v < 2 ^ 14 then 1 else if v < 2 ^ 30 then 2 else 3

def len (v : Nat) : Nat :=
  width (code v)

def append (v : Nat) : Option Bytes :=
  if v ≤ maxVarint then
    some (bigEndian (len v) (code v * 2 ^ (8 * len v - 2) + v))
  else none

def parse : Bytes → Option (Nat × Nat)
  | [] => none
  | b :: rest =>
      let n := width (b.toNat / 64)
      if n ≤ (b :: rest).length then
        some (value ((b :: rest).take n) % 2 ^ (8 * n - 2), n)
      else none

/-- `e` is an integer of one of the four widths, not only the shortest: the two
high-order bits of its first byte tell the width, and the rest is `v`. -/
def Encodes (v : Nat) (e : Bytes) : Prop :=
  ∃ k < 4, v < 2 ^ (8 * width k - 2) ∧
    e = bigEndian (width k) (k * 2 ^ (8 * width k - 2) + v)

theorem code_lt (v : Nat) : code v < 4 := by
  unfold code
  split_ifs <;> omega

/-- The shortest width leaves the two high-order bits free. -/
theorem lt_of_le_max {v : Nat} (hv : v ≤ maxVarint) :
    v < 2 ^ (8 * len v - 2) := by
  unfold maxVarint at hv
  unfold len code
  split_ifs with h1 h2 h3 <;> simp only [width] <;> omega

/-- Reading a big-endian word of the width that its two high-order bits, `k`,
stand for. -/
private theorem parse_bigEndian {k n v : Nat} (hwidth : width k = n + 1)
    (hk : k < 4) (hv : v < 2 ^ (8 * (n + 1) - 2)) (rest : Bytes) :
    parse (bigEndian (n + 1) (k * 2 ^ (8 * (n + 1) - 2) + v) ++ rest) =
      some (v, n + 1) := by
  have hexp : 8 * (n + 1) - 2 = 8 * n + 6 := by omega
  have hpow : (256 : Nat) ^ n = 2 ^ (8 * n) := by
    rw [Nat.pow_mul]
  rw [hexp] at hv ⊢
  have hsplit : (2 : Nat) ^ (8 * n + 6) = 2 ^ (8 * n) * 64 := Nat.pow_add ..
  have hdiv : (k * 2 ^ (8 * n + 6) + v) / 256 ^ n = k * 64 + v / 2 ^ (8 * n) := by
    rw [hpow, hsplit, show k * (2 ^ (8 * n) * 64) = 2 ^ (8 * n) * (k * 64) by ring]
    exact Nat.mul_add_div (by positivity) ..
  have hlow : v / 2 ^ (8 * n) < 64 := by
    apply Nat.div_lt_of_lt_mul
    rw [hsplit] at hv
    exact hv
  have hfirst : (UInt8.ofNat ((k * 2 ^ (8 * n + 6) + v) / 256 ^ n % 256)).toNat
      / 64 = k := by
    rw [hdiv]
    generalize v / 2 ^ (8 * n) = low at hlow
    simp only [UInt8.toNat_ofNat']
    omega
  have hlt : k * 2 ^ (8 * n + 6) + v < 256 ^ (n + 1) := by
    have h256 : (256 : Nat) ^ (n + 1) = 2 ^ (8 * n + 6) * 4 := by
      rw [Nat.pow_succ, hpow, hsplit]
      ring
    rw [h256]
    calc
      k * 2 ^ (8 * n + 6) + v < k * 2 ^ (8 * n + 6) + 2 ^ (8 * n + 6) := by omega
      _ = 2 ^ (8 * n + 6) * (k + 1) := by ring
      _ ≤ 2 ^ (8 * n + 6) * 4 := Nat.mul_le_mul_left _ (by omega)
  have htake : ((bigEndian (n + 1) (k * 2 ^ (8 * n + 6) + v)) ++ rest).take (n + 1) =
      bigEndian (n + 1) (k * 2 ^ (8 * n + 6) + v) := by
    rw [List.take_append_of_le_length (by simp)]
    exact List.take_of_length_le (by simp)
  have hcons : bigEndian (n + 1) (k * 2 ^ (8 * n + 6) + v) ++ rest =
      UInt8.ofNat ((k * 2 ^ (8 * n + 6) + v) / 256 ^ n % 256) ::
        (bigEndian n (k * 2 ^ (8 * n + 6) + v) ++ rest) := rfl
  rw [hcons, parse, hfirst, hwidth, ← hcons, htake, value_bigEndian,
    Nat.mod_eq_of_lt hlt, hexp, if_pos (by simp)]
  rw [Nat.mul_comm, Nat.mul_add_mod, Nat.mod_eq_of_lt hv]

private theorem width_pos (k : Nat) : 0 < width k := by
  unfold width
  split <;> omega

private theorem width_le (k : Nat) : width k ≤ 8 := by
  unfold width
  split <;> omega

theorem parse_append (v : Nat) (e rest : Bytes) (h : append v = some e) :
    parse (e ++ rest) = some (v, e.length) := by
  unfold append at h
  split_ifs at h with hv
  obtain rfl := Option.some.inj h
  rw [bigEndian_length]
  obtain ⟨n, hn⟩ : ∃ n, len v = n + 1 := ⟨len v - 1, by
    have := width_pos (code v)
    unfold len
    omega⟩
  have hlt := lt_of_le_max hv
  rw [hn] at hlt ⊢
  exact parse_bigEndian hn (code_lt v) hlt rest

theorem parse_encodes {v : Nat} {e : Bytes} (h : Encodes v e) (rest : Bytes) :
    parse (e ++ rest) = some (v, e.length) := by
  obtain ⟨k, hk, hv, rfl⟩ := h
  rw [bigEndian_length]
  obtain ⟨n, hn⟩ : ∃ n, width k = n + 1 := ⟨width k - 1, by
    have := width_pos k
    omega⟩
  rw [hn] at hv ⊢
  exact parse_bigEndian hn hk hv rest

theorem parse_some {b : Bytes} {v n : Nat} (h : parse b = some (v, n)) :
    0 < n ∧ n ≤ b.length ∧ v ≤ maxVarint := by
  cases b with
  | nil => cases h
  | cons x rest =>
      simp only [parse] at h
      split_ifs at h with hn
      simp only [Option.some.injEq, Prod.mk.injEq] at h
      obtain ⟨hv, rfl⟩ := h
      refine ⟨width_pos _, hn, ?_⟩
      have hpow : 2 ^ (8 * width (x.toNat / 64) - 2) ≤ 2 ^ 62 := by
        apply Nat.pow_le_pow_right (by omega)
        have := width_le (x.toNat / 64)
        omega
      have hmod := Nat.mod_lt (value ((x :: rest).take (width (x.toNat / 64))))
        (Nat.two_pow_pos (8 * width (x.toNat / 64) - 2))
      unfold maxVarint
      omega

theorem value_lt (e : Bytes) : value e < 256 ^ e.length := by
  induction e with
  | nil => decide
  | cons x rest ih =>
      have hx : x.toNat < 256 := UInt8.toNat_lt x
      simp only [value, List.length_cons, Nat.pow_succ]
      calc
        x.toNat * 256 ^ rest.length + value rest
            < x.toNat * 256 ^ rest.length + 256 ^ rest.length := by omega
        _ = 256 ^ rest.length * (x.toNat + 1) := by ring
        _ ≤ 256 ^ rest.length * 256 := Nat.mul_le_mul_left _ hx

/-- A word is the big-endian form of its own value, also below other bits. -/
theorem bigEndian_value (e : Bytes) (high : Nat) :
    bigEndian e.length (high * 256 ^ e.length + value e) = e := by
  induction e generalizing high with
  | nil => rfl
  | cons x rest ih =>
      have hlt := value_lt rest
      have hx : x.toNat < 256 := UInt8.toNat_lt x
      have hsplit : high * 256 ^ (x :: rest).length + value (x :: rest) =
          256 ^ rest.length * (high * 256 + x.toNat) + value rest := by
        simp only [value, List.length_cons, Nat.pow_succ]
        ring
      have hdiv : (256 ^ rest.length * (high * 256 + x.toNat) + value rest) /
          256 ^ rest.length = high * 256 + x.toNat := by
        rw [Nat.mul_add_div (by positivity), Nat.div_eq_of_lt hlt, Nat.add_zero]
      rw [hsplit, List.length_cons, bigEndian, hdiv]
      have hbyte : (high * 256 + x.toNat) % 256 = x.toNat := by omega
      rw [hbyte, Nat.mul_comm (256 ^ rest.length), ih]
      simp

theorem parse_sound {b : Bytes} {v n : Nat} (h : parse b = some (v, n)) :
    Encodes v (b.take n) := by
  cases b with
  | nil => cases h
  | cons x rest =>
      simp only [parse] at h
      split_ifs at h with hle
      simp only [Option.some.injEq, Prod.mk.injEq] at h
      obtain ⟨hv, hn⟩ := h
      have hx : x.toNat < 256 := UInt8.toNat_lt x
      obtain ⟨m, hm⟩ : ∃ m, width (x.toNat / 64) = m + 1 :=
        ⟨width (x.toNat / 64) - 1, by
          have := width_pos (x.toNat / 64)
          omega⟩
      obtain rfl : n = m + 1 := hn.symm.trans hm
      rw [hm] at hv hle
      have hlen : ((x :: rest).take (m + 1)).length = m + 1 :=
        List.length_take_of_le hle
      have htail : (rest.take m).length = m := by
        rw [List.take_succ_cons, List.length_cons] at hlen
        exact Nat.succ.inj hlen
      have hpow : (2 : Nat) ^ (8 * (m + 1) - 2) = 64 * 256 ^ m := by
        rw [show 8 * (m + 1) - 2 = 8 * m + 6 by omega, Nat.pow_add, Nat.pow_mul]
        ring
      have hvalue : value ((x :: rest).take (m + 1)) =
          64 * 256 ^ m * (x.toNat / 64) + (x.toNat % 64 * 256 ^ m + value (rest.take m)) := by
        rw [List.take_succ_cons, value, htail]
        nth_rewrite 1 [← Nat.div_add_mod x.toNat 64]
        ring
      have hlow : x.toNat % 64 * 256 ^ m + value (rest.take m) < 64 * 256 ^ m := by
        have hlt := value_lt (rest.take m)
        rw [htail] at hlt
        calc
          x.toNat % 64 * 256 ^ m + value (rest.take m)
              < x.toNat % 64 * 256 ^ m + 256 ^ m := by omega
          _ = 256 ^ m * (x.toNat % 64 + 1) := by ring
          _ ≤ 256 ^ m * 64 := Nat.mul_le_mul_left _ (by omega)
          _ = 64 * 256 ^ m := by ring
      have hrest : v = x.toNat % 64 * 256 ^ m + value (rest.take m) := by
        rw [← hv, hpow, hvalue, Nat.mul_add_mod, Nat.mod_eq_of_lt hlow]
      refine ⟨x.toNat / 64, by omega, ?_, ?_⟩
      · rw [hm, hpow, hrest]
        exact hlow
      · have hword : x.toNat / 64 * 2 ^ (8 * (m + 1) - 2) + v =
            0 * 256 ^ ((x :: rest).take (m + 1)).length +
              value ((x :: rest).take (m + 1)) := by
          rw [hpow, hrest, hvalue]
          ring
        rw [hm, hword]
        nth_rewrite 1 [← bigEndian_value ((x :: rest).take (m + 1)) 0]
        rw [hlen]

theorem Encodes.ne_nil {v : Nat} {e : Bytes} (h : Encodes v e) : e ≠ [] := by
  obtain ⟨k, -, -, rfl⟩ := h
  apply List.ne_nil_of_length_pos
  rw [bigEndian_length]
  unfold width
  split <;> decide

/-- The first byte of an integer tells its length. -/
theorem Encodes.length_eq {v : Nat} {x : UInt8} {rest : Bytes} (h : Encodes v (x :: rest)) :
    rest.length = width (x.toNat / 64) - 1 := by
  have hparse := parse_encodes h []
  rw [List.append_nil, parse] at hparse
  split_ifs at hparse
  have hlength := (Prod.mk.inj (Option.some.inj hparse)).2
  rw [List.length_cons] at hlength
  omega

section Read

variable {ρ : Type} {readByte : ρ → Except ReadFailure UInt8 × ρ} {r last : ρ}

/-- The two high-order bits of the first byte tell how many bytes follow. -/
def read (readByte : ρ → Except ReadFailure UInt8 × ρ) (r : ρ) : Except ReadFailure Nat × ρ :=
  match readByte r with
  | (.error e, r) => (.error e, r)
  | (.ok x, r) =>
      match readEach readByte (width (x.toNat / 64) - 1) r with
      | (.error e, r) => (.error e, r)
      | (.ok rest, r) =>
          match parse (x :: rest) with
          | some (v, _) => (.ok v, r)
          | none => (.error .unexpectedEOF, r)

theorem read_encodes {v : Nat} {e : Bytes} (he : Encodes v e) (h : Yields readByte r e last) :
    read readByte r = (.ok v, last) := by
  cases h with
  | done => exact absurd rfl he.ne_nil
  | @more _ mid _ x rest hread hrest =>
      have hmore := readEach_ok hrest
      have hparse := parse_encodes he []
      rw [List.append_nil] at hparse
      simp only [read, hread, ← he.length_eq, hmore, hparse]

theorem read_short {v n : Nat} {e : Bytes} {err : ReadFailure} (he : Encodes v e)
    (hn : n < e.length) (h : Yields readByte r (e.take n) last)
    (hfails : (readByte last).1 = .error err) :
    ∃ cause, (read readByte r).1 = .error cause := by
  refine ⟨err, ?_⟩
  cases e with
  | nil => cases hn
  | cons x rest =>
      cases n with
      | zero =>
          cases h
          unfold read
          rcases hresult : readByte r with ⟨result, next⟩
          rw [hresult] at hfails
          obtain rfl : result = .error err := hfails
          rfl
      | succ n =>
          rw [List.take_succ_cons] at h
          rw [List.length_cons] at hn
          cases h with
          | @more _ mid _ _ _ hread hrest =>
              have hcut : (rest.take n).length < width (x.toNat / 64) - 1 := by
                rw [← he.length_eq, List.length_take]
                omega
              have hmore := readEach_error hrest hfails hcut
              unfold read
              rw [hread]
              rcases hresult : readEach readByte (width (x.toNat / 64) - 1) mid with
                ⟨result, next⟩
              rw [hresult] at hmore
              obtain rfl : result = .error err := hmore
              simp only [hresult]

end Read

end Varint

/-- What the code relies on of `quicvarint`. `append v` is what `Append` adds
to its buffer, and `none` where it panics; `parse` returns the value at the
start of its argument with the number of bytes it takes; `read` takes a value
from any reader of single bytes. -/
class Quicvarint where
  append : Nat → Option Bytes
  read : {ρ : Type} → (ρ → Except ReadFailure UInt8 × ρ) → ρ → Except ReadFailure Nat × ρ
  parse : Bytes → Option (Nat × Nat)
  len : Nat → Nat
  append_isSome : ∀ v, (append v).isSome ↔ v ≤ maxVarint
  append_small : ∀ v, v < 64 → append v = some [UInt8.ofNat v]
  append_length : ∀ v e, append v = some e → e.length = len v
  len_eq : ∀ v, len v =
    if v < 2 ^ 6 then 1 else if v < 2 ^ 14 then 2 else if v < 2 ^ 30 then 4 else 8
  parse_append : ∀ v e rest, append v = some e →
    parse (e ++ rest) = some (v, e.length)
  parse_le : ∀ b v n, parse b = some (v, n) → v ≤ maxVarint
  parse_pos : ∀ b v n, parse b = some (v, n) → 0 < n ∧ n ≤ b.length
  parse_encodes : ∀ v e rest, Varint.Encodes v e → parse (e ++ rest) = some (v, e.length)
  parse_sound : ∀ b v n, parse b = some (v, n) → Varint.Encodes v (b.take n)
  read_encodes : ∀ {ρ : Type} {readByte : ρ → Except ReadFailure UInt8 × ρ} {r last : ρ} {v e},
    Varint.Encodes v e → Yields readByte r e last → read readByte r = (.ok v, last)
  /-- An integer cut short is not read. -/
  read_short : ∀ {ρ : Type} {readByte : ρ → Except ReadFailure UInt8 × ρ} {r last : ρ} {v e n err},
    Varint.Encodes v e → n < e.length → Yields readByte r (e.take n) last →
      (readByte last).1 = .error err → ∃ cause, (read readByte r).1 = .error cause

section Laws

variable [Quicvarint]

theorem append_le {v : Nat} {e : Bytes} (h : Quicvarint.append v = some e) :
    v ≤ maxVarint := by
  apply (Quicvarint.append_isSome v).mp
  simp [h]

theorem exists_append {v : Nat} (h : v ≤ maxVarint) :
    ∃ e, Quicvarint.append v = some e :=
  Option.isSome_iff_exists.mp ((Quicvarint.append_isSome v).mpr h)

theorem len_le (v : Nat) : Quicvarint.len v ≤ 8 := by
  rw [Quicvarint.len_eq]
  split_ifs <;> omega

end Laws

/-- The codec of RFC 9000, Section 16. -/
instance rfc9000 : Quicvarint where
  append := Varint.append
  parse := Varint.parse
  len := Varint.len
  append_isSome v := by
    unfold Varint.append
    split_ifs with h <;> simp [h]
  append_small v hv := by
    have hmax : v ≤ maxVarint := by
      unfold maxVarint
      omega
    have hcode : Varint.code v = 0 := by
      simp [Varint.code, hv]
    simp only [Varint.append, hmax, if_true, Varint.len, hcode, Varint.width,
      Varint.bigEndian, Option.some.injEq, List.cons.injEq, and_true]
    congr 1
    omega
  append_length v e h := by
    unfold Varint.append at h
    split_ifs at h
    obtain rfl := Option.some.inj h
    simp
  len_eq v := by
    unfold Varint.len Varint.code
    split_ifs <;> rfl
  parse_append := Varint.parse_append
  parse_le b v n h := (Varint.parse_some h).2.2
  parse_pos b v n h := ⟨(Varint.parse_some h).1, (Varint.parse_some h).2.1⟩
  parse_encodes _ _ rest h := Varint.parse_encodes h rest
  parse_sound _ _ _ h := Varint.parse_sound h
  read := Varint.read
  read_encodes := Varint.read_encodes
  read_short := Varint.read_short

end Qmux.Wire
