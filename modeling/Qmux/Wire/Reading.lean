import Qmux.Wire.Frame

/-!
What a read that did not fail has read. The reader fails for good once it runs
out of bytes, so one check at the end tells that every read before it took the
field it was to take.
-/

namespace Qmux.Wire

open Varint

section Varints

variable [Quicvarint]

theorem append_encodes {v : Nat} {e : Bytes} (h : Quicvarint.append v = some e) :
    Encodes v e := by
  have hparse := Quicvarint.parse_append v e [] h
  rw [List.append_nil] at hparse
  have hsound := Quicvarint.parse_sound e v e.length hparse
  rwa [List.take_length] at hsound

omit [Quicvarint] in
theorem Varint.Encodes.le {v : Nat} {e : Bytes} (h : Encodes v e) : v ≤ maxVarint := by
  have hparse := Varint.parse_encodes h []
  exact (Varint.parse_some hparse).2.2

omit [Quicvarint] in
/-- An integer tells where it ends. -/
theorem Varint.Encodes.unique {v w : Nat} {e e' rest rest' : Bytes} (h : Encodes v e)
    (h' : Encodes w e') (heq : e ++ rest = e' ++ rest') : v = w ∧ e = e' ∧ rest = rest' := by
  have hparse := Varint.parse_encodes h rest
  have hparse' := Varint.parse_encodes h' rest'
  rw [heq, hparse'] at hparse
  obtain ⟨hvalue, hlen⟩ := Prod.mk.inj (Option.some.inj hparse)
  have hparts := List.append_inj heq hlen.symm
  exact ⟨hvalue.symm, hparts⟩

omit [Quicvarint] in
theorem Varint.Encodes.value_unique {v w : Nat} {e : Bytes} (h : Encodes v e)
    (h' : Encodes w e) : v = w := by
  have heq : e ++ [] = e ++ [] := rfl
  exact (h.unique h' heq).1

end Varints

namespace Reader

theorem bytes_ok {r : Reader} {n : Nat} (h : (r.bytes n).2.failed = false) :
    ∃ data rest, data.length = n ∧ r = ⟨data ++ rest, false⟩ := by
  obtain ⟨b, failed⟩ := r
  unfold bytes at h
  split_ifs at h with hshort
  simp only [Bool.or_eq_true, decide_eq_true_eq, not_or, Bool.not_eq_true, Nat.not_lt] at hshort
  refine ⟨b.take n, b.drop n, List.length_take_of_le hshort.2, ?_⟩
  rw [List.take_append_drop, hshort.1]

theorem rest_ok {r : Reader} (h : (r.rest).2.failed = false) : r = ⟨r.b, false⟩ := by
  obtain ⟨b, failed⟩ := r
  cases failed with
  | true => cases h
  | false => rfl

variable [Quicvarint]

theorem varint_ok {r : Reader} (h : (r.varint).2.failed = false) :
    ∃ v e rest, Encodes v e ∧ r = ⟨e ++ rest, false⟩ := by
  obtain ⟨b, failed⟩ := r
  cases failed with
  | true => cases h
  | false =>
      cases hparse : Quicvarint.parse b with
      | none => simp [varint, hparse] at h
      | some found =>
          obtain ⟨v, n⟩ := found
          refine ⟨v, b.take n, b.drop n, Quicvarint.parse_sound b v n hparse, ?_⟩
          rw [List.take_append_drop]

/-- Reading an integer of any width. -/
theorem varint_encodes {v : Nat} {e : Bytes} (h : Encodes v e) (tail : Bytes) :
    varint ⟨e ++ tail, false⟩ = (v, ⟨tail, false⟩) := by
  simp [varint, Quicvarint.parse_encodes v e tail h]

theorem varint_eq {r : Reader} {v : Nat} {tail : Bytes} :
    r.varint = (v, ⟨tail, false⟩) ↔ ∃ e, Encodes v e ∧ r = ⟨e ++ tail, false⟩ := by
  constructor
  · intro h
    obtain ⟨w, e, rest, hw, rfl⟩ := varint_ok (congrArg (fun found => found.2.failed) h)
    rw [varint_encodes hw] at h
    cases h
    exact ⟨e, hw, rfl⟩
  · rintro ⟨e, he, rfl⟩
    exact varint_encodes he tail

omit [Quicvarint] in
theorem rest_eq {r : Reader} {data tail : Bytes} (h : r.rest = (data, ⟨tail, false⟩)) :
    r = ⟨data, false⟩ ∧ tail = [] := by
  have hr := rest_ok (congrArg (fun found => found.2.failed) h)
  rw [hr] at h ⊢
  cases h
  exact ⟨rfl, rfl⟩

end Reader

section Sized

variable [Quicvarint]

/-- Reading a length-prefixed field. -/
theorem readSized_encodes {size data : Bytes} (h : Encodes data.length size) (tail : Bytes) :
    readSized ⟨size ++ (data ++ tail), false⟩ = (data, ⟨tail, false⟩) := by
  unfold readSized
  rw [Reader.varint_encodes h]
  exact Reader.bytes_append data tail

theorem readSized_ok {r : Reader} (h : (readSized r).2.failed = false) :
    ∃ size data rest, Encodes data.length size ∧ r = ⟨size ++ (data ++ rest), false⟩ := by
  have hbytes : ((r.varint).2.bytes (r.varint).1).2.failed = false := h
  obtain ⟨data, rest, hlen, hmid⟩ := Reader.bytes_ok hbytes
  obtain ⟨v, size, tail, hsize, rfl⟩ := Reader.varint_ok (congrArg Reader.failed hmid)
  rw [Reader.varint_encodes hsize] at hlen hmid
  obtain rfl : tail = data ++ rest := congrArg Reader.b hmid
  exact ⟨size, data, rest, hlen ▸ hsize, rfl⟩

theorem readSized_eq {r : Reader} {data tail : Bytes} :
    readSized r = (data, ⟨tail, false⟩) ↔
      ∃ size, Encodes data.length size ∧ r = ⟨size ++ (data ++ tail), false⟩ := by
  constructor
  · intro h
    obtain ⟨size, data', rest, hsize, rfl⟩ :=
      readSized_ok (congrArg (fun found => found.2.failed) h)
    rw [readSized_encodes hsize] at h
    cases h
    exact ⟨size, hsize, rfl⟩
  · rintro ⟨size, hsize, rfl⟩
    exact readSized_encodes hsize tail

end Sized

end Qmux.Wire
