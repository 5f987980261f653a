import Qmux.Wire.Bounds
import Qmux.Wire.Reading

/-!
The transport parameters as a list of entries. A field that `parseParameters`
accepts splits into entries, in one way only; whether it is accepted, and what
each parameter then is, depends on which entries there are and not on their
order.
-/

namespace Qmux.Wire

open Varint

/-- A transport parameter as it is sent: an identifier and a value. -/
structure Entry where
  id : Nat
  value : Bytes
deriving DecidableEq, Repr

/-- The field is these entries, one after the other: identifier, length and
value, the integers of any width. -/
inductive Splits : Bytes → List Entry → Prop where
  | nil : Splits [] []
  | cons {x : Entry} {xs : List Entry} {id size rest : Bytes} (hid : Encodes x.id id)
      (hsize : Encodes x.value.length size) (hrest : Splits rest xs) :
      Splits (id ++ (size ++ (x.value ++ rest))) (x :: xs)

namespace Splits

theorem unique {b : Bytes} {xs ys : List Entry} (hx : Splits b xs) (hy : Splits b ys) :
    xs = ys := by
  generalize hb : b = b' at hy
  induction hx generalizing b' ys with
  | nil =>
      cases hy with
      | nil => rfl
      | cons hid => simp [hid.ne_nil] at hb
  | @cons x xs id size rest hid hsize hrest ih =>
      cases hy with
      | nil => simp [hid.ne_nil] at hb
      | @cons y ys id' size' rest' hid' hsize' hrest' =>
          obtain ⟨hidEq, -, htail⟩ := hid.unique hid' hb
          obtain ⟨hlen, -, htail⟩ := hsize.unique hsize' htail
          obtain ⟨hvalue, htail⟩ := List.append_inj htail hlen
          have hentry : x = y := by
            cases x
            cases y
            exact congrArg₂ Entry.mk hidEq hvalue
          rw [hentry, ih rest' htail hrest']

end Splits

/-- What is asked of the entries, whatever their order. -/
structure Accepted (xs : List Entry) : Prop where
  allowed : ∀ x ∈ xs, prohibitedParam x.id = ""
  distinct : (xs.map Entry.id).Nodup
  integer : ∀ x ∈ xs, ∀ f : Param, x.id = f.id → ∃ v, Encodes v x.value
  streams : ∀ x ∈ xs, x.id = Param.initialMaxStreamsBidi.id ∨
    x.id = Param.initialMaxStreamsUni.id → ∀ v, Encodes v x.value → v ≤ maxStreams
  recordSize : ∀ x ∈ xs, x.id = Param.maxRecordSize.id →
    ∀ v, Encodes v x.value → defaultMaxRecordSize ≤ v

/-- The parameters of a peer that has sent none. -/
def Parameters.defaults : Parameters :=
  { maxRecordSize := defaultMaxRecordSize }

/-- Each parameter that was sent has the value of its entry, and each other one
the value it has in `p`. -/
def Filled (p : Parameters) (xs : List Entry) (q : Parameters) : Prop :=
  ∀ f : Param, (∃ x ∈ xs, x.id = f.id ∧ Encodes (q.get f) x.value) ∨
    ((∀ x ∈ xs, x.id ≠ f.id) ∧ q.get f = p.get f)

namespace Parameters

theorem field_eq_some {id : Nat} {f : Param} : field id = some f ↔ id = f.id := by
  constructor
  · intro h
    have hfound := List.find?_some h
    exact (beq_iff_eq.mp hfound).symm
  · rintro rfl
    cases f <;> rfl

theorem field_eq_none {id : Nat} : field id = none ↔ ∀ f : Param, id ≠ f.id := by
  constructor
  · intro h f hid
    rw [field_eq_some.mpr hid] at h
    cases h
  · intro h
    cases hfield : field id with
    | none => rfl
    | some f => exact absurd (field_eq_some.mp hfield) (h f)

theorem id_inj {f g : Param} (h : f.id = g.id) : f = g := by
  have hfield := field_eq_some.mpr h
  rw [field_eq_some.mpr rfl] at hfield
  exact Option.some.inj hfield

theorem ext_get {p q : Parameters} (h : ∀ f, p.get f = q.get f) : p = q := by
  cases p
  cases q
  simp only [Parameters.mk.injEq]
  exact ⟨h .maxIdleTimeout, h .initialMaxData, h .initialMaxStreamDataBidiLoc,
    h .initialMaxStreamDataBidiRem, h .initialMaxStreamDataUni, h .initialMaxStreamsBidi,
    h .initialMaxStreamsUni, h .maxDatagramFrameSize, h .maxRecordSize⟩

end Parameters

open Parameters

/-- What the loop of `parseParameters` does with the entries, in order. -/
inductive Loads : List Nat → Parameters → List Entry → Parameters → Prop where
  | nil {seen : List Nat} {p : Parameters} : Loads seen p [] p
  | unknown {seen : List Nat} {p q : Parameters} {x : Entry} {xs : List Entry}
      (hallowed : prohibitedParam x.id = "") (hnew : x.id ∉ seen)
      (hfield : field x.id = none) (hrest : Loads (x.id :: seen) p xs q) :
      Loads seen p (x :: xs) q
  | known {seen : List Nat} {p q : Parameters} {x : Entry} {xs : List Entry} {f : Param} {v : Nat}
      (hallowed : prohibitedParam x.id = "") (hnew : x.id ∉ seen)
      (hfield : field x.id = some f) (hvalue : Encodes v x.value)
      (hrest : Loads (x.id :: seen) (p.set f v) xs q) : Loads seen p (x :: xs) q

/-- The loop asks each thing of each entry. -/
structure Loadable (seen : List Nat) (xs : List Entry) : Prop where
  allowed : ∀ x ∈ xs, prohibitedParam x.id = ""
  distinct : (xs.map Entry.id).Nodup
  unseen : ∀ x ∈ xs, x.id ∉ seen
  integer : ∀ x ∈ xs, ∀ f : Param, x.id = f.id → ∃ v, Encodes v x.value

namespace Loadable

variable {seen : List Nat} {x : Entry} {xs : List Entry}

theorem cons (hallowed : prohibitedParam x.id = "") (hnew : x.id ∉ seen)
    (hinteger : ∀ f : Param, x.id = f.id → ∃ v, Encodes v x.value)
    (h : Loadable (x.id :: seen) xs) : Loadable seen (x :: xs) where
  allowed y hy := by
    rcases List.mem_cons.mp hy with rfl | hy
    · exact hallowed
    · exact h.allowed y hy
  distinct := by
    rw [List.map_cons, List.nodup_cons]
    refine ⟨?_, h.distinct⟩
    intro hmem
    obtain ⟨y, hy, hid⟩ := List.mem_map.mp hmem
    exact h.unseen y hy (hid ▸ List.mem_cons_self)
  unseen y hy := by
    rcases List.mem_cons.mp hy with rfl | hy
    · exact hnew
    · exact fun hseen => h.unseen y hy (List.mem_cons_of_mem _ hseen)
  integer y hy := by
    rcases List.mem_cons.mp hy with rfl | hy
    · exact hinteger
    · exact h.integer y hy

theorem tail (h : Loadable seen (x :: xs)) : Loadable (x.id :: seen) xs where
  allowed y hy := h.allowed y (List.mem_cons_of_mem x hy)
  distinct := (List.nodup_cons.mp h.distinct).2
  unseen y hy hmem := by
    rcases List.mem_cons.mp hmem with hid | hseen
    · exact (List.nodup_cons.mp h.distinct).1 (List.mem_map.mpr ⟨y, hy, hid⟩)
    · exact h.unseen y (List.mem_cons_of_mem x hy) hseen
  integer y hy := h.integer y (List.mem_cons_of_mem x hy)

end Loadable

namespace Filled

variable {p q : Parameters} {x : Entry} {xs : List Entry}

theorem nil_iff : Filled p [] q ↔ q = p := by
  constructor
  · intro h
    apply ext_get
    intro f
    exact (h f).elim (fun ⟨x, hx, _⟩ => by cases hx) (fun hdefault => hdefault.2)
  · rintro rfl f
    exact Or.inr ⟨(fun x hx => by cases hx), rfl⟩

theorem unknown (hfield : ∀ f : Param, x.id ≠ f.id) :
    Filled p (x :: xs) q ↔ Filled p xs q := by
  unfold Filled
  apply forall_congr'
  intro f
  simp [hfield f]

/-- The entry is the only one of its parameter. -/
theorem known {f : Param} {v : Nat} (hfield : x.id = f.id) (hvalue : Encodes v x.value)
    (honly : ∀ y ∈ xs, y.id ≠ x.id) : Filled p (x :: xs) q ↔ Filled (p.set f v) xs q := by
  unfold Filled
  apply forall_congr'
  intro g
  rw [get_set]
  by_cases hg : g = f
  · subst hg
    have hnone : ∀ y ∈ xs, y.id ≠ g.id := fun y hy => hfield ▸ honly y hy
    constructor
    · rintro (⟨y, hy, hid, hget⟩ | ⟨hno, -⟩)
      · rcases List.mem_cons.mp hy with rfl | hy
        · have heq := hget.value_unique hvalue
          exact Or.inr ⟨hnone, by rw [if_pos rfl, heq]⟩
        · exact absurd hid (hnone y hy)
      · exact absurd hfield (hno x List.mem_cons_self)
    · rintro (⟨y, hy, hid, -⟩ | ⟨-, hget⟩)
      · exact absurd hid (hnone y hy)
      · rw [if_pos rfl] at hget
        exact Or.inl ⟨x, List.mem_cons_self, hfield, hget ▸ hvalue⟩
  · have hother : x.id ≠ g.id := fun hid => hg (id_inj (hid.symm.trans hfield))
    simp [hg, hother]

end Filled

theorem loads_iff {seen : List Nat} {p q : Parameters} {xs : List Entry} :
    Loads seen p xs q ↔ Loadable seen xs ∧ Filled p xs q := by
  constructor
  · intro h
    induction h with
    | nil =>
        exact ⟨⟨(fun x hx => by cases hx), List.nodup_nil, (fun x hx => by cases hx),
          (fun x hx => by cases hx)⟩, Filled.nil_iff.mpr rfl⟩
    | unknown hallowed hnew hfield hrest ih =>
        have hid := field_eq_none.mp hfield
        exact ⟨.cons hallowed hnew (fun f hf => absurd hf (hid f)) ih.1,
          (Filled.unknown hid).mpr ih.2⟩
    | @known seen p q x xs f v hallowed hnew hfield hvalue hrest ih =>
        have hid := field_eq_some.mp hfield
        refine ⟨.cons hallowed hnew (fun g _ => ⟨v, hvalue⟩) ih.1,
          (Filled.known hid hvalue ?_).mpr ih.2⟩
        intro y hy heq
        exact ih.1.unseen y hy (heq ▸ List.mem_cons_self)
  · rintro ⟨hload, hfilled⟩
    induction xs generalizing seen p with
    | nil =>
        rw [Filled.nil_iff.mp hfilled]
        exact .nil
    | cons x xs ih =>
        have hallowed := hload.allowed x List.mem_cons_self
        have hnew := hload.unseen x List.mem_cons_self
        cases hfield : field x.id with
        | none =>
            refine .unknown hallowed hnew hfield (ih hload.tail ?_)
            exact (Filled.unknown (field_eq_none.mp hfield)).mp hfilled
        | some f =>
            have hid := field_eq_some.mp hfield
            obtain ⟨v, hvalue⟩ := hload.integer x List.mem_cons_self f hid
            refine .known hallowed hnew hfield hvalue (ih hload.tail ?_)
            refine (Filled.known hid hvalue ?_).mp hfilled
            intro y hy heq
            exact hload.tail.unseen y hy (heq ▸ List.mem_cons_self)

section Loop

variable [Quicvarint]

/-- A round of the loop that goes on has read an entry. -/
private theorem parseEntries_reads {b : Bytes} {fuel : Nat} {seen : List Nat}
    {p q : Parameters} (hb : b ≠ [])
    (h : parseEntries (fuel + 1) ⟨b, false⟩ seen p = .ok q) :
    ∃ (x : Entry) (id size rest : Bytes), Encodes x.id id ∧ Encodes x.value.length size ∧
      b = id ++ (size ++ (x.value ++ rest)) ∧ prohibitedParam x.id = "" ∧ x.id ∉ seen ∧
      ((field x.id = none ∧ parseEntries fuel ⟨rest, false⟩ (x.id :: seen) p = .ok q) ∨
        ∃ f v, field x.id = some f ∧ Encodes v x.value ∧
          parseEntries fuel ⟨rest, false⟩ (x.id :: seen) (p.set f v) = .ok q) := by
  rw [parseEntries, if_neg hb] at h
  dsimp only at h
  split_ifs at h with hfailed hprohibited hrepeated
  obtain ⟨size, value, rest, hsize, hmid⟩ := readSized_ok (Bool.not_eq_true _ ▸ hfailed)
  obtain ⟨v, id, tail, hid, hread⟩ := Reader.varint_ok (congrArg Reader.failed hmid)
  obtain rfl : b = id ++ tail := congrArg Reader.b hread
  rw [Reader.varint_encodes hid] at hmid
  obtain rfl : tail = size ++ (value ++ rest) := congrArg Reader.b hmid
  simp only [Reader.varint_encodes hid, Reader.varint_encodes hsize,
    Reader.bytes_append] at h hprohibited hrepeated
  refine ⟨⟨v, value⟩, id, size, rest, hid, hsize, rfl, not_not.mp hprohibited, hrepeated, ?_⟩
  cases hfield : field v with
  | none =>
      rw [hfield] at h
      exact Or.inl ⟨rfl, h⟩
  | some f =>
      simp only [hfield] at h
      cases hparse : Quicvarint.parse value with
      | none =>
          rw [hparse] at h
          cases h
      | some found =>
          obtain ⟨n, width⟩ := found
          simp only [hparse] at h
          split_ifs at h with hwidth
          have hsound := Quicvarint.parse_sound _ n width hparse
          rw [not_not.mp hwidth, List.take_length] at hsound
          exact Or.inr ⟨f, n, rfl, hsound, h⟩

/-- A round of the loop over an entry that is accepted. -/
private theorem parseEntries_round {x : Entry} {id size : Bytes} (hid : Encodes x.id id)
    (hsize : Encodes x.value.length size) (hallowed : prohibitedParam x.id = "")
    {seen : List Nat} (hnew : x.id ∉ seen) (fuel : Nat) (rest : Bytes) (p : Parameters) :
    parseEntries (fuel + 1) ⟨id ++ (size ++ (x.value ++ rest)), false⟩ seen p =
      match field x.id with
      | none => parseEntries fuel ⟨rest, false⟩ (x.id :: seen) p
      | some f =>
          match Quicvarint.parse x.value with
          | none => .error (parameterError
              ("transport parameter 0x" ++ hex x.id ++ " is not an integer"))
          | some (v, width) =>
              if width ≠ x.value.length then .error (parameterError
                ("transport parameter 0x" ++ hex x.id ++ " is not an integer"))
              else parseEntries fuel ⟨rest, false⟩ (x.id :: seen) (p.set f v) := by
  have hne : id ++ (size ++ (x.value ++ rest)) ≠ [] := by
    simp [hid.ne_nil]
  rw [parseEntries, if_neg hne]
  rcases hfield : field x.id with _ | f <;>
    rcases hparse : Quicvarint.parse x.value with _ | ⟨v, width⟩ <;>
    simp only [Reader.varint_encodes hid, Reader.varint_encodes hsize, Reader.bytes_append,
      Bool.false_eq_true, if_false, hallowed, ne_eq, not_true_eq_false, if_neg hnew, hfield,
      hparse]

omit [Quicvarint] in
private theorem loads_nil_iff {seen : List Nat} {p q : Parameters} :
    (.ok p : Except Error Parameters) = .ok q ↔ ∃ xs, Splits [] xs ∧ Loads seen p xs q := by
  constructor
  · intro h
    obtain rfl : p = q := Except.ok.inj h
    exact ⟨[], .nil, .nil⟩
  · rintro ⟨xs, hsplits, hloads⟩
    obtain rfl : [] = xs := Splits.nil.unique hsplits
    cases hloads
    rfl

/-- The loop accepts a field exactly if it splits into entries that it loads. -/
theorem parseEntries_iff {b : Bytes} {fuel : Nat} (hfuel : b.length ≤ fuel) {seen : List Nat}
    {p q : Parameters} :
    parseEntries fuel ⟨b, false⟩ seen p = .ok q ↔ ∃ xs, Splits b xs ∧ Loads seen p xs q := by
  induction fuel generalizing b seen p with
  | zero =>
      obtain rfl : b = [] := List.eq_nil_of_length_eq_zero (Nat.le_zero.mp hfuel)
      exact loads_nil_iff
  | succ fuel ih =>
      by_cases hb : b = []
      · subst hb
        exact loads_nil_iff
      · constructor
        · intro h
          obtain ⟨x, id, size, rest, hid, hsize, rfl, hallowed, hnew, hcase⟩ :=
            parseEntries_reads hb h
          have hshort : rest.length ≤ fuel := by
            have hpos := List.length_pos_iff.mpr hid.ne_nil
            simp only [List.length_append] at hfuel
            omega
          rcases hcase with ⟨hfield, hrest⟩ | ⟨f, v, hfield, hvalue, hrest⟩
          · obtain ⟨xs, hsplits, hloads⟩ := (ih hshort).mp hrest
            exact ⟨x :: xs, .cons hid hsize hsplits, .unknown hallowed hnew hfield hloads⟩
          · obtain ⟨xs, hsplits, hloads⟩ := (ih hshort).mp hrest
            exact ⟨x :: xs, .cons hid hsize hsplits, .known hallowed hnew hfield hvalue hloads⟩
        · rintro ⟨xs, hsplits, hloads⟩
          cases hsplits with
          | nil => exact absurd rfl hb
          | @cons x xs id size rest hid hsize hsplits =>
              have hshort : rest.length ≤ fuel := by
                have hpos := List.length_pos_iff.mpr hid.ne_nil
                simp only [List.length_append] at hfuel
                omega
              cases hloads with
              | unknown hallowed hnew hfield hrest =>
                  rw [parseEntries_round hid hsize hallowed hnew, hfield]
                  exact (ih hshort).mpr ⟨xs, hsplits, hrest⟩
              | @known _ _ _ _ _ f v hallowed hnew hfield hvalue hrest =>
                  have hparse := Quicvarint.parse_encodes v x.value [] hvalue
                  rw [List.append_nil] at hparse
                  rw [parseEntries_round hid hsize hallowed hnew, hfield]
                  simp only [hparse, ne_eq, not_true_eq_false, if_false]
                  exact (ih hshort).mpr ⟨xs, hsplits, hrest⟩

end Loop

/-- What holds of the defaults holds of the result if it holds of every entry. -/
theorem Filled.range {p q : Parameters} {xs : List Entry} (hfilled : Filled p xs q)
    (hdistinct : (xs.map Entry.id).Nodup) {f : Param} {R : Nat → Prop} (hdefault : R (p.get f)) :
    R (q.get f) ↔ ∀ x ∈ xs, x.id = f.id → ∀ v, Encodes v x.value → R v := by
  constructor
  · intro hq x hx hid v hv
    rcases hfilled f with ⟨y, hy, hid', hget⟩ | ⟨hnone, -⟩
    · obtain rfl : x = y := List.inj_on_of_nodup_map hdistinct hx hy (hid.trans hid'.symm)
      have hvalue := hv.value_unique hget
      exact hvalue ▸ hq
    · exact absurd hid (hnone x hx)
  · intro hall
    rcases hfilled f with ⟨x, hx, hid, hget⟩ | ⟨-, hget⟩
    · exact hall x hx hid _ hget
    · exact hget ▸ hdefault

theorem Loadable.exists_loads {seen : List Nat} {xs : List Entry} (h : Loadable seen xs)
    (p : Parameters) : ∃ q, Loads seen p xs q := by
  induction xs generalizing seen p with
  | nil => exact ⟨p, .nil⟩
  | cons x xs ih =>
      have hallowed := h.allowed x List.mem_cons_self
      have hnew := h.unseen x List.mem_cons_self
      cases hfield : field x.id with
      | none =>
          obtain ⟨q, hq⟩ := ih h.tail p
          exact ⟨q, .unknown hallowed hnew hfield hq⟩
      | some f =>
          obtain ⟨v, hv⟩ := h.integer x List.mem_cons_self f (field_eq_some.mp hfield)
          obtain ⟨q, hq⟩ := ih h.tail (p.set f v)
          exact ⟨q, .known hallowed hnew hfield hv hq⟩

/-- The checks after the loop are checks of the entries. -/
theorem accepted_iff {xs : List Entry} {q : Parameters} (hfilled : Filled .defaults xs q) :
    Accepted xs ↔ Loadable [] xs ∧ q.initialMaxStreamsBidi ≤ maxStreams ∧
      q.initialMaxStreamsUni ≤ maxStreams ∧ defaultMaxRecordSize ≤ q.maxRecordSize := by
  constructor
  · intro h
    have hbidi := hfilled.range h.distinct (f := .initialMaxStreamsBidi)
      (R := (· ≤ maxStreams)) (by decide)
    have huni := hfilled.range h.distinct (f := .initialMaxStreamsUni)
      (R := (· ≤ maxStreams)) (by decide)
    have hsize := hfilled.range h.distinct (f := .maxRecordSize)
      (R := (defaultMaxRecordSize ≤ ·)) (by decide)
    refine ⟨⟨h.allowed, h.distinct, ?_, h.integer⟩, ?_, ?_, ?_⟩
    · intro x _ hseen
      cases hseen
    · exact hbidi.mpr (fun x hx hid => h.streams x hx (Or.inl hid))
    · exact huni.mpr (fun x hx hid => h.streams x hx (Or.inr hid))
    · exact hsize.mpr (fun x hx hid => h.recordSize x hx hid)
  · rintro ⟨hload, hbidi, huni, hsize⟩
    refine ⟨hload.allowed, hload.distinct, hload.integer, ?_, ?_⟩
    · intro x hx hid
      rcases hid with hid | hid
      · exact (hfilled.range hload.distinct (f := .initialMaxStreamsBidi)
          (R := (· ≤ maxStreams)) (by decide)).mp hbidi x hx hid
      · exact (hfilled.range hload.distinct (f := .initialMaxStreamsUni)
          (R := (· ≤ maxStreams)) (by decide)).mp huni x hx hid
    · exact (hfilled.range hload.distinct (f := .maxRecordSize)
        (R := (defaultMaxRecordSize ≤ ·)) (by decide)).mp hsize

theorem Accepted.perm {xs ys : List Entry} (h : Accepted xs) (hperm : xs.Perm ys) :
    Accepted ys where
  allowed y hy := h.allowed y (hperm.mem_iff.mpr hy)
  distinct := (hperm.map Entry.id).nodup_iff.mp h.distinct
  integer y hy := h.integer y (hperm.mem_iff.mpr hy)
  streams y hy := h.streams y (hperm.mem_iff.mpr hy)
  recordSize y hy := h.recordSize y (hperm.mem_iff.mpr hy)

theorem Filled.perm {p q : Parameters} {xs ys : List Entry} (h : Filled p xs q)
    (hperm : xs.Perm ys) : Filled p ys q := by
  intro f
  rcases h f with ⟨x, hx, hfound⟩ | ⟨hnone, hget⟩
  · exact Or.inl ⟨x, hperm.mem_iff.mp hx, hfound⟩
  · exact Or.inr ⟨fun y hy => hnone y (hperm.mem_iff.mpr hy), hget⟩

section Parse

variable [Quicvarint]

theorem parseParameters_ok {b : Bytes} {p : Parameters} :
    parseParameters b = .ok p ↔
      parseEntries b.length ⟨b, false⟩ [] .defaults = .ok p ∧
        p.initialMaxStreamsBidi ≤ maxStreams ∧ p.initialMaxStreamsUni ≤ maxStreams ∧
        defaultMaxRecordSize ≤ p.maxRecordSize := by
  unfold parseParameters
  change (parseEntries b.length ⟨b, false⟩ [] .defaults).bind _ = _ ↔ _
  cases hentries : parseEntries b.length ⟨b, false⟩ [] .defaults with
  | error e =>
      constructor
      · intro h
        cases h
      · rintro ⟨h, -⟩
        cases h
  | ok q =>
      change (if _ then _ else if _ then _ else _) = _ ↔ _
      split_ifs with hstreams hsize
      · constructor
        · intro h
          cases h
        · rintro ⟨h, hbidi, huni, -⟩
          obtain rfl := Except.ok.inj h
          omega
      · constructor
        · intro h
          cases h
        · rintro ⟨h, -, -, hle⟩
          obtain rfl := Except.ok.inj h
          omega
      · constructor
        · intro h
          obtain rfl : q = p := Except.ok.inj h
          exact ⟨rfl, by omega, by omega, by omega⟩
        · rintro ⟨h, -⟩
          exact h

theorem parseParameters_iff {b : Bytes} {p : Parameters} :
    parseParameters b = .ok p ↔
      ∃ xs, Splits b xs ∧ Accepted xs ∧ Filled .defaults xs p := by
  rw [parseParameters_ok, parseEntries_iff (Nat.le_refl _)]
  constructor
  · rintro ⟨⟨xs, hsplits, hloads⟩, hrange⟩
    obtain ⟨hload, hfilled⟩ := loads_iff.mp hloads
    exact ⟨xs, hsplits, (accepted_iff hfilled).mpr ⟨hload, hrange⟩, hfilled⟩
  · rintro ⟨xs, hsplits, haccepted, hfilled⟩
    obtain ⟨hload, hrange⟩ := (accepted_iff hfilled).mp haccepted
    exact ⟨⟨xs, hsplits, loads_iff.mpr ⟨hload, hfilled⟩⟩, hrange⟩

theorem exists_parseParameters {b : Bytes} :
    (∃ p, parseParameters b = .ok p) ↔ ∃ xs, Splits b xs ∧ Accepted xs := by
  constructor
  · rintro ⟨p, hp⟩
    obtain ⟨xs, hsplits, haccepted, -⟩ := parseParameters_iff.mp hp
    exact ⟨xs, hsplits, haccepted⟩
  · rintro ⟨xs, hsplits, haccepted⟩
    have hload : Loadable [] xs :=
      ⟨haccepted.allowed, haccepted.distinct, (fun x _ h => by cases h), haccepted.integer⟩
    obtain ⟨p, hloads⟩ := hload.exists_loads .defaults
    exact ⟨p, parseParameters_iff.mpr ⟨xs, hsplits, haccepted, (loads_iff.mp hloads).2⟩⟩

private theorem parseEntries_error {fuel : Nat} {r : Reader} {seen : List Nat} {p : Parameters}
    {e : Error} (h : parseEntries fuel r seen p = .error e) : e.code = transportParameterError := by
  induction fuel generalizing r seen p with
  | zero => cases h
  | succ fuel ih =>
      rw [parseEntries] at h
      dsimp only at h
      split_ifs at h
      · cases h
        rfl
      · cases h
        rfl
      · cases h
        rfl
      · split at h
        · exact ih h
        · split at h
          · cases h
            rfl
          · split_ifs at h
            · cases h
              rfl
            · exact ih h

theorem parseParameters_error {b : Bytes} {e : Error} (h : parseParameters b = .error e) :
    e.code = transportParameterError := by
  unfold parseParameters at h
  cases hentries : parseEntries b.length ⟨b, false⟩ []
      { maxRecordSize := defaultMaxRecordSize } with
  | error e' =>
      rw [hentries] at h
      cases h
      exact parseEntries_error hentries
  | ok q =>
      rw [hentries] at h
      change (if _ then _ else if _ then _ else _) = _ at h
      split_ifs at h <;> cases h <;> rfl

/-- The parser of the transport parameters accepts exactly the fields that split
into acceptable entries, reads each known parameter from its entry, and does
not look at the order of the entries. -/
theorem parseParameters_spec :
    (∀ b p, parseParameters b = .ok p ↔
      ∃ xs, Splits b xs ∧ Accepted xs ∧ Filled .defaults xs p) ∧
    (∀ b, (∃ p, parseParameters b = .ok p) ↔ ∃ xs, Splits b xs ∧ Accepted xs) ∧
    (∀ b b' xs xs', Splits b xs → Splits b' xs' → xs.Perm xs' →
      ∀ p, parseParameters b = .ok p ↔ parseParameters b' = .ok p) := by
  refine ⟨fun b p => parseParameters_iff, fun b => exists_parseParameters, ?_⟩
  · have hperm : ∀ b b' xs xs', Splits b xs → Splits b' xs' → xs.Perm xs' →
        ∀ p, parseParameters b = .ok p → parseParameters b' = .ok p := by
      intro b b' xs xs' hsplits hsplits' hperm p hp
      obtain ⟨ys, hys, haccepted, hfilled⟩ := parseParameters_iff.mp hp
      obtain rfl := hsplits.unique hys
      exact parseParameters_iff.mpr
        ⟨xs', hsplits', haccepted.perm hperm, hfilled.perm hperm⟩
    intro b b' xs xs' hsplits hsplits' hxs p
    exact ⟨hperm b b' xs xs' hsplits hsplits' hxs p,
      hperm b' b xs' xs hsplits' hsplits hxs.symm p⟩

end Parse

/-- Two entries in either order, one of them with an identifier of two bytes. -/
theorem parseParameters_spec_swapped :
    ∃ p, parseParameters [4, 1, 7, 0x40, 1, 1, 9] = .ok p ∧
      parseParameters [1, 1, 9, 4, 1, 7] = .ok p := by
  have hbyte {v : Nat} (hv : v < 64) : Encodes v [UInt8.ofNat v] :=
    append_encodes (Quicvarint.append_small v hv)
  have hwide : Encodes 1 [0x40, 1] := ⟨1, by decide, by decide, by decide⟩
  have hfirst : Splits [4, 1, 7, 0x40, 1, 1, 9] [⟨4, [7]⟩, ⟨1, [9]⟩] :=
    .cons (x := ⟨4, [7]⟩) (hbyte (by decide)) (hbyte (v := 1) (by decide))
      (.cons (x := ⟨1, [9]⟩) hwide (hbyte (v := 1) (by decide)) .nil)
  have hsecond : Splits [1, 1, 9, 4, 1, 7] [⟨1, [9]⟩, ⟨4, [7]⟩] :=
    .cons (x := ⟨1, [9]⟩) (hbyte (by decide)) (hbyte (v := 1) (by decide))
      (.cons (x := ⟨4, [7]⟩) (hbyte (by decide)) (hbyte (v := 1) (by decide)) .nil)
  have hparse : parseParameters [4, 1, 7, 0x40, 1, 1, 9] =
      .ok { Parameters.defaults with initialMaxData := 7, maxIdleTimeout := 9 } := by
    decide +kernel
  exact ⟨_, hparse, (parseParameters_spec.2.2 _ _ _ _ hfirst hsecond (.swap _ _ _) _).mp hparse⟩

end Qmux.Wire
