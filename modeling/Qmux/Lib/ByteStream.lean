import Mathlib.Tactic

/-!
Byte streams that arrive in pieces. A source hands out what it carries in
pieces of any length, up to the size of the buffer it is given, and then fails.
A buffered reader over it reads single elements, blocks of a given length, or
skips them; what these return depends on what the source carries and not on the
pieces.

The operations are those of `bufio.Reader`, `io.ReadFull` and `io.CopyN` to
`io.Discard`.
-/

namespace Qmux.ByteStream

/-- Why a read fails. -/
inductive ReadFailure where
  | eof
  | unexpectedEOF
  | other (cause : String)
deriving DecidableEq, Repr

/-- A source of elements: a read into a buffer of some size returns elements or
fails. A failure that comes along with the last elements is the result of the
read after them. -/
class Source (α : outParam Type) (σ : Type) where
  read : σ → Nat → Except ReadFailure (List α) × σ

section Each

variable {α ρ : Type} (readOne : ρ → Except ReadFailure α × ρ)

/-- Reads of one element after the other return `b` and leave the second reader. -/
inductive Yields : ρ → List α → ρ → Prop where
  | done {r : ρ} : Yields r [] r
  | more {r mid last : ρ} {x : α} {b : List α} (hread : readOne r = (.ok x, mid))
      (hrest : Yields mid b last) : Yields r (x :: b) last

/-- Reads `n` elements one at a time. -/
def readEach : Nat → ρ → Except ReadFailure (List α) × ρ
  | 0, r => (.ok [], r)
  | n + 1, r =>
      match readOne r with
      | (.error e, r) => (.error e, r)
      | (.ok x, r) =>
          match readEach n r with
          | (.error e, r) => (.error e, r)
          | (.ok rest, r) => (.ok (x :: rest), r)

variable {readOne} {r last : ρ} {b : List α}

theorem readEach_ok (h : Yields readOne r b last) :
    readEach readOne b.length r = (.ok b, last) := by
  induction h with
  | done => rfl
  | more hread _ ih => simp only [readEach, List.length_cons, hread, ih]

theorem readEach_error {err : ReadFailure} (h : Yields readOne r b last)
    (hfails : (readOne last).1 = .error err) {n : Nat} (hn : b.length < n) :
    (readEach readOne n r).1 = .error err := by
  induction h generalizing n with
  | @done r =>
      obtain ⟨n, rfl⟩ := Nat.exists_eq_succ_of_ne_zero (Nat.ne_of_gt hn)
      unfold readEach
      rcases hresult : readOne r with ⟨result, next⟩
      rw [hresult] at hfails
      obtain rfl : result = .error err := hfails
      rfl
  | @more r mid last x b hread _ ih =>
      obtain ⟨n, rfl⟩ := Nat.exists_eq_succ_of_ne_zero (Nat.ne_zero_of_lt hn)
      have hmore := ih hfails (Nat.lt_of_succ_lt_succ hn)
      unfold readEach
      rw [hread]
      rcases hresult : readEach readOne n mid with ⟨result, next⟩
      rw [hresult] at hmore
      obtain rfl : result = .error err := hmore
      simp only [hresult]

end Each

variable {α σ : Type} [Source α σ] {err : ReadFailure}

/-- The source hands out `b`, in any pieces, and then fails with `err`. -/
inductive Carries (err : ReadFailure) : σ → List α → Prop where
  | ended {s : σ} (hread : ∀ size, 0 < size → (Source.read s size).1 = .error err) :
      Carries err s []
  | more {s : σ} {b : List α} (piece rest : Nat → List α) (next : Nat → σ)
      (hread : ∀ size, 0 < size → Source.read s size = (.ok (piece size), next size))
      (hne : ∀ size, 0 < size → piece size ≠ [])
      (hfits : ∀ size, 0 < size → (piece size).length ≤ size)
      (hsplit : ∀ size, 0 < size → b = piece size ++ rest size)
      (hrest : ∀ size, 0 < size → Carries err (next size) (rest size)) : Carries err s b

/-- What a read of a source that carries `b` returns. -/
theorem Carries.read {s : σ} {b : List α} (h : Carries err s b) {size : Nat} (hsize : 0 < size) :
    (b = [] ∧ (Source.read s size).1 = .error err) ∨
      ∃ piece rest next, Source.read s size = (.ok piece, next) ∧ piece ≠ [] ∧
        piece.length ≤ size ∧ b = piece ++ rest ∧ Carries err next rest := by
  cases h with
  | ended hread => exact Or.inl ⟨rfl, hread size hsize⟩
  | more piece rest next hread hne hfits hsplit hrest =>
      exact Or.inr ⟨piece size, rest size, next size, hread size hsize, hne size hsize,
        hfits size hsize, hsplit size hsize, hrest size hsize⟩

/-- What a source carries, and how it then fails, is up to the source. -/
theorem Carries.unique {err' : ReadFailure} {s : σ} {b b' : List α} (h : Carries err s b)
    (h' : Carries err' s b') : b = b' ∧ err = err' := by
  induction h generalizing b' with
  | @ended s hread =>
      have hfails := hread 1 Nat.one_pos
      rcases h'.read Nat.one_pos with ⟨rfl, hread'⟩ | ⟨piece, rest, next, hread', -⟩
      · exact ⟨rfl, Except.error.inj (hfails.symm.trans hread')⟩
      · rw [hread'] at hfails
        cases hfails
  | @more s b piece rest next hread hne hfits hsplit hrest ih =>
      have hone := hread 1 Nat.one_pos
      rcases h'.read Nat.one_pos with ⟨-, hread'⟩ | ⟨piece', rest', next', hread', -, -, rfl, hmore⟩
      · rw [hone] at hread'
        cases hread'
      · obtain ⟨hpiece, rfl⟩ := Prod.mk.inj (hone.symm.trans hread')
        obtain ⟨hrest', rfl⟩ := ih 1 Nat.one_pos hmore
        rw [hsplit 1 Nat.one_pos, Except.ok.inj hpiece, hrest']
        exact ⟨rfl, rfl⟩

/-- A reader with a buffer. -/
structure Buffered (α σ : Type) where
  pending : List α := []
  source : σ

def bufferSize : Nat := 4096

/-- The blocks in which elements are skipped. -/
def skipSize : Nat := 8192

namespace Buffered

def readOne (r : Buffered α σ) : Except ReadFailure α × Buffered α σ :=
  match r.pending with
  | x :: rest => (.ok x, { r with pending := rest })
  | [] =>
      match Source.read r.source bufferSize with
      | (.ok (x :: rest), s) => (.ok x, ⟨rest, s⟩)
      | (.ok [], s) => (.error (.other "multiple Read calls return no data or error"), ⟨[], s⟩)
      | (.error e, s) => (.error e, ⟨[], s⟩)

/-- A read into a buffer of `size`. A large one bypasses the reader's own
buffer when that is empty. -/
def read (r : Buffered α σ) (size : Nat) : Except ReadFailure (List α) × Buffered α σ :=
  match r.pending with
  | x :: rest => (.ok ((x :: rest).take size), { r with pending := (x :: rest).drop size })
  | [] =>
      if bufferSize ≤ size then
        match Source.read r.source size with
        | (result, s) => (result, ⟨[], s⟩)
      else
        match Source.read r.source bufferSize with
        | (.ok piece, s) => (.ok (piece.take size), ⟨piece.drop size, s⟩)
        | (.error e, s) => (.error e, ⟨[], s⟩)

/-- Reads until there are `left` more elements, at most `block` at a time. Each
read that does not fail returns an element at least, so `left` is enough
fuel. -/
def collect (block : Nat) : Nat → Buffered α σ → Nat → List α × Option ReadFailure × Buffered α σ
  | 0, r, _ => ([], none, r)
  | fuel + 1, r, left =>
      if left = 0 then ([], none, r)
      else
        match r.read (min left block) with
        | (.error e, r) => ([], some e, r)
        | (.ok piece, r) =>
            let (more, e, r) := collect block fuel r (left - piece.length)
            (piece ++ more, e, r)

/-- Reads `n` elements. Running out after some of them is unexpected. -/
def readFull (r : Buffered α σ) (n : Nat) : List α × Option ReadFailure × Buffered α σ :=
  match collect n n r n with
  | (p, some .eof, r) => (p, some (if p.isEmpty then .eof else .unexpectedEOF), r)
  | result => result

/-- Skips `n` elements. -/
def skip (r : Buffered α σ) (n : Nat) : Option ReadFailure × Buffered α σ :=
  (collect skipSize n r n).2

/-- `b` is left to read, and then `err`. -/
def Holds (err : ReadFailure) (r : Buffered α σ) (b : List α) : Prop :=
  ∃ rest, b = r.pending ++ rest ∧ Carries err r.source rest

variable {r : Buffered α σ} {b : List α}

theorem holds_start {s : σ} (h : Carries err s b) : Holds err ⟨[], s⟩ b :=
  ⟨b, rfl, h⟩

theorem readOne_nil (h : Holds err r []) : (r.readOne).1 = .error err := by
  obtain ⟨rest, hnil, hcarries⟩ := h
  obtain ⟨hpending, rfl⟩ := List.append_eq_nil_iff.mp hnil.symm
  have hsize : 0 < bufferSize := by decide
  rcases hcarries.read hsize with ⟨-, hread⟩ | ⟨piece, rest, next, -, hne, -, hsplit, -⟩
  · unfold readOne
    rw [hpending]
    rcases hresult : Source.read r.source bufferSize with ⟨result, s⟩
    rw [hresult] at hread
    obtain rfl : result = .error err := hread
    rfl
  · exact absurd (List.append_eq_nil_iff.mp hsplit.symm).1 hne

theorem readOne_cons {x : α} (h : Holds err r (x :: b)) :
    ∃ next, r.readOne = (.ok x, next) ∧ Holds err next b := by
  obtain ⟨rest, hsplit, hcarries⟩ := h
  unfold readOne
  cases hpending : r.pending with
  | cons y pending =>
      rw [hpending, List.cons_append] at hsplit
      obtain ⟨rfl, rfl⟩ := List.cons.inj hsplit
      exact ⟨_, rfl, rest, rfl, hcarries⟩
  | nil =>
      obtain rfl : x :: b = rest := by
        rw [hsplit, hpending, List.nil_append]
      have hsize : 0 < bufferSize := by decide
      rcases hcarries.read hsize with ⟨hnil, -⟩ | ⟨piece, rest, next, hread, hne, -, hsplit, hrest⟩
      · cases hnil
      · rw [hread]
        cases piece with
        | nil => exact absurd rfl hne
        | cons y piece =>
            obtain ⟨rfl, rfl⟩ := List.cons.inj hsplit
            exact ⟨_, rfl, rest, rfl, hrest⟩

/-- One element after the other is read of what is left. -/
theorem yields : ∀ {r : Buffered α σ} {b rest : List α}, Holds err r (b ++ rest) →
    ∃ last, Yields readOne r b last ∧ Holds err last rest := by
  intro r b rest h
  induction b generalizing r with
  | nil => exact ⟨r, .done, h⟩
  | cons x b ih =>
      obtain ⟨next, hone, hnext⟩ := readOne_cons h
      obtain ⟨last, hmore, hlast⟩ := ih hnext
      exact ⟨last, .more hone hmore, hlast⟩

/-- What a read returns: the next elements, and some of them while any are
left. -/
theorem read_spec (h : Holds err r b) {size : Nat} (hsize : 0 < size) :
    (b = [] ∧ (r.read size).1 = .error err) ∨
      ∃ piece rest next, r.read size = (.ok piece, next) ∧ piece ≠ [] ∧
        piece.length ≤ size ∧ b = piece ++ rest ∧ Holds err next rest := by
  obtain ⟨rest, hsplit, hcarries⟩ := h
  unfold read
  cases hpending : r.pending with
  | cons x pending =>
      rw [hpending] at hsplit
      apply Or.inr
      refine ⟨_, (x :: pending).drop size ++ rest, _, rfl, ?_, List.length_take_le _ _, ?_,
        rest, rfl, hcarries⟩
      · intro hnil
        rcases List.take_eq_nil_iff.mp hnil with hzero | hempty
        · omega
        · cases hempty
      · rw [← List.append_assoc, List.take_append_drop, hsplit]
  | nil =>
      obtain rfl : b = rest := by
        rw [hsplit, hpending, List.nil_append]
      split_ifs with hlarge
      · rcases hcarries.read hsize with ⟨hnil, hread⟩ | ⟨piece, rest, next, hread, hne, hfits, hb, hrest⟩
        · exact Or.inl ⟨hnil, hread⟩
        · rw [hread]
          exact Or.inr ⟨piece, rest, _, rfl, hne, hfits, hb, holds_start hrest⟩
      · have hbuffer : 0 < bufferSize := by decide
        rcases hcarries.read hbuffer with ⟨hnil, hread⟩ | ⟨piece, rest, next, hread, hne, -, hb, hrest⟩
        · apply Or.inl
          rcases hresult : Source.read r.source bufferSize with ⟨result, s⟩
          rw [hresult] at hread
          obtain rfl : result = .error err := hread
          exact ⟨hnil, rfl⟩
        · rw [hread]
          apply Or.inr
          refine ⟨piece.take size, piece.drop size ++ rest, _, rfl, ?_, List.length_take_le _ _, ?_,
            rest, rfl, hrest⟩
          · intro hnil
            rcases List.take_eq_nil_iff.mp hnil with hzero | hempty
            · omega
            · exact hne hempty
          · rw [← List.append_assoc, List.take_append_drop, hb]

/-- A loop that reads `left` elements gets the next `left`, or all there are
and the failure behind them. -/
theorem collect_spec {block : Nat} (hblock : 0 < block) (fuel : Nat) :
    ∀ {r : Buffered α σ} {b : List α} {left : Nat}, Holds err r b → left ≤ fuel →
      (left ≤ b.length → ∃ next, collect block fuel r left = (b.take left, none, next) ∧
        Holds err next (b.drop left)) ∧
      (b.length < left → ∃ next, collect block fuel r left = (b, some err, next)) := by
  induction fuel with
  | zero =>
      intro r b left h hfuel
      obtain rfl : left = 0 := by omega
      exact ⟨fun _ => ⟨r, rfl, h⟩, nofun⟩
  | succ fuel ih =>
      intro r b left h hfuel
      by_cases hleft : left = 0
      · subst hleft
        exact ⟨fun _ => ⟨r, rfl, h⟩, nofun⟩
      unfold collect
      rw [if_neg hleft]
      rcases read_spec h (show 0 < min left block by omega) with
        ⟨rfl, hread⟩ | ⟨piece, rest, next, hread, hne, hfits, rfl, hrest⟩
      · constructor
        · intro hlong
          rw [List.length_nil] at hlong
          omega
        · intro _
          rcases hresult : r.read (min left block) with ⟨result, s⟩
          rw [hresult] at hread
          obtain rfl : result = .error err := hread
          exact ⟨s, rfl⟩
      · have hpos := List.length_pos_iff.mpr hne
        have hstep := @ih next rest (left - piece.length) hrest (by omega)
        rw [hread, List.length_append]
        constructor
        · intro hlong
          obtain ⟨last, hmore, hholds⟩ := hstep.1 (by omega)
          refine ⟨last, ?_, ?_⟩
          · simp only [hmore, List.take_append, List.take_of_length_le (show piece.length ≤ left by omega)]
          · rw [List.drop_append, List.drop_of_length_le (show piece.length ≤ left by omega)]
            exact hholds
        · intro hshort
          obtain ⟨last, hmore⟩ := hstep.2 (by omega)
          exact ⟨last, by simp only [hmore]⟩

theorem readFull_ok {n : Nat} (h : Holds err r b) (hn : n ≤ b.length) :
    ∃ next, r.readFull n = (b.take n, none, next) ∧ Holds err next (b.drop n) := by
  obtain rfl | hpos := Nat.eq_zero_or_pos n
  · exact ⟨r, rfl, h⟩
  obtain ⟨next, hcollect, hholds⟩ := (collect_spec hpos n h le_rfl).1 hn
  exact ⟨next, by rw [readFull, hcollect], hholds⟩

theorem readFull_error {n : Nat} (h : Holds err r b) (hn : b.length < n) :
    ∃ p e next, r.readFull n = (p, some e, next) := by
  obtain ⟨next, hcollect⟩ := (collect_spec (show 0 < n by omega) n h le_rfl).2 hn
  rw [readFull, hcollect]
  split <;> exact ⟨_, _, _, rfl⟩

theorem skip_ok {n : Nat} (h : Holds err r b) (hn : n ≤ b.length) :
    ∃ next, r.skip n = (none, next) ∧ Holds err next (b.drop n) := by
  obtain ⟨next, hcollect, hholds⟩ := (collect_spec (by decide : 0 < skipSize) n h le_rfl).1 hn
  exact ⟨next, by rw [skip, hcollect], hholds⟩

theorem skip_error {n : Nat} (h : Holds err r b) (hn : b.length < n) :
    ∃ next, r.skip n = (some err, next) := by
  obtain ⟨next, hcollect⟩ := (collect_spec (by decide : 0 < skipSize) n h le_rfl).2 hn
  exact ⟨next, by rw [skip, hcollect]⟩

end Buffered

end Qmux.ByteStream
