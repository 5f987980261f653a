import Mathlib.Tactic

/-!
One direction of a stream, as the messages about it. Data is sent in segments,
each with its offset, under a limit that the receiver raises. A transfer ends
at most once: with a last segment, or with a reset that says how much was sent.
A reset may wait in a queue while segments are sent at once, and still nothing
overtakes it, since it is the last message of its transfer.
-/

namespace Qmux.Transfer

variable {α : Type*}

inductive Message (α : Type*) where
  | segment (offset : Nat) (data : List α) (fin : Bool)
  | reset (size : Nat)
deriving DecidableEq, Repr

namespace Message

def data : Message α → List α
  | segment _ data _ => data
  | reset _ => []

/-- Where in the data the message stands. -/
def position : Message α → Nat
  | segment offset _ _ => offset
  | reset size => size

def fin : Message α → Bool
  | segment _ _ fin => fin
  | reset _ => false

def isReset : Message α → Bool
  | segment _ _ _ => false
  | reset _ => true

/-- The message ends its transfer. -/
def ends (m : Message α) : Bool :=
  m.fin || m.isReset

end Message

/-- The data of the messages, in order. -/
def payload (messages : List (Message α)) : List α :=
  messages.flatMap Message.data

theorem payload_mono {first second : List (Message α)} (h : first <+: second) :
    payload first <+: payload second := by
  obtain ⟨rest, rfl⟩ := h
  exact ⟨payload rest, List.flatMap_append.symm⟩

theorem payload_append (first second : List (Message α)) :
    payload (first ++ second) = payload first ++ payload second :=
  List.flatMap_append

/-- Every message stands where the data before it ends, and a message that ends
the transfer carries no data and is the last. -/
structure InOrder (messages : List (Message α)) : Prop where
  position : ∀ before m after, messages = before ++ m :: after →
    m.position = (payload before).length
  last : ∀ before m after, messages = before ++ m :: after → m.ends = true →
    m.data = [] ∧ after = []

namespace InOrder

variable {messages more : List (Message α)} {m : Message α}

theorem nil : InOrder ([] : List (Message α)) :=
  ⟨fun before m after h => by simp at h, fun before m after h => by simp at h⟩

theorem of_append (h : InOrder (messages ++ more)) : InOrder messages := by
  constructor
  · rintro before m after rfl
    exact h.position before m (after ++ more) (by simp)
  · rintro before m after rfl hends
    obtain ⟨hdata, hafter⟩ := h.last before m (after ++ more) (by simp) hends
    exact ⟨hdata, (List.append_eq_nil_iff.mp hafter).1⟩

/-- Nothing follows the end. -/
theorem ended (h : InOrder (messages ++ more)) (hends : ∃ x ∈ messages, x.ends = true) :
    more = [] := by
  obtain ⟨x, hx, hends⟩ := hends
  obtain ⟨before, after, rfl⟩ := List.append_of_mem hx
  have hlast := (h.last before x (after ++ more) (by simp) hends).2
  exact (List.append_eq_nil_iff.mp hlast).2

/-- Messages up to the end are all there are. -/
theorem all_of_ended (h : InOrder more) (hstart : messages <+: more)
    (hends : ∃ x ∈ messages, x.ends = true) : more = messages := by
  obtain ⟨rest, rfl⟩ := hstart
  rw [h.ended hends, List.append_nil]

/-- There is one end. -/
theorem end_unique (h : InOrder messages) {x : Message α} (hm : m ∈ messages)
    (hends : m.ends = true) (hx : x ∈ messages) (hxends : x.ends = true) : x = m := by
  obtain ⟨before, after, rfl⟩ := List.append_of_mem hm
  obtain rfl := (h.last before m after rfl hends).2
  rcases List.mem_append.mp hx with hbefore | hlast
  · cases h.ended ⟨x, hbefore, hxends⟩
  · exact List.mem_singleton.mp hlast

/-- Nothing has ended before a further message. -/
theorem not_ended (h : InOrder (messages ++ m :: more)) : ∀ x ∈ messages, x.ends = false := by
  intro x hx
  by_contra hends
  cases h.ended ⟨x, hx, by simpa using hends⟩

theorem snoc (h : InOrder messages) (hopen : ∀ x ∈ messages, x.ends = false)
    (hposition : m.position = (payload messages).length)
    (hdata : m.ends = true → m.data = []) : InOrder (messages ++ [m]) := by
  constructor
  · intro before x after hsplit
    rcases List.append_eq_append_iff.mp hsplit with ⟨mid, rfl, hmid⟩ | ⟨mid, rfl, hmid⟩
    · cases mid with
      | nil =>
          obtain ⟨rfl, -⟩ := List.cons.inj hmid
          rw [List.append_nil]
          exact hposition
      | cons y mid => simp at hmid
    · cases mid with
      | nil =>
          obtain ⟨rfl, -⟩ := List.cons.inj hmid
          rw [List.append_nil] at hposition
          exact hposition
      | cons y mid =>
          obtain ⟨rfl, -⟩ := List.cons.inj hmid
          exact h.position before x mid rfl
  · intro before x after hsplit hends
    rcases List.append_eq_append_iff.mp hsplit with ⟨mid, rfl, hmid⟩ | ⟨mid, rfl, hmid⟩
    · cases mid with
      | nil =>
          obtain ⟨rfl, rfl⟩ := List.cons.inj hmid
          exact ⟨hdata hends, rfl⟩
      | cons y mid => simp at hmid
    · cases mid with
      | nil =>
          obtain ⟨rfl, rfl⟩ := List.cons.inj hmid
          exact ⟨hdata hends, rfl⟩
      | cons y mid =>
          obtain ⟨rfl, -⟩ := List.cons.inj hmid
          have hnever := hopen x (by simp)
          rw [hnever] at hends
          cases hends

end InOrder

/-- The sending side: how much was sent, how much may be sent, and whether it has
ended, in one way or the other. -/
structure Sender where
  offset : Nat
  limit : Nat
  fin : Bool
  reset : Bool

namespace Sender

/-- What can happen on the sending side. `raised` are the limits the receiver has
given, `handed` is sent at once, and `queued` is put at the end of the queue. -/
inductive Step (raised : Nat → Prop) (s : Sender) :
    List (Message α) → List (Message α) → Sender → Prop where
  | still : Step raised s [] [] s
  | raise {limit : Nat} (hraised : raised limit) (hlt : s.limit < limit) :
      Step raised s [] [] { s with limit := limit }
  | segment {data : List α} (hfin : s.fin = false) (hreset : s.reset = false)
      (hcredit : s.offset + data.length ≤ s.limit) :
      Step raised s [.segment s.offset data false] []
        { s with offset := s.offset + data.length }
  | fin (hfin : s.fin = false) (hreset : s.reset = false) :
      Step raised s [.segment s.offset [] true] [] { s with fin := true }
  | reset (hfin : s.fin = false) (hreset : s.reset = false) :
      Step raised s [] [.reset s.offset] { s with reset := true }

/-- What was sent, and what is queued, in the order it will have been sent. -/
structure Sent (s : Sender) (messages : List (Message α)) : Prop where
  inOrder : InOrder messages
  offset : s.offset = (payload messages).length
  fin : s.fin = true ↔ ∃ m ∈ messages, m.fin = true
  reset : s.reset = true ↔ ∃ m ∈ messages, m.isReset = true
  credit : s.offset ≤ s.limit

variable {s s' : Sender} {messages queue handed queued : List (Message α)} {raised : Nat → Prop}

theorem sent_start (limit : Nat) : Sent ⟨0, limit, false, false⟩ ([] : List (Message α)) :=
  ⟨.nil, rfl, by simp, by simp, Nat.zero_le _⟩

theorem Sent.open_iff (h : s.Sent messages) :
    (s.fin = false ∧ s.reset = false) ↔ ∀ m ∈ messages, m.ends = false := by
  have hfin := h.fin
  have hreset := h.reset
  constructor
  · rintro ⟨hnotFin, hnotReset⟩ m hm
    unfold Message.ends
    simp only [Bool.or_eq_false_iff]
    constructor
    · by_contra hcase
      rw [hfin.mpr ⟨m, hm, by simpa using hcase⟩] at hnotFin
      cases hnotFin
    · by_contra hcase
      rw [hreset.mpr ⟨m, hm, by simpa using hcase⟩] at hnotReset
      cases hnotReset
  · intro hopen
    unfold Message.ends at hopen
    simp only [Bool.or_eq_false_iff] at hopen
    constructor
    · by_contra hcase
      obtain ⟨m, hm, hends⟩ := hfin.mp (by simpa using hcase)
      rw [(hopen m hm).1] at hends
      cases hends
    · by_contra hcase
      obtain ⟨m, hm, hends⟩ := hreset.mp (by simpa using hcase)
      rw [(hopen m hm).2] at hends
      cases hends

/-- While the transfer goes on no reset is queued. -/
theorem Sent.queue_nil (h : s.Sent (messages ++ queue)) (hfin : s.fin = false)
    (hreset : s.reset = false) (hqueue : ∀ m ∈ queue, m.isReset = true) : queue = [] := by
  have hopen := h.open_iff.mp ⟨hfin, hreset⟩
  refine List.eq_nil_iff_forall_not_mem.mpr (fun m hm => ?_)
  have hends := hopen m (List.mem_append_right _ hm)
  unfold Message.ends at hends
  rw [hqueue m hm, Bool.or_true] at hends
  cases hends

/-- One more message is sent. -/
theorem Sent.snoc (h : s.Sent messages) {m : Message α} (hfin : s.fin = false)
    (hreset : s.reset = false) (hposition : m.position = s.offset)
    (hdata : m.ends = true → m.data = [])
    (hoffset : s'.offset = s.offset + m.data.length) (hcredit : s'.offset ≤ s'.limit)
    (hfin' : s'.fin = m.fin) (hreset' : s'.reset = m.isReset) :
    s'.Sent (messages ++ [m]) := by
  have hopen := h.open_iff.mp ⟨hfin, hreset⟩
  have hnone {x : Message α} (hx : x ∈ messages) : x.fin = false ∧ x.isReset = false := by
    have hends := hopen x hx
    unfold Message.ends at hends
    exact Bool.or_eq_false_iff.mp hends
  refine ⟨h.inOrder.snoc hopen (hposition.trans h.offset) hdata, ?_, ?_, ?_, hcredit⟩
  · rw [hoffset, h.offset, payload_append, List.length_append]
    simp [payload]
  · rw [hfin']
    constructor
    · exact fun hm => ⟨m, by simp, hm⟩
    · rintro ⟨x, hx, hxfin⟩
      rcases List.mem_append.mp hx with hx | hx
      · rw [(hnone hx).1] at hxfin
        cases hxfin
      · rw [List.mem_singleton.mp hx] at hxfin
        exact hxfin
  · rw [hreset']
    constructor
    · exact fun hm => ⟨m, by simp, hm⟩
    · rintro ⟨x, hx, hxreset⟩
      rcases List.mem_append.mp hx with hx | hx
      · rw [(hnone hx).2] at hxreset
        cases hxreset
      · rw [List.mem_singleton.mp hx] at hxreset
        exact hxreset

/-- A step keeps the messages in order, those in the queue included. -/
theorem Sent.step (h : s.Sent (messages ++ queue)) (hqueue : ∀ m ∈ queue, m.isReset = true)
    (hstep : s.Step raised handed queued s') :
    s'.Sent (messages ++ (handed ++ queue ++ queued)) := by
  cases hstep with
  | still =>
      rw [List.nil_append, List.append_nil]
      exact h
  | raise _ hlt =>
      rw [List.nil_append, List.append_nil]
      exact ⟨h.inOrder, h.offset, h.fin, h.reset, h.credit.trans (Nat.le_of_lt hlt)⟩
  | segment hfin hreset hcredit =>
      obtain rfl := h.queue_nil hfin hreset hqueue
      rw [List.append_nil] at h
      rw [List.append_nil, List.append_nil]
      exact h.snoc hfin hreset rfl (fun hends => by cases hends) rfl hcredit hfin hreset
  | fin hfin hreset =>
      obtain rfl := h.queue_nil hfin hreset hqueue
      rw [List.append_nil] at h
      rw [List.append_nil, List.append_nil]
      exact h.snoc hfin hreset rfl (fun _ => rfl) rfl h.credit rfl hreset
  | reset hfin hreset =>
      rw [List.nil_append, ← List.append_assoc]
      exact h.snoc hfin hreset rfl (fun _ => rfl) rfl h.credit hfin rfl

end Sender

/-- The receiving side: how much was received, whether the transfer has ended, what
was read so far, what is there to read, and whether it was dropped. -/
structure Receiver (α : Type*) where
  offset : Nat
  fin : Bool
  reset : Bool
  read : List α
  buffer : List α
  dropped : Bool

namespace Receiver

/-- What can happen on the receiving side, with the messages it takes. -/
inductive Step (v : Receiver α) : List (Message α) → Receiver α → Prop where
  | still : Step v [] v
  | segment {data : List α} {fin : Bool} (hfin : v.fin = false) :
      Step v [.segment v.offset data fin]
        { v with
          offset := v.offset + data.length
          fin := fin
          buffer := if v.dropped then v.buffer else v.buffer ++ data }
  | reset {size : Nat} :
      Step v [.reset size]
        { v with offset := size, reset := true, buffer := [], dropped := true }
  | read {n : Nat} (hkept : v.dropped = false) :
      Step v [] { v with read := v.read ++ v.buffer.take n, buffer := v.buffer.drop n }
  | drop : Step v [] { v with buffer := [], dropped := true }

/-- What was taken of messages that came in order. -/
structure Received (v : Receiver α) (messages : List (Message α)) : Prop where
  offset : v.offset = (payload messages).length
  fin : v.fin = true ↔ ∃ m ∈ messages, m.fin = true
  reset : v.reset = true ↔ ∃ m ∈ messages, m.isReset = true
  read : v.read <+: payload messages
  buffer : v.dropped = false → v.read ++ v.buffer = payload messages

variable {v v' : Receiver α} {messages taken : List (Message α)}

theorem received_start : Received (⟨0, false, false, [], [], false⟩ : Receiver α) [] :=
  ⟨rfl, by simp, by simp, List.prefix_rfl, fun _ => rfl⟩

/-- The transfer has ended exactly if its last message was taken. -/
theorem Received.ended_iff (h : v.Received messages) :
    v.fin = true ∨ v.reset = true ↔ ∃ m ∈ messages, m.ends = true := by
  rw [h.fin, h.reset]
  constructor
  · rintro (⟨m, hm, hends⟩ | ⟨m, hm, hends⟩)
    · exact ⟨m, hm, by simp [Message.ends, hends]⟩
    · exact ⟨m, hm, by simp [Message.ends, hends]⟩
  · rintro ⟨m, hm, hends⟩
    rcases Bool.or_eq_true_iff.mp hends with hends | hends
    · exact Or.inl ⟨m, hm, hends⟩
    · exact Or.inr ⟨m, hm, hends⟩

/-- A step that takes no message and reads nothing. -/
theorem Received.kept (h : v.Received messages) (hoffset : v'.offset = v.offset)
    (hfin : v'.fin = v.fin) (hreset : v'.reset = v.reset) (hread : v'.read <+: payload messages)
    (hbuffer : v'.dropped = false → v'.read ++ v'.buffer = payload messages) :
    v'.Received messages :=
  ⟨hoffset.trans h.offset, hfin ▸ h.fin, hreset ▸ h.reset, hread, hbuffer⟩

/-- What was taken stays the payload of the messages, as long as they are in
order. -/
theorem Received.step (h : v.Received messages) (hstep : v.Step taken v')
    (horder : InOrder (messages ++ taken)) : v'.Received (messages ++ taken) := by
  cases hstep with
  | still =>
      rw [List.append_nil]
      exact h
  | @segment data fin hfin =>
      have hnone := horder.not_ended
      have hpayload : payload (messages ++ [.segment v.offset data fin]) =
          payload messages ++ data := by
        rw [payload_append]
        simp [payload, Message.data]
      have hopen (m : Message α) (hm : m ∈ messages) : m.fin = false :=
        (Bool.or_eq_false_iff.mp (hnone m hm)).1
      constructor
      · rw [hpayload, List.length_append, ← h.offset]
      · constructor
        · exact fun hlast => ⟨_, List.mem_append_right _ (List.mem_singleton_self _), hlast⟩
        · rintro ⟨m, hm, hlast⟩
          rcases List.mem_append.mp hm with hm | hm
          · rw [hopen m hm] at hlast
            cases hlast
          · rw [List.mem_singleton.mp hm] at hlast
            exact hlast
      · refine h.reset.trans ⟨fun ⟨m, hm, hends⟩ => ⟨m, List.mem_append_left _ hm, hends⟩, ?_⟩
        rintro ⟨m, hm, hends⟩
        rcases List.mem_append.mp hm with hm | hm
        · exact ⟨m, hm, hends⟩
        · rw [List.mem_singleton.mp hm] at hends
          cases hends
      · rw [hpayload]
        exact h.read.trans (List.prefix_append _ _)
      · intro hdropped
        have hkept : v.dropped = false := hdropped
        simp only [hkept, Bool.false_eq_true, if_false]
        rw [hpayload, ← List.append_assoc, h.buffer hkept]
  | @reset size =>
      have hsize : size = (payload messages).length := horder.position messages _ [] rfl
      have hpayload : payload (messages ++ [.reset size]) = payload messages := by
        rw [payload_append]
        simp [payload, Message.data]
      constructor
      · rw [hpayload]
        exact hsize
      · refine h.fin.trans ⟨fun ⟨m, hm, hends⟩ => ⟨m, List.mem_append_left _ hm, hends⟩, ?_⟩
        rintro ⟨m, hm, hends⟩
        rcases List.mem_append.mp hm with hm | hm
        · exact ⟨m, hm, hends⟩
        · rw [List.mem_singleton.mp hm] at hends
          cases hends
      · exact ⟨fun _ => ⟨_, List.mem_append_right _ (List.mem_singleton_self _), rfl⟩,
          fun _ => rfl⟩
      · rw [hpayload]
        exact h.read
      · intro hdropped
        cases hdropped
  | @read n hkept =>
      rw [List.append_nil]
      have hall : v.read ++ v.buffer.take n ++ v.buffer.drop n = payload messages := by
        rw [List.append_assoc, List.take_append_drop, h.buffer hkept]
      exact h.kept rfl rfl rfl (hall ▸ List.prefix_append _ _) (fun _ => hall)
  | drop =>
      rw [List.append_nil]
      exact h.kept rfl rfl rfl h.read (fun hdropped => by cases hdropped)

end Receiver

end Qmux.Transfer
