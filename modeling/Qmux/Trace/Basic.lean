import Qmux.Conn.Handlers
import Qmux.Endpoint

/-!
Every run of an endpoint is a history of its connection. What the transport
took is the start of the log of everything handed out, and until a write fails
what is left of the log is in the hands of the holder of `writeMu`. So what is
proved of the log of every history holds of the frames on the wire.
-/

namespace Qmux

open Wire

namespace Holder

/-- The frames the holder has left to write. -/
def pending : Holder → List Frame
  | .writing _ records => records.flatten
  | _ => []

/-- The stream the holder is about to send on. -/
def stream? : Holder → Option Ref
  | .chunk r _ => some r
  | .closeSend r => some r
  | _ => none

/-- Where the write loop is while it holds the lock. -/
def loop? : Holder → Option Loop
  | .flush => some .woken
  | .writing .flush _ => some .woken
  | .writing .parameters _ => some .parameters
  | _ => none

theorem loop?_eq {w : Holder} {l : Loop} (h : w.loop? = some l) :
    l = .woken ∨ l = .parameters := by
  unfold loop? at h
  split at h <;> cases h
  · exact Or.inl rfl
  · exact Or.inl rfl
  · exact Or.inr rfl

end Holder

/-- A history that went through the state `c₀`. -/
structure Conn.Past [Quicvarint] [GoAppend] (config : Config) (isServer : Bool) (t₀ : Traffic)
    (c₀ : Conn) (heard : Parsed → Prop) (t : Traffic) (c : Conn) : Prop where
  history : History config isServer heard t c
  since : Since heard t₀ c₀ t c

namespace Conn.Past

variable [Quicvarint] [GoAppend] {config : Config} {isServer : Bool} {t₀ t t' : Traffic}
  {c₀ c c' : Conn} {heard heard' : Parsed → Prop}

theorem move (h : Past config isServer t₀ c₀ heard t c) (hmove : Move heard c t' c') :
    Past config isServer t₀ c₀ heard (t ++ t') c' :=
  ⟨h.history.move hmove, h.since.move hmove⟩

theorem moves (h : Past config isServer t₀ c₀ heard t c) (hmoves : Moves heard c t' c') :
    Past config isServer t₀ c₀ heard (t ++ t') c' :=
  ⟨h.history.moves hmoves, h.since.moves hmoves⟩

theorem terminate (h : Past config isServer t₀ c₀ heard t c) (err : ConnError) :
    Past config isServer t₀ c₀ heard t (c.terminate err).1 :=
  ⟨h.history.terminate err, h.since.terminate err⟩

theorem mono (h : Past config isServer t₀ c₀ heard t c) (hsub : ∀ f, heard f → heard' f) :
    Past config isServer t₀ c₀ heard' t c :=
  ⟨h.history.mono hsub, h.since.mono hsub⟩

end Conn.Past

namespace Endpoint

variable [Quicvarint]

/-- The frames the transport took, in order. -/
def sent (e : Endpoint) : List Frame :=
  e.wire.flatMap Record.frames

/-- No flush will follow: the write loop is in one that cannot be encoded, or
it has ended. -/
def Stuck (e : Endpoint) : Prop :=
  (∃ records, e.writeMu = .writing .flush records ∧
    ∃ frames ∈ records, appendAll frames = none) ∨ e.loop = .failed ∨ e.loop = .ended

/-- What the holder of `writeMu` has checked stays true until it acts. -/
structure Held (e : Endpoint) : Prop where
  stream : ∀ r, e.writeMu.stream? = some r → e.conn.holdsSend r = true
  datagram : ∀ p, e.writeMu = .datagram p →
    e.conn.ready = true ∧ e.conn.datagramLimit ≠ 0 ∧ Datagram.len ⟨p⟩ ≤ e.conn.datagramLimit
  loop : ∀ l, e.writeMu.loop? = some l → e.loop = l
  fresh : e.conn.ready = false → e.conn.peer = {}
  ping : e.conn.nextPing ≤ 2 ^ 62 ∨ e.Stuck

namespace Held

variable {e e' : Endpoint}

theorem carry (h : e.Held) (hext : e.conn.Extends e'.conn)
    (hping : e'.conn.nextPing = e.conn.nextPing) (hmu : e'.writeMu = e.writeMu)
    (hloop : e'.loop = e.loop) : e'.Held where
  stream r hr := hext.holdsSend (h.stream r (hmu ▸ hr))
  datagram p hp := by
    obtain ⟨hready, hlimit, hlen⟩ := h.datagram p (hmu ▸ hp)
    obtain ⟨hready', hpeer⟩ := hext.peer hready
    unfold Conn.datagramLimit at hlimit hlen ⊢
    rw [hpeer]
    exact ⟨hready', hlimit, hlen⟩
  loop l hl := hloop.trans (h.loop l (hmu ▸ hl))
  fresh := hext.fresh h.fresh
  ping := by
    unfold Stuck
    rw [hping, hmu, hloop]
    exact h.ping

/-- The lock changes hands. -/
theorem lock (h : e.Held) (hfree : e.writeMu = .free) {w : Holder} {closer : Closer}
    (hstream : ∀ r, w.stream? = some r → e.conn.holdsSend r = true)
    (hdatagram : ∀ p, w = .datagram p → e.conn.ready = true ∧
      e.conn.datagramLimit ≠ 0 ∧ Datagram.len ⟨p⟩ ≤ e.conn.datagramLimit)
    (hloop : ∀ l, w.loop? = some l → e.loop = l) :
    Held { e with writeMu := w, closer := closer } where
  stream := hstream
  datagram := hdatagram
  loop := hloop
  fresh := h.fresh
  ping := by
    rcases h.ping with hle | ⟨records, hmu, -⟩ | hended
    · exact Or.inl hle
    · simp [hfree] at hmu
    · exact Or.inr (Or.inr hended)

/-- The holder has nothing left to check. -/
theorem settle (h : e.Held) (hext : e.conn.Extends e'.conn)
    (hstream : e'.writeMu.stream? = none) (hdatagram : ∀ p, e'.writeMu ≠ .datagram p)
    (hloop : ∀ l, e'.writeMu.loop? = some l → e'.loop = l)
    (hping : e'.conn.nextPing ≤ 2 ^ 62 ∨ e'.Stuck) : e'.Held where
  stream r hr := by simp [hstream] at hr
  datagram p hp := absurd hp (hdatagram p)
  loop := hloop
  fresh := hext.fresh h.fresh
  ping := hping

end Held

variable [GoAppend]

/-- The frames of the peer a step makes heard. -/
def heardBy : Action → List Parsed
  | .record rec _ => frames rec
  | _ => []

/-- What a step returns to a reader. -/
def readsBy (e : Endpoint) : Action → List (Ref × ReadResult)
  | .call op => e.conn.readsBy op
  | _ => []

/-- The request that the critical section of the holder of `writeMu` sends. -/
def askedBy (e : Endpoint) (now : Time) : List PingEvent :=
  match e.writeMu with
  | .flush => e.conn.askedBy now
  | _ => []

/-- The frames of a record that are accepted. -/
def accepted (e : Endpoint) (rec : Bytes) (now : Time) : List Parsed :=
  if rec.length > e.conn.config.maxRecordSize.toNat then [] else e.conn.accepted rec now

/-- The requests a step sends and the responses it processes. -/
def pingsBy (e : Endpoint) : Action → List PingEvent
  | .enter now => e.askedBy now
  | .record rec now => (e.accepted rec now).flatMap (Parsed.answers now)
  | _ => []

/-- The frames a step hands to the holder of `writeMu`. -/
def handedBy (e : Endpoint) : Action → List Frame
  | .lock job => ((e.step (.lock job)).map (fun e => e.writeMu.pending)).getD []
  | .enter now => ((e.step (.enter now)).map (fun e => e.writeMu.pending)).getD []
  | _ => []

/-- A run has led to `e`, through the connection `c₀` of the past, with the
frames of the peer in `heard` and the traffic `t`. -/
structure Traced (config : Config) (isServer : Bool) (t₀ : Traffic) (c₀ : Conn)
    (heard : List Parsed) (t : Traffic) (e : Endpoint) : Prop where
  past : Conn.Past config isServer t₀ c₀ (· ∈ heard) t e.conn
  took : t.took <+: heard
  reading : e.conn.closeErr = none → e.reader = .reading → t.took = heard
  wire : ∃ rest, t.handed = e.sent ++ rest ∧ (e.failed = false → rest = e.writeMu.pending)
  held : e.Held
  cause : e.conn.cause = e.conn.closeErr
  idle : e.closer = .idle ↔ e.conn.closeErr = none
  unsent : e.closer = .idle ∨ (∃ f, e.closer = .graceful f) →
    ∀ f, .connectionClose f ∉ t.handed
  closing : ∀ records, e.writeMu = .writing .close records → e.closer = .writing
  last : t.handed.Pairwise (fun f _ => ∀ g, f ≠ .connectionClose g)

namespace Traced

variable {config : Config} {isServer : Bool} {t₀ t more : Traffic} {c₀ : Conn}
  {heard heard' : List Parsed} {e e' : Endpoint}

theorem start (config : Config) (isServer : Bool) :
    Traced config isServer
      { handed := [.transportParameters (Conn.new config isServer).localParameters] }
      (Conn.new config isServer) []
      { handed := [.transportParameters (Conn.new config isServer).localParameters] }
      (new config isServer) where
  past := ⟨.start, .start⟩
  took := List.nil_prefix
  reading := fun _ _ => rfl
  wire := ⟨_, rfl, fun _ => rfl⟩
  held :=
    { stream := fun r hr => by cases hr
      datagram := fun p hp => by cases hp
      loop := fun l hl => by cases hl; rfl
      fresh := fun _ => rfl
      ping := Or.inl (Nat.zero_le _) }
  cause := rfl
  idle := ⟨fun _ => rfl, fun _ => rfl⟩
  unsent := fun _ f hf => by simp at hf
  closing := fun records h => by cases h
  last := List.pairwise_singleton _ _

/-- A critical section that hands nothing out. -/
theorem moves (h : Traced config isServer t₀ c₀ heard t e) (hsub : heard ⊆ heard')
    (hmoves : Conn.Moves (· ∈ heard') e.conn more e'.conn) (hhanded : more.handed = [])
    (htook : (t ++ more).took <+: heard')
    (hreading : e'.conn.closeErr = none → e'.reader = .reading → (t ++ more).took = heard')
    (hmu : e'.writeMu = e.writeMu) (hloop : e'.loop = e.loop)
    (hcloser : e'.closer = e.closer) (hfailed : e'.failed = e.failed)
    (hwire : e'.wire = e.wire) : Traced config isServer t₀ c₀ heard' (t ++ more) e' := by
  obtain ⟨hclose, hcause⟩ := hmoves.closeErr
  have hlog : (t ++ more).handed = t.handed := by
    rw [Traffic.append_handed, hhanded, List.append_nil]
  refine ⟨(h.past.mono (fun f hf => hsub hf)).moves hmoves, htook, hreading,
    ?_, ?_, ?_, ?_, ?_, ?_, ?_⟩
  · unfold sent
    rw [hwire, hfailed, hmu, hlog]
    exact h.wire
  · exact h.held.carry hmoves.later (hmoves.nextPing hhanded) hmu hloop
  · rw [hclose, hcause]
    exact h.cause
  · rw [hcloser, hclose]
    exact h.idle
  · rw [hcloser, hlog]
    exact h.unsent
  · rw [hmu, hcloser]
    exact h.closing
  · rw [hlog]
    exact h.last

/-- Only the read loop, or the transport, moves on. -/
theorem aside (h : Traced config isServer t₀ c₀ heard t e) (hconn : e'.conn = e.conn)
    (hreader : e.conn.closeErr = none → e'.reader = .reading → e.reader = .reading)
    (hmu : e'.writeMu = e.writeMu) (hloop : e'.loop = e.loop)
    (hcloser : e'.closer = e.closer) (hfailed : e'.failed = e.failed)
    (hwire : e'.wire = e.wire) : Traced config isServer t₀ c₀ heard t e' := by
  have hmoves : Conn.Moves (· ∈ heard) e.conn {} e'.conn := hconn ▸ .refl
  have hnone : t ++ {} = t := t.append_empty
  refine hnone ▸ h.moves (List.Subset.refl _) hmoves rfl (hnone.symm ▸ h.took) ?_ hmu hloop
    hcloser hfailed hwire
  intro hopen hread
  rw [hconn] at hopen
  rw [hnone]
  exact h.reading hopen (hreader hopen hread)

/-- Any state of a run can be looked back on from later ones. -/
theorem restart (h : Traced config isServer t₀ c₀ heard t e) :
    Traced config isServer t e.conn heard t e :=
  { h with past := ⟨h.past.history, .start⟩ }

/-- `terminate`, in the call that is to do `next` if it ends the connection. -/
theorem terminate (h : Traced config isServer t₀ c₀ heard t e) (err : ConnError)
    (next : Closer) (hnext : next ≠ .idle) :
    Traced config isServer t₀ c₀ heard t
      { e with
        conn := (e.conn.terminate err).1
        closer := if (e.conn.terminate err).2 then next else e.closer } := by
  have hpast := h.past.terminate err
  have hheld : Held { e with conn := (e.conn.terminate err).1 } :=
    h.held.carry (.terminate _ err) (Conn.terminate_nextPing _ err) rfl rfl
  by_cases hclosed : e.conn.closeErr.isSome = true
  · simp only [Conn.terminate, hclosed, if_true]
    exact h
  · have hopen : e.conn.closeErr = none := by simpa using hclosed
    simp only [Conn.terminate, hclosed] at hpast hheld ⊢
    refine ⟨hpast, h.took, (fun hcase => by cases hcase), h.wire,
      hheld.carry (.refl _) rfl rfl rfl, rfl,
      by simp [hnext, Conn.terminated], fun _ => h.unsent (Or.inl (h.idle.mpr hopen)), ?_, h.last⟩
    intro records hmu
    have hwriting := h.closing records hmu
    rw [h.idle.mpr hopen] at hwriting
    cases hwriting

end Traced

end Endpoint

end Qmux
