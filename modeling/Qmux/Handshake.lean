import Qmux.Conn.Ids
import Qmux.Conn.Kept
import Qmux.Records

/-!
What two endpoints agree on once each has the parameters of the other. The
limits one side sends under are the limits the other side receives under, and
an identifier means the same stream to both. An endpoint leaves out a parameter
that has its default value, and its limits for streams it opens are the other's
limits for streams that are opened by the peer; this is where the two sides
could come apart.
-/

namespace Qmux

open Wire

namespace Conn

/-- A peer that reads the transport parameters of `c` takes them to be `p`. -/
def Declares [Quicvarint] (c : Conn) (p : Parameters) : Prop :=
  ∃ e, (Frame.transportParameters c.localParameters).append = some e ∧
    ∀ rest, parse (e ++ rest) = .ok (some (.frame (.transportParameters p), rest))

/-- The limits `d` sends under are those that `c` receives under. -/
structure Grants (c d : Conn) : Prop where
  data : d.sendMax = c.recvMax
  streams : ∀ dir, (d.out dir).max = (c.incoming dir).max
  datagram : d.datagramLimit = c.config.maxDatagramFrameSize.toNat
  datagram_le : c.config.maxDatagramFrameSize.toNat ≤ c.config.maxRecordSize.toNat

/-- An identifier means the same stream to both sides. -/
structure SameStream (c d : Conn) (id : Nat) : Prop where
  initiator : d.initiatedLocally id = !c.initiatedLocally id
  sends : (d.newStream id).canSend = (c.newStream id).canRecv
  limit : (d.newStream id).sendMax = (c.newStream id).recvMax

/-- Both sides name the stream of an index, a direction and an initiator
alike, and read the three back from the name. -/
def SameName (c d : Conn) (index : Nat) (dir : Dir) (isLocal : Bool) : Prop :=
  let id := c.streamID index dir isLocal
  d.streamID index dir (!isLocal) = id ∧ streamDir id = dir ∧ id >>> 2 = index ∧
    c.initiatedLocally id = isLocal ∧ d.initiatedLocally id = !isLocal

theorem sameName {c d : Conn} (hserver : d.isServer = !c.isServer) {index : Nat}
    (hindex : index < 2 ^ 62) (dir : Dir) (isLocal : Bool) : c.SameName d index dir isLocal := by
  have hname : d.streamID index dir (!isLocal) = c.streamID index dir isLocal := by
    unfold Conn.streamID
    rw [streamID_eq _ hindex, streamID_eq _ hindex, hserver]
    cases isLocal <;> cases c.isServer <;> rfl
  refine ⟨hname, streamDir_streamID _ hindex dir isLocal, streamID_index _ hindex dir isLocal,
    initiatedLocally_streamID _ hindex dir isLocal, ?_⟩
  rw [← hname]
  exact initiatedLocally_streamID _ hindex dir (!isLocal)

/-- The windows that `d` was told are those of `c`. -/
structure Knows (d c : Conn) : Prop where
  isServer : d.isServer = !c.isServer
  bidiLocal : d.peer.initialMaxStreamDataBidiLocal = c.config.streamWindow
  bidiRemote : d.peer.initialMaxStreamDataBidiRemote = c.config.streamWindow
  uni : d.peer.initialMaxStreamDataUni = c.config.streamWindow

theorem Knows.extends {c d c' d' : Conn} (h : d.Knows c) (hready : d.ready = true)
    (hc : c.Extends c') (hd : d.Extends d') : d'.Knows c' := by
  have hpeer := (hd.peer hready).2
  constructor
  · rw [hd.isServer, hc.isServer]
    exact h.isServer
  all_goals
    rw [hpeer, hc.config]
  · exact h.bidiLocal
  · exact h.bidiRemote
  · exact h.uni

theorem Knows.sameStream {c d : Conn} (h : d.Knows c) (id : Nat) : c.SameStream d id := by
  have hinitiator : d.initiatedLocally id = !c.initiatedLocally id := by
    unfold Conn.initiatedLocally
    rw [initiatedLocally_eq, initiatedLocally_eq, h.isServer]
    cases decide (id % 2 = 1) <;> cases c.isServer <;> rfl
  have hsends : (d.newStream id).canSend = (c.newStream id).canRecv := by
    simp only [newStream, hinitiator]
  refine ⟨hinitiator, hsends, ?_⟩
  simp only [newStream, hinitiator, h.bidiLocal, h.bidiRemote, h.uni, ite_self]

end Conn

section Parameters

/-- A timeout is declared in whole milliseconds. -/
theorem milliseconds_eq {t : Duration} (ht : 0 ≤ t.toInt) :
    ((t / 1000000).toUInt64.toNat : Int) = t.toInt / millisecond := by
  have hdiv : (t / 1000000).toInt = t.toInt.tdiv 1000000 :=
    Int64.toInt_div_of_ne_right t 1000000 (by decide)
  have hnonneg : 0 ≤ (t / 1000000).toInt := by
    rw [hdiv]
    exact Int.tdiv_nonneg ht (by decide)
  have hle : 0 ≤ t / 1000000 := Int64.le_iff_toInt_le.mpr hnonneg
  have hclamp := Int64.toInt_eq_toNatClampNeg hle
  rw [hdiv, Int.tdiv_eq_ediv_of_nonneg ht] at hclamp
  rw [Int64.toNat_toUInt64_of_le hle]
  exact hclamp.symm

private theorem milliseconds_le {t : Duration} (ht : 0 ≤ t.toInt) :
    (t / 1000000).toUInt64.toNat ≤ maxVarint := by
  have hmilliseconds : _ = t.toInt / 1000000 := milliseconds_eq ht
  have hlt := t.toInt_lt
  have hmax : maxVarint = 2 ^ 62 - 1 := rfl
  omega

variable {config : Config} (hconfig : config.Valid) (isServer : Bool)
include hconfig

theorem localParameters_fits (f : Param) :
    (Conn.new config isServer).localParameters.get f ≤ maxVarint := by
  have hstreams : maxStreams ≤ maxVarint := by decide
  have hrecord : (Conn.new config isServer).localParameters.maxRecordSize ≤ maxVarint := by
    simp only [Conn.localParameters]
    split_ifs
    · exact hconfig.recordSize_le
    · exact Nat.zero_le _
  cases f with
  | maxIdleTimeout => exact milliseconds_le hconfig.idleTimeout_nonneg
  | initialMaxData => exact hconfig.connectionWindow_le
  | initialMaxStreamDataBidiLoc => exact hconfig.streamWindow_le
  | initialMaxStreamDataBidiRem => exact hconfig.streamWindow_le
  | initialMaxStreamDataUni => exact hconfig.streamWindow_le
  | initialMaxStreamsBidi => exact hconfig.incoming_le.trans hstreams
  | initialMaxStreamsUni => exact hconfig.incomingUni_le.trans hstreams
  | maxDatagramFrameSize => exact hconfig.datagramSize_le.trans hconfig.recordSize_le
  | maxRecordSize => exact hrecord

theorem localParameters_acceptable :
    (Conn.new config isServer).localParameters.Acceptable := by
  refine ⟨hconfig.incoming_le, hconfig.incomingUni_le, ?_⟩
  simp only [Conn.localParameters]
  split_ifs
  · exact Or.inr hconfig.recordSize_ge
  · exact Or.inl rfl

/-- A record size that was left out reads back as the default, which is why it
was left out. -/
theorem received_maxRecordSize :
    (Conn.new config isServer).localParameters.received.maxRecordSize =
      config.maxRecordSize.toNat := by
  have hpos : config.maxRecordSize.toNat ≠ 0 := by
    have hge := hconfig.recordSize_ge
    have hdefault : 0 < defaultMaxRecordSize := by decide
    omega
  by_cases hdefault : config.maxRecordSize.toNat = defaultMaxRecordSize
  · simp [Parameters.received, Conn.localParameters, Conn.new, hdefault]
  · simp [Parameters.received, Conn.localParameters, Conn.new, hdefault, hpos]

/-- Every configuration is declared, and read as it was meant. -/
theorem declares [Quicvarint] :
    (Conn.new config isServer).Declares (Conn.new config isServer).localParameters.received := by
  have hfits : (Frame.transportParameters (Conn.new config isServer).localParameters).Fits :=
    localParameters_fits hconfig isServer
  obtain ⟨e, he⟩ := hfits.exists_append
  exact ⟨e, he, parse_append he (localParameters_acceptable hconfig isServer)⟩

end Parameters

/-- The endpoint once it has the parameters of a peer with configuration
`other`. -/
def shaken (config other : Config) (isServer : Bool) : Conn :=
  (Conn.new config isServer).handleParametersLocked
    (Conn.new other (!isServer)).localParameters.received

theorem shaken_knows (config other : Config) (isServer : Bool) :
    (shaken config other isServer).Knows (shaken other config (!isServer)) :=
  ⟨(Bool.not_not isServer).symm, rfl, rfl, rfl⟩

theorem shaken_grants (config : Config) {other : Config} (hother : other.Valid)
    (isServer : Bool) :
    (shaken other config (!isServer)).Grants (shaken config other isServer) := by
  refine ⟨rfl, fun dir => ?_, ?_, hother.datagramSize_le⟩
  · cases dir <;> rfl
  · have hrecord := received_maxRecordSize hother (!isServer)
    change min other.maxDatagramFrameSize.toNat _ = other.maxDatagramFrameSize.toNat
    rw [Nat.min_eq_left]
    change _ ≤ (Conn.new other (!isServer)).localParameters.received.maxRecordSize
    rw [hrecord]
    exact hother.datagramSize_le

/-- Two endpoints of any configurations read each other's parameters and then
agree: what one may send, the other takes, on the connection and on every
stream that either opens, then and later. -/
theorem handshake_agreement [Quicvarint] (a b : Option Config) (isServer : Bool) :
    ∃ p q, (Conn.new (Config.normalized a) isServer).Declares p ∧
      (Conn.new (Config.normalized b) (!isServer)).Declares q ∧
      let c := (Conn.new (Config.normalized a) isServer).handleParametersLocked q
      let d := (Conn.new (Config.normalized b) (!isServer)).handleParametersLocked p
      c.Grants d ∧ d.Grants c ∧ ∀ c' d', c.Extends c' → d.Extends d' →
        (∀ id, c'.SameStream d' id ∧ d'.SameStream c' id) ∧
        ∀ index < 2 ^ 62, ∀ dir isLocal, c'.SameName d' index dir isLocal := by
  have ha := Config.normalized_valid a
  have hb := Config.normalized_valid b
  refine ⟨_, _, declares ha isServer, declares hb (!isServer), ?_⟩
  have hc : (Conn.new (Config.normalized a) isServer).handleParametersLocked
      (Conn.new (Config.normalized b) (!isServer)).localParameters.received =
      shaken (Config.normalized a) (Config.normalized b) isServer := rfl
  have hd : (Conn.new (Config.normalized b) (!isServer)).handleParametersLocked
      (Conn.new (Config.normalized a) isServer).localParameters.received =
      shaken (Config.normalized b) (Config.normalized a) (!isServer) := by
    simp only [shaken, Bool.not_not]
  have hback := shaken_knows (Config.normalized b) (Config.normalized a) (!isServer)
  have hgrants := shaken_grants (Config.normalized b) ha (!isServer)
  rw [Bool.not_not] at hback hgrants
  simp only [hc, hd]
  refine ⟨hgrants, shaken_grants _ hb isServer, fun c' d' hc' hd' => ?_⟩
  have hknows := (shaken_knows (Config.normalized a) (Config.normalized b) isServer).extends
    rfl hd' hc'
  have hknown := hback.extends rfl hc' hd'
  refine ⟨fun id => ⟨hknown.sameStream id, hknows.sameStream id⟩, ?_⟩
  intro index hindex dir isLocal
  exact Conn.sameName hknown.isServer hindex dir isLocal

end Qmux
