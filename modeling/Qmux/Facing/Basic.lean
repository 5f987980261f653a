import Qmux.Conn.Kept
import Qmux.Lib.Log

/-!
A connection as its peer meets it: the limits it keeps to, the streams either
side has opened, and the pings. Seen this way most moves do nothing. Every
limit the connection sends by was given by a frame of the peer, every response
answers a request, and requests are numbered in order.
-/

namespace Qmux

open Wire

/-- What the connection keeps of its dealings with the peer. -/
structure Facing where
  ready : Bool
  peer : Parameters
  sendMax : Nat
  sent : Nat
  outMax : Dir → Nat
  outNext : Dir → Nat
  inNext : Dir → Nat
  /-- The latest request of the peer, and the one that is to be answered. -/
  lastPing : Option Nat
  pong : Option Nat
  nextPing : Nat

def Conn.facing (c : Conn) : Facing where
  ready := c.ready
  peer := c.peer
  sendMax := c.sendMax
  sent := c.sent
  outMax dir := (c.out dir).max
  outNext dir := (c.out dir).next
  inNext dir := (c.incoming dir).next
  lastPing := if c.peerPinged then some c.peerPingLast else none
  pong := if c.pongPending then some c.pongSequence else none
  nextPing := c.nextPing

/-- The stream data of a frame. -/
def Wire.Frame.dataLength : Frame → Nat
  | .stream f => f.data.length
  | _ => 0

/-- The frame has no data and is not a ping. -/
def Wire.Frame.idle : Frame → Bool
  | .stream f => f.data.isEmpty
  | .ping _ => false
  | _ => true

/-- The frame is neither the parameters nor a request. -/
def Wire.Parsed.idle : Parsed → Bool
  | .frame (.transportParameters _) => false
  | .frame (.ping f) => f.response
  | _ => true

/-- The limit on all stream data that a frame declares. -/
def Wire.Parsed.dataLimit? : Parsed → Option Nat
  | .frame (.transportParameters p) => some p.initialMaxData
  | .frame (.maxData f) => some f.max
  | _ => none

/-- The limit on the number of streams that a frame declares. -/
def Wire.Parsed.streamsLimit? (dir : Dir) : Parsed → Option Nat
  | .frame (.transportParameters p) =>
      some (match dir with
        | .bidi => p.initialMaxStreamsBidi
        | .uni => p.initialMaxStreamsUni)
  | .frame (.maxStreams f) => if (if f.uni then Dir.uni else Dir.bidi) = dir then some f.max else none
  | _ => none

namespace Facing

/-- What a move does to it. -/
inductive Step (heard : Parsed → Prop) (isServer : Bool) (v : Facing) :
    Traffic → Facing → Prop where
  | still {t : Traffic} (htook : ∀ f ∈ t.took, v.ready = true ∧ f.idle = true)
      (hhanded : ∀ f ∈ t.handed, f.idle = true) : Step heard isServer v t v
  | parameters {p : Parameters} (hready : v.ready = false) (hbound : p.Bounded) :
      Step heard isServer v { took := [.frame (.transportParameters p)] }
        { v with
          ready := true
          peer := p
          sendMax := p.initialMaxData
          outMax := fun dir => match dir with
            | .bidi => p.initialMaxStreamsBidi
            | .uni => p.initialMaxStreamsUni }
  | openIncoming {f : Parsed} {id : Nat} (hready : v.ready = true) (hheard : heard f)
      (hstream : f.stream? = some id) (hpeer : initiatedLocally isServer id = false)
      (hnext : v.inNext (streamDir id) ≤ id >>> 2) :
      Step heard isServer v {}
        { v with
          inNext := Function.update v.inNext (streamDir id) (v.inNext (streamDir id) + 1) }
  | openLocal {dir : Dir} (hmax : v.outNext dir < v.outMax dir) :
      Step heard isServer v {}
        { v with outNext := Function.update v.outNext dir (v.outNext dir + 1) }
  | raiseData {f : MaxData} (hready : v.ready = true) (hbound : f.max ≤ maxVarint)
      (hlt : v.sendMax < f.max) :
      Step heard isServer v { took := [.frame (.maxData f)] } { v with sendMax := f.max }
  | raiseStreams {f : MaxStreams} {dir : Dir} (hready : v.ready = true)
      (hdir : (if f.uni then Dir.uni else Dir.bidi) = dir) (hbound : f.max ≤ maxStreams) :
      Step heard isServer v { took := [.frame (.maxStreams f)] }
        { v with outMax := Function.update v.outMax dir (max (v.outMax dir) f.max) }
  | pinged {n : Nat} (hready : v.ready = true) (hsequence : ∀ m, v.lastPing = some m → m < n) :
      Step heard isServer v { took := [.frame (.ping ⟨false, n⟩)] }
        { v with lastPing := some n, pong := some n }
  | spend {t : Traffic} {n : Nat} (htook : t.took = [])
      (hdata : (t.handed.map Frame.dataLength).sum = n) (hping : ∀ p, .ping p ∉ t.handed)
      (hcredit : v.sent + n ≤ v.sendMax) :
      Step heard isServer v t { v with sent := v.sent + n }
  | flush {idle : List Frame} {asked : Bool} {pings : List PingEvent}
      (hidle : ∀ f ∈ idle, f.idle = true) :
      Step heard isServer v
        { handed := idle ++ (v.pong.map (fun n => Frame.ping ⟨true, n⟩)).toList ++
            (if asked then [.ping ⟨false, v.nextPing⟩] else [])
          pings := pings }
        { v with pong := none, nextPing := if asked then v.nextPing + 1 else v.nextPing }

/-- The limits the connection keeps to are those the peer gave it. -/
structure Limited (t : Traffic) (v : Facing) : Prop where
  parameters : v.ready = true → ∃ rest, t.took = .frame (.transportParameters v.peer) :: rest
  unready : v.ready = false → t.took = [] ∧ v.sendMax = 0 ∧ ∀ dir, v.outMax dir = 0
  sendMax_le : v.sendMax ≤ maxVarint
  sendMax_given : v.sendMax ≤ Log.largest Parsed.dataLimit? t.took
  sent_le : v.sent ≤ v.sendMax
  sent_eq : (t.handed.map Frame.dataLength).sum = v.sent
  outMax_le : ∀ dir, v.outMax dir ≤ maxStreams
  outMax_given : ∀ dir, v.outMax dir ≤ Log.largest (Parsed.streamsLimit? dir) t.took
  outNext_le : ∀ dir, v.outNext dir ≤ v.outMax dir

/-- The pings of both sides are in order. -/
structure Pings (t : Traffic) (v : Facing) : Prop where
  last_taken : ∀ n, v.lastPing = some n → .frame (.ping ⟨false, n⟩) ∈ t.took
  taken_le : ∀ n, .frame (.ping ⟨false, n⟩) ∈ t.took → ∃ m, v.lastPing = some m ∧ n ≤ m
  pong_taken : ∀ n, v.pong = some n ∨ .ping ⟨true, n⟩ ∈ t.handed →
    .frame (.ping ⟨false, n⟩) ∈ t.took
  asked_lt : ∀ n, .ping ⟨false, n⟩ ∈ t.handed → n < v.nextPing
  asked_ordered : t.handed.Pairwise
    (fun f g => ∀ n m, f = .ping ⟨false, n⟩ → g = .ping ⟨false, m⟩ → n < m)

/-- Streams of the peer are open up to one that a frame was about. -/
def OpenedBy (heard : Parsed → Prop) (isServer : Bool) (v : Facing) : Prop :=
  ∀ dir n, n < v.inNext dir → ∃ f id, heard f ∧ f.stream? = some id ∧
    initiatedLocally isServer id = false ∧ streamDir id = dir ∧ n ≤ id >>> 2

variable {heard : Parsed → Prop} {isServer : Bool} {t t' : Traffic} {v v' : Facing}

private theorem sum_idle {frames : List Frame} (h : ∀ f ∈ frames, f.idle = true) :
    (frames.map Frame.dataLength).sum = 0 := by
  refine List.sum_eq_zero (fun n hn => ?_)
  obtain ⟨f, hf, rfl⟩ := List.mem_map.mp hn
  have hidle := h f hf
  cases f <;> simp_all [Frame.idle, Frame.dataLength]

private theorem sum_append_idle {frames : List Frame} (h : (frames.map Frame.dataLength).sum = 0) :
    ((t.handed ++ frames).map Frame.dataLength).sum = (t.handed.map Frame.dataLength).sum := by
  rw [List.map_append, List.sum_append, h, Nat.add_zero]

private theorem given_mono {g : Parsed → Option Nat} {n : Nat} (h : n ≤ Log.largest g t.took) :
    n ≤ Log.largest g (t ++ t').took :=
  h.trans (Log.largest_mono (List.subset_append_left _ _))

/-- The last frame taken is in the log. -/
private theorem mem_taken {f : Parsed} (h : f ∈ t'.took) : f ∈ (t ++ t').took :=
  List.mem_append_right _ h

/-- A step that changes none of the limits. -/
private theorem Limited.carry (h : v.Limited t) (hready : v'.ready = v.ready)
    (hpeer : v'.peer = v.peer) (hmax : v'.sendMax = v.sendMax) (hsent : v'.sent = v.sent)
    (houtMax : v'.outMax = v.outMax) (houtNext : v'.outNext = v.outNext)
    (htook : v.ready = false → t'.took = [])
    (hdata : (t'.handed.map Frame.dataLength).sum = 0) : v'.Limited (t ++ t') where
  parameters hv := by
    obtain ⟨rest, hrest⟩ := h.parameters (hready ▸ hv)
    exact ⟨rest ++ t'.took, by rw [Traffic.append_took, hrest, hpeer, List.cons_append]⟩
  unready hv := by
    have hunready := hready ▸ hv
    obtain ⟨hnone, hzero⟩ := h.unready hunready
    rw [Traffic.append_took, hnone, htook hunready, hmax, houtMax]
    exact ⟨rfl, hzero⟩
  sendMax_le := hmax ▸ h.sendMax_le
  sendMax_given := hmax ▸ given_mono h.sendMax_given
  sent_le := hmax ▸ hsent ▸ h.sent_le
  sent_eq := by
    rw [Traffic.append_handed, sum_append_idle hdata, hsent]
    exact h.sent_eq
  outMax_le := houtMax ▸ h.outMax_le
  outMax_given dir := houtMax ▸ given_mono (h.outMax_given dir)
  outNext_le := houtMax ▸ houtNext ▸ h.outNext_le

theorem Limited.step (h : v.Limited t) (hstep : v.Step heard isServer t' v') :
    v'.Limited (t ++ t') := by
  have hnone : (({} : Traffic).handed.map Frame.dataLength).sum = 0 := rfl
  have hnever {P : Prop} (hready : v.ready = true) (hunready : v.ready = false) : P := by
    simp [hready] at hunready
  cases hstep with
  | still htook hhanded =>
      refine h.carry rfl rfl rfl rfl rfl rfl (fun hready => ?_) (sum_idle hhanded)
      exact List.eq_nil_iff_forall_not_mem.mpr (fun f hf => hnever (htook f hf).1 hready)
  | @parameters p hready hbound =>
      obtain ⟨htook, hmax, houtMax⟩ := h.unready hready
      have hsent := h.sent_le
      refine ⟨fun _ => ⟨[], ?_⟩, (fun hcase => by cases hcase), hbound.1 .initialMaxData, ?_, ?_,
        ?_, ?_, ?_, ?_⟩
      · rw [Traffic.append_took, htook]
        rfl
      · exact Log.le_largest (mem_taken (List.mem_singleton_self _)) rfl
      · exact (hmax ▸ hsent).trans (Nat.zero_le _)
      · rw [Traffic.append_handed, sum_append_idle hnone]
        exact h.sent_eq
      · intro dir
        cases dir with
        | bidi => exact hbound.2.1
        | uni => exact hbound.2.2
      · exact fun dir => Log.le_largest (mem_taken (List.mem_singleton_self _)) rfl
      · exact fun dir => (houtMax dir ▸ h.outNext_le dir).trans (Nat.zero_le _)
  | openIncoming hready => exact h.carry rfl rfl rfl rfl rfl rfl (fun _ => rfl) hnone
  | @openLocal dir hmax =>
      have hcarry : v.Limited (t ++ {}) :=
        h.carry rfl rfl rfl rfl rfl rfl (fun _ => rfl) hnone
      refine { hcarry with outNext_le := fun d => ?_ }
      rcases eq_or_ne d dir with rfl | hne
      · simpa using hmax
      · simpa [hne] using h.outNext_le d
  | @raiseData f hready hbound hlt =>
      have hcarry : v.Limited (t ++ { took := [.frame (.maxData f)] }) :=
        h.carry rfl rfl rfl rfl rfl rfl (hnever hready) hnone
      exact { hcarry with
        unready := hnever hready
        sendMax_le := hbound
        sendMax_given := Log.le_largest (mem_taken (List.mem_singleton_self _)) rfl
        sent_le := h.sent_le.trans (Nat.le_of_lt hlt) }
  | @raiseStreams f dir hready hdir hbound =>
      have hcarry : v.Limited (t ++ { took := [.frame (.maxStreams f)] }) :=
        h.carry rfl rfl rfl rfl rfl rfl (hnever hready) hnone
      have hgiven : f.max ≤ Log.largest (Parsed.streamsLimit? dir)
          (t ++ { took := [.frame (.maxStreams f)] }).took :=
        Log.le_largest (mem_taken (List.mem_singleton_self _)) (if_pos hdir)
      refine { hcarry with
        unready := hnever hready
        outMax_le := fun d => ?_
        outMax_given := fun d => ?_
        outNext_le := fun d => ?_ }
      · rcases eq_or_ne d dir with rfl | hne
        · simpa using ⟨h.outMax_le d, hbound⟩
        · simpa [hne] using h.outMax_le d
      · rcases eq_or_ne d dir with rfl | hne
        · simpa using ⟨hcarry.outMax_given d, hgiven⟩
        · simpa [hne] using hcarry.outMax_given d
      · rcases eq_or_ne d dir with rfl | hne
        · simpa using Or.inl (h.outNext_le d)
        · simpa [hne] using h.outNext_le d
  | pinged hready hsequence =>
      exact h.carry rfl rfl rfl rfl rfl rfl (hnever hready) hnone
  | @spend _ n htook hdata hping hcredit =>
      have hcarry : v.Limited (t ++ { t' with handed := [] }) :=
        h.carry rfl rfl rfl rfl rfl rfl (fun _ => htook) hnone
      refine { hcarry with sent_le := hcredit, sent_eq := ?_ }
      rw [Traffic.append_handed, List.map_append, List.sum_append, hdata, h.sent_eq]
  | @flush idle asked pings hidle =>
      refine h.carry rfl rfl rfl rfl rfl rfl (fun _ => rfl) ?_
      rw [List.map_append, List.sum_append, List.map_append, List.sum_append, sum_idle hidle]
      cases v.pong <;> cases asked <;> rfl

/-- A step without pings. -/
private theorem Pings.carry (h : v.Pings t) (hlast : v'.lastPing = v.lastPing)
    (hpong : v'.pong = v.pong) (hnext : v'.nextPing = v.nextPing)
    (htook : ∀ n, .frame (.ping ⟨false, n⟩) ∉ t'.took)
    (hhanded : ∀ p, .ping p ∉ t'.handed) : v'.Pings (t ++ t') where
  last_taken n hn := List.mem_append_left _ (h.last_taken n (hlast ▸ hn))
  taken_le n hn := by
    rw [hlast]
    exact h.taken_le n ((List.mem_append.mp hn).resolve_right (htook n))
  pong_taken n hn := by
    refine List.mem_append_left _ (h.pong_taken n (hn.imp (fun hp => hpong ▸ hp) (fun hp => ?_)))
    exact (List.mem_append.mp hp).resolve_right (hhanded _)
  asked_lt n hn := by
    rw [hnext]
    exact h.asked_lt n ((List.mem_append.mp hn).resolve_right (hhanded _))
  asked_ordered := by
    refine List.pairwise_append.mpr ⟨h.asked_ordered, ?_, fun f _ g hg n m _ hm => ?_⟩
    · refine List.pairwise_of_forall_mem_list (fun f _ g hg n m _ hm => ?_)
      exact absurd (hm ▸ hg) (hhanded _)
    · exact absurd (hm ▸ hg) (hhanded _)

/-- The latest request is answered. -/
private theorem Pings.answer (h : v.Pings t) : Pings
    (t ++ { handed := (v.pong.map (fun n => Frame.ping ⟨true, n⟩)).toList })
    { v with pong := none } := by
  have hhanded (f : Frame) (hf : f ∈ (v.pong.map (fun n => Frame.ping ⟨true, n⟩)).toList) :
      ∃ n, v.pong = some n ∧ f = .ping ⟨true, n⟩ := by
    rw [Option.mem_toList, Option.map_eq_some_iff] at hf
    obtain ⟨n, hn, rfl⟩ := hf
    exact ⟨n, hn, rfl⟩
  have hrequest (n : Nat) : Frame.ping ⟨false, n⟩ ∉
      (v.pong.map (fun n => Frame.ping ⟨true, n⟩)).toList := by
    intro hn
    obtain ⟨m, -, hm⟩ := hhanded _ hn
    simp at hm
  refine ⟨fun n hn => List.mem_append_left _ (h.last_taken n hn), fun n hn => ?_,
    fun n hn => ?_, fun n hn => ?_, ?_⟩
  · rw [Traffic.append_took, List.append_nil] at hn
    exact h.taken_le n hn
  · refine List.mem_append_left _ (h.pong_taken n ?_)
    rcases hn with hn | hn
    · cases hn
    · rcases List.mem_append.mp hn with hn | hn
      · exact Or.inr hn
      · obtain ⟨m, hm, heq⟩ := hhanded _ hn
        simp only [Frame.ping.injEq, Ping.mk.injEq, true_and] at heq
        exact Or.inl (heq ▸ hm)
  · exact h.asked_lt n ((List.mem_append.mp hn).resolve_right (hrequest n))
  · refine List.pairwise_append.mpr ⟨h.asked_ordered, ?_, fun f _ g hg n m _ hm => ?_⟩
    · refine List.pairwise_of_forall_mem_list (fun f _ g hg n m _ hm => ?_)
      exact absurd (hm ▸ hg) (hrequest m)
    · exact absurd (hm ▸ hg) (hrequest m)

/-- A request is sent. -/
private theorem Pings.ask (h : v.Pings t) : Pings
    (t ++ { handed := [.ping ⟨false, v.nextPing⟩] })
    { v with nextPing := v.nextPing + 1 } := by
  refine ⟨fun n hn => List.mem_append_left _ (h.last_taken n hn), fun n hn => ?_,
    fun n hn => ?_, fun n hn => ?_, ?_⟩
  · rw [Traffic.append_took, List.append_nil] at hn
    exact h.taken_le n hn
  · refine List.mem_append_left _ (h.pong_taken n (hn.imp_right (fun hn => ?_)))
    exact (List.mem_append.mp hn).resolve_right (fun hcase => by simp at hcase)
  · rcases List.mem_append.mp hn with hn | hn
    · exact Nat.lt_succ_of_lt (h.asked_lt n hn)
    · simp only [List.mem_singleton, Frame.ping.injEq, Ping.mk.injEq, true_and] at hn
      exact hn ▸ Nat.lt_succ_self _
  · refine List.pairwise_append.mpr ⟨h.asked_ordered, List.pairwise_singleton _ _,
      fun f hf g hg n m hn hm => ?_⟩
    rw [List.mem_singleton.mp hg] at hm
    simp only [Frame.ping.injEq, Ping.mk.injEq, true_and] at hm
    exact hm ▸ h.asked_lt n (hn ▸ hf)

theorem Pings.step (h : v.Pings t) (hstep : v.Step heard isServer t' v') :
    v'.Pings (t ++ t') := by
  cases hstep with
  | still htook hhanded =>
      exact h.carry rfl rfl rfl (fun n hn => Bool.noConfusion (htook _ hn).2)
        (fun p hp => Bool.noConfusion (hhanded _ hp))
  | @pinged n hready hsequence =>
      have htaken : Parsed.frame (.ping ⟨false, n⟩) ∈
          (t ++ { took := [.frame (.ping ⟨false, n⟩)] }).took :=
        mem_taken (List.mem_singleton_self _)
      refine ⟨fun m hm => ?_, fun m hm => ⟨n, rfl, ?_⟩, fun m hm => ?_, ?_, ?_⟩
      · obtain rfl : n = m := Option.some.inj hm
        exact htaken
      · rcases List.mem_append.mp hm with hm | hm
        · obtain ⟨last, hlast, hle⟩ := h.taken_le m hm
          exact hle.trans (Nat.le_of_lt (hsequence last hlast))
        · simp only [List.mem_singleton, Parsed.frame.injEq, Frame.ping.injEq, Ping.mk.injEq,
            true_and] at hm
          exact hm.le
      · rcases hm with hm | hm
        · obtain rfl : n = m := Option.some.inj hm
          exact htaken
        · have hold := (List.mem_append.mp hm).resolve_right (fun hcase => by cases hcase)
          exact List.mem_append_left _ (h.pong_taken m (Or.inr hold))
      · rw [Traffic.append_handed, List.append_nil]
        exact h.asked_lt
      · rw [Traffic.append_handed, List.append_nil]
        exact h.asked_ordered
  | spend htook hdata hping hcredit =>
      exact h.carry rfl rfl rfl (fun n hn => by simp [htook] at hn) hping
  | @flush idle asked pings hidle =>
      have hidle' : v.Pings (t ++ { handed := idle }) :=
        h.carry rfl rfl rfl (fun n hn => by cases hn)
          (fun p hp => Bool.noConfusion (hidle _ hp))
      have hanswer := hidle'.answer
      cases asked with
      | false =>
          have hlog : idle ++ (v.pong.map (fun n => Frame.ping ⟨true, n⟩)).toList ++ [] =
              idle ++ (v.pong.map (fun n => Frame.ping ⟨true, n⟩)).toList := List.append_nil _
          rw [Traffic.append_assoc] at hanswer
          simp only [Bool.false_eq_true, if_false, hlog]
          exact { hanswer with }
      | true =>
          have hask := hanswer.ask
          rw [Traffic.append_assoc, Traffic.append_assoc] at hask
          simp only [if_true, List.append_assoc]
          exact { hask with }
  | _ => exact h.carry rfl rfl rfl (fun n hn => by simp at hn) (fun p hp => by simp at hp)

theorem OpenedBy.step (h : v.OpenedBy heard isServer) (hstep : v.Step heard isServer t' v') :
    v'.OpenedBy heard isServer := by
  cases hstep with
  | @openIncoming f id hready hheard hstream hpeer hnext =>
      intro dir n hn
      rcases eq_or_ne dir (streamDir id) with rfl | hne
      · simp only [Function.update_self] at hn
        exact ⟨f, id, hheard, hstream, hpeer, rfl, by omega⟩
      · simp only [Function.update_of_ne hne] at hn
        exact h dir n hn
  | _ => exact h

end Facing

end Qmux
