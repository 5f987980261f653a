import Qmux.Conn.Ids
import Qmux.Facing.Basic

/-!
Every move is a step of the connection as its peer meets it, so the limits,
the pings and the streams of the peer are in order in every history.
-/

namespace Qmux

open Wire

namespace Conn

variable {c c' : Conn} {r : Ref}

theorem setIncoming_facing (c : Conn) (dir : Dir) {i : Incoming}
    (hnext : i.next = (c.incoming dir).next) : (c.setIncoming dir i).facing = c.facing :=
  congrArg (fun next => { c.facing with inNext := next })
    (Heap.map_update_of_eq Incoming.next c.incoming dir i hnext)

theorem completeLocked_facing (c : Conn) (r : Ref) : (c.completeLocked r).facing = c.facing := by
  unfold completeLocked
  dsimp only
  split_ifs
  · rfl
  · rfl
  · exact setIncoming_facing c (streamDir (c.heap r).id) rfl

theorem Touches.facing {s : Stream} {frames : List Frame} (h : c.Touches r s frames c') :
    (c'.completeLocked r).facing = c.facing := by
  rw [completeLocked_facing]
  obtain ⟨a, -, rfl⟩ := h
  rfl

theorem facing_of_core (hcore : c'.core = c.core) : c'.facing = c.facing :=
  (congrArg facing hcore :)

private theorem idle_queued {f : Frame} (h : queuedFrame f = true) : f.idle = true := by
  cases f <;> simp_all [queuedFrame, Frame.idle]

private theorem Act.idle [GoAppend] {heard : Parsed → Prop} {t : Traffic} {s : Stream}
    {frames : List Frame} {d : Conn} (hact : Act heard c r t s frames d) :
    (∀ f ∈ t.took, c.ready = true ∧ f.idle = true) ∧ ∀ f ∈ t.handed, f.idle = true := by
  cases hact with
  | data hready => simp [hready, Parsed.idle]
  | reset hready => simp [hready, Parsed.idle]
  | resetSend hcause =>
      rcases hcause with ⟨-, rfl⟩ | ⟨g, hready, -, -, rfl⟩
      · simp
      · simp [hready, Parsed.idle]
  | read => simp
  | cancel => simp
  | finish => simp [Frame.idle]

/-- A frame that passes is idle. -/
private theorem idle_passes {f : Parsed} (h : c.Passes f) : f.idle = true := by
  unfold Parsed.idle
  split
  · exact h.elim
  · exact h.elim
  · rfl

variable {heard : Parsed → Prop} {t : Traffic}

/-- What is handed out by a flush. -/
private theorem flush_facing (now : Time) (hping : c.nextPing ≤ 2 ^ 62)
    (hcontrol : ∀ f ∈ c.control, queuedFrame f = true) (pings : List PingEvent) :
    c.facing.Step heard c.isServer { handed := c.controlFrames, pings := pings }
      (c.flushed now).facing := by
  have hidle : ∀ f ∈ c.control ++ (if c.maxDataPending then [.maxData ⟨c.recvMax⟩] else []) ++
      c.streamsFrame .bidi ++ c.streamsFrame .uni, f.idle = true := by
    unfold streamsFrame
    intro f hf
    simp only [List.mem_append] at hf
    rcases hf with ((hf | hf) | hf) | hf
    · exact idle_queued (hcontrol f hf)
    all_goals
      split_ifs at hf
      · rw [List.mem_singleton.mp hf]
        rfl
      · cases hf
  have hpongs : (if c.pongPending then [Frame.ping ⟨true, c.pongSequence⟩] else []) =
      (c.facing.pong.map (fun n => Frame.ping ⟨true, n⟩)).toList := by
    unfold facing
    dsimp only
    split_ifs <;> rfl
  have hstate : (c.flushed now).facing = { c.facing with
      pong := none
      nextPing := if c.pingPending then c.nextPing + 1 else c.nextPing } := by
    have hnext : Word.add c.nextPing 1 = c.nextPing + 1 := Word.add_of_lt (by omega)
    unfold flushed
    by_cases hasked : c.pingPending = true
    · simp only [hasked, if_true]
      exact congrArg (fun next => { c.facing with pong := none, nextPing := next }) hnext
    · simp only [hasked]
      rfl
  rw [hstate, controlFrames, hpongs]
  exact .flush hidle

private theorem openIncoming_facing {dir : Dir} (hindex : (c.incoming dir).next < 2 ^ 60) :
    (c.openIncoming dir).facing = { c.facing with
      inNext := Function.update c.facing.inNext dir (c.facing.inNext dir + 1) } := by
  have hadd : Word.add (c.incoming dir).next 1 = (c.incoming dir).next + 1 :=
    Word.add_of_lt (by omega)
  have hnext := Heap.map_update Incoming.next c.incoming dir
    { c.incoming dir with
      next := Word.add (c.incoming dir).next 1
      queue := (c.incoming dir).queue ++ [c.count]
      signal := (c.incoming dir).signal.broadcast }
  refine (congrArg (fun next => { c.facing with inNext := next }) hnext).trans ?_
  rw [hadd]
  rfl

private theorem openLocal_facing {dir : Dir} (hindex : (c.out dir).next < 2 ^ 60) :
    (c.openLocal dir).facing = { c.facing with
      outNext := Function.update c.facing.outNext dir (c.facing.outNext dir + 1) } := by
  have hadd : Word.add (c.out dir).next 1 = (c.out dir).next + 1 := Word.add_of_lt (by omega)
  have hnext := Heap.map_update Outgoing.next c.out dir
    { c.out dir with next := Word.add (c.out dir).next 1 }
  have hmax := Heap.map_update_of_eq Outgoing.max c.out dir
    { c.out dir with next := Word.add (c.out dir).next 1 } rfl
  refine (congrArg₂ (fun max next => { c.facing with outMax := max, outNext := next })
    hmax hnext).trans ?_
  rw [hadd]
  rfl

private theorem handleMaxStreams_facing (f : MaxStreams) {dir : Dir}
    (hdir : (if f.uni then Dir.uni else Dir.bidi) = dir) :
    (c.handleMaxStreams f).facing = { c.facing with
      outMax := Function.update c.facing.outMax dir (max (c.facing.outMax dir) f.max) } := by
  unfold handleMaxStreams
  simp only [hdir]
  split_ifs with hgrows
  · have hmax := Heap.map_update Outgoing.max c.out dir
      { c.out dir with max := f.max, signal := (c.out dir).signal.broadcast }
    have hnext := Heap.map_update_of_eq Outgoing.next c.out dir
      { c.out dir with max := f.max, signal := (c.out dir).signal.broadcast } rfl
    refine (congrArg₂ (fun max next => { c.facing with outMax := max, outNext := next })
      hmax hnext).trans ?_
    have hle : c.facing.outMax dir ≤ f.max := Nat.le_of_lt hgrows
    rw [max_eq_right hle]
    rfl
  · have hle : f.max ≤ c.facing.outMax dir := Nat.le_of_not_lt hgrows
    rw [max_eq_left hle, Function.update_eq_self]

private theorem spend_facing {r : Ref} {n : Nat} {handed : List Frame}
    (hbound : c.facing.sendMax ≤ maxVarint) (hsent : c.facing.sent ≤ c.facing.sendMax)
    (hcredit : n ≤ c.sendCreditLocked (c.heap r))
    (hdata : (handed.map Frame.dataLength).sum = n) (hping : ∀ p, .ping p ∉ handed) :
    c.facing.Step heard c.isServer { handed := handed } (c.spend r n).facing := by
  have hle : c.facing.sent + n ≤ c.facing.sendMax := by
    unfold sendCreditLocked at hcredit
    change c.sent + n ≤ c.sendMax
    change c.sent ≤ c.sendMax at hsent
    split_ifs at hcredit <;> omega
  have hadd : Word.add c.sent n = c.sent + n := by
    have : maxVarint = 2 ^ 62 - 1 := rfl
    change c.sent + n ≤ c.sendMax at hle
    change c.sendMax ≤ maxVarint at hbound
    exact Word.add_of_lt (by omega)
  have hstate : (c.spend r n).facing = { c.facing with sent := c.facing.sent + n } :=
    congrArg (fun sent => { c.facing with sent := sent }) hadd
  rw [hstate]
  exact .spend rfl hdata hping hle

variable [Quicvarint] [GoAppend]

/-- A move is a step. -/
theorem facing_of_move (hlimited : c.facing.Limited t)
    (hcontrol : ∀ f ∈ c.control, queuedFrame f = true) {t' : Traffic}
    (hmove : Move heard c t' c') : c.facing.Step heard c.isServer t' c'.facing := by
  cases hmove with
  | still htook hhanded hpings hreads hcore =>
      rw [facing_of_core hcore]
      exact .still (fun f hf => ⟨(htook f hf).2.1, idle_passes (htook f hf).2.2⟩)
        (fun f hf => by simp [hhanded] at hf)
  | act hopen hact =>
      rw [hact.touches.facing]
      exact .still hact.idle.1 hact.idle.2
  | parameters hopen hready hheard hbound => exact .parameters hready hbound
  | @openIncoming f id hopen hready hheard hstream hbound hpeer hnext hmax =>
      have hindex : (c.incoming (streamDir id)).next < 2 ^ 60 :=
        Nat.lt_of_le_of_lt hnext (index_lt hbound)
      rw [openIncoming_facing hindex]
      exact .openIncoming hready hheard hstream hpeer hnext
  | @openLocal dir hopen hmax =>
      have hle : (c.out dir).max ≤ 2 ^ 60 := hlimited.outMax_le dir
      rw [openLocal_facing (Nat.lt_of_lt_of_le hmax hle)]
      exact .openLocal hmax
  | @accept dir r rest =>
      have hstate : (c.acceptNext dir r rest).facing = c.facing := by
        unfold acceptNext
        rw [completeLocked_facing]
        exact setIncoming_facing c dir rfl
      rw [hstate]
      exact .still (fun f hf => by cases hf) (fun f hf => by cases hf)
  | raiseStream hopen hready =>
      refine .still (fun f hf => ⟨hready, ?_⟩) (fun f hf => by cases hf)
      rw [List.mem_singleton.mp hf]
      rfl
  | raiseData hopen hheard hbound hready hlt => exact .raiseData hready hbound hlt
  | raiseStreams hopen hheard hbound hready =>
      rw [handleMaxStreams_facing _ rfl]
      exact .raiseStreams hready rfl hbound
  | @pinged f hopen hready hheard hrequest hsequence =>
      obtain ⟨response, n⟩ := f
      obtain rfl : response = false := hrequest
      refine .pinged hready (fun m hm => ?_)
      unfold facing at hm
      dsimp only at hm
      split_ifs at hm with hpinged
      have hlast : c.peerPingLast = m := Option.some.inj hm
      have hlt : ¬ n ≤ c.peerPingLast := fun hle => hsequence ⟨hpinged, hle⟩
      omega
  | pong now rtt hready hheard hresponse =>
      refine .still (fun f hf => ⟨hready, ?_⟩) (fun f hf => by cases hf)
      rw [List.mem_singleton.mp hf]
      exact hresponse
  | @reserve r p n hopen hholds herr hfin hcredit hlen hchunk =>
      refine spend_facing hlimited.sendMax_le hlimited.sent_le hcredit ?_ (fun q hq => ?_)
      · split_ifs with hzero
        · exact hzero.symm
        · simpa [Frame.dataLength] using hlen
      · split_ifs at hq <;> simp at hq
  | flush hopen hping => exact flush_facing _ hping hcontrol _
  | datagram =>
      refine .still (fun f hf => by cases hf) (fun f hf => ?_)
      rw [List.mem_singleton.mp hf]
      rfl
  | close =>
      refine .still (fun f hf => by cases hf) (fun f hf => ?_)
      rw [List.mem_singleton.mp hf]
      rfl
  | woken => exact .still (fun f hf => by cases hf) (fun f hf => by cases hf)

/-- The limits, the pings and the streams of the peer are in order. -/
theorem History.facing {config : Config} {isServer : Bool}
    (hhistory : History config isServer heard t c) :
    c.facing.Limited t ∧ c.facing.Pings t ∧ c.facing.OpenedBy heard isServer := by
  induction hhistory with
  | start =>
      refine ⟨⟨(fun h => by cases h), fun _ => ⟨rfl, rfl, fun _ => rfl⟩, Nat.zero_le _,
        Nat.zero_le _, Nat.le_refl _, rfl, fun _ => Nat.zero_le _, fun _ => Nat.zero_le _,
        fun _ => Nat.le_refl _⟩, ⟨(fun n hn => by cases hn), (fun n hn => by cases hn),
        fun n hn => ?_, fun n hn => ?_, List.pairwise_singleton _ _⟩, fun dir n hn => ?_⟩
      · rcases hn with hn | hn
        · cases hn
        · simp at hn
      · simp at hn
      · exact absurd hn (Nat.not_lt_zero n)
  | move hprior hmove ih =>
      obtain ⟨hlimited, hpings, hopened⟩ := ih
      have hstep := facing_of_move hlimited (History.control hprior) hmove
      rw [(History.config hprior).2] at hstep
      exact ⟨hlimited.step hstep, hpings.step hstep, hopened.step hstep⟩
  | @terminate _ c err hprior ih =>
      have hsame : (c.terminate err).1.facing = c.facing := by
        unfold Conn.terminate
        split_ifs <;> rfl
      rw [hsame]
      exact ih

end Conn

end Qmux
