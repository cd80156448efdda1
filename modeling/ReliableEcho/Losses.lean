import ReliableEcho.History

/-!
# What the client counts as lost

A number that the gap loop declares lost was dropped by a channel. The loop
does not look at the numbers already queued for retransmission, so a loss that
a timeout declared is counted again when a later echo jumps over it before
`Send` has taken it off the queue.
-/

namespace ReliableEcho

open SelectiveRepeat (Line sends lost lostBy length_le_of_nodup)
open Runs (exec Throughout EachStep)

namespace Network

variable {n n' : Network} {i : Input} {maxPackets : UInt32} {payload : Payload}

-- ---------------------------------------------------------------------------
-- Gaps
-- ---------------------------------------------------------------------------

/-- The gap loop raises no false alarm: the first copy of what it declares lost,
or the echo of that copy, was dropped. -/
theorem gap_losses_dropped (h : Reachable maxPackets payload n)
    (hseq : n.machine.client.seqNum ≤ 65535) :
    ∀ s ∈ lostBy .gap n.machine.log, ∃ d ∈ n.dropped,
      IsCopy n.machine.log d.serial .first s ∧ n.machine.wire[d.serial]? = some d.packet := by
  intro s hs
  obtain ⟨d, hd, hc⟩ := (h.history hseq).gaps s hs
  exact ⟨d, hd, hc, carried_of_mem h.transport.2 (.inr (.inr (.inr hd)))⟩

theorem gap_losses_dropped_after_gap : ∃ n,
    exec step (start 3 ⟨4, 0, none⟩) [.fire 1, .fire 3, .dropToServer 0, .serve, .deliver] = .ok n ∧
    ∃ d ∈ n.dropped, IsCopy n.machine.log d.serial .first 0 := by
  obtain ⟨n, hn, hs, hl⟩ : ∃ n, exec step (start 3 ⟨4, 0, none⟩)
      [.fire 1, .fire 3, .dropToServer 0, .serve, .deliver] = .ok n ∧
      n.machine.client.seqNum = 2 ∧ lostBy .gap n.machine.log = [0] := ⟨_, rfl, rfl, rfl⟩
  obtain ⟨d, hd, hc, -⟩ := gap_losses_dropped ⟨_, hn⟩ (by omega) 0 (by simp [hl])
  exact ⟨n, hn, d, hd, hc⟩

-- ---------------------------------------------------------------------------
-- The count of losses
-- ---------------------------------------------------------------------------

/-- `m_packetLost` counts the numbers declared lost, each once, and the drop rate
is a percentage. -/
def LossesCountedOnce (n : Network) : Prop :=
  n.machine.client.packetLost = (lost n.machine.log).toFinset.card ∧
  n.machine.client.packetLost ≤ n.machine.client.packetSent ∧
  n.machine.client.dropRate ≤ 100

/-- The gap that an echo opens reaches over no number whose retransmission is
still pending. -/
def NoGapOverPending (n : Network) : Input → Prop
  | .deliver => ∀ d rest, n.toClient = d :: rest →
    ∀ h data, RdtHeader.deserialize d.packet = some (h, data) →
    ∀ s, n.machine.client.ackNum ≤ s → s < h.getSeq → s ∉ n.machine.client.receivedPackets →
      s ∉ n.machine.client.retransmitPackets → ¬ n.machine.RetransmissionPending s
  | _ => True

theorem countedOnce_iff_nodup (h : Reachable maxPackets payload n)
    (hseq : n.machine.client.seqNum ≤ 65535) :
    LossesCountedOnce n ↔ (lost n.machine.log).Nodup := by
  obtain ⟨hi, hl⟩ := h.transport.1.laws hseq
  have hc := hl.counted
  have hlen : (lost n.machine.log).length ≤ 2 * n.machine.client.seqNum := hc.length_le
  have hlost : n.machine.client.packetLost = (lost n.machine.log).length := by
    rw [hi.tally.packetLost, u32_of_lt (by omega)]
  constructor
  · rintro ⟨hcard, -, -⟩
    rw [hlost] at hcard
    exact Multiset.toFinset_card_eq_card_iff_nodup.mp hcard.symm
  · intro hn
    have hle : n.machine.client.packetLost ≤ n.machine.client.packetSent := by
      rw [hlost, hi.tally.packetSent]
      exact length_le_of_nodup hn fun s hs => (hc.known s hs).1
    exact ⟨by rw [hlost, List.toFinset_card_of_nodup hn], hle, Client.dropRate_le hle⟩

/-- Only a delivery can count a loss again, and only one whose gap reaches over
a pending retransmission. -/
theorem nodup_lost_step (h : Reachable maxPackets payload n) (hs : step n i = .ok n')
    (hseq : n'.machine.client.seqNum ≤ 65535) (hn : (lost n.machine.log).Nodup) :
    (lost n'.machine.log).Nodup ↔ NoGapOverPending n i := by
  have hle := Nat.le_trans (h.seqNum_mono hs) hseq
  obtain ⟨hr, ht⟩ := h.transport
  obtain ⟨hi, hlaws⟩ := hr.laws hle
  have ok := hlaws.ok
  have hc := hlaws.counted
  cases step_cases hs with
  | fire id m hm =>
    refine iff_of_true ?_ trivial
    have hfire : Machine.step n.machine (.fire id) = .ok m := hm
    obtain ⟨lines, hl, -, hgap, -⟩ := Machine.fire_log hm
    rcases (hr.simulates hfire hseq).follows with ⟨-, hsame⟩ | ⟨lines', hstep, hl'⟩
    · rwa [hsame]
    · rw [hl'] at hl ⊢
      rw [List.append_cancel_left hl] at hstep ⊢
      exact (hc.nodup_step ok hn hstep).mpr (by simp [hgap])
  | serve => exact iff_of_true hn trivial
  | deliver d rest _ hd hm =>
    obtain ⟨c, hdr, data, base, hdes, -, hlt, T⟩ := delivered h hle hd hm
    have hstep := hc.nodup_step ok hn (.echo (σ := n.machine.view) hlt)
    simp only [T.log]
    refine hstep.trans ?_
    simp only [SelectiveRepeat.lostBy_echoLines, ↓reduceIte, SelectiveRepeat.Sender.mem_gap,
      NoGapOverPending]
    constructor
    · intro hno d' rest' hd' hdr' data' hdes' s hack hlts hreceived hretrans hpending
      rw [hd] at hd'
      cases hd'
      rw [hdes] at hdes'
      cases hdes'
      exact hno s ⟨hack, hlts, hreceived, hretrans⟩ (Machine.mem_pending.mpr hpending)
    · rintro hno s ⟨hack, hlts, hreceived, hretrans⟩ hpending
      exact hno d rest hd hdr data hdes s hack hlts hreceived hretrans
        (Machine.mem_pending.mp hpending)
  | dropToServer => exact iff_of_true hn trivial
  | dropToClient => exact iff_of_true hn trivial

/-- In a run of the network each loss is counted once throughout exactly when no
echo opens a gap over a number that is already queued. -/
theorem losses_counted_once_iff (is : List Input)
    (h : exec step (start maxPackets payload) is = .ok n)
    (hseq : n.machine.client.seqNum ≤ 65535) :
    Throughout step LossesCountedOnce (start maxPackets payload) is ↔
      EachStep step NoGapOverPending (start maxPackets payload) is := by
  refine Runs.throughout_iff_eachStep (G := fun n => n.machine.client.seqNum ≤ 65535)
    (fun n i n' hr hs hg => Nat.le_trans (Reachable.seqNum_mono hr hs) hg) ?_ .refl h hseq
    ((countedOnce_iff_nodup .refl (Nat.zero_le _)).mpr .nil)
  intro n i n' hr hs hg hc
  have hmono := Reachable.seqNum_mono hr hs
  rw [countedOnce_iff_nodup (hr.tail hs) hg]
  exact nodup_lost_step hr hs hg ((countedOnce_iff_nodup hr (Nat.le_trans hmono hg)).mp hc)

theorem losses_counted_once_after_gap :
    Throughout step LossesCountedOnce (start 3 ⟨4, 0, none⟩)
      [.fire 1, .fire 3, .dropToServer 0, .serve, .deliver] := by
  obtain ⟨n, hn, hs⟩ : ∃ n, exec step (start 3 ⟨4, 0, none⟩)
      [.fire 1, .fire 3, .dropToServer 0, .serve, .deliver] = .ok n ∧
      n.machine.client.seqNum = 2 := ⟨_, rfl, rfl⟩
  refine (losses_counted_once_iff _ hn (by omega)).mpr ?_
  refine ⟨trivial, ?_⟩
  rintro _ ⟨⟩
  refine ⟨trivial, ?_⟩
  rintro _ ⟨⟩
  refine ⟨trivial, ?_⟩
  rintro _ ⟨⟩
  refine ⟨trivial, ?_⟩
  rintro _ ⟨⟩
  refine ⟨?_, fun _ _ => trivial⟩
  intro d rest hd hdr data hdes s hack hlt hreceived hretrans hpending
  exact absurd hpending.1 (by decide)

/-- Packets 0 and 1 time out, and the echo of packet 2 is processed before they
are retransmitted: two losses are counted four times, for three packets. -/
theorem losses_counted_twice : ∃ n, exec step (start 10 ⟨4, 0, none⟩)
      [.fire 1, .fire 3, .fire 5, .dropToServer 0, .dropToServer 0, .fire 2, .fire 4, .serve,
        .deliver] = .ok n ∧
    n.machine.client.seqNum ≤ 65535 ∧ n.machine.client.packetLost = 4 ∧
    (lost n.machine.log).toFinset.card = 2 ∧ n.machine.client.packetSent = 3 :=
  ⟨_, rfl, by decide, rfl, rfl, rfl⟩

end Network

end ReliableEcho
