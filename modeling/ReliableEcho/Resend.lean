import ReliableEcho.Refinement

/-!
# What is resent

Every number below the ack cursor that is still open has been queued for its
retransmission. `Send` does not ask whether a queued number has been echoed in
the meantime: it resends only what is missing as long as no echo comes in
between the declaration of a loss and the turn of its entry.
-/

namespace ReliableEcho

open SelectiveRepeat (Line echoes retransmitted)
open Runs (exec EachStep)

namespace Machine

variable {m m' : Machine} {i : Input} {s : ℕ} {maxPackets : UInt32} {payload : Payload}

-- ---------------------------------------------------------------------------
-- Below the ack cursor
-- ---------------------------------------------------------------------------

/-- No packet below the ack cursor waits only for the timer of its first
transmission. -/
theorem gap_detection_complete (h : Reachable maxPackets payload m)
    (hseq : m.client.seqNum ≤ 65535) :
    m.client.ackNum ≤ m.client.seqNum ∧
    ∀ s < m.client.ackNum, s ∈ m.client.receivedPackets ∨ s ∈ m.client.retransmitPackets ∨
      m.RetransmissionPending s := by
  obtain ⟨-, hl⟩ := h.laws hseq
  refine ⟨hl.ok.ack_le, fun s hs => ?_⟩
  rcases hl.ok.below_ack s hs with hr | hr | hp
  · exact .inl hr
  · exact .inr (.inl hr)
  · exact .inr (.inr (mem_pending.mp hp))

theorem gap_detection_complete_after_gap : ∃ m,
    exec step (start 20 ⟨4, 0, none⟩) gapRun = .ok m ∧ 0 ∉ m.client.receivedPackets ∧
    ∀ s < 2, s ∈ m.client.receivedPackets ∨ s ∈ m.client.retransmitPackets ∨
      m.RetransmissionPending s := by
  obtain ⟨m, hm, hseq, hack, hreceived⟩ : ∃ m,
      exec step (start 20 ⟨4, 0, none⟩) gapRun = .ok m ∧ m.client.seqNum = 10 ∧
      m.client.ackNum = 2 ∧ m.client.receivedPackets = {1} := ⟨_, rfl, rfl, rfl, rfl⟩
  exact ⟨m, hm, by simp [hreceived], hack ▸ (gap_detection_complete ⟨_, hm⟩ (by omega)).2⟩

-- ---------------------------------------------------------------------------
-- Retransmissions
-- ---------------------------------------------------------------------------

/-- When `Send` transmits a retransmission, no echo of its number has been
processed before. -/
def ResendsMissing (m : Machine) : Input → Prop
  | .fire id => m.sim.events.lookup id = some .send →
    ∀ m' s t, m.fire id = .ok m' → m'.log = m.log ++ [.packetRetrans s t] →
      s ∉ m.client.receivedPackets ∧ s ∉ echoes m.log
  | .read _ => True

/-- When `Send` takes an entry for a first retransmission, no echo of its number
was processed since the number was declared lost. -/
def NoEchoWhileQueued (m : Machine) : Input → Prop
  | .fire id => m.sim.events.lookup id = some .send → m.client.retransmit = true →
    m.client.retransSeq ∉ m.client.retransmitPackets →
    ∀ before cause after, m.log = before ++ .packetLoss cause m.client.retransSeq :: after →
      m.client.retransSeq ∉ echoes after
  | .read _ => True

theorem log_send_retrans {id : ℕ} (hq : m.client.WellQueued)
    (hs : send { m with sim := m.sim.cancel id } = .ok m') :
    (∃ t, m'.log = m.log ++ [.packetRetrans s t]) ↔
      m.client.retransmit = true ∧ s = m.client.retransSeq ∧ s ∉ m.client.retransmitPackets := by
  have h16 : m.client.retransmit = true → u16 m.client.retransSeq = m.client.retransSeq :=
    fun hr => u16_of_lt (Nat.lt_succ_of_lt (hq.active hr).2)
  cases send_cases hs with
  | waits hr => simp [show m.client.retransmit = false from hr]
  | fresh hr => simp [log_transmitted, show m.client.retransmit = false from hr]
  | again hr hn =>
    have hr : m.client.retransmit = true := hr
    have hn : u16 m.client.retransSeq ∉ m.client.retransmitPackets := hn
    rw [h16 hr] at hn
    simp only [log_transmitted, RdtHeader.getSeq_setSeq, h16 hr, List.append_cancel_left_eq,
      List.cons.injEq, Line.packetRetrans.injEq, and_true, hr, true_and]
    constructor
    · rintro ⟨t, rfl, -⟩
      exact ⟨rfl, hn⟩
    · rintro ⟨rfl, -⟩
      exact ⟨_, rfl, rfl⟩
  | skips hr ho =>
    have hr : m.client.retransmit = true := hr
    have ho : u16 m.client.retransSeq ∈ m.client.retransmitPackets := ho
    rw [h16 hr] at ho
    have hnone : ¬ ∃ t, m.log = m.log ++ [.packetRetrans s t] := by simp
    refine iff_of_false hnone ?_
    rintro ⟨-, rfl, hn⟩
    exact hn ho

theorem resendsMissing_iff (h : Reachable maxPackets payload m) (hs : step m i = .ok m')
    (hseq : m.client.seqNum ≤ 65535) : ResendsMissing m i ↔ NoEchoWhileQueued m i := by
  obtain ⟨hi, hl⟩ := h.laws hseq
  cases i with
  | read packet => exact Iff.rfl
  | fire id =>
    refine imp_congr_right fun hid => ?_
    have hsend : send { m with sim := m.sim.cancel id } = .ok m' := by
      simpa [step, fire, hid] using hs
    have hlog : ∀ s, _ ↔ _ := fun s => log_send_retrans (s := s) hi.faithful.queue hsend
    have missing : m.client.retransmit = true → _ → (_ ↔ _) := fun hr hn =>
      (h.timeline hseq).notMem_received_iff hl (s := m.client.retransSeq)
        (by simp [view, Client.pending_active hr]) hn
    constructor
    · intro hmissing hr hn
      obtain ⟨t, ht⟩ := (hlog _).mpr ⟨hr, rfl, hn⟩
      exact (missing hr hn).mp (hmissing m' _ t hs ht).1
    · intro hnone m'' s t hs' ht
      rw [show m'' = m' from Except.ok.inj (hs'.symm.trans hs)] at ht
      obtain ⟨hr, rfl, hn⟩ := (hlog s).mp ⟨t, ht⟩
      have hr' := (missing hr hn).mpr (hnone hr hn)
      exact ⟨hr', fun he => hr' (hl.resolved.of_echo _ he)⟩

/-- In a run `Send` resends only what is missing exactly when no echo comes in
while its number waits in the queue. -/
theorem resends_missing_iff (is : List Input) (h : exec step (start maxPackets payload) is = .ok m)
    (hseq : m.client.seqNum ≤ 65535) :
    EachStep step ResendsMissing (start maxPackets payload) is ↔
      EachStep step NoEchoWhileQueued (start maxPackets payload) is :=
  Runs.eachStep_congr (G := fun m => m.client.seqNum ≤ 65535)
    (fun _ _ _ hr hs hg => Nat.le_trans (Reachable.seqNum_mono hr hs) hg)
    (fun _ _ _ hr hs hg =>
      resendsMissing_iff hr hs (Nat.le_trans (Reachable.seqNum_mono hr hs) hg)) .refl h hseq

theorem resends_missing_after_timeout :
    EachStep step ResendsMissing (start 3 ⟨4, 0, none⟩) [.fire 1, .fire 2, .fire 3] := by
  obtain ⟨m, hm, hs⟩ : ∃ m, exec step (start 3 ⟨4, 0, none⟩) [.fire 1, .fire 2, .fire 3] = .ok m ∧
      m.client.seqNum = 1 := ⟨_, rfl, rfl⟩
  refine (resends_missing_iff _ hm (by omega)).mpr ?_
  refine ⟨fun _ hr => (by cases hr), ?_⟩
  rintro _ ⟨⟩
  refine ⟨fun hid => (by cases hid), ?_⟩
  rintro _ ⟨⟩
  refine ⟨fun _ _ _ before cause after hlog he => ?_, fun _ _ => trivial⟩
  have hmem : Line.received 0 ∈ before ++ .packetLoss cause 0 :: after :=
    List.mem_append_right _ (List.mem_cons_of_mem _ (SelectiveRepeat.mem_echoes.mp he))
  exact absurd (hlog ▸ hmem) (by decide)

/-- Packet 0 times out, its echo comes late, and `Send` retransmits it. -/
theorem resent_after_echo : ∃ m m',
    exec step (start 3 ⟨4, 0, none⟩) [.fire 1, .fire 2, .read [0, 0, 0, 0, 0, 0, 0, 0]] = .ok m ∧
    m.client.seqNum ≤ 65535 ∧ m.sim.events.lookup 3 = some .send ∧
    m.fire 3 = .ok m' ∧ m'.log = m.log ++ [.packetRetrans 0 4] ∧
    0 ∈ m.client.receivedPackets ∧ 0 ∈ echoes m.log :=
  ⟨_, _, rfl, by decide, rfl, rfl, rfl, by decide, by decide⟩

end Machine

end ReliableEcho
