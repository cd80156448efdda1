import ReliableEcho.Budget

/-!
# One send loop

While the budget lasts exactly one `Send` is scheduled, and none afterwards.
The counters of transmissions agree with each other, with the packets on the
wire and with the set of retransmitted numbers.
-/

namespace ReliableEcho

open SelectiveRepeat (Line)
open Runs (exec bind_error)

namespace Machine

variable {m m' : Machine} {i : Input} {id : ℕ} {packet : Buffer} {maxPackets : UInt32}
  {payload : Payload}

-- ---------------------------------------------------------------------------
-- The counters
-- ---------------------------------------------------------------------------

structure Counts (m : Machine) : Prop where
  wire : m.client.sent = m.wire.length
  sent : m.client.sent = m.client.packetSent + m.client.packetRetrans
  packetRetrans : m.client.packetRetrans = m.client.retransmitPackets.card
  packetSent : m.client.packetSent = m.client.seqNum

theorem counts_start : Counts (start maxPackets payload) := ⟨rfl, rfl, rfl, rfl⟩

/-- A transmission that was counted as a fresh packet or as a retransmission is
now counted in `m_sent` and is on the wire. -/
theorem counts_transmitted {h : RdtHeader} {p : Buffer} {line : ℕ → EventId → Line EventId}
    (hlt : m.client.sent + 1 < 4294967296) (wire : m.client.sent = m.wire.length)
    (sent : m.client.sent + 1 = m.client.packetSent + m.client.packetRetrans)
    (packetRetrans : m.client.packetRetrans = m.client.retransmitPackets.card)
    (packetSent : m.client.packetSent = m.client.seqNum) : Counts (m.transmitted h p line) := by
  have hsent : u32 (m.client.sent + 1) = m.client.sent + 1 := u32_of_lt hlt
  have hto : Counts (m.sendTo h p line) := by
    refine ⟨?_, ?_, packetRetrans, packetSent⟩
    · have hlen : (m.sendTo h p line).wire.length = m.wire.length + 1 := by simp [sendTo]
      rw [hlen, ← wire, client_sendTo, hsent]
    · simpa [hsent] using sent
  rcases transmitted_cases with he | he <;> rw [he]
  · exact hto
  · exact ⟨hto.wire, hto.sent, hto.packetRetrans, hto.packetSent⟩

theorem Due.counts (hd : m.Due) (hc : m.Counts) (hs : m.send = .ok m') : m'.Counts := by
  have hlt : m.client.sent + 1 < 4294967296 := by
    have := hd.due
    have := hd.count_lt
    omega
  obtain ⟨wire, sent, packetRetrans, packetSent⟩ := hc
  cases send_cases hs with
  | waits => exact ⟨wire, sent, packetRetrans, packetSent⟩
  | fresh =>
    have hfresh : u32 (m.client.packetSent + 1) = m.client.packetSent + 1 := u32_of_lt (by omega)
    refine counts_transmitted hlt wire ?_ packetRetrans ?_
    · simp only [Client.takeFresh, hfresh]
      omega
    · simp only [Client.takeFresh, packetSent]
  | again _ hn =>
    have hagain : u32 (m.client.packetRetrans + 1) = m.client.packetRetrans + 1 :=
      u32_of_lt (by omega)
    rw [Client.takeRetrans_eq, Client.takeSkipped_eq]
    refine counts_transmitted hlt wire ?_ ?_ packetSent
    · simp only [hagain]
      omega
    · dsimp only
      rw [Finset.card_insert_of_notMem hn, ← packetRetrans, hagain]
  | skips =>
    rw [Client.takeSkipped_eq]
    exact ⟨wire, sent, packetRetrans, packetSent⟩

theorem Recovers.counts (hr : Recovers m m') (hc : m.Counts) : m'.Counts := by
  obtain ⟨wire, sent, retrans, packetSent⟩ := hc
  constructor <;> rw [hr.client]
  · rwa [hr.wire]
  · exact sent
  · exact retrans
  · exact packetSent

theorem Counts.step (hb : m.Budget) (hc : m.Counts) (hs : step m i = .ok m') : m'.Counts := by
  cases step_cases hs with
  | send _ hid hs =>
    exact (hb.due hid).counts ⟨hc.wire, hc.sent, hc.packetRetrans, hc.packetSent⟩ hs
  | handleTimeout _ _ hid hs => exact (recovers_timeout hid hs).counts hc
  | ppsLog => exact ⟨hc.wire, hc.sent, hc.packetRetrans, hc.packetSent⟩
  | read _ _ hs => exact (recovers_readPacket hb.owned hs).counts hc

theorem Reachable.counts (h : Reachable maxPackets payload m) : m.Counts :=
  h.invariant counts_start fun _ _ _ hr hc hs => hc.step (Reachable.budget hr) hs

-- ---------------------------------------------------------------------------
-- The send loop
-- ---------------------------------------------------------------------------

theorem step_sendEventRunning (hs : step m i = .error .sendEventRunning) :
    ∃ id, m.sim.events.lookup id = some .send ∧
      (m.sim.cancel id).isExpired m.client.sendEvent = false := by
  rcases step_error hs with h | ⟨id, rfl, hid, hs⟩ | h | h
  · cases h
  · rcases send_error hs with ⟨-, hexp⟩ | h | h
    · exact ⟨id, hid, hexp⟩
    · rcases Client.createPacket_error h with h | h <;> cases h
    · cases h
  all_goals cases h

/-- One send loop and an exact budget, in every state between `StartApplication`
and `StopApplication`. -/
theorem one_send_loop (h : Reachable maxPackets payload m) (hmax : 1 ≤ maxPackets) :
    (m.client.sent < m.client.count → ∃! id, m.sim.events.lookup id = some .send) ∧
    (¬ m.client.sent < m.client.count → ∀ id, m.sim.events.lookup id ≠ some .send) ∧
    (∀ i, step m i ≠ .error .sendEventRunning) ∧
    m.client.sent = m.wire.length ∧
    m.client.sent = m.client.packetSent + m.client.packetRetrans ∧
    m.client.packetRetrans = m.client.retransmitPackets.card ∧
    m.client.packetSent = m.client.seqNum ∧
    m.client.sent ≤ m.client.count := by
  have hb := h.budget
  have hc := h.counts
  have hcount : 1 ≤ m.client.count := h.configured.1 ▸ hmax
  have hscheduled : m.SendScheduled ↔ m.client.sent < m.client.count := by
    rw [hb.scheduled]
    omega
  refine ⟨fun hlt => ?_, fun hge id hid => hge (hscheduled.mp ⟨id, hid⟩), fun i hs => ?_, hc.wire,
    hc.sent, hc.packetRetrans, hc.packetSent, ?_⟩
  · obtain ⟨id, hid⟩ := hscheduled.mpr hlt
    refine ⟨id, hid, fun a ha => ?_⟩
    exact Option.some.inj ((hb.current a ha).symm.trans (hb.current id hid))
  · obtain ⟨id, hid, hexp⟩ := step_sendEventRunning hs
    rw [hb.current id hid] at hexp
    simp [Simulator.isExpired] at hexp
  · have := hb.sent_le
    omega

theorem one_send_loop_after_gap : ∃ m, exec step (start 20 ⟨4, 0, none⟩) gapRun = .ok m ∧
    (∃! id, m.sim.events.lookup id = some .send) ∧ (∀ i, step m i ≠ .error .sendEventRunning) ∧
    m.wire.length = 11 ∧ m.client.packetSent + m.client.packetRetrans = 11 := by
  obtain ⟨m, hm, hs, hc⟩ : ∃ m, exec step (start 20 ⟨4, 0, none⟩) gapRun = .ok m ∧
      m.client.sent = 11 ∧ m.client.count = 20 := ⟨_, rfl, rfl, rfl⟩
  obtain ⟨hone, -, hexpired, hwire, hsum, -⟩ := one_send_loop ⟨_, hm⟩ (by decide)
  exact ⟨m, hm, hone (by omega), hexpired, by omega, by omega⟩

end Machine

end ReliableEcho
