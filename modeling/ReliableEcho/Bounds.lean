import ReliableEcho.Counters
import ReliableEcho.Echoes

/-!
# What the 16-bit keys bound

Entries of `m_receivedPackets` are never removed and the window loop never
passes the last 16-bit number, so in a run of any length the window stays below
65536, and so do the fresh numbers but for the window's size. Each number is
retransmitted once. So the counters of `PpsLog` never wrap, and never go back.
-/

namespace ReliableEcho

open SelectiveRepeat (Line)
open Cursor (leastMissing leastMissing_le leastMissing_mono)

def Event.isTimeout : Event → Bool
  | .handleTimeout _ => true
  | _ => false

namespace Simulator

variable {sim sim' : Simulator} {ev : Event} {id s : ℕ}

def timeouts (sim : Simulator) : Finset EventId :=
  sim.events.keys.filter fun id => (sim.events.lookup id).any Event.isTimeout

theorem mem_timeouts : id ∈ sim.timeouts ↔ ∃ s, sim.events.lookup id = some (.handleTimeout s) := by
  rw [timeouts, Finset.mem_filter, Finmap.mem_keys, ← Finmap.lookup_isSome]
  cases sim.events.lookup id with
  | none => simp
  | some ev => cases ev <;> simp [Event.isTimeout]

theorem timeouts_mono
    (h : ∀ a s, sim'.events.lookup a = some (.handleTimeout s) →
      sim.events.lookup a = some (.handleTimeout s)) :
    sim'.timeouts.card ≤ sim.timeouts.card :=
  Finset.card_le_card fun a ha => by
    obtain ⟨s, hs⟩ := mem_timeouts.mp ha
    exact mem_timeouts.mpr ⟨s, h a s hs⟩

theorem card_timeouts_schedule_of_ne (hev : ∀ s, ev ≠ .handleTimeout s) :
    (sim.schedule ev).timeouts.card ≤ sim.timeouts.card :=
  timeouts_mono fun a s ha => by
    rw [lookup_schedule] at ha
    split at ha
    · exact absurd (Option.some.inj ha) (hev s)
    · exact ha

theorem card_timeouts_schedule : (sim.schedule ev).timeouts.card ≤ sim.timeouts.card + 1 := by
  refine Nat.le_trans (Finset.card_le_card fun a ha => ?_) (Finset.card_insert_le sim.uid _)
  obtain ⟨s, hs⟩ := mem_timeouts.mp ha
  rw [lookup_schedule] at hs
  rw [Finset.mem_insert, mem_timeouts]
  split at hs
  · exact .inl ‹_›
  · exact .inr ⟨s, hs⟩

theorem card_timeouts_cancel (hid : sim.events.lookup id = some (.handleTimeout s)) :
    (sim.cancel id).timeouts.card + 1 ≤ sim.timeouts.card := by
  refine Finset.card_lt_card ⟨fun a ha => ?_, fun hsub => ?_⟩
  · obtain ⟨s, hs⟩ := mem_timeouts.mp ha
    exact mem_timeouts.mpr ⟨s, (lookup_of_cancel hs).2⟩
  · obtain ⟨s, hs⟩ := mem_timeouts.mp (hsub (mem_timeouts.mpr ⟨s, hid⟩))
    exact (lookup_of_cancel hs).1 rfl

end Simulator

instance : PartialOrder PpsCounters where
  le a b := a.packetSent ≤ b.packetSent ∧ a.packetLost ≤ b.packetLost ∧
    a.packetRetrans ≤ b.packetRetrans
  le_refl _ := ⟨Nat.le_refl _, Nat.le_refl _, Nat.le_refl _⟩
  le_trans _ _ _ h h' := ⟨h.1.trans h'.1, h.2.1.trans h'.2.1, h.2.2.trans h'.2.2⟩
  le_antisymm := by
    rintro ⟨_, _, _⟩ ⟨_, _, _⟩ h h'
    simp only [PpsCounters.mk.injEq]
    exact ⟨Nat.le_antisymm h.1 h'.1, Nat.le_antisymm h.2.1 h'.2.1, Nat.le_antisymm h.2.2 h'.2.2⟩

namespace Machine

variable {m m' : Machine} {i : Input} {c : Client} {id s base base' : ℕ} {received : Finset ℕ}
  {maxPackets : UInt32} {payload : Payload}

structure Bounded (m : Machine) : Prop where
  windowSize : m.client.windowSize = 10
  windowBase : m.client.windowBase = leastMissing m.client.receivedPackets
  windowBase_lt : m.client.windowBase < 65536
  seqNum_le : m.client.seqNum ≤ m.client.windowBase + 10
  ackNum_le : m.client.ackNum ≤ 65536
  retransmitPackets_lt : ∀ s ∈ m.client.retransmitPackets, s < 65536
  /-- A loss is counted where the ack cursor passes, or where a timer ran out. -/
  packetLost_le : m.client.packetLost + m.sim.timeouts.card ≤ m.client.ackNum + m.client.sent

theorem Bounded.sent_le (h : m.Bounded) (hc : m.Counts) : m.client.sent ≤ 131081 := by
  have hsub : m.client.retransmitPackets ⊆ Finset.range 65536 := fun s hs =>
    Finset.mem_range.mpr (h.retransmitPackets_lt s hs)
  have hcard := Finset.card_le_card hsub
  rw [Finset.card_range] at hcard
  have := h.seqNum_le
  have := h.windowBase_lt
  rw [hc.sent, hc.packetRetrans, hc.packetSent]
  omega

theorem bounded_start : Bounded (start maxPackets payload) where
  windowSize := rfl
  windowBase := Cursor.leastMissing_empty.symm
  windowBase_lt := Nat.zero_lt_succ _
  seqNum_le := Nat.zero_le _
  ackNum_le := Nat.zero_le _
  retransmitPackets_lt := fun s hs => by cases hs
  packetLost_le := by
    have hnone : (start maxPackets payload).sim.timeouts = ∅ := by
      refine Finset.eq_empty_of_forall_notMem fun a ha => ?_
      obtain ⟨s, hs⟩ := Simulator.mem_timeouts.mp ha
      rw [lookup_start] at hs
      split at hs
      · cases hs
      · split at hs <;> cases hs
    rw [hnone]
    exact Nat.le_refl 0

theorem windowBase_moved (hle : base ≤ leastMissing received)
    (h : Client.advanceWindow received (2 ^ 16 + 1) base = some base') :
    base' = leastMissing received ∧ base' < 65536 := by
  have hmissing : ¬ ∀ k < 65536, k ∈ received := by
    rw [← Client.advanceWindow_none (show 65536 ≤ 2 ^ 16 + 1 by decide), h]
    exact Option.some_ne_none _
  simp only [not_forall] at hmissing
  obtain ⟨k, hk, hn⟩ := hmissing
  have hlt : leastMissing received < 65536 := Nat.lt_of_le_of_lt (leastMissing_le hn) hk
  rw [Client.advanceWindow_eq hle hlt] at h
  cases h
  exact ⟨rfl, hlt⟩

-- ---------------------------------------------------------------------------
-- The handlers
-- ---------------------------------------------------------------------------

theorem Bounded.scheduleTransmit (h : m.Bounded) : m.scheduleTransmit.Bounded :=
  ⟨h.windowSize, h.windowBase, h.windowBase_lt, h.seqNum_le, h.ackNum_le, h.retransmitPackets_lt,
    Nat.le_trans (Nat.add_le_add_left (Simulator.card_timeouts_schedule_of_ne (by simp)) _)
      h.packetLost_le⟩

theorem Bounded.transmitted (h : m.Bounded) (hlt : m.client.sent + 1 < 4294967296)
    {header : RdtHeader} {p : Buffer} {line : ℕ → EventId → Line EventId} :
    (m.transmitted header p line).Bounded := by
  have hto : (m.sendTo header p line).Bounded := by
    refine ⟨h.windowSize, h.windowBase, h.windowBase_lt, h.seqNum_le, h.ackNum_le,
      h.retransmitPackets_lt, ?_⟩
    have hle := h.packetLost_le
    have hcard : (m.sim.schedule (.handleTimeout header.getSeq)).timeouts.card ≤ _ :=
      Simulator.card_timeouts_schedule
    simp only [client_sendTo, sim_sendTo, u32_of_lt hlt]
    omega
  rcases transmitted_cases with he | he <;> rw [he]
  · exact hto
  · exact hto.scheduleTransmit

theorem Bounded.seqNum_lt (h : m.Bounded) (hw : m.client.windowFull = false) :
    m.client.seqNum + 1 ≤ m.client.windowBase + 10 := by
  have := h.windowBase_lt
  have := h.seqNum_le
  simp only [Client.windowFull, h.windowSize, decide_eq_false_iff_not, u32] at hw
  omega

theorem Bounded.send (h : m.Bounded) (hd : m.Due) (hs : m.send = .ok m') : m'.Bounded := by
  have hlt : m.client.sent + 1 < 4294967296 := by
    have := hd.due
    have := hd.count_lt
    omega
  cases send_cases hs with
  | waits => exact h.scheduleTransmit
  | fresh _ hw =>
    have htaken : Bounded { m with client := m.client.takeFresh } :=
      ⟨h.windowSize, h.windowBase, h.windowBase_lt, (Nat.mod_le _ _).trans (h.seqNum_lt hw),
        h.ackNum_le, h.retransmitPackets_lt, h.packetLost_le⟩
    exact htaken.transmitted hlt
  | again =>
    have htaken : Bounded { m with client := m.client.takeRetrans } := by
      rw [Client.takeRetrans_eq, Client.takeSkipped_eq]
      refine ⟨h.windowSize, h.windowBase, h.windowBase_lt, h.seqNum_le, h.ackNum_le, fun s hs => ?_,
        h.packetLost_le⟩
      rcases Finset.mem_insert.mp hs with rfl | hs
      · exact u16_lt _
      · exact h.retransmitPackets_lt s hs
    refine htaken.transmitted ?_
    rw [Client.takeRetrans_eq, Client.takeSkipped_eq]
    exact hlt
  | skips =>
    refine Bounded.scheduleTransmit ?_
    rw [Client.takeSkipped_eq]
    exact ⟨h.windowSize, h.windowBase, h.windowBase_lt, h.seqNum_le, h.ackNum_le,
      h.retransmitPackets_lt, h.packetLost_le⟩

theorem Bounded.timeout (h : m.Bounded) (hc : m.Counts)
    (hid : m.sim.events.lookup id = some (.handleTimeout s))
    (hs : handleTimeout (write { m with sim := m.sim.cancel id } [.timeout id s]) s = .ok m') :
    m'.Bounded ∧ m.client.packetLost ≤ m'.client.packetLost := by
  have hsent := h.sent_le hc
  have hack := h.ackNum_le
  have hlost := h.packetLost_le
  have hcard : (m.sim.cancel id).timeouts.card + 1 ≤ _ := Simulator.card_timeouts_cancel hid
  obtain ⟨m₁, h₁, rfl⟩ := handleTimeout_ok.mp hs
  rw [Client.queueRetransmission_eq]
  rcases timeoutLoss_ok.mp h₁ with ⟨-, rfl⟩ | ⟨-, base, hloop, rfl⟩
  · have h32 : u32 (m.client.packetLost + 1) = m.client.packetLost + 1 := u32_of_lt (by omega)
    refine ⟨⟨h.windowSize, h.windowBase, h.windowBase_lt, h.seqNum_le, h.ackNum_le,
      h.retransmitPackets_lt, ?_⟩, ?_⟩
    · simp only [client_write, sim_write, h32]
      omega
    · simp [h32]
  · have hle : m.client.windowBase ≤ leastMissing (insert s m.client.receivedPackets) := by
      rw [h.windowBase]
      exact leastMissing_mono (Finset.subset_insert _ _)
    obtain ⟨hbase, hlt⟩ := windowBase_moved hle hloop
    refine ⟨⟨h.windowSize, hbase, hlt, ?_, h.ackNum_le, h.retransmitPackets_lt, ?_⟩, Nat.le_refl _⟩
    · have hseq := h.seqNum_le
      simp only [client_write, hbase]
      omega
    · simp only [client_write, sim_write]
      omega

theorem Bounded.read (h : m.Bounded) (hc : m.Counts) (ho : m.Owned) {packet : Buffer}
    (hs : m.readPacket packet = .ok m') :
    m'.Bounded ∧ m.client.packetLost ≤ m'.client.packetLost := by
  have hsent := h.sent_le hc
  have hack := h.ackNum_le
  have hlost := h.packetLost_le
  have hr := recovers_readPacket ho hs
  have hcard : m'.sim.timeouts.card ≤ m.sim.timeouts.card :=
    Simulator.timeouts_mono fun a s => hr.events a _
  obtain ⟨header, _, base, -, hloop, rfl⟩ := readPacket_ok.mp hs
  have ha := absorbs_taken m header.getSeq_lt
  have hseq16 := header.getSeq_lt
  have hle := ha.packetLost
  have hge := ha.counted
  generalize header.getSeq = s at hloop ha hseq16 hle hge hcard hr
  generalize m.taken s = m₁ at hloop ha hle hge hcard hr
  have hcard : m₁.sim.timeouts.card ≤ m.sim.timeouts.card := hcard
  rw [ha.client] at hloop
  have hbase₀ : m.client.windowBase ≤ leastMissing (insert s m.client.receivedPackets) := by
    rw [h.windowBase]
    exact leastMissing_mono (Finset.subset_insert _ _)
  obtain ⟨hbase, hlt⟩ := windowBase_moved hbase₀ hloop
  refine ⟨?_, hge (by omega)⟩
  have hlost' : m₁.client.packetLost + m₁.sim.timeouts.card ≤
      max m.client.ackNum (s + 1) + m.client.sent := by
    omega
  rw [ha.client]
  refine ⟨h.windowSize, hbase, hlt, ?_, max_le hack hseq16, h.retransmitPackets_lt, hlost'⟩
  have hseq := h.seqNum_le
  have hwindow := h.windowBase
  dsimp only
  omega

-- ---------------------------------------------------------------------------
-- The step
-- ---------------------------------------------------------------------------

/-- What `PpsLog` compares with its static counters. -/
def counters (m : Machine) : PpsCounters :=
  ⟨m.client.packetSent, m.client.packetLost, m.client.packetRetrans⟩

/-- What holds of a client before and after `StopApplication`. -/
structure Sound (m : Machine) : Prop where
  counts : m.Counts
  bounded : m.Bounded
  running : m.client.socket = true → m.Budget
  stopped : m.client.socket = false → ¬ m.SendScheduled

theorem Sound.counters_lt (h : m.Sound) : m.client.packetSent < 4294967296 ∧
    m.client.packetLost < 4294967296 ∧ m.client.packetRetrans < 4294967296 := by
  have := h.bounded.sent_le h.counts
  have := h.bounded.packetLost_le
  have := h.bounded.ackNum_le
  have := h.counts.sent
  omega

theorem retransmitPackets_send (hs : m.send = .ok m') :
    m.client.retransmitPackets ⊆ m'.client.retransmitPackets := by
  cases send_cases hs with
  | waits => exact subset_rfl
  | fresh =>
    rw [client_transmitted]
    exact subset_rfl
  | again =>
    rw [client_transmitted, Client.takeRetrans_eq, Client.takeSkipped_eq]
    exact Finset.subset_insert _ _
  | skips => rw [client_scheduleTransmit, Client.takeSkipped_eq]

theorem Sound.send (h : m.Sound) (hid : m.sim.events.lookup id = some .send)
    (hs : send { m with sim := m.sim.cancel id } = .ok m') :
    m'.Sound ∧ m.counters ≤ m'.counters := by
  have hsocket : m.client.socket = true := by
    by_contra hn
    exact h.stopped (by simpa using hn) ⟨id, hid⟩
  have hb := h.running hsocket
  have hd := hb.due hid
  have hstep : step m (.fire id) = .ok m' := by simpa [step, fire, hid] using hs
  have hcounts := h.counts.step hb hstep
  have hcancel : Bounded { m with sim := m.sim.cancel id } :=
    ⟨h.bounded.windowSize, h.bounded.windowBase, h.bounded.windowBase_lt, h.bounded.seqNum_le,
      h.bounded.ackNum_le, h.bounded.retransmitPackets_lt,
      Nat.le_trans (Nat.add_le_add_left (Simulator.timeouts_mono fun a s ha =>
        (Simulator.lookup_of_cancel ha).2) _) h.bounded.packetLost_le⟩
  have hlost : m'.client.packetLost = m.client.packetLost := by rw [client_send hs]
  have hsub := retransmitPackets_send hs
  have hseq := hd.seqNum_mono hs
  refine ⟨⟨hcounts, hcancel.send hd hs, fun _ => hb.step hstep, fun hn => ?_⟩, ?_, ?_, ?_⟩
  · rw [(step_frame hb hstep).2.2.2, hsocket] at hn
    cases hn
  · exact h.counts.packetSent.trans_le (hseq.trans_eq hcounts.packetSent.symm)
  · exact hlost.ge
  · exact h.counts.packetRetrans.trans_le
      ((Finset.card_le_card hsub).trans_eq hcounts.packetRetrans.symm)

theorem Sound.recovers (h : m.Sound) (hr : Recovers m m')
    (hbounded : m'.Bounded ∧ m.client.packetLost ≤ m'.client.packetLost)
    (hbudget : m.client.socket = true → m'.Budget) : m'.Sound ∧ m.counters ≤ m'.counters := by
  have hsocket : m'.client.socket = m.client.socket := by rw [hr.client]
  have hsent : m'.client.packetSent = m.client.packetSent := by rw [hr.client]
  have hretrans : m'.client.packetRetrans = m.client.packetRetrans := by rw [hr.client]
  refine ⟨⟨hr.counts h.counts, hbounded.1, fun hrun => hbudget (hsocket ▸ hrun), fun hn => ?_⟩,
    hsent.ge, hbounded.2, hretrans.ge⟩
  rintro ⟨a, ha⟩
  exact h.stopped (hsocket ▸ hn) ⟨a, hr.events a _ ha⟩

theorem Sound.ppsLog (h : m.Sound) (hid : m.sim.events.lookup id = some .ppsLog) :
    Sound (ppsLog { m with sim := m.sim.cancel id }) where
  counts := ⟨h.counts.wire, h.counts.sent, h.counts.packetRetrans, h.counts.packetSent⟩
  bounded := by
    have hb := h.bounded
    refine ⟨hb.windowSize, hb.windowBase, hb.windowBase_lt, hb.seqNum_le, hb.ackNum_le,
      hb.retransmitPackets_lt, Nat.le_trans (Nat.add_le_add_left ?_ _) hb.packetLost_le⟩
    refine Nat.le_trans (Simulator.card_timeouts_schedule_of_ne (by simp)) ?_
    exact Simulator.timeouts_mono fun a s ha => (Simulator.lookup_of_cancel ha).2
  running hrun := (h.running hrun).ppsLog hid
  stopped hn := by
    rintro ⟨a, ha⟩
    rw [sim_ppsLog, Simulator.lookup_schedule] at ha
    split at ha
    · cases ha
    · exact h.stopped hn ⟨a, (Simulator.lookup_of_cancel ha).2⟩

/-- An input that a client may take in either half of its life: after
`StopApplication` it has no socket to read from. -/
def Live (m : Machine) : Input → Prop
  | .read _ => m.client.socket = true
  | .fire _ => True

theorem Sound.step (h : m.Sound) (hlive : m.Live i) (hs : step m i = .ok m') :
    m'.Sound ∧ m.counters ≤ m'.counters := by
  have hstep := hs
  cases step_cases hs with
  | send _ hid hs => exact h.send hid hs
  | handleTimeout _ _ hid hs =>
    exact h.recovers (recovers_timeout hid hs) (h.bounded.timeout h.counts hid hs)
      fun hrun => (h.running hrun).step hstep
  | ppsLog _ hid => exact ⟨h.ppsLog hid, le_refl m.counters⟩
  | read _ _ hs =>
    have hb := h.running hlive
    exact h.recovers (recovers_readPacket hb.owned hs) (h.bounded.read h.counts hb.owned hs)
      fun _ => hb.step hstep

theorem Sound.silent (h : m.Sound) (hlive : m.Live i) (hs : Machine.step m i = .ok m')
    (hi : ∀ id, i = .fire id → m.sim.events.lookup id ≠ some .ppsLog) :
    m'.statics = m.statics ∧ m'.reports = m.reports := by
  cases step_cases hs with
  | send _ _ hs =>
    have hprinted := printed_send hs
    exact hprinted
  | handleTimeout _ _ hid hs => exact (recovers_timeout hid hs).printed
  | ppsLog id hid => exact absurd hid (hi id rfl)
  | read _ _ hs => exact (recovers_readPacket (h.running hlive).owned hs).printed

theorem Reachable.sound (h : Reachable maxPackets payload m) : m.Sound :=
  h.invariant ⟨counts_start, bounded_start, fun _ => budget_start, fun hn => (by cases hn)⟩
    fun m i m' hr hm hs => by
      refine (hm.step ?_ hs).1
      cases i with
      | fire id => trivial
      | read packet => exact (Reachable.configured hr).2.2.2

end Machine

end ReliableEcho
