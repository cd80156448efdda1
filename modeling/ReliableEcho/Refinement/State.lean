import ReliableEcho.Budget
import ReliableEcho.Lib.Paired
import ReliableEcho.SelectiveRepeat.Accounting

/-!
# The client as a sender

`view` reads a selective-repeat sender off a client. `Faithful` is what the
reading rests on: the window base is the least number not received, the four
fields of the queue agree, and the timer map holds exactly the pending timeouts.
`Wired` and `Tally` are what the wire and the counters say about the log.
-/

namespace ReliableEcho

open SelectiveRepeat (Line Copy Sender Step sends retransmitted lost recovered)
open Cursor (leastMissing leastMissing_le leastMissing_mono)

namespace Machine

variable {m m' : Machine} {h : RdtHeader} {p : Buffer} {line : ℕ → EventId → Line EventId}
  {c : Client} {ev : Event} {id s k : ℕ}

def view (m : Machine) : Sender EventId where
  next := m.client.seqNum
  ack := m.client.ackNum
  pending := m.client.pending
  received := m.client.receivedPackets
  retried := m.client.retransmitPackets
  timer s := m.client.timers.lookup s

/-- The timeout of `s` is pending, under the identifier `m_timers` has for it. -/
def TimerPending (m : Machine) (s : ℕ) : Prop :=
  ∃ id, m.client.timers.lookup s = some id ∧ m.sim.events.lookup id = some (.handleTimeout s)

def RetransmissionPending (m : Machine) (s : ℕ) : Prop :=
  m.client.retransmit = true ∧
    (s = m.client.retransSeq ∨ s ∈ m.client.retransmissions.map Prod.fst)

theorem mem_pending : s ∈ m.client.pending ↔ m.RetransmissionPending s := by
  cases h : m.client.retransmit <;> simp [RetransmissionPending, Client.pending, h]

/-- The timer map holds exactly the timeouts that are pending. -/
def Exact (m : Machine) : Prop :=
  ∀ s a, m.client.timers.lookup s = some a ↔ m.sim.events.lookup a = some (.handleTimeout s)

structure Faithful (m : Machine) : Prop where
  windowSize : m.client.windowSize = 10
  windowBase : m.client.windowBase = leastMissing m.client.receivedPackets
  queue : m.client.WellQueued
  exact : m.Exact

/-- The packet on the wire carries the number its log line has. -/
def Carries (sent : Copy × ℕ × EventId) (packet : Buffer) : Prop :=
  ∃ h data, RdtHeader.deserialize packet = some (h, data) ∧ h.getSeq = sent.2.1

structure Wired (m : Machine) : Prop where
  carries : List.Forall₂ Carries (sends m.log) m.wire
  /-- Each transmission starts a timer of its own. -/
  timers : (sends m.log).Pairwise fun a b => a.2.2 < b.2.2
  issued : ∀ a ∈ sends m.log, a.2.2 < m.sim.uid

structure Tally (m : Machine) : Prop where
  packetSent : m.client.packetSent = m.client.seqNum
  packetRetrans : m.client.packetRetrans = u32 (retransmitted m.log).length
  packetLost : m.client.packetLost = u32 (lost m.log).length
  retransRecv : m.client.retransRecv = u32 (recovered m.log).length

/-- `m'` is again such a client, and it is where the sender may go from `m`:
one step on, or nowhere as far as the sender can see. -/
structure Simulates (m m' : Machine) : Prop where
  faithful : m'.Faithful
  wired : m'.Wired
  tally : m'.Tally
  follows : (m'.view = m.view ∧ m'.log = m.log) ∨
    ∃ lines, Step 10 m.view lines m'.view ∧ m'.log = m.log ++ lines

theorem Wired.getElem? (hw : m.Wired) {i : ℕ} {packet : Buffer} (hp : m.wire[i]? = some packet) :
    ∃ e, (sends m.log)[i]? = some e ∧ Carries e packet :=
  hw.carries.exists_getElem? hp

theorem Wired.getSeq (hw : m.Wired) {packet data : Buffer} (hp : packet ∈ m.wire)
    (hd : RdtHeader.deserialize packet = some (h, data)) : ∃ e ∈ sends m.log, h.getSeq = e.2.1 := by
  obtain ⟨i, hi⟩ := List.mem_iff_getElem?.mp hp
  obtain ⟨e, he, _, _, hd', hseq⟩ := hw.getElem? hi
  rw [hd] at hd'
  cases hd'
  exact ⟨e, List.mem_of_getElem? he, hseq⟩

-- ---------------------------------------------------------------------------
-- Timers and timeouts
-- ---------------------------------------------------------------------------

theorem Exact.schedule (he : m.Exact) (hf : m.sim.Fresh) (hev : ∀ s, ev ≠ .handleTimeout s)
    (s a : ℕ) : m.client.timers.lookup s = some a ↔
      (m.sim.schedule ev).events.lookup a = some (.handleTimeout s) := by
  rw [he s a, Simulator.lookup_schedule]
  split
  · rename_i h
    rw [h, hf _ (Nat.le_refl _)]
    simp [hev s]
  · rfl

theorem Exact.cancel (he : m.Exact) (hid : m.sim.events.lookup id = some ev)
    (hev : ∀ s, ev ≠ .handleTimeout s) : Exact { m with sim := m.sim.cancel id } := by
  intro s a
  rw [he s a]
  simp only [Simulator.lookup_cancel]
  split
  · rename_i h
    rw [h, hid]
    simp [hev s]
  · rfl

theorem Exact.sendTo (he : m.Exact) (hf : m.sim.Fresh)
    (hn : m.client.timers.lookup h.getSeq = none) : (m.sendTo h p line).Exact := by
  intro s a
  have hno : m.sim.events.lookup a ≠ some (.handleTimeout h.getSeq) := by
    rw [ne_eq, ← he, hn]
    simp
  simp only [client_sendTo, sim_sendTo, Finmap.lookup_insert_eq, Simulator.lookup_schedule]
  by_cases hs : s = h.getSeq <;> by_cases ha : a = m.sim.uid
  · simp [hs, ha]
  · simp [hs, ha, hno, Ne.symm ha]
  · simp [hs, ha, he s, hf _ (Nat.le_refl _), Ne.symm hs]
  · simp [hs, ha, he s a]

theorem Exact.erase (he : m.Exact) (hk : m.client.timers.lookup k = some id)
    (hc : c.timers = m.client.timers.erase k) :
    Exact { m with sim := m.sim.cancel id, client := c } := by
  intro s a
  have hid := (he k id).mp hk
  have hno : a ≠ id → m.sim.events.lookup a ≠ some (.handleTimeout k) := by
    intro hne ha
    rw [← he, hk] at ha
    exact hne (Option.some.inj ha).symm
  simp only [hc, Finmap.lookup_erase_eq, Simulator.lookup_cancel]
  by_cases hs : s = k <;> by_cases ha : a = id
  · simp [hs, ha]
  · simp [hs, ha, hno ha]
  · simp [hs, ha, he s, hid, Ne.symm hs]
  · simp [hs, ha, he s a]

-- ---------------------------------------------------------------------------
-- The window
-- ---------------------------------------------------------------------------

/-- The base is not past the next fresh number, so the subtraction `Send` tests
the window with is exact. -/
theorem Faithful.windowBase_le (hf : m.Faithful) (ok : m.view.Ok 10) :
    m.client.windowBase ≤ m.client.seqNum := by
  rw [hf.windowBase]
  exact ok.base_le

theorem Faithful.sub_windowBase (hf : m.Faithful) (ok : m.view.Ok 10)
    (hseq : m.client.seqNum ≤ 65535) :
    u32 (m.client.seqNum + 2 ^ 32 - m.client.windowBase) =
      m.client.seqNum - m.client.windowBase := by
  have := hf.windowBase_le ok
  unfold u32
  omega

theorem Faithful.windowFull_iff (hf : m.Faithful) (ok : m.view.Ok 10)
    (hseq : m.client.seqNum ≤ 65535) :
    m.client.windowFull = true ↔ m.client.windowBase + 10 ≤ m.client.seqNum := by
  have := hf.windowBase_le ok
  rw [Client.windowFull, hf.sub_windowBase ok hseq, hf.windowSize, decide_eq_true_eq]
  omega

/-- Once a sent packet is resolved, the window loop stops at the least number
that is not. -/
theorem Faithful.advanceWindow (hf : m.Faithful) (ok : m.view.Ok 10)
    (hseq : m.client.seqNum ≤ 65535) (hs : s < m.client.seqNum) :
    Client.advanceWindow (insert s m.client.receivedPackets) (2 ^ 16 + 1) m.client.windowBase =
      some (leastMissing (insert s m.client.receivedPackets)) := by
  have hmono : m.client.windowBase ≤ leastMissing (insert s m.client.receivedPackets) := by
    rw [hf.windowBase]
    exact leastMissing_mono (Finset.subset_insert _ _)
  have hleast : leastMissing (insert s m.client.receivedPackets) ≤ m.client.seqNum := by
    refine leastMissing_le fun hm => ?_
    rcases Finset.mem_insert.mp hm with heq | hm
    · omega
    · exact absurd (ok.received_lt _ hm) (Nat.lt_irrefl _)
  exact Client.advanceWindow_eq hmono (by omega)

end Machine

end ReliableEcho
