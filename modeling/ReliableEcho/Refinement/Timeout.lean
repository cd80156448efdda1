import ReliableEcho.Refinement.State

/-!
# HandleTimeout follows the sender

A timeout before the retransmission is the sender's step `expire`; one after it
is `giveUp`. Either way the number is queued and its timer is gone.
-/

namespace ReliableEcho

open SelectiveRepeat (Line Cause Step sends retransmitted lost recovered)
open Cursor (leastMissing)

namespace Machine

variable {m m' m₁ : Machine} {c : Client} {cause : Cause} {id s : ℕ}

/-- The machine after the timeout of `s`, with the client `c` that counted the
loss or gave the packet up. -/
structure Expires (m : Machine) (id s : ℕ) (cause : Cause) (c : Client) (m' : Machine) : Prop where
  client : m'.client = { c with
    retransmit := m'.client.retransmit
    retransSeq := m'.client.retransSeq
    retransStop := m'.client.retransStop
    retransmissions := m'.client.retransmissions
    timers := c.timers.erase s }
  sim : m'.sim = m.sim.cancel id
  wire : m'.wire = m.wire
  queue : m'.client.WellQueued
  pending : m'.client.pending = c.pending ++ [s]
  log : m'.log = m.log ++ [.timeout id s, .packetLoss cause s]

theorem expires_of_handleTimeout (hq : m.client.WellQueued) (hs : s < 65535)
    (h : handleTimeout (write { m with sim := m.sim.cancel id } [.timeout id s]) s = .ok m') :
    (s ∉ m.client.retransmitPackets ∧
      Expires m id s .timeout { m.client with packetLost := u32 (m.client.packetLost + 1) } m') ∨
    (s ∈ m.client.retransmitPackets ∧ ∃ base,
      Client.advanceWindow (insert s m.client.receivedPackets) (2 ^ 16 + 1) m.client.windowBase =
        some base ∧
      Expires m id s .giveUp { m.client with
        receivedPackets := insert s m.client.receivedPackets, windowBase := base } m') := by
  have expires : ∀ c cause, c.WellQueued → Expires m id s cause c
      { m with
        sim := m.sim.cancel id
        client := { c.queueRetransmission s with
          timers := (c.queueRetransmission s).timers.erase s }
        log := m.log ++ [.timeout id s, .packetLoss cause s] } := by
    intro c cause hqc
    have hqueue := hqc.queueRetransmission hs
    refine ⟨?_, rfl, rfl, ⟨hqueue.active, hqueue.idle, hqueue.pairs⟩,
      Client.pending_queueRetransmission hqc hs, rfl⟩
    rw [Client.queueRetransmission_eq]
  obtain ⟨m₁, h₁, rfl⟩ := handleTimeout_ok.mp h
  rcases timeoutLoss_ok.mp h₁ with ⟨hnew, hm⟩ | ⟨hold, base, hb, hm⟩
  · refine .inl ⟨hnew, ?_⟩
    rw [hm]
    simpa [write] using expires { m.client with packetLost := u32 (m.client.packetLost + 1) }
      .timeout ⟨hq.active, hq.idle, hq.pairs⟩
  · refine .inr ⟨hold, base, hb, ?_⟩
    rw [hm]
    simpa [write] using expires { m.client with
      receivedPackets := insert s m.client.receivedPackets, windowBase := base }
      .giveUp ⟨hq.active, hq.idle, hq.pairs⟩

theorem Expires.faithful (he : Expires m id s cause c m') (hf : m.Faithful)
    (hk : m.client.timers.lookup s = some id) (hsize : c.windowSize = m.client.windowSize)
    (hbase : c.windowBase = leastMissing c.receivedPackets) (ht : c.timers = m.client.timers) :
    m'.Faithful where
  windowSize := by
    rw [he.client]
    exact hsize.trans hf.windowSize
  windowBase := by
    rw [he.client]
    exact hbase
  queue := he.queue
  exact := by
    have hexact : Exact { m with sim := m.sim.cancel id, client := m'.client } := by
      refine hf.exact.erase hk ?_
      rw [he.client, ht]
    intro k a
    rw [he.sim]
    exact hexact k a

theorem Expires.wired (he : Expires m id s cause c m') (hw : m.Wired) : m'.Wired := by
  have hsends : sends m'.log = sends m.log := by rw [he.log]; simp
  refine ⟨?_, ?_, ?_⟩ <;> rw [hsends]
  · rw [he.wire]
    exact hw.carries
  · exact hw.timers
  · rw [he.sim]
    exact hw.issued

theorem Expires.view_eq (he : Expires m id s cause c m') : m'.view =
    { view { m with client := c } with
      pending := c.pending ++ [s]
      timer := fun k => if k = s then none else c.timers.lookup k } := by
  have htimer : (fun k => m'.client.timers.lookup k) =
      fun k => if k = s then none else c.timers.lookup k := by
    funext k
    rw [he.client, Finmap.lookup_erase_eq]
  simp only [view, htimer, he.pending]
  rw [he.client]

section
variable (hf : m.Faithful) (hw : m.Wired) (ht : m.Tally) (ok : m.view.Ok 10)
  (hseq : m.client.seqNum ≤ 65535) (hid : m.sim.events.lookup id = some (.handleTimeout s))
include hf hw ht ok hseq hid

theorem timeout_simulates
    (hs : handleTimeout (write { m with sim := m.sim.cancel id } [.timeout id s]) s = .ok m') :
    Simulates m m' := by
  have hk : m.client.timers.lookup s = some id := (hf.exact s id).mpr hid
  have hlt : s < m.client.seqNum := ok.timer_lt s id hk
  rcases expires_of_handleTimeout hf.queue (by omega) hs with ⟨hnew, he⟩ | ⟨hold, base, hb, he⟩
  · refine ⟨he.faithful hf hk rfl hf.windowBase rfl, he.wired hw, ⟨?_, ?_, ?_, ?_⟩,
      .inr ⟨_, ?_, he.log⟩⟩
    · rw [he.client]
      exact ht.packetSent
    · rw [he.client, he.log]
      simpa using ht.packetRetrans
    · rw [he.client, he.log]
      simp [ht.packetLost]
    · rw [he.client, he.log]
      simpa using ht.retransRecv
    · rw [he.view_eq]
      exact .expire (σ := m.view) hk hnew
  · have hbase : base = leastMissing (insert s m.client.receivedPackets) :=
      Option.some.inj (hb.symm.trans (hf.advanceWindow ok hseq hlt))
    refine ⟨he.faithful hf hk rfl hbase rfl, he.wired hw, ⟨?_, ?_, ?_, ?_⟩,
      .inr ⟨_, ?_, he.log⟩⟩
    · rw [he.client]
      exact ht.packetSent
    · rw [he.client, he.log]
      simpa using ht.packetRetrans
    · rw [he.client, he.log]
      simpa using ht.packetLost
    · rw [he.client, he.log]
      simpa using ht.retransRecv
    · rw [he.view_eq]
      exact .giveUp (σ := m.view) hk hold
end

end Machine

end ReliableEcho
