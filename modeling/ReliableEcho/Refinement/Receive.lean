import ReliableEcho.Refinement.State

/-!
# HandleRead follows the sender

`Declares` is what a stretch of the gap loop does, and composes along it.
`Takes` is what a packet does before the window moves, whichever of the three
branches it took; with the window loop it is the sender's step `echo`.
-/

namespace ReliableEcho

open SelectiveRepeat (Line Sender Step echoLines sends retransmitted lost recovered)
open Cursor (leastMissing)

namespace Machine

variable {m m' m₁ m₂ : Machine} {c : Client} {gap gap' : List ℕ} {id s k n : ℕ}

-- ---------------------------------------------------------------------------
-- Cancelling a timer
-- ---------------------------------------------------------------------------

theorem cancelTimer_client (m : Machine) (k : ℕ) : (m.cancelTimer k).client =
    { m.client with timers := m.client.timers.erase k } := by
  unfold cancelTimer
  split
  · rename_i hk
    have he : m.client.timers.erase k = m.client.timers := by
      refine Finmap.ext_lookup fun s => ?_
      rw [Finmap.lookup_erase_eq]
      split
      · rename_i h
        rw [h, hk]
      · rfl
    rw [he]
  · rfl

theorem cancelTimer_frame (m : Machine) (k : ℕ) : (m.cancelTimer k).wire = m.wire ∧
    (m.cancelTimer k).log = m.log ∧ (m.cancelTimer k).sim.uid = m.sim.uid := by
  unfold cancelTimer
  split <;> exact ⟨rfl, rfl, rfl⟩

theorem Exact.cancelTimer (he : m.Exact) (k : ℕ) : (m.cancelTimer k).Exact := by
  unfold Machine.cancelTimer
  split
  · exact he
  · rename_i id hk
    exact he.erase hk rfl

-- ---------------------------------------------------------------------------
-- The gap loop
-- ---------------------------------------------------------------------------

/-- The numbers of `gap` were declared lost, in order. -/
structure Declares (m : Machine) (gap : List ℕ) (m' : Machine) : Prop where
  client : m'.client = { m.client with
    retransmit := m'.client.retransmit
    retransSeq := m'.client.retransSeq
    retransStop := m'.client.retransStop
    retransmissions := m'.client.retransmissions
    packetLost := m'.client.packetLost
    timers := m'.client.timers }
  wire : m'.wire = m.wire
  uid : m'.sim.uid = m.sim.uid
  queue : m'.client.WellQueued
  exact : m'.Exact
  pending : m'.client.pending = m.client.pending ++ gap
  timers : ∀ k, m'.client.timers.lookup k =
    if k ∈ gap then none else m.client.timers.lookup k
  log : m'.log = m.log ++ gap.map (.packetLoss .gap)
  packetLost : ∀ n, m.client.packetLost = u32 n → m'.client.packetLost = u32 (n + gap.length)

theorem Declares.refl (hq : m.client.WellQueued) (he : m.Exact) : Declares m [] m :=
  ⟨rfl, rfl, rfl, hq, he, by simp, by simp, by simp, by simp⟩

theorem Declares.trans (h : Declares m gap m₁) (h' : Declares m₁ gap' m₂) :
    Declares m (gap ++ gap') m₂ where
  client := by rw [h'.client, h.client]
  wire := h'.wire.trans h.wire
  uid := h'.uid.trans h.uid
  queue := h'.queue
  exact := h'.exact
  pending := by rw [h'.pending, h.pending, List.append_assoc]
  timers k := by
    rw [h'.timers, h.timers]
    by_cases h₁ : k ∈ gap <;> by_cases h₂ : k ∈ gap' <;> simp [h₁, h₂]
  log := by rw [h'.log, h.log, List.map_append, List.append_assoc]
  packetLost n hn := by
    rw [h'.packetLost _ (h.packetLost n hn), List.length_append, Nat.add_assoc]

theorem declares_gapLoss (hq : m.client.WellQueued) (he : m.Exact) (hs : s < 65535) :
    Declares m ([s].filter fun s => s ∉ m.client.receivedPackets ∧ s ∉ m.client.retransmitPackets)
      (m.gapLoss s) := by
  unfold gapLoss
  simp only
  split
  · rename_i hn
    rw [List.filter_cons_of_pos (by simpa using hn), List.filter_nil]
    generalize hcounted : { m.client with packetLost := u32 (m.client.packetLost + 1) } = counted
    generalize hqueued : counted.queueRetransmission s = queued
    have hqc : counted.WellQueued := by
      rw [← hcounted]
      exact ⟨hq.active, hq.idle, hq.pairs⟩
    have heq : queued = { m.client with
        retransmit := queued.retransmit
        retransSeq := queued.retransSeq
        retransStop := queued.retransStop
        retransmissions := queued.retransmissions
        packetLost := u32 (m.client.packetLost + 1) } := by
      rw [← hqueued, Client.queueRetransmission_eq, ← hcounted]
    have hqq : queued.WellQueued := hqueued ▸ hqc.queueRetransmission hs
    have hpending : queued.pending = m.client.pending ++ [s] := by
      rw [← hqueued, Client.pending_queueRetransmission hqc hs, ← hcounted]
      rfl
    have hexact : Exact (write { m with client := queued } [.packetLoss .gap s]) := by
      rw [heq]
      exact he
    obtain ⟨hwire, hlog, huid⟩ :=
      cancelTimer_frame (write { m with client := queued } [.packetLoss .gap s]) s
    have hc := cancelTimer_client (write { m with client := queued } [.packetLoss .gap s]) s
    refine ⟨?_, hwire, huid, ?_, hexact.cancelTimer s, ?_, ?_, hlog, ?_⟩ <;> rw [hc, client_write]
    · rw [heq]
    · exact ⟨hqq.active, hqq.idle, hqq.pairs⟩
    · exact hpending
    · intro k
      rw [heq, Finmap.lookup_erase_eq]
      simp
    · intro n hn
      rw [heq, hn]
      simp
  · rename_i hn
    rw [List.filter_cons_of_neg (by simpa using hn), List.filter_nil]
    exact .refl hq he

theorem declares_foldl (hq : m.client.WellQueued) (he : m.Exact) (seqs : List ℕ)
    (hs : ∀ s ∈ seqs, s < 65535) :
    Declares m (seqs.filter fun s => s ∉ m.client.receivedPackets ∧ s ∉ m.client.retransmitPackets)
      (seqs.foldl gapLoss m) := by
  induction seqs generalizing m with
  | nil => exact .refl hq he
  | cons s seqs ih =>
    have h := declares_gapLoss hq he (hs s (by simp))
    have h' := ih h.queue h.exact fun k hk => hs k (by simp [hk])
    have hc := h.client
    rw [show (m.gapLoss s).client.receivedPackets = m.client.receivedPackets by rw [hc],
      show (m.gapLoss s).client.retransmitPackets = m.client.retransmitPackets by rw [hc]] at h'
    rw [← List.singleton_append, List.filter_append]
    exact h.trans h'

-- ---------------------------------------------------------------------------
-- A packet
-- ---------------------------------------------------------------------------

/-- The echo of `s` was taken, and the window is now at `base`. -/
structure Takes (m : Machine) (s base : ℕ) (m' : Machine) : Prop where
  client : m'.client = { m.client with
    ackNum := max m.client.ackNum (s + 1)
    receivedPackets := insert s m.client.receivedPackets
    retransmit := m'.client.retransmit
    retransSeq := m'.client.retransSeq
    retransStop := m'.client.retransStop
    retransmissions := m'.client.retransmissions
    packetLost := m'.client.packetLost
    retransRecv := m'.client.retransRecv
    windowBase := base
    timers := m'.client.timers }
  wire : m'.wire = m.wire
  uid : m'.sim.uid = m.sim.uid
  queue : m'.client.WellQueued
  exact : m'.Exact
  pending : m'.client.pending = m.client.pending ++ m.view.gap s
  timers : ∀ k, m'.client.timers.lookup k =
    if k = s ∨ k ∈ m.view.gap s then none else m.client.timers.lookup k
  log : m'.log = m.log ++ echoLines s (m.view.gap s) (s < m.client.ackNum)
  packetLost : ∀ n, m.client.packetLost = u32 n →
    m'.client.packetLost = u32 (n + (m.view.gap s).length)
  retransRecv : ∀ n, m.client.retransRecv = u32 n →
    m'.client.retransRecv = u32 (n + if s < m.client.ackNum then 1 else 0)

def marked (m : Machine) (s : ℕ) : Machine :=
  let m := m.cancelTimer s
  let m := { m with client :=
    { m.client with receivedPackets := insert s m.client.receivedPackets } }
  m.write [.received s]

theorem taken_eq (m : Machine) (s : ℕ) : m.taken s = (m.marked s).classify s := rfl

theorem client_marked (m : Machine) (s : ℕ) : (m.marked s).client = { m.client with
    timers := m.client.timers.erase s
    receivedPackets := insert s m.client.receivedPackets } := by
  simp only [marked, client_write, cancelTimer_client]

theorem Takes.of_declares {r : ℕ} (hd : Declares (m.marked s) (m.view.gap s) m₁)
    (hr : ∀ n, m.client.retransRecv = u32 n → r = u32 (n + if s < m.client.ackNum then 1 else 0)) :
    Takes m s m.client.windowBase (write { m₁ with client := { m₁.client with
        ackNum := max m.client.ackNum (s + 1), retransRecv := r } }
      (if s < m.client.ackNum then [.receiveRetrans s] else [])) := by
  obtain ⟨hwire, hlog, huid⟩ := cancelTimer_frame m s
  have hc := client_marked m s
  refine ⟨?_, hd.wire.trans hwire, hd.uid.trans huid, ⟨hd.queue.active, hd.queue.idle,
    hd.queue.pairs⟩, hd.exact, ?_, ?_, ?_, ?_, hr⟩
  · rw [client_write, hd.client, hc]
  · exact hd.pending.trans (by rw [hc]; rfl)
  · intro k
    refine (hd.timers k).trans ?_
    rw [hc, Finmap.lookup_erase_eq]
    grind
  · have hl : (m.marked s).log = m.log ++ [.received s] := by simp [marked, hlog]
    rw [log_write, hd.log, hl]
    simp [echoLines]
  · intro n hn
    exact hd.packetLost n (by rw [hc]; exact hn)

theorem takes_taken (hq : m.client.WellQueued) (he : m.Exact) (ha : m.client.ackNum < 65536)
    (hs : s < 65535) : Takes m s m.client.windowBase (m.taken s) := by
  have hc := client_marked m s
  have hq₁ : (m.marked s).client.WellQueued := by
    rw [hc]
    exact ⟨hq.active, hq.idle, hq.pairs⟩
  have he₁ : (m.marked s).Exact := he.cancelTimer s
  have hack : (m.marked s).client.ackNum = m.client.ackNum := by rw [hc]
  have hrecv : (m.marked s).client.retransRecv = m.client.retransRecv := by rw [hc]
  rw [taken_eq]
  unfold classify
  rw [hack]
  split
  · -- the packet expected next
    rename_i heq
    have hd : Declares (m.marked s) (m.view.gap s) (m.marked s) := by
      rw [Sender.gap_eq_nil (Nat.le_of_eq heq)]
      exact .refl hq₁ he₁
    have ht := Takes.of_declares (r := (m.marked s).client.retransRecv) hd
      fun n hn => by rw [hrecv, hn, if_neg (by omega), Nat.add_zero]
    have hmax : max m.client.ackNum (s + 1) = u32 (m.client.ackNum + 1) := by
      rw [u32_of_lt (by omega)]
      omega
    rw [if_neg (by omega), write_nil, hmax] at ht
    exact ht
  split
  · -- a packet was overtaken
    rename_i hne hlt
    have hd : Declares (m.marked s) (m.view.gap s) ((m.marked s).gapLoop s) := by
      have hf := declares_foldl hq₁ he₁ (List.range' m.client.ackNum (s - m.client.ackNum))
        fun k hk => by
          rw [List.mem_range'_1] at hk
          omega
      rw [gapLoop, hack, u16_of_lt ha]
      convert hf using 1
      refine List.filter_congr fun k hk => decide_eq_decide.mpr ?_
      rw [List.mem_range'_1] at hk
      have hks : k ≠ s := by omega
      simp [hc, view, hks]
    have hrecv₂ : ((m.marked s).gapLoop s).client.retransRecv = m.client.retransRecv := by
      rw [hd.client, hrecv]
    have ht := Takes.of_declares (r := ((m.marked s).gapLoop s).client.retransRecv) hd
      fun n hn => by rw [hrecv₂, hn, if_neg (by omega), Nat.add_zero]
    have hmax : max m.client.ackNum (s + 1) = u32 (s + 1) := by
      rw [u32_of_lt (by omega)]
      omega
    rw [if_neg (by omega), write_nil, hmax] at ht
    exact ht
  · -- a packet the cursor has passed
    rename_i hne hlt
    have hd : Declares (m.marked s) (m.view.gap s) (m.marked s) := by
      rw [Sender.gap_eq_nil (Nat.le_of_not_lt hlt)]
      exact .refl hq₁ he₁
    have hsa : s < m.client.ackNum := by omega
    have ht := Takes.of_declares (r := u32 (m.client.retransRecv + 1)) hd (by
      intro n hn
      simp [hn, hsa])
    rw [if_pos hsa, Nat.max_eq_left (by omega), ← hack, ← hrecv] at ht
    exact ht

theorem Takes.moveWindow (T : Takes m s k m') (base : ℕ) :
    Takes m s base { m' with client := { m'.client with windowBase := base } } :=
  ⟨by rw [T.client], T.wire, T.uid, ⟨T.queue.active, T.queue.idle, T.queue.pairs⟩, T.exact,
    T.pending, T.timers, T.log, T.packetLost, T.retransRecv⟩

/-- What `HandleRead` does with an echo of a packet sent before. -/
theorem takes_readPacket (hf : m.Faithful) (hw : m.Wired) (ok : m.view.Ok 10)
    (hseq : m.client.seqNum ≤ 65535) (hsent : ∀ e ∈ sends m.log, e.2.1 < m.client.seqNum)
    {packet : Buffer} (hp : packet ∈ m.wire) (hs : m.readPacket packet = .ok m') :
    ∃ h data, RdtHeader.deserialize packet = some (h, data) ∧ h.getSeq < m.client.seqNum ∧
      Takes m h.getSeq (leastMissing (insert h.getSeq m.client.receivedPackets)) m' := by
  obtain ⟨h, data, base, hd, hb, rfl⟩ := readPacket_ok.mp hs
  obtain ⟨e, he, hseqe⟩ := hw.getSeq hp hd
  have hlt : h.getSeq < m.client.seqNum := hseqe ▸ hsent e he
  have hack : m.client.ackNum ≤ m.client.seqNum := ok.ack_le
  have T := takes_taken hf.queue hf.exact (by omega) (show h.getSeq < 65535 by omega)
  have hbase : base = leastMissing (insert h.getSeq m.client.receivedPackets) := by
    rw [T.client] at hb
    exact Option.some.inj (hb.symm.trans (hf.advanceWindow ok hseq hlt))
  exact ⟨h, data, hd, hlt, hbase ▸ T.moveWindow base⟩

theorem Takes.view_eq {base : ℕ} (T : Takes m s base m') : m'.view =
    { m.view with
      ack := max m.view.ack (s + 1)
      received := insert s m.view.received
      pending := m.view.pending ++ m.view.gap s
      timer := fun k => if k = s ∨ k ∈ m.view.gap s then none else m.view.timer k } := by
  have htimer : (fun k => m'.client.timers.lookup k) = _ := funext T.timers
  have hpending : m'.client.pending = m.view.pending ++ m.view.gap s := T.pending
  simp only [view, htimer, hpending]
  rw [T.client]

theorem read_simulates (hf : m.Faithful) (hw : m.Wired) (ht : m.Tally) (ok : m.view.Ok 10)
    (hseq : m.client.seqNum ≤ 65535) (hsent : ∀ e ∈ sends m.log, e.2.1 < m.client.seqNum)
    {packet : Buffer} (hp : packet ∈ m.wire) (hs : m.readPacket packet = .ok m') :
    Simulates m m' := by
  obtain ⟨h, data, -, hlt, T⟩ := takes_readPacket hf hw ok hseq hsent hp hs
  have hsends : sends m'.log = sends m.log := by rw [T.log]; simp
  refine ⟨⟨?_, ?_, T.queue, T.exact⟩, ⟨?_, ?_, ?_⟩, ⟨?_, ?_, ?_, ?_⟩, .inr ⟨_, ?_, T.log⟩⟩
  · rw [T.client]
    exact hf.windowSize
  · rw [T.client]
  · rw [hsends, T.wire]
    exact hw.carries
  · rw [hsends]
    exact hw.timers
  · rw [hsends, T.uid]
    exact hw.issued
  · rw [T.client]
    exact ht.packetSent
  · rw [T.client, T.log]
    simpa using ht.packetRetrans
  · refine (T.packetLost _ ht.packetLost).trans ?_
    rw [T.log]
    simp
  · refine (T.retransRecv _ ht.retransRecv).trans ?_
    rw [T.log]
    by_cases hsa : h.getSeq < m.client.ackNum <;> simp [hsa]
  · rw [T.view_eq]
    exact .echo hlt

end Machine

end ReliableEcho
