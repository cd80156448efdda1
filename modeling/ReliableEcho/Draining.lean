import ReliableEcho.Counters
import ReliableEcho.Echoes
import ReliableEcho.Window

/-!
# Draining the retransmission queue

An entry of the queue is a range of one number, so `Send` is done with it at
once. The end of a range that has to wait is stored in 16 bits: 65535 queued
behind another entry gets the end 0, and `Send` leaves it only when
`m_retransSeq` is back at 0.
-/

namespace ReliableEcho

open SelectiveRepeat (Line retransmitted)
open Runs (exec EachStep Throughout)

namespace Client

variable {c : Client} {seq : ℕ}

def queue (c : Client) : Bool × ℕ × ℕ × List (ℕ × ℕ) :=
  (c.retransmit, c.retransSeq, c.retransStop, c.retransmissions)

theorem queue_queueRetransmission {c' : Client} (h : c.queue = c'.queue) :
    (c.queueRetransmission seq).queue = (c'.queueRetransmission seq).queue := by
  simp only [queue, Prod.mk.injEq] at h
  obtain ⟨h₁, h₂, h₃, h₄⟩ := h
  unfold Client.queueRetransmission
  rw [h₁]
  split <;> simp [queue, h₂, h₃, h₄]

/-- What the fields of the queue hold in every run, however long. -/
structure Stored (c : Client) : Prop where
  idle : c.retransmit = false → c.retransmissions = []
  stop_le : c.retransStop ≤ 65536
  pairs : ∀ pair ∈ c.retransmissions, pair.2 < 65536

def SingleNumbers (c : Client) : Prop :=
  c.retransmit = true → c.retransStop = c.retransSeq + 1 ∧
    ∀ pair ∈ c.retransmissions, pair.2 = pair.1 + 1

theorem Stored.queueRetransmission (h : c.Stored) (hs : seq < 65536) :
    (c.queueRetransmission seq).Stored := by
  have h32 : u32 (seq + 1) = seq + 1 := u32_of_lt (by omega)
  cases hr : c.retransmit with
  | false =>
    refine ⟨?_, ?_, ?_⟩ <;> simp [Client.queueRetransmission, hr, h.idle hr, h32]
    omega
  | true =>
    refine ⟨?_, ?_, ?_⟩ <;> simp only [Client.queueRetransmission, hr, Bool.not_true,
      Bool.false_eq_true, ↓reduceIte, List.mem_append, List.mem_singleton]
    · simp
    · exact h.stop_le
    · rintro pair (hp | rfl)
      · exact h.pairs pair hp
      · exact u16_lt _

theorem singleNumbers_queueRetransmission (h : c.Stored) (hc : c.SingleNumbers) (hs : seq < 65536) :
    (c.queueRetransmission seq).SingleNumbers ↔ (seq = 65535 → c.retransmit = false) := by
  have h32 : u32 (seq + 1) = seq + 1 := u32_of_lt (by omega)
  cases hr : c.retransmit with
  | false => simp [SingleNumbers, Client.queueRetransmission, hr, h.idle hr, h32]
  | true =>
    obtain ⟨hstop, hpairs⟩ := hc hr
    have hlast : u16 (seq + 1) = u16 seq + 1 ↔ seq ≠ 65535 := by
      unfold u16
      omega
    simp only [SingleNumbers, Client.queueRetransmission, hr, Bool.not_true, Bool.false_eq_true,
      ↓reduceIte, List.mem_append, List.mem_singleton, hstop, true_and, forall_const,
      Bool.true_eq_false, imp_false]
    constructor
    · intro hall
      exact hlast.mp (hall (u16 seq, u16 (seq + 1)) (.inr rfl))
    · rintro hne pair (hp | rfl)
      · exact hpairs pair hp
      · exact hlast.mpr hne

theorem Stored.takeSkipped (h : c.Stored) : c.takeSkipped.Stored := by
  unfold Client.takeSkipped nextRetransmission
  dsimp only
  split
  · split
    · rename_i hq
      exact ⟨fun _ => hq, h.stop_le, h.pairs⟩
    · rename_i first stop rest hq
      refine ⟨fun hr => ?_, ?_, fun pair hp => h.pairs pair (by simp [hq, hp])⟩
      · have := h.idle hr
        simp_all
      · have : stop < 65536 := h.pairs (first, stop) (by simp [hq])
        exact Nat.le_of_lt this
  · exact ⟨h.idle, h.stop_le, h.pairs⟩

theorem takeSkipped_single (h : c.Stored) (hc : c.SingleNumbers) (hr : c.retransmit = true) :
    c.takeSkipped.pending = c.pending.tail ∧ c.takeSkipped.SingleNumbers := by
  obtain ⟨hstop, hpairs⟩ := hc hr
  have hle := h.stop_le
  have h32 : u32 (c.retransSeq + 1) = c.retransStop := by rw [hstop, u32_of_lt (by omega)]
  unfold Client.takeSkipped nextRetransmission
  simp only [h32, ↓reduceIte]
  cases hq : c.retransmissions with
  | nil => exact ⟨by simp [pending, hr, hq], by simp [SingleNumbers]⟩
  | cons pair rest =>
    refine ⟨by simp [pending, hr, hq], fun _ => ⟨hpairs pair (by simp [hq]), fun p hp => ?_⟩⟩
    exact hpairs p (by simp [hq, show p ∈ rest from hp])

end Client

namespace Machine

variable {m m' : Machine} {i : Input} {id s : ℕ} {P : Client → Prop} {maxPackets : UInt32}
  {payload : Payload}

-- ---------------------------------------------------------------------------
-- What the handlers do to the queue
-- ---------------------------------------------------------------------------

/-- `P` looks at the queue alone. -/
def OfQueue (P : Client → Prop) : Prop := ∀ c c' : Client, c.queue = c'.queue → P c → P c'

theorem queue_taken (hP : OfQueue P)
    (hq : ∀ (c : Client) (k : ℕ), k < 65535 → P c → P (c.queueRetransmission k))
    (h : P m.client) (hs : s < 65536) : P (m.taken s).client := by
  have hgap : ∀ (m : Machine) (k : ℕ), k < 65535 → P m.client → P (m.gapLoss k).client := by
    intro m k hk h
    unfold gapLoss
    dsimp only
    split
    · rw [cancelTimer_client]
      have hcounted : P { m.client with packetLost := u32 (m.client.packetLost + 1) } :=
        hP m.client _ rfl h
      exact hP (Client.queueRetransmission _ k) _ rfl (hq _ k hk hcounted)
    · exact h
  have hloop : ∀ (seqs : List ℕ) (m : Machine), (∀ k ∈ seqs, k < 65535) → P m.client →
      P (seqs.foldl gapLoss m).client := by
    intro seqs
    induction seqs with
    | nil => exact fun _ _ h => h
    | cons k seqs ih =>
      exact fun m hk h => ih (m.gapLoss k) (fun a ha => hk a (by simp [ha]))
        (hgap m k (hk k (by simp)) h)
  have hmarked : P (m.marked s).client := by
    rw [client_marked]
    exact hP m.client _ rfl h
  rw [taken_eq]
  unfold classify
  split
  · exact hP (m.marked s).client _ rfl hmarked
  split
  · rename_i hne hlt
    refine hP ((m.marked s).gapLoop s).client _ rfl (hloop _ _ (fun k hk => ?_) hmarked)
    rw [List.mem_range'_1] at hk
    omega
  · exact hP (m.marked s).client _ rfl hmarked

theorem queue_readPacket (hP : OfQueue P)
    (hq : ∀ (c : Client) (k : ℕ), k < 65535 → P c → P (c.queueRetransmission k))
    (h : P m.client) {packet : Buffer} (hs : m.readPacket packet = .ok m') : P m'.client := by
  obtain ⟨hdr, _, base, -, -, rfl⟩ := readPacket_ok.mp hs
  exact hP (m.taken hdr.getSeq).client _ rfl (queue_taken hP hq h hdr.getSeq_lt)

theorem queue_handleTimeout (hs : m.handleTimeout s = .ok m') :
    m'.client.queue = (m.client.queueRetransmission s).queue := by
  obtain ⟨m₁, h₁, rfl⟩ := handleTimeout_ok.mp hs
  have hq : m₁.client.queue = m.client.queue := by
    rcases timeoutLoss_ok.mp h₁ with ⟨-, rfl⟩ | ⟨-, base, -, rfl⟩ <;> rfl
  exact Client.queue_queueRetransmission hq

theorem queue_send (hs : m.send = .ok m') : m'.client.queue =
    if m.client.retransmit then m.client.takeSkipped.queue else m.client.queue := by
  cases send_cases hs with
  | waits hr =>
    rw [if_neg (by simp [hr])]
    rfl
  | fresh hr =>
    rw [if_neg (by simp [hr]), client_transmitted]
    rfl
  | again hr =>
    rw [if_pos hr, client_transmitted, Client.takeRetrans_eq]
    rfl
  | skips hr =>
    rw [if_pos hr]
    rfl

-- ---------------------------------------------------------------------------
-- Runs of Send alone
-- ---------------------------------------------------------------------------

def OnlySends (m : Machine) (is : List Input) : Prop :=
  EachStep step (fun m i => ∃ id, i = .fire id ∧ m.sim.events.lookup id = some .send) m is

/-- In the retransmit mode each `Send` retires one entry, so that as many of
them as there are entries end it, having retransmitted nothing else. -/
def Drains (m : Machine) : Prop :=
  m.client.retransmit = true →
    (m.client.retransStop = m.client.retransSeq + 1 ∧
      ∀ pair ∈ m.client.retransmissions, pair.2 = pair.1 + 1) ∧
    ∀ is m', m.OnlySends is → is.length ≤ m.client.pending.length → exec step m is = .ok m' →
      m'.client.pending = m.client.pending.drop is.length ∧
      (m'.client.retransmit = true ↔ is.length < m.client.pending.length) ∧
      (is.length = m.client.pending.length → m'.client.retransmissions = []) ∧
      ∃ lines, m'.log = m.log ++ lines ∧ ∀ s ∈ retransmitted lines, s ∈ m.client.pending

theorem stored_ofQueue : OfQueue Client.Stored := by
  rintro c c' hq ⟨idle, stop, pairs⟩
  simp only [Client.queue, Prod.mk.injEq] at hq
  obtain ⟨h₁, h₂, h₃, h₄⟩ := hq
  exact ⟨h₁ ▸ h₄ ▸ idle, h₃ ▸ stop, h₄ ▸ pairs⟩

theorem singleNumbers_ofQueue : OfQueue Client.SingleNumbers := by
  intro c c' hq h
  simp only [Client.queue, Prod.mk.injEq] at hq
  obtain ⟨h₁, h₂, h₃, h₄⟩ := hq
  rwa [Client.SingleNumbers, ← h₁, ← h₂, ← h₃, ← h₄]

theorem pending_congr {c c' : Client} (hq : c.queue = c'.queue) : c.pending = c'.pending := by
  simp only [Client.queue, Prod.mk.injEq] at hq
  simp only [Client.pending, hq]

theorem mem_pending_of_send (h : m.client.Stored) (hc : m.client.SingleNumbers)
    (hs : m.send = .ok m') : ∃ lines, m'.log = m.log ++ lines ∧
      ∀ s ∈ retransmitted lines, s ∈ m.client.pending := by
  cases send_cases hs with
  | waits => exact ⟨[], by simp, by simp⟩
  | fresh => exact ⟨_, log_transmitted, by simp⟩
  | again hr =>
    refine ⟨_, log_transmitted, fun s hs => ?_⟩
    have hlt : m.client.retransSeq < 65536 := by
      have := h.stop_le
      have := (hc hr).1
      omega
    rw [RdtHeader.getSeq_setSeq, u16_of_lt hlt] at hs
    rw [SelectiveRepeat.retransmitted_packetRetrans, List.mem_singleton] at hs
    rw [Client.pending_active hr, hs]
    exact List.mem_cons_self
  | skips => exact ⟨[], by simp, by simp⟩

theorem drain_exec (is : List Input) (h : m.client.Stored) (hc : m.client.SingleNumbers)
    (hsends : m.OnlySends is) (hlen : is.length ≤ m.client.pending.length)
    (hs : exec step m is = .ok m') :
    m'.client.Stored ∧ m'.client.pending = m.client.pending.drop is.length ∧
      ∃ lines, m'.log = m.log ++ lines ∧ ∀ s ∈ retransmitted lines, s ∈ m.client.pending := by
  induction is generalizing m with
  | nil =>
    cases hs
    exact ⟨h, rfl, [], by simp, by simp⟩
  | cons i is ih =>
    obtain ⟨m₁, hstep, hrun⟩ := Runs.exec_cons.mp hs
    obtain ⟨⟨id, rfl, hid⟩, hrest⟩ := hsends
    have hsend : send { m with sim := m.sim.cancel id } = .ok m₁ := by
      simpa [step, fire, hid] using hstep
    have hr : m.client.retransmit = true := by
      by_contra hr
      simp [Client.pending_idle (by simpa using hr)] at hlen
    have hq : m.client.takeSkipped.queue = m₁.client.queue := by
      rw [queue_send hsend, if_pos hr]
    obtain ⟨htail, hsingle⟩ := Client.takeSkipped_single h hc hr
    rw [pending_congr hq] at htail
    obtain ⟨lines, hl, hmem⟩ :=
      mem_pending_of_send (m := { m with sim := m.sim.cancel id }) h hc hsend
    obtain ⟨h', hpending, lines', hl', hmem'⟩ := ih (stored_ofQueue _ _ hq h.takeSkipped)
      (singleNumbers_ofQueue _ _ hq hsingle) (hrest m₁ hstep)
      (by
        rw [htail, List.length_tail]
        simp only [List.length_cons] at hlen
        omega) hrun
    refine ⟨h', ?_, lines ++ lines', by rw [hl', hl, List.append_assoc], fun s hs => ?_⟩
    · rw [hpending, htail, List.drop_tail, List.length_cons]
    · rw [SelectiveRepeat.retransmitted_append, List.mem_append] at hs
      rcases hs with hs | hs
      · exact hmem s hs
      · exact List.mem_of_mem_tail (htail ▸ hmem' s hs)

theorem drains_iff (h : m.client.Stored) : m.Drains ↔ m.client.SingleNumbers := by
  refine ⟨fun hd hr => (hd hr).1, fun hc hr => ⟨hc hr, fun is m' hsends hlen hs => ?_⟩⟩
  obtain ⟨h', hpending, hlines⟩ := drain_exec is h hc hsends hlen hs
  have hmode : m'.client.retransmit = true ↔ is.length < m.client.pending.length := by
    rw [← List.drop_eq_nil_iff.not.trans Nat.not_le, ← hpending]
    cases hr' : m'.client.retransmit <;> simp [Client.pending, hr']
  refine ⟨hpending, hmode, fun heq => h'.idle ?_, hlines⟩
  simpa [heq] using hmode

-- ---------------------------------------------------------------------------
-- Runs
-- ---------------------------------------------------------------------------

/-- 65535 does not time out while an entry is active, which it would wait behind. -/
def LastNeverWaits (m : Machine) : Input → Prop
  | .fire id => m.sim.events.lookup id = some (.handleTimeout 65535) → m.client.retransmit = false
  | .read _ => True

theorem Reachable.stored (h : Reachable maxPackets payload m) : m.client.Stored := by
  refine h.invariant (P := fun m => m.client.Stored)
    ⟨fun _ => rfl, Nat.zero_le _, fun _ hp => nomatch hp⟩ ?_
  intro m i m' hr hst hs
  cases step_cases hs with
  | send _ _ hs =>
    have hq := queue_send hs
    split at hq
    · exact stored_ofQueue _ _ hq.symm hst.takeSkipped
    · exact stored_ofQueue _ _ hq.symm hst
  | handleTimeout _ seq hid hs =>
    have hlt : seq < 65536 := Reachable.timeout_lt hr hid
    exact stored_ofQueue _ _ (queue_handleTimeout hs).symm (hst.queueRetransmission hlt)
  | ppsLog => exact stored_ofQueue m.client _ rfl hst
  | read _ _ hs =>
    exact queue_readPacket stored_ofQueue
      (fun c k hk hc => hc.queueRetransmission (by omega)) hst hs

/-- Every step but the timeout of 65535 in the retransmit mode keeps the entries
ranges of one number. -/
theorem singleNumbers_step (hr : Reachable maxPackets payload m) (h : m.client.SingleNumbers)
    (hs : step m i = .ok m') : m'.client.SingleNumbers ↔ LastNeverWaits m i := by
  have hst := hr.stored
  have congr : ∀ {c c' : Client}, c.queue = c'.queue → (c.SingleNumbers ↔ c'.SingleNumbers) :=
    fun hq => ⟨singleNumbers_ofQueue _ _ hq, singleNumbers_ofQueue _ _ hq.symm⟩
  cases step_cases hs with
  | send _ hid hs =>
    refine iff_of_true ?_ (by simp [LastNeverWaits, hid])
    have hq := queue_send hs
    split at hq
    · rename_i hr
      exact (congr hq).mpr (Client.takeSkipped_single hst h hr).2
    · exact (congr hq).mpr h
  | handleTimeout _ _ hid hs =>
    refine (congr (queue_handleTimeout hs)).trans ?_
    refine (Client.singleNumbers_queueRetransmission hst h (hr.timeout_lt hid)).trans ?_
    simp [LastNeverWaits, hid]
  | ppsLog _ hid => exact iff_of_true h (by simp [LastNeverWaits, hid])
  | read _ _ hs =>
    refine iff_of_true ?_ trivial
    have hboth : OfQueue fun c => c.Stored ∧ c.SingleNumbers := fun c c' hq hc =>
      ⟨stored_ofQueue c c' hq hc.1, singleNumbers_ofQueue c c' hq hc.2⟩
    refine (queue_readPacket hboth (fun c k hk hc => ?_) ⟨hst, h⟩ hs).2
    exact ⟨hc.1.queueRetransmission (by omega), (Client.singleNumbers_queueRetransmission hc.1 hc.2
      (by omega)).mpr (by omega)⟩

/-- In a run the retransmit mode drains throughout exactly when 65535 never has
to wait in the queue. -/
theorem drains_throughout_iff (is : List Input)
    (h : exec step (start maxPackets payload) is = .ok m) :
    Throughout step Drains (start maxPackets payload) is ↔
      EachStep step LastNeverWaits (start maxPackets payload) is := by
  refine Runs.throughout_iff_eachStep (G := fun _ => True) (fun _ _ _ _ _ _ => trivial) ?_ .refl h
    trivial ((drains_iff (Reachable.stored .refl)).mpr fun hr => (by cases hr))
  intro m i m' hr hs _ hd
  have hst := Reachable.stored hr
  rw [drains_iff (Reachable.stored (hr.tail hs))]
  exact singleNumbers_step hr ((drains_iff hst).mp hd) hs

theorem drains_throughout_after_timeout :
    Throughout step Drains (start 3 ⟨4, 0, none⟩) [.fire 1, .fire 2, .fire 3] := by
  obtain ⟨m, hm⟩ : ∃ m, exec step (start 3 ⟨4, 0, none⟩) [.fire 1, .fire 2, .fire 3] = .ok m :=
    ⟨_, rfl⟩
  refine (drains_throughout_iff _ hm).mpr ⟨fun hid => (by cases hid), ?_⟩
  rintro _ ⟨⟩
  refine ⟨fun hid => (by cases hid), ?_⟩
  rintro _ ⟨⟩
  exact ⟨fun hid => (by cases hid), fun _ _ => trivial⟩

-- ---------------------------------------------------------------------------
-- A run whose retransmit mode does not end
-- ---------------------------------------------------------------------------

theorem times_out (hid : m.sim.events.lookup id = some (.handleTimeout s))
    (hn : s ∉ m.client.retransmitPackets) : ∃ m', step m (.fire id) = .ok m' ∧
      m'.client.queue = (m.client.queueRetransmission s).queue ∧
      m'.client.retransmitPackets = m.client.retransmitPackets ∧
      m'.client.sent = m.client.sent ∧ m'.sim = m.sim.cancel id := by
  obtain ⟨m', hs⟩ : ∃ m', handleTimeout (write { m with sim := m.sim.cancel id } [.timeout id s]) s =
      .ok m' := ⟨_, handleTimeout_ok.mpr ⟨_, timeoutLoss_ok.mpr (.inl ⟨hn, rfl⟩), rfl⟩⟩
  have hr := (recovers_timeout hid hs).client
  have hq := queue_handleTimeout hs
  refine ⟨m', by simpa [step, fire, hid] using hs, hq, by rw [hr], by rw [hr], ?_⟩
  obtain ⟨m₁, h₁, rfl⟩ := handleTimeout_ok.mp hs
  rcases timeoutLoss_ok.mp h₁ with ⟨-, rfl⟩ | ⟨-, base, -, rfl⟩ <;> rfl

/-- Packets 65534 and 65535 are on their way, with their timers running. -/
structure LastTwoSent (m : Machine) : Prop where
  reachable : Reachable 1000000 ⟨1024, 0, none⟩ m
  sent : m.client.sent = 65536
  retransmit : m.client.retransmit = false
  retransmitPackets : m.client.retransmitPackets = ∅
  uid : m.sim.uid = 131074
  due : m.sim.events.lookup 131073 = some .send
  first : m.sim.events.lookup 131070 = some (.handleTimeout 65534)
  second : m.sim.events.lookup 131072 = some (.handleTimeout 65535)

theorem lastTwo_sent : ∃ m, exec step (start 1000000 ⟨1024, 0, none⟩)
    (losslessRun 65534 ++ [.fire 131069, .fire 131071]) = .ok m ∧ LastTwoSent m := by
  obtain ⟨m₀, h₀, L⟩ := lossless_exec 65534 (by omega)
  have hsend : step m₀ (.fire 131069) = .ok (Lossless.next m₀ 65534) := L.send (by omega)
  have hc := L.client_next (by omega)
  have hr₀ : Reachable 1000000 ⟨1024, 0, none⟩ m₀ := ⟨_, h₀⟩
  have hr₁ : Reachable 1000000 ⟨1024, 0, none⟩ (Lossless.next m₀ 65534) := hr₀.tail hsend
  have hnone : m₀.client.retransmitPackets = ∅ := by
    have hcounts := hr₀.counts
    have := hcounts.sent
    have := hcounts.packetSent
    rw [← Finset.card_eq_zero, ← hcounts.packetRetrans]
    have := L.sent
    have := L.seqNum
    omega
  have huid : (Lossless.next m₀ 65534).sim.uid = 131072 := L.uid_next
  have hlook := L.lookup_next (by omega)
  have hdue : (Lossless.next m₀ 65534).sim.events.lookup 131071 = some .send := by
    rw [hlook, if_pos (by decide)]
  have hfirst : (Lossless.next m₀ 65534).sim.events.lookup 131070 =
      some (.handleTimeout 65534) := by
    rw [hlook, if_neg (by decide), if_pos (by decide)]
  obtain ⟨p, hp⟩ := packet_1024
  have hsend' := hr₁.sends_fresh hp hdue
    (by rw [hc]; simp [L.count]) (by rw [hc]; exact L.retransmit)
    (by simp only [Client.windowFull, hc, L.windowSize, L.windowBase]; decide)
  refine ⟨_, Runs.exec_append.mpr ⟨m₀, h₀, Runs.exec_cons.mpr ⟨_, hsend,
    Runs.exec_cons.mpr ⟨_, hsend', rfl⟩⟩⟩, hr₁.tail hsend', ?_, ?_, ?_, ?_, ?_, ?_, ?_⟩
  · simp [Client.takeFresh, hc, u32]
  · simp [Client.takeFresh, hc, L.retransmit]
  · simp [Client.takeFresh, hc, hnone]
  · simp [huid]
  · simp [huid]
  · simp [huid, hfirst]
  · simp [huid, hc, u16]

/-- Both have timed out, 65534 first. -/
structure LastTwoLate (m : Machine) : Prop where
  reachable : Reachable 1000000 ⟨1024, 0, none⟩ m
  sent : m.client.sent = 65536
  queue : m.client.queue = (true, 65534, 65535, [(65535, 0)])
  retransmitPackets : m.client.retransmitPackets = ∅
  uid : m.sim.uid = 131074
  due : m.sim.events.lookup 131073 = some .send

theorem LastTwoSent.late (h : LastTwoSent m) : ∃ m',
    exec step m [.fire 131070, .fire 131072] = .ok m' ∧ LastTwoLate m' := by
  obtain ⟨m₁, h₁, hq₁, hn₁, hsent₁, hsim₁⟩ := times_out h.first (by simp [h.retransmitPackets])
  have hlate : m₁.sim.events.lookup 131072 = some (.handleTimeout 65535) := by
    rw [hsim₁, Simulator.lookup_cancel, if_neg (by decide), h.second]
  obtain ⟨m₂, h₂, hq₂, hn₂, hsent₂, hsim₂⟩ := times_out hlate (by simp [hn₁, h.retransmitPackets])
  have hidle := h.reachable.stored.idle h.retransmit
  have hactive : m₁.client.queue = (true, 65534, 65535, []) := by
    rw [hq₁]
    simp [Client.queue, Client.queueRetransmission, h.retransmit, hidle, u32]
  simp only [Client.queue, Prod.mk.injEq] at hactive
  obtain ⟨hr, hseq, hstop, hrest⟩ := hactive
  refine ⟨m₂, Runs.exec_cons.mpr ⟨m₁, h₁, Runs.exec_cons.mpr ⟨m₂, h₂, rfl⟩⟩,
    (h.reachable.tail h₁).tail h₂, ?_, ?_, ?_, ?_, ?_⟩
  · rw [hsent₂, hsent₁, h.sent]
  · rw [hq₂]
    simp [Client.queue, Client.queueRetransmission, hr, hseq, hstop, hrest, u16]
  · rw [hn₂, hn₁, h.retransmitPackets]
  · rw [hsim₂, hsim₁, Simulator.uid_cancel, Simulator.uid_cancel, h.uid]
  · rw [hsim₂, hsim₁, Simulator.lookup_cancel, if_neg (by decide), Simulator.lookup_cancel,
      if_neg (by decide), h.due]

/-- Two `Send`s take the two entries, and the retransmit mode goes on. -/
theorem LastTwoLate.sends (h : LastTwoLate m) : ∃ m',
    exec step m [.fire 131073, .fire 131075] = .ok m' ∧
    m.OnlySends [.fire 131073, .fire 131075] ∧ m'.client.retransmit = true := by
  have hcount : m.client.count = 1000000 := h.reachable.configured.1
  have hq := h.queue
  simp only [Client.queue, Prod.mk.injEq] at hq
  obtain ⟨hr, hseq, hstop, hrest⟩ := hq
  have hsent := h.sent
  obtain ⟨p, hp⟩ := packet_1024
  have h₁ := h.reachable.sends_again hp h.due (by omega) hr
    (by simp [h.retransmitPackets])
  generalize hm₁ : scheduleTransmit _ = m₁ at h₁
  have hreach : Reachable 1000000 ⟨1024, 0, none⟩ m₁ := h.reachable.tail h₁
  have hdue : m₁.sim.events.lookup 131075 = some .send := by simp [← hm₁, h.uid]
  have hq₁ : m₁.client.queue = (true, 65535, 0, []) := by
    rw [← hm₁]
    simp [Client.queue, Client.takeRetrans, Client.nextRetransmission, hr, hseq, hstop, hrest, u32]
  simp only [Client.queue, Prod.mk.injEq] at hq₁
  obtain ⟨hr₁, hseq₁, hstop₁, hrest₁⟩ := hq₁
  have hsent₁ : m₁.client.sent = 65537 := by
    rw [← hm₁, Client.takeRetrans_eq, Client.takeSkipped_eq]
    simp [hsent, u32]
  have hn₁ : u16 m₁.client.retransSeq ∉ m₁.client.retransmitPackets := by
    rw [hseq₁, ← hm₁, Client.takeRetrans_eq, Client.takeSkipped_eq]
    simp [h.retransmitPackets, hseq, u16]
  have hcount₁ : m₁.client.count = 1000000 := hreach.configured.1
  have h₂ := hreach.sends_again hp hdue (by omega) hr₁ hn₁
  refine ⟨_, Runs.exec_cons.mpr ⟨m₁, h₁, Runs.exec_cons.mpr ⟨_, h₂, rfl⟩⟩, ?_, ?_⟩
  · refine ⟨⟨131073, rfl, h.due⟩, fun m' h' => ⟨⟨131075, rfl, ?_⟩, fun _ _ => trivial⟩⟩
    rw [show m' = m₁ from Except.ok.inj (h'.symm.trans h₁), hdue]
  · simp [Client.takeRetrans, Client.nextRetransmission, hr₁, hseq₁, hstop₁, u32]

/-- 65535 is queued behind 65534 and is never done with. -/
theorem last_never_drained : ∃ m m', exec step (start 1000000 ⟨1024, 0, none⟩)
      (losslessRun 65534 ++ [.fire 131069, .fire 131071] ++ [.fire 131070, .fire 131072]) = .ok m ∧
    m.client.retransmit = true ∧ m.client.pending = [65534, 65535] ∧
    m.OnlySends [.fire 131073, .fire 131075] ∧
    exec step m [.fire 131073, .fire 131075] = .ok m' ∧ m'.client.retransmit = true := by
  obtain ⟨m₀, h₀, hsent⟩ := lastTwo_sent
  obtain ⟨m, hm, hlate⟩ := hsent.late
  obtain ⟨m', hm', hsends, hr'⟩ := hlate.sends
  have hq := hlate.queue
  simp only [Client.queue, Prod.mk.injEq] at hq
  obtain ⟨hr, hseq, -, hrest⟩ := hq
  refine ⟨m, m', Runs.exec_append.mpr ⟨m₀, h₀, hm⟩, hr, ?_, hsends, hm', hr'⟩
  rw [Client.pending_active hr, hseq, hrest]
  rfl

end Machine

end ReliableEcho
