import ReliableEcho.Refinement

/-!
# What becomes of a packet

The sender's laws, read back on the client. A sent packet is resolved, or has
a timer, or a retransmission pending. A packet is resolved by an echo or by its
second timer. The numbers retransmitted are the numbers declared lost, in order
and once each.
-/

namespace ReliableEcho

open SelectiveRepeat (Copy Line sends copies echoes declared retransmitted)
open Runs (exec)

namespace Machine

variable {m : Machine} {s : ℕ} {maxPackets : UInt32} {payload : Payload}

theorem InStep.timerPending (hi : m.InStep) {id : ℕ} (h : m.client.timers.lookup s = some id) :
    m.TimerPending s :=
  ⟨id, h, (hi.faithful.exact s id).mp h⟩

/-- No sent packet is forgotten, and a full window waits for a packet that
still has a timer, or a retransmission to come that will start one. -/
theorem never_forgotten (h : Reachable maxPackets payload m) (hseq : m.client.seqNum ≤ 65535) :
    (∀ s < m.client.seqNum,
      s ∈ m.client.receivedPackets ∨ m.TimerPending s ∨ m.RetransmissionPending s) ∧
    (m.client.windowFull = true →
      m.client.windowBase < m.client.seqNum ∧ m.client.windowBase ∉ m.client.receivedPackets ∧
      (m.TimerPending m.client.windowBase ∨
        m.RetransmissionPending m.client.windowBase ∧
          m.client.windowBase ∉ m.client.retransmitPackets)) := by
  obtain ⟨hi, hl⟩ := h.laws hseq
  have attended : ∀ s < m.client.seqNum, s ∉ m.client.receivedPackets →
      m.TimerPending s ∨ m.RetransmissionPending s ∧ s ∉ m.client.retransmitPackets := by
    intro s hs hr
    rcases hl.ok.attended hs hr with ⟨id, hid⟩ | ⟨hq, hn⟩
    · exact .inl (hi.timerPending hid)
    · exact .inr ⟨mem_pending.mp hq, hn⟩
  refine ⟨fun s hs => ?_, fun hfull => ?_⟩
  · by_cases hr : s ∈ m.client.receivedPackets
    · exact .inl hr
    · exact .inr ((attended s hs hr).imp_right And.left)
  · have hlt := (hi.faithful.windowFull_iff hl.ok hseq).mp hfull
    have hn : m.client.windowBase ∉ m.client.receivedPackets := by
      rw [hi.faithful.windowBase]
      exact Cursor.leastMissing_notMem _
    exact ⟨by omega, hn, attended _ (by omega) hn⟩

theorem never_forgotten_after_gap : ∃ m, exec step (start 20 ⟨4, 0, none⟩) gapRun = .ok m ∧
    (∀ s < 10, s ∈ m.client.receivedPackets ∨ m.TimerPending s ∨ m.RetransmissionPending s) ∧
    0 ∉ m.client.receivedPackets ∧ (m.TimerPending 0 ∨
      m.RetransmissionPending 0 ∧ 0 ∉ m.client.retransmitPackets) := by
  obtain ⟨m, hm, hseq, hbase, hfull⟩ : ∃ m, exec step (start 20 ⟨4, 0, none⟩) gapRun = .ok m ∧
      m.client.seqNum = 10 ∧ m.client.windowBase = 0 ∧ m.client.windowFull = true :=
    ⟨_, rfl, rfl, rfl, rfl⟩
  obtain ⟨hall, hwaits⟩ := never_forgotten ⟨_, hm⟩ (by omega)
  exact ⟨m, hm, hseq ▸ hall, hbase ▸ (hwaits hfull).2⟩

-- ---------------------------------------------------------------------------
-- The budget
-- ---------------------------------------------------------------------------

/-- With a single packet allowed, its loss is queued when no `Send` is left. -/
theorem loss_stranded : ∃ m, Reachable 1 ⟨4, 0, none⟩ m ∧ m.RetransmissionPending 0 ∧
    0 ∉ m.client.retransmitPackets ∧ ¬ m.SendScheduled := by
  obtain ⟨m, hm, hr, hq, hn, hsent, hcount⟩ : ∃ m,
      exec step (start 1 ⟨4, 0, none⟩) [.fire 1, .fire 2] = .ok m ∧ m.client.retransmit = true ∧
      m.client.retransSeq = 0 ∧ m.client.retransmitPackets = ∅ ∧ m.client.sent = 1 ∧
      m.client.count = 1 := ⟨_, rfl, rfl, rfl, rfl, rfl, rfl⟩
  have h : Reachable 1 ⟨4, 0, none⟩ m := ⟨_, hm⟩
  refine ⟨m, h, ⟨hr, .inl hq.symm⟩, by simp [hn], fun hs => ?_⟩
  have := h.budget.scheduled.mp hs
  omega

/-- Work that is queued has a `Send` scheduled for it exactly while the budget
lasts. Once it is used up there is no `Send` ever after: nothing goes on the wire
and no more numbers are retransmitted. -/
theorem queued_send_scheduled_iff (h : Reachable maxPackets payload m)
    (hq : m.RetransmissionPending s) :
    (m.SendScheduled ↔ m.client.sent < m.client.count) ∧
    (m.client.count ≤ m.client.sent → ∀ is m', exec step m is = .ok m' →
      ¬ m'.SendScheduled ∧ m'.wire = m.wire ∧
        m'.client.retransmitPackets = m.client.retransmitPackets) := by
  have hsent : m.client.sent ≠ 0 := fun h0 => by
    have hidle := (h.budget.untouched h0).2.1
    rw [hq.1] at hidle
    cases hidle
  refine ⟨?_, fun hout is m' hrun => ?_⟩
  · rw [h.budget.scheduled]
    exact ⟨fun hs => hs.resolve_right hsent, .inl⟩
  · have hm' : Reachable maxPackets payload m' := h.append hrun
    obtain ⟨he, hsame⟩ := h.exhausted_silent ⟨hout, hsent⟩ hrun
    exact ⟨hm'.budget.not_scheduled he, hsame⟩

/-- Two packets are allowed. The timeout of the first finds the budget used up,
and so does what comes after it. -/
theorem queued_send_scheduled_after_timeout : ∃ m m',
    exec step (start 2 ⟨4, 0, none⟩) [.fire 1, .fire 3, .fire 2] = .ok m ∧
    m.RetransmissionPending 0 ∧ exec step m [.fire 0, .fire 4] = .ok m' ∧
    ¬ m'.SendScheduled ∧ m'.wire = m.wire := by
  obtain ⟨m, hm, hr, hq, hout, m', hm'⟩ : ∃ m,
      exec step (start 2 ⟨4, 0, none⟩) [.fire 1, .fire 3, .fire 2] = .ok m ∧
      m.client.retransmit = true ∧ m.client.retransSeq = 0 ∧ m.client.count ≤ m.client.sent ∧
      ∃ m', exec step m [.fire 0, .fire 4] = .ok m' := ⟨_, rfl, rfl, rfl, Nat.le_refl 2, _, rfl⟩
  have hpending : m.RetransmissionPending 0 := ⟨hr, .inl hq.symm⟩
  obtain ⟨hnone, hwire, -⟩ := (queued_send_scheduled_iff ⟨_, hm⟩ hpending).2 hout _ m' hm'
  exact ⟨m, m', hm, hpending, hm', hnone, hwire⟩

-- ---------------------------------------------------------------------------
-- Giving up
-- ---------------------------------------------------------------------------

/-- A packet counts as received because its echo was processed, or because the
timeout of its second transmission ran. -/
theorem received_cause (h : Reachable maxPackets payload m) (hseq : m.client.seqNum ≤ 65535)
    (hs : s ∈ m.client.receivedPackets ∨ s < m.client.windowBase) :
    s ∈ echoes m.log ∨ ∃ t₁ t₂, copies s m.log = [(.first, s, t₁), (.again, s, t₂)] ∧
      t₁ ≠ t₂ ∧ .timeout t₂ s ∈ m.log := by
  obtain ⟨hi, hl⟩ := h.laws hseq
  have hs : s ∈ m.client.receivedPackets := by
    rcases hs with hs | hs
    · exact hs
    · rw [hi.faithful.windowBase] at hs
      exact Cursor.mem_of_lt_leastMissing hs
  refine (hl.resolved.echo_or_gaveUp s hs).imp_right ?_
  rintro ⟨t, hsent, hexpired⟩
  obtain ⟨t₁, htwice⟩ := hl.copies.again hsent
  have hlt : t₁ < t := by
    have hpair := hi.wired.timers.filter fun e => e.2.1 = s
    rw [show (sends m.log).filter (fun e => e.2.1 = s) = _ from htwice] at hpair
    simpa using hpair
  exact ⟨t₁, t, htwice, Nat.ne_of_lt hlt, hexpired⟩

theorem received_cause_after_give_up : ∃ m,
    exec step (start 3 ⟨4, 0, none⟩) [.fire 1, .fire 2, .fire 3, .fire 4] = .ok m ∧
    (0 ∈ echoes m.log ∨ ∃ t₁ t₂, copies 0 m.log = [(.first, 0, t₁), (.again, 0, t₂)] ∧
      t₁ ≠ t₂ ∧ .timeout t₂ 0 ∈ m.log) := by
  obtain ⟨m, hm, hs, hr⟩ : ∃ m,
      exec step (start 3 ⟨4, 0, none⟩) [.fire 1, .fire 2, .fire 3, .fire 4] = .ok m ∧
      m.client.seqNum = 1 ∧ m.client.receivedPackets = {0} := ⟨_, rfl, rfl, rfl⟩
  exact ⟨m, hm, received_cause ⟨_, hm⟩ (by omega) (.inl (by simp [hr]))⟩

-- ---------------------------------------------------------------------------
-- The retransmission queue
-- ---------------------------------------------------------------------------

/-- The numbers retransmitted are those served from the queue of declarations,
without repetition, and the wire carries them. -/
theorem retransmissions_follow_declarations (h : Reachable maxPackets payload m)
    (hseq : m.client.seqNum ≤ 65535) :
    (∃ served, declared m.log = served ++ m.client.pending ∧
      retransmitted m.log = served.eraseDups) ∧
    (retransmitted m.log).Nodup ∧ retransmitted m.log ⊆ declared m.log ∧
    (∀ s ∈ declared m.log, s ∈ retransmitted m.log ∨ s ∈ m.client.pending) ∧
    List.Forall₂ Carries (sends m.log) m.wire := by
  obtain ⟨hi, hl⟩ := h.laws hseq
  obtain ⟨q, hd, hq, he, -⟩ := hl.queued
  refine ⟨⟨q.served, ?_, ?_⟩, ?_, ?_, ?_, hi.wired.carries⟩
  · exact hd.symm.trans (congrArg _ hq)
  · exact he.symm.trans q.once
  · exact he ▸ q.emitted_nodup
  · exact he ▸ hd ▸ q.emitted_subset
  · intro s hs
    rw [← hd] at hs
    rw [← he, show m.client.pending = q.pending from hq.symm]
    exact q.declared_emitted_or_pending hs

theorem retransmissions_follow_declarations_after_gap : ∃ m,
    exec step (start 20 ⟨4, 0, none⟩) gapRun = .ok m ∧
    (∃ served, [0, 2] = served ++ m.client.pending ∧ [0] = served.eraseDups) ∧
    List.Forall₂ Carries (sends m.log) m.wire := by
  obtain ⟨m, hm, hseq, hdeclared, hagain⟩ : ∃ m,
      exec step (start 20 ⟨4, 0, none⟩) gapRun = .ok m ∧ m.client.seqNum = 10 ∧
      declared m.log = [0, 2] ∧ retransmitted m.log = [0] := ⟨_, rfl, rfl, rfl, rfl⟩
  obtain ⟨hsplit, -, -, -, hcarries⟩ := retransmissions_follow_declarations ⟨_, hm⟩ (by omega)
  exact ⟨m, hm, hdeclared ▸ hagain ▸ hsplit, hcarries⟩

end Machine

end ReliableEcho
