import ReliableEcho.Refinement.State

/-!
# Send follows the sender

A full window is a step the sender does not see. The other exits of `Send` are
its steps `fresh`, `retry` and `skip`.
-/

namespace ReliableEcho

open SelectiveRepeat (Line Step sends retransmitted lost recovered)
open Cursor (leastMissing)

namespace Machine

variable {m m' : Machine} {h : RdtHeader} {p : Buffer} {line : ℕ → EventId → Line EventId}
  {c : Client} {ev : Event} {id s k : ℕ}

theorem Simulates.scheduleTransmit (hs : Simulates m m') (hf : m'.sim.Fresh) :
    Simulates m m'.scheduleTransmit where
  faithful := ⟨hs.faithful.windowSize, hs.faithful.windowBase,
    ⟨hs.faithful.queue.active, hs.faithful.queue.idle, hs.faithful.queue.pairs⟩,
    hs.faithful.exact.schedule hf (by simp)⟩
  wired := ⟨hs.wired.carries, hs.wired.timers, fun a ha => Nat.lt_succ_of_lt (hs.wired.issued a ha)⟩
  tally := ⟨hs.tally.packetSent, hs.tally.packetRetrans, hs.tally.packetLost, hs.tally.retransRecv⟩
  follows := hs.follows

theorem Simulates.transmitted (hs : Simulates m (m'.sendTo h p line)) (hf : m'.sim.Fresh) :
    Simulates m (m'.transmitted h p line) := by
  rcases transmitted_cases with he | he <;> rw [he]
  · exact hs
  · exact hs.scheduleTransmit hf.schedule

theorem Wired.sendTo (hw : m.Wired) {sent : SelectiveRepeat.Copy × ℕ × EventId}
    (hl : sends [line h.getSeq m.sim.uid] = [sent]) (hs : sent.2 = (h.getSeq, m.sim.uid)) :
    Wired (Machine.sendTo { m with client := c } h p line) := by
  have hlog : sends (Machine.sendTo { m with client := c } h p line).log =
      sends m.log ++ [sent] := by
    rw [log_sendTo, SelectiveRepeat.sends_append, hl]
  refine ⟨?_, ?_, ?_⟩ <;> rw [hlog]
  · refine List.rel_append hw.carries (.cons ?_ .nil)
    exact ⟨h, p, RdtHeader.deserialize_serialize h p, by rw [hs]⟩
  · rw [List.pairwise_append]
    refine ⟨hw.timers, by simp, fun a ha b hb => ?_⟩
    rw [List.mem_singleton.mp hb, hs]
    exact hw.issued a ha
  · simp only [List.mem_append, List.mem_singleton]
    rintro a (ha | rfl)
    · exact Nat.lt_succ_of_lt (hw.issued a ha)
    · rw [hs]
      exact Nat.lt_succ_self _

theorem timer_of_fresh (ok : m.view.Ok 10) : m.client.timers.lookup m.client.seqNum = none := by
  cases hl : m.client.timers.lookup m.client.seqNum with
  | none => rfl
  | some t => exact absurd (ok.timer_lt m.client.seqNum t hl) (Nat.lt_irrefl _)

theorem timer_of_pending (ok : m.view.Ok 10) (hp : s ∈ m.client.pending)
    (hnew : s ∉ m.client.retransmitPackets) : m.client.timers.lookup s = none := by
  cases hl : m.client.timers.lookup s with
  | none => rfl
  | some t => exact absurd hp (ok.first s t hl hnew).2

section
variable (hf : m.Faithful) (hw : m.Wired) (ht : m.Tally) (ok : m.view.Ok 10) (hfr : m.sim.Fresh)
include hf hw ht ok hfr

theorem fresh_simulates (hr : m.client.retransmit = false) (hfull : m.client.windowFull = false)
    (hlt : m.client.seqNum < 65535) :
    Simulates m (sendTo { m with client := m.client.takeFresh } (.setSeq m.client.seqNum) p
      .packetSend) := by
  have h16 : u16 m.client.seqNum = m.client.seqNum := u16_of_lt (by omega)
  have h32 : u32 (m.client.seqNum + 1) = m.client.seqNum + 1 := u32_of_lt (by omega)
  have hview : (sendTo { m with client := m.client.takeFresh } (.setSeq m.client.seqNum) p
      .packetSend).view = { m.view with
        next := m.view.next + 1
        timer := fun k => if k = m.view.next then some m.sim.uid else m.view.timer k } := by
    simp only [view, client_sendTo, Client.takeFresh, RdtHeader.getSeq_setSeq, h16, h32,
      Finmap.lookup_insert_eq]
    rfl
  refine ⟨⟨hf.windowSize, hf.windowBase, ⟨hf.queue.active, hf.queue.idle, hf.queue.pairs⟩, ?_⟩,
    hw.sendTo rfl rfl, ⟨?_, ?_, ?_, ?_⟩, .inr ⟨[.packetSend m.view.next m.sim.uid], ?_, ?_⟩⟩
  · refine Exact.sendTo hf.exact hfr ?_
    rw [RdtHeader.getSeq_setSeq, h16]
    exact timer_of_fresh ok
  · exact congrArg (fun n => u32 (n + 1)) ht.packetSent
  · simpa [Client.takeFresh] using ht.packetRetrans
  · simpa [Client.takeFresh] using ht.packetLost
  · simpa [Client.takeFresh] using ht.retransRecv
  · rw [hview]
    refine .fresh m.sim.uid (Client.pending_idle hr) (Nat.lt_of_not_le fun hle => ?_)
    have hb : m.client.windowBase = m.view.base := hf.windowBase
    rw [(hf.windowFull_iff ok (by omega)).mpr (hb ▸ hle)] at hfull
    cases hfull
  · simp [view, h16]

theorem retry_simulates (hr : m.client.retransmit = true)
    (hnew : u16 m.client.retransSeq ∉ m.client.retransmitPackets) :
    Simulates m (sendTo { m with client := m.client.takeRetrans } (.setSeq m.client.retransSeq) p
      .packetRetrans) := by
  obtain ⟨-, hlt⟩ := hf.queue.active hr
  have h16 : u16 m.client.retransSeq = m.client.retransSeq := u16_of_lt (by omega)
  rw [h16] at hnew
  have hp : m.view.pending = m.client.retransSeq :: m.client.retransmissions.map Prod.fst :=
    Client.pending_active hr
  have hn : m.client.timers.lookup m.client.retransSeq = none :=
    timer_of_pending ok (by simp [Client.pending_active hr]) hnew
  obtain ⟨hrest, hqueue⟩ := Client.takeSkipped_active hf.queue hr
  rw [Client.takeRetrans_eq, Client.takeSkipped_eq]
  have hview : (sendTo { m with client := { m.client with
        retransmit := m.client.takeSkipped.retransmit
        retransSeq := m.client.takeSkipped.retransSeq
        retransStop := m.client.takeSkipped.retransStop
        retransmissions := m.client.takeSkipped.retransmissions
        retransmitPackets := insert (u16 m.client.retransSeq) m.client.retransmitPackets
        packetRetrans := u32 (m.client.packetRetrans + 1) } } (.setSeq m.client.retransSeq) p
      .packetRetrans).view = { m.view with
        pending := m.client.retransmissions.map Prod.fst
        retried := insert m.client.retransSeq m.view.retried
        timer := fun k => if k = m.client.retransSeq then some m.sim.uid else m.view.timer k } := by
    simp only [view, client_sendTo, RdtHeader.getSeq_setSeq, h16, Finmap.lookup_insert_eq, ← hrest]
    rfl
  refine ⟨⟨hf.windowSize, hf.windowBase, ⟨hqueue.active, hqueue.idle, hqueue.pairs⟩, ?_⟩,
    hw.sendTo rfl rfl, ⟨?_, ?_, ?_, ?_⟩,
    .inr ⟨[.packetRetrans m.client.retransSeq m.sim.uid], ?_, ?_⟩⟩
  · refine Exact.sendTo hf.exact hfr ?_
    rw [RdtHeader.getSeq_setSeq, h16]
    exact hn
  · exact ht.packetSent
  · simp [ht.packetRetrans]
  · simpa using ht.packetLost
  · simpa using ht.retransRecv
  · rw [hview]
    exact .retry m.sim.uid hp hnew
  · simp [h16]

end

theorem skip_simulates (hf : m.Faithful) (hw : m.Wired) (ht : m.Tally)
    (hr : m.client.retransmit = true)
    (hold : u16 m.client.retransSeq ∈ m.client.retransmitPackets) :
    Simulates m { m with client := m.client.takeSkipped } := by
  obtain ⟨-, hlt⟩ := hf.queue.active hr
  rw [u16_of_lt (by omega)] at hold
  obtain ⟨hrest, hqueue⟩ := Client.takeSkipped_active hf.queue hr
  have hview : view { m with client := m.client.takeSkipped } =
      { m.view with pending := m.client.retransmissions.map Prod.fst } := by
    rw [← hrest, Client.takeSkipped_eq]
    rfl
  refine ⟨⟨?_, ?_, hqueue, ?_⟩, ⟨hw.carries, hw.timers, hw.issued⟩, ?_, .inr ⟨[], ?_, by simp⟩⟩
  · rw [Client.takeSkipped_eq]
    exact hf.windowSize
  · rw [Client.takeSkipped_eq]
    exact hf.windowBase
  · rw [Client.takeSkipped_eq]
    exact hf.exact
  · rw [Client.takeSkipped_eq]
    exact ⟨ht.packetSent, ht.packetRetrans, ht.packetLost, ht.retransRecv⟩
  · rw [hview]
    exact .skip (Client.pending_active hr) hold

theorem send_simulates (hf : m.Faithful) (hw : m.Wired) (ht : m.Tally) (ok : m.view.Ok 10)
    (hd : m.Due) (hlt : m'.client.seqNum ≤ 65535) (hs : m.send = .ok m') : Simulates m m' := by
  have hfr := hd.fresh
  cases send_cases hs with
  | waits =>
    have same : Simulates m m := ⟨hf, hw, ht, .inl ⟨rfl, rfl⟩⟩
    exact same.scheduleTransmit hfr
  | fresh hr hfull =>
    refine (fresh_simulates hf hw ht ok hfr hr hfull ?_).transmitted hfr
    rw [seqNum_transmitted, Client.takeFresh, hd.u32_seqNum] at hlt
    exact hlt
  | again hr hnew => exact (retry_simulates hf hw ht ok hfr hr hnew).transmitted hfr
  | skips hr hold => exact (skip_simulates hf hw ht hr hold).scheduleTransmit hfr

end Machine

end ReliableEcho
