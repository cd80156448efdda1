import ReliableEcho.Deadline

/-!
# The rate of a path that drops nothing

If the round trip takes less than ten intervals the window is never full, and
`Send` transmits every time it runs: packet `k` leaves `k` intervals after the
start. A packet that is not echoed yet left less than a round trip ago, so there
are fewer than ten.
-/

namespace ReliableEcho

open SelectiveRepeat (Line Copy sends echoes losses lost retransmitted)
open Runs (exec)

namespace Network

variable {n n' : Network} {i : Input} {id s t : ℕ} {τ : Timing} {x x' : Timed Network Item}
  {maxPackets : UInt32} {payload : Payload}

/-- `Send` runs at the full rate: packet `k` was sent `k` intervals after the
start, and the next one is due in its turn. -/
structure FullRate (τ : Timing) (x : Timed Network Item) : Prop where
  regular : Clocked.Regular (tick .send) sentCount τ.interval τ.startTime x
  dates : ∀ k e, (sends x.state.machine.log)[k]? = some e →
    date x e.2.2 = τ.startTime + k * τ.interval + rto

theorem dropped_mono (hs : step n i = .ok n') : n.dropped ⊆ n'.dropped := by
  cases step_cases hs with
  | fire => exact List.Subset.refl _
  | serve => exact List.Subset.refl _
  | deliver => exact List.Subset.refl _
  | dropToServer => exact List.subset_append_left _ _
  | dropToClient => exact List.subset_append_left _ _

theorem Undisturbed.idle (h : Reachable maxPackets payload n)
    (hseq : n.machine.client.seqNum ≤ 65535) (hu : n.Undisturbed) :
    n.machine.client.retransmit = false := by
  obtain ⟨-, hl⟩ := h.transport.1.laws hseq
  obtain ⟨q, -, -, he, hretried⟩ := hl.queued
  by_contra hactive
  have hmem : n.machine.client.retransSeq ∈ n.machine.view.pending := by
    simp [Machine.view, Client.pending_active (by simpa using hactive)]
  have hnew : n.machine.client.retransSeq ∉ n.machine.view.retried := fun hr => by
    have hr := (hretried _).mp hr
    rw [he, hu.retransmitted] at hr
    cases hr
  have hlost := hl.counted.queued _ hmem hnew
  rw [lost, hu.losses] at hlost
  cases hlost

theorem FullRate.window_open (h : TimedReachable τ maxPackets payload x)
    (hseq : x.state.machine.client.seqNum ≤ 65535) (hwindow : τ.latency < 10 * τ.interval)
    (hnone : x.state.dropped = []) (hu : x.state.Undisturbed) (hf : FullRate τ x)
    (hs : (clocked τ).timedStep x (t, .fire id) = .ok x')
    (hid : x.state.machine.sim.events.lookup id = some .send) :
    x.state.machine.client.windowFull = false := by
  obtain ⟨⟨-, hpast, hruns⟩, -⟩ := Clocked.timedStep_ok.mp hs
  obtain ⟨hr, ht⟩ := h.untimed.transport
  obtain ⟨hi, hl⟩ := hr.laws hseq
  have hsent : x.state.machine.client.seqNum = x.state.sentCount := by
    have hcounters := congrArg PpsCounters.packetSent hu.counters
    exact hi.tally.packetSent.symm.trans hcounters
  have hdue : t = τ.startTime + x.state.sentCount * τ.interval := by
    rw [(hruns (.event id) rfl).1]
    exact hf.regular.2 _ ((tick_eq_some h.untimed (by simp)).mpr ⟨id, hid, rfl⟩)
  rw [Bool.eq_false_iff, ne_eq, hi.faithful.windowFull_iff hl.ok hseq, hu.windowBase, hsent]
  intro hfull
  -- the first packet that is not processed is on the path
  have hlt : x.state.processed.length < (sends x.state.machine.log).length := by
    have hcarries := hr.carries.length_eq
    unfold sentCount at hfull
    omega
  have hlive : .datagram x.state.processed.length ∈ x.state.items := by
    obtain ⟨c, hcsent, harrived, hflight, hdropped⟩ := ht.channel
    have hall := LossyFifo.arrived_eq_range (c := c) (by rw [hdropped, hnone]; rfl)
    rcases (c.account x.state.processed.length).mp (by rw [hcsent, ← hr.carries.length_eq]; exact hlt)
      with hmem | hmem | hmem
    · rw [hall, harrived, List.mem_range, List.length_map] at hmem
      exact absurd hmem (Nat.lt_irrefl _)
    · rw [hflight, List.mem_map] at hmem
      exact mem_items_datagram.mpr hmem
    · rw [hdropped, hnone] at hmem
      cases hmem
  obtain ⟨⟨c, s, a⟩, he⟩ : ∃ e, (sends x.state.machine.log)[x.state.processed.length]? = some e :=
    ⟨_, List.getElem?_eq_getElem hlt⟩
  have hstamp := h.stamped _ c s a he
  have hdate := hf.dates _ _ he
  have hlive := hpast _ hlive
  have hmul : (x.state.processed.length + 10) * τ.interval ≤ x.state.sentCount * τ.interval :=
    Nat.mul_le_mul_right _ hfull
  rw [Nat.add_mul] at hmul
  dsimp only [date] at hdate
  omega

theorem sentCount_send (hr : n.machine.client.retransmit = false)
    (hw : n.machine.client.windowFull = false) (hid : n.machine.sim.events.lookup id = some .send)
    (hs : step n (.fire id) = .ok n') : n'.sentCount = n.sentCount + 1 := by
  obtain ⟨m, hm, hn⟩ := Runs.bind_ok.mp hs
  cases hn
  have hsend : Machine.send { n.machine with sim := n.machine.sim.cancel id } = .ok m := by
    simpa [Machine.fire, hid] using hm
  cases Machine.send_cases hsend with
  | waits _ hfull => exact absurd (hw.symm.trans hfull) (by simp)
  | fresh => simp [sentCount, Machine.wire_transmitted]
  | again hactive => exact absurd (hr.symm.trans hactive) (by simp)
  | skips hactive => exact absurd (hr.symm.trans hactive) (by simp)

theorem FullRate.step (h : TimedReachable τ maxPackets payload x) (hlat : τ.latency < rto)
    (hwindow : τ.latency < 10 * τ.interval) (hf : FullRate τ x)
    (hseq : x.state.machine.client.seqNum ≤ 65535) (hnone : x.state.dropped = [])
    (hs : (clocked τ).timedStep x (t, i) = .ok x') : FullRate τ x' := by
  have hu := h.undisturbed hlat hseq hnone
  have hx := h.untimed
  have hkeeps := keeps_dates hx hs
  have hsends := sends_dated hx hs
  obtain ⟨⟨-, -, hruns⟩, n, hn, rfl⟩ := Clocked.timedStep_ok.mp hs
  have hn : Network.step x.state i = .ok n := hn
  refine ⟨hf.regular.step (tick_live .send) hs (sendTick_step hx hn) fun a ha hrun => ?_, ?_⟩
  · obtain ⟨id, hid, rfl⟩ := (tick_eq_some hx (by simp)).mp ha
    obtain rfl := runs_event.mp hrun
    exact sentCount_send (hu.idle hx hseq) (hf.window_open h hseq hwindow hnone hu hs hid) hid hn
  · intro k e he
    have old : (sends x.state.machine.log)[k]? = some e → _ := fun he =>
      (hkeeps e (List.mem_of_getElem? he)).trans (hf.dates k e he)
    rcases hsends with hsame | ⟨e', hsent, hdated⟩
    · exact old (hsame ▸ he)
    rw [hsent] at he
    rcases Nat.lt_or_ge k (sends x.state.machine.log).length with hk | hk
    · rw [List.getElem?_append_left hk] at he
      exact old he
    · -- the packet just sent, in its turn
      have hlt := (List.getElem?_eq_some_iff.mp he).1
      rw [List.length_append, List.length_singleton] at hlt
      obtain rfl : k = (sends x.state.machine.log).length := by omega
      rw [List.getElem?_concat_length] at he
      cases he
      have hcarries := hx.transport.1.carries.length_eq
      have hx' : Reachable maxPackets payload n := hx.tail hn
      have hcarries' := hx'.transport.1.carries.length_eq
      have hgrew : n.sentCount ≠ x.state.sentCount := by
        have hlength := congrArg List.length hsent
        rw [List.length_append, List.length_singleton] at hlength
        unfold sentCount
        dsimp only at hlength
        omega
      obtain ⟨id, hid, rfl⟩ : ∃ id, x.state.machine.sim.events.lookup id = some .send ∧
          i = .fire id := by
        by_contra hno
        exact hgrew ((sentCount_step hx hn).1 fun id hid hi => hno ⟨id, hid, hi⟩)
      have hdue := hf.regular.2 _ ((tick_eq_some hx (by simp)).mpr ⟨id, hid, rfl⟩)
      have ht : t = x.due (.event id) := (hruns (.event id) rfl).1
      rw [hdated, ht, hdue, hcarries, sentCount]

theorem TimedReachable.fullRate (h : TimedReachable τ maxPackets payload x) (hlat : τ.latency < rto)
    (hwindow : τ.latency < 10 * τ.interval) (hseq : x.state.machine.client.seqNum ≤ 65535)
    (hnone : x.state.dropped = []) : FullRate τ x := by
  refine Runs.Reachable.invariant (P := fun x => x.state.machine.client.seqNum ≤ 65535 →
    x.state.dropped = [] → FullRate τ x) h (fun _ _ => ⟨?_, fun k e he => by cases he⟩) ?_ hseq hnone
  · simp [Clocked.Regular, timedStart, sentCount_start]
  rintro x ⟨t, i⟩ x' hr ih hs hseq hnone
  have hx : TimedReachable τ maxPackets payload x := hr
  obtain ⟨-, n, hn, rfl⟩ := Clocked.timedStep_ok.mp hs
  have hn : Network.step x.state i = .ok n := hn
  have hle := Nat.le_trans (hx.untimed.seqNum_mono hn) hseq
  have hbefore : x.state.dropped = [] := List.subset_nil.mp (hnone ▸ dropped_mono hn)
  exact (ih hle hbefore).step hx hlat hwindow hle hbefore hs

/-- On a path that drops nothing and whose round trip takes less than ten
intervals, the client sends a packet every interval until `MaxPackets`. -/
theorem full_rate (h : TimedReachable τ maxPackets payload x) (hlat : τ.latency < rto)
    (hwindow : τ.latency < 10 * τ.interval) (hseq : x.state.machine.client.seqNum ≤ 65535)
    (hnone : x.state.dropped = [])
    (hbudget : x.state.machine.client.sent < x.state.machine.client.count) :
    τ.startTime + x.state.machine.wire.length * τ.interval ≤ x.now + τ.interval ∧
    x.now ≤ τ.startTime + x.state.machine.wire.length * τ.interval := by
  obtain ⟨hpast, hdue⟩ := (h.fullRate hlat hwindow hseq hnone).regular
  refine ⟨hpast, ?_⟩
  obtain ⟨u, hu, hnow⟩ := h.next_turn hbudget
  obtain ⟨a, ha, rfl⟩ := mem_turn.mp hu
  exact hnow.trans_eq (hdue a ha)

theorem full_rate_after_two : ∃ x,
    exec (clocked ⟨40000000, 20000000, 1000000000⟩).timedStep
      (timedStart ⟨40000000, 20000000, 1000000000⟩ 10 ⟨4, 0, none⟩)
      [(1000000000, .fire 0), (1000000000, .fire 1), (1010000000, .serve),
        (1020000000, .deliver), (1040000000, .fire 4)] = .ok x ∧
    x.state.machine.wire.length = 2 ∧ x.now ≤ 1000000000 + x.state.machine.wire.length * 40000000 := by
  obtain ⟨x, hx, hs, hd, hlen, hbudget⟩ : ∃ x,
      exec (clocked ⟨40000000, 20000000, 1000000000⟩).timedStep
        (timedStart ⟨40000000, 20000000, 1000000000⟩ 10 ⟨4, 0, none⟩)
        [(1000000000, .fire 0), (1000000000, .fire 1), (1010000000, .serve),
          (1020000000, .deliver), (1040000000, .fire 4)] = .ok x ∧
      x.state.machine.client.seqNum = 2 ∧ x.state.dropped = [] ∧
      x.state.machine.wire.length = 2 ∧
      x.state.machine.client.sent < x.state.machine.client.count :=
    ⟨_, rfl, rfl, rfl, rfl, by decide⟩
  exact ⟨x, hx, hlen, (full_rate ⟨_, hx⟩ (by decide) (by decide) (by omega) hd hbudget).2⟩

end Network

end ReliableEcho
