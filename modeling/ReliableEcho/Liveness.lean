import ReliableEcho.Progress
import Mathlib.Data.Prod.Lex

/-!
# The simulation goes on

Until any time the steps of a run are bounded, and as long as the client cannot
use up the 16-bit numbers every handler returns and there always is a next step.
So a run that takes enough steps is finished, and every run can go on until it is.
-/

namespace ReliableEcho

open Runs (exec)

namespace Machine

variable {m m' : Machine} {id : ℕ} {ev : Event} {p : Buffer} {maxPackets : UInt32}
  {payload : Payload}

theorem timeouts_send (hs : m.send = .ok m') :
    m'.sim.timeouts.card ≤ m.sim.timeouts.card + 1 := by
  have once : ∀ {c : Client} {h : RdtHeader} {p : Buffer}
      {line : ℕ → EventId → SelectiveRepeat.Line EventId},
      (Machine.transmitted { m with client := c } h p line).sim.timeouts.card ≤
        m.sim.timeouts.card + 1 := by
    intro c h p line
    have hto : (m.sim.schedule (.handleTimeout h.getSeq)).timeouts.card ≤ _ :=
      Simulator.card_timeouts_schedule
    rcases transmitted_cases with he | he <;> rw [he]
    · exact hto
    · exact (Simulator.card_timeouts_schedule_of_ne (by simp)).trans hto
  have idle : (m.sim.schedule .send).timeouts.card ≤ m.sim.timeouts.card + 1 :=
    (Simulator.card_timeouts_schedule_of_ne (by simp)).trans (Nat.le_succ _)
  cases send_cases hs with
  | waits => exact idle
  | fresh => exact once
  | again => exact once
  | skips => exact idle

theorem Reachable.seqNum_le (h : Reachable maxPackets payload m)
    (hmax : maxPackets.toNat ≤ 65535) : m.client.seqNum ≤ 65535 := by
  have hcounts := h.counts
  have hle := h.budget.sent_le
  have hcount := h.configured.1
  have hsent := hcounts.sent
  have hseq := hcounts.packetSent
  omega

theorem handleTimeout_returns {s k : ℕ} (hk : k < 65536) (hne : k ≠ s)
    (hn : k ∉ m.client.receivedPackets) : ∃ m', m.handleTimeout s = .ok m' := by
  obtain ⟨m₁, hloss⟩ : ∃ m₁, m.timeoutLoss s = .ok m₁ := by
    by_cases hr : s ∈ m.client.retransmitPackets
    · obtain ⟨base, hloop⟩ : ∃ base, Client.advanceWindow (insert s m.client.receivedPackets)
          (2 ^ 16 + 1) m.client.windowBase = some base := by
        rw [← Option.ne_none_iff_exists', ne_eq, Client.advanceWindow_none (by decide)]
        exact fun hall => by simpa [hne, hn] using hall k hk
      exact ⟨_, timeoutLoss_ok.mpr (.inr ⟨hr, base, hloop, rfl⟩)⟩
    · exact ⟨_, timeoutLoss_ok.mpr (.inl ⟨hr, rfl⟩)⟩
  exact ⟨_, handleTimeout_ok.mpr ⟨m₁, hloss, rfl⟩⟩

theorem Reachable.fire_returns (h : Reachable maxPackets payload m)
    (hp : payload.createPacket = .ok p) (hseq : m.client.seqNum ≤ 65535)
    (hid : m.sim.events.lookup id = some ev) : ∃ m', m.fire id = .ok m' := by
  cases ev with
  | send =>
    obtain ⟨m', hs⟩ := h.send_returns hp hid
    exact ⟨m', by simpa [fire, hid] using hs⟩
  | handleTimeout s =>
    obtain ⟨hi, hl⟩ := h.laws hseq
    have hlt : s < m.client.seqNum := hl.ok.timer_lt s id ((hi.faithful.exact s id).mpr hid)
    obtain ⟨m', hs⟩ := handleTimeout_returns
      (m := ({ m with sim := m.sim.cancel id } : Machine).write [.timeout id s])
      (k := 65535) (s := s) (by decide) (by omega) fun hr => by
        have : 65535 < m.client.seqNum := hl.ok.received_lt _ hr
        omega
    exact ⟨m', by simpa [fire, hid] using hs⟩
  | ppsLog =>
    refine ⟨ppsLog { m with sim := m.sim.cancel id }, ?_⟩
    simp only [fire, hid]

end Machine

namespace Network

variable {n n' : Network} {i : Input} {id t T : ℕ} {τ : Timing} {x x' : Timed Network Item}
  {p : Buffer} {maxPackets : UInt32} {payload : Payload} {is : List (ℕ × Input)}

-- ---------------------------------------------------------------------------
-- What is left to do
-- ---------------------------------------------------------------------------

theorem card_timeouts_cancel_le (sim : Simulator) (id : EventId) :
    (sim.cancel id).timeouts.card ≤ sim.timeouts.card :=
  Simulator.timeouts_mono fun _ _ ha => (Simulator.lookup_of_cancel ha).2

/-- The timers that run, and the ways of the datagrams that are left. -/
def backlog (n : Network) : ℕ :=
  n.machine.sim.timeouts.card + 2 * n.toServer.length + n.toClient.length

/-- Only `Send` adds to the backlog, and what is no tick takes something off it. -/
theorem backlog_step (h : Reachable maxPackets payload n) (hs : step n i = .ok n') :
    (∃ id, n.machine.sim.events.lookup id = some .send ∧ i = .fire id ∧
      n'.backlog ≤ n.backlog + 3) ∨
    (∃ id, n.machine.sim.events.lookup id = some .ppsLog ∧ i = .fire id ∧
      n'.backlog ≤ n.backlog) ∨ n'.backlog < n.backlog := by
  obtain ⟨hm, ht⟩ := h.transport
  cases step_cases hs with
  | fire id m hf =>
    have hf' : Machine.step n.machine (.fire id) = .ok m := hf
    cases Machine.step_cases hf' with
    | send _ hid hsend =>
      have htimer := Machine.timeouts_send hsend
      have hwire : (datagrams m.wire n.machine.wire.length).length ≤ 1 := by
        rcases Machine.fire_wire hf with hw | ⟨packet, hw⟩
        · rw [hw, datagrams_self]
          exact Nat.zero_le _
        · rw [hw, datagrams_snoc]
          exact Nat.le_refl _
      have hcancel := card_timeouts_cancel_le n.machine.sim id
      refine .inl ⟨id, hid, rfl, ?_⟩
      simp only [backlog, List.length_append]
      dsimp only at htimer
      omega
    | handleTimeout _ s hid hto =>
      have hrec := Machine.recovers_handleTimeout hto
      have hwire : m.wire = n.machine.wire := hrec.wire
      have htimers : m.sim.timeouts.card ≤ (n.machine.sim.cancel id).timeouts.card :=
        Simulator.timeouts_mono fun a s => hrec.events a _
      have hran := Simulator.card_timeouts_cancel hid
      refine .inr (.inr ?_)
      simp only [backlog, hwire, datagrams_self, List.append_nil]
      omega
    | ppsLog _ hid =>
      have htimers : ((n.machine.sim.cancel id).schedule .ppsLog).timeouts.card ≤ _ :=
        Simulator.card_timeouts_schedule_of_ne (by simp)
      have hcancel := card_timeouts_cancel_le n.machine.sim id
      refine .inr (.inl ⟨id, hid, rfl, ?_⟩)
      exact Nat.add_le_add_right (Nat.add_le_add (htimers.trans hcancel)
        (by simp [Machine.ppsLog, Machine.schedulePpsLog, datagrams_self])) _
  | serve _ _ hd =>
    refine .inr (.inr ?_)
    simp only [backlog, hd, List.length_append, List.length_cons, List.length_nil]
    omega
  | deliver _ _ m hd hr =>
    have htimers : m.sim.timeouts.card ≤ n.machine.sim.timeouts.card :=
      Simulator.timeouts_mono fun a s => (Machine.recovers_readPacket hm.budget.owned hr).events a _
    refine .inr (.inr ?_)
    simp only [backlog, hd, List.length_cons]
    omega
  | dropToServer _ _ hk =>
    have hlength := List.length_eraseIdx_of_lt (List.getElem?_eq_some_iff.mp hk).1
    have hlt := (List.getElem?_eq_some_iff.mp hk).1
    refine .inr (.inr ?_)
    simp only [backlog, hlength]
    omega
  | dropToClient _ _ hk =>
    have hlength := List.length_eraseIdx_of_lt (List.getElem?_eq_some_iff.mp hk).1
    have hlt := (List.getElem?_eq_some_iff.mp hk).1
    refine .inr (.inr ?_)
    simp only [backlog, hlength]
    omega

def left (τ : Timing) (T : ℕ) (ev : Event) (x : Timed Network Item) : ℕ :=
  Clocked.ticksLeft T (τ.delay ev) ((x.state.tick ev).map x.due)

theorem left_step (h : TimedReachable τ maxPackets payload x) (ev : Event)
    (hev : ∀ s, ev ≠ .handleTimeout s) (hpos : 0 < τ.delay ev)
    (hs : (clocked τ).timedStep x (t, i) = .ok x') (ht : t ≤ T) :
    left τ T ev x' ≤ left τ T ev x ∧
    ∀ id, x.state.machine.sim.events.lookup id = some ev → i = .fire id →
      left τ T ev x' + 1 ≤ left τ T ev x := by
  rcases tick_cases h hev hs with ⟨hno, hkeep⟩ | ⟨id, -, -, hran, hnext⟩
  · exact ⟨Clocked.ticksLeft_kept hkeep, fun id hid hi => absurd hi (hno id hid)⟩
  · have hless : left τ T ev x' + 1 ≤ left τ T ev x := by
      rw [left, left, hran]
      exact Clocked.ticksLeft_ran hpos ht hnext
    exact ⟨Nat.le_of_succ_le hless, fun _ _ _ => hless⟩

/-- The events and deliveries until `T`. A `Send` may start a timer and put a packet
on the path, which has two ways to go. -/
def work (τ : Timing) (T : ℕ) (x : Timed Network Item) : ℕ :=
  4 * left τ T .send x + left τ T .ppsLog x + x.state.backlog

theorem work_step (hpos : 0 < τ.interval) (x : Timed Network Item) (t : ℕ) (i : Input)
    (x' : Timed Network Item) (h : TimedReachable τ maxPackets payload x)
    (hs : (clocked τ).timedStep x (t, i) = .ok x') (ht : t ≤ T) : work τ T x' < work τ T x := by
  obtain ⟨hsend, hsent⟩ := left_step h .send (by simp) hpos hs ht
  obtain ⟨hreport, hreported⟩ := left_step h .ppsLog (by simp) (Nat.zero_lt_succ _) hs ht
  obtain ⟨-, n, hn, rfl⟩ := Clocked.timedStep_ok.mp hs
  unfold work
  rcases backlog_step h.untimed hn with ⟨id, hid, hi, hle⟩ | ⟨id, hid, hi, hle⟩ | hlt
  · have hran := hsent id hid hi
    dsimp only at *
    omega
  · have hran := hreported id hid hi
    dsimp only at *
    omega
  · dsimp only at *
    omega

-- ---------------------------------------------------------------------------
-- The next step
-- ---------------------------------------------------------------------------

theorem Reachable.read_returns (h : Reachable maxPackets payload n)
    (hseq : n.machine.client.seqNum ≤ 65535) {d : Datagram} (hd : d ∈ n.toClient) :
    ∃ m, n.machine.handleRead [d.packet] = .ok m := by
  obtain ⟨hr, ht⟩ := h.transport
  obtain ⟨hi, hl⟩ := hr.laws hseq
  have hcarried := carried_of_mem ht (d := d) (.inr (.inl hd))
  obtain ⟨e, he, hdr, data, hdes, hseqe⟩ := hi.wired.getElem? hcarried
  have hlt : e.2.1 < n.machine.client.seqNum := hl.ordered.sent_lt e (List.mem_of_getElem? he)
  obtain ⟨m', hread⟩ := Machine.readPacket_returns (m := n.machine) (k := 65535) hdr data
    (by decide) (by omega) fun hrecv => by
      have : 65535 < n.machine.client.seqNum := hl.ok.received_lt _ hrecv
      omega
  obtain ⟨hdr', data', base, hdes', hloop, -⟩ := Machine.readPacket_ok.mp hread
  rw [RdtHeader.deserialize_serialize] at hdes'
  cases hdes'
  exact ⟨_, Machine.handleRead_singleton.mpr
    (Machine.readPacket_ok.mpr ⟨hdr, data, base, hdes, hloop, rfl⟩)⟩

theorem TimedReachable.first_event (h : TimedReachable τ maxPackets payload x)
    (hpath : x.state.toClient ++ x.state.toServer = []) :
    ∃ id ev, x.state.machine.sim.events.lookup id = some ev ∧
      (clocked τ).Permits x (x.due (.event id)) (.fire id) := by
  have item_event : ∀ a ∈ x.state.items, ∃ id ∈ x.state.machine.sim.events.keys, a = .event id := by
    simp [items, hpath]
  obtain ⟨id₀, hid₀⟩ := h.untimed.transport.1.report_scheduled
  have hsome : x.state.machine.sim.events.keys.Nonempty :=
    ⟨id₀, Finmap.mem_keys.mpr (Finmap.mem_of_lookup_eq_some hid₀)⟩
  -- the earliest, and of those the one scheduled first
  obtain ⟨id, hid, hmin⟩ := Finset.exists_min_image _
    (fun id => toLex (x.due (.event id), id)) hsome
  obtain ⟨ev, hev⟩ := Finmap.mem_iff.mp (Finmap.mem_keys.mp hid)
  have hitem : Item.event id ∈ x.state.items := mem_items_event.mpr ⟨ev, hev⟩
  refine ⟨id, ev, hev, h.punctual _ hitem, fun a ha => ?_, fun a ha => ?_⟩
  · obtain ⟨id', hid', rfl⟩ := item_event a ha
    rcases Prod.Lex.toLex_le_toLex.mp (hmin id' hid') with hlt | ⟨heq, -⟩
    · exact hlt.le
    · exact heq.le
  · obtain rfl := Option.some.inj ha
    refine ⟨rfl, fun b hb hdate => ?_⟩
    obtain ⟨id', hid', rfl⟩ := item_event b hb
    rcases Prod.Lex.toLex_le_toLex.mp (hmin id' hid') with hlt | ⟨-, hle⟩
    · exact absurd hdate hlt.ne'
    · exact decide_eq_false (Nat.not_lt.mpr hle)

def Input.drops : Input → Bool
  | .dropToServer _ | .dropToClient _ => true
  | _ => false

theorem TimedReachable.next_step (h : TimedReachable τ maxPackets payload x)
    (hp : payload.createPacket = .ok p) (hmax : maxPackets.toNat ≤ 65535) :
    ∃ t i x', (clocked τ).timedStep x (t, i) = .ok x' ∧ i.drops = false := by
  have hm := h.untimed.transport.1
  have hseq := hm.seqNum_le hmax
  -- what is on the path may arrive at once
  have arrives : ∀ {i n}, (∀ id, i ≠ .fire id) → i.drops = false → step x.state i = .ok n →
      ∃ t i x', (clocked τ).timedStep x (t, i) = .ok x' ∧ i.drops = false :=
    fun {i n} hi hkept hs => by
    refine ⟨x.now, i, _, Clocked.timedStep_ok.mpr ⟨⟨Nat.le_refl _, h.punctual, ?_⟩, n, hs, rfl⟩,
      hkept⟩
    cases i with
    | fire id => exact absurd rfl (hi id)
    | _ => simp [clocked]
  cases hc : x.state.toClient with
  | cons d rest =>
    obtain ⟨m, hm⟩ := h.untimed.read_returns (d := d) hseq (by simp [hc])
    obtain ⟨n, hs⟩ : ∃ n, step x.state .deliver = .ok n := by
      simp only [step, hc]
      exact ⟨_, Runs.bind_ok.mpr ⟨m, hm, rfl⟩⟩
    exact arrives (by simp) rfl hs
  | nil =>
    cases ht : x.state.toServer with
    | cons d rest =>
      obtain ⟨n, hs⟩ : ∃ n, step x.state .serve = .ok n := by
        simp only [step, ht]
        exact ⟨_, rfl⟩
      exact arrives (by simp) rfl hs
    | nil =>
      obtain ⟨id, ev, hev, hpermits⟩ := h.first_event (by rw [hc, ht]; rfl)
      obtain ⟨m, hs⟩ := hm.fire_returns hp hseq hev
      exact ⟨_, _, _, Clocked.timedStep_ok.mpr
        ⟨hpermits, _, Runs.bind_ok.mpr ⟨m, hs, rfl⟩, rfl⟩, rfl⟩

-- ---------------------------------------------------------------------------
-- Runs
-- ---------------------------------------------------------------------------

theorem work_start {T : ℕ} (hpos : 0 < τ.interval) (hT : τ.startTime ≤ T) :
    work τ T (timedStart τ maxPackets payload) =
      4 * ((T - τ.startTime) / τ.interval + 1) + ((T - τ.startTime) / reportPeriod + 1) := by
  have hsend : left τ T .send (timedStart τ maxPackets payload) = _ :=
    Clocked.ticksLeft_some hpos hT
  have hreport : left τ T .ppsLog (timedStart τ maxPackets payload) = _ :=
    Clocked.ticksLeft_some (Nat.zero_lt_succ _) hT
  have hback : (start maxPackets payload).backlog = 0 := rfl
  unfold work
  rw [hsend, hreport]
  exact congrArg _ hback

def stepLimit (τ : Timing) (T : ℕ) : ℕ :=
  4 * ((T - τ.startTime) / τ.interval) + (T - τ.startTime) / reportPeriod + 5

theorem length_le_stepLimit (hpos : 0 < τ.interval) (hT : τ.startTime ≤ T)
    (hrun : exec (clocked τ).timedStep (timedStart τ maxPackets payload) is = .ok x)
    (hnow : x.now ≤ T) : is.length ≤ stepLimit τ T := by
  have hle := Clocked.Reachable.length_le (work_step hpos) .refl hrun hnow
  rw [work_start hpos hT] at hle
  unfold stepLimit
  omega

/-- Until any time a run takes no more steps than four for each interval, one for
each second, and five. -/
theorem steps_bounded (hpos : 0 < τ.interval)
    (hrun : exec (clocked τ).timedStep (timedStart τ maxPackets payload) is = .ok x) :
    is.length ≤ 4 * ((x.now - τ.startTime) / τ.interval) + (x.now - τ.startTime) / reportPeriod +
      5 :=
  length_le_stepLimit hpos (Clocked.Reachable.now_le ⟨is, hrun⟩) hrun (Nat.le_refl _)

theorem steps_bounded_after_two : ∃ x,
    exec (clocked ⟨40000000, 20000000, 1000000000⟩).timedStep
      (timedStart ⟨40000000, 20000000, 1000000000⟩ 10 ⟨4, 0, none⟩)
      [(1000000000, .fire 0), (1000000000, .fire 1), (1010000000, .serve),
        (1020000000, .deliver), (1040000000, .fire 4)] = .ok x ∧
    5 ≤ 4 * ((x.now - 1000000000) / 40000000) + (x.now - 1000000000) / reportPeriod + 5 := by
  obtain ⟨x, hx⟩ : ∃ x, exec (clocked ⟨40000000, 20000000, 1000000000⟩).timedStep
      (timedStart ⟨40000000, 20000000, 1000000000⟩ 10 ⟨4, 0, none⟩)
      [(1000000000, .fire 0), (1000000000, .fire 1), (1010000000, .serve),
        (1020000000, .deliver), (1040000000, .fire 4)] = .ok x := ⟨_, rfl⟩
  exact ⟨x, hx, steps_bounded (by decide) hx⟩

/-- On a path whose round trip is shorter than `m_rto` every run that goes past the
deadline, or takes more steps than there are until then, is finished, whatever was
dropped; and none stops before, as there is a next step. -/
theorem finishes (hpos : 0 < τ.interval) (hlat : τ.latency < rto)
    (hp : payload.createPacket = .ok p) (hsome : 0 < maxPackets.toNat)
    (hmax : maxPackets.toNat ≤ 65535)
    (hrun : exec (clocked τ).timedStep (timedStart τ maxPackets payload) is = .ok x) :
    (deadline τ maxPackets < x.now ∨ stepLimit τ (deadline τ maxPackets) < is.length →
      x.state.Finished maxPackets) ∧
    ∃ t i x', (clocked τ).timedStep x (t, i) = .ok x' ∧ i.drops = false := by
  have h : TimedReachable τ maxPackets payload x := ⟨is, hrun⟩
  have hseq := h.untimed.transport.1.seqNum_le hmax
  refine ⟨fun hlong => h.finished hlat hseq hsome ?_, h.next_step hp hmax⟩
  rcases hlong with hlate | hlong
  · exact hlate
  · by_contra hearly
    have hstart : τ.startTime ≤ deadline τ maxPackets := by
      unfold deadline
      omega
    exact absurd (length_le_stepLimit hpos hstart hrun (Nat.le_of_not_lt hearly))
      (Nat.not_le.mpr hlong)

/-- The first of two packets is dropped, declared lost by the echo of the second and
sent again; for six seconds more there are only reports. -/
def lossyRun : List (ℕ × Input) :=
  [(1000000000, .fire 0), (1000000000, .fire 1), (1020000000, .dropToServer 0),
    (1040000000, .fire 4), (1050000000, .serve), (1060000000, .deliver), (1080000000, .fire 6),
    (1090000000, .serve), (1100000000, .deliver), (2000000000, .fire 2), (3000000000, .fire 8),
    (4000000000, .fire 9), (5000000000, .fire 10), (6000000000, .fire 11), (7000000000, .fire 12)]

theorem finishes_after_drop : ∃ x,
    exec (clocked ⟨40000000, 20000000, 1000000000⟩).timedStep
      (timedStart ⟨40000000, 20000000, 1000000000⟩ 3 ⟨4, 0, none⟩) lossyRun = .ok x ∧
    x.state.dropped.length = 1 ∧ x.state.Finished 3 ∧
    ∃ t i x', (clocked ⟨40000000, 20000000, 1000000000⟩).timedStep x (t, i) = .ok x' ∧
      i.drops = false := by
  obtain ⟨x, hx, hdropped, hnow⟩ := Runs.exists_of_check
    (x := exec (clocked ⟨40000000, 20000000, 1000000000⟩).timedStep
      (timedStart ⟨40000000, 20000000, 1000000000⟩ 3 ⟨4, 0, none⟩) lossyRun)
    (fun x => x.state.dropped.length = 1 ∧ x.now = 7000000000) (by decide +kernel)
  obtain ⟨hfinished, hnext⟩ := finishes (p := [0, 0, 0, 0]) (by decide) (by decide) rfl (by decide)
    (by decide) hx
  exact ⟨x, hx, hdropped, hfinished (.inl (by rw [hnow]; decide)), hnext⟩

/-- Wherever a run has got to, no handler it may call fails to return, and it can be
continued past any time with no more drops, to where it is finished. -/
theorem completes (h : TimedReachable τ maxPackets payload x) (hpos : 0 < τ.interval)
    (hlat : τ.latency < rto) (hp : payload.createPacket = .ok p)
    (hsome : 0 < maxPackets.toNat) (hmax : maxPackets.toNat ≤ 65535) (T : ℕ) :
    (∀ id ev, x.state.machine.sim.events.lookup id = some ev →
      ∃ m, x.state.machine.fire id = .ok m) ∧
    (∀ d ∈ x.state.toClient, ∃ m, x.state.machine.handleRead [d.packet] = .ok m) ∧
    ∃ is x', exec (clocked τ).timedStep x is = .ok x' ∧ (∀ l ∈ is, l.2.drops = false) ∧
      T < x'.now ∧ x'.state.Finished maxPackets := by
  have hseq := h.untimed.transport.1.seqNum_le hmax
  refine ⟨fun _ _ hid => h.untimed.transport.1.fire_returns hp hseq hid,
    fun _ hd => h.untimed.read_returns hseq hd, ?_⟩
  obtain ⟨is, x', hrun, hkept, hlate⟩ := Clocked.Reachable.passes
    (T := max T (deadline τ maxPackets)) (P := fun i : Input => i.drops = false) (work_step hpos)
    (fun _ hx => TimedReachable.next_step hx hp hmax) h
  obtain ⟨hT, hlate⟩ := max_lt_iff.mp hlate
  have hx' := h.append hrun
  exact ⟨is, x', hrun, hkept, hT,
    hx'.finished hlat (hx'.untimed.transport.1.seqNum_le hmax) hsome hlate⟩

/-- The first of ten packets is dropped. -/
theorem completes_after_drop : ∃ x is x',
    exec (clocked ⟨40000000, 20000000, 1000000000⟩).timedStep
      (timedStart ⟨40000000, 20000000, 1000000000⟩ 10 ⟨4, 0, none⟩)
      [(1000000000, .fire 0), (1000000000, .fire 1), (1020000000, .dropToServer 0)] = .ok x ∧
    (∃ m, x.state.machine.fire 3 = .ok m) ∧
    exec (clocked ⟨40000000, 20000000, 1000000000⟩).timedStep x is = .ok x' ∧
    (∀ l ∈ is, l.2.drops = false) ∧ 60000000000 < x'.now ∧ x'.state.Finished 10 := by
  obtain ⟨x, hx, htimer⟩ : ∃ x,
      exec (clocked ⟨40000000, 20000000, 1000000000⟩).timedStep
        (timedStart ⟨40000000, 20000000, 1000000000⟩ 10 ⟨4, 0, none⟩)
        [(1000000000, .fire 0), (1000000000, .fire 1), (1020000000, .dropToServer 0)] = .ok x ∧
      x.state.machine.sim.events.lookup 3 = some (.handleTimeout 0) := ⟨_, rfl, rfl⟩
  obtain ⟨hfire, -, is, x', hrun⟩ := completes (p := [0, 0, 0, 0]) ⟨_, hx⟩ (by decide) (by decide)
    rfl (by decide) (by decide) 60000000000
  exact ⟨x, is, x', hx, hfire 3 _ htimer, hrun⟩

end Network

end ReliableEcho
