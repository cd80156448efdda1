import ReliableEcho.Clock
import ReliableEcho.Counters

/-!
# How fast the client sends

`Send` and `PpsLog` each schedule their own successor, so they are ticks of the
clock: packets go out once in `m_interval` at most, reports come exactly once a
second, and no report has more packets than a second has intervals, and one.
-/

namespace ReliableEcho

open Runs (exec)

namespace Client

def current (c : Client) : Event → Option EventId
  | .send => c.sendEvent
  | .handleTimeout seq => c.timers.lookup seq
  | .ppsLog => c.logEvent

end Client

namespace Machine

variable {m m' : Machine} {i : Input} {id : ℕ} {maxPackets : UInt32} {payload : Payload}

/-- A report is the increase since the last one, which the static counters hold. -/
theorem Reachable.statics_le (h : Reachable maxPackets payload m) : m.statics ≤ m.counters := by
  refine h.invariant (P := fun m => m.statics ≤ m.counters)
    (le_refl (⟨0, 0, 0⟩ : PpsCounters)) fun m i m' hr hle hs => ?_
  have hsound := Reachable.sound hr
  have hlive : m.Live i := by
    cases i with
    | fire id => trivial
    | read packet => exact (Reachable.configured hr).2.2.2
  by_cases hi : ∃ id, i = .fire id ∧ m.sim.events.lookup id = some .ppsLog
  · obtain ⟨id, rfl, hid⟩ := hi
    simp only [step, fire, hid] at hs
    cases hs
    exact le_refl m.counters
  · have hsilent := hsound.silent hlive hs fun id he hid => hi ⟨id, he, hid⟩
    rw [hsilent.1]
    exact hle.trans (hsound.step hlive hs).2

theorem Reachable.report_eq (h : Reachable maxPackets payload m) :
    ∃ r, m.ppsLog.reports = m.reports ++ [r] ∧ m.ppsLog.statics = m.counters ∧
      r.packetSent + r.packetRetrans =
        m.wire.length - (m.statics.packetSent + m.statics.packetRetrans) := by
  obtain ⟨hsent, -, hretrans⟩ := h.sound.counters_lt
  obtain ⟨hs, -, hr⟩ := h.statics_le
  refine ⟨_, rfl, rfl, ?_⟩
  have hs : m.statics.packetSent ≤ m.client.packetSent := hs
  have hr : m.statics.packetRetrans ≤ m.client.packetRetrans := hr
  have hcounts := h.counts
  rw [← hcounts.wire, hcounts.sent]
  simp only [u32]
  omega

end Machine

namespace Network

variable {n n' : Network} {i : Input} {id : ℕ} {ev : Event} {a : Item} {τ : Timing}
  {x x' : Timed Network Item} {is : List (ℕ × Input)} {maxPackets : UInt32} {payload : Payload}

-- ---------------------------------------------------------------------------
-- Ticks
-- ---------------------------------------------------------------------------

/-- The pending event of a kind, as the client knows it. -/
def tick (ev : Event) (n : Network) : Option Item :=
  ((n.machine.client.current ev).filter fun id => n.machine.sim.events.lookup id = some ev).map
    .event

theorem tick_live (ev : Event) (n : Network) (a : Item) (ha : n.tick ev = some a) : a ∈ n.items := by
  simp only [tick, Option.map_eq_some_iff, Option.filter_eq_some_iff, decide_eq_true_eq] at ha
  obtain ⟨id, ⟨-, hid⟩, rfl⟩ := ha
  exact mem_items_event.mpr ⟨ev, hid⟩

section
variable (h : Reachable maxPackets payload n) (hev : ∀ s, ev ≠ .handleTimeout s)
include h hev

theorem current_of_lookup (hid : n.machine.sim.events.lookup id = some ev) :
    n.machine.client.current ev = some id := by
  obtain ⟨hm, -⟩ := h.transport
  cases ev with
  | send => exact hm.budget.current id hid
  | handleTimeout s => exact absurd rfl (hev s)
  | ppsLog => exact hm.report_current hid

theorem tick_eq_some : n.tick ev = some a ↔
    ∃ id, n.machine.sim.events.lookup id = some ev ∧ a = .event id := by
  simp only [tick, Option.map_eq_some_iff, Option.filter_eq_some_iff, decide_eq_true_eq]
  constructor
  · rintro ⟨id, ⟨-, hid⟩, rfl⟩
    exact ⟨id, hid, rfl⟩
  · rintro ⟨id, hid, rfl⟩
    exact ⟨id, ⟨current_of_lookup h hev hid, hid⟩, rfl⟩

/-- `Send` and `PpsLog` are ticks, for any count that only they raise, by one at
most. -/
theorem tickStep (hs : step n i = .ok n') {count : Network → ℕ}
    (quiet : (∀ id, n.machine.sim.events.lookup id = some ev → i ≠ .fire id) →
      count n' = count n) (once : count n' ≤ count n + 1) :
    (clocked τ).TickStep (tick ev) count (τ.delay ev) n i n' := by
  have h' : Reachable maxPackets payload n' := h.tail hs
  obtain ⟨hm, ht⟩ := h.transport
  -- a tick after the step was there before, or was scheduled by the one that ran
  have origin : ∀ id, n'.machine.sim.events.lookup id = some ev →
      (n.machine.sim.events.lookup id = some ev ∧ i ≠ .fire id) ∨
      (n.machine.sim.uid ≤ id ∧ ∃ id₀, n.machine.sim.events.lookup id₀ = some ev ∧ i = .fire id₀) := by
    intro id hid
    rcases machine_input ht hs with ⟨he, hi⟩ | ⟨l, hl, hfire⟩
    · exact .inl ⟨he ▸ hid, hi id⟩
    have hsched := Machine.schedules_step hm.budget hl
    rcases Nat.lt_or_ge id n.machine.sim.uid with hlt | hge
    · obtain ⟨hold, hne⟩ := hsched.old id ev hlt hid
      exact .inl ⟨hold, fun hi => hne ((hfire id).mpr hi)⟩
    · obtain ⟨id₀, hl₀, hkind⟩ := hsched.new id ev hge hid
      refine .inr ⟨hge, id₀, ?_, (hfire id₀).mp hl₀⟩
      cases ev with
      | send => simpa using hkind
      | handleTimeout s => exact absurd rfl (hev s)
      | ppsLog => simpa using hkind
  by_cases hrun : ∃ id, n.machine.sim.events.lookup id = some ev ∧ i = .fire id
  · obtain ⟨id, hid, rfl⟩ := hrun
    refine .inr ⟨.event id, (tick_eq_some h hev).mpr ⟨id, hid, rfl⟩, rfl, once, ?_⟩
    intro b hb
    obtain ⟨id', hid', rfl⟩ := (tick_eq_some h' hev).mp hb
    refine ⟨fun hlive => ?_, by simp [clocked, hid']⟩
    rcases origin id' hid' with ⟨hold, hne⟩ | ⟨hge, -⟩
    · have hsame := (current_of_lookup h hev hold).symm.trans (current_of_lookup h hev hid)
      exact hne (congrArg _ (Option.some.inj hsame).symm)
    · obtain ⟨old, hold⟩ := mem_items_event.mp hlive
      rw [hm.budget.fresh id' hge] at hold
      cases hold
  · refine .inl ⟨quiet fun id hid hi => hrun ⟨id, hid, hi⟩, fun b hb => ?_⟩
    obtain ⟨id, hid, rfl⟩ := (tick_eq_some h' hev).mp hb
    rcases origin id hid with ⟨hold, -⟩ | ⟨-, hran⟩
    · exact (tick_eq_some h hev).mpr ⟨id, hold, rfl⟩
    · exact absurd hran hrun

end

-- ---------------------------------------------------------------------------
-- Transmissions
-- ---------------------------------------------------------------------------

def sentCount (n : Network) : ℕ := n.machine.wire.length

theorem sentCount_start : (start maxPackets payload).sentCount = 0 := rfl

theorem sentCount_step (h : Reachable maxPackets payload n) (hs : step n i = .ok n') :
    ((∀ id, n.machine.sim.events.lookup id = some .send → i ≠ .fire id) →
      n'.sentCount = n.sentCount) ∧ n'.sentCount ≤ n.sentCount + 1 := by
  obtain ⟨hm, ht⟩ := h.transport
  rcases machine_input ht hs with ⟨he, -⟩ | ⟨l, hl, hfire⟩
  · rw [sentCount, he]
    exact ⟨fun _ => rfl, Nat.le_succ _⟩
  unfold sentCount
  generalize n'.machine = m' at hl
  cases Machine.step_cases hl with
  | send id hid =>
    refine ⟨fun hno => absurd ((hfire id).mp rfl) (hno id hid), ?_⟩
    rcases Machine.fire_wire hl with hw | ⟨packet, hw⟩ <;> simp [hw]
  | handleTimeout _ _ hid hs =>
    have hw := (Machine.recovers_timeout hid hs).wire
    exact ⟨fun _ => congrArg List.length hw, by simp [hw]⟩
  | ppsLog => exact ⟨fun _ => rfl, Nat.le_succ _⟩
  | read _ _ hs =>
    have hw := (Machine.recovers_readPacket hm.budget.owned hs).wire
    exact ⟨fun _ => congrArg List.length hw, by simp [hw]⟩

theorem sendTick_step (h : Reachable maxPackets payload n) (hs : step n i = .ok n') :
    (clocked τ).TickStep (tick .send) sentCount τ.interval n i n' :=
  have hcount := sentCount_step h hs
  tickStep (τ := τ) h (by simp) hs hcount.1 hcount.2

theorem TimedReachable.now_le_tick (h : TimedReachable τ maxPackets payload x)
    (ha : x.state.tick ev = some a) : x.now ≤ x.due a :=
  h.punctual a (tick_live ev x.state a ha)

/-- In any stretch of a run the client hands to its socket one packet in
`m_interval` at most, and one more. -/
theorem transmissions_paced (h : TimedReachable τ maxPackets payload x)
    (hrun : exec (clocked τ).timedStep x is = .ok x') :
    (x'.state.machine.wire.length - x.state.machine.wire.length) * τ.interval ≤
      x'.now - x.now + τ.interval := by
  have hpaced : Clocked.Paced (tick .send) sentCount τ.interval x.now x.state.sentCount x' :=
    Clocked.Paced.stretch (K := clocked τ) (tick_live .send) (I := Reachable maxPackets payload)
      (fun n i n' hn hs => sendTick_step hn hs) (fun n i n' hn hs => hn.tail hs)
      (.now fun a ha => h.now_le_tick ha) h.untimed hrun
  have hrate := hpaced.1
  simp only [sentCount] at hrate
  rw [Nat.sub_mul]
  omega

theorem transmissions_paced_after_two : ∃ x x',
    exec (clocked ⟨100000, 20000000, 1000000000⟩).timedStep
      (timedStart ⟨100000, 20000000, 1000000000⟩ 3 ⟨4, 0, none⟩)
      [(1000000000, .fire 0), (1000000000, .fire 1)] = .ok x ∧
    exec (clocked ⟨100000, 20000000, 1000000000⟩).timedStep x
      [(1000100000, .fire 4), (1000200000, .fire 6)] = .ok x' ∧
    x'.state.machine.wire.length = 3 ∧
    (x'.state.machine.wire.length - x.state.machine.wire.length) * 100000 ≤
      x'.now - x.now + 100000 := by
  obtain ⟨x, hx, x', hx', hlen⟩ : ∃ x,
      exec (clocked ⟨100000, 20000000, 1000000000⟩).timedStep
        (timedStart ⟨100000, 20000000, 1000000000⟩ 3 ⟨4, 0, none⟩)
        [(1000000000, .fire 0), (1000000000, .fire 1)] = .ok x ∧ ∃ x',
      exec (clocked ⟨100000, 20000000, 1000000000⟩).timedStep x
        [(1000100000, .fire 4), (1000200000, .fire 6)] = .ok x' ∧
      x'.state.machine.wire.length = 3 := ⟨_, rfl, _, rfl, rfl⟩
  exact ⟨x, x', hx, hx', hlen, transmissions_paced ⟨_, hx⟩ hx'⟩

-- ---------------------------------------------------------------------------
-- Reports
-- ---------------------------------------------------------------------------

def reportCount (n : Network) : ℕ := n.machine.reports.length

theorem reports_step (h : Reachable maxPackets payload n) (hs : step n i = .ok n') :
    ((∀ id, n.machine.sim.events.lookup id = some .ppsLog → i ≠ .fire id) →
      n'.machine.statics = n.machine.statics ∧ n'.machine.reports = n.machine.reports) ∧
    (∀ id, n.machine.sim.events.lookup id = some .ppsLog → i = .fire id → n'.sentCount = n.sentCount ∧
      ∃ r, n'.machine.reports = n.machine.reports ++ [r] ∧
        n'.machine.statics = n.machine.counters ∧
        r.packetSent + r.packetRetrans = n.machine.wire.length -
          (n.machine.statics.packetSent + n.machine.statics.packetRetrans)) := by
  obtain ⟨hm, ht⟩ := h.transport
  rcases machine_input ht hs with ⟨he, hi⟩ | ⟨l, hl, hfire⟩
  · exact ⟨fun _ => by rw [he]; exact ⟨rfl, rfl⟩, fun id _ hid => absurd hid (hi id)⟩
  have hlive : n.machine.Live l := by
    cases l with
    | fire id => trivial
    | read packet => exact hm.configured.2.2.2
  refine ⟨fun hno => hm.sound.silent hlive hl fun id he hid => hno id hid ((hfire id).mp he), ?_⟩
  rintro id hid rfl
  obtain rfl : l = .fire id := (hfire id).mpr rfl
  simp only [Machine.step, Machine.fire, hid] at hl
  obtain ⟨r, hr⟩ := hm.report_eq
  have hn : n'.machine = Machine.ppsLog { n.machine with sim := n.machine.sim.cancel id } :=
    (Except.ok.inj hl).symm
  refine ⟨?_, r, ?_⟩
  · rw [sentCount, hn]
    rfl
  · rw [hn]
    exact hr

theorem reportTick_step (h : Reachable maxPackets payload n) (hs : step n i = .ok n') :
    (clocked τ).TickStep (tick .ppsLog) reportCount reportPeriod n i n' := by
  obtain ⟨hquiet, hran⟩ := reports_step h hs
  refine tickStep (τ := τ) h (by simp) hs (fun hno => congrArg List.length (hquiet hno).2) ?_
  by_cases hrun : ∃ id, n.machine.sim.events.lookup id = some .ppsLog ∧ i = .fire id
  · obtain ⟨id, hid, hi⟩ := hrun
    obtain ⟨-, r, hr, -⟩ := hran id hid hi
    simp [reportCount, hr]
  · have hsame := (hquiet fun id hid hi => hrun ⟨id, hid, hi⟩).2
    simp [reportCount, hsame]

/-- `PpsLog` is due a whole number of seconds after the start. -/
theorem TimedReachable.regular (h : TimedReachable τ maxPackets payload x) :
    Clocked.Regular (tick .ppsLog) reportCount reportPeriod τ.startTime x := by
  refine Runs.Reachable.invariant (P := Clocked.Regular (tick .ppsLog) reportCount reportPeriod
    τ.startTime) h ?_ ?_
  · have hnone : reportCount (start maxPackets payload) = 0 := rfl
    simp [Clocked.Regular, timedStart, hnone]
  rintro x ⟨t, i⟩ x' hr hreg hs
  have hx : Reachable maxPackets payload x.state := TimedReachable.untimed hr
  obtain ⟨-, n, hn, rfl⟩ := Clocked.timedStep_ok.mp hs
  refine hreg.step (K := clocked τ) (tick_live .ppsLog) hs (reportTick_step hx hn) ?_
  intro a ha hrun
  obtain ⟨id, hid, rfl⟩ := (tick_eq_some hx (by simp)).mp ha
  obtain ⟨-, r, hr, -⟩ := (reports_step hx hn).2 id hid (runs_event.mp hrun)
  simp [reportCount, hr]

/-- Since the last report, at `last`, the packets were paced. -/
structure ReportsPaced (τ : Timing) (x : Timed Network Item) : Prop where
  since : ∃ last, Clocked.Paced (tick .send) sentCount τ.interval last
      (x.state.machine.statics.packetSent + x.state.machine.statics.packetRetrans) x ∧
    ∀ a, x.state.tick .ppsLog = some a → x.due a ≤ last + reportPeriod
  reports : ∀ r ∈ x.state.machine.reports,
    (r.packetSent + r.packetRetrans) * τ.interval ≤ reportPeriod + τ.interval

theorem ReportsPaced.start : ReportsPaced τ (timedStart τ maxPackets payload) := by
  refine ⟨⟨τ.startTime, ⟨?_, fun a _ => ?_⟩, fun a _ => Nat.le_add_right _ _⟩, fun r hr => by cases hr⟩
  · dsimp only [timedStart]
    rw [sentCount_start, Nat.zero_mul]
    omega
  · dsimp only [timedStart]
    rw [sentCount_start, Nat.zero_mul]
    omega

theorem ReportsPaced.report (h : TimedReachable τ maxPackets payload x) (hp : ReportsPaced τ x)
    (hs : (clocked τ).timedStep x (t, .fire id) = .ok x')
    (hid : x.state.machine.sim.events.lookup id = some .ppsLog) : ReportsPaced τ x' := by
  obtain ⟨⟨last, hpaced, hlog⟩, hreports⟩ := hp
  have hx' : TimedReachable τ maxPackets payload x' := h.tail hs
  obtain ⟨⟨hnow, -, hruns⟩, n, hn, rfl⟩ := Clocked.timedStep_ok.mp hs
  have hn : step x.state (.fire id) = .ok n := hn
  obtain ⟨hsent, r, hr, hstatics, hcount⟩ := (reports_step h.untimed hn).2 id hid rfl
  have htick : x.state.tick .ppsLog = some (.event id) :=
    (tick_eq_some h.untimed (by simp)).mpr ⟨id, hid, rfl⟩
  have ht : t = x.due (.event id) := (hruns (.event id) rfl).1
  refine ⟨⟨t, ?_, fun a ha => ?_⟩, ?_⟩
  · have hcounts := h.untimed.transport.1.counts
    have hbase : n.machine.statics.packetSent + n.machine.statics.packetRetrans = n.sentCount := by
      rw [hstatics, hsent, sentCount, ← hcounts.wire, hcounts.sent]
      rfl
    rw [hbase]
    exact .now fun a ha => hx'.now_le_tick ha
  · rcases (reportTick_step (τ := τ) h.untimed hn).dated (tick_live .ppsLog) hs with
      ⟨hsame, -⟩ | ⟨_, -, -, -, -, hnext⟩
    · simp [reportCount, hr] at hsame
    · exact (hnext a ha).le
  · have hlast := hlog _ htick
    have hrate := hpaced.1
    intro r' hr'
    rw [hr, List.mem_append, List.mem_singleton] at hr'
    rcases hr' with hr' | rfl
    · exact hreports r' hr'
    · rw [hcount, Nat.sub_mul]
      simp only [sentCount] at hrate
      omega

theorem ReportsPaced.quiet (h : TimedReachable τ maxPackets payload x) (hp : ReportsPaced τ x)
    (hs : (clocked τ).timedStep x (t, i) = .ok x')
    (hno : ∀ id, x.state.machine.sim.events.lookup id = some .ppsLog → i ≠ .fire id) :
    ReportsPaced τ x' := by
  obtain ⟨⟨last, hpaced, hlog⟩, hreports⟩ := hp
  obtain ⟨-, n, hn, rfl⟩ := Clocked.timedStep_ok.mp hs
  have hn : step x.state i = .ok n := hn
  obtain ⟨hstatics, hsame⟩ := (reports_step h.untimed hn).1 hno
  refine ⟨⟨last, ?_, fun a ha => ?_⟩, ?_⟩
  · dsimp only
    rw [hstatics]
    exact hpaced.step (K := clocked τ) (tick_live .send) hs (sendTick_step h.untimed hn)
  · rcases (reportTick_step (τ := τ) h.untimed hn).dated (tick_live .ppsLog) hs with
      ⟨-, hitem⟩ | ⟨b, hb, hi, -⟩
    · obtain ⟨hold, hdate⟩ := hitem a ha
      exact hdate.trans_le (hlog a hold)
    · obtain ⟨id, hid, rfl⟩ := (tick_eq_some h.untimed (by simp)).mp hb
      exact absurd (runs_event.mp hi) (hno id hid)
  · dsimp only
    rw [hsame]
    exact hreports

theorem TimedReachable.reportsPaced (h : TimedReachable τ maxPackets payload x) :
    ReportsPaced τ x := by
  refine Runs.Reachable.invariant (P := ReportsPaced τ) h .start ?_
  rintro x ⟨t, i⟩ x' hr hp hs
  by_cases hrun : ∃ id, x.state.machine.sim.events.lookup id = some .ppsLog ∧ i = .fire id
  · obtain ⟨id, hid, rfl⟩ := hrun
    exact hp.report hr hs hid
  · exact hp.quiet hr hs fun id hid hi => hrun ⟨id, hid, hi⟩

/-- The reports come on the second, and none has more packets than a second has
intervals, and one. -/
theorem reports_paced (h : TimedReachable τ maxPackets payload x) :
    τ.startTime + x.state.machine.reports.length * reportPeriod ≤ x.now + reportPeriod ∧
    x.now ≤ τ.startTime + x.state.machine.reports.length * reportPeriod ∧
    ∀ r ∈ x.state.machine.reports,
      (r.packetSent + r.packetRetrans) * τ.interval ≤ reportPeriod + τ.interval := by
  obtain ⟨hpast, hdue⟩ := h.regular
  refine ⟨hpast, ?_, h.reportsPaced.reports⟩
  obtain ⟨id, hid⟩ := h.untimed.transport.1.report_scheduled
  have htick : x.state.tick .ppsLog = some (.event id) :=
    (tick_eq_some h.untimed (by simp)).mpr ⟨id, hid, rfl⟩
  calc x.now ≤ x.due (.event id) := h.now_le_tick htick
    _ = τ.startTime + x.state.reportCount * reportPeriod := hdue _ htick

theorem reports_paced_after_two : ∃ x,
    exec (clocked ⟨100000, 20000000, 1000000000⟩).timedStep
      (timedStart ⟨100000, 20000000, 1000000000⟩ 3 ⟨4, 0, none⟩)
      [(1000000000, .fire 0), (1000000000, .fire 1), (1000100000, .fire 4)] = .ok x ∧
    x.state.machine.reports.length = 1 ∧
    x.now ≤ 1000000000 + x.state.machine.reports.length * reportPeriod := by
  obtain ⟨x, hx, hlen⟩ : ∃ x,
      exec (clocked ⟨100000, 20000000, 1000000000⟩).timedStep
        (timedStart ⟨100000, 20000000, 1000000000⟩ 3 ⟨4, 0, none⟩)
        [(1000000000, .fire 0), (1000000000, .fire 1), (1000100000, .fire 4)] = .ok x ∧
      x.state.machine.reports.length = 1 := ⟨_, rfl, rfl⟩
  exact ⟨x, hx, hlen, (reports_paced ⟨_, hx⟩).2.1⟩

end Network

end ReliableEcho
