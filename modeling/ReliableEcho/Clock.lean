import ReliableEcho.Lib.Timed
import ReliableEcho.Bounds
import ReliableEcho.History

/-!
# The network under the simulator's clock

`Simulator::Schedule` dates an event with the delay it is given, and the
simulator runs the pending events in the order of their dates. Here the
network runs that way: `Send` comes every `m_interval`, a timeout `m_rto` after
the transmission it belongs to, `PpsLog` once a second. The path is known by
one number only, the longest time a packet and its echo may take.
-/

namespace ReliableEcho

/-- `m_rto`, which the constructor sets to `MilliSeconds(80)`, in nanoseconds. -/
def rto : ℕ := 80000000

/-- The `Seconds(1.0)` between two calls of `PpsLog`. -/
def reportPeriod : ℕ := 1000000000

/-- `m_interval`, the longest round trip of the path, and when the client starts. -/
structure Timing where
  interval : ℕ
  latency : ℕ
  startTime : ℕ

/-- The delay each event is scheduled with after `StartApplication`. -/
def Timing.delay (τ : Timing) : Event → ℕ
  | .send => τ.interval
  | .handleTimeout _ => rto
  | .ppsLog => reportPeriod

/-- What the clock waits for: an event to run, a datagram to arrive or be lost. -/
inductive Item
  | event (id : EventId)
  | datagram (serial : ℕ)
  deriving DecidableEq, Repr

namespace Simulator

variable {sim sim' : Simulator} {ev : Event} {P : Event → Prop}

structure Adds (P : Event → Prop) (sim sim' : Simulator) : Prop where
  uid : sim.uid ≤ sim'.uid
  old : ∀ a < sim.uid, sim'.events.lookup a = sim.events.lookup a
  new : ∀ a ev, sim.uid ≤ a → sim'.events.lookup a = some ev → P ev

theorem Adds.refl (hf : sim.Fresh) : Adds P sim sim where
  uid := Nat.le_refl _
  old _ _ := rfl
  new a ev ha hev := by
    rw [hf a ha] at hev
    cases hev

theorem Adds.schedule (h : Adds P sim sim') (hev : P ev) : Adds P sim (sim'.schedule ev) where
  uid := Nat.le_succ_of_le h.uid
  old a ha := by
    rw [lookup_schedule, if_neg (Nat.ne_of_lt (Nat.lt_of_lt_of_le ha h.uid)), h.old a ha]
  new a ev' ha ha' := by
    rw [lookup_schedule] at ha'
    split at ha'
    · exact Option.some.inj ha' ▸ hev
    · exact h.new a ev' ha ha'

end Simulator

namespace Machine

variable {m m' : Machine} {i : Input} {id a : ℕ} {ev : Event} {maxPackets : UInt32}
  {payload : Payload}

-- ---------------------------------------------------------------------------
-- What a step schedules
-- ---------------------------------------------------------------------------

theorem adds_send (hf : m.sim.Fresh) (hs : m.send = .ok m') :
    Simulator.Adds (· ≠ .ppsLog) m.sim m'.sim := by
  have adds : ∀ {c : Client} {h : RdtHeader} {p : Buffer}
      {line : ℕ → EventId → SelectiveRepeat.Line EventId},
      Simulator.Adds (· ≠ .ppsLog) m.sim
        (Machine.transmitted { m with client := c } h p line).sim := by
    intro c h p line
    have hto : Simulator.Adds (· ≠ .ppsLog) m.sim
        (m.sim.schedule (.handleTimeout h.getSeq)) := (Simulator.Adds.refl hf).schedule (by simp)
    rcases transmitted_cases with he | he <;> rw [he]
    · exact hto
    · exact hto.schedule (by simp)
  cases send_cases hs with
  | waits => exact (Simulator.Adds.refl hf).schedule (by simp)
  | fresh => exact adds
  | again => exact adds
  | skips => exact (Simulator.Adds.refl hf).schedule (by simp)

/-- What a step does to the pending events: it removes some, timeouts apart only
the one it runs, and those it schedules are new. -/
structure Schedules (m : Machine) (i : Input) (m' : Machine) : Prop where
  uid : m.sim.uid ≤ m'.sim.uid
  old : ∀ a ev, a < m.sim.uid → m'.sim.events.lookup a = some ev →
    m.sim.events.lookup a = some ev ∧ i ≠ .fire a
  others : ∀ a ev, (∀ s, ev ≠ .handleTimeout s) → i ≠ .fire a →
    m.sim.events.lookup a = some ev → m'.sim.events.lookup a = some ev
  new : ∀ a ev, m.sim.uid ≤ a → m'.sim.events.lookup a = some ev → ∃ id, i = .fire id ∧
    ((m.sim.events.lookup id = some .send ∧ ev ≠ .ppsLog) ∨
      (m.sim.events.lookup id = some .ppsLog ∧ ev = .ppsLog))

theorem Schedules.of_adds {P : Event → Prop} (hf : m.sim.Fresh)
    (hid : m.sim.events.lookup id = some ev) (h : Simulator.Adds P (m.sim.cancel id) m'.sim)
    (hP : ∀ ev', P ev' → ev = .send ∧ ev' ≠ .ppsLog ∨ ev = .ppsLog ∧ ev' = .ppsLog) :
    Schedules m (.fire id) m' where
  uid := h.uid
  old a ev' ha hev := by
    rw [h.old a ha] at hev
    obtain ⟨hne, hev⟩ := Simulator.lookup_of_cancel hev
    exact ⟨hev, fun he => hne (Input.fire.inj he).symm⟩
  others a ev' _ hne hev := by
    have ha : a < m.sim.uid := by
      by_contra hge
      rw [hf a (Nat.le_of_not_lt hge)] at hev
      cases hev
    rw [h.old a ha, Simulator.lookup_cancel, if_neg fun he => hne (congrArg _ he.symm), hev]
  new a ev' ha hev := by
    refine ⟨id, rfl, ?_⟩
    rw [hid]
    simpa using hP ev' (h.new a ev' ha hev)

theorem Schedules.of_recovers (hf : m.sim.Fresh) (hr : Recovers m m')
    (hrun : ∀ a, i = .fire a → ∃ s, m.sim.events.lookup a = some (.handleTimeout s) ∧
      m'.sim.events.lookup a = none) : Schedules m i m' where
  uid := hr.uid.ge
  old a ev _ hev := by
    refine ⟨hr.events a ev hev, fun hi => ?_⟩
    obtain ⟨-, -, hnone⟩ := hrun a hi
    rw [hnone] at hev
    cases hev
  others a ev hev _ ha := hr.others a ev hev ha
  new a ev ha hev := by
    have hold := hr.events a ev hev
    rw [hf a ha] at hold
    cases hold

theorem schedules_step (hb : m.Budget) (hs : step m i = .ok m') : Schedules m i m' := by
  have hf := hb.fresh
  cases step_cases hs with
  | send _ hid hs => exact .of_adds hf hid (adds_send hf.cancel hs) fun ev hev => .inl ⟨rfl, hev⟩
  | handleTimeout id seq hid hs =>
    refine .of_recovers hf (recovers_timeout hid hs) fun a ha => ?_
    cases ha
    refine ⟨seq, hid, ?_⟩
    cases hev : m'.sim.events.lookup id with
    | none => rfl
    | some ev =>
      have hgone := (recovers_handleTimeout hs).events id ev hev
      simp at hgone
  | ppsLog _ hid =>
    exact .of_adds (P := (· = .ppsLog)) hf hid ((Simulator.Adds.refl hf.cancel).schedule rfl)
      fun ev hev => .inr ⟨rfl, hev⟩
  | read _ _ hs => exact .of_recovers hf (recovers_readPacket hb.owned hs) fun a ha => by cases ha

theorem Reachable.report_scheduled (h : Reachable maxPackets payload m) :
    ∃ id, m.sim.events.lookup id = some .ppsLog := by
  refine h.invariant (P := fun m => ∃ id, m.sim.events.lookup id = some .ppsLog)
    ⟨0, by simp [lookup_start]⟩ fun m i m' hr ⟨id, hid⟩ hs => ?_
  by_cases hi : i = .fire id
  · subst hi
    simp only [step, fire, hid] at hs
    cases hs
    exact ⟨m.sim.uid, by simp⟩
  · exact ⟨id, (schedules_step (Reachable.budget hr) hs).others id _ (by simp) hi hid⟩

end Machine

namespace Network

variable {n n' : Network} {i : Input} {id k t : ℕ} {τ : Timing} {x x' : Timed Network Item}
  {maxPackets : UInt32} {payload : Payload}

-- ---------------------------------------------------------------------------
-- The clock
-- ---------------------------------------------------------------------------

def items (n : Network) : Finset Item :=
  n.machine.sim.events.keys.image .event ∪
    ((n.toClient ++ n.toServer).map fun d => .datagram d.serial).toFinset

/-- The simulator runs events with the same date in the order they were
scheduled. -/
def clocked (τ : Timing) : Clocked Network Input Fault Item where
  step := step
  live := items
  allowance n
    | .event id => (n.machine.sim.events.lookup id).elim 0 τ.delay
    | .datagram _ => τ.latency
  runs
    | .fire id => some (.event id)
    | _ => none
  precedes
    | .event a, .event b => a < b
    | _, _ => false
  untimely := .notEnabled

/-- `StartApplication` schedules its two events with no delay. -/
def timedStart (τ : Timing) (maxPackets : UInt32) (payload : Payload) : Timed Network Item :=
  ⟨start maxPackets payload, τ.startTime, fun _ => τ.startTime⟩

abbrev TimedReachable (τ : Timing) (maxPackets : UInt32) (payload : Payload)
    (x : Timed Network Item) : Prop :=
  (clocked τ).Reachable (timedStart τ maxPackets payload) x

theorem runs_event : (clocked τ).runs i = some (.event id) ↔ i = .fire id := by
  cases i <;> simp [clocked]

theorem mem_items_event : .event id ∈ n.items ↔ ∃ ev, n.machine.sim.events.lookup id = some ev := by
  simp [items, Finmap.mem_keys, Finmap.mem_iff]

theorem mem_items_datagram :
    .datagram k ∈ n.items ↔ ∃ d ∈ n.toClient ++ n.toServer, d.serial = k := by
  simp [items, or_and_right, exists_or]

theorem TimedReachable.untimed (h : TimedReachable τ maxPackets payload x) :
    Reachable maxPackets payload x.state :=
  Clocked.Reachable.untimed h

theorem TimedReachable.append {is : List (ℕ × Input)} (h : TimedReachable τ maxPackets payload x)
    (hrun : Runs.exec (clocked τ).timedStep x is = .ok x') : TimedReachable τ maxPackets payload x' :=
  Runs.Reachable.append h hrun

theorem TimedReachable.punctual (h : TimedReachable τ maxPackets payload x) :
    (clocked τ).Punctual x :=
  Clocked.Reachable.punctual h fun _ _ => Nat.le_refl _

-- ---------------------------------------------------------------------------
-- New items
-- ---------------------------------------------------------------------------

theorem machine_input (ht : n.Transport) (hs : step n i = .ok n') :
    (n'.machine = n.machine ∧ ∀ id, i ≠ .fire id) ∨
    ∃ l, Machine.step n.machine l = .ok n'.machine ∧ ∀ id, l = .fire id ↔ i = .fire id := by
  cases step_cases hs with
  | fire id _ hm => exact .inr ⟨.fire id, hm, fun id' => by simp⟩
  | serve => exact .inl ⟨rfl, by simp⟩
  | deliver d _ _ hd hm =>
    have hw : d.packet ∈ n.machine.wire :=
      List.mem_of_getElem? (carried_of_mem ht (.inr (.inl (by simp [hd]))))
    exact .inr ⟨.read d.packet, (if_pos hw).trans (Machine.handleRead_singleton.mpr hm),
      by simp⟩
  | dropToServer => exact .inl ⟨rfl, by simp⟩
  | dropToClient => exact .inl ⟨rfl, by simp⟩

theorem event_new (h : Reachable maxPackets payload n) (hs : step n i = .ok n')
    (hnew : .event id ∈ n'.items) (hold : .event id ∉ n.items) : n.machine.sim.uid ≤ id := by
  obtain ⟨hm, ht⟩ := h.transport
  rw [mem_items_event] at hnew hold
  obtain ⟨ev, hev⟩ := hnew
  by_contra hlt
  rcases machine_input ht hs with ⟨he, -⟩ | ⟨l, hl, -⟩
  · exact hold ⟨ev, he ▸ hev⟩
  · exact hold ⟨ev, ((Machine.schedules_step hm.budget hl).old id ev (by omega) hev).1⟩

theorem datagram_new (hs : step n i = .ok n') (hnew : .datagram k ∈ n'.items)
    (hold : .datagram k ∉ n.items) : k = n.machine.wire.length := by
  rw [mem_items_datagram] at hnew hold
  obtain ⟨d, hd, rfl⟩ := hnew
  have hold : d ∉ n.toClient ++ n.toServer := fun h => hold ⟨d, h, rfl⟩
  cases step_cases hs with
  | fire _ _ hm =>
    rcases Machine.fire_wire hm with hw | ⟨packet, hw⟩
    · rw [hw, datagrams_self] at hd
      exact absurd (by simpa using hd) hold
    · rw [hw, datagrams_snoc] at hd
      simp only [List.mem_append, List.mem_singleton] at hd hold
      grind
  | serve _ _ hd' =>
    simp only [List.mem_append, hd', List.mem_cons, List.not_mem_nil] at hd hold
    grind
  | deliver _ _ _ hd' =>
    simp only [List.mem_append, hd', List.mem_cons] at hd hold
    grind
  | dropToServer k =>
    have := List.eraseIdx_subset (l := n.toServer) (k := k) (a := d)
    simp only [List.mem_append] at hd hold
    grind
  | dropToClient k =>
    have := List.eraseIdx_subset (l := n.toClient) (k := k) (a := d)
    simp only [List.mem_append] at hd hold
    grind

end Network

end ReliableEcho
