import ReliableEcho.Header
import ReliableEcho.Lib.Timed
import Mathlib.Data.Finset.Image

/-!
# The bulk sender of assignment 2

`MyApp` sends a packet when it starts and one every `tNext` after that, until
`m_nPackets` or `StopApplication`. `Application` calls `StartApplication` and
`StopApplication` once each, at the times set for them. `SendPacket` is the only
event it schedules, so a pending event is known by its identifier.

`tNext` is what `ScheduleTx` computes from the packet size and the data rate.
-/

namespace ReliableEcho

/-- The fields of `MyApp` without the `m_`, its pending events, and the sizes of
the packets it gave to its socket. -/
structure MyApp where
  packetSize : ℕ
  nPackets : ℕ
  sendEvent : Option ℕ
  running : Bool
  packetsSent : ℕ
  uid : ℕ
  events : Finset ℕ
  sent : List ℕ
  started : Bool
  stopped : Bool

namespace MyApp

open Runs (exec)

/-- The constructor and `Setup`. -/
def setup (packetSize nPackets : UInt32) : MyApp where
  packetSize := packetSize.toNat
  nPackets := nPackets.toNat
  sendEvent := none
  running := false
  packetsSent := 0
  uid := 0
  events := ∅
  sent := []
  started := false
  stopped := false

def scheduleTx (m : MyApp) : MyApp :=
  if m.running then
    { m with sendEvent := some m.uid, uid := m.uid + 1, events := insert m.uid m.events }
  else m

def sendPacket (m : MyApp) : MyApp :=
  let m := { m with sent := m.sent ++ [m.packetSize], packetsSent := u32 (m.packetsSent + 1) }
  if m.packetsSent < m.nPackets then m.scheduleTx else m

def startApplication (m : MyApp) : MyApp :=
  sendPacket { m with running := true, packetsSent := 0, started := true }

def stopApplication (m : MyApp) : MyApp :=
  let m := { m with running := false, stopped := true }
  match m.sendEvent with
  | none => m
  | some id => { m with events := m.events.erase id }

inductive Input
  | startApplication
  | stopApplication
  | fire (id : ℕ)
  deriving DecidableEq, Repr

inductive Fault
  | notEnabled
  deriving DecidableEq, Repr

def step (m : MyApp) : Input → Except Fault MyApp
  | .startApplication => if m.started then .error .notEnabled else .ok m.startApplication
  | .stopApplication =>
    if m.stopped then .error .notEnabled else .ok m.stopApplication
  | .fire id =>
    if id ∈ m.events then .ok (sendPacket { m with events := m.events.erase id })
    else .error .notEnabled

-- ---------------------------------------------------------------------------
-- The clock
-- ---------------------------------------------------------------------------

structure Times where
  startTime : ℕ
  stopTime : ℕ
  tNext : ℕ

inductive Item
  | start
  | stop
  | event (id : ℕ)
  deriving DecidableEq, Repr

def items (m : MyApp) : Finset Item :=
  (if m.started then ∅ else {.start}) ∪ (if m.stopped then ∅ else {.stop}) ∪ m.events.image .event

def Input.item : Input → Item
  | .startApplication => .start
  | .stopApplication => .stop
  | .fire id => .event id

def Item.precedes : Item → Item → Bool
  | .start, .start => false
  | .start, _ => true
  | .stop, .event _ => true
  | .stop, _ => false
  | .event id, .event id' => id < id'
  | .event _, _ => false

def clocked (τ : Times) : Clocked MyApp Input Fault Item where
  step := step
  live := items
  allowance _ _ := τ.tNext
  runs i := some i.item
  precedes := Item.precedes
  untimely := .notEnabled

def timedSetup (τ : Times) (packetSize nPackets : UInt32) : Timed MyApp Item where
  state := setup packetSize nPackets
  now := 0
  due
    | .start => τ.startTime
    | _ => τ.stopTime

abbrev TimedReachable (τ : Times) (packetSize nPackets : UInt32) (x : Timed MyApp Item) : Prop :=
  (clocked τ).Reachable (timedSetup τ packetSize nPackets) x

variable {m m' : MyApp} {i : Input} {id t : ℕ} {τ : Times} {packetSize nPackets : UInt32}
  {x x' : Timed MyApp Item} {is : List (ℕ × Input)}

@[simp] theorem start_mem_items : .start ∈ m.items ↔ m.started = false := by
  cases h : m.started <;> cases h' : m.stopped <;> simp [items, h, h']

@[simp] theorem stop_mem_items : .stop ∈ m.items ↔ m.stopped = false := by
  cases h : m.started <;> cases h' : m.stopped <;> simp [items, h, h']

@[simp] theorem event_mem_items : .event id ∈ m.items ↔ id ∈ m.events := by
  cases h : m.started <;> cases h' : m.stopped <;> simp [items, h, h']

-- ---------------------------------------------------------------------------
-- What each step does
-- ---------------------------------------------------------------------------

theorem step_startApplication :
    step m .startApplication = .ok m' ↔ m.started = false ∧ m.startApplication = m' := by
  cases h : m.started <;> simp [step, h]

theorem step_stopApplication :
    step m .stopApplication = .ok m' ↔ m.stopped = false ∧ m.stopApplication = m' := by
  cases h : m.stopped <;> simp [step, h]

theorem step_fire : step m (.fire id) = .ok m' ↔
    id ∈ m.events ∧ sendPacket { m with events := m.events.erase id } = m' := by
  by_cases h : id ∈ m.events <;> simp [step, h]

structure Waiting (m : MyApp) : Prop where
  started : m.started = false
  stopped : m.stopped = false
  none_sent : m.packetsSent = 0
  none_pending : m.events = ∅

/-- Between `StartApplication` and `StopApplication`: one packet is pending, unless all
of `m_nPackets` were sent. -/
structure Sending (m : MyApp) : Prop where
  started : m.started = true
  stopped : m.stopped = false
  running : m.running = true
  positive : 0 < m.packetsSent
  fresh : ∀ id ∈ m.events, id < m.uid
  current : ∀ id ∈ m.events, m.sendEvent = some id
  left : m.events.Nonempty ↔ m.packetsSent < m.nPackets

structure Ended (m : MyApp) : Prop where
  started : m.started = true
  stopped : m.stopped = true
  positive : 0 < m.packetsSent
  none_pending : m.events = ∅

structure Counts (packetSize nPackets : UInt32) (m : MyApp) : Prop where
  size : m.packetSize = packetSize.toNat
  limit : m.nPackets = nPackets.toNat
  sent : m.sent = List.replicate m.packetsSent m.packetSize
  within : m.packetsSent ≤ max 1 m.nPackets

theorem counts_setup : (setup packetSize nPackets).Counts packetSize nPackets := by
  constructor <;> simp [setup]

theorem waiting_setup : (setup packetSize nPackets).Waiting := by
  constructor <;> rfl

theorem Sending.erase_eq_empty (hm : m.Sending) (hid : id ∈ m.events) : m.events.erase id = ∅ := by
  refine Finset.eq_empty_of_forall_notMem fun id' hid' => ?_
  obtain ⟨hne, hmem⟩ := Finset.mem_erase.mp hid'
  exact hne (Option.some.inj ((hm.current id' hmem).symm.trans (hm.current id hid)))

theorem Sending.stopApplication (hm : m.Sending) :
    m.stopApplication = { m with running := false, stopped := true, events := ∅ } := by
  unfold MyApp.stopApplication
  cases he : m.sendEvent with
  | none =>
    have hnone : m.events = ∅ := Finset.eq_empty_of_forall_notMem fun id hid => by
      have := hm.current id hid
      rw [he] at this
      contradiction
    rw [hnone]
  | some id =>
    have hnone : m.events.erase id = ∅ := by
      by_cases hid : id ∈ m.events
      · exact hm.erase_eq_empty hid
      · rw [Finset.erase_eq_of_notMem hid]
        refine Finset.eq_empty_of_forall_notMem fun id' hid' => hid ?_
        rwa [← Option.some.inj ((hm.current id' hid').symm.trans he)]
    dsimp only
    rw [hnone]

theorem sendPacket_cases (hc : m.Counts packetSize nPackets) (hrun : m.running = true)
    (hnone : m.events = ∅) (hleft : m.packetsSent < max 1 m.nPackets) :
    (m.packetsSent + 1 < m.nPackets ∧ m.sendPacket = { m with
      sent := m.sent ++ [m.packetSize], packetsSent := m.packetsSent + 1
      sendEvent := some m.uid, uid := m.uid + 1, events := {m.uid} }) ∨
    (m.nPackets ≤ m.packetsSent + 1 ∧ m.sendPacket = { m with
      sent := m.sent ++ [m.packetSize], packetsSent := m.packetsSent + 1 }) := by
  have hlimit : m.nPackets < 2 ^ 32 := hc.limit.trans_lt (UInt32.toNat_lt _)
  have hcount : u32 (m.packetsSent + 1) = m.packetsSent + 1 := by
    rw [u32, Nat.mod_eq_of_lt]
    omega
  rcases Nat.lt_or_ge (m.packetsSent + 1) m.nPackets with h | h
  · exact .inl ⟨h, by simp [sendPacket, scheduleTx, hcount, h, hrun, hnone]⟩
  · exact .inr ⟨h, by simp [sendPacket, hcount, Nat.not_lt.mpr h]⟩

theorem sending_sendPacket (hc : m.Counts packetSize nPackets) (hstarted : m.started = true)
    (hstopped : m.stopped = false) (hrun : m.running = true) (hnone : m.events = ∅)
    (hleft : m.packetsSent < max 1 m.nPackets) :
    m.sendPacket.Counts packetSize nPackets ∧ m.sendPacket.Sending ∧
    m.sendPacket.packetsSent = m.packetsSent + 1 ∧ ∀ id ∈ m.sendPacket.events, id = m.uid := by
  have hsent : m.sent ++ [m.packetSize] = List.replicate (m.packetsSent + 1) m.packetSize := by
    rw [hc.sent, List.replicate_succ']
  rcases sendPacket_cases hc hrun hnone hleft with ⟨hlt, heq⟩ | ⟨hge, heq⟩ <;> rw [heq]
  · refine ⟨⟨hc.size, hc.limit, hsent, ?_⟩, ⟨hstarted, hstopped, hrun, Nat.succ_pos _, ?_, ?_, ?_⟩,
      rfl, ?_⟩ <;> simp <;> omega
  · refine ⟨⟨hc.size, hc.limit, hsent, ?_⟩, ⟨hstarted, hstopped, hrun, Nat.succ_pos _, ?_, ?_, ?_⟩,
      rfl, ?_⟩ <;> simp [hnone] <;> omega

-- ---------------------------------------------------------------------------
-- When it sends
-- ---------------------------------------------------------------------------

/-- The phases of a run, with the dates of what is to come. -/
inductive Timeline (τ : Times) (x : Timed MyApp Item) : Prop
  | waiting (phase : x.state.Waiting) (start : x.due .start = τ.startTime)
      (stop : x.due .stop = τ.stopTime)
  | sending (phase : x.state.Sending) (stop : x.due .stop = τ.stopTime)
      (next : ∀ id ∈ x.state.events,
        x.due (.event id) = τ.startTime + x.state.packetsSent * τ.tNext)
      (last : τ.startTime + x.state.packetsSent * τ.tNext < τ.stopTime + τ.tNext)
  | ended (phase : x.state.Ended)
      (last : τ.startTime + x.state.packetsSent * τ.tNext < τ.stopTime + τ.tNext)
      (rest : x.state.nPackets ≤ x.state.packetsSent ∨
        τ.stopTime ≤ τ.startTime + x.state.packetsSent * τ.tNext)

theorem Timeline.sent (hm : m.Sending) (hnew : ∀ id ∈ m.events, Item.event id ∉ x.state.items)
    (hlive : Item.stop ∈ x.state.items) (hstop : x.due .stop = τ.stopTime)
    (htime : t + τ.tNext = τ.startTime + m.packetsSent * τ.tNext) (hbefore : t < τ.stopTime) :
    Timeline τ ⟨m, t, (clocked τ).redate x.state m t x.due⟩ := by
  refine .sending hm ?_ (fun id hid => ?_) (by dsimp only; omega)
  · exact (Clocked.redate_old fun _ => hlive).trans hstop
  · exact (Clocked.redate_new (event_mem_items.mpr hid) (hnew id hid)).trans htime

theorem Timeline.step_waiting (phase : x.state.Waiting) (start : x.due .start = τ.startTime)
    (stop : x.due .stop = τ.stopTime) (hc : x.state.Counts packetSize nPackets)
    (horder : τ.startTime < τ.stopTime) (hs : (clocked τ).timedStep x (t, i) = .ok x') :
    x'.state.Counts packetSize nPackets ∧ Timeline τ x' := by
  obtain ⟨⟨-, hpast, hruns⟩, m, hstep, rfl⟩ := Clocked.timedStep_ok.mp hs
  have hstep : step x.state i = .ok m := hstep
  have hdate := (hruns i.item rfl).1
  cases i with
  | startApplication =>
    obtain ⟨-, rfl⟩ := step_startApplication.mp hstep
    have hsent : x.state.sent = List.replicate 0 x.state.packetSize := by
      rw [hc.sent, phase.none_sent]
    obtain ⟨hc', hm, hk, -⟩ := sending_sendPacket
      (m := { x.state with running := true, packetsSent := 0, started := true })
      ⟨hc.size, hc.limit, hsent, Nat.zero_le _⟩ rfl phase.stopped rfl phase.none_pending (by simp)
    have ht : t = τ.startTime := hdate.trans start
    refine ⟨hc', .sent hm (fun id _ => by simp [phase.none_pending])
      (stop_mem_items.mpr phase.stopped) stop ?_ (by omega)⟩
    rw [startApplication, hk, ht, Nat.zero_add, Nat.one_mul]
  | stopApplication =>
    -- the start is still pending, and comes first
    have hle : t ≤ x.due .start := hpast .start (start_mem_items.mpr phase.started)
    have ht : t = x.due .stop := hdate
    omega
  | fire id =>
    have hid := (step_fire.mp hstep).1
    simp [phase.none_pending] at hid

theorem Timeline.step_sending (phase : x.state.Sending) (stop : x.due .stop = τ.stopTime)
    (next : ∀ id ∈ x.state.events,
      x.due (.event id) = τ.startTime + x.state.packetsSent * τ.tNext)
    (last : τ.startTime + x.state.packetsSent * τ.tNext < τ.stopTime + τ.tNext)
    (hc : x.state.Counts packetSize nPackets) (hs : (clocked τ).timedStep x (t, i) = .ok x') :
    x'.state.Counts packetSize nPackets ∧ Timeline τ x' := by
  obtain ⟨⟨-, hpast, hruns⟩, m, hstep, rfl⟩ := Clocked.timedStep_ok.mp hs
  have hstep : step x.state i = .ok m := hstep
  obtain ⟨hdate, hfirst⟩ := hruns i.item rfl
  have hstop : Item.stop ∈ x.state.items := stop_mem_items.mpr phase.stopped
  cases i with
  | startApplication =>
    have := (step_startApplication.mp hstep).1.symm.trans phase.started
    contradiction
  | stopApplication =>
    obtain ⟨-, rfl⟩ := step_stopApplication.mp hstep
    have ht : t = τ.stopTime := hdate.trans stop
    have hrest : x.state.nPackets ≤ x.state.packetsSent ∨
        τ.stopTime ≤ τ.startTime + x.state.packetsSent * τ.tNext := by
      rcases Nat.lt_or_ge x.state.packetsSent x.state.nPackets with hlt | hge
      · obtain ⟨id, hid⟩ := phase.left.mpr hlt
        have hle := hpast (.event id) (event_mem_items.mpr hid)
        exact .inr (ht.symm.trans_le (hle.trans_eq (next id hid)))
      · exact .inl hge
    rw [phase.stopApplication]
    exact ⟨⟨hc.size, hc.limit, hc.sent, hc.within⟩,
      .ended ⟨phase.started, rfl, phase.positive, rfl⟩ last hrest⟩
  | fire id =>
    obtain ⟨hid, rfl⟩ := step_fire.mp hstep
    have ht : t = τ.startTime + x.state.packetsSent * τ.tNext := hdate.trans (next id hid)
    -- a stop at the same time would have come first
    have hbefore : t < τ.stopTime := by
      refine Nat.lt_of_le_of_ne ((hpast .stop hstop).trans_eq stop) fun heq => ?_
      have := hfirst .stop hstop (stop.trans heq.symm)
      contradiction
    obtain ⟨hc', hm, hk, huid⟩ := sending_sendPacket
      (m := { x.state with events := x.state.events.erase id })
      ⟨hc.size, hc.limit, hc.sent, hc.within⟩ phase.started phase.stopped phase.running
      (phase.erase_eq_empty hid)
      (Nat.lt_of_lt_of_le (phase.left.mp ⟨id, hid⟩) (Nat.le_max_right _ _))
    refine ⟨hc', .sent hm (fun id' hid' hold => ?_) hstop stop ?_ hbefore⟩
    · rw [huid id' hid', event_mem_items] at hold
      exact Nat.lt_irrefl _ (phase.fresh _ hold)
    · rw [hk, ht, Nat.succ_mul, Nat.add_assoc]

theorem Ended.no_step (hm : m.Ended) : step m i ≠ .ok m' := by
  intro hstep
  cases i with
  | startApplication =>
    have := (step_startApplication.mp hstep).1.symm.trans hm.started
    contradiction
  | stopApplication =>
    have := (step_stopApplication.mp hstep).1.symm.trans hm.stopped
    contradiction
  | fire id =>
    have hid := (step_fire.mp hstep).1
    simp [hm.none_pending] at hid

theorem TimedReachable.timeline (h : TimedReachable τ packetSize nPackets x)
    (horder : τ.startTime < τ.stopTime) :
    x.state.Counts packetSize nPackets ∧ Timeline τ x := by
  refine Runs.Reachable.invariant
    (P := fun x => x.state.Counts packetSize nPackets ∧ Timeline τ x) h
    ⟨counts_setup, .waiting waiting_setup rfl rfl⟩ ?_
  rintro x ⟨t, i⟩ x' - ⟨hc, ht⟩ hs
  cases ht with
  | waiting phase start stop => exact Timeline.step_waiting phase start stop hc horder hs
  | sending phase stop next last => exact Timeline.step_sending phase stop next last hc hs
  | ended phase =>
    obtain ⟨-, m, hstep, -⟩ := Clocked.timedStep_ok.mp hs
    exact absurd hstep phase.no_step

theorem sent_sendPacket : m.sendPacket.sent = m.sent ++ [m.packetSize] := by
  simp only [sendPacket, scheduleTx]
  split
  · split <;> rfl
  · rfl

theorem sent_stopApplication : m.stopApplication.sent = m.sent := by
  unfold stopApplication
  cases m.sendEvent <;> rfl

theorem TimedReachable.sent_date (h : TimedReachable τ packetSize nPackets x)
    (horder : τ.startTime < τ.stopTime) (hs : (clocked τ).timedStep x (t, i) = .ok x') :
    x'.state.sent = x.state.sent ∨ ∃ size, x'.state.sent = x.state.sent ++ [size] ∧
      t = τ.startTime + x.state.sent.length * τ.tNext := by
  obtain ⟨hc, ht⟩ := h.timeline horder
  have hlength : x.state.sent.length = x.state.packetsSent := by
    rw [hc.sent, List.length_replicate]
  obtain ⟨⟨-, -, hruns⟩, m, hstep, rfl⟩ := Clocked.timedStep_ok.mp hs
  have hstep : step x.state i = .ok m := hstep
  have hdate : t = x.due i.item := (hruns i.item rfl).1
  rw [hlength]
  cases i with
  | startApplication =>
    obtain ⟨hwaits, rfl⟩ := step_startApplication.mp hstep
    refine .inr ⟨_, sent_sendPacket, ?_⟩
    cases ht with
    | waiting phase start =>
      rw [hdate, phase.none_sent, Nat.zero_mul]
      exact start
    | sending phase => exact absurd (hwaits.symm.trans phase.started) (by simp)
    | ended phase => exact absurd (hwaits.symm.trans phase.started) (by simp)
  | stopApplication =>
    obtain ⟨-, rfl⟩ := step_stopApplication.mp hstep
    exact .inl sent_stopApplication
  | fire id =>
    obtain ⟨hid, rfl⟩ := step_fire.mp hstep
    refine .inr ⟨_, sent_sendPacket, ?_⟩
    cases ht with
    | waiting phase => simp [phase.none_pending] at hid
    | sending phase stop next => exact hdate.trans (next id hid)
    | ended phase => simp [phase.none_pending] at hid

/-- The packets of a run, with the dates of sending. -/
def transmissions (τ : Times) (x : Timed MyApp Item) (is : List (ℕ × Input)) : List (ℕ × ℕ) :=
  (clocked τ).outputs sent x is

theorem Timeline.before_stop (ht : Timeline τ x) {k : ℕ} (hk : k < x.state.packetsSent) :
    τ.startTime + k * τ.tNext < τ.stopTime := by
  have hmul : (k + 1) * τ.tNext ≤ x.state.packetsSent * τ.tNext := Nat.mul_le_mul_right _ hk
  rw [Nat.succ_mul] at hmul
  cases ht with
  | waiting phase =>
    rw [phase.none_sent] at hk
    exact absurd hk (Nat.not_lt_zero k)
  | sending _ _ _ last => omega
  | ended _ last => omega

/-- How many `tNext` begin from the start to the stop. -/
def Times.slots (τ : Times) : ℕ := (τ.stopTime - τ.startTime - 1) / τ.tNext + 1

theorem lt_slots (horder : τ.startTime < τ.stopTime) (hpos : 0 < τ.tNext) {k : ℕ} :
    k < τ.slots ↔ τ.startTime + k * τ.tNext < τ.stopTime := by
  rw [Times.slots, Nat.lt_succ_iff, Nat.le_div_iff_mul_le hpos]
  omega

theorem Timeline.packetsSent_stopped (ht : Timeline τ x) (horder : τ.startTime < τ.stopTime)
    (hpos : 0 < τ.tNext) (hstopped : x.state.stopped = true)
    (hwithin : x.state.packetsSent ≤ max 1 x.state.nPackets) :
    x.state.packetsSent = min (max 1 x.state.nPackets) τ.slots := by
  have hslots : x.state.packetsSent ≤ τ.slots := by
    by_contra hlt
    exact Nat.lt_irrefl _ ((lt_slots horder hpos).mpr (ht.before_stop (Nat.lt_of_not_le hlt)))
  cases ht with
  | waiting phase => exact absurd (phase.stopped.symm.trans hstopped) (by simp)
  | sending phase => exact absurd (phase.stopped.symm.trans hstopped) (by simp)
  | ended phase last rest =>
    have hpositive := phase.positive
    rcases rest with hall | htime
    · omega
    · have hfull := (lt_slots horder hpos (k := x.state.packetsSent)).not.mpr (Nat.not_lt.mpr htime)
      omega

/-- Packet `k` is sent `k` times `tNext` after the start, if that is before the stop
and `m_nPackets` are not sent; the first is sent even if that is 0. -/
theorem bulk_sent (horder : τ.startTime < τ.stopTime) (hpos : 0 < τ.tNext)
    (hrun : exec (clocked τ).timedStep (timedSetup τ packetSize nPackets) is = .ok x) :
    ∃ n ≤ max 1 nPackets.toNat,
      transmissions τ (timedSetup τ packetSize nPackets) is =
        (List.range n).map (fun k => (τ.startTime + k * τ.tNext, packetSize.toNat)) ∧
      (∀ k < n, τ.startTime + k * τ.tNext < τ.stopTime) ∧
      (x.state.stopped = true → n = min (max 1 nPackets.toNat) τ.slots) := by
  have h : TimedReachable τ packetSize nPackets x := ⟨is, hrun⟩
  obtain ⟨hc, ht⟩ := h.timeline horder
  obtain ⟨new, hnew, heq⟩ := Clocked.outputs_eq sent (fun k => τ.startTime + k * τ.tNext)
    (fun _ _ _ _ hx hs => TimedReachable.sent_date hx horder hs) .refl hrun
  have hnew : x.state.sent = new := hnew
  rw [hc.sent, hc.size] at hnew
  refine ⟨x.state.packetsSent, hc.limit ▸ hc.within, heq.trans ?_, fun _ => ht.before_stop,
    fun hstopped => ?_⟩
  · rw [← hnew]
    exact List.ext_getElem (by simp) (by simp [timedSetup, setup])
  · rw [← hc.limit]
    exact ht.packetsSent_stopped horder hpos hstopped hc.within

theorem bulk_sent_after_three :
    transmissions ⟨1000, 3000, 800⟩ (timedSetup ⟨1000, 3000, 800⟩ 1040 4294967295)
      [(1000, .startApplication), (1800, .fire 0), (2600, .fire 1), (3000, .stopApplication)] =
      [(1000, 1040), (1800, 1040), (2600, 1040)] := by
  obtain ⟨x, hx, hstopped⟩ : ∃ x,
      exec (clocked ⟨1000, 3000, 800⟩).timedStep (timedSetup ⟨1000, 3000, 800⟩ 1040 4294967295)
        [(1000, .startApplication), (1800, .fire 0), (2600, .fire 1), (3000, .stopApplication)] =
        .ok x ∧ x.state.stopped = true := ⟨_, rfl, rfl⟩
  obtain ⟨n, -, heq, -, hn⟩ := bulk_sent (by decide) (by decide) hx
  rw [heq, hn hstopped]
  rfl

end MyApp

end ReliableEcho
