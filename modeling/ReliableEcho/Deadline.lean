import ReliableEcho.Alarms
import ReliableEcho.Conservation
import ReliableEcho.Pacing
import ReliableEcho.Resend
import ReliableEcho.SelectiveRepeat.Deadline

/-!
# When the client resolves a packet

On a path whose round trip is shorter than `m_rto` the client is honest: no
echo of a packet comes in while its retransmission waits. So the retransmission
queue is short, and every packet is echoed or given up in bounded time after
the date of its first timeout.
-/

namespace ReliableEcho

open SelectiveRepeat (Line Copy Sender Step Attended Keeps sends echoes losses lost retransmitted)
open Runs (exec)

namespace Machine

variable {m m' : Machine} {id s : ℕ} {maxPackets : UInt32} {payload : Payload}

-- ---------------------------------------------------------------------------
-- What the sender sees of an event
-- ---------------------------------------------------------------------------

/-- `Send` serves the queue, or has nothing to serve. -/
theorem Reachable.send_moves (h : Reachable maxPackets payload m)
    (hid : m.sim.events.lookup id = some .send) (hs : m.fire id = .ok m')
    (hseq : m'.client.seqNum ≤ 65535) :
    (m'.view = m.view ∧ m'.log = m.log ∧ m.view.pending = []) ∨
    ∃ lines, Step 10 m.view lines m'.view ∧ m'.log = m.log ++ lines ∧ losses lines = [] ∧
      echoes lines = [] := by
  have hstep : step m (.fire id) = .ok m' := hs
  have hfollows := (h.simulates hstep hseq).follows
  have hsend : send { m with sim := m.sim.cancel id } = .ok m' := by
    simpa [fire, hid] using hs
  have moves : ∀ line : Line EventId, m'.log = m.log ++ [line] → losses [line] = [] →
      echoes [line] = [] → ∃ lines, Step 10 m.view lines m'.view ∧ m'.log = m.log ++ lines ∧
        losses lines = [] ∧ echoes lines = [] := by
    intro line hl hnone hsilent
    rcases hfollows with ⟨-, hsame⟩ | ⟨lines, hstep, hl'⟩
    · rw [hsame] at hl
      simp at hl
    · obtain rfl := List.append_cancel_left (hl'.symm.trans hl)
      exact ⟨_, hstep, hl', hnone, hsilent⟩
  cases send_cases hsend with
  | waits hr => exact .inl ⟨rfl, rfl, Client.pending_idle hr⟩
  | fresh => exact .inr (moves _ log_transmitted rfl rfl)
  | again => exact .inr (moves _ log_transmitted rfl rfl)
  | skips hr =>
    rcases hfollows with ⟨hview, -⟩ | ⟨lines, hstep, hl⟩
    · -- the entry is used up
      have hr : m.client.retransmit = true := hr
      have hqueue := (h.laws (h.seqNum_mono hstep |>.trans hseq)).1.faithful.queue
      have htake := (Client.takeSkipped_active hqueue hr).1
      have hpending := congrArg Sender.pending hview
      have hlength := congrArg List.length
        (htake.symm.trans (hpending.trans (Client.pending_active hr)))
      rw [List.length_cons] at hlength
      omega
    · obtain rfl : lines = [] := List.append_cancel_left (hl.symm.trans (List.append_nil _).symm)
      exact .inr ⟨_, hstep, hl, rfl, rfl⟩

theorem Reachable.timeout_moves (h : Reachable maxPackets payload m)
    (hid : m.sim.events.lookup id = some (.handleTimeout s)) (hs : m.fire id = .ok m')
    (hseq : m'.client.seqNum ≤ 65535) : ∃ cause,
      Step 10 m.view [.timeout id s, .packetLoss cause s] m'.view ∧
      m'.log = m.log ++ [.timeout id s, .packetLoss cause s] := by
  have hstep : step m (.fire id) = .ok m' := hs
  obtain ⟨cause, hl⟩ : ∃ cause, m'.log = m.log ++ [.timeout id s, .packetLoss cause s] := by
    rcases fire_losses hs with ⟨hno, -⟩ | ⟨s', hid', hl⟩
    · exact absurd hid (hno s)
    · rw [hid] at hid'
      cases hid'
      exact ⟨_, hl⟩
  rcases (h.simulates hstep hseq).follows with ⟨-, hsame⟩ | ⟨lines, hstep, hl'⟩
  · rw [hsame] at hl
    simp at hl
  · rw [hl] at hl'
    rw [← List.append_cancel_left hl'] at hstep
    exact ⟨cause, hstep, hl⟩

end Machine

namespace Network

variable {n n' : Network} {i : Input} {id s t : ℕ} {τ : Timing} {x x' : Timed Network Item}
  {maxPackets : UInt32} {payload : Payload}

-- ---------------------------------------------------------------------------
-- Honesty
-- ---------------------------------------------------------------------------

section
variable (h : TimedReachable τ maxPackets payload x) (hlat : τ.latency < rto)
  (hseq : x.state.machine.client.seqNum ≤ 65535)
include h hlat hseq

theorem TimedReachable.honest : x.state.machine.view.Honest := by
  intro s hpending hnew hreceived
  obtain ⟨hr, -⟩ := h.untimed.transport
  obtain ⟨hi, as, hp, hlog⟩ := hr.refines hseq
  obtain ⟨-, hl⟩ := hr.laws hseq
  obtain ⟨q, -, -, he, hretried⟩ := hl.queued
  have hj := h.justified hlat hseq
  obtain ⟨cause, hcause, -⟩ := SelectiveRepeat.cause_of_lost (hl.counted.queued s hpending hnew)
  obtain ⟨d, hd, t, hfirst⟩ := (hj cause s hcause).1
  rcases SelectiveRepeat.echoed_or_givenUp hp s hreceived with hecho | hgave
  · rw [← hlog] at hecho
    obtain ⟨d', hd', c, t', hcopy⟩ := (h.untimed.history hseq).processed.exists_mem hecho
    -- the packet has one copy only
    obtain ⟨t₁, honce, -⟩ := hl.copies.once s (hl.ok.pending_lt s hpending) hnew
    have hone : ∀ {c t}, (c, s, t) ∈ sends x.state.machine.log → (c, s, t) = (.first, s, t₁) := by
      intro c t hmem
      have hmem := SelectiveRepeat.mem_copies.mpr hmem
      rw [honce, List.mem_singleton] at hmem
      exact hmem
    have hnodup : (sends x.state.machine.log).Nodup := hi.wired.timers.imp fun hlt he => by
      rw [he] at hlt
      exact Nat.lt_irrefl _ hlt
    have hsame : d'.serial = d.serial :=
      (List.getElem?_inj (List.getElem?_eq_some_iff.mp hcopy).1 hnodup).mp
        (by rw [hcopy, hfirst, hone (List.mem_of_getElem? hcopy), hone (List.mem_of_getElem? hfirst)])
    exact h.untimed.serial_ne hd' hd hsame
  · rw [← hlog] at hgave
    obtain ⟨d', -, t', hagain⟩ := (hj .giveUp s hgave).2 rfl
    exact hnew ((hretried s).mpr (he ▸ SelectiveRepeat.mem_retransmitted.mpr
      ⟨t', List.mem_of_getElem? hagain⟩))

/-- `Send` resends only what has not been echoed. -/
theorem resends_only_missing {m' : Machine}
    (hid : x.state.machine.sim.events.lookup id = some .send)
    (hs : x.state.machine.fire id = .ok m')
    (hlog : m'.log = x.state.machine.log ++ [.packetRetrans s t]) :
    s ∉ x.state.machine.client.receivedPackets ∧ s ∉ echoes x.state.machine.log := by
  obtain ⟨hi, hl⟩ := h.untimed.transport.1.laws hseq
  have hsend : Machine.send { x.state.machine with sim := x.state.machine.sim.cancel id } = .ok m' := by
    simpa [Machine.fire, hid] using hs
  obtain ⟨hr, rfl, hnew⟩ := (Machine.log_send_retrans hi.faithful.queue hsend).mp ⟨t, hlog⟩
  have hmissing := h.honest hlat hseq _ (by simp [Machine.view, Client.pending_active hr]) hnew
  exact ⟨hmissing, fun he => hmissing (hl.resolved.of_echo _ he)⟩

end

theorem resends_only_missing_after_gap : ∃ x m,
    exec (clocked ⟨50000000, 20000000, 1000000000⟩).timedStep
      (timedStart ⟨50000000, 20000000, 1000000000⟩ 10 ⟨4, 0, none⟩)
      [(1000000000, .fire 0), (1000000000, .fire 1), (1000000000, .dropToServer 0),
        (1050000000, .fire 4), (1050000000, .serve), (1060000000, .deliver)] = .ok x ∧
    x.state.machine.fire 6 = .ok m ∧ m.log = x.state.machine.log ++ [.packetRetrans 0 7] ∧
    0 ∉ x.state.machine.client.receivedPackets := by
  obtain ⟨x, hx, hs, hid, m, hm, hl⟩ : ∃ x,
      exec (clocked ⟨50000000, 20000000, 1000000000⟩).timedStep
        (timedStart ⟨50000000, 20000000, 1000000000⟩ 10 ⟨4, 0, none⟩)
        [(1000000000, .fire 0), (1000000000, .fire 1), (1000000000, .dropToServer 0),
          (1050000000, .fire 4), (1050000000, .serve), (1060000000, .deliver)] = .ok x ∧
      x.state.machine.client.seqNum = 2 ∧ x.state.machine.sim.events.lookup 6 = some .send ∧ ∃ m,
      x.state.machine.fire 6 = .ok m ∧ m.log = x.state.machine.log ++ [.packetRetrans 0 7] :=
    ⟨_, rfl, rfl, rfl, _, rfl, rfl⟩
  exact ⟨x, m, hx, hm, hl, (resends_only_missing ⟨_, hx⟩ (by decide) (by omega) hid hm hl).1⟩

theorem TimedReachable.crowded (h : TimedReachable τ maxPackets payload x)
    (hlat : τ.latency < rto) (hseq : x.state.machine.client.seqNum ≤ 65535) :
    x.state.machine.view.Crowded 10 := by
  refine Runs.Reachable.invariant (P := fun x => x.state.machine.client.seqNum ≤ 65535 →
    x.state.machine.view.Crowded 10) h (fun _ => .init) ?_ hseq
  rintro x ⟨t, i⟩ x' hr ih hs hseq
  have hx : TimedReachable τ maxPackets payload x := hr
  obtain ⟨-, n, hn, rfl⟩ := Clocked.timedStep_ok.mp hs
  have hn : step x.state i = .ok n := hn
  have hle := Nat.le_trans (hx.untimed.seqNum_mono hn) hseq
  obtain ⟨hm, ht⟩ := hx.untimed.transport
  rcases machine_step ht hn with he | ⟨l, hl⟩
  · dsimp only
    rw [he]
    exact ih hle
  · rcases (hm.simulates hl hseq).follows with ⟨hview, -⟩ | ⟨lines, hstep, -⟩
    · dsimp only
      rw [hview]
      exact ih hle
    · exact (ih hle).step (hm.laws hle).2.ok (hx.honest hlat hle) hstep

theorem TimedReachable.queue_length_le (h : TimedReachable τ maxPackets payload x)
    (hlat : τ.latency < rto) (hseq : x.state.machine.client.seqNum ≤ 65535) :
    x.state.machine.client.pending.length ≤ 20 :=
  (h.crowded hlat hseq).length_le (h.untimed.transport.1.laws hseq).2.ok

/-- The retransmission queue has 20 entries at most, and 10 timers at most run. -/
theorem queue_bounded (h : TimedReachable τ maxPackets payload x) (hlat : τ.latency < rto)
    (hseq : x.state.machine.client.seqNum ≤ 65535) :
    x.state.machine.client.pending.length ≤ 20 ∧ x.state.machine.sim.timeouts.card ≤ 10 := by
  obtain ⟨hi, hl⟩ := h.untimed.transport.1.laws hseq
  have hc := h.crowded hlat hseq
  refine ⟨h.queue_length_le hlat hseq, ?_⟩
  generalize hbase : x.state.machine.view.base = base
  have hsub : x.state.machine.sim.timeouts ⊆
      (Finset.Ico base (base + 10)).image fun s =>
        (x.state.machine.client.timers.lookup s).getD 0 := by
    intro id hid
    obtain ⟨s, hs⟩ := Simulator.mem_timeouts.mp hid
    have ht := (hi.faithful.exact s id).mpr hs
    exact Finset.mem_image.mpr ⟨s, hbase ▸ hc.timer_mem hl.ok ht, by rw [ht]; rfl⟩
  calc x.state.machine.sim.timeouts.card ≤ _ := Finset.card_le_card hsub
    _ ≤ (Finset.Ico base (base + 10)).card := Finset.card_image_le
    _ = 10 := by rw [Nat.card_Ico, Nat.add_sub_cancel_left]

theorem queue_bounded_after_giveUp : ∃ x, givenUpRun = .ok x ∧
    x.state.machine.client.pending.length = 1 ∧ x.state.machine.sim.timeouts.card ≤ 10 := by
  obtain ⟨x, hx, hs, hp⟩ : ∃ x, givenUpRun = .ok x ∧ x.state.machine.client.seqNum = 2 ∧
      x.state.machine.client.pending.length = 1 := ⟨_, rfl, rfl, rfl⟩
  exact ⟨x, hx, hp, (queue_bounded ⟨_, hx⟩ (by decide) (by omega)).2⟩

-- ---------------------------------------------------------------------------
-- The turns of the queue
-- ---------------------------------------------------------------------------

def turn (x : Timed Network Item) : Option ℕ := (x.state.tick .send).map x.due

theorem mem_turn {u : ℕ} : u ∈ turn x ↔ ∃ a, x.state.tick .send = some a ∧ x.due a = u :=
  Option.mem_map

theorem fired_gone (h : Reachable maxPackets payload n) (hs : step n (.fire id) = .ok n') :
    .event id ∉ n'.items := by
  obtain ⟨hm, ht⟩ := h.transport
  rw [mem_items_event]
  rintro ⟨ev, hev⟩
  rcases machine_input ht hs with ⟨-, hno⟩ | ⟨l, hl, hfire⟩
  · exact absurd rfl (hno id)
  · obtain rfl : l = .fire id := (hfire id).mpr rfl
    have hsched := Machine.schedules_step hm.budget hl
    rcases Nat.lt_or_ge id n.machine.sim.uid with hlt | hge
    · exact (hsched.old id ev hlt hev).2 rfl
    · simp only [Machine.step, Machine.fire, hm.budget.fresh id hge] at hl
      cases hl

theorem tick_cases (h : TimedReachable τ maxPackets payload x) {ev : Event}
    (hev : ∀ s, ev ≠ .handleTimeout s) (hs : (clocked τ).timedStep x (t, i) = .ok x') :
    ((∀ id, x.state.machine.sim.events.lookup id = some ev → i ≠ .fire id) ∧
      ∀ u ∈ (x'.state.tick ev).map x'.due, u ∈ (x.state.tick ev).map x.due) ∨
    (∃ id, x.state.machine.sim.events.lookup id = some ev ∧ i = .fire id ∧
      (x.state.tick ev).map x.due = some t ∧
      ∀ u ∈ (x'.state.tick ev).map x'.due, u = t + τ.delay ev) := by
  have hx := h.untimed
  obtain ⟨⟨-, -, hruns⟩, n, hn, rfl⟩ := Clocked.timedStep_ok.mp hs
  have hn : step x.state i = .ok n := hn
  have htick : (clocked τ).TickStep (tick ev) (fun _ => 0) (τ.delay ev) x.state i n :=
    tickStep (τ := τ) hx hev hn (fun _ => rfl) (Nat.zero_le _)
  rcases htick.dated (tick_live ev) hs with ⟨-, hkeep⟩ | ⟨a, ha, hrun, hnow, -, hnext⟩
  · by_cases hrun : ∃ id, x.state.machine.sim.events.lookup id = some ev ∧ i = .fire id
    · obtain ⟨id, hid, rfl⟩ := hrun
      have hcurrent : x.state.tick ev = some (.event id) :=
        (tick_eq_some hx hev).mpr ⟨id, hid, rfl⟩
      refine .inr ⟨id, hid, rfl, ?_, fun u hu => ?_⟩
      · rw [hcurrent, Option.map_some, (hruns (.event id) rfl).1]
      · obtain ⟨b, hb, -⟩ := Option.mem_map.mp hu
        have hsame : b = .event id := Option.some.inj ((hkeep b hb).1.symm.trans hcurrent)
        exact absurd (tick_live ev n b hb) (hsame ▸ fired_gone hx hn)
    · refine .inl ⟨fun id hid hi => hrun ⟨id, hid, hi⟩, fun u hu => ?_⟩
      obtain ⟨b, hb, rfl⟩ := Option.mem_map.mp hu
      obtain ⟨hold, hdate⟩ := hkeep b hb
      exact Option.mem_map.mpr ⟨b, hold, hdate.symm⟩
  · obtain ⟨id, hid, rfl⟩ := (tick_eq_some hx hev).mp ha
    refine .inr ⟨id, hid, runs_event.mp hrun, Option.mem_map.mpr ⟨_, ha, hnow.symm⟩, fun u hu => ?_⟩
    obtain ⟨b, hb, rfl⟩ := Option.mem_map.mp hu
    exact hnext b hb

theorem turn_cases (h : TimedReachable τ maxPackets payload x)
    (hs : (clocked τ).timedStep x (t, i) = .ok x') :
    ((∀ id, x.state.machine.sim.events.lookup id = some .send → i ≠ .fire id) ∧
      ∀ u ∈ turn x', u ∈ turn x) ∨
    (∃ id, x.state.machine.sim.events.lookup id = some .send ∧ i = .fire id ∧
      turn x = some t ∧ ∀ u ∈ turn x', u = t + τ.interval) :=
  tick_cases h (by simp) hs

theorem TimedReachable.turn_le (h : TimedReachable τ maxPackets payload x) :
    ∀ u ∈ turn x, u ≤ x.now + τ.interval := by
  refine Runs.Reachable.invariant (P := fun x => ∀ u ∈ turn x, u ≤ x.now + τ.interval) h ?_ ?_
  · intro u hu
    obtain ⟨b, -, rfl⟩ := mem_turn.mp hu
    exact Nat.le_add_right _ _
  rintro x ⟨t, i⟩ x' hr ih hs u hu
  obtain ⟨⟨hnow, -⟩, n, -, rfl⟩ := Clocked.timedStep_ok.mp hs
  rcases turn_cases hr hs with ⟨-, hkeep⟩ | ⟨-, -, -, -, hnext⟩
  · exact (ih u (hkeep u hu)).trans (Nat.add_le_add_right hnow _)
  · exact (hnext u hu).le

-- ---------------------------------------------------------------------------
-- Deadlines
-- ---------------------------------------------------------------------------

def date (x : Timed Network Item) (a : EventId) : ℕ := x.due (.event a)

theorem keeps_dates (h : Reachable maxPackets payload x.state)
    (hs : (clocked τ).timedStep x (t, i) = .ok x') :
    Keeps x.state.machine.log (date x) (date x') := by
  obtain ⟨-, n, hn, rfl⟩ := Clocked.timedStep_ok.mp hs
  intro e he
  refine Clocked.redate_old fun hnew => by_contra fun hold => ?_
  exact absurd (event_new h hn hnew hold) (Nat.not_le.mpr (h.transport.1.issued e he))

theorem sends_dated (h : Reachable maxPackets payload x.state)
    (hs : (clocked τ).timedStep x (t, i) = .ok x') :
    sends x'.state.machine.log = sends x.state.machine.log ∨
    ∃ e, sends x'.state.machine.log = sends x.state.machine.log ++ [e] ∧
      date x' e.2.2 = t + rto := by
  obtain ⟨-, n, hn, rfl⟩ := Clocked.timedStep_ok.mp hs
  rcases launches_step h hn with ⟨hsame, -⟩ | ⟨c, s, p, hsent, -, hev, hgone, -⟩
  · exact .inl hsame
  · refine .inr ⟨_, hsent, ?_⟩
    have hnew : (clocked τ).redate x.state n t x.due (.event x.state.machine.sim.uid) = _ :=
      Clocked.redate_new (mem_items_event.mpr ⟨_, hev⟩) hgone
    refine hnew.trans ?_
    simp only [clocked, hev, Option.elim_some, Timing.delay]

/-- Any other input than `Send` leaves the client alone or declares something
about it, an echo taken or a loss. -/
theorem other_moves (h : Reachable maxPackets payload n) (hs : step n i = .ok n')
    (hseq : n'.machine.client.seqNum ≤ 65535)
    (hno : ∀ id, n.machine.sim.events.lookup id = some .send → i ≠ .fire id) :
    (n'.machine.view = n.machine.view ∧ n'.machine.log = n.machine.log) ∨
    ∃ lines, Step 10 n.machine.view lines n'.machine.view ∧
      n'.machine.log = n.machine.log ++ lines ∧ sends lines = [] ∧ lines ≠ [] := by
  have hle := Nat.le_trans (h.seqNum_mono hs) hseq
  obtain ⟨hm, ht⟩ := h.transport
  cases step_cases hs with
  | fire id m hf =>
    have hf' : Machine.step n.machine (.fire id) = .ok m := hf
    cases Machine.step_cases hf' with
    | send _ hid => exact absurd rfl (hno id hid)
    | handleTimeout _ _ hid =>
      obtain ⟨cause, hstep, hlog⟩ := hm.timeout_moves hid hf hseq
      exact .inr ⟨_, hstep, hlog, rfl, by simp⟩
    | ppsLog => exact .inl ⟨rfl, rfl⟩
  | serve => exact .inl ⟨rfl, rfl⟩
  | deliver d _ m hd hr =>
    obtain ⟨c, hdr, data, base, -, -, -, T⟩ := delivered h hle hd hr
    have hread : Machine.step n.machine (.read d.packet) = .ok m :=
      (if_pos (List.mem_of_getElem? (carried_of_mem ht (.inr (.inl (by simp [hd])))))).trans
        (Machine.handleRead_singleton.mpr hr)
    rcases (hm.simulates hread hseq).follows with ⟨-, hsame⟩ | ⟨lines, hstep, hlog⟩
    · have hlog := T.log
      rw [hsame] at hlog
      simp [SelectiveRepeat.echoLines] at hlog
    · have hlines := List.append_cancel_left (hlog.symm.trans T.log)
      refine .inr ⟨lines, hstep, hlog, ?_, ?_⟩ <;> rw [hlines]
      · simp
      · simp [SelectiveRepeat.echoLines]
  | dropToServer => exact .inl ⟨rfl, rfl⟩
  | dropToClient => exact .inl ⟨rfl, rfl⟩

theorem TimedReachable.attended (h : TimedReachable τ maxPackets payload x)
    (hlat : τ.latency < rto) (hseq : x.state.machine.client.seqNum ≤ 65535) :
    Attended τ.interval rto 20 x.state.machine.log x.state.machine.view (date x) (turn x) := by
  refine Runs.Reachable.invariant (P := fun x => x.state.machine.client.seqNum ≤ 65535 →
    Attended τ.interval rto 20 x.state.machine.log x.state.machine.view (date x) (turn x)) h
    (fun _ => .init) ?_ hseq
  rintro x ⟨t, i⟩ x' hr ih hs hseq
  have hx : TimedReachable τ maxPackets payload x := hr
  have hx' : TimedReachable τ maxPackets payload x' := hx.tail hs
  have hdate := keeps_dates hx.untimed hs
  have hqueue := hx'.queue_length_le hlat hseq
  have hturn := turn_cases hx hs
  have hnext : ∀ u ∈ turn x', u ≤ t + τ.interval := by
    obtain ⟨-, n, -, rfl⟩ := Clocked.timedStep_ok.mp hs
    exact hx'.turn_le
  obtain ⟨⟨-, hpast, -⟩, n, hn, rfl⟩ := Clocked.timedStep_ok.mp hs
  have hn : step x.state i = .ok n := hn
  have hle := Nat.le_trans (hx.untimed.seqNum_mono hn) hseq
  obtain ⟨hm, -⟩ := hx.untimed.transport
  obtain ⟨hi, hl⟩ := hm.laws hle
  have hatt := ih hle
  dsimp only at *
  rcases hturn with ⟨hno, hkeep⟩ | ⟨id, hid, rfl, hnow, hlater⟩
  · rcases other_moves hx.untimed hn hseq hno with ⟨hview, hlog⟩ | ⟨lines, hstep, hlog, hsends, hne⟩
    · rw [hview, hlog]
      exact hatt.quiet hdate (.inr hkeep)
    · have hdue : ∀ s a, x.state.machine.view.timer s = some a → t ≤ date x a := fun s a ha =>
        hpast _ (mem_items_event.mpr ⟨_, (hi.faithful.exact s a).mp ha⟩)
      rw [hlog]
      exact (hatt.quiet (fun _ _ => rfl) (.inr hkeep)).declared hstep hsends hne hdate hdue hnext
        hqueue
  · obtain ⟨m, hf, hn⟩ := Runs.bind_ok.mp hn
    cases hn
    rcases hm.send_moves hid hf hseq with ⟨hview, hlog, hidle⟩ | ⟨lines, hstep, hlog, hlosses, hechoes⟩
    · dsimp only
      rw [hview, hlog]
      exact hatt.quiet hdate (.inl hidle)
    · dsimp only
      rw [hnow] at hatt
      rw [hlog]
      refine hatt.served hl.ok hl.ordered hstep hlosses hechoes hdate (fun e he => ?_) hlater
      rcases sends_dated hx.untimed hs with hsame | ⟨e', hsent, hdated⟩
      · simp [hlog, List.ne_nil_of_mem he] at hsame
      · have hone : sends lines = [e'] := by simpa [hlog] using hsent
        rw [hone, List.mem_singleton] at he
        exact he ▸ hdated

theorem TimedReachable.date_le (h : TimedReachable τ maxPackets payload x) :
    ∀ e ∈ sends x.state.machine.log, date x e.2.2 ≤ x.now + rto := by
  refine Runs.Reachable.invariant
    (P := fun x => ∀ e ∈ sends x.state.machine.log, date x e.2.2 ≤ x.now + rto) h
    (fun e he => by cases he) ?_
  rintro x ⟨t, i⟩ x' hr ih hs e he
  have hx : TimedReachable τ maxPackets payload x := hr
  have htime : x.now ≤ t ∧ x'.now = t := by
    obtain ⟨⟨hnow, -⟩, n, -, rfl⟩ := Clocked.timedStep_ok.mp hs
    exact ⟨hnow, rfl⟩
  have old : e ∈ sends x.state.machine.log → date x' e.2.2 ≤ x'.now + rto := fun he => by
    have := ih e he
    rw [keeps_dates hx.untimed hs e he]
    omega
  rcases sends_dated hx.untimed hs with hsame | ⟨e', hsent, hdated⟩
  · exact old (hsame ▸ he)
  · rw [hsent, List.mem_append, List.mem_singleton] at he
    rcases he with he | rfl
    · exact old he
    · rw [hdated, htime.2]

theorem dates_keep {is : List (ℕ × Input)} (h : TimedReachable τ maxPackets payload x)
    (hrun : exec (clocked τ).timedStep x is = .ok x') :
    sends x.state.machine.log <+: sends x'.state.machine.log ∧
      ∀ e ∈ sends x.state.machine.log, date x' e.2.2 = date x e.2.2 := by
  refine Runs.Reachable.along (P := fun y =>
    sends x.state.machine.log <+: sends y.state.machine.log ∧
      ∀ e ∈ sends x.state.machine.log, date y e.2.2 = date x e.2.2) h hrun
    ⟨List.prefix_rfl, fun _ _ => rfl⟩ ?_
  rintro y ⟨t, i⟩ y' hy ⟨hmore, hdate⟩ hs
  refine ⟨hmore.trans ?_, fun e he =>
    (keeps_dates (TimedReachable.untimed hy) hs e (hmore.mem he)).trans (hdate e he)⟩
  rcases sends_dated (TimedReachable.untimed hy) hs with hsame | ⟨e, hsent, -⟩
  · exact hsame ▸ List.prefix_rfl
  · exact hsent ▸ List.prefix_append _ _

theorem TimedReachable.next_turn (h : TimedReachable τ maxPackets payload x)
    (hbudget : x.state.machine.client.sent < x.state.machine.client.count) :
    ∃ u ∈ turn x, x.now ≤ u := by
  obtain ⟨id, hid⟩ := h.untimed.transport.1.budget.scheduled.mpr (.inl hbudget)
  have htick : x.state.tick .send = some (.event id) :=
    (tick_eq_some h.untimed (by simp)).mpr ⟨id, hid, rfl⟩
  exact ⟨_, mem_turn.mpr ⟨_, htick, rfl⟩, h.now_le_tick htick⟩

theorem TimedReachable.seqNum_le {is : List (ℕ × Input)} (h : TimedReachable τ maxPackets payload x)
    (hrun : exec (clocked τ).timedStep x is = .ok x')
    (hseq : x'.state.machine.client.seqNum ≤ 65535) : x.state.machine.client.seqNum ≤ 65535 := by
  refine Runs.guard_of_exec (G := fun x => x.state.machine.client.seqNum ≤ 65535) ?_ h hrun hseq
  rintro x ⟨t, i⟩ x' hr hs hg
  obtain ⟨-, n, hn, rfl⟩ := Clocked.timedStep_ok.mp hs
  exact Nat.le_trans (TimedReachable.untimed hr |>.seqNum_mono hn) hg

/-- What has been sent is resolved two timeouts and twenty intervals later, on a
path whose round trip is shorter than `m_rto` and while `MaxPackets` is not
reached. -/
theorem TimedReachable.resolved {is : List (ℕ × Input)} (h : TimedReachable τ maxPackets payload x)
    (hlat : τ.latency < rto) (hrun : exec (clocked τ).timedStep x is = .ok x')
    (hseq : x'.state.machine.client.seqNum ≤ 65535)
    (hbudget : x'.state.machine.client.sent < x'.state.machine.client.count)
    (hlate : x.now + 2 * rto + 20 * τ.interval < x'.now) :
    ∀ s < x.state.machine.client.seqNum, s ∈ x'.state.machine.client.receivedPackets := by
  have hx' := h.append hrun
  obtain ⟨-, hl⟩ := h.untimed.transport.1.laws (h.seqNum_le hrun hseq)
  obtain ⟨hi, -⟩ := hx'.untimed.transport.1.laws hseq
  have hnow : ∀ s a, x'.state.machine.view.timer s = some a → x'.now ≤ date x' a := fun s a ha =>
    hx'.punctual _ (mem_items_event.mpr ⟨_, (hi.faithful.exact s a).mp ha⟩)
  intro s hs
  obtain ⟨a, ha⟩ := hl.ordered.firsts s hs
  obtain ⟨hmore, hdates⟩ := dates_keep h hrun
  by_contra hr
  have hdeadline :=
    (hx'.attended hlat hseq).deadline hnow (hx'.next_turn hbudget) (hmore.mem ha) hr
  have hdate := hdates _ ha
  have hstart := h.date_le _ ha
  dsimp only at hdate hstart
  omega

/-- So it was echoed, or both its copies were dropped, and the window has moved
past it. -/
theorem resolved_in_time {is : List (ℕ × Input)} (h : TimedReachable τ maxPackets payload x)
    (hlat : τ.latency < rto) (hrun : exec (clocked τ).timedStep x is = .ok x')
    (hseq : x'.state.machine.client.seqNum ≤ 65535)
    (hbudget : x'.state.machine.client.sent < x'.state.machine.client.count)
    (hlate : x.now + 2 * rto + 20 * τ.interval < x'.now) :
    (∀ s < x.state.machine.client.seqNum, s ∈ x'.state.machine.client.receivedPackets ∧
      ((∃ d ∈ x'.state.processed, ∃ c, IsCopy x'.state.machine.log d.serial c s) ∨
        (x'.state.Dropped .first s ∧ x'.state.Dropped .again s))) ∧
    x.state.machine.client.seqNum ≤ x'.state.machine.client.windowBase := by
  have hx' := h.append hrun
  obtain ⟨hi, -⟩ := hx'.untimed.transport.1.laws hseq
  have hreceived := h.resolved hlat hrun hseq hbudget hlate
  refine ⟨fun s hs => ⟨hreceived s hs, hx'.received_or_dropped_twice hlat hseq s (hreceived s hs)⟩, ?_⟩
  rw [hi.faithful.windowBase]
  by_contra hlt
  exact Cursor.leastMissing_notMem _ (hreceived _ (Nat.lt_of_not_le hlt))

/-- A packet every 40 ms on a path of 20 ms that drops nothing. -/
def steadyRun : List (ℕ × Input) :=
  [(1000000000, .serve), (1000000000, .deliver)] ++
  ((List.range 23).flatMap fun k => [(1040000000 + k * 40000000, .fire (4 + 2 * k)),
    (1040000000 + k * 40000000, .serve), (1040000000 + k * 40000000, .deliver)]) ++
  [(1960000000, .fire 50), (1970000000, .serve)]

theorem resolved_in_time_after_second : ∃ x x',
    exec (clocked ⟨40000000, 20000000, 1000000000⟩).timedStep
      (timedStart ⟨40000000, 20000000, 1000000000⟩ 100 ⟨4, 0, none⟩)
      [(1000000000, .fire 0), (1000000000, .fire 1)] = .ok x ∧
    exec (clocked ⟨40000000, 20000000, 1000000000⟩).timedStep x steadyRun = .ok x' ∧
    x.state.machine.client.seqNum = 1 ∧ 0 ∈ x'.state.machine.client.receivedPackets := by
  obtain ⟨x, hx, hs, hnow⟩ : ∃ x,
      exec (clocked ⟨40000000, 20000000, 1000000000⟩).timedStep
        (timedStart ⟨40000000, 20000000, 1000000000⟩ 100 ⟨4, 0, none⟩)
        [(1000000000, .fire 0), (1000000000, .fire 1)] = .ok x ∧
      x.state.machine.client.seqNum = 1 ∧ x.now = 1000000000 := ⟨_, rfl, rfl, rfl⟩
  obtain ⟨x', hall, hseq, hbudget, hnow'⟩ := Runs.exists_of_check
    (x := exec (clocked ⟨40000000, 20000000, 1000000000⟩).timedStep
      (timedStart ⟨40000000, 20000000, 1000000000⟩ 100 ⟨4, 0, none⟩)
      ([(1000000000, .fire 0), (1000000000, .fire 1)] ++ steadyRun))
    (fun x' => x'.state.machine.client.seqNum ≤ 65535 ∧
      x'.state.machine.client.sent < x'.state.machine.client.count ∧ x'.now = 1970000000)
    (by decide +kernel)
  obtain ⟨y, hy, hx'⟩ := Runs.exec_append.mp hall
  obtain rfl : x = y := Except.ok.inj (hx.symm.trans hy)
  refine ⟨x, x', hx, hx', hs, ((resolved_in_time ⟨_, hx⟩ (by decide) hx' hseq hbudget ?_).1 0 ?_).1⟩
  · rw [hnow, hnow']
    decide
  · omega

end Network

end ReliableEcho
