import ReliableEcho.Refinement

/-!
# The timer map

`m_timers` holds exactly the timeouts that are pending, each of the latest
transmission of its number. So `Send` never loses track of a timer, and
`StopApplication` cancels every event there is.
-/

namespace ReliableEcho

open SelectiveRepeat (Line Since echoes)
open Runs (exec)

namespace Machine

variable {m m' : Machine} {id s a : ℕ} {maxPackets : UInt32} {payload : Payload}

-- ---------------------------------------------------------------------------
-- Stopping
-- ---------------------------------------------------------------------------

theorem cancelRunning_cons (sim : Simulator) (id : EventId) (ids : List EventId) :
    cancelRunning sim (id :: ids) =
      cancelRunning (if sim.isExpired (some id) then sim else sim.cancel id) ids := rfl

theorem lookup_cancelRunning {sim : Simulator} {ids : List EventId} :
    (cancelRunning sim ids).events.lookup a = if a ∈ ids then none else sim.events.lookup a := by
  induction ids generalizing sim with
  | nil => rfl
  | cons id ids ih =>
    rw [cancelRunning_cons, ih]
    by_cases hexp : sim.isExpired (some id) = true
    · have hnone : sim.events.lookup id = none := by simpa [Simulator.isExpired] using hexp
      grind
    · rw [if_neg hexp, Simulator.lookup_cancel]
      grind

theorem mem_timerEvents : id ∈ m.timerEvents ↔ ∃ s, m.client.timers.lookup s = some id := by
  simp only [timerEvents, List.mem_filterMap, Finset.mem_sort, Finmap.mem_keys]
  exact exists_congr fun s => and_iff_right_of_imp fun hs => Finmap.mem_iff.mpr ⟨id, hs⟩

/-- What `StopApplication` leaves pending is neither a timer of the map, nor the
next `Send`, nor a report. -/
theorem lookup_stopApplication {ev : Event}
    (ha : m.stopApplication.sim.events.lookup a = some ev) :
    m.sim.events.lookup a = some ev ∧ (∀ s, m.client.timers.lookup s ≠ some a) ∧
      m.client.sendEvent ≠ some a ∧ m.client.logEvent ≠ some a := by
  simp only [stopApplication, Simulator.lookup_cancelEvent, client_ppsLog, sim_ppsLog,
    Simulator.lookup_schedule, lookup_cancelRunning] at ha
  have hmem : a ∈ m.timerEvents ↔ _ := mem_timerEvents
  grind

theorem Reachable.stopped (h : Reachable maxPackets payload m) {ev : Event}
    (ha : m.stopApplication.sim.events.lookup a = some ev) : ∃ s, ev = .handleTimeout s := by
  obtain ⟨hev, -, hsend, hlog⟩ := lookup_stopApplication ha
  cases ev with
  | send => exact absurd (h.budget.current a hev) hsend
  | handleTimeout s => exact ⟨s, rfl⟩
  | ppsLog => exact absurd (h.report_current hev) hlog

-- ---------------------------------------------------------------------------
-- The map
-- ---------------------------------------------------------------------------

theorem send_timer_unset (hi : m.InStep) (ok : m.view.Ok 10) (hseq : m.client.seqNum ≤ 65535)
    (hs : send { m with sim := m.sim.cancel id } = .ok m')
    (hne : m'.client.timers.lookup s ≠ m.client.timers.lookup s) :
    m.client.timers.lookup s = none := by
  cases send_cases hs with
  | waits => exact absurd rfl hne
  | fresh =>
    have hk : s = u16 m.client.seqNum := by
      by_contra hk
      rw [client_transmitted] at hne
      simp [hk, Client.takeFresh] at hne
    rw [hk, u16_of_lt (by omega)]
    exact timer_of_fresh ok
  | again hr hnew =>
    have hr : m.client.retransmit = true := hr
    have h16 : u16 m.client.retransSeq = m.client.retransSeq :=
      u16_of_lt (Nat.lt_succ_of_lt (hi.faithful.queue.active hr).2)
    have hk : s = m.client.retransSeq := by
      by_contra hk
      rw [client_transmitted, Client.takeRetrans_eq, Client.takeSkipped_eq] at hne
      simp [h16, hk] at hne
    rw [hk]
    exact timer_of_pending ok (by simp [Client.pending_active hr]) (h16 ▸ hnew)
  | skips =>
    rw [Client.takeSkipped_eq] at hne
    exact absurd rfl hne

theorem timeout_charges (hi : m.InStep) (ok : m.view.Ok 10)
    (hid : m.sim.events.lookup id = some (.handleTimeout s))
    (hs : handleTimeout (write { m with sim := m.sim.cancel id } [.timeout id s]) s = .ok m')
    (hne : m'.client.packetLost ≠ m.client.packetLost) : s ∉ m.client.receivedPackets := by
  obtain ⟨m₁, h₁, rfl⟩ := handleTimeout_ok.mp hs
  rcases timeoutLoss_ok.mp h₁ with ⟨hnew, -⟩ | ⟨-, base, -, rfl⟩
  · exact (ok.first s id ((hi.faithful.exact s id).mpr hid) hnew).1
  · rw [Client.queueRetransmission_eq] at hne
    exact absurd rfl hne

/-- The pending timeouts are those of the timer map, each of the latest
transmission of its number and not echoed since. -/
theorem timers_exact (h : Reachable maxPackets payload m) (hseq : m.client.seqNum ≤ 65535) :
    (∀ s id, m.client.timers.lookup s = some id ↔
      m.sim.events.lookup id = some (.handleTimeout s)) ∧
    (∀ s id, m.client.timers.lookup s = some id → Since m.log s id ∧
      (s ∉ m.client.retransmitPackets → s ∉ m.client.receivedPackets)) ∧
    (∀ id m' s, m.sim.events.lookup id = some .send → m.fire id = .ok m' →
      m'.client.timers.lookup s ≠ m.client.timers.lookup s → m.client.timers.lookup s = none) ∧
    (∀ id s m', m.sim.events.lookup id = some (.handleTimeout s) → m.fire id = .ok m' →
      m'.client.packetLost ≠ m.client.packetLost →
        s ∉ m.client.receivedPackets ∧ s ∉ echoes m.log) ∧
    ∀ id, m.stopApplication.sim.events.lookup id = none := by
  obtain ⟨hi, hl⟩ := h.laws hseq
  have exact := hi.faithful.exact
  refine ⟨exact, fun s id hid => ⟨(h.timeline hseq).since s id hid, fun hn => ?_⟩,
    fun id m' s hid hs hne => ?_, fun id s m' hid hs hne => ?_, fun id => ?_⟩
  · exact (hl.ok.first s id hid hn).1
  · have hsend : send { m with sim := m.sim.cancel id } = .ok m' := by
      simpa [fire, hid] using hs
    exact send_timer_unset hi hl.ok hseq hsend hne
  · have hs : handleTimeout (write { m with sim := m.sim.cancel id } [.timeout id s]) s =
        .ok m' := by
      simpa [fire, hid] using hs
    have hr := timeout_charges hi hl.ok hid hs hne
    exact ⟨hr, fun he => hr (hl.resolved.of_echo s he)⟩
  · cases hev : m.stopApplication.sim.events.lookup id with
    | none => rfl
    | some ev =>
      obtain ⟨s, rfl⟩ := h.stopped hev
      obtain ⟨hid, hno, -, -⟩ := lookup_stopApplication hev
      exact absurd ((exact s id).mpr hid) (hno s)

/-- The timer of the first packet is the one of its retransmission. -/
theorem timers_exact_after_gap : ∃ m, exec step (start 20 ⟨4, 0, none⟩) gapRun = .ok m ∧
    m.sim.events.lookup 22 = some (.handleTimeout 0) ∧ Since m.log 0 22 ∧
    (∀ id, m.sim.events.lookup id ≠ some (.handleTimeout 2)) ∧
    ∀ id, m.stopApplication.sim.events.lookup id = none := by
  obtain ⟨m, hm, hseq, htimer, hnone⟩ : ∃ m, exec step (start 20 ⟨4, 0, none⟩) gapRun = .ok m ∧
      m.client.seqNum = 10 ∧ m.client.timers.lookup 0 = some 22 ∧
      m.client.timers.lookup 2 = none := ⟨_, rfl, rfl, rfl, rfl⟩
  obtain ⟨hexact, hsince, -, -, hstopped⟩ := timers_exact ⟨_, hm⟩ (by omega)
  refine ⟨m, hm, (hexact 0 22).mp htimer, (hsince 0 22 htimer).1, fun id hid => ?_, hstopped⟩
  rw [← hexact, hnone] at hid
  cases hid

end Machine

end ReliableEcho
