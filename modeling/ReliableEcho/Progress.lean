import ReliableEcho.Throughput

/-!
# The client finishes

If the round trip is shorter than `m_rto`, at most two timeouts and 42
intervals pass between two transmissions until `MaxPackets` are sent, whatever
the path drops: by then all that was sent is resolved, so the window is open,
and the queue is used up. After the last transmission the timers run out, and
nothing is left to happen but the reports.
-/

namespace ReliableEcho

open SelectiveRepeat (Line Copy Step sends echoes)
open Runs (exec)

namespace Network

variable {n n' : Network} {i : Input} {id s t : ℕ} {τ : Timing} {x x' : Timed Network Item}
  {maxPackets : UInt32} {payload : Payload} {is : List (ℕ × Input)}

-- ---------------------------------------------------------------------------
-- Transmissions of a stretch
-- ---------------------------------------------------------------------------

theorem sentCount_eq (h : Reachable maxPackets payload n) :
    n.sentCount = (sends n.machine.log).length :=
  h.transport.1.carries.length_eq.symm

theorem sentCount_mono (h : TimedReachable τ maxPackets payload x)
    (hrun : exec (clocked τ).timedStep x is = .ok x') : x.state.sentCount ≤ x'.state.sentCount := by
  rw [sentCount_eq h.untimed, sentCount_eq (h.append hrun).untimed]
  exact (dates_keep h hrun).1.length_le

theorem sends_eq (h : TimedReachable τ maxPackets payload x)
    (hrun : exec (clocked τ).timedStep x is = .ok x')
    (hsame : x'.state.sentCount ≤ x.state.sentCount) :
    sends x'.state.machine.log = sends x.state.machine.log := by
  rw [sentCount_eq h.untimed, sentCount_eq (h.append hrun).untimed] at hsame
  exact ((dates_keep h hrun).1.eq_of_length_le hsame).symm

theorem timer_sent (h : Reachable maxPackets payload n) (hseq : n.machine.client.seqNum ≤ 65535)
    {a : EventId} (ha : n.machine.view.timer s = some a) :
    ∃ c, (c, s, a) ∈ sends n.machine.log := by
  obtain ⟨before, line, after, c, hlog, hcopy, -, -⟩ := (h.transport.1.timeline hseq).since s a ha
  refine ⟨c, ?_⟩
  rw [hlog, sends, List.mem_filterMap]
  exact ⟨line, by simp, hcopy⟩

theorem Reachable.in_budget (h : Reachable maxPackets payload n)
    (hlt : n.sentCount < maxPackets.toNat) : n.machine.client.sent < n.machine.client.count := by
  rw [h.transport.1.counts.wire, h.transport.1.configured.1]
  exact hlt

-- ---------------------------------------------------------------------------
-- The next transmission
-- ---------------------------------------------------------------------------

/-- Two timeouts and twenty intervals after the last transmission nothing is
outstanding. -/
theorem TimedReachable.settled (h : TimedReachable τ maxPackets payload x) (hlat : τ.latency < rto)
    (hrun : exec (clocked τ).timedStep x is = .ok x')
    (hseq : x'.state.machine.client.seqNum ≤ 65535)
    (hbudget : x'.state.sentCount < maxPackets.toNat)
    (hsame : x'.state.sentCount ≤ x.state.sentCount)
    (hlate : x.now + 2 * rto + 20 * τ.interval < x'.now) : x'.state.machine.view.Settled := by
  have hx' := h.append hrun
  have hsends := sends_eq h hrun hsame
  obtain ⟨hi, hl⟩ := hx'.untimed.transport.1.laws hseq
  have hreceived := h.resolved hlat hrun hseq (hx'.untimed.in_budget hbudget) hlate
  refine ⟨fun s hs => hreceived s ?_, fun s => ?_⟩
  · obtain ⟨a, ha⟩ := hl.ordered.firsts s hs
    rw [hsends] at ha
    exact (h.untimed.transport.1.laws (h.seqNum_le hrun hseq)).2.ordered.sent_lt _ ha
  · cases ha : x'.state.machine.view.timer s with
    | none => rfl
    | some a =>
      obtain ⟨c, hc⟩ := timer_sent hx'.untimed hseq ha
      rw [hsends] at hc
      have hdate := (dates_keep h hrun).2 _ hc
      have hstart := h.date_le _ hc
      have hnow : x'.now ≤ date x' a :=
        hx'.punctual _ (mem_items_event.mpr ⟨_, (hi.faithful.exact s a).mp ha⟩)
      dsimp only at hdate hstart
      omega

/-- Once nothing is outstanding, a step that does not transmit adds nothing to the
queue, -/
theorem pending_step (h : Reachable maxPackets payload n) (hsettled : n.machine.view.Settled)
    (hs : step n i = .ok n') (hseq : n'.machine.client.seqNum ≤ 65535)
    (hsends : sends n'.machine.log = sends n.machine.log) :
    n'.machine.client.pending.length ≤ n.machine.client.pending.length := by
  obtain ⟨hm, ht⟩ := h.transport
  rcases machine_step ht hs with he | ⟨l, hl⟩
  · rw [he]
  rcases (hm.simulates hl hseq).follows with ⟨hview, -⟩ | ⟨lines, hstep, hlog⟩
  · exact (congrArg (fun σ => σ.pending.length) hview).le
  · have hquiet : sends lines = [] := by simpa [hlog] using hsends
    rcases hsettled.shrinks hstep hquiet with hsame | ⟨s, hrest⟩
    · exact (congrArg List.length hsame).le
    · have hlength := congrArg List.length hrest
      rw [List.length_cons] at hlength
      exact Nat.le_of_succ_le hlength.ge

/-- and `Send` takes an entry off it. -/
theorem pending_send (h : Reachable maxPackets payload n) (hsettled : n.machine.view.Settled)
    (hid : n.machine.sim.events.lookup id = some .send) (hs : step n (.fire id) = .ok n')
    (hseq : n'.machine.client.seqNum ≤ 65535) (hsame : n'.sentCount ≤ n.sentCount)
    (hsends : sends n'.machine.log = sends n.machine.log) :
    n'.machine.client.pending.length + 1 = n.machine.client.pending.length := by
  have hle := Nat.le_trans (h.seqNum_mono hs) hseq
  obtain ⟨hm, -⟩ := h.transport
  obtain ⟨hi, hl⟩ := hm.laws hle
  obtain ⟨m, hf, hn⟩ := Runs.bind_ok.mp hs
  cases hn
  rcases hm.send_moves hid hf hseq with ⟨-, -, hempty⟩ | ⟨lines, hstep, hlog, -, hechoes⟩
  · -- the window is open and the queue empty, so a fresh packet is sent
    have hidle : n.machine.client.retransmit = false := by
      by_contra hactive
      have hpending := Client.pending_active (c := n.machine.client) (by simpa using hactive)
      have hempty : n.machine.client.pending = [] := hempty
      simp [hpending] at hempty
    have hopen : n.machine.client.windowFull = false := by
      have hnext : n.machine.client.seqNum ≤
          Cursor.leastMissing n.machine.client.receivedPackets := hsettled.next_le
      rw [Bool.eq_false_iff, ne_eq, hi.faithful.windowFull_iff hl.ok hle, hi.faithful.windowBase]
      omega
    have hsent := sentCount_send hidle hopen hid hs
    omega
  · have hquiet : sends lines = [] := by simpa [hlog] using hsends
    obtain ⟨s, hrest⟩ := hsettled.served hstep hquiet hechoes
    have hlength := congrArg List.length hrest
    rw [List.length_cons] at hlength
    exact hlength.symm

/-- The most that passes between two transmissions. -/
def patience (τ : Timing) : ℕ := 2 * rto + 42 * τ.interval

def Due (τ : Timing) (since : ℕ) (x : Timed Network Item) : Prop :=
  ∀ u ∈ turn x, u + x.state.machine.client.pending.length * τ.interval ≤ since + patience τ

/-- While the client does not transmit, the next `Send` and those the queue needs
come in time. -/
theorem Due.step (h : TimedReachable τ maxPackets payload x) (hlat : τ.latency < rto)
    (hrun : exec (clocked τ).timedStep x is = .ok x') {x'' : Timed Network Item}
    (hs : (clocked τ).timedStep x' (t, i) = .ok x'')
    (hseq : x''.state.machine.client.seqNum ≤ 65535)
    (hbudget : x''.state.sentCount < maxPackets.toNat)
    (hsame : x''.state.sentCount ≤ x.state.sentCount) (hdue : Due τ x.now x') :
    Due τ x.now x'' := by
  have hx' := h.append hrun
  have hx'' : TimedReachable τ maxPackets payload x'' := hx'.tail hs
  have hone : exec (clocked τ).timedStep x' [(t, i)] = .ok x'' := Runs.exec_cons.mpr ⟨x'', hs, rfl⟩
  have hmono := sentCount_mono hx' hone
  have hsame' := hmono.trans hsame
  have hless : x''.state.sentCount ≤ x'.state.sentCount := hsame.trans (sentCount_mono h hrun)
  have hsends := sends_eq hx' hone hless
  have hcases := turn_cases hx' hs
  obtain ⟨-, n, hn, rfl⟩ := Clocked.timedStep_ok.mp hs
  have hn : Network.step x'.state i = .ok n := hn
  have hpatience : patience τ = 2 * rto + 42 * τ.interval := rfl
  by_cases hlate : x.now + 2 * rto + 20 * τ.interval < x'.now
  · have hsettled := h.settled hlat hrun (hx'.seqNum_le hone hseq) (hmono.trans_lt hbudget) hsame'
      hlate
    rcases hcases with ⟨-, hkeep⟩ | ⟨id, hid, rfl, hnow, hnext⟩
    · intro u hu
      have hpending := Nat.mul_le_mul_right τ.interval
        (pending_step hx'.untimed hsettled hn hseq hsends)
      have := hdue u (hkeep u hu)
      dsimp only
      omega
    · intro u hu
      have hpending := pending_send hx'.untimed hsettled hid hn hseq hless hsends
      have := hdue t hnow
      rw [hnext u hu]
      rw [← hpending, Nat.succ_mul] at this
      dsimp only
      omega
  · have hqueue := Nat.mul_le_mul_right τ.interval (hx''.queue_length_le hlat hseq)
    dsimp only at hqueue
    rcases hcases with ⟨-, hkeep⟩ | ⟨id, hid, rfl, hnow, hnext⟩
    · intro u hu
      have := hx'.turn_le u (hkeep u hu)
      dsimp only
      omega
    · intro u hu
      have := hx'.turn_le t hnow
      rw [hnext u hu]
      dsimp only
      omega

theorem TimedReachable.due (h : TimedReachable τ maxPackets payload x) (hlat : τ.latency < rto)
    (hrun : exec (clocked τ).timedStep x is = .ok x')
    (hseq : x'.state.machine.client.seqNum ≤ 65535)
    (hbudget : x'.state.sentCount < maxPackets.toNat)
    (hsame : x'.state.sentCount ≤ x.state.sentCount) : Due τ x.now x' := by
  induction is using List.reverseRecOn generalizing x' with
  | nil =>
    cases hrun
    intro u hu
    have := h.turn_le u hu
    have := Nat.mul_le_mul_right τ.interval (h.queue_length_le hlat hseq)
    unfold patience
    omega
  | append_singleton is l ih =>
    obtain ⟨t, i⟩ := l
    obtain ⟨y, hy, hs⟩ := Runs.exec_snoc.mp hrun
    have hone : exec (clocked τ).timedStep y [(t, i)] = .ok x' := Runs.exec_cons.mpr ⟨x', hs, rfl⟩
    have hmono := sentCount_mono (h.append hy) hone
    exact .step h hlat hy hs hseq hbudget hsame (ih hy ((h.append hy).seqNum_le hone hseq)
      (hmono.trans_lt hbudget) (hmono.trans hsame))

-- ---------------------------------------------------------------------------
-- All transmissions
-- ---------------------------------------------------------------------------

theorem TimedReachable.last_in_time (h : TimedReachable τ maxPackets payload x)
    (hlat : τ.latency < rto) (hseq : x.state.machine.client.seqNum ≤ 65535)
    (hbudget : x.state.sentCount < maxPackets.toNat) :
    ∃ y is, TimedReachable τ maxPackets payload y ∧ exec (clocked τ).timedStep y is = .ok x ∧
      x.state.sentCount ≤ y.state.sentCount ∧
      y.now ≤ τ.startTime + x.state.sentCount * patience τ := by
  refine Runs.Reachable.invariant (P := fun x => x.state.machine.client.seqNum ≤ 65535 →
    x.state.sentCount < maxPackets.toNat → ∃ y is, TimedReachable τ maxPackets payload y ∧
      exec (clocked τ).timedStep y is = .ok x ∧ x.state.sentCount ≤ y.state.sentCount ∧
      y.now ≤ τ.startTime + x.state.sentCount * patience τ) h ?_ ?_ hseq hbudget
  · exact fun _ _ => ⟨_, [], .refl, rfl, le_refl _, Nat.le_add_right _ _⟩
  rintro x ⟨t, i⟩ x' hr ih hs hseq hbudget
  have hx : TimedReachable τ maxPackets payload x := hr
  have hone : exec (clocked τ).timedStep x [(t, i)] = .ok x' := Runs.exec_cons.mpr ⟨x', hs, rfl⟩
  have hmono := sentCount_mono hx hone
  obtain ⟨y, is, hy, hrun, hsame, hnow⟩ :=
    ih (hx.seqNum_le hone hseq) (hmono.trans_lt hbudget)
  rcases Nat.lt_or_ge x.state.sentCount x'.state.sentCount with hgrew | hstill
  · -- `Send` ran in its turn
    refine ⟨x', [], hx.tail hs, rfl, le_refl _, ?_⟩
    have hdue := hy.due hlat hrun (hx.seqNum_le hone hseq) (hmono.trans_lt hbudget) hsame
    have hcases := turn_cases hx hs
    obtain ⟨-, n, hn, rfl⟩ := Clocked.timedStep_ok.mp hs
    rcases hcases with ⟨hno, -⟩ | ⟨-, -, -, hturn, -⟩
    · exact absurd ((sentCount_step hx.untimed hn).1 hno) hgrew.ne'
    · have hmul := Nat.mul_le_mul_right (patience τ) hgrew
      have := hdue t hturn
      rw [Nat.succ_mul] at hmul
      dsimp only at *
      omega
  · refine ⟨y, is ++ [(t, i)], hy, Runs.exec_snoc.mpr ⟨x, hrun, hs⟩, hstill.trans hsame, ?_⟩
    have := Nat.mul_le_mul_right (patience τ) hmono
    omega

/-- When the last timer has run out at the latest. -/
def deadline (τ : Timing) (maxPackets : UInt32) : ℕ :=
  τ.startTime + maxPackets.toNat * patience τ + rto

/-- `MaxPackets` are sent, the path is empty and only `PpsLog` is scheduled. -/
structure Finished (maxPackets : UInt32) (n : Network) : Prop where
  sent : n.machine.wire.length = maxPackets.toNat
  toServer : n.toServer = []
  toClient : n.toClient = []
  quiet : ∀ id ev, n.machine.sim.events.lookup id = some ev → ev = .ppsLog

theorem TimedReachable.next_in_time (h : TimedReachable τ maxPackets payload x)
    (hlat : τ.latency < rto) (hseq : x.state.machine.client.seqNum ≤ 65535)
    (hbudget : x.state.sentCount < maxPackets.toNat) :
    ∀ u ∈ turn x, u ≤ τ.startTime + maxPackets.toNat * patience τ := by
  intro u hu
  obtain ⟨y, is, hy, hrun, hsame, hnow⟩ := h.last_in_time hlat hseq hbudget
  have hdue := hy.due hlat hrun hseq hbudget hsame u hu
  have hmul := Nat.mul_le_mul_right (patience τ) hbudget
  rw [Nat.succ_mul] at hmul
  omega

theorem Reachable.unsent (h : Reachable maxPackets payload n) (hmax : 0 < maxPackets.toNat)
    (hid : n.machine.sim.events.lookup id = some .send) : n.sentCount < maxPackets.toNat := by
  have hm := h.transport.1
  have hwire : n.machine.client.sent = n.sentCount := hm.counts.wire
  have hcount := hm.configured.1
  rcases hm.budget.scheduled.mp ⟨id, hid⟩ with hlt | hnone <;> omega

theorem TimedReachable.date_bound (h : TimedReachable τ maxPackets payload x)
    (hmax : 0 < maxPackets.toNat) (hlat : τ.latency < rto)
    (hseq : x.state.machine.client.seqNum ≤ 65535) : ∀ e ∈ sends x.state.machine.log,
      date x e.2.2 ≤ τ.startTime + maxPackets.toNat * patience τ + rto := by
  refine Runs.Reachable.invariant (P := fun x => x.state.machine.client.seqNum ≤ 65535 →
    ∀ e ∈ sends x.state.machine.log,
      date x e.2.2 ≤ τ.startTime + maxPackets.toNat * patience τ + rto) h
    (fun _ e he => by cases he) ?_ hseq
  rintro x ⟨t, i⟩ x' hr ih hs hseq e he
  have hx : TimedReachable τ maxPackets payload x := hr
  have hone : exec (clocked τ).timedStep x [(t, i)] = .ok x' := Runs.exec_cons.mpr ⟨x', hs, rfl⟩
  have hle := hx.seqNum_le hone hseq
  have old : e ∈ sends x.state.machine.log → _ := fun he =>
    (keeps_dates hx.untimed hs e he).trans_le (ih hle e he)
  rcases sends_dated hx.untimed hs with hsame | ⟨e', hsent, hdated⟩
  · exact old (hsame ▸ he)
  rw [hsent, List.mem_append, List.mem_singleton] at he
  rcases he with he | rfl
  · exact old he
  rcases turn_cases hx hs with ⟨hno, -⟩ | ⟨id, hid, -, hturn, -⟩
  · have hx' : TimedReachable τ maxPackets payload x' := hx.tail hs
    have hgrew := congrArg List.length hsent
    rw [List.length_append, List.length_singleton, ← sentCount_eq hx.untimed,
      ← sentCount_eq hx'.untimed] at hgrew
    obtain ⟨-, n, hn, rfl⟩ := Clocked.timedStep_ok.mp hs
    have := (sentCount_step hx.untimed hn).1 hno
    dsimp only at hgrew
    omega
  · rw [hdated]
    exact Nat.add_le_add_right (hx.next_in_time hlat hle (hx.untimed.unsent hmax hid) t hturn) _

section
variable (h : TimedReachable τ maxPackets payload x) (hlat : τ.latency < rto)
  (hseq : x.state.machine.client.seqNum ≤ 65535)
include h hlat hseq

theorem TimedReachable.all_sent (hlate : τ.startTime + maxPackets.toNat * patience τ < x.now) :
    maxPackets.toNat ≤ x.state.sentCount := by
  by_contra hlt
  have hlt := Nat.lt_of_not_le hlt
  obtain ⟨u, hu, hnow⟩ := h.next_turn (h.untimed.in_budget hlt)
  have := h.next_in_time hlat hseq hlt u hu
  omega

variable (hmax : 0 < maxPackets.toNat)
  (hlate : τ.startTime + maxPackets.toNat * patience τ + rto < x.now)
include hmax hlate

theorem TimedReachable.sentCount_final : x.state.sentCount = maxPackets.toNat := by
  have hm := h.untimed.transport.1
  have hall := h.all_sent hlat hseq (by omega)
  have hle := hm.budget.sent_le
  have hwire : x.state.machine.client.sent = x.state.sentCount := hm.counts.wire
  have hcount := hm.configured.1
  omega

theorem TimedReachable.path_empty : x.state.toClient ++ x.state.toServer = [] := by
  obtain ⟨hm, ht⟩ := h.untimed.transport
  refine List.eq_nil_iff_forall_not_mem.mpr fun d hd => ?_
  have hwire := carried_of_mem ht (d := d) (by simp only [List.mem_append] at hd; tauto)
  have hlt := (List.getElem?_eq_some_iff.mp hwire).1
  rw [← hm.carries.length_eq] at hlt
  obtain ⟨⟨c, s, a⟩, he⟩ : ∃ e, (sends x.state.machine.log)[d.serial]? = some e :=
    ⟨_, List.getElem?_eq_getElem hlt⟩
  have hstamp := h.stamped _ c s a he
  have hdate := h.date_bound hmax hlat hseq _ (List.mem_of_getElem? he)
  have hnow : x.now ≤ x.due (.datagram d.serial) :=
    h.punctual _ (mem_items_datagram.mpr ⟨d, hd, rfl⟩)
  dsimp only [date] at hdate
  omega

theorem TimedReachable.only_reports {ev : Event}
    (hid : x.state.machine.sim.events.lookup id = some ev) : ev = .ppsLog := by
  cases ev with
  | send =>
    have := h.untimed.unsent hmax hid
    have := h.all_sent hlat hseq (by omega)
    omega
  | handleTimeout s =>
    obtain ⟨hi, -⟩ := h.untimed.transport.1.laws hseq
    obtain ⟨c, hc⟩ := timer_sent h.untimed hseq ((hi.faithful.exact s id).mpr hid)
    have hdate := h.date_bound hmax hlat hseq _ hc
    have hnow : x.now ≤ date x id := h.punctual _ (mem_items_event.mpr ⟨_, hid⟩)
    dsimp only at hdate
    omega
  | ppsLog => rfl

theorem TimedReachable.finished : x.state.Finished maxPackets := by
  obtain ⟨hclient, hserver⟩ := List.append_eq_nil_iff.mp (h.path_empty hlat hseq hmax hlate)
  exact ⟨h.sentCount_final hlat hseq hmax hlate, hserver, hclient,
    fun _ _ hid => h.only_reports hlat hseq hmax hlate hid⟩

end

/-- If the path drops nothing, the echoes come in the order of sending, nothing is
declared lost or sent twice, and in the end all of `MaxPackets` are echoed. -/
theorem arrives_in_order (h : TimedReachable τ maxPackets payload x) (hmax : 0 < maxPackets.toNat)
    (hlat : τ.latency < rto) (hseq : x.state.machine.client.seqNum ≤ 65535)
    (hnone : x.state.dropped = []) : x.state.Undisturbed ∧
    (τ.startTime + maxPackets.toNat * patience τ + rto < x.now →
      echoes x.state.machine.log = List.range maxPackets.toNat ∧
      x.state.machine.client.windowBase = maxPackets.toNat) := by
  have hu := h.undisturbed hlat hseq hnone
  refine ⟨hu, fun hlate => ?_⟩
  obtain ⟨c, hsent, harrived, hflight, hdropped⟩ := h.untimed.transport.2.channel
  have hcomplete := LossyFifo.complete (c := c) (by rw [hdropped, hnone]; rfl)
  rw [hflight, h.path_empty hlat hseq hmax hlate, List.map_nil, List.append_nil, harrived,
    hsent] at hcomplete
  have hlength : x.state.processed.length = maxPackets.toNat := by
    have hall := congrArg List.length hcomplete
    rw [List.length_map, List.length_range] at hall
    exact hall.trans (h.sentCount_final hlat hseq hmax hlate)
  exact ⟨hlength ▸ hu.echoes, hlength ▸ hu.windowBase⟩

/-- Two packets are sent and echoed; for four seconds more there are only reports. -/
def echoedRun : List (ℕ × Input) :=
  [(1000000000, .fire 0), (1000000000, .fire 1), (1010000000, .serve), (1020000000, .deliver),
    (1040000000, .fire 4), (1050000000, .serve), (1060000000, .deliver), (2000000000, .fire 2),
    (3000000000, .fire 6), (4000000000, .fire 7), (5000000000, .fire 8)]

theorem arrives_in_order_after_two : ∃ x,
    exec (clocked ⟨40000000, 20000000, 1000000000⟩).timedStep
      (timedStart ⟨40000000, 20000000, 1000000000⟩ 2 ⟨4, 0, none⟩) echoedRun = .ok x ∧
    echoes x.state.machine.log = [0, 1] ∧ x.state.machine.client.windowBase = 2 := by
  obtain ⟨x, hx, hseq, hnone, hnow⟩ := Runs.exists_of_check
    (x := exec (clocked ⟨40000000, 20000000, 1000000000⟩).timedStep
      (timedStart ⟨40000000, 20000000, 1000000000⟩ 2 ⟨4, 0, none⟩) echoedRun)
    (fun x => x.state.machine.client.seqNum = 2 ∧ x.state.dropped = [] ∧ x.now = 5000000000)
    (by decide +kernel)
  exact ⟨x, hx, (arrives_in_order ⟨_, hx⟩ (by decide) (by decide) (by omega) hnone).2
    (by rw [hnow]; decide)⟩

end Network

end ReliableEcho
