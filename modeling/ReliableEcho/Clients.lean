import ReliableEcho.Bounds
import ReliableEcho.Timers
import ReliableEcho.Lib.SharedCell

/-!
# Several clients

`UdpReliableEchoClientHelper::Install` makes a client for each node it is
given. The clients have nothing in common but the static counters of `PpsLog`:
a report is the difference to the last report of any client. They are a
`SharedCell`: the reports of a client add up to its own counters as long as no
other client reports other counters in between.
-/

namespace ReliableEcho

open Runs (exec EachStep)

/-- `history` has the reports so far, the latest first: who reported, and its own
counters then. -/
structure Clients (ι : Type) where
  machine : ι → Machine
  statics : PpsCounters
  history : List (ι × PpsCounters)

namespace PpsCounters

/-- The sum of what `PpsLog` printed. -/
def total (reports : List PpsCounters) : PpsCounters :=
  ⟨(reports.map packetSent).sum, (reports.map packetLost).sum, (reports.map packetRetrans).sum⟩

/-- What `PpsLog` prints, in `uint32_t`. -/
def difference (now old : PpsCounters) : PpsCounters :=
  ⟨u32 (now.packetSent + 2 ^ 32 - old.packetSent), u32 (now.packetLost + 2 ^ 32 - old.packetLost),
   u32 (now.packetRetrans + 2 ^ 32 - old.packetRetrans)⟩

variable {now : PpsCounters} {reports : List PpsCounters}

theorem telescopes_iff (old : ℕ) {now total : ℕ} (hnow : now < 4294967296) (hle : total ≤ now) :
    (old ≤ now ∧ total + u32 (now + 2 ^ 32 - old) = now) ↔ old = total := by
  unfold u32
  omega

/-- One more report is in order exactly if it is the difference to the last. -/
theorem total_snoc_iff (old : PpsCounters) (hsent : now.packetSent < 4294967296)
    (hlost : now.packetLost < 4294967296) (hretrans : now.packetRetrans < 4294967296)
    (hlast : total reports ≤ now) :
    (old ≤ now ∧ total (reports ++ [difference now old]) = now) ↔ old = total reports := by
  have h₁ := telescopes_iff old.packetSent hsent hlast.1
  have h₂ := telescopes_iff old.packetLost hlost hlast.2.1
  have h₃ := telescopes_iff old.packetRetrans hretrans hlast.2.2
  obtain ⟨s, l, r⟩ := now
  obtain ⟨os, ol, or⟩ := old
  simp only [total, difference, List.map_append, List.sum_append, List.map_cons, List.map_nil,
    List.sum_singleton, mk.injEq] at h₁ h₂ h₃ ⊢
  rw [← h₁, ← h₂, ← h₃]
  exact ⟨fun ⟨⟨a₁, a₂, a₃⟩, b₁, b₂, b₃⟩ => ⟨⟨a₁, b₁⟩, ⟨a₂, b₂⟩, a₃, b₃⟩,
    fun ⟨⟨a₁, b₁⟩, ⟨a₂, b₂⟩, a₃, b₃⟩ => ⟨⟨a₁, a₂, a₃⟩, b₁, b₂, b₃⟩⟩

end PpsCounters

namespace Clients

open PpsCounters (total difference)

variable {ι : Type} {g g' : Clients ι} {m m' : Machine} {k : ι}
  {maxPackets : ι → UInt32} {payload : ι → Payload}

def start (maxPackets : ι → UInt32) (payload : ι → Payload) : Clients ι :=
  ⟨fun k => .start (maxPackets k) (payload k), ⟨0, 0, 0⟩, []⟩

inductive Input
  | run (i : Machine.Input)
  | stopApplication
  deriving DecidableEq, Repr

/-- A client without a socket is not called back by it any more. -/
def handle (m : Machine) : Input → Except Fault Machine
  | .run (.fire id) => m.fire id
  | .run (.read packet) =>
    if m.client.socket then m.step (.read packet) else .error .notEnabled
  | .stopApplication => .ok m.stopApplication

def reports (m : Machine) : Input → Bool
  | .run (.fire id) => m.sim.events.lookup id = some .ppsLog
  | .run (.read _) => false
  | .stopApplication => true

/-- Client `k` with the static counters as they are. -/
def load (g : Clients ι) (k : ι) : Machine := { g.machine k with statics := g.statics }

-- ---------------------------------------------------------------------------
-- One client
-- ---------------------------------------------------------------------------

theorem sound_load (h : (g.machine k).Sound) : (g.load k).Sound := by
  obtain ⟨hc, hb, hrunning, hstopped⟩ := h
  refine ⟨⟨hc.wire, hc.sent, hc.packetRetrans, hc.packetSent⟩, ⟨hb.windowSize, hb.windowBase,
    hb.windowBase_lt, hb.seqNum_le, hb.ackNum_le, hb.retransmitPackets_lt, hb.packetLost_le⟩,
    fun hs => ?_, hstopped⟩
  have h := hrunning hs
  exact ⟨⟨h.fresh, h.owned, h.count_lt, h.seqNum_le, h.sent_le, h.untouched⟩, h.current,
    h.scheduled⟩

theorem sound_stopApplication (h : m.Sound) : m.stopApplication.Sound where
  counts := ⟨h.counts.wire, h.counts.sent, h.counts.packetRetrans, h.counts.packetSent⟩
  bounded := by
    have hb := h.bounded
    refine ⟨hb.windowSize, hb.windowBase, hb.windowBase_lt, hb.seqNum_le, hb.ackNum_le,
      hb.retransmitPackets_lt, Nat.le_trans (Nat.add_le_add_left ?_ _) hb.packetLost_le⟩
    exact Simulator.timeouts_mono fun a s ha => (Machine.lookup_stopApplication ha).1
  running hs := by cases hs
  stopped _ := by
    rintro ⟨a, ha⟩
    obtain ⟨hev, -, hsend, -⟩ := Machine.lookup_stopApplication ha
    cases hs : m.client.socket with
    | true => exact hsend ((h.running hs).current a hev)
    | false => exact h.stopped hs ⟨a, hev⟩

theorem handle_returns {i : Input} (hi : reports m i = true) : ∃ m', handle m i = .ok m' := by
  cases i with
  | run i =>
    cases i with
    | fire id =>
      have hid : m.sim.events.lookup id = some .ppsLog := by simpa [reports] using hi
      exact ⟨Machine.ppsLog { m with sim := m.sim.cancel id }, by simp [handle, Machine.fire, hid]⟩
    | read packet => cases hi
  | stopApplication => exact ⟨_, rfl⟩

theorem handle_reports {i : Input} (hi : reports m i = true) (hs : handle m i = .ok m') :
    m'.counters = m.counters ∧ m'.statics = m.counters ∧
      m'.reports = m.reports ++ [difference m.counters m.statics] := by
  cases i with
  | run i =>
    cases i with
    | fire id =>
      have hid : m.sim.events.lookup id = some .ppsLog := by simpa [reports] using hi
      simp only [handle, Machine.fire, hid] at hs
      cases hs
      exact ⟨rfl, rfl, rfl⟩
    | read packet => cases hi
  | stopApplication =>
    cases hs
    exact ⟨rfl, rfl, rfl⟩

theorem handle_sound {i : Input} (h : m.Sound) (hs : handle m i = .ok m') :
    m'.Sound ∧ m.counters ≤ m'.counters ∧
      (reports m i = false → m'.statics = m.statics ∧ m'.reports = m.reports) := by
  cases i with
  | run i =>
    have hstep : Machine.step m i = .ok m' ∧ m.Live i := by
      cases i with
      | fire id => exact ⟨hs, trivial⟩
      | read packet =>
        simp only [handle] at hs
        split at hs
        · exact ⟨hs, ‹_›⟩
        · cases hs
    obtain ⟨hsound, hle⟩ := h.step hstep.2 hstep.1
    refine ⟨hsound, hle, fun hi => h.silent hstep.2 hstep.1 ?_⟩
    rintro id rfl
    simpa [reports] using hi
  | stopApplication =>
    cases hs
    exact ⟨sound_stopApplication h, le_refl m.counters, fun hi => by cases hi⟩

-- ---------------------------------------------------------------------------
-- Runs
-- ---------------------------------------------------------------------------

variable [DecidableEq ι]

def step (g : Clients ι) : ι × Input → Except Fault (Clients ι)
  | (k, i) => do
    let m ← handle (g.load k) i
    .ok { machine := Function.update g.machine k m
          statics := m.statics
          history := if reports (g.machine k) i then (k, m.counters) :: g.history
            else g.history }

abbrev Reachable (maxPackets : ι → UInt32) (payload : ι → Payload) (g : Clients ι) : Prop :=
  Runs.Reachable step (start maxPackets payload) g

/-- The counters of `k` at its last report, zeros before its first. -/
def lastReport (g : Clients ι) (k : ι) : PpsCounters := SharedCell.own ⟨0, 0, 0⟩ k g.history

/-- A report is not negative, and with it the reports of its client add up. -/
def ReportsAddUp (g : Clients ι) : ι × Input → Prop
  | (k, i) => reports (g.machine k) i = true → ∀ g', step g (k, i) = .ok g' →
    g.statics ≤ (g.machine k).counters ∧
      total (g'.machine k).reports = (g'.machine k).counters

/-- Whoever reports, no other client has reported since with other counters than
it had itself at its last report. -/
def Uninterrupted (g : Clients ι) : ι × Input → Prop
  | (k, i) => reports (g.machine k) i = true →
    ∀ c ∈ SharedCell.since k g.history, c = g.lastReport k

theorem step_ok {i : Input} (hs : step g (k, i) = .ok g') : ∃ m,
    handle (g.load k) i = .ok m ∧
    g' = { machine := Function.update g.machine k m
           statics := m.statics
           history := if reports (g.machine k) i then (k, m.counters) :: g.history
             else g.history } := by
  obtain ⟨m, hm, hg⟩ := Runs.bind_ok.mp hs
  exact ⟨m, hm, (Except.ok.inj hg).symm⟩

theorem Reachable.sound (h : Reachable maxPackets payload g) (k : ι) :
    (g.machine k).Sound ∧ g.lastReport k ≤ (g.machine k).counters := by
  revert k
  refine h.invariant (P := fun g : Clients ι => ∀ k, (g.machine k).Sound ∧
    g.lastReport k ≤ (g.machine k).counters) (fun k => ⟨Machine.Reachable.sound .refl, ?_⟩) ?_
  · exact le_refl (⟨0, 0, 0⟩ : PpsCounters)
  · rintro g ⟨j, i⟩ g' - hg hs k
    obtain ⟨m, hm, rfl⟩ := step_ok hs
    obtain ⟨hsound, hle, -⟩ := handle_sound (sound_load (hg j).1) hm
    unfold lastReport at hg ⊢
    by_cases hk : k = j
    · subst hk
      simp only [Function.update_self]
      refine ⟨hsound, ?_⟩
      split
      · rw [SharedCell.own, if_pos rfl]
      · exact (hg k).2.trans hle
    · simp only [Function.update_of_ne hk]
      refine ⟨(hg k).1, ?_⟩
      split
      · rw [SharedCell.own, if_neg (Ne.symm hk)]
        exact (hg k).2
      · exact (hg k).2

/-- As long as all reports were in order: those of every client add up to its last
one, and the static counters, which have the last of all, have only grown. -/
structure Balanced (g : Clients ι) : Prop where
  total : ∀ k, total (g.machine k).reports = g.lastReport k
  statics : g.statics = SharedCell.value ⟨0, 0, 0⟩ g.history
  grows : SharedCell.Grows ⟨0, 0, 0⟩ g.history

theorem balanced_start : Balanced (start maxPackets payload) := ⟨fun _ => rfl, rfl, trivial⟩

theorem reportsAddUp_iff (h : Reachable maxPackets payload g) (hb : Balanced g) (l : ι × Input) :
    ReportsAddUp g l ↔ Uninterrupted g l := by
  obtain ⟨k, i⟩ := l
  refine imp_congr_right fun hi => ?_
  obtain ⟨hsound, hle⟩ := h.sound k
  obtain ⟨hsent, hlost, hretrans⟩ := hsound.counters_lt
  obtain ⟨m, hm⟩ := handle_returns (m := g.load k) hi
  obtain ⟨hcounters, -, hreports⟩ := handle_reports (m := g.load k) hi hm
  have hiff : _ ↔ g.statics = total (g.machine k).reports :=
    PpsCounters.total_snoc_iff g.statics hsent hlost hretrans (hb.total k ▸ hle)
  have hfinds : g.statics = total (g.machine k).reports ↔
      ∀ c ∈ SharedCell.since k g.history, c = g.lastReport k := by
    rw [hb.statics, hb.total k]
    exact hb.grows.value_eq_own_iff
  rw [← hfinds, ← hiff]
  have hadd : total m.reports = m.counters ↔ total ((g.machine k).reports ++
      [difference (g.machine k).counters g.statics]) = (g.machine k).counters := by
    rw [hreports, hcounters]
    exact Iff.rfl
  rw [← hadd]
  have hstep : step g (k, i) = .ok _ := Runs.bind_ok.mpr ⟨m, hm, rfl⟩
  simp only [hstep, Except.ok.injEq, forall_eq', Function.update_self]

theorem Balanced.step (h : Balanced g) (hr : Reachable maxPackets payload g) {l : ι × Input}
    (hl : ReportsAddUp g l) (hs : step g l = .ok g') : Balanced g' := by
  obtain ⟨j, i⟩ := l
  obtain ⟨m, hm, rfl⟩ := step_ok hs
  cases hi : reports (g.machine j) i with
  | true =>
    obtain ⟨hle, hnew⟩ := hl hi _ hs
    obtain ⟨hcounters, hstatics, -⟩ := handle_reports (m := g.load j) hi hm
    rw [if_pos rfl]
    refine ⟨fun k => ?_, hstatics.trans hcounters.symm, ?_, h.grows⟩
    · by_cases hk : k = j
      · subst hk
        simpa [lastReport, SharedCell.own] using hnew
      · simpa [lastReport, SharedCell.own, Function.update_of_ne hk, Ne.symm hk] using h.total k
    · rw [← h.statics, hcounters]
      exact hle
  | false =>
    obtain ⟨hstatics, hreports⟩ := (handle_sound (sound_load (hr.sound j).1) hm).2.2 hi
    rw [if_neg (by simp)]
    refine ⟨fun k => ?_, hstatics.trans h.statics, h.grows⟩
    by_cases hk : k = j
    · subst hk
      simp only [Function.update_self, hreports]
      exact h.total k
    · simp only [Function.update_of_ne hk]
      exact h.total k

theorem uninterrupted_alone {is : List (ι × Input)} (hk : ∀ l ∈ is, l.1 = k)
    (hg : ∀ e ∈ g.history, e.1 = k) : EachStep step Uninterrupted g is := by
  induction is generalizing g with
  | nil => trivial
  | cons l is ih =>
    obtain ⟨j, i⟩ := l
    obtain rfl : j = k := hk (j, i) (by simp)
    refine ⟨fun _ c hc => ?_, fun g' hs => ih (fun l hl => hk l (by simp [hl])) ?_⟩
    · simp [SharedCell.since_eq_nil hg] at hc
    · obtain ⟨m, -, rfl⟩ := step_ok hs
      dsimp only
      split
      · simpa using hg
      · exact hg

/-- In a run the reports add up exactly if nobody is interrupted by another client
between two reports, as in any run of one client alone. -/
theorem reports_add_up_iff (is : List (ι × Input)) :
    (EachStep step ReportsAddUp (start maxPackets payload) is ↔
      EachStep step Uninterrupted (start maxPackets payload) is) ∧
    ((∃ k, ∀ l ∈ is, l.1 = k) → EachStep step ReportsAddUp (start maxPackets payload) is) := by
  have hiff : EachStep step ReportsAddUp (start maxPackets payload) is ↔
      EachStep step Uninterrupted (start maxPackets payload) is :=
    Runs.eachStep_congr_of_invariant (I := Balanced) (fun _ l hr hb => reportsAddUp_iff hr hb l)
      (fun _ l _ hr hb hl hs => hb.step hr ((reportsAddUp_iff hr hb l).mpr hl) hs) .refl
      balanced_start
  refine ⟨hiff, ?_⟩
  rintro ⟨k, hk⟩
  exact hiff.mpr (uninterrupted_alone hk (by simp [start]))

/-- One of two clients sends, and reports three times, the last when it stops. -/
theorem reports_add_up_after_stop :
    EachStep step ReportsAddUp (start (fun _ : Bool => 3) fun _ => ⟨4, 0, none⟩)
      [(true, .run (.fire 0)), (true, .run (.fire 1)), (true, .run (.fire 2)),
        (true, .stopApplication)] :=
  (reports_add_up_iff _).2 ⟨true, by simp⟩

/-- The second client starts when the first has sent a packet and reported it. -/
theorem reports_wrapped : ∃ g g' : Clients Bool,
    exec step (start (fun _ => 3) fun _ => ⟨4, 0, none⟩)
      [(false, .run (.fire 0)), (false, .run (.fire 1)), (false, .run (.fire 2))] = .ok g ∧
    step g (true, .run (.fire 0)) = .ok g' ∧
    (g'.machine true).reports = [⟨4294967295, 0, 0⟩] ∧ (g'.machine true).counters = ⟨0, 0, 0⟩ ∧
    ¬ ReportsAddUp g (true, .run (.fire 0)) := by
  obtain ⟨g, g', hg, hg', hi, hreports, hcounters⟩ : ∃ g g' : Clients Bool,
      exec step (start (fun _ => 3) fun _ => ⟨4, 0, none⟩)
        [(false, .run (.fire 0)), (false, .run (.fire 1)), (false, .run (.fire 2))] = .ok g ∧
      step g (true, .run (.fire 0)) = .ok g' ∧
      reports (g.machine true) (.run (.fire 0)) = true ∧
      (g'.machine true).reports = [⟨4294967295, 0, 0⟩] ∧ (g'.machine true).counters = ⟨0, 0, 0⟩ :=
    ⟨_, _, rfl, rfl, rfl, rfl, rfl⟩
  refine ⟨g, g', hg, hg', hreports, hcounters, fun h => ?_⟩
  have hsum := (h hi g' hg').2
  rw [hreports, hcounters] at hsum
  simp [total] at hsum

end Clients

end ReliableEcho
