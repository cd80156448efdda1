import ReliableEcho.Clock
import ReliableEcho.History
import ReliableEcho.Indices

/-!
# Alarms under the clock

A path whose round trip is shorter than `m_rto` gives no false alarm: when the
timer of a transmission runs out, its datagram is no longer on the path, and
the client has not processed it, or the timer would have been cancelled. So
what is declared lost was lost, and a packet that counts as received without an
echo has lost both its copies.
-/

namespace SelectiveRepeat

variable {τ : Type} {w : ℕ} {σ : Sender τ} {as : List (List (Line τ))}

theorem lost_of_retried (h : Runs.Path (Step w) Sender.init as σ) :
    ∀ s ∈ σ.retried, s ∈ lost as.flatten := by
  refine h.invariant (I := fun as σ => ∀ s ∈ σ.retried, s ∈ lost as.flatten)
    (by simp [Sender.init]) fun as σ lines σ' hp ih hs => ?_
  have hc := (laws_of_path hp).counted
  have keep : ∀ s ∈ σ.retried, s ∈ lost (as ++ [lines]).flatten := fun s hs => by
    simp [ih s hs]
  cases hs with
  | fresh | skip | echo | expire | giveUp => exact keep
  | @retry s rest t head new =>
    intro k hk
    rcases Finset.mem_insert.mp hk with rfl | hk
    · simp [hc.queued k (by simp [head]) new]
    · exact keep k hk

theorem echoed_or_givenUp (h : Runs.Path (Step w) Sender.init as σ) :
    ∀ s ∈ σ.received, s ∈ echoes as.flatten ∨ (.giveUp, s) ∈ losses as.flatten := by
  refine h.invariant (I := fun as σ => ∀ s ∈ σ.received, s ∈ echoes as.flatten ∨
    (.giveUp, s) ∈ losses as.flatten) (by simp [Sender.init]) fun as σ lines σ' _ ih hs => ?_
  have keep : ∀ s ∈ σ.received, s ∈ echoes (as ++ [lines]).flatten ∨
      (.giveUp, s) ∈ losses (as ++ [lines]).flatten := by
    intro s hs
    rcases ih s hs with h | h <;> simp [h]
  cases hs with
  | fresh | retry | skip | expire => exact keep
  | @echo s sent =>
    intro k hk
    rcases Finset.mem_insert.mp hk with rfl | hk
    · simp
    · exact keep k hk
  | @giveUp s t running old =>
    intro k hk
    rcases Finset.mem_insert.mp hk with rfl | hk
    · simp
    · exact keep k hk

theorem cause_of_lost {s : ℕ} {log : List (Line τ)} (h : s ∈ lost log) :
    ∃ cause, (cause, s) ∈ losses log ∧ cause ≠ .giveUp := by
  simp only [lost, List.mem_map, List.mem_filter, decide_eq_true_eq, Prod.exists] at h
  obtain ⟨cause, k, ⟨hm, hc⟩, rfl⟩ := h
  exact ⟨cause, hm, hc⟩

end SelectiveRepeat

namespace ReliableEcho

open SelectiveRepeat (Line Copy Cause sends echoes losses lost lostBy retransmitted)
open Runs (exec)

namespace Machine

variable {m m' : Machine} {i : Input} {id : ℕ} {maxPackets : UInt32} {payload : Payload}

-- ---------------------------------------------------------------------------
-- Timers and transmissions
-- ---------------------------------------------------------------------------

theorem timer_transmitted {h : RdtHeader} {p : Buffer} (line : ℕ → EventId → Line EventId) :
    (m.transmitted h p line).sim.events.lookup m.sim.uid = some (.handleTimeout h.getSeq) ∧
    ∀ k a, (m.transmitted h p line).client.timers.lookup k = some a →
      m.client.timers.lookup k = some a ∨ a = m.sim.uid := by
  constructor
  · rcases transmitted_cases with he | he <;> rw [he] <;> simp
  · intro k a ha
    rw [client_transmitted] at ha
    simp only [Finmap.lookup_insert_eq] at ha
    split at ha
    · exact .inr (Option.some.inj ha).symm
    · exact .inl ha

theorem launches_step (hb : m.Budget) (hs : step m i = .ok m') :
    (sends m'.log = sends m.log ∧ m'.wire = m.wire ∧
      ∀ k a, m'.client.timers.lookup k = some a → m.client.timers.lookup k = some a) ∨
    ∃ c s p, sends m'.log = sends m.log ++ [(c, s, m.sim.uid)] ∧ m'.wire = m.wire ++ [p] ∧
      m'.sim.events.lookup m.sim.uid = some (.handleTimeout s) ∧
      ∀ k a, m'.client.timers.lookup k = some a →
        m.client.timers.lookup k = some a ∨ a = m.sim.uid := by
  cases step_cases hs with
  | send id _ hs =>
    cases send_cases hs with
    | waits => exact .inl ⟨rfl, rfl, fun _ _ h => h⟩
    | fresh =>
      obtain ⟨hev, ht⟩ := timer_transmitted .packetSend
        (m := { m with sim := m.sim.cancel id, client := m.client.takeFresh })
      refine .inr ⟨.first, _, _, ?_, wire_transmitted, hev, ht⟩
      rw [log_transmitted, SelectiveRepeat.sends_append, SelectiveRepeat.sends_packetSend]
      rfl
    | again ha =>
      obtain ⟨hev, ht⟩ := timer_transmitted .packetRetrans
        (m := { m with sim := m.sim.cancel id, client := m.client.takeRetrans })
      have htimers : m.client.takeRetrans.timers = m.client.timers := by
        rw [Client.takeRetrans_eq, Client.takeSkipped_eq]
      refine .inr ⟨.again, _, _, ?_, wire_transmitted, hev, fun k a ha => htimers ▸ ht k a ha⟩
      rw [log_transmitted, SelectiveRepeat.sends_append, SelectiveRepeat.sends_packetRetrans]
      rfl
    | skips =>
      refine .inl ⟨rfl, rfl, fun k a ha => ?_⟩
      rwa [client_scheduleTransmit, Client.takeSkipped_eq] at ha
  | handleTimeout id seq hid hs =>
    have hr := recovers_timeout hid hs
    have hlog : sends (m.log ++ [.timeout id seq]) = sends m.log :=
      SelectiveRepeat.sends_append.trans (List.append_nil _)
    exact .inl ⟨(sends_handleTimeout hs).trans hlog, hr.wire, hr.timers⟩
  | ppsLog => exact .inl ⟨rfl, rfl, fun _ _ h => h⟩
  | read _ _ hs =>
    have hr := recovers_readPacket hb.owned hs
    exact .inl ⟨sends_readPacket hs, hr.wire, hr.timers⟩

theorem Reachable.issued (h : Reachable maxPackets payload m) :
    ∀ e ∈ sends m.log, e.2.2 < m.sim.uid :=
  h.invariant (P := fun m => ∀ e ∈ sends m.log, e.2.2 < m.sim.uid) (fun _ h => by cases h)
    fun m i m' hr hi hs e he => by
      have hb := Reachable.budget hr
      have huid := (schedules_step hb hs).uid
      rcases launches_step hb hs with ⟨hlog, -, -⟩ | ⟨c, s, p, hlog, -, hev, -⟩
      · exact Nat.lt_of_lt_of_le (hi e (hlog ▸ he)) huid
      · rw [hlog, List.mem_append, List.mem_singleton] at he
        rcases he with he | rfl
        · exact Nat.lt_of_lt_of_le (hi e he) huid
        · by_contra hge
          rw [(Reachable.budget (hr.tail hs)).fresh _ (Nat.le_of_not_lt hge)] at hev
          cases hev

theorem fire_losses (hs : m.fire id = .ok m') :
    ((∀ s, m.sim.events.lookup id ≠ some (.handleTimeout s)) ∧
      ∃ lines, m'.log = m.log ++ lines ∧ losses lines = []) ∨
    ∃ s, m.sim.events.lookup id = some (.handleTimeout s) ∧ m'.log = m.log ++
      [.timeout id s, .packetLoss (if s ∈ m.client.retransmitPackets then .giveUp else .timeout) s] := by
  have hs : step m (.fire id) = .ok m' := hs
  cases step_cases hs with
  | send _ hid hs =>
    refine .inl ⟨by simp [hid], ?_⟩
    cases send_cases hs with
    | waits => exact ⟨[], by simp, rfl⟩
    | fresh => exact ⟨_, log_transmitted, rfl⟩
    | again => exact ⟨_, log_transmitted, rfl⟩
    | skips => exact ⟨[], by simp, rfl⟩
  | handleTimeout _ s hid hs =>
    refine .inr ⟨s, hid, ?_⟩
    obtain ⟨m₁, h₁, rfl⟩ := handleTimeout_ok.mp hs
    rcases timeoutLoss_ok.mp h₁ with ⟨hn, rfl⟩ | ⟨ho, base, -, rfl⟩
    · have hn : s ∉ m.client.retransmitPackets := hn
      simp [hn]
    · have ho : s ∈ m.client.retransmitPackets := ho
      simp [ho]
  | ppsLog _ hid => exact .inl ⟨by simp [hid], [], by simp, rfl⟩

end Machine

namespace Network

variable {n n' : Network} {i : Input} {id s t : ℕ} {τ : Timing} {x x' : Timed Network Item}
  {maxPackets : UInt32} {payload : Payload}

-- ---------------------------------------------------------------------------
-- The dates of a transmission
-- ---------------------------------------------------------------------------

theorem launches_step (h : Reachable maxPackets payload n) (hs : step n i = .ok n') :
    (sends n'.machine.log = sends n.machine.log ∧ n'.machine.wire = n.machine.wire) ∨
    ∃ c s p, sends n'.machine.log = sends n.machine.log ++ [(c, s, n.machine.sim.uid)] ∧
      n'.machine.wire = n.machine.wire ++ [p] ∧
      n'.machine.sim.events.lookup n.machine.sim.uid = some (.handleTimeout s) ∧
      .event n.machine.sim.uid ∉ n.items ∧
      .datagram n.machine.wire.length ∈ n'.items ∧ .datagram n.machine.wire.length ∉ n.items := by
  obtain ⟨hm, ht⟩ := h.transport
  cases step_cases hs with
  | fire id m hf =>
    have hf : Machine.step n.machine (.fire id) = .ok m := hf
    rcases Machine.launches_step hm.budget hf with ⟨hlog, hw, -⟩ | ⟨c, s, p, hlog, hw, hev, -⟩
    · exact .inl ⟨hlog, hw⟩
    · refine .inr ⟨c, s, p, hlog, hw, hev, ?_, ?_, ?_⟩
      · rw [mem_items_event, hm.budget.fresh _ (Nat.le_refl _)]
        simp
      · rw [mem_items_datagram]
        exact ⟨⟨n.machine.wire.length, p⟩, by simp [hw, datagrams_snoc], rfl⟩
      · rw [mem_items_datagram]
        rintro ⟨d, hd, hserial⟩
        have hlt := (List.getElem?_eq_some_iff.mp
          (carried_of_mem ht (.inr ((List.mem_append.mp hd).imp_right .inl)))).1
        omega
  | serve => exact .inl ⟨rfl, rfl⟩
  | deliver _ _ _ _ hr =>
    exact .inl ⟨Machine.sends_readPacket hr, (Machine.recovers_readPacket hm.budget.owned hr).wire⟩
  | dropToServer => exact .inl ⟨rfl, rfl⟩
  | dropToClient => exact .inl ⟨rfl, rfl⟩

/-- A transmission's timeout and its datagram are dated from the same moment. -/
def Stamped (τ : Timing) (x : Timed Network Item) : Prop :=
  ∀ i c s a, (sends x.state.machine.log)[i]? = some (c, s, a) →
    x.due (.event a) + τ.latency = x.due (.datagram i) + rto

theorem TimedReachable.stamped (h : TimedReachable τ maxPackets payload x) : Stamped τ x := by
  refine Runs.Reachable.invariant (P := Stamped τ) h (fun i c s a he => by cases he) ?_
  rintro x ⟨t, i⟩ x' hr hst hs
  have hx : Reachable maxPackets payload x.state := TimedReachable.untimed hr
  obtain ⟨hm, ht⟩ := hx.transport
  obtain ⟨-, n, hn, rfl⟩ := Clocked.timedStep_ok.mp hs
  have hn : step x.state i = .ok n := hn
  have old : ∀ k c s a, (sends x.state.machine.log)[k]? = some (c, s, a) →
      (clocked τ).redate x.state n t x.due (.event a) + τ.latency =
        (clocked τ).redate x.state n t x.due (.datagram k) + rto := by
    intro k c s a he
    have ha := hm.issued _ (List.mem_of_getElem? he)
    have hk := (List.getElem?_eq_some_iff.mp he).1
    rw [hm.carries.length_eq] at hk
    have hevent : .event a ∈ n.items → .event a ∈ x.state.items := fun hnew =>
      by_contra fun hold => absurd (event_new hx hn hnew hold) (Nat.not_le.mpr ha)
    have hdatagram : .datagram k ∈ n.items → .datagram k ∈ x.state.items := fun hnew =>
      by_contra fun hold => absurd (datagram_new hn hnew hold) (Nat.ne_of_lt hk)
    rw [Clocked.redate_old hevent, Clocked.redate_old hdatagram]
    exact hst k c s a he
  rcases launches_step hx hn with ⟨hlog, -⟩ | ⟨c, s, p, hlog, -, hev, hevent, hnew, hdatagram⟩
  · intro k c s a he
    rw [show sends n.machine.log = _ from hlog] at he
    exact old k c s a he
  · intro k c' s' a he
    rw [show sends n.machine.log = _ from hlog] at he
    rcases Nat.lt_or_ge k (sends x.state.machine.log).length with hk | hk
    · rw [List.getElem?_append_left hk] at he
      exact old k c' s' a he
    · have hlt := (List.getElem?_eq_some_iff.mp he).1
      rw [List.length_append, List.length_singleton] at hlt
      obtain rfl : k = (sends x.state.machine.log).length := by omega
      rw [List.getElem?_concat_length] at he
      cases he
      rw [← hm.carries.length_eq] at hnew hdatagram
      dsimp only
      rw [Clocked.redate_new (mem_items_event.mpr ⟨_, hev⟩) hevent,
        Clocked.redate_new hnew hdatagram]
      simp only [clocked, hev, Option.elim_some, Timing.delay]
      omega

-- ---------------------------------------------------------------------------
-- Timeouts
-- ---------------------------------------------------------------------------

/-- A transmission whose timer runs has not been processed. -/
def Unheard (n : Network) : Prop :=
  ∀ i c s a, (sends n.machine.log)[i]? = some (c, s, a) →
    n.machine.client.timers.lookup s = some a → ∀ d ∈ n.processed, d.serial ≠ i

theorem Unheard.fire (h : Reachable maxPackets payload n) (hu : n.Unheard) {m : Machine}
    (hm : n.machine.fire id = .ok m) (toServer : List Datagram) :
    Unheard { n with machine := m, toServer := toServer } := by
  obtain ⟨hr, ht⟩ := h.transport
  have hm : Machine.step n.machine (.fire id) = .ok m := hm
  rcases Machine.launches_step hr.budget hm with ⟨hlog, -, htimers⟩ | ⟨c, s, p, hlog, -, -, htimers⟩
  · intro i c s a he ha
    exact hu i c s a (hlog ▸ he) (htimers s a ha)
  · intro i c' s' a he ha d hd
    have he : (sends m.log)[i]? = some (c', s', a) := he
    rw [hlog] at he
    rcases Nat.lt_or_ge i (sends n.machine.log).length with hi | hi
    · rw [List.getElem?_append_left hi] at he
      have hlt := hr.issued _ (List.mem_of_getElem? he)
      exact hu i c' s' a he ((htimers s' a ha).resolve_right (Nat.ne_of_lt hlt)) d hd
    · -- the packet just sent
      have hlt := (List.getElem?_eq_some_iff.mp (carried_of_mem ht (.inl hd))).1
      rw [← hr.carries.length_eq] at hlt
      omega

theorem Unheard.deliver (h : Reachable maxPackets payload n) (hu : n.Unheard) {d : Datagram}
    {rest recovered : List Datagram} {m : Machine} (hd : n.toClient = d :: rest)
    (hm : n.machine.readPacket d.packet = .ok m) :
    Unheard { n with machine := m, toClient := rest, processed := n.processed ++ [d]
                     recovered := recovered } := by
  obtain ⟨hr, ht⟩ := h.transport
  have hw := carried_of_mem ht (d := d) (.inr (.inl (by simp [hd])))
  have hsends := Machine.sends_readPacket hm
  have htimers := (Machine.recovers_readPacket hr.budget.owned hm).timers
  obtain ⟨hdr, data, base, hdes, -, rfl⟩ := Machine.readPacket_ok.mp hm
  intro i c s a he ha d' hd'
  have he : (sends n.machine.log)[i]? = some (c, s, a) := hsends ▸ he
  rcases List.mem_append.mp hd' with hd' | hd'
  · exact hu i c s a he (htimers s a ha) d' hd'
  · -- its echo cancels the timer of its number
    rintro rfl
    rw [List.mem_singleton.mp hd'] at he
    obtain ⟨e, he', _, _, hdes', hseq⟩ := hr.carries.exists_getElem? hw
    rw [he] at he'
    rw [hdes] at hdes'
    cases he'
    cases hdes'
    have hseq : hdr.getSeq = s := hseq
    have hnone := (Machine.absorbs_taken n.machine hdr.getSeq_lt).timers s
    rw [if_pos (.inl hseq.symm)] at hnone
    exact absurd (hnone.symm.trans ha) (by simp)

theorem Reachable.unheard (h : Reachable maxPackets payload n) : n.Unheard := by
  refine h.invariant (P := Unheard) (fun i c s a he => by cases he) fun n i n' hr hu hs => ?_
  cases step_cases hs with
  | fire _ _ hm => exact hu.fire hr hm _
  | serve => exact hu
  | deliver _ _ _ hd hm => exact hu.deliver hr hd hm
  | dropToServer => exact hu
  | dropToClient => exact hu

/-- On a path shorter than `m_rto`, the timer of a transmission runs out only
when its datagram was dropped. -/
theorem dropped_of_timeout (h : TimedReachable τ maxPackets payload x) (hlat : τ.latency < rto)
    (hs : (clocked τ).timedStep x (t, .fire id) = .ok x') {i : ℕ} {c : Copy}
    (hi : (sends x.state.machine.log)[i]? = some (c, s, id))
    (ht : x.state.machine.client.timers.lookup s = some id) : ∃ d ∈ x.state.dropped, d.serial = i := by
  obtain ⟨⟨-, hpast, hruns⟩, -⟩ := Clocked.timedStep_ok.mp hs
  obtain ⟨hm, htr⟩ := h.untimed.transport
  have hstamp := h.stamped i c s id hi
  have hdate : t = x.due (.event id) := (hruns (.event id) rfl).1
  have hgone : .datagram i ∉ x.state.items := fun hlive => by
    have hlive := hpast _ hlive
    omega
  have hlt := (List.getElem?_eq_some_iff.mp hi).1
  rw [hm.carries.length_eq] at hlt
  obtain ⟨c, hsent, harrived, hflight, hdropped⟩ := htr.channel
  rcases (c.account i).mp (hsent ▸ hlt) with hmem | hmem | hmem
  · rw [harrived, List.mem_map] at hmem
    obtain ⟨d, hd, hserial⟩ := hmem
    exact absurd hserial (h.untimed.unheard i _ s id hi ht d hd)
  · rw [hflight, List.mem_map] at hmem
    exact absurd (mem_items_datagram.mpr hmem) hgone
  · rwa [hdropped, List.mem_map] at hmem

def Dropped (n : Network) (c : Copy) (s : ℕ) : Prop :=
  ∃ d ∈ n.dropped, IsCopy n.machine.log d.serial c s

/-- What was declared lost has lost its first copy, and what was given up its
second as well. -/
def Justified (n : Network) : Prop := ∀ cause s, (cause, s) ∈ losses n.machine.log →
  n.Dropped .first s ∧ (cause = .giveUp → n.Dropped .again s)

theorem Dropped.mono {c : Copy} (hd : n.Dropped c s) {lines : List (Line EventId)}
    (hlog : n'.machine.log = n.machine.log ++ lines) (hsub : n.dropped ⊆ n'.dropped) :
    n'.Dropped c s := by
  obtain ⟨d, hd, hc⟩ := hd
  exact ⟨d, hsub hd, hlog ▸ hc.append lines⟩

theorem Justified.timeout (h : TimedReachable τ maxPackets payload x) (hlat : τ.latency < rto)
    (hseq : x.state.machine.client.seqNum ≤ 65535) (hj : x.state.Justified)
    (hs : (clocked τ).timedStep x (t, .fire id) = .ok x')
    (hid : x.state.machine.sim.events.lookup id = some (.handleTimeout s)) :
    x.state.Dropped .first s ∧
      (s ∈ x.state.machine.client.retransmitPackets → x.state.Dropped .again s) := by
  obtain ⟨hr, -⟩ := h.untimed.transport
  obtain ⟨hi, as, hp, hlog⟩ := hr.refines hseq
  obtain ⟨-, hl⟩ := hr.laws hseq
  have ht := (hi.faithful.exact s id).mpr hid
  have dropped : ∀ {c : Copy}, (c, s, id) ∈ sends x.state.machine.log → x.state.Dropped c s := by
    intro c hmem
    obtain ⟨i, hi⟩ := List.mem_iff_getElem?.mp hmem
    obtain ⟨d, hd, rfl⟩ := dropped_of_timeout h hlat hs hi ht
    exact ⟨d, hd, id, hi⟩
  by_cases hretried : s ∈ x.state.machine.client.retransmitPackets
  · obtain ⟨t₁, t₂, hcopies, htimer⟩ := hl.copies.twice s hretried
    obtain rfl : id = t₂ := htimer id ht
    refine ⟨?_, fun _ => dropped (SelectiveRepeat.mem_copies.mp (by simp [hcopies]))⟩
    have hlost := SelectiveRepeat.lost_of_retried hp s hretried
    rw [← hlog] at hlost
    obtain ⟨cause, hcause, -⟩ := SelectiveRepeat.cause_of_lost hlost
    exact (hj cause s hcause).1
  · obtain ⟨t₁, hcopies, htimer⟩ := hl.copies.once s (hl.ok.timer_lt s id ht) hretried
    obtain rfl : id = t₁ := htimer id ht
    exact ⟨dropped (SelectiveRepeat.mem_copies.mp (by simp [hcopies])),
      fun hr => absurd hr hretried⟩

theorem TimedReachable.justified (h : TimedReachable τ maxPackets payload x)
    (hlat : τ.latency < rto) (hseq : x.state.machine.client.seqNum ≤ 65535) :
    x.state.Justified := by
  refine Runs.Reachable.invariant
    (P := fun x => x.state.machine.client.seqNum ≤ 65535 → x.state.Justified) h
    (fun _ cause s hl => by cases hl) ?_ hseq
  rintro x ⟨t, i⟩ x' hr ih hs hseq
  have hx : TimedReachable τ maxPackets payload x := hr
  have hx' : TimedReachable τ maxPackets payload x' := hx.tail hs
  obtain ⟨-, n, hn, rfl⟩ := Clocked.timedStep_ok.mp hs
  have hn : step x.state i = .ok n := hn
  have hle := Nat.le_trans (hx.untimed.seqNum_mono hn) hseq
  have hj := ih hle
  have gaps := (hx'.untimed.history hseq).gaps
  intro cause s hloss
  -- the gaps are justified by the order of the path
  by_cases hgap : cause = .gap
  · subst hgap
    have hmem : s ∈ lostBy .gap n.machine.log := by
      simpa [lostBy] using hloss
    exact ⟨gaps s hmem, fun h => by cases h⟩
  have keep : ∀ {lines}, n.machine.log = x.state.machine.log ++ lines →
      x.state.dropped ⊆ n.dropped → (cause, s) ∈ losses x.state.machine.log →
      n.Dropped .first s ∧ (cause = .giveUp → n.Dropped .again s) := by
    intro lines hlog hsub hold
    obtain ⟨hfirst, hagain⟩ := hj cause s hold
    exact ⟨hfirst.mono hlog hsub, fun hc => (hagain hc).mono hlog hsub⟩
  cases step_cases hn with
  | fire _ m hm =>
    rcases Machine.fire_losses hm with ⟨-, lines, hlog, hnone⟩ | ⟨s', hid, hlog⟩
    · refine keep hlog (List.Subset.refl _) ?_
      simpa [hlog, hnone] using hloss
    · have hloss : (cause, s) ∈ losses m.log := hloss
      rw [hlog, SelectiveRepeat.losses_append, SelectiveRepeat.losses_timeout,
        List.mem_append, List.mem_singleton] at hloss
      rcases hloss with hold | hnew
      · exact keep hlog (List.Subset.refl _) hold
      · obtain ⟨rfl, rfl⟩ := Prod.mk.inj hnew
        obtain ⟨hfirst, hagain⟩ := Justified.timeout hx hlat hle hj hs hid
        refine ⟨hfirst.mono hlog (List.Subset.refl _), fun hc => ?_⟩
        have hretried : s ∈ x.state.machine.client.retransmitPackets := by
          by_contra hn
          rw [if_neg hn] at hc
          cases hc
        exact (hagain hretried).mono hlog (List.Subset.refl _)
  | serve => exact keep (List.append_nil _).symm (List.Subset.refl _) hloss
  | deliver _ _ m hd hm =>
    obtain ⟨c, hdr, data, base, -, -, -, T⟩ := delivered hx.untimed hle hd hm
    refine keep T.log (List.Subset.refl _) ?_
    have hloss : (cause, s) ∈ losses m.log := hloss
    rw [T.log, SelectiveRepeat.losses_append, SelectiveRepeat.losses_echoLines,
      List.mem_append, List.mem_map] at hloss
    rcases hloss with hold | ⟨k, -, hk⟩
    · exact hold
    · cases hk
      exact absurd rfl hgap
  | dropToServer => exact keep (List.append_nil _).symm (List.subset_append_left _ _) hloss
  | dropToClient => exact keep (List.append_nil _).symm (List.subset_append_left _ _) hloss

-- ---------------------------------------------------------------------------
-- What the client can rely on
-- ---------------------------------------------------------------------------

def number (n : Network) (d : Datagram) : ℕ :=
  (sends n.machine.log)[d.serial]?.elim 0 fun e => e.2.1

theorem number_eq {d : Datagram} {c : Copy} (h : IsCopy n.machine.log d.serial c s) :
    n.number d = s := by
  obtain ⟨t, ht⟩ := h
  simp [number, ht]

/-- On a path whose round trip is shorter than `m_rto` there is no false alarm:
what is declared lost was dropped, what is given up was dropped twice, and no
more packets are retransmitted than the path has dropped. -/
theorem no_false_alarms (h : TimedReachable τ maxPackets payload x) (hlat : τ.latency < rto)
    (hseq : x.state.machine.client.seqNum ≤ 65535) :
    (∀ cause s, (cause, s) ∈ losses x.state.machine.log → x.state.Dropped .first s ∧
      (cause = .giveUp → x.state.Dropped .again s)) ∧
    (∀ s ∈ retransmitted x.state.machine.log, x.state.Dropped .first s) ∧
    x.state.machine.client.packetRetrans ≤ x.state.dropped.length := by
  have hj := h.justified hlat hseq
  obtain ⟨hr, -⟩ := h.untimed.transport
  obtain ⟨hi, as, hp, hlog⟩ := hr.refines hseq
  obtain ⟨-, hl⟩ := hr.laws hseq
  obtain ⟨q, -, -, he, hretried⟩ := hl.queued
  have hdropped : ∀ s ∈ retransmitted x.state.machine.log, x.state.Dropped .first s := by
    intro s hs
    have hlost := SelectiveRepeat.lost_of_retried hp s ((hretried s).mpr (he ▸ hs))
    rw [← hlog] at hlost
    obtain ⟨cause, hcause, -⟩ := SelectiveRepeat.cause_of_lost hlost
    exact (hj cause s hcause).1
  refine ⟨hj, hdropped, ?_⟩
  -- distinct numbers have distinct datagrams
  have hsub : retransmitted x.state.machine.log ⊆ x.state.dropped.map x.state.number := by
    intro s hs
    obtain ⟨d, hd, hc⟩ := hdropped s hs
    exact List.mem_map.mpr ⟨d, hd, number_eq hc⟩
  have hnodup : (retransmitted x.state.machine.log).Nodup := he ▸ q.emitted_nodup
  calc x.state.machine.client.packetRetrans = u32 (retransmitted x.state.machine.log).length :=
        hi.tally.packetRetrans
    _ ≤ (retransmitted x.state.machine.log).length := Nat.mod_le _ _
    _ ≤ (x.state.dropped.map x.state.number).length := (hnodup.subperm hsub).length_le
    _ = x.state.dropped.length := List.length_map _

/-- A packet every 50 ms on a path of 20 ms: both copies of packet 0 are dropped,
and it is given up. -/
def givenUpRun : Except Fault (Timed Network Item) :=
  exec (clocked ⟨50000000, 20000000, 1000000000⟩).timedStep
    (timedStart ⟨50000000, 20000000, 1000000000⟩ 10 ⟨4, 0, none⟩)
    [(1000000000, .fire 0), (1000000000, .fire 1), (1000000000, .dropToServer 0),
      (1050000000, .fire 4), (1050000000, .dropToServer 0), (1080000000, .fire 3),
      (1100000000, .fire 6), (1100000000, .dropToServer 0), (1130000000, .fire 5),
      (1150000000, .fire 8), (1150000000, .serve), (1160000000, .deliver), (1180000000, .fire 7)]

theorem no_false_alarms_after_giveUp : ∃ x, givenUpRun = .ok x ∧
    (.giveUp, 0) ∈ losses x.state.machine.log ∧ x.state.Dropped .again 0 := by
  obtain ⟨x, hx, hs, hl⟩ : ∃ x, givenUpRun = .ok x ∧ x.state.machine.client.seqNum = 2 ∧
      losses x.state.machine.log = [(.timeout, 0), (.timeout, 1), (.giveUp, 0)] :=
    ⟨_, rfl, rfl, rfl⟩
  have hmem : (.giveUp, 0) ∈ losses x.state.machine.log := by simp [hl]
  exact ⟨x, hx, hmem,
    ((no_false_alarms ⟨_, hx⟩ (by decide) (by omega)).1 .giveUp 0 hmem).2 rfl⟩

theorem TimedReachable.received_or_dropped_twice (h : TimedReachable τ maxPackets payload x)
    (hlat : τ.latency < rto) (hseq : x.state.machine.client.seqNum ≤ 65535) :
    ∀ s ∈ x.state.machine.client.receivedPackets,
      (∃ d ∈ x.state.processed, ∃ c, IsCopy x.state.machine.log d.serial c s) ∨
      (x.state.Dropped .first s ∧ x.state.Dropped .again s) := by
  intro s hs
  obtain ⟨hi, as, hp, hlog⟩ := h.untimed.transport.1.refines hseq
  rcases SelectiveRepeat.echoed_or_givenUp hp s hs with hecho | hgave
  · rw [← hlog] at hecho
    obtain ⟨d, hd, hc⟩ := (h.untimed.history hseq).processed.exists_mem hecho
    exact .inl ⟨d, hd, hc⟩
  · rw [← hlog] at hgave
    obtain ⟨hfirst, hagain⟩ := h.justified hlat hseq .giveUp s hgave
    exact .inr ⟨hfirst, hagain rfl⟩

-- ---------------------------------------------------------------------------
-- A path that drops nothing
-- ---------------------------------------------------------------------------

/-- The client of a path that has dropped nothing: a plain sliding window. -/
structure Undisturbed (n : Network) : Prop where
  losses : losses n.machine.log = []
  retransmitted : retransmitted n.machine.log = []
  recovered : n.machine.client.retransRecv = 0
  counters : n.machine.counters = ⟨n.machine.wire.length, 0, 0⟩
  echoes : echoes n.machine.log = List.range n.processed.length
  ackNum : n.machine.client.ackNum = n.processed.length
  receivedPackets : n.machine.client.receivedPackets = Finset.range n.processed.length
  windowBase : n.machine.client.windowBase = n.processed.length

theorem number_eq_serial (h : Reachable maxPackets payload n)
    (hseq : n.machine.client.seqNum ≤ 65535) (hr : retransmitted n.machine.log = []) {i : ℕ}
    {c : Copy} (hc : IsCopy n.machine.log i c s) : s = i := by
  have hfirst : ∀ e ∈ sends n.machine.log, e.1 = .first := by
    rintro ⟨c, k, t⟩ he
    cases c with
    | first => rfl
    | again =>
      have hmem := SelectiveRepeat.mem_retransmitted.mpr ⟨t, he⟩
      rw [hr] at hmem
      cases hmem
  have hfresh := h.transport.1.indexed.fresh
  rw [SelectiveRepeat.freshNumbers, List.filter_eq_self.mpr (by simpa using hfirst)] at hfresh
  obtain ⟨t, ht⟩ := hc
  have hs : ((sends n.machine.log).map (·.2.1))[i]? = some s := by
    rw [List.getElem?_map, ht]
    rfl
  rw [hfresh, List.getElem?_map, Option.map_eq_some_iff] at hs
  obtain ⟨j, hj, rfl⟩ := hs
  obtain ⟨hlt, rfl⟩ := List.getElem?_eq_some_iff.mp hj
  rw [List.length_range] at hlt
  rw [List.getElem_range, u16_of_lt (by omega)]

/-- Without a drop and without a loss declared, nothing is retransmitted and the
echoes come in the order of sending. -/
theorem Reachable.undisturbed (h : Reachable maxPackets payload n)
    (hseq : n.machine.client.seqNum ≤ 65535) (hnone : n.dropped = [])
    (hlosses : losses n.machine.log = []) : n.Undisturbed := by
  have hh := h.history hseq
  obtain ⟨hr, ht⟩ := h.transport
  obtain ⟨hi, as, hp, hlog⟩ := hr.refines hseq
  obtain ⟨-, hl⟩ := hr.laws hseq
  have hlost : lost n.machine.log = [] := by
    rw [lost, hlosses]
    rfl
  obtain ⟨q, -, -, he, hretried⟩ := hl.queued
  have hretrans : retransmitted n.machine.log = [] := by
    refine List.eq_nil_iff_forall_not_mem.mpr fun s hmem => ?_
    have hs := SelectiveRepeat.lost_of_retried hp s ((hretried s).mpr (he ▸ hmem))
    rw [← hlog, hlost] at hs
    cases hs
  have hrecovered : SelectiveRepeat.recovered n.machine.log = [] := by
    refine List.eq_nil_iff_forall_not_mem.mpr fun s hmem => ?_
    obtain ⟨d, -, t, hc⟩ := hh.recovered.exists_mem hmem
    have hs := SelectiveRepeat.mem_retransmitted.mpr ⟨t, List.mem_of_getElem? hc⟩
    rw [hretrans] at hs
    cases hs
  have hechoes : echoes n.machine.log = List.range n.processed.length := by
    obtain ⟨c, -, harrived, -, hdropped⟩ := ht.channel
    have hserials := LossyFifo.arrived_eq_range (c := c) (by rw [hdropped, hnone]; rfl)
    rw [harrived, List.length_map] at hserials
    rw [← hserials]
    have hpaired : List.Forall₂ (· = ·) (n.processed.map Datagram.serial)
        (echoes n.machine.log) := by
      refine List.forall₂_map_left_iff.mpr (hh.processed.imp ?_)
      rintro d s ⟨c, hc⟩
      exact (number_eq_serial h hseq hretrans hc).symm
    rw [List.forall₂_eq_eq_eq] at hpaired
    exact hpaired.symm
  have hack : n.machine.client.ackNum = n.processed.length := by
    have hiff : ∀ s, s < n.machine.client.ackNum ↔ ∃ k ∈ echoes n.machine.log, s ≤ k :=
      fun s => hl.acked.lt_ack_iff
    simp only [hechoes, List.mem_range] at hiff
    refine Nat.le_antisymm (Nat.le_of_not_lt fun hlt => ?_) (Nat.le_of_not_lt fun hlt => ?_)
    · obtain ⟨k, hk, hle⟩ := (hiff _).mp hlt
      omega
    · exact absurd ((hiff _).mpr ⟨_, hlt, Nat.le_refl _⟩) (Nat.lt_irrefl _)
  have hreceived : n.machine.client.receivedPackets =
      Finset.range n.processed.length := by
    ext s
    rw [Finset.mem_range, ← List.mem_range, ← hechoes]
    refine ⟨fun hs => ?_, fun hs => hl.resolved.of_echo s hs⟩
    rcases SelectiveRepeat.echoed_or_givenUp hp s hs with hecho | hgave
    · exact hlog ▸ hecho
    · rw [← hlog, hlosses] at hgave
      cases hgave
  refine ⟨hlosses, hretrans, ?_, ?_, hechoes, hack, hreceived, ?_⟩
  · rw [hi.tally.retransRecv, hrecovered]
    rfl
  · have hcounts := hr.counts
    have hlost0 : n.machine.client.packetLost = 0 := by
      rw [hi.tally.packetLost, hlost]
      rfl
    have hretrans0 : n.machine.client.packetRetrans = 0 := by
      rw [hi.tally.packetRetrans, hretrans]
      rfl
    rw [Machine.counters, hlost0, hretrans0, ← hcounts.wire, hcounts.sent, hretrans0, Nat.add_zero]
  · rw [hi.faithful.windowBase, hreceived]
    exact (Cursor.eq_leastMissing (by simp) (by simp)).symm

theorem TimedReachable.undisturbed (h : TimedReachable τ maxPackets payload x) (hlat : τ.latency < rto)
    (hseq : x.state.machine.client.seqNum ≤ 65535) (hnone : x.state.dropped = []) :
    x.state.Undisturbed := by
  refine h.untimed.undisturbed hseq hnone (List.eq_nil_iff_forall_not_mem.mpr ?_)
  rintro ⟨cause, s⟩ hmem
  obtain ⟨d, hd, -⟩ := (h.justified hlat hseq cause s hmem).1
  rw [hnone] at hd
  cases hd

end Network

end ReliableEcho
