import ReliableEcho.Handlers

/-!
# The transmission budget

What holds in every state of every run, however long: at most one `Send` is
scheduled, and one is scheduled exactly while the budget of `m_count`
transmissions lasts or nothing has been sent. No counter of transmissions
wraps.
-/

namespace ReliableEcho

open SelectiveRepeat (Line)

namespace Machine

variable {m m' : Machine} {h : RdtHeader} {p : Buffer} {line : ℕ → EventId → Line EventId}
  {c : Client} {id s : ℕ} {i : Input} {maxPackets : UInt32} {payload : Payload}

def SendScheduled (m : Machine) : Prop := ∃ id, m.sim.events.lookup id = some .send

structure Books (m : Machine) : Prop where
  fresh : m.sim.Fresh
  owned : m.Owned
  count_lt : m.client.count < 4294967296
  seqNum_le : m.client.seqNum ≤ m.client.sent
  sent_le : m.client.sent ≤ max 1 m.client.count
  /-- Before the first transmission nothing can be echoed, time out or be queued. -/
  untouched : m.client.sent = 0 → m.wire = [] ∧ m.client.retransmit = false ∧
    ∀ id s, m.sim.events.lookup id ≠ some (.handleTimeout s)

structure Budget (m : Machine) : Prop extends Books m where
  current : ∀ id, m.sim.events.lookup id = some .send → m.client.sendEvent = some id
  scheduled : m.SendScheduled ↔ m.client.sent < m.client.count ∨ m.client.sent = 0

theorem lookup_start : (start maxPackets payload).sim.events.lookup id =
    if id = 1 then some .send else if id = 0 then some .ppsLog else none := by
  change ((Simulator.empty.schedule .ppsLog).schedule .send).events.lookup id = _
  rw [Simulator.lookup_schedule, Simulator.lookup_schedule]
  rfl

theorem budget_start : Budget (start maxPackets payload) where
  fresh := by
    intro id hid
    have hid : 2 ≤ id := hid
    rw [lookup_start, if_neg (by omega), if_neg (by omega)]
  owned := by
    intro s a hs
    cases hs
  count_lt := maxPackets.toNat_lt
  seqNum_le := Nat.le_refl _
  sent_le := Nat.zero_le _
  untouched _ := by
    refine ⟨rfl, rfl, fun id s => ?_⟩
    rw [lookup_start]
    split <;> [simp; (split <;> simp)]
  current id hid := by
    rw [lookup_start] at hid
    split at hid
    · rename_i h
      exact congrArg some h.symm
    · split at hid <;> cases hid
  scheduled := iff_of_true ⟨1, by simp [lookup_start]⟩ (.inr rfl)

-- ---------------------------------------------------------------------------
-- Send
-- ---------------------------------------------------------------------------

/-- The books while `Send` runs: it was due, and its own event is gone. -/
structure Due (m : Machine) : Prop extends Books m where
  quiet : ¬ m.SendScheduled
  due : m.client.sent < m.client.count ∨ m.client.sent = 0

theorem Budget.due (hb : m.Budget) (hid : m.sim.events.lookup id = some .send) :
    Due { m with sim := m.sim.cancel id } where
  fresh := hb.fresh.cancel
  owned s a hs := by
    obtain ⟨hlt, hev⟩ := hb.owned s a hs
    exact ⟨hlt, fun ev ha => hev ev (Simulator.lookup_of_cancel ha).2⟩
  count_lt := hb.count_lt
  seqNum_le := hb.seqNum_le
  sent_le := hb.sent_le
  untouched h0 := by
    obtain ⟨hw, hr, hn⟩ := hb.untouched h0
    exact ⟨hw, hr, fun a s ha => hn a s (Simulator.lookup_of_cancel ha).2⟩
  quiet := by
    rintro ⟨a, ha⟩
    obtain ⟨hne, ha⟩ := Simulator.lookup_of_cancel ha
    exact hne (Option.some.inj ((hb.current a ha).symm.trans (hb.current id hid)))
  due := hb.scheduled.mp ⟨id, hid⟩

theorem Due.scheduleTransmit (hd : m.Due) : m.scheduleTransmit.Budget where
  fresh := hd.fresh.schedule
  owned s a hs := by
    obtain ⟨hlt, hev⟩ := hd.owned s a hs
    refine ⟨Nat.lt_succ_of_lt hlt, fun ev ha => hev ev ?_⟩
    simpa [Nat.ne_of_lt hlt] using ha
  count_lt := hd.count_lt
  seqNum_le := hd.seqNum_le
  sent_le := hd.sent_le
  untouched h0 := by
    obtain ⟨hw, hr, hn⟩ := hd.untouched h0
    refine ⟨hw, hr, fun a s ha => ?_⟩
    simp only [sim_scheduleTransmit, Simulator.lookup_schedule] at ha
    split at ha
    · cases ha
    · exact hn a s ha
  current a ha := by
    simp only [sim_scheduleTransmit, Simulator.lookup_schedule] at ha
    split at ha
    · rename_i h
      exact congrArg some h.symm
    · exact absurd ⟨a, ha⟩ hd.quiet
  scheduled := iff_of_true ⟨m.sim.uid, by simp⟩ hd.due

theorem Due.sendTo (hd : m.Due) (hc : c.count = m.client.count) (hs : c.sent = m.client.sent)
    (ht : c.timers = m.client.timers) (hq : c.seqNum ≤ c.sent + 1) :
    Books (sendTo { m with client := c } h p line) ∧
      ¬ SendScheduled (sendTo { m with client := c } h p line) ∧
      (sendTo { m with client := c } h p line).client.sent = m.client.sent + 1 := by
  have hcount := hd.count_lt
  have hdue := hd.due
  have hsent : u32 (c.sent + 1) = m.client.sent + 1 := by
    rw [hs, u32_of_lt (by omega)]
  refine ⟨⟨hd.fresh.schedule, ?_, ?_, ?_, ?_, ?_⟩, ?_, hsent⟩
  · intro s a hsa
    simp only [client_sendTo, sim_sendTo, Finmap.lookup_insert_eq, ht, Simulator.uid_schedule,
      Simulator.lookup_schedule] at hsa ⊢
    split at hsa
    · rename_i hk
      subst hk
      cases hsa
      exact ⟨Nat.lt_succ_self _, by simp⟩
    · obtain ⟨hlt, hev⟩ := hd.owned s a hsa
      refine ⟨Nat.lt_succ_of_lt hlt, ?_⟩
      rwa [if_neg (Nat.ne_of_lt hlt)]
  · simpa [hc] using hd.count_lt
  · simpa only [client_sendTo, hsent, ← hs] using hq
  · simp only [client_sendTo, hsent, hc]
    omega
  · simp [hsent]
  · rintro ⟨a, ha⟩
    simp only [sim_sendTo, Simulator.lookup_schedule] at ha
    split at ha
    · cases ha
    · exact hd.quiet ⟨a, ha⟩

theorem Due.transmitted (hd : m.Due) (hc : c.count = m.client.count) (hs : c.sent = m.client.sent)
    (ht : c.timers = m.client.timers) (hq : c.seqNum ≤ c.sent + 1) :
    Budget (transmitted { m with client := c } h p line) := by
  obtain ⟨hb, hn, hsent⟩ : Books (Machine.sendTo { m with client := c } h p line) ∧ _ ∧ _ :=
    hd.sendTo hc hs ht hq
  dsimp only [Machine.transmitted]
  split
  · rename_i hlt
    exact Due.scheduleTransmit ⟨hb, hn, .inl hlt⟩
  · rename_i hlt
    refine ⟨hb, fun a ha => absurd ⟨a, ha⟩ hn, iff_of_false hn ?_⟩
    rintro (h | h)
    · exact hlt h
    · omega

theorem Due.takeSkipped (hd : m.Due) (hr : m.client.retransmit = true) :
    Due { m with client := m.client.takeSkipped } where
  fresh := hd.fresh
  owned := by
    rw [Client.takeSkipped_eq]
    exact hd.owned
  count_lt := by
    rw [Client.takeSkipped_eq]
    exact hd.count_lt
  seqNum_le := by
    rw [Client.takeSkipped_eq]
    exact hd.seqNum_le
  sent_le := by
    rw [Client.takeSkipped_eq]
    exact hd.sent_le
  untouched h0 := by
    rw [Client.takeSkipped_eq] at h0
    rw [(hd.untouched h0).2.1] at hr
    cases hr
  quiet := hd.quiet
  due := by
    rw [Client.takeSkipped_eq]
    exact hd.due

theorem Due.send (hd : m.Due) (hs : m.send = .ok m') : m'.Budget := by
  cases send_cases hs with
  | waits => exact hd.scheduleTransmit
  | fresh =>
    refine hd.transmitted rfl rfl rfl (Nat.le_trans (Nat.mod_le _ _) ?_)
    exact Nat.succ_le_succ hd.seqNum_le
  | again =>
    rw [Client.takeRetrans_eq, Client.takeSkipped_eq]
    exact hd.transmitted rfl rfl rfl (Nat.le_succ_of_le hd.seqNum_le)
  | skips hr => exact (hd.takeSkipped hr).scheduleTransmit

-- ---------------------------------------------------------------------------
-- The other handlers
-- ---------------------------------------------------------------------------

theorem Budget.recovers (hb : m.Budget) (hr : Recovers m m') (h0 : m.client.sent ≠ 0) :
    m'.Budget where
  fresh a ha := by
    cases hev : m'.sim.events.lookup a with
    | none => rfl
    | some ev => rw [← hb.fresh a (hr.uid ▸ ha), hr.events a ev hev]
  owned := hr.owned hb.owned
  count_lt := hr.count ▸ hb.count_lt
  seqNum_le := by rw [hr.seqNum, hr.sent]; exact hb.seqNum_le
  sent_le := by rw [hr.sent, hr.count]; exact hb.sent_le
  untouched h := absurd (hr.sent ▸ h) h0
  current a ha := by rw [hr.sendEvent]; exact hb.current a (hr.events a _ ha)
  scheduled := by
    rw [hr.sent, hr.count, ← hb.scheduled]
    exact exists_congr fun a => ⟨hr.events a _, hr.others a _ (by simp)⟩

theorem lookup_ppsLog (hf : m.sim.Fresh) (hid : m.sim.events.lookup id = some .ppsLog)
    {ev : Event} (hev : ev ≠ .ppsLog) (a : ℕ) :
    (ppsLog { m with sim := m.sim.cancel id }).sim.events.lookup a = some ev ↔
      m.sim.events.lookup a = some ev := by
  simp only [sim_ppsLog, Simulator.lookup_schedule, Simulator.lookup_cancel, Simulator.uid_cancel]
  split
  · rename_i h
    rw [h, hf _ (Nat.le_refl _)]
    simp [hev.symm]
  split
  · rename_i h
    rw [h, hid]
    simp [hev.symm]
  · rfl

theorem Budget.ppsLog (hb : m.Budget) (hid : m.sim.events.lookup id = some .ppsLog) :
    Budget (ppsLog { m with sim := m.sim.cancel id }) where
  fresh := hb.fresh.cancel.schedule
  owned s a hs := by
    obtain ⟨hlt, hev⟩ := hb.owned s a hs
    refine ⟨Nat.lt_succ_of_lt hlt, fun ev ha => hev ev ?_⟩
    simp only [sim_ppsLog, Simulator.lookup_schedule, Simulator.uid_cancel, Nat.ne_of_lt hlt,
      ↓reduceIte] at ha
    exact (Simulator.lookup_of_cancel ha).2
  count_lt := hb.count_lt
  seqNum_le := hb.seqNum_le
  sent_le := hb.sent_le
  untouched h0 := by
    obtain ⟨h₁, h₂, h₃⟩ := hb.untouched h0
    exact ⟨h₁, h₂, fun a s ha => h₃ a s ((lookup_ppsLog hb.fresh hid (by simp) a).mp ha)⟩
  current a ha := hb.current a ((lookup_ppsLog hb.fresh hid (by simp) a).mp ha)
  scheduled := by
    rw [client_ppsLog, ← hb.scheduled]
    exact exists_congr (lookup_ppsLog hb.fresh hid (by simp))

theorem Budget.step (hb : m.Budget) (hs : step m i = .ok m') : m'.Budget := by
  cases step_cases hs with
  | send _ hid hs => exact (hb.due hid).send hs
  | handleTimeout id seq hid hs =>
    exact hb.recovers (recovers_timeout hid hs) fun h0 => (hb.untouched h0).2.2 id seq hid
  | ppsLog _ hid => exact hb.ppsLog hid
  | read _ hw hs =>
    refine hb.recovers (recovers_readPacket hb.owned hs) fun h0 => ?_
    rw [(hb.untouched h0).1] at hw
    cases hw

theorem Reachable.budget (h : Reachable maxPackets payload m) : m.Budget :=
  h.invariant budget_start fun _ _ _ _ hb hs => hb.step hs

def Exhausted (m : Machine) : Prop := m.client.count ≤ m.client.sent ∧ m.client.sent ≠ 0

theorem Budget.not_scheduled (hb : m.Budget) (he : m.Exhausted) : ¬ m.SendScheduled := by
  rw [hb.scheduled, not_or, Nat.not_lt]
  exact he

theorem Exhausted.step (he : m.Exhausted) (hb : m.Budget) (hs : step m i = .ok m') :
    m'.Exhausted ∧ m'.wire = m.wire ∧
      m'.client.retransmitPackets = m.client.retransmitPackets := by
  have kept : Recovers m m' → m'.Exhausted ∧ m'.wire = m.wire ∧
      m'.client.retransmitPackets = m.client.retransmitPackets := fun hr =>
    ⟨by rw [Exhausted, hr.client]; exact he, hr.wire, by rw [hr.client]⟩
  cases step_cases hs with
  | send id hid => exact absurd ⟨id, hid⟩ (hb.not_scheduled he)
  | handleTimeout _ _ hid hs => exact kept (recovers_timeout hid hs)
  | ppsLog => exact ⟨he, rfl, rfl⟩
  | read _ _ hs => exact kept (recovers_readPacket hb.owned hs)

/-- With the budget used up nothing is transmitted any more. -/
theorem Reachable.exhausted_silent {is : List Input} (h : Reachable maxPackets payload m)
    (he : m.Exhausted) (hrun : Runs.exec step m is = .ok m') :
    m'.Exhausted ∧ m'.wire = m.wire ∧
      m'.client.retransmitPackets = m.client.retransmitPackets :=
  h.along (P := fun m' => m'.Exhausted ∧ m'.wire = m.wire ∧
      m'.client.retransmitPackets = m.client.retransmitPackets) hrun ⟨he, rfl, rfl⟩ <| by
    rintro m₁ i m₂ hr ⟨he, hwire, hretried⟩ hs
    obtain ⟨he', hwire', hretried'⟩ := he.step (Reachable.budget hr) hs
    exact ⟨he', hwire'.trans hwire, hretried'.trans hretried⟩

-- ---------------------------------------------------------------------------
-- The pending events
-- ---------------------------------------------------------------------------

def EveryEvent (m : Machine) (P : EventId → Event → Prop) : Prop :=
  ∀ a ev, m.sim.events.lookup a = some ev → P a ev

section
variable {P : EventId → Event → Prop}

theorem EveryEvent.schedule (he : m.EveryEvent P) {ev : Event} {wire : List Buffer}
    {log : List (Line EventId)} (hev : P m.sim.uid ev) : EveryEvent { m with
      client := c, sim := m.sim.schedule ev, wire := wire, log := log } P := by
  intro a ev' ha
  simp only [Simulator.lookup_schedule] at ha
  split at ha
  · rename_i h
    cases ha
    exact h ▸ hev
  · exact he a ev' ha

theorem EveryEvent.transmitted (he : m.EveryEvent P) (hsend : ∀ a, P a .send)
    (ht : ∀ a s, s < 65536 → P a (.handleTimeout s)) : EveryEvent (m.transmitted h p line) P := by
  have hto : EveryEvent (m.sendTo h p line) P := he.schedule (ht _ _ h.getSeq_lt)
  rcases transmitted_cases with hm | hm <;> rw [hm]
  · exact hto
  · exact hto.schedule (hsend _)

/-- Every step but a report keeps what holds of the pending events, of any `Send`
and of any timeout of a 16-bit number. -/
theorem EveryEvent.step (hb : m.Budget) (he : m.EveryEvent P) (hsend : ∀ a, P a .send)
    (ht : ∀ a s, s < 65536 → P a (.handleTimeout s)) (hs : step m i = .ok m') :
    (m'.EveryEvent P ∧ m'.client.logEvent = m.client.logEvent) ∨
    ∃ id, m.sim.events.lookup id = some .ppsLog ∧
      m' = ppsLog { m with sim := m.sim.cancel id } := by
  cases step_cases hs with
  | send id _ hs =>
    have hcancel : ∀ c : Client, EveryEvent { m with sim := m.sim.cancel id, client := c } P :=
      fun c a ev ha => he a ev (Simulator.lookup_of_cancel ha).2
    refine .inl ⟨?_, by rw [client_send hs]⟩
    cases send_cases hs with
    | waits => exact (hcancel _).schedule (hsend _)
    | fresh => exact (hcancel _).transmitted hsend ht
    | again => exact (hcancel _).transmitted hsend ht
    | skips => exact (hcancel _).schedule (hsend _)
  | handleTimeout _ _ hid hs =>
    have hr := recovers_timeout hid hs
    exact .inl ⟨fun a ev ha => he a ev (hr.events a ev ha), by rw [hr.client]⟩
  | ppsLog id hid => exact .inr ⟨id, hid, rfl⟩
  | read _ _ hs =>
    have hr := recovers_readPacket hb.owned hs
    exact .inl ⟨fun a ev ha => he a ev (hr.events a ev ha), by rw [hr.client]⟩

end

theorem Reachable.timeout_lt (hr : Reachable maxPackets payload m)
    (hid : m.sim.events.lookup id = some (.handleTimeout s)) : s < 65536 := by
  have hevery : m.EveryEvent fun _ ev => ∀ s, ev = .handleTimeout s → s < 65536 := by
    refine hr.invariant (P := (EveryEvent · _)) (fun a ev ha s he => ?_) fun m i m' hr he hs => ?_
    · rw [he, lookup_start] at ha
      split at ha
      · cases ha
      · split at ha <;> cases ha
    · rcases he.step (Reachable.budget hr) (by simp) (by simp) hs with ⟨h, -⟩ | ⟨id, hid, rfl⟩
      · exact h
      · rintro a _ ha s rfl
        exact he a _ ((lookup_ppsLog (Reachable.budget hr).fresh hid (by simp) a).mp ha) s rfl
  exact hevery id _ hid s rfl

theorem Reachable.report_current (hr : Reachable maxPackets payload m)
    (hid : m.sim.events.lookup id = some .ppsLog) : m.client.logEvent = some id := by
  have hevery : m.EveryEvent fun a ev => ev = .ppsLog → m.client.logEvent = some a := by
    refine hr.invariant (P := fun m => m.EveryEvent fun a ev => ev = .ppsLog →
      m.client.logEvent = some a) (fun a ev ha he => ?_) fun m i m' hr he hs => ?_
    · rw [he, lookup_start] at ha
      split at ha
      · cases ha
      · split at ha
        · rename_i h
          exact congrArg some h.symm
        · cases ha
    · rcases he.step (Reachable.budget hr) (by simp) (by simp) hs with ⟨h, hsame⟩ | ⟨id, hid, rfl⟩
      · rwa [hsame]
      · rintro a _ ha rfl
        rw [sim_ppsLog, Simulator.lookup_schedule] at ha
        split at ha
        · rename_i hnew
          exact congrArg some hnew.symm
        · obtain ⟨hne, ha⟩ := Simulator.lookup_of_cancel ha
          exact absurd (Option.some.inj ((he a _ ha rfl).symm.trans (he id _ hid rfl))) hne
  exact hevery id _ hid rfl

theorem step_frame (hb : m.Budget) (hs : step m i = .ok m') :
    m'.client.count = m.client.count ∧ m'.client.payload = m.client.payload ∧
      m'.client.windowSize = m.client.windowSize ∧ m'.client.socket = m.client.socket := by
  cases step_cases hs with
  | send _ _ hs =>
    rw [client_send hs]
    exact ⟨rfl, rfl, rfl, rfl⟩
  | handleTimeout _ _ hid hs =>
    rw [(recovers_timeout hid hs).client]
    exact ⟨rfl, rfl, rfl, rfl⟩
  | ppsLog => exact ⟨rfl, rfl, rfl, rfl⟩
  | read _ _ hs =>
    rw [(recovers_readPacket hb.owned hs).client]
    exact ⟨rfl, rfl, rfl, rfl⟩

def Configured (m : Machine) (maxPackets : UInt32) (payload : Payload) : Prop :=
  m.client.count = maxPackets.toNat ∧ m.client.payload = payload ∧ m.client.windowSize = 10 ∧
    m.client.socket = true

theorem Reachable.configured (h : Reachable maxPackets payload m) :
    m.Configured maxPackets payload :=
  h.invariant (P := (·.Configured maxPackets payload)) ⟨rfl, rfl, rfl, rfl⟩
    fun _ _ _ hr hc hs => by
      obtain ⟨hcount, hpayload, hsize, hsocket⟩ := step_frame (Reachable.budget hr) hs
      exact ⟨hcount.trans hc.1, hpayload.trans hc.2.1, hsize.trans hc.2.2.1, hsocket.trans hc.2.2.2⟩

section
variable (hm : Reachable maxPackets payload m) (hp : payload.createPacket = .ok p)
  (hid : m.sim.events.lookup id = some .send)
include hm hp hid

theorem Reachable.send_returns : ∃ m', send { m with sim := m.sim.cancel id } = .ok m' := by
  obtain ⟨-, hpayload, -, hsocket⟩ := hm.configured
  refine Machine.send_returns ?_ (hpayload ▸ hp) hsocket
  simp [hm.budget.current id hid, Simulator.isExpired]

theorem Reachable.sends_fresh (hlt : m.client.sent + 1 < m.client.count)
    (hr : m.client.retransmit = false) (hw : m.client.windowFull = false) :
    step m (.fire id) = .ok (scheduleTransmit (sendTo
      { m with sim := m.sim.cancel id, client := m.client.takeFresh } (.setSeq m.client.seqNum) p
        .packetSend)) := by
  obtain ⟨m', hs⟩ := hm.send_returns hp hid
  have hstep : step m (.fire id) = .ok m' := by simpa [step, fire, hid] using hs
  have hsent : u32 (m.client.sent + 1) < m.client.count := by
    have := hm.budget.count_lt
    rwa [u32_of_lt (by omega)]
  cases send_cases hs with
  | waits _ hfull => exact absurd hfull (by simp [hw])
  | fresh _ _ _ hp' =>
    rw [show m.client.payload = payload from hm.configured.2.1, hp] at hp'
    cases hp'
    exact hstep.trans (congrArg _ (if_pos hsent))
  | again hr' => exact absurd hr' (by simp [hr])
  | skips hr' => exact absurd hr' (by simp [hr])

theorem Reachable.sends_again (hlt : m.client.sent + 1 < m.client.count)
    (hr : m.client.retransmit = true) (hn : u16 m.client.retransSeq ∉ m.client.retransmitPackets) :
    step m (.fire id) = .ok (scheduleTransmit (sendTo
      { m with sim := m.sim.cancel id, client := m.client.takeRetrans }
        (.setSeq m.client.retransSeq) p .packetRetrans)) := by
  obtain ⟨m', hs⟩ := hm.send_returns hp hid
  have hstep : step m (.fire id) = .ok m' := by simpa [step, fire, hid] using hs
  have hsent : u32 (m.client.takeRetrans.sent + 1) < m.client.takeRetrans.count := by
    have := hm.budget.count_lt
    rw [Client.takeRetrans_eq, Client.takeSkipped_eq]
    dsimp only
    rwa [u32_of_lt (by omega)]
  cases send_cases hs with
  | waits hr' => exact absurd hr' (by simp [hr])
  | fresh hr' => exact absurd hr' (by simp [hr])
  | again _ _ _ hp' =>
    rw [show m.client.payload = payload from hm.configured.2.1, hp] at hp'
    cases hp'
    exact hstep.trans (congrArg _ (if_pos hsent))
  | skips _ ho => exact absurd ho hn

end

theorem Due.u32_seqNum (hd : m.Due) : u32 (m.client.seqNum + 1) = m.client.seqNum + 1 := by
  have := hd.seqNum_le
  have := hd.count_lt
  have := hd.due
  exact u32_of_lt (by omega)

theorem seqNum_transmitted : (m.transmitted h p line).client.seqNum = m.client.seqNum := by
  rw [client_transmitted]

theorem Due.seqNum_mono (hd : m.Due) (hs : m.send = .ok m') :
    m.client.seqNum ≤ m'.client.seqNum := by
  cases send_cases hs with
  | waits => exact Nat.le_refl _
  | fresh =>
    rw [seqNum_transmitted]
    exact Nat.le_trans (Nat.le_succ _) (Nat.le_of_eq hd.u32_seqNum.symm)
  | again => rw [seqNum_transmitted, Client.takeRetrans_eq, Client.takeSkipped_eq]
  | skips =>
    rw [Client.takeSkipped_eq]
    exact Nat.le_refl _

theorem Reachable.seqNum_mono (h : Reachable maxPackets payload m) (hs : step m i = .ok m') :
    m.client.seqNum ≤ m'.client.seqNum := by
  have hb := h.budget
  cases step_cases hs with
  | send _ hid hs => exact (hb.due hid).seqNum_mono hs
  | handleTimeout _ _ hid hs => exact Nat.le_of_eq (recovers_timeout hid hs).seqNum.symm
  | ppsLog => exact Nat.le_refl _
  | read _ _ hs => exact Nat.le_of_eq (recovers_readPacket hb.owned hs).seqNum.symm

-- ---------------------------------------------------------------------------
-- A run
-- ---------------------------------------------------------------------------

/-- Ten packets fill the window. The echo of the second declares the first lost,
the third times out, and `Send` retransmits the first. -/
def gapRun : List Input :=
  ((List.range 10).map fun k => .fire (2 * k + 1)) ++
    [.read [0, 0, 0, 1, 0, 0, 0, 0], .fire 6, .fire 21]

end Machine

end ReliableEcho
