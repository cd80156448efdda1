import ReliableEcho.Machine
import ReliableEcho.ClientLaws

/-!
# What each handler does

One lemma a handler, so that nothing after this module unfolds one.
`send_cases` lists the exits of `Send`. `Recovers` is what `HandleRead` and
`HandleTimeout` leave alone: everything `Send` counts, the packets on the wire,
and every event that is not a timer.
-/

namespace ReliableEcho

open SelectiveRepeat (Line)
open Runs (bind_ok bind_error)
open Client (moveWindow_ok moveWindow_fault)

namespace Machine

variable {m m' : Machine} {h : RdtHeader} {p : Buffer} {line : ℕ → EventId → Line EventId}
  {lines : List (Line EventId)} {seq id : ℕ}

-- ---------------------------------------------------------------------------
-- Scheduling and transmitting
-- ---------------------------------------------------------------------------

@[simp] theorem client_scheduleTransmit :
    m.scheduleTransmit.client = { m.client with sendEvent := some m.sim.uid } := rfl
@[simp] theorem sim_scheduleTransmit : m.scheduleTransmit.sim = m.sim.schedule .send := rfl
@[simp] theorem log_scheduleTransmit : m.scheduleTransmit.log = m.log := rfl

@[simp] theorem client_ppsLog :
    m.ppsLog.client = { m.client with logEvent := some m.sim.uid } := rfl
@[simp] theorem sim_ppsLog : m.ppsLog.sim = m.sim.schedule .ppsLog := rfl
@[simp] theorem log_ppsLog : m.ppsLog.log = m.log := rfl

@[simp] theorem write_nil : m.write [] = m := by simp [write]
@[simp] theorem client_write : (m.write lines).client = m.client := rfl
@[simp] theorem sim_write : (m.write lines).sim = m.sim := rfl
@[simp] theorem log_write : (m.write lines).log = m.log ++ lines := rfl

@[simp] theorem client_sendTo : (m.sendTo h p line).client =
    { m.client with
      timers := m.client.timers.insert h.getSeq m.sim.uid
      sent := u32 (m.client.sent + 1) } := rfl
@[simp] theorem sim_sendTo :
    (m.sendTo h p line).sim = m.sim.schedule (.handleTimeout h.getSeq) := rfl
@[simp] theorem log_sendTo :
    (m.sendTo h p line).log = m.log ++ [line h.getSeq m.sim.uid] := rfl

theorem transmitted_cases : m.transmitted h p line = m.sendTo h p line ∨
    m.transmitted h p line = (m.sendTo h p line).scheduleTransmit := by
  dsimp only [transmitted]
  split
  · exact .inr rfl
  · exact .inl rfl

theorem client_transmitted : (m.transmitted h p line).client = { m.client with
    timers := m.client.timers.insert h.getSeq m.sim.uid
    sent := u32 (m.client.sent + 1)
    sendEvent := (m.transmitted h p line).client.sendEvent } := by
  rcases transmitted_cases with he | he <;> rw [he] <;> rfl

theorem wire_transmitted : (m.transmitted h p line).wire = m.wire ++ [h.serialize ++ p] := by
  rcases transmitted_cases with he | he <;> rw [he] <;> rfl

theorem log_transmitted :
    (m.transmitted h p line).log = m.log ++ [line h.getSeq m.sim.uid] := by
  rcases transmitted_cases with he | he <;> rw [he] <;> rfl

theorem printed_transmitted : (m.transmitted h p line).statics = m.statics ∧
    (m.transmitted h p line).reports = m.reports := by
  rcases transmitted_cases with he | he <;> rw [he] <;> exact ⟨rfl, rfl⟩

theorem transmit_ok : m.transmit h p line = .ok m' ↔
    m.client.socket = true ∧ m' = m.transmitted h p line := by
  unfold transmit
  split <;> simp [*, eq_comm]

-- ---------------------------------------------------------------------------
-- Send
-- ---------------------------------------------------------------------------

/-- The exits of `Send`: window full, fresh packet, retransmission, and an
entry used up without a packet. -/
inductive Sent (m : Machine) : Machine → Prop
  | waits (hr : m.client.retransmit = false) (hfull : m.client.windowFull = true) :
    Sent m m.scheduleTransmit
  | fresh (hr : m.client.retransmit = false) (hw : m.client.windowFull = false) (p : Buffer)
    (hp : m.client.payload.createPacket = .ok p) :
    Sent m (transmitted { m with client := m.client.takeFresh } (.setSeq m.client.seqNum) p
      .packetSend)
  | again (hr : m.client.retransmit = true)
    (hn : u16 m.client.retransSeq ∉ m.client.retransmitPackets) (p : Buffer)
    (hp : m.client.payload.createPacket = .ok p) :
    Sent m (transmitted { m with client := m.client.takeRetrans } (.setSeq m.client.retransSeq) p
      .packetRetrans)
  | skips (hr : m.client.retransmit = true)
    (ho : u16 m.client.retransSeq ∈ m.client.retransmitPackets) :
    Sent m (scheduleTransmit { m with client := m.client.takeSkipped })

theorem send_cases (hs : m.send = .ok m') : m.Sent m' := by
  unfold send at hs
  simp only at hs
  split at hs
  · cases hs
  split at hs
  · rename_i hw
    simp only [Bool.and_eq_true, Bool.not_eq_true'] at hw
    cases hs
    exact .waits hw.2 hw.1
  · rename_i hw
    obtain ⟨p, hp, hs⟩ := bind_ok.mp hs
    split at hs
    · rename_i hr
      have hr : m.client.retransmit = false := by simpa using hr
      have hw : m.client.windowFull = false := by simpa [hr] using hw
      obtain ⟨-, rfl⟩ := transmit_ok.mp hs
      exact .fresh hr hw p hp
    · rename_i hr
      have hr : m.client.retransmit = true := by simpa using hr
      split at hs
      · rename_i hn
        obtain ⟨-, rfl⟩ := transmit_ok.mp hs
        exact .again hr hn p hp
      · rename_i ho
        cases hs
        exact .skips hr (by simpa using ho)

theorem client_send (hs : m.send = .ok m') : m'.client = { m.client with
    sent := m'.client.sent
    sendEvent := m'.client.sendEvent
    seqNum := m'.client.seqNum
    retransmit := m'.client.retransmit
    retransSeq := m'.client.retransSeq
    retransStop := m'.client.retransStop
    packetSent := m'.client.packetSent
    packetRetrans := m'.client.packetRetrans
    retransmissions := m'.client.retransmissions
    timers := m'.client.timers
    retransmitPackets := m'.client.retransmitPackets } := by
  cases send_cases hs with
  | waits => rfl
  | fresh =>
    rw [client_transmitted]
    rfl
  | again => rw [client_transmitted, Client.takeRetrans_eq, Client.takeSkipped_eq]
  | skips => rw [client_scheduleTransmit, Client.takeSkipped_eq]

theorem printed_send (hs : m.send = .ok m') :
    m'.statics = m.statics ∧ m'.reports = m.reports := by
  cases send_cases hs with
  | waits => exact ⟨rfl, rfl⟩
  | fresh => exact printed_transmitted
  | again => exact printed_transmitted
  | skips => exact ⟨rfl, rfl⟩

theorem send_returns (hexp : m.sim.isExpired m.client.sendEvent = true)
    (hp : m.client.payload.createPacket = .ok p) (hs : m.client.socket = true) :
    ∃ m', m.send = .ok m' := by
  have htransmit : ∀ {m : Machine} {h : RdtHeader} {line : ℕ → EventId → Line EventId},
      m.client.socket = true → ∃ m', m.transmit h p line = .ok m' :=
    fun hs => ⟨_, transmit_ok.mpr ⟨hs, rfl⟩⟩
  unfold send
  simp only [hexp, Bool.not_true, Bool.false_eq_true, ↓reduceIte]
  split
  · exact ⟨_, rfl⟩
  simp only [hp, bind, Except.bind]
  split
  · exact htransmit hs
  split
  · refine htransmit ?_
    rw [Client.takeRetrans_eq, Client.takeSkipped_eq]
    exact hs
  · exact ⟨_, rfl⟩

theorem send_error {e : Fault} (hs : m.send = .error e) :
    (e = .sendEventRunning ∧ m.sim.isExpired m.client.sendEvent = false) ∨
    m.client.payload.createPacket = .error e ∨ e = .nullSocket := by
  have htransmit : ∀ {m : Machine} {h : RdtHeader} {p : Buffer} {line : ℕ → EventId → Line EventId},
      m.transmit h p line = .error e → e = .nullSocket := by
    intro m h p line hs
    unfold transmit at hs
    split at hs
    · cases hs
    · exact (Except.error.inj hs).symm
  unfold send at hs
  simp only at hs
  split at hs
  · rename_i hexp
    exact .inl ⟨(Except.error.inj hs).symm, by simpa using hexp⟩
  right
  split at hs
  · cases hs
  rcases bind_error.mp hs with hs | ⟨p, -, hs⟩
  · exact .inl hs
  split at hs
  · exact .inr (htransmit hs)
  split at hs
  · exact .inr (htransmit hs)
  · cases hs

-- ---------------------------------------------------------------------------
-- HandleRead and HandleTimeout
-- ---------------------------------------------------------------------------

/-- Every timer in the map was scheduled, and is a timeout of its key if it is
still pending. -/
def Owned (m : Machine) : Prop :=
  ∀ s a, m.client.timers.lookup s = some a →
    a < m.sim.uid ∧ ∀ ev, m.sim.events.lookup a = some ev → ev = .handleTimeout s

structure Recovers (m m' : Machine) : Prop where
  client : m'.client = { m.client with
    ackNum := m'.client.ackNum
    retransmit := m'.client.retransmit
    retransSeq := m'.client.retransSeq
    retransStop := m'.client.retransStop
    packetLost := m'.client.packetLost
    retransRecv := m'.client.retransRecv
    retransmissions := m'.client.retransmissions
    windowBase := m'.client.windowBase
    timers := m'.client.timers
    receivedPackets := m'.client.receivedPackets }
  wire : m'.wire = m.wire
  uid : m'.sim.uid = m.sim.uid
  /-- Events are only removed, -/
  events : ∀ a ev, m'.sim.events.lookup a = some ev → m.sim.events.lookup a = some ev
  /-- and only timeouts. -/
  others : ∀ a ev, (∀ s, ev ≠ .handleTimeout s) → m.sim.events.lookup a = some ev →
    m'.sim.events.lookup a = some ev
  timers : ∀ s a, m'.client.timers.lookup s = some a → m.client.timers.lookup s = some a
  printed : m'.statics = m.statics ∧ m'.reports = m.reports

namespace Recovers

theorem refl (m : Machine) : Recovers m m :=
  ⟨rfl, rfl, rfl, fun _ _ h => h, fun _ _ _ h => h, fun _ _ h => h, rfl, rfl⟩

theorem trans {m₁ m₂ m₃ : Machine} (h : Recovers m₁ m₂) (h' : Recovers m₂ m₃) : Recovers m₁ m₃ where
  client := by rw [h'.client, h.client]
  wire := h'.wire.trans h.wire
  uid := h'.uid.trans h.uid
  events a ev ha := h.events a ev (h'.events a ev ha)
  others a ev hn ha := h'.others a ev hn (h.others a ev hn ha)
  timers s a ha := h.timers s a (h'.timers s a ha)
  printed := ⟨h'.printed.1.trans h.printed.1, h'.printed.2.trans h.printed.2⟩

theorem of_client {c : Client} (hc : c = { m.client with
    ackNum := c.ackNum
    retransmit := c.retransmit
    retransSeq := c.retransSeq
    retransStop := c.retransStop
    packetLost := c.packetLost
    retransRecv := c.retransRecv
    retransmissions := c.retransmissions
    windowBase := c.windowBase
    timers := c.timers
    receivedPackets := c.receivedPackets })
    (ht : ∀ s a, c.timers.lookup s = some a → m.client.timers.lookup s = some a) :
    Recovers m { m with client := c } :=
  ⟨hc, rfl, rfl, fun _ _ h => h, fun _ _ _ h => h, ht, rfl, rfl⟩

theorem write (m : Machine) (lines : List (Line EventId)) : Recovers m (m.write lines) :=
  ⟨rfl, rfl, rfl, fun _ _ h => h, fun _ _ _ h => h, fun _ _ h => h, rfl, rfl⟩

variable (hr : Recovers m m')
include hr

theorem count : m'.client.count = m.client.count := by
  rw [hr.client]
theorem sent : m'.client.sent = m.client.sent := by
  rw [hr.client]
theorem seqNum : m'.client.seqNum = m.client.seqNum := by
  rw [hr.client]
theorem sendEvent : m'.client.sendEvent = m.client.sendEvent := by
  rw [hr.client]

theorem owned (ho : m.Owned) : m'.Owned := by
  intro s a hs
  obtain ⟨hlt, hev⟩ := ho s a (hr.timers s a hs)
  exact ⟨hr.uid ▸ hlt, fun ev ha => hev ev (hr.events a ev ha)⟩

end Recovers

theorem recovers_cancelTimer (ho : m.Owned) (seq : ℕ) : Recovers m (m.cancelTimer seq) := by
  unfold cancelTimer
  split
  · exact .refl m
  · rename_i id hid
    refine ⟨rfl, rfl, rfl, fun a ev ha => (Simulator.lookup_of_cancel ha).2, ?_,
      fun s a hs => (Finmap.lookup_of_erase hs).2, rfl, rfl⟩
    intro a ev hn ha
    have hne : a ≠ id := fun h => hn seq ((ho seq id hid).2 ev (h ▸ ha))
    simpa [hne] using ha

theorem recovers_cancel {s : ℕ} (hid : m.sim.events.lookup id = some (.handleTimeout s)) :
    Recovers m { m with sim := m.sim.cancel id } where
  client := rfl
  wire := rfl
  uid := rfl
  events _ _ ha := (Simulator.lookup_of_cancel ha).2
  others a ev hn ha := by
    have hne : a ≠ id := by
      rintro rfl
      rw [hid] at ha
      exact hn s (Option.some.inj ha).symm
    simpa [hne] using ha
  timers _ _ h := h
  printed := ⟨rfl, rfl⟩

theorem recovers_queueRetransmission (m : Machine) (seq : ℕ) :
    Recovers m { m with client := m.client.queueRetransmission seq } := by
  have hq := m.client.queueRetransmission_eq seq
  exact .of_client (by rw [hq]) (by rw [hq]; exact fun _ _ h => h)

theorem recovers_gapLoss (ho : m.Owned) (seq : ℕ) : Recovers m (m.gapLoss seq) := by
  unfold gapLoss
  simp only
  split
  · have h₁ : Recovers m
        { m with client := { m.client with packetLost := u32 (m.client.packetLost + 1) } } :=
      .of_client rfl fun _ _ h => h
    have h₂ := (h₁.trans (recovers_queueRetransmission _ seq)).trans
      (.write _ [.packetLoss .gap seq])
    exact h₂.trans (recovers_cancelTimer (h₂.owned ho) seq)
  · exact .refl m

theorem recovers_foldl_gapLoss (ho : m.Owned) (seqs : List ℕ) :
    Recovers m (seqs.foldl gapLoss m) := by
  induction seqs generalizing m with
  | nil => exact .refl m
  | cons seq seqs ih =>
    have h := recovers_gapLoss ho seq
    exact h.trans (ih (h.owned ho))

theorem recovers_classify (ho : m.Owned) (seq : ℕ) : Recovers m (m.classify seq) := by
  unfold classify
  split
  · exact .of_client rfl fun _ _ h => h
  split
  · exact (recovers_foldl_gapLoss ho _).trans (.of_client rfl fun _ _ h => h)
  · have h : Recovers m { m with client :=
        { m.client with retransRecv := u32 (m.client.retransRecv + 1) } } :=
      .of_client rfl fun _ _ h => h
    exact h.trans (.write _ _)

/-- The machine between the timer's cancellation and the window loop. -/
def taken (m : Machine) (seq : ℕ) : Machine :=
  let m := m.cancelTimer seq
  let m := { m with client :=
    { m.client with receivedPackets := insert seq m.client.receivedPackets } }
  (m.write [.received seq]).classify seq

theorem readPacket_ok {packet : Buffer} : m.readPacket packet = .ok m' ↔
    ∃ h data base, RdtHeader.deserialize packet = some (h, data) ∧
      Client.advanceWindow (m.taken h.getSeq).client.receivedPackets (2 ^ 16 + 1)
        (m.taken h.getSeq).client.windowBase = some base ∧
      m' = { m.taken h.getSeq with client :=
        { (m.taken h.getSeq).client with windowBase := base } } := by
  unfold readPacket
  cases hd : RdtHeader.deserialize packet with
  | none => simp
  | some hp =>
    obtain ⟨h, data⟩ := hp
    simp only [bind_ok, moveWindow_ok, Option.some.injEq, Prod.mk.injEq]
    constructor
    · rintro ⟨c, ⟨base, hb, rfl⟩, hm⟩
      exact ⟨h, data, base, ⟨rfl, rfl⟩, hb, (Except.ok.inj hm).symm⟩
    · rintro ⟨_, _, base, ⟨rfl, rfl⟩, hb, rfl⟩
      exact ⟨_, ⟨base, hb, rfl⟩, rfl⟩

theorem readPacket_error {packet : Buffer} {e : Fault} (hs : m.readPacket packet = .error e) :
    e = .headerTruncated ∨ e = .windowLoop := by
  unfold readPacket at hs
  split at hs
  · exact .inl (Except.error.inj hs).symm
  · rcases bind_error.mp hs with hs | ⟨c, -, hs⟩
    · exact .inr (moveWindow_fault hs)
    · cases hs

theorem recovers_taken (ho : m.Owned) (seq : ℕ) : Recovers m (m.taken seq) := by
  have h₁ := recovers_cancelTimer ho seq
  have h₂ : Recovers (m.cancelTimer seq) { m.cancelTimer seq with client :=
      { (m.cancelTimer seq).client with
        receivedPackets := insert seq (m.cancelTimer seq).client.receivedPackets } } :=
    .of_client rfl fun _ _ h => h
  have h₃ := (h₁.trans h₂).trans (.write _ [.received seq])
  exact h₃.trans (recovers_classify (h₃.owned ho) seq)

theorem recovers_readPacket (ho : m.Owned) {packet : Buffer} (hs : m.readPacket packet = .ok m') :
    Recovers m m' := by
  obtain ⟨h, _, base, -, -, rfl⟩ := readPacket_ok.mp hs
  exact (recovers_taken ho h.getSeq).trans (.of_client rfl fun _ _ h => h)

theorem timeoutLoss_ok : m.timeoutLoss seq = .ok m' ↔
    (seq ∉ m.client.retransmitPackets ∧ m' = write { m with client :=
      { m.client with packetLost := u32 (m.client.packetLost + 1) } } [.packetLoss .timeout seq]) ∨
    (seq ∈ m.client.retransmitPackets ∧ ∃ base,
      Client.advanceWindow (insert seq m.client.receivedPackets) (2 ^ 16 + 1)
        m.client.windowBase = some base ∧
      m' = write { m with client := { m.client with
        receivedPackets := insert seq m.client.receivedPackets
        windowBase := base } } [.packetLoss .giveUp seq]) := by
  unfold timeoutLoss
  split
  · rename_i hn
    simp [hn, eq_comm]
  · rename_i hn
    simp only [Decidable.not_not] at hn
    simp only [bind_ok, moveWindow_ok, hn, not_true_eq_false, false_and, false_or, true_and]
    constructor
    · rintro ⟨_, ⟨base, hb, rfl⟩, hm⟩
      exact ⟨base, hb, (Except.ok.inj hm).symm⟩
    · rintro ⟨base, hb, rfl⟩
      exact ⟨_, ⟨base, hb, rfl⟩, rfl⟩

theorem handleTimeout_ok : m.handleTimeout seq = .ok m' ↔ ∃ m₁, m.timeoutLoss seq = .ok m₁ ∧
    m' = { m₁ with client := { m₁.client.queueRetransmission seq with
      timers := (m₁.client.queueRetransmission seq).timers.erase seq } } := by
  unfold handleTimeout
  rw [bind_ok]
  exact exists_congr fun m₁ => and_congr_right fun _ =>
    ⟨fun h => (Except.ok.inj h).symm, fun h => congrArg _ h.symm⟩

theorem handleTimeout_error {e : Fault} (hs : m.handleTimeout seq = .error e) :
    e = .windowLoop := by
  rcases bind_error.mp hs with hs | ⟨m₁, -, hs⟩
  · unfold timeoutLoss at hs
    split at hs
    · cases hs
    · rcases bind_error.mp hs with hs | ⟨c, -, hs⟩
      · exact moveWindow_fault hs
      · cases hs
  · cases hs

theorem recovers_timeoutLoss (hs : m.timeoutLoss seq = .ok m') : Recovers m m' := by
  rcases timeoutLoss_ok.mp hs with ⟨-, rfl⟩ | ⟨-, base, -, rfl⟩
  · have h : Recovers m { m with client :=
        { m.client with packetLost := u32 (m.client.packetLost + 1) } } :=
      .of_client rfl fun _ _ h => h
    exact h.trans (.write _ _)
  · have h : Recovers m { m with client := { m.client with
        receivedPackets := insert seq m.client.receivedPackets, windowBase := base } } :=
      .of_client rfl fun _ _ h => h
    exact h.trans (.write _ _)

theorem recovers_handleTimeout (hs : m.handleTimeout seq = .ok m') : Recovers m m' := by
  obtain ⟨m₁, h, rfl⟩ := handleTimeout_ok.mp hs
  exact ((recovers_timeoutLoss h).trans (recovers_queueRetransmission m₁ seq)).trans
    (.of_client rfl fun s a hs => (Finmap.lookup_of_erase hs).2)

theorem recovers_timeout (hid : m.sim.events.lookup id = some (.handleTimeout seq))
    (hs : handleTimeout (write { m with sim := m.sim.cancel id } [.timeout id seq]) seq = .ok m') :
    Recovers m m' :=
  ((recovers_cancel hid).trans (.write _ [.timeout id seq])).trans (recovers_handleTimeout hs)

-- ---------------------------------------------------------------------------
-- The step
-- ---------------------------------------------------------------------------

theorem handleRead_singleton {packet : Buffer} :
    m.handleRead [packet] = .ok m' ↔ m.readPacket packet = .ok m' := by
  simp only [handleRead, bind_ok]
  exact ⟨fun ⟨_, hp, he⟩ => Except.ok.inj he ▸ hp, fun hp => ⟨m', hp, rfl⟩⟩

/-- The handlers a step may run. -/
inductive Stepped (m : Machine) : Input → Machine → Prop
  | send {m' : Machine} (id : EventId) (hid : m.sim.events.lookup id = some .send)
    (hs : send { m with sim := m.sim.cancel id } = .ok m') : Stepped m (.fire id) m'
  | handleTimeout {m' : Machine} (id : EventId) (seq : ℕ)
    (hid : m.sim.events.lookup id = some (.handleTimeout seq))
    (hs : handleTimeout (write { m with sim := m.sim.cancel id } [.timeout id seq]) seq = .ok m') :
    Stepped m (.fire id) m'
  | ppsLog (id : EventId) (hid : m.sim.events.lookup id = some .ppsLog) :
    Stepped m (.fire id) (ppsLog { m with sim := m.sim.cancel id })
  | read {m' : Machine} (packet : Buffer) (hw : packet ∈ m.wire)
    (hs : m.readPacket packet = .ok m') : Stepped m (.read packet) m'

theorem step_cases {i : Input} (hs : step m i = .ok m') : m.Stepped i m' := by
  cases i with
  | fire id =>
    simp only [step, fire] at hs
    split at hs
    · cases hs
    · rename_i ev hid
      cases ev with
      | send => exact .send id hid hs
      | handleTimeout seq => exact .handleTimeout id seq hid hs
      | ppsLog =>
        cases hs
        exact .ppsLog id hid
  | read packet =>
    simp only [step] at hs
    split at hs
    · exact .read packet ‹_› (handleRead_singleton.mp hs)
    · cases hs

theorem step_error {i : Input} {e : Fault} (hs : step m i = .error e) :
    e = .notEnabled ∨
    (∃ id, i = .fire id ∧ m.sim.events.lookup id = some .send ∧
      send { m with sim := m.sim.cancel id } = .error e) ∨
    e = .headerTruncated ∨ e = .windowLoop := by
  cases i with
  | fire id =>
    simp only [step, fire] at hs
    split at hs
    · exact .inl (Except.error.inj hs).symm
    · rename_i ev hid
      cases ev with
      | send => exact .inr (.inl ⟨id, rfl, hid, hs⟩)
      | handleTimeout seq => exact .inr (.inr (.inr (handleTimeout_error hs)))
      | ppsLog => cases hs
  | read packet =>
    simp only [step] at hs
    split at hs
    · rcases bind_error.mp hs with hs | ⟨m₁, -, hs⟩
      · exact .inr (.inr (readPacket_error hs))
      · cases hs
    · exact .inl (Except.error.inj hs).symm

theorem fire_wire (hs : m.fire id = .ok m') :
    m'.wire = m.wire ∨ ∃ packet, m'.wire = m.wire ++ [packet] := by
  have hs : step m (.fire id) = .ok m' := hs
  cases step_cases hs with
  | send _ _ hs =>
    cases send_cases hs with
    | waits => exact .inl rfl
    | fresh => exact .inr ⟨_, wire_transmitted⟩
    | again => exact .inr ⟨_, wire_transmitted⟩
    | skips => exact .inl rfl
  | handleTimeout _ _ hid hs => exact .inl (recovers_timeout hid hs).wire
  | ppsLog => exact .inl rfl

end Machine

end ReliableEcho
