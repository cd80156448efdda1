import ReliableEcho.Echoes
import ReliableEcho.Refinement

/-!
# The window

While the fresh numbers fit in 16 bits, `m_windowBase` is the least number not
received and the window bounds what is unresolved. Beyond that, entries of
`m_receivedPackets` are never removed, and the loop that advances the base
never ends once every 16-bit number is in the set.
-/

namespace ReliableEcho

open SelectiveRepeat (Line)
open Runs (bind_error exec EachStep)
open Client (moveWindow_error moveWindow_windowLoop)

namespace Machine

variable {m m' : Machine} {seq s : ℕ} {i : Input} {maxPackets : UInt32} {payload : Payload}

/-- The base is the least number not received, and the numbers from the base up
to the next fresh one are never more than the window holds. -/
theorem window_safe (h : Reachable maxPackets payload m) (hseq : m.client.seqNum ≤ 65535) :
    (m.client.windowBase ∉ m.client.receivedPackets ∧
      ∀ s < m.client.windowBase, s ∈ m.client.receivedPackets) ∧
    m.client.windowBase ≤ m.client.seqNum ∧
    m.client.seqNum ≤ m.client.windowBase + m.client.windowSize ∧
    u32 (m.client.seqNum + 2 ^ 32 - m.client.windowBase) =
      m.client.seqNum - m.client.windowBase ∧
    ((Finset.range m.client.seqNum).filter (· ∉ m.client.receivedPackets)).card ≤
      m.client.windowSize := by
  obtain ⟨hi, hl⟩ := h.laws hseq
  have ok := hl.ok
  have hf := hi.faithful
  refine ⟨⟨?_, fun s hs => ?_⟩, hf.windowBase_le ok, ?_, hf.sub_windowBase ok hseq, ?_⟩
  · rw [hf.windowBase]
    exact Cursor.leastMissing_notMem _
  · rw [hf.windowBase] at hs
    exact Cursor.mem_of_lt_leastMissing hs
  · rw [hf.windowBase, hf.windowSize]
    exact ok.window
  · rw [hf.windowSize]
    exact ok.unresolved_le

theorem window_safe_after_gap : ∃ m, exec step (start 20 ⟨4, 0, none⟩) gapRun = .ok m ∧
    0 ∉ m.client.receivedPackets ∧ 10 ≤ m.client.windowSize ∧
    ((Finset.range 10).filter (· ∉ m.client.receivedPackets)).card ≤ m.client.windowSize := by
  obtain ⟨m, hm, hseq, hbase⟩ : ∃ m, exec step (start 20 ⟨4, 0, none⟩) gapRun = .ok m ∧
      m.client.seqNum = 10 ∧ m.client.windowBase = 0 := ⟨_, rfl, rfl, rfl⟩
  obtain ⟨⟨hmissing, -⟩, -, hroom, -, hunresolved⟩ := window_safe ⟨_, hm⟩ (by omega)
  rw [hseq] at hroom hunresolved
  rw [hbase] at hmissing hroom
  exact ⟨m, hm, hmissing, by omega, hunresolved⟩

-- ---------------------------------------------------------------------------
-- The window loop
-- ---------------------------------------------------------------------------

/-- Some 16-bit number other than `seq` has not been received. -/
def Misses (m : Machine) (seq : ℕ) : Prop := ∃ k < 65536, k ≠ seq ∧ k ∉ m.client.receivedPackets

/-- The number that an input adds to the received ones does not complete the
16-bit numbers. -/
def StillMisses (m : Machine) : Input → Prop
  | .read packet => packet ∈ m.wire →
    ∀ h data, RdtHeader.deserialize packet = some (h, data) → m.Misses h.getSeq
  | .fire id => ∀ seq, m.sim.events.lookup id = some (.handleTimeout seq) →
    seq ∈ m.client.retransmitPackets → m.Misses seq

theorem not_misses : ¬ m.Misses seq ↔ ∀ k < 65536, k ∈ insert seq m.client.receivedPackets := by
  simp only [Misses, Finset.mem_insert]
  grind

theorem send_windowLoop : m.send ≠ .error .windowLoop := by
  intro hs
  rcases send_error hs with ⟨h, -⟩ | h | h
  · cases h
  · rcases Client.createPacket_error h with h | h <;> cases h
  · cases h

theorem readPacket_windowLoop {packet : Buffer} : m.readPacket packet = .error .windowLoop ↔
    ∃ h data, RdtHeader.deserialize packet = some (h, data) ∧ ¬ m.Misses h.getSeq := by
  unfold readPacket
  cases hd : RdtHeader.deserialize packet with
  | none => simp
  | some found =>
    obtain ⟨h, data⟩ := found
    have hloop : (m.taken h.getSeq).client.moveWindow = .error .windowLoop ↔
        ¬ m.Misses h.getSeq := by
      rw [moveWindow_error, (absorbs_taken m h.getSeq_lt).client, not_misses]
    simp only [bind_error, reduceCtorEq, and_false, exists_false, or_false]
    refine hloop.trans ⟨fun hn => ⟨h, data, rfl, hn⟩, ?_⟩
    rintro ⟨_, _, ⟨⟩, hn⟩
    exact hn

theorem handleTimeout_windowLoop : m.handleTimeout seq = .error .windowLoop ↔
    seq ∈ m.client.retransmitPackets ∧ ¬ m.Misses seq := by
  unfold handleTimeout
  simp only [bind_error, reduceCtorEq, and_false, exists_false, or_false]
  unfold timeoutLoss
  split
  · rename_i hn
    simp [hn]
  · rename_i hn
    simp only [Decidable.not_not] at hn
    simp only [bind_error, reduceCtorEq, and_false, exists_false, or_false, hn, true_and]
    rw [moveWindow_error, not_misses]

theorem step_windowLoop : step m i = .error .windowLoop ↔ ¬ m.StillMisses i := by
  cases i with
  | fire id =>
    simp only [step, fire, StillMisses]
    split
    · rename_i hid
      simp [hid]
    · rename_i ev hid
      cases ev with
      | send => simp [hid, send_windowLoop]
      | handleTimeout seq => simp [hid, handleTimeout_windowLoop, Misses]
      | ppsLog => simp [hid]
  | read packet =>
    simp only [step, StillMisses]
    split
    · rename_i hw
      simp only [handleRead, bind_error, readPacket_windowLoop, hw]
      simp
    · rename_i hw
      simp [hw]

/-- The window loops of a run end exactly when no number added to the received
ones completes the 16-bit numbers. -/
theorem window_loop_ends_iff (is : List Input) :
    (∀ c : Client, c.moveWindow = .error .windowLoop ↔
      ∀ fuel, Client.advanceWindow c.receivedPackets fuel c.windowBase = none) ∧
    (exec step (start maxPackets payload) is ≠ .error .windowLoop ↔
      EachStep step StillMisses (start maxPackets payload) is) :=
  ⟨fun _ => moveWindow_windowLoop, Runs.exec_ne_error_iff fun _ _ => step_windowLoop⟩

/-- While the fresh numbers fit, 65535 is missing and every window loop ends. -/
theorem Reachable.stillMisses (h : Reachable maxPackets payload m)
    (hseq : m.client.seqNum ≤ 65535) (i : Input) : m.StillMisses i := by
  obtain ⟨hi, hl⟩ := h.laws hseq
  have misses : ∀ seq < m.client.seqNum, m.Misses seq := by
    intro seq hlt
    refine ⟨65535, by decide, by omega, fun hr => ?_⟩
    have : 65535 < m.client.seqNum := hl.ok.received_lt _ hr
    omega
  cases i with
  | fire id =>
    exact fun seq hid _ => misses seq (hl.ok.timer_lt seq id ((hi.faithful.exact seq id).mpr hid))
  | read packet =>
    intro hw h data hd
    obtain ⟨e, he, hseqe⟩ := hi.wired.getSeq hw hd
    exact misses _ (hseqe ▸ hl.ordered.sent_lt e he)

-- ---------------------------------------------------------------------------
-- A run whose window loop never ends
-- ---------------------------------------------------------------------------

def echo (seq : ℕ) : Buffer := (RdtHeader.setSeq seq).serialize ++ List.replicate 1024 0

theorem packet_1024 : ∃ p, Payload.createPacket ⟨1024, 0, none⟩ = .ok p := ⟨_, rfl⟩

/-- `n` packets are sent and echoed in turn, none lost. -/
def losslessRun : ℕ → List Input
  | 0 => []
  | n + 1 => losslessRun n ++ [.fire (2 * n + 1), .read (echo n)]

/-- The machine after `n` packets were sent and echoed, `Send` being due. -/
structure Lossless (n : ℕ) (m : Machine) : Prop where
  count : m.client.count = 1000000
  payload : m.client.payload = ⟨1024, 0, none⟩
  sent : m.client.sent = n
  socket : m.client.socket = true
  sendEvent : m.client.sendEvent = some (2 * n + 1)
  seqNum : m.client.seqNum = n
  ackNum : m.client.ackNum = n
  retransmit : m.client.retransmit = false
  windowSize : m.client.windowSize = 10
  windowBase : m.client.windowBase = n
  timers : m.client.timers = ∅
  received : m.client.receivedPackets = Finset.range n
  uid : m.sim.uid = 2 * n + 2
  due : m.sim.events.lookup (2 * n + 1) = some .send

theorem lossless_start : Lossless 0 (start 1000000 ⟨1024, 0, none⟩) := by
  constructor <;> rfl

theorem classify_expected (h : seq = m.client.ackNum) : m.classify seq =
    { m with client := { m.client with ackNum := u32 (m.client.ackNum + 1) } } :=
  if_pos h

def Lossless.next (m : Machine) (n : ℕ) : Machine :=
  (sendTo { m with sim := m.sim.cancel (2 * n + 1), client := m.client.takeFresh }
    (.setSeq n) (List.replicate 1024 0) .packetSend).scheduleTransmit

theorem Lossless.wire_next {n : ℕ} : echo n ∈ (Lossless.next m n).wire :=
  List.mem_append_right m.wire (List.mem_singleton_self (echo n))

theorem deserialize_echo {n : ℕ} :
    RdtHeader.deserialize (echo n) = some (.setSeq n, List.replicate 1024 0) :=
  RdtHeader.deserialize_serialize _ _

section
variable {n : ℕ} (h : Lossless n m)
include h

theorem Lossless.uid_next : (Lossless.next m n).sim.uid = 2 * n + 4 := by
  have huid : (Lossless.next m n).sim.uid = m.sim.uid + 2 := rfl
  rw [huid, h.uid]

variable (hn : n < 65536)
include hn

theorem Lossless.send : step m (.fire (2 * n + 1)) = .ok (Lossless.next m n) := by
  have hexp : (m.sim.cancel (2 * n + 1)).isExpired m.client.sendEvent = true := by
    simp [h.sendEvent, Simulator.isExpired]
  have hfull : m.client.windowFull = false := by
    simp [Client.windowFull, h.windowSize, h.seqNum, h.windowBase, u32]
  have hpacket : m.client.payload.createPacket = .ok (List.replicate 1024 0) := by
    rw [h.payload]
    rfl
  have hlt : u32 (m.client.sent + 1) < m.client.count := by
    rw [h.sent, h.count, u32_of_lt (by omega)]
    omega
  have hnext : transmitted
      { m with sim := m.sim.cancel (2 * n + 1), client := m.client.takeFresh }
      (.setSeq n) (List.replicate 1024 0) .packetSend = Lossless.next m n := by
    dsimp only [transmitted]
    exact if_pos hlt
  simp only [step, fire, h.due, Machine.send, hexp, hfull, hpacket, h.retransmit, h.seqNum,
    Bool.not_true, Bool.false_eq_true, ↓reduceIte, Bool.false_and]
  exact transmit_ok.mpr ⟨h.socket, hnext.symm⟩

/-- The echo of packet 65535 completes the 16-bit numbers. -/
theorem Lossless.stuck (hlast : n = 65535) :
    step (Lossless.next m n) (.read (echo n)) = .error .windowLoop := by
  rw [step_windowLoop]
  intro hmiss
  obtain ⟨k, hk, hne, hout⟩ := hmiss Lossless.wire_next _ _ deserialize_echo
  rw [RdtHeader.getSeq_setSeq, u16_of_lt hn] at hne
  have hr : (Lossless.next m n).client.receivedPackets = Finset.range n := h.received
  rw [hr, Finset.mem_range] at hout
  omega

theorem Lossless.client_next : (Lossless.next m n).client = { m.client with
    seqNum := n + 1
    packetSent := u32 (m.client.packetSent + 1)
    timers := m.client.timers.insert n (2 * n + 2)
    sent := n + 1
    sendEvent := some (2 * n + 3) } := by
  have h32 : u32 (n + 1) = n + 1 := u32_of_lt (by omega)
  simp only [Lossless.next, client_scheduleTransmit, client_sendTo, sim_sendTo,
    RdtHeader.getSeq_setSeq, u16_of_lt hn, Client.takeFresh, Simulator.uid_schedule,
    Simulator.uid_cancel, h.seqNum, h.sent, h.uid, h32]

theorem Lossless.lookup_next (a : ℕ) : (Lossless.next m n).sim.events.lookup a =
    if a = 2 * n + 3 then some .send else if a = 2 * n + 2 then some (.handleTimeout n)
      else if a = 2 * n + 1 then none else m.sim.events.lookup a := by
  have hsim : (Lossless.next m n).sim = Simulator.schedule (Simulator.schedule
      (m.sim.cancel (2 * n + 1)) (.handleTimeout (RdtHeader.setSeq n).getSeq)) .send := rfl
  rw [hsim, Simulator.lookup_schedule, Simulator.lookup_schedule, Simulator.lookup_cancel,
    Simulator.uid_schedule, Simulator.uid_cancel, h.uid, RdtHeader.getSeq_setSeq, u16_of_lt hn]

theorem Lossless.taken_next : (Lossless.next m n).taken n =
    { Lossless.next m n with
      sim := (Lossless.next m n).sim.cancel (2 * n + 2)
      client := { (Lossless.next m n).client with
        timers := ∅, receivedPackets := Finset.range (n + 1), ackNum := n + 1 }
      log := (Lossless.next m n).log ++ [.received n] } := by
  have hc := h.client_next hn
  have hlook : (Lossless.next m n).client.timers.lookup n = some (2 * n + 2) := by
    rw [hc]
    exact Finmap.lookup_insert _
  have herase : (Lossless.next m n).client.timers.erase n = ∅ := by
    rw [hc, h.timers]
    refine Finmap.ext_lookup fun s => ?_
    rw [Finmap.lookup_erase_eq, Finmap.lookup_insert_eq]
    split <;> rfl
  have hcancel : (Lossless.next m n).cancelTimer n = { Lossless.next m n with
      sim := (Lossless.next m n).sim.cancel (2 * n + 2)
      client := { (Lossless.next m n).client with timers := ∅ } } := by
    unfold cancelTimer
    rw [hlook, ← herase]
  have hack : (Lossless.next m n).client.ackNum = n := by
    rw [hc]
    exact h.ackNum
  have hrange : insert n (Lossless.next m n).client.receivedPackets = Finset.range (n + 1) := by
    rw [hc, Finset.range_add_one, ← h.received]
  unfold taken
  rw [hcancel]
  dsimp only
  rw [hrange]
  refine (classify_expected ?_).trans ?_
  · exact hack.symm
  · simp [write, hack, u32_of_lt (show n + 1 < 4294967296 by omega)]

theorem Lossless.read (hlast : n ≠ 65535) : ∃ m',
    step (Lossless.next m n) (.read (echo n)) = .ok m' ∧ Lossless (n + 1) m' := by
  have hc := h.client_next hn
  have hseq : (RdtHeader.setSeq n).getSeq = n := by rw [RdtHeader.getSeq_setSeq, u16_of_lt hn]
  have hleast : Cursor.leastMissing (Finset.range (n + 1)) = n + 1 :=
    (Cursor.eq_leastMissing (by simp) (by simp)).symm
  have hloop : Client.advanceWindow (Finset.range (n + 1)) (2 ^ 16 + 1) n = some (n + 1) := by
    have hw : Client.advanceWindow (Finset.range (n + 1)) (2 ^ 16 + 1) n = some _ :=
      Client.advanceWindow_eq (by omega) (by omega)
    rwa [hleast] at hw
  have hread : (Lossless.next m n).readPacket (echo n) = .ok { (Lossless.next m n).taken n with
      client := { ((Lossless.next m n).taken n).client with windowBase := n + 1 } } := by
    refine readPacket_ok.mpr ⟨_, _, n + 1, deserialize_echo, ?_, by rw [hseq]⟩
    rw [hseq, h.taken_next hn, hc]
    simpa [h.windowBase] using hloop
  refine ⟨_, (if_pos Lossless.wire_next).trans (handleRead_singleton.mpr hread), ?_⟩
  rw [h.taken_next hn, hc]
  refine ⟨h.count, h.payload, rfl, h.socket, ?_, rfl, rfl, h.retransmit, h.windowSize, rfl, rfl,
    rfl, ?_, ?_⟩
  · exact congrArg some (show 2 * n + 3 = 2 * (n + 1) + 1 by omega)
  · exact h.uid_next
  · rw [Simulator.lookup_cancel, if_neg (by omega), h.lookup_next hn, if_pos (by omega)]

end

theorem lossless_exec : ∀ n ≤ 65535, ∃ m,
    exec step (start 1000000 ⟨1024, 0, none⟩) (losslessRun n) = .ok m ∧ Lossless n m
  | 0, _ => ⟨_, rfl, lossless_start⟩
  | n + 1, hn => by
    obtain ⟨m, hm, h⟩ := lossless_exec n (by omega)
    obtain ⟨m', hread, h'⟩ := h.read (by omega) (by omega)
    refine ⟨m', Runs.exec_append.mpr ⟨m, hm, ?_⟩, h'⟩
    exact Runs.exec_cons.mpr ⟨_, h.send (by omega), Runs.exec_cons.mpr ⟨m', hread, rfl⟩⟩

/-- With the packets `assn3.cc` configures and none of them lost, the echo of
the 65536th leaves `HandleRead` in a loop that never ends. -/
theorem window_loop_stuck : ∃ m,
    exec step (start 1000000 ⟨1024, 0, none⟩) (losslessRun 65535 ++ [.fire 131071]) = .ok m ∧
    step m (.read (echo 65535)) = .error .windowLoop ∧
    ∀ c : Client, c.moveWindow = .error .windowLoop →
      ∀ fuel, Client.advanceWindow c.receivedPackets fuel c.windowBase = none := by
  obtain ⟨m, hm, h⟩ := lossless_exec 65535 (by omega)
  refine ⟨Lossless.next m 65535, ?_, h.stuck (by omega) rfl, fun _ => moveWindow_windowLoop.mp⟩
  exact Runs.exec_snoc.mpr ⟨m, hm, h.send (by omega)⟩

end Machine

end ReliableEcho
