import ReliableEcho.Client
import ReliableEcho.SelectiveRepeat.Sender
import Mathlib.Data.Finset.Sort

/-!
# The client's handlers

A `Machine` is a client with its share of the simulator and what it has output
so far: the packets handed to the socket, the log, and the reports of `PpsLog`.
The log is that of `NS_LOG_INFO`, with the timer of each transmission and the
cause of each loss added, and a line for every echo taken. Its numbers are those
in the headers; from 65536 on the program prints `m_seqNum` and `m_retransSeq` as
they are, in 32 bits.

A run is a list of inputs: the simulator runs a pending event, or the socket
has an echo of a packet sent before. Echoes may be lost, repeated and
reordered at will.
-/

namespace ReliableEcho

open SelectiveRepeat (Line)

/-- The static counters of `PpsLog`, and a report of it. -/
structure PpsCounters where
  packetSent : ℕ
  packetLost : ℕ
  packetRetrans : ℕ
  deriving DecidableEq, Repr

structure Machine where
  client : Client
  sim : Simulator
  statics : PpsCounters
  wire : List Buffer
  log : List (Line EventId)
  reports : List PpsCounters

namespace Machine

def write (m : Machine) (lines : List (Line EventId)) : Machine := { m with log := m.log ++ lines }

-- ---------------------------------------------------------------------------
-- Scheduling
-- ---------------------------------------------------------------------------

def scheduleTransmit (m : Machine) : Machine :=
  { m with sim := m.sim.schedule .send, client := { m.client with sendEvent := some m.sim.uid } }

def schedulePpsLog (m : Machine) : Machine :=
  { m with sim := m.sim.schedule .ppsLog, client := { m.client with logEvent := some m.sim.uid } }

def ppsLog (m : Machine) : Machine :=
  let now : PpsCounters :=
    ⟨m.client.packetSent, m.client.packetLost, m.client.packetRetrans⟩
  let report : PpsCounters :=
    ⟨u32 (now.packetSent + 2 ^ 32 - m.statics.packetSent),
     u32 (now.packetLost + 2 ^ 32 - m.statics.packetLost),
     u32 (now.packetRetrans + 2 ^ 32 - m.statics.packetRetrans)⟩
  schedulePpsLog { m with statics := now, reports := m.reports ++ [report] }

def cancelTimer (m : Machine) (seq : ℕ) : Machine :=
  match m.client.timers.lookup seq with
  | none => m
  | some id =>
    { m with sim := m.sim.cancel id, client := { m.client with timers := m.client.timers.erase seq } }

-- ---------------------------------------------------------------------------
-- Send
-- ---------------------------------------------------------------------------

/-- `Send` starts the timer, adds the header and hands the packet to the socket. -/
def sendTo (m : Machine) (h : RdtHeader) (p : Buffer) (line : ℕ → EventId → Line EventId) : Machine :=
  { m with
    sim := m.sim.schedule (.handleTimeout h.getSeq)
    client := { m.client with
      timers := m.client.timers.insert h.getSeq m.sim.uid
      sent := u32 (m.client.sent + 1) }
    wire := m.wire ++ [h.serialize ++ p]
    log := m.log ++ [line h.getSeq m.sim.uid] }

/-- The end of `Send`, which schedules the next one while the budget lasts. -/
def transmitted (m : Machine) (h : RdtHeader) (p : Buffer) (line : ℕ → EventId → Line EventId) :
    Machine :=
  let m := m.sendTo h p line
  if m.client.sent < m.client.count then m.scheduleTransmit else m

def transmit (m : Machine) (h : RdtHeader) (p : Buffer) (line : ℕ → EventId → Line EventId) :
    Except Fault Machine :=
  if m.client.socket then .ok (m.transmitted h p line) else .error .nullSocket

def send (m : Machine) : Except Fault Machine :=
  let c := m.client
  if !m.sim.isExpired c.sendEvent then .error .sendEventRunning
  else if c.windowFull && !c.retransmit then .ok m.scheduleTransmit
  else do
    let p ← c.payload.createPacket
    if !c.retransmit then
      transmit { m with client := c.takeFresh } (.setSeq c.seqNum) p .packetSend
    else if u16 c.retransSeq ∉ c.retransmitPackets then
      transmit { m with client := c.takeRetrans } (.setSeq c.retransSeq) p .packetRetrans
    else
      -- already retransmitted: the entry is used up and nothing is sent
      .ok (scheduleTransmit { m with client := c.takeSkipped })

-- ---------------------------------------------------------------------------
-- HandleRead
-- ---------------------------------------------------------------------------

/-- The body of the gap loop of `HandleRead`. -/
def gapLoss (m : Machine) (lostSeq : ℕ) : Machine :=
  let c := m.client
  if lostSeq ∉ c.receivedPackets ∧ lostSeq ∉ c.retransmitPackets then
    let counted := { c with packetLost := u32 (c.packetLost + 1) }
    (write { m with client := counted.queueRetransmission lostSeq }
      [.packetLoss .gap lostSeq]).cancelTimer lostSeq
  else m

/-- `for(uint16_t lostSeq=m_ackNum; lostSeq<seq; ++lostSeq)` -/
def gapLoop (m : Machine) (seq : ℕ) : Machine :=
  (List.range' (u16 m.client.ackNum) (seq - u16 m.client.ackNum)).foldl gapLoss m

/-- The three branches of `HandleRead` on `seq` and `m_ackNum`. -/
def classify (m : Machine) (seq : ℕ) : Machine :=
  if seq = m.client.ackNum then
    { m with client := { m.client with ackNum := u32 (m.client.ackNum + 1) } }
  else if m.client.ackNum < seq then
    let m := m.gapLoop seq
    { m with client := { m.client with ackNum := u32 (seq + 1) } }
  else
    write { m with client := { m.client with retransRecv := u32 (m.client.retransRecv + 1) } }
      [.receiveRetrans seq]

/-- One turn of the loop of `HandleRead`, for one packet. -/
def readPacket (m : Machine) (packet : Buffer) : Except Fault Machine :=
  match RdtHeader.deserialize packet with
  | none => .error .headerTruncated
  | some (h, _) => do
    let seq := h.getSeq
    let m := m.cancelTimer seq
    let m := { m with client :=
      { m.client with receivedPackets := insert seq m.client.receivedPackets } }
    let m := (m.write [.received seq]).classify seq
    let c ← m.client.moveWindow
    .ok { m with client := c }

/-- `HandleRead` takes every packet the socket holds. -/
def handleRead (m : Machine) : List Buffer → Except Fault Machine
  | [] => .ok m
  | packet :: packets => do
    let m ← m.readPacket packet
    m.handleRead packets

-- ---------------------------------------------------------------------------
-- HandleTimeout
-- ---------------------------------------------------------------------------

/-- What `HandleTimeout` does with the packet itself: its loss is counted, or
it is given up. -/
def timeoutLoss (m : Machine) (seq : ℕ) : Except Fault Machine :=
  if seq ∉ m.client.retransmitPackets then
    .ok (write { m with client :=
      { m.client with packetLost := u32 (m.client.packetLost + 1) } } [.packetLoss .timeout seq])
  else do
    let received := { m.client with receivedPackets := insert seq m.client.receivedPackets }
    let c ← received.moveWindow
    .ok (write { m with client := c } [.packetLoss .giveUp seq])

def handleTimeout (m : Machine) (seq : ℕ) : Except Fault Machine := do
  let m ← m.timeoutLoss seq
  let c := m.client.queueRetransmission seq
  .ok { m with client := { c with timers := c.timers.erase seq } }

-- ---------------------------------------------------------------------------
-- Runs
-- ---------------------------------------------------------------------------

def startApplication (m : Machine) : Machine :=
  (schedulePpsLog { m with client := { m.client with socket := true } }).scheduleTransmit

/-- The events of `m_timers`, in the order of the keys. -/
def timerEvents (m : Machine) : List EventId :=
  (m.client.timers.keys.sort).filterMap m.client.timers.lookup

/-- The loop of `StopApplication` over `m_timers`. -/
def cancelRunning (sim : Simulator) (ids : List EventId) : Simulator :=
  ids.foldl (fun sim id => if sim.isExpired (some id) then sim else sim.cancel id) sim

/-- `PpsLog` reports once more and schedules itself again, before the last two
events are cancelled. -/
def stopApplication (m : Machine) : Machine :=
  let sim := cancelRunning m.sim m.timerEvents
  let m := { m with client := { m.client with socket := false, timers := ∅ }, sim := sim }
  let m := ppsLog { m with sim := m.sim.cancelEvent m.client.logEvent }
  { m with sim := (m.sim.cancelEvent m.client.sendEvent).cancelEvent m.client.logEvent }

def start (maxPackets : UInt32) (payload : Payload) : Machine :=
  startApplication
    { client := .new maxPackets payload, sim := .empty, statics := ⟨0, 0, 0⟩,
      wire := [], log := [], reports := [] }

/-- The simulator runs a pending event, which is then no longer pending. -/
def fire (m : Machine) (id : EventId) : Except Fault Machine :=
  match m.sim.events.lookup id with
  | none => .error .notEnabled
  | some ev =>
    let m := { m with sim := m.sim.cancel id }
    match ev with
    | .send => m.send
    | .handleTimeout seq => (m.write [.timeout id seq]).handleTimeout seq
    | .ppsLog => .ok m.ppsLog

inductive Input
  | fire (id : EventId)
  | read (packet : Buffer)
  deriving DecidableEq, Repr

/-- The client takes an input: an event that is pending, or an echo of a packet
it has sent. -/
def step (m : Machine) : Input → Except Fault Machine
  | .fire id => m.fire id
  | .read packet => if packet ∈ m.wire then m.handleRead [packet] else .error .notEnabled

/-- The states between `StartApplication` and `StopApplication`. -/
abbrev Reachable (maxPackets : UInt32) (payload : Payload) (m : Machine) : Prop :=
  Runs.Reachable step (start maxPackets payload) m

end Machine

end ReliableEcho
