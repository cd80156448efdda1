import ReliableEcho.Header
import ReliableEcho.Simulator
import ReliableEcho.Lib.Cursor
import Mathlib.Data.Finset.Insert
import Mathlib.Algebra.Order.Field.Rat

/-!
# The client's data

The fields of `UdpReliableEchoClient` under their own names, without the `m_`,
and the parts of its handlers that touch only them. Addresses and trace sinks
are left out: no decision of the client reads them. `m_interval` and `m_rto`
are left out with time itself.
-/

namespace ReliableEcho

open Cursor (whileHit)

/-- How a handler can fail to return. -/
inductive Fault
  /-- `NS_ASSERT (m_sendEvent.IsExpired ())` -/
  | sendEventRunning
  /-- `NS_ASSERT_MSG (m_dataSize == m_size, ..)` -/
  | sizeInconsistent
  /-- `NS_ASSERT_MSG (m_data, ..)` -/
  | noData
  /-- a call on the null `m_socket` -/
  | nullSocket
  /-- a packet too short for its header -/
  | headerTruncated
  /-- the loop that advances `m_windowBase` never ends -/
  | windowLoop
  /-- not a fault of the client: the input is not one it can get here -/
  | notEnabled
  deriving DecidableEq, Repr

/-- `m_size`, `m_dataSize` and the buffer `m_data` points to. -/
structure Payload where
  size : ℕ
  dataSize : ℕ
  data : Option Buffer
  deriving DecidableEq, Repr

/-- The packet `Send` creates before the header is added. Bytes the client does
not care about are zero. -/
def Payload.createPacket (p : Payload) : Except Fault Buffer :=
  if p.dataSize ≠ 0 then
    if p.dataSize ≠ p.size then .error .sizeInconsistent
    else match p.data with
      | none => .error .noData
      | some data => .ok (data.take p.dataSize)
  else .ok (List.replicate p.size 0)

structure Client where
  count : ℕ
  payload : Payload
  sent : ℕ
  socket : Bool
  sendEvent : Option EventId
  seqNum : ℕ
  ackNum : ℕ
  retransmit : Bool
  retransSeq : ℕ
  retransStop : ℕ
  packetSent : ℕ
  packetRetrans : ℕ
  packetLost : ℕ
  retransRecv : ℕ
  retransmissions : List (ℕ × ℕ)
  windowSize : ℕ
  windowBase : ℕ
  logEvent : Option EventId
  timers : Finmap fun _ : ℕ => EventId
  receivedPackets : Finset ℕ
  retransmitPackets : Finset ℕ

namespace Client

/-- The constructor, with the attributes `MaxPackets` and `PacketSize` or the
`SetFill` data already set. -/
def new (maxPackets : UInt32) (payload : Payload) : Client where
  count := maxPackets.toNat
  payload := payload
  sent := 0
  socket := false
  sendEvent := none
  seqNum := 0
  ackNum := 0
  retransmit := false
  retransSeq := 0
  retransStop := 0
  packetSent := 0
  packetRetrans := 0
  packetLost := 0
  retransRecv := 0
  retransmissions := []
  windowSize := 10
  windowBase := 0
  logEvent := none
  timers := ∅
  receivedPackets := ∅
  retransmitPackets := ∅

/-- `m_seqNum-m_windowBase>=m_windowSize`, in `uint32_t`. -/
def windowFull (c : Client) : Bool := c.windowSize ≤ u32 (c.seqNum + 2 ^ 32 - c.windowBase)

/-- The retransmission entries in the order `Send` takes them: the active one,
then the queue. -/
def pending (c : Client) : List ℕ :=
  if c.retransmit then c.retransSeq :: c.retransmissions.map Prod.fst else []

/-- How `HandleRead` and `HandleTimeout` queue a retransmission of `seq`. The
pair is stored as `std::pair<uint16_t, uint16_t>`. -/
def queueRetransmission (c : Client) (seq : ℕ) : Client :=
  if !c.retransmit then
    { c with retransmit := true, retransSeq := seq, retransStop := u32 (seq + 1) }
  else { c with retransmissions := c.retransmissions ++ [(u16 seq, u16 (seq + 1))] }

/-- How `Send` moves on once `m_retransSeq` was used. -/
def nextRetransmission (c : Client) : Client :=
  if c.retransSeq = c.retransStop then
    match c.retransmissions with
    | [] => { c with retransmit := false }
    | (first, stop) :: rest =>
      { c with retransmissions := rest, retransSeq := first, retransStop := stop }
  else c

/-- `Send` takes the next fresh number: `m_seqNum++`, `m_packetSent++`. -/
def takeFresh (c : Client) : Client :=
  { c with seqNum := u32 (c.seqNum + 1), packetSent := u32 (c.packetSent + 1) }

def takeRetrans (c : Client) : Client :=
  nextRetransmission { c with
    retransmitPackets := insert (u16 c.retransSeq) c.retransmitPackets
    retransSeq := u32 (c.retransSeq + 1)
    packetRetrans := u32 (c.packetRetrans + 1) }

def takeSkipped (c : Client) : Client :=
  nextRetransmission { c with retransSeq := u32 (c.retransSeq + 1) }

/-- The loop `while(m_receivedPackets.find(m_windowBase)!=m_receivedPackets.end())
++m_windowBase`, with fuel; the lookup converts `m_windowBase` to the key type. -/
def advanceWindow (received : Finset ℕ) (fuel base : ℕ) : Option ℕ :=
  whileHit (fun base => u16 base ∈ received) (fun base => u32 (base + 1)) fuel base

/-- The window loop. Fuel for one test of every 16-bit number and one more is
enough for every loop that ends at all (`advanceWindow_none`). -/
def moveWindow (c : Client) : Except Fault Client :=
  match advanceWindow c.receivedPackets (2 ^ 16 + 1) c.windowBase with
  | none => .error .windowLoop
  | some base => .ok { c with windowBase := base }

/-- The drop rate the destructor prints, in percent. -/
def dropRate (c : Client) : ℚ := if 0 < c.packetSent then c.packetLost * 100 / c.packetSent else 0

/-- The retransmission success rate the destructor prints, in percent. -/
def retransmitSuccessRate (c : Client) : ℚ :=
  if 0 < c.packetRetrans then c.retransRecv * 100 / c.packetRetrans else 0

end Client

end ReliableEcho
