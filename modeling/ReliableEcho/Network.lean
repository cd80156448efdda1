import ReliableEcho.Budget
import ReliableEcho.Lib.LossyFifo

/-!
# The client, the echo server and the path between them

`assn3.cc` puts the client and the server at the two ends of a single path.
Each direction is a queue: it delivers in the order of sending and may drop any
packet in flight. Timeouts run at any moment. A `Datagram` is a packet with its
place among the packets the client sent, which nothing in the network reads.

The two queues with the server between them are one `LossyFifo`
(`Transport.channel`).
-/

namespace ReliableEcho

/-- `UdpReliableEchoServer::HandleRead`: what is sent back for a packet. -/
def UdpReliableEchoServer.handleRead (packet : Buffer) : Buffer := packet

structure Datagram where
  serial : ℕ
  packet : Buffer
  deriving DecidableEq, Repr

/-- `processed`, `dropped` and `recovered` are history: what `HandleRead` was
given, what the channels lost, and what made `m_retransRecv` change. -/
structure Network where
  machine : Machine
  toServer : List Datagram
  toClient : List Datagram
  processed : List Datagram
  dropped : List Datagram
  recovered : List Datagram

namespace Network

def start (maxPackets : UInt32) (payload : Payload) : Network :=
  ⟨.start maxPackets payload, [], [], [], [], []⟩

inductive Input
  | fire (id : EventId)
  | serve
  | deliver
  | dropToServer (i : ℕ)
  | dropToClient (i : ℕ)
  deriving DecidableEq, Repr

/-- The packets the client handed to its socket since `k`, in order. -/
def datagrams (wire : List Buffer) (k : ℕ) : List Datagram :=
  ((wire.drop k).zipIdx k).map fun (packet, serial) => ⟨serial, packet⟩

def step (n : Network) : Input → Except Fault Network
  | .fire id => do
    let m ← n.machine.fire id
    .ok { n with machine := m
                 toServer := n.toServer ++ datagrams m.wire n.machine.wire.length }
  | .serve =>
    match n.toServer with
    | [] => .error .notEnabled
    | d :: rest =>
      let reply := { d with packet := UdpReliableEchoServer.handleRead d.packet }
      .ok { n with toServer := rest, toClient := n.toClient ++ [reply] }
  | .deliver =>
    match n.toClient with
    | [] => .error .notEnabled
    | d :: rest => do
      let m ← n.machine.handleRead [d.packet]
      let same := m.client.retransRecv = n.machine.client.retransRecv
      .ok { n with machine := m
                   toClient := rest
                   processed := n.processed ++ [d]
                   recovered := if same then n.recovered else n.recovered ++ [d] }
  | .dropToServer i =>
    match n.toServer[i]? with
    | none => .error .notEnabled
    | some d => .ok { n with toServer := n.toServer.eraseIdx i, dropped := n.dropped ++ [d] }
  | .dropToClient i =>
    match n.toClient[i]? with
    | none => .error .notEnabled
    | some d => .ok { n with toClient := n.toClient.eraseIdx i, dropped := n.dropped ++ [d] }

abbrev Reachable (maxPackets : UInt32) (payload : Payload) (n : Network) : Prop :=
  Runs.Reachable step (start maxPackets payload) n

variable {n n' : Network} {i : Input} {maxPackets : UInt32} {payload : Payload}

-- ---------------------------------------------------------------------------
-- The step
-- ---------------------------------------------------------------------------

/-- What a step does to the client and the two queues. -/
inductive Stepped (n : Network) : Input → Network → Prop
  | fire (id : EventId) (m : Machine) (hm : n.machine.fire id = .ok m) :
    Stepped n (.fire id) { n with
      machine := m, toServer := n.toServer ++ datagrams m.wire n.machine.wire.length }
  | serve (d : Datagram) (rest : List Datagram) (hd : n.toServer = d :: rest) :
    Stepped n .serve { n with toServer := rest, toClient := n.toClient ++ [d] }
  | deliver (d : Datagram) (rest : List Datagram) (m : Machine) (hd : n.toClient = d :: rest)
    (hm : n.machine.readPacket d.packet = .ok m) :
    Stepped n .deliver { n with
      machine := m
      toClient := rest
      processed := n.processed ++ [d]
      recovered := if m.client.retransRecv = n.machine.client.retransRecv
        then n.recovered else n.recovered ++ [d] }
  | dropToServer (k : ℕ) (d : Datagram) (hk : n.toServer[k]? = some d) :
    Stepped n (.dropToServer k) { n with
      toServer := n.toServer.eraseIdx k, dropped := n.dropped ++ [d] }
  | dropToClient (k : ℕ) (d : Datagram) (hk : n.toClient[k]? = some d) :
    Stepped n (.dropToClient k) { n with
      toClient := n.toClient.eraseIdx k, dropped := n.dropped ++ [d] }

theorem step_cases (hs : step n i = .ok n') : n.Stepped i n' := by
  cases i with
  | fire id =>
    obtain ⟨m, hm, hn⟩ := Runs.bind_ok.mp hs
    cases hn
    exact .fire id m hm
  | serve =>
    simp only [step] at hs
    split at hs
    · cases hs
    · rename_i d rest hd
      cases hs
      exact .serve d rest hd
  | deliver =>
    simp only [step] at hs
    split at hs
    · cases hs
    · rename_i d rest hd
      obtain ⟨m, hm, hn⟩ := Runs.bind_ok.mp hs
      cases hn
      exact .deliver d rest m hd (Machine.handleRead_singleton.mp hm)
  | dropToServer k =>
    simp only [step] at hs
    split at hs
    · cases hs
    · rename_i d hd
      cases hs
      exact .dropToServer k d hd
  | dropToClient k =>
    simp only [step] at hs
    split at hs
    · cases hs
    · rename_i d hd
      cases hs
      exact .dropToClient k d hd

-- ---------------------------------------------------------------------------
-- Transport
-- ---------------------------------------------------------------------------

/-- Datagrams come from the wire unchanged, and the path as a whole is one lossy
channel that keeps the order. -/
structure Transport (n : Network) : Prop where
  carried : ∀ d ∈ n.processed ++ n.toClient ++ n.toServer ++ n.dropped,
    n.machine.wire[d.serial]? = some d.packet
  channel : ∃ c : LossyFifo, c.sent = n.machine.wire.length ∧
    c.arrived = n.processed.map Datagram.serial ∧
    c.flight = (n.toClient ++ n.toServer).map Datagram.serial ∧
    c.dropped = n.dropped.map Datagram.serial

theorem transport_start : Transport (start maxPackets payload) where
  carried := by simp [start]
  channel := ⟨.empty, rfl, rfl, rfl, rfl⟩

theorem Transport.head (ht : n.Transport) {d : Datagram} {rest : List Datagram}
    (hd : n.toClient = d :: rest) : ∃ c : LossyFifo, c.sent = n.machine.wire.length ∧
      c.arrived = n.processed.map Datagram.serial ∧
      c.flight = d.serial :: (rest ++ n.toServer).map Datagram.serial ∧
      c.dropped = n.dropped.map Datagram.serial := by
  obtain ⟨c, hsent, harrived, hflight, hdropped⟩ := ht.channel
  rw [hd] at hflight
  exact ⟨c, hsent, harrived, hflight, hdropped⟩

theorem datagrams_self (wire : List Buffer) : datagrams wire wire.length = [] := by
  simp [datagrams]

theorem datagrams_snoc (wire : List Buffer) (packet : Buffer) :
    datagrams (wire ++ [packet]) wire.length = [⟨wire.length, packet⟩] := by
  simp [datagrams]

theorem carried_of_mem (ht : n.Transport) {d : Datagram}
    (h : d ∈ n.processed ∨ d ∈ n.toClient ∨ d ∈ n.toServer ∨ d ∈ n.dropped) :
    n.machine.wire[d.serial]? = some d.packet :=
  ht.carried d (by simpa [or_assoc] using h)

theorem Transport.fire (ht : n.Transport) {id : EventId} {m : Machine}
    (hm : n.machine.fire id = .ok m) :
    Transport { n with machine := m
                       toServer := n.toServer ++ datagrams m.wire n.machine.wire.length } := by
  obtain ⟨c, hsent, harrived, hflight, hdropped⟩ := ht.channel
  rcases Machine.fire_wire hm with hw | ⟨packet, hw⟩
  · rw [hw, datagrams_self, List.append_nil]
    exact ⟨hw ▸ ht.carried, c, hw ▸ hsent, harrived, hflight, hdropped⟩
  · rw [hw, datagrams_snoc]
    refine ⟨?_, c.push, ?_, harrived, ?_, hdropped⟩
    · have hold : ∀ d : Datagram, n.machine.wire[d.serial]? = some d.packet →
          m.wire[d.serial]? = some d.packet := by
        intro d hd
        rw [hw, List.getElem?_append_left (List.getElem?_eq_some_iff.mp hd).1, hd]
      intro d hd
      simp only [List.mem_append, List.mem_singleton] at hd
      rcases hd with ((hd | hd) | hd | rfl) | hd
      · exact hold d (carried_of_mem ht (.inl hd))
      · exact hold d (carried_of_mem ht (.inr (.inl hd)))
      · exact hold d (carried_of_mem ht (.inr (.inr (.inl hd))))
      · simp [hw]
      · exact hold d (carried_of_mem ht (.inr (.inr (.inr hd))))
    · simp [LossyFifo.push, hsent, hw]
    · simp [LossyFifo.push, hsent, hflight]

theorem Transport.deliver (ht : n.Transport) {d : Datagram} {rest recovered : List Datagram}
    {m : Machine} (hd : n.toClient = d :: rest) (hw : m.wire = n.machine.wire) :
    Transport { n with machine := m, toClient := rest, processed := n.processed ++ [d]
                       recovered := recovered } := by
  obtain ⟨c, hsent, harrived, head, hdropped⟩ := ht.head hd
  refine ⟨?_, c.deliver _ _ head, hw ▸ hsent, ?_, rfl, hdropped⟩
  · have hc := ht.carried
    rw [hd] at hc
    simpa [hw] using hc
  · simp [LossyFifo.deliver, harrived]

theorem Transport.drop (ht : n.Transport) {d : Datagram} {k : ℕ} {toServer toClient : List Datagram}
    (hk : (n.toClient ++ n.toServer)[k]? = some d)
    (he : toClient ++ toServer = (n.toClient ++ n.toServer).eraseIdx k) :
    Transport { n with toServer := toServer, toClient := toClient, dropped := n.dropped ++ [d] } := by
  obtain ⟨c, hsent, harrived, hflight, hdropped⟩ := ht.channel
  obtain ⟨hlt, -⟩ := List.getElem?_eq_some_iff.mp hk
  have hmem : d ∈ n.toClient ++ n.toServer := List.mem_of_getElem? hk
  have hsub : toClient ++ toServer ⊆ n.toClient ++ n.toServer :=
    he ▸ List.eraseIdx_subset
  refine ⟨?_, c.drop k (by simpa [hflight] using hlt), hsent, harrived, ?_, ?_⟩
  · intro a ha
    refine ht.carried a ?_
    have := @hsub a
    grind
  · rw [he, ← List.eraseIdx_map]
    exact congrArg (List.eraseIdx · k) hflight
  · have hk' : c.flight[k]? = some d.serial := by
      rw [hflight, List.getElem?_map, hk]
      rfl
    obtain ⟨_, hserial⟩ := List.getElem?_eq_some_iff.mp hk'
    simp [LossyFifo.drop, hdropped, hserial]

theorem Transport.dropToServer (ht : n.Transport) {d : Datagram} {k : ℕ}
    (hk : n.toServer[k]? = some d) :
    Transport { n with toServer := n.toServer.eraseIdx k, dropped := n.dropped ++ [d] } := by
  refine ht.drop (k := n.toClient.length + k) ?_ ?_
  · rw [List.getElem?_append_right (by omega), Nat.add_sub_cancel_left, hk]
  · rw [List.eraseIdx_append_of_length_le (by omega), Nat.add_sub_cancel_left]

theorem Transport.dropToClient (ht : n.Transport) {d : Datagram} {k : ℕ}
    (hk : n.toClient[k]? = some d) :
    Transport { n with toClient := n.toClient.eraseIdx k, dropped := n.dropped ++ [d] } := by
  have hlt := (List.getElem?_eq_some_iff.mp hk).1
  refine ht.drop (k := k) ?_ ?_
  · rw [List.getElem?_append_left hlt, hk]
  · rw [List.eraseIdx_append_of_lt_length hlt]

theorem Transport.step (hb : n.machine.Budget) (ht : n.Transport) (hs : step n i = .ok n') :
    n'.Transport := by
  cases step_cases hs with
  | fire _ _ hm => exact ht.fire hm
  | serve _ _ hd =>
    have hc := ht.carried
    obtain ⟨c, hsent, harrived, hflight, hdropped⟩ := ht.channel
    rw [hd] at hc hflight
    exact ⟨by simpa using hc, c, hsent, harrived, by simpa using hflight, hdropped⟩
  | deliver _ _ _ hd hm => exact ht.deliver hd (Machine.recovers_readPacket hb.owned hm).wire
  | dropToServer _ _ hk => exact ht.dropToServer hk
  | dropToClient _ _ hk => exact ht.dropToClient hk

-- ---------------------------------------------------------------------------
-- Runs
-- ---------------------------------------------------------------------------

theorem machine_step (ht : n.Transport) (hs : step n i = .ok n') :
    n'.machine = n.machine ∨ ∃ l, Machine.step n.machine l = .ok n'.machine := by
  cases step_cases hs with
  | fire id _ hm => exact .inr ⟨.fire id, hm⟩
  | serve => exact .inl rfl
  | deliver d _ _ hd hm =>
    have hw : d.packet ∈ n.machine.wire :=
      List.mem_of_getElem? (carried_of_mem ht (.inr (.inl (by simp [hd]))))
    exact .inr ⟨.read d.packet, (if_pos hw).trans (Machine.handleRead_singleton.mpr hm)⟩
  | dropToServer => exact .inl rfl
  | dropToClient => exact .inl rfl

/-- In a run of the network the client runs as one that takes arbitrary echoes
does, and the path is a lossy channel that keeps the order. -/
theorem Reachable.transport (h : Reachable maxPackets payload n) :
    Machine.Reachable maxPackets payload n.machine ∧ n.Transport := by
  refine h.invariant (P := fun n => Machine.Reachable maxPackets payload n.machine ∧ n.Transport)
    ⟨.refl, transport_start⟩ fun n i n' _ ⟨hm, ht⟩ hs => ⟨?_, ?_⟩
  · rcases machine_step ht hs with he | ⟨l, hl⟩
    · exact he ▸ hm
    · exact hm.tail hl
  · exact ht.step hm.budget hs

theorem Reachable.seqNum_mono (h : Reachable maxPackets payload n) (hs : step n i = .ok n') :
    n.machine.client.seqNum ≤ n'.machine.client.seqNum := by
  obtain ⟨hm, ht⟩ := h.transport
  rcases machine_step ht hs with he | ⟨l, hl⟩
  · rw [he]
  · exact hm.seqNum_mono hl

end Network

end ReliableEcho
