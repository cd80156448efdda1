import ReliableEcho.Bounds
import ReliableEcho.Indices
import ReliableEcho.Network
import ReliableEcho.Window

/-!
# The ack cursor

`m_ackNum` follows the fresh packets as long as their indices fit the header.
An echo of index 65536 or above has its header compared as a small number: the
cursor stays where it is, at 65536 at most.
-/

namespace ReliableEcho

open SelectiveRepeat (sends freshIndex)
open Runs (exec Throughout EachStep)

namespace Machine

variable {m m' : Machine} {id : ℕ}

theorem ackNum_readPacket {h : RdtHeader} {packet data : Buffer}
    (hd : RdtHeader.deserialize packet = some (h, data)) (hs : m.readPacket packet = .ok m') :
    m'.client.ackNum = max m.client.ackNum (h.getSeq + 1) := by
  obtain ⟨h', data', base, hd', -, rfl⟩ := readPacket_ok.mp hs
  rw [hd] at hd'
  cases hd'
  dsimp only
  rw [(absorbs_taken m h.getSeq_lt).client]

theorem ackNum_fire (hs : m.fire id = .ok m') : m'.client.ackNum = m.client.ackNum := by
  have hs : step m (.fire id) = .ok m' := hs
  cases step_cases hs with
  | send _ _ hs => rw [client_send hs]
  | handleTimeout _ _ _ hs =>
    obtain ⟨m₁, h₁, rfl⟩ := handleTimeout_ok.mp hs
    dsimp only
    rw [Client.queueRetransmission_eq]
    rcases timeoutLoss_ok.mp h₁ with ⟨-, rfl⟩ | ⟨-, base, -, rfl⟩ <;> rfl
  | ppsLog => rfl

end Machine

namespace Network

variable {n n' : Network} {i : Input} {d : Datagram} {maxPackets : UInt32} {payload : Payload}

def index (n : Network) (d : Datagram) : ℕ := freshIndex (sends n.machine.log) d.serial

/-- `m_ackNum` is one plus the greatest index processed. -/
def AckFollows (n : Network) : Prop :=
  n.machine.client.ackNum = n.processed.toFinset.sup fun d => n.index d + 1

/-- The echo that is delivered carries an index that fits the header. -/
def BelowWrap (n : Network) : Input → Prop
  | .deliver => ∀ d rest, n.toClient = d :: rest → n.index d < 65536
  | _ => True

theorem index_step (h : Reachable maxPackets payload n) (hs : step n i = .ok n')
    (hd : n.machine.wire[d.serial]? = some d.packet) : n'.index d = n.index d := by
  obtain ⟨hm, ht⟩ := h.transport
  obtain ⟨hlt, -⟩ := List.getElem?_eq_some_iff.mp hd
  rw [← hm.carries.length_eq] at hlt
  unfold index
  rcases machine_step ht hs with he | ⟨l, hl⟩
  · rw [he]
  · rcases hm.sends_step hl with ⟨hlog, -⟩ | ⟨t, p, hlog, -⟩ | ⟨-, t, p, hlog, -⟩
    · rw [hlog]
    · rw [hlog, SelectiveRepeat.freshIndex_append hlt]
    · rw [hlog, SelectiveRepeat.freshIndex_append hlt]

theorem max_header_iff {ack index : ℕ} (hack : ack ≤ 65536) :
    max ack (u16 index + 1) = max ack (index + 1) ↔ index < 65536 := by
  unfold u16
  omega

theorem ackFollows_step (h : Reachable maxPackets payload n) (ha : AckFollows n)
    (hs : step n i = .ok n') : AckFollows n' ↔ BelowWrap n i := by
  obtain ⟨hm, ht⟩ := h.transport
  have hindex : n.processed.toFinset.sup (fun d => n'.index d + 1) = n.machine.client.ackNum := by
    rw [ha]
    refine Finset.sup_congr rfl fun d hd => ?_
    rw [index_step h hs (carried_of_mem ht (.inl (List.mem_toFinset.mp hd)))]
  have hsilent : n'.machine.client.ackNum = n.machine.client.ackNum → n'.processed = n.processed →
      AckFollows n' := by
    intro hack hp
    rw [AckFollows, hack, hp, hindex]
  cases step_cases hs with
  | fire _ _ hf => exact iff_of_true (hsilent (Machine.ackNum_fire hf) rfl) trivial
  | serve => exact iff_of_true (hsilent rfl rfl) trivial
  | deliver d _ _ hd hr =>
    have hw := carried_of_mem ht (d := d) (.inr (.inl (by simp [hd])))
    obtain ⟨header, data, -, hdes, -, -⟩ := Machine.readPacket_ok.mp hr
    have hbelow : BelowWrap n .deliver ↔ n.index d < 65536 := by simp [BelowWrap, hd]
    rw [hbelow, ← max_header_iff hm.sound.bounded.ackNum_le, AckFollows, List.toFinset_append,
      Finset.sup_union, hindex, List.toFinset_cons, List.toFinset_nil, insert_empty_eq,
      Finset.sup_singleton, index_step h hs hw, Machine.ackNum_readPacket hdes hr,
      hm.getSeq_freshIndex hw hdes]
    exact Iff.rfl
  | dropToServer => exact iff_of_true (hsilent rfl rfl) trivial
  | dropToClient => exact iff_of_true (hsilent rfl rfl) trivial

/-- In a run the cursor follows the fresh packets exactly while no echo of index
65536 or above is processed. -/
theorem ack_follows_iff (is : List Input) (h : exec step (start maxPackets payload) is = .ok n) :
    Throughout step AckFollows (start maxPackets payload) is ↔
      EachStep step BelowWrap (start maxPackets payload) is :=
  Runs.throughout_iff_eachStep (G := fun _ => True) (fun _ _ _ _ _ _ => trivial)
    (fun _ _ _ hr hs _ ha => ackFollows_step hr ha hs) .refl h trivial rfl

theorem ack_follows_after_echo :
    Throughout step AckFollows (start 3 ⟨4, 0, none⟩) [.fire 1, .serve, .deliver] := by
  obtain ⟨n, hn⟩ : ∃ n, exec step (start 3 ⟨4, 0, none⟩) [.fire 1, .serve, .deliver] = .ok n :=
    ⟨_, rfl⟩
  refine (ack_follows_iff _ hn).mpr ⟨trivial, ?_⟩
  rintro _ ⟨⟩
  refine ⟨trivial, ?_⟩
  rintro _ ⟨⟩
  refine ⟨?_, fun _ _ => trivial⟩
  rintro _ _ ⟨⟩
  decide

-- ---------------------------------------------------------------------------
-- A run over the wrap
-- ---------------------------------------------------------------------------

/-- `k` packets are sent and echoed in turn, none lost. -/
def losslessRun : ℕ → List Input
  | 0 => []
  | k + 1 => losslessRun k ++ [.fire (2 * k + 1), .serve, .deliver]

structure Lossless (k : ℕ) (n : Network) : Prop where
  machine : n.machine.Lossless k
  toServer : n.toServer = []
  toClient : n.toClient = []

theorem Lossless.send {k : ℕ} (h : Lossless k n) (hk : k < 65536) :
    step n (.fire (2 * k + 1)) = .ok { n with
      machine := Machine.Lossless.next n.machine k
      toServer := [⟨n.machine.wire.length, Machine.echo k⟩] } := by
  have hfire : n.machine.fire (2 * k + 1) = .ok _ := h.machine.send hk
  refine Runs.bind_ok.mpr ⟨_, hfire, ?_⟩
  have hw : (Machine.Lossless.next n.machine k).wire = n.machine.wire ++ [Machine.echo k] := rfl
  rw [hw, datagrams_snoc, h.toServer, List.nil_append]

theorem serve_deliver {m : Machine} (hserver : n.toServer = [d]) (hclient : n.toClient = [])
    (hread : n.machine.handleRead [d.packet] = .ok m) : ∃ n',
      exec step n [.serve, .deliver] = .ok n' ∧ n'.machine = m ∧ n'.toServer = [] ∧
      n'.toClient = [] ∧ n'.processed = n.processed ++ [d] := by
  obtain ⟨machine, toServer, toClient, processed, dropped, recovered⟩ := n
  obtain rfl : toServer = [d] := hserver
  obtain rfl : toClient = [] := hclient
  exact ⟨_, Runs.exec_cons.mpr ⟨_, rfl, Runs.exec_cons.mpr
    ⟨_, Runs.bind_ok.mpr ⟨m, hread, rfl⟩, rfl⟩⟩, rfl, rfl, rfl, rfl⟩

theorem lossless_exec : ∀ k ≤ 65535, ∃ n,
    exec step (start 1000000 ⟨1024, 0, none⟩) (losslessRun k) = .ok n ∧ Lossless k n
  | 0, _ => ⟨_, rfl, Machine.lossless_start, rfl, rfl⟩
  | k + 1, hk => by
    obtain ⟨n, hn, h⟩ := lossless_exec k (by omega)
    obtain ⟨m, hread, hm⟩ := h.machine.read (by omega) (by omega)
    have hread : (Machine.Lossless.next n.machine k).handleRead [Machine.echo k] = .ok m :=
      (if_pos Machine.Lossless.wire_next).symm.trans hread
    obtain ⟨n', hn', rfl, hserver, hclient, -⟩ := serve_deliver (d := ⟨n.machine.wire.length, _⟩)
      (n := { n with machine := Machine.Lossless.next n.machine k
                     toServer := [⟨n.machine.wire.length, Machine.echo k⟩] }) rfl h.toClient hread
    exact ⟨n', Runs.exec_append.mpr ⟨n, hn, Runs.exec_cons.mpr ⟨_, h.send (by omega), hn'⟩⟩,
      hm, hserver, hclient⟩

/-- Packet 65535 and, as `last`, packet 65536 are on their way to the server. -/
structure OverWrap (last : Datagram) (n : Network) : Prop where
  toServer : ∃ d, n.toServer = [d, last]
  toClient : n.toClient = []
  packet : ∃ data, last.packet = (RdtHeader.setSeq 65536).serialize ++ data
  index : n.index last = 65536
  ackNum : n.machine.client.ackNum = 65535
  received : n.machine.client.receivedPackets = Finset.range 65535

theorem Lossless.wraps {m : Machine} (h : Lossless 65535 n)
    (hm : Machine.Lossless.next n.machine 65535 = m)
    (hreach : Machine.Reachable 1000000 ⟨1024, 0, none⟩ m) : ∃ n' last,
      step { n with machine := m, toServer := [⟨n.machine.wire.length, Machine.echo 65535⟩] }
        (.fire 131073) = .ok n' ∧ OverWrap last n' := by
  have L := h.machine
  have hc := L.client_next (by omega)
  have hlook := L.lookup_next (by omega)
  rw [hm] at hc hlook
  have hseq : m.client.seqNum = 65536 := by rw [hc]
  obtain ⟨p, hp⟩ := Machine.packet_1024
  have hdue : m.sim.events.lookup 131073 = some .send := by
    rw [hlook, if_pos (by decide)]
  have hsend := hreach.sends_fresh hp hdue (by rw [hc]; simp [L.count])
    (by rw [hc]; exact L.retransmit)
    (by simp only [Client.windowFull, hc, L.windowSize, L.windowBase]; decide)
  rw [hseq] at hsend
  have hfire : m.fire 131073 = .ok _ := hsend
  refine ⟨_, ⟨m.wire.length, (RdtHeader.setSeq 65536).serialize ++ p⟩,
    Runs.bind_ok.mpr ⟨_, hfire, rfl⟩, ⟨⟨n.machine.wire.length, Machine.echo 65535⟩, ?_⟩,
    h.toClient, ⟨p, rfl⟩, ?_, ?_, ?_⟩
  · exact congrArg (_ :: ·) (datagrams_snoc m.wire _)
  · have hindex := hreach.freshIndex_seqNum (s := 0) (t := m.sim.uid)
    rw [hreach.carries.length_eq, hseq] at hindex
    exact (congrArg (freshIndex · m.wire.length) SelectiveRepeat.sends_append).trans hindex
  · exact (congrArg Client.ackNum hc).trans L.ackNum
  · exact (congrArg Client.receivedPackets hc).trans L.received

/-- Of the two packets over the wrap 65535 is lost, and the echo of 65536 does
not move the cursor. -/
theorem ack_stuck : ∃ n, exec step (start 1000000 ⟨1024, 0, none⟩) (losslessRun 65535 ++
      [.fire 131071, .fire 131073, .dropToServer 0, .serve, .deliver]) = .ok n ∧
    (∃ d ∈ n.processed, n.index d = 65536) ∧ n.machine.client.ackNum = 65535 ∧
    ¬ AckFollows n := by
  obtain ⟨n₀, h₀, h⟩ := lossless_exec 65535 (by omega)
  have h₁ := h.send (by omega)
  generalize hm : Machine.Lossless.next n₀.machine 65535 = m at h₁
  obtain ⟨n, last, h₂, hwrap⟩ := h.wraps hm
    (Reachable.transport ⟨_, Runs.exec_snoc.mpr ⟨n₀, h₀, h₁⟩⟩).1
  obtain ⟨d, hd⟩ := hwrap.toServer
  obtain ⟨data, hpacket⟩ := hwrap.packet
  obtain ⟨m', hread⟩ := Machine.readPacket_returns (m := n.machine) (k := 65535)
    (.setSeq 65536) data (by decide) (by decide) (by simp [hwrap.received])
  have hack : m'.client.ackNum = 65535 := by
    rw [Machine.ackNum_readPacket (RdtHeader.deserialize_serialize ..) hread, hwrap.ackNum]
    decide
  have hdrop : step n (.dropToServer 0) = .ok { n with
      toServer := [last], dropped := n.dropped ++ [d] } := by
    simp [step, hd]
  obtain ⟨n', h₃, rfl, -, -, hprocessed⟩ := serve_deliver (d := last)
    (n := { n with toServer := [last], dropped := n.dropped ++ [d] }) rfl hwrap.toClient
    (by rw [hpacket]; exact Machine.handleRead_singleton.mpr hread)
  have hmem : last ∈ n'.processed := by
    rw [hprocessed]
    exact List.mem_append_right _ (List.mem_singleton_self _)
  have hindex : n'.index last = 65536 := by
    rw [index, Machine.sends_readPacket hread]
    exact hwrap.index
  refine ⟨n', Runs.exec_append.mpr ⟨n₀, h₀, Runs.exec_cons.mpr ⟨_, h₁, Runs.exec_cons.mpr
    ⟨n, h₂, Runs.exec_cons.mpr ⟨_, hdrop, h₃⟩⟩⟩⟩, ⟨last, hmem, hindex⟩, hack, fun hfollows => ?_⟩
  have hle : _ ≤ n'.processed.toFinset.sup fun d => n'.index d + 1 :=
    Finset.le_sup (f := fun d => n'.index d + 1) (List.mem_toFinset.mpr hmem)
  rw [← hfollows, hack, hindex] at hle
  omega

end Network

end ReliableEcho
