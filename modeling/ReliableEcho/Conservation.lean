import ReliableEcho.Bounds
import ReliableEcho.Network

/-!
# Where the packets are

Every packet the client handed to its socket is in one place: processed, on
the path to the client or to the server, or dropped. This holds in runs of any
length, and so does the bound on the packets there can be: the window stops
`Send` once every 16-bit number has been received.
-/

namespace ReliableEcho

open Runs (exec)

namespace Machine

variable {m : Machine} {maxPackets : UInt32} {payload : Payload}

/-- Whatever `MaxPackets` is and whatever is echoed, the client sends 65545 fresh
packets at most, as the window never opens beyond the 16-bit numbers, and each
number once more at most. -/
theorem transmissions_bounded (h : Reachable maxPackets payload m) :
    m.client.seqNum ≤ 65545 ∧ m.client.packetRetrans ≤ 65536 ∧ m.wire.length ≤ 131081 ∧
    m.client.packetLost ≤ 196617 := by
  have hc := h.counts
  have hb := h.sound.bounded
  have hsent := hb.sent_le hc
  refine ⟨?_, ?_, hc.wire ▸ hsent, ?_⟩
  · have := hb.seqNum_le
    have := hb.windowBase_lt
    omega
  · rw [hc.packetRetrans, ← Finset.card_range 65536]
    exact Finset.card_le_card fun s hs => Finset.mem_range.mpr (hb.retransmitPackets_lt s hs)
  · have := hb.packetLost_le
    have := hb.ackNum_le
    omega

theorem transmissions_bounded_after_gap : ∃ m,
    exec step (start 20 ⟨4, 0, none⟩) gapRun = .ok m ∧ m.client.seqNum ≤ 65545 ∧
    m.client.packetRetrans ≤ 65536 ∧ m.wire.length ≤ 131081 ∧ m.client.packetLost ≤ 196617 := by
  obtain ⟨m, hm⟩ : ∃ m, exec step (start 20 ⟨4, 0, none⟩) gapRun = .ok m := ⟨_, rfl⟩
  exact ⟨m, hm, transmissions_bounded ⟨_, hm⟩⟩

end Machine

namespace Network

variable {n n' : Network} {i : Input} {maxPackets : UInt32} {payload : Payload}

def everywhere (n : Network) : List Datagram :=
  n.processed ++ n.toClient ++ n.toServer ++ n.dropped

def Conserved (n : Network) : Prop :=
  (n.everywhere.map Datagram.serial).Perm (List.range n.machine.wire.length)

theorem Conserved.move (hc : n.Conserved) (hw : n'.machine.wire = n.machine.wire)
    (hp : n'.everywhere.Perm n.everywhere) : n'.Conserved := by
  rw [Conserved, hw]
  exact (hp.map _).trans hc

theorem perm_eraseIdx {k : ℕ} {d : Datagram} {ds : List Datagram} (hk : ds[k]? = some d) :
    ds.Perm (d :: ds.eraseIdx k) := by
  obtain ⟨hlt, rfl⟩ := List.getElem?_eq_some_iff.mp hk
  exact (List.getElem_cons_eraseIdx_perm hlt).symm

theorem Conserved.step (hb : n.machine.Budget) (hc : n.Conserved) (hs : step n i = .ok n') :
    n'.Conserved := by
  cases step_cases hs with
  | fire _ m hm =>
    rcases Machine.fire_wire hm with hw | ⟨packet, hw⟩
    · refine hc.move hw ?_
      rw [everywhere, hw, datagrams_self, List.append_nil]
      exact .refl _
    · have hnew : (everywhere { n with
          machine := m
          toServer := n.toServer ++
            datagrams m.wire n.machine.wire.length }).Perm
          (n.everywhere ++ [⟨n.machine.wire.length, packet⟩]) := by
        rw [everywhere, everywhere, hw, datagrams_snoc, List.perm_iff_count]
        intro d
        simp only [List.count_append]
        omega
      have hrange : List.range m.wire.length =
          List.range n.machine.wire.length ++ [n.machine.wire.length] := by
        rw [hw, List.length_append, List.length_singleton, List.range_succ]
      refine (hnew.map _).trans ?_
      rw [List.map_append, hrange]
      exact hc.append_right _
  | serve _ _ hd =>
    refine hc.move rfl (List.perm_iff_count.mpr fun d' => ?_)
    simp only [everywhere, hd, List.count_append, List.count_cons, List.count_nil]
    omega
  | deliver _ _ _ hd hm =>
    refine hc.move (Machine.recovers_readPacket hb.owned hm).wire
      (List.perm_iff_count.mpr fun d' => ?_)
    simp only [everywhere, hd, List.count_append, List.count_cons, List.count_nil]
    omega
  | dropToServer _ _ hk =>
    refine hc.move rfl (List.perm_iff_count.mpr fun d' => ?_)
    have hcount := (perm_eraseIdx hk).count_eq d'
    simp only [everywhere, List.count_append, List.count_cons, List.count_nil] at hcount ⊢
    omega
  | dropToClient _ _ hk =>
    refine hc.move rfl (List.perm_iff_count.mpr fun d' => ?_)
    have hcount := (perm_eraseIdx hk).count_eq d'
    simp only [everywhere, List.count_append, List.count_cons, List.count_nil] at hcount ⊢
    omega

theorem Reachable.conserved (h : Reachable maxPackets payload n) : n.Conserved :=
  h.invariant (P := Conserved) (.refl []) fun _ _ _ hr hc hs =>
    hc.step (Reachable.transport hr).1.budget hs

theorem Reachable.serial_ne (h : Reachable maxPackets payload n) {d d' : Datagram}
    (hd : d ∈ n.processed) (hd' : d' ∈ n.dropped) : d.serial ≠ d'.serial := by
  have hnodup := h.conserved.nodup_iff.mpr List.nodup_range
  rw [everywhere, List.append_assoc, List.append_assoc, List.map_append] at hnodup
  exact fun he => (List.nodup_append.mp hnodup).2.2 _ (List.mem_map_of_mem hd) d'.serial
    (List.mem_map_of_mem (by simp [hd'])) he

/-- Every packet the client sent is in one place, as it was sent, and `m_sent`
counts them all. -/
theorem packets_conserved (h : Reachable maxPackets payload n) :
    (n.everywhere.map Datagram.serial).Perm (List.range n.machine.client.sent) ∧
    (∀ d ∈ n.everywhere, n.machine.wire[d.serial]? = some d.packet) ∧
    n.machine.client.sent =
      n.processed.length + n.toClient.length + n.toServer.length + n.dropped.length := by
  have hsent := h.transport.1.counts.wire
  have hc := h.conserved
  refine ⟨hsent ▸ hc, h.transport.2.carried, ?_⟩
  have hlen := hc.length_eq
  rw [List.length_map, List.length_range, ← hsent] at hlen
  simpa [everywhere, Nat.add_assoc] using hlen.symm

theorem packets_conserved_after_drop : ∃ n,
    exec step (start 3 ⟨4, 0, none⟩) [.fire 1, .fire 3, .dropToServer 0, .serve] = .ok n ∧
    n.machine.client.sent = 2 ∧ (n.everywhere.map Datagram.serial).Perm (List.range 2) := by
  obtain ⟨n, hn, hs⟩ : ∃ n,
      exec step (start 3 ⟨4, 0, none⟩) [.fire 1, .fire 3, .dropToServer 0, .serve] = .ok n ∧
      n.machine.client.sent = 2 := ⟨_, rfl, rfl⟩
  exact ⟨n, hn, hs, hs ▸ (packets_conserved ⟨_, hn⟩).1⟩

end Network

end ReliableEcho
