import ReliableEcho.History

/-!
# What the client counts as recovered

`HandleRead` counts an echo as a recovered packet when the cursor `m_ackNum` is
past its number. On the path of `assn3.cc` only retransmissions are counted so,
each at most once. Not all are: a retransmission that is echoed before any
later packet moves the cursor like a first copy.
-/

namespace ReliableEcho

open SelectiveRepeat (Line Copy sends copies echoes lostBy retransmitted length_le_of_nodup)
open Runs (exec EachStep)

theorem Machine.again_unique {m : Machine} (hi : m.InStep)
    (hc : SelectiveRepeat.Copies m.log m.view) {i j s : ℕ}
    (h : IsCopy m.log i .again s) (h' : IsCopy m.log j .again s) : i = j := by
  obtain ⟨t, ht⟩ := h
  obtain ⟨t', ht'⟩ := h'
  obtain ⟨t₁, hcopies⟩ := hc.again (List.mem_of_getElem? ht)
  obtain ⟨t₁', hcopies'⟩ := hc.again (List.mem_of_getElem? ht')
  have htt : t' = t := by
    rw [hcopies] at hcopies'
    simp only [List.cons.injEq, Prod.mk.injEq, true_and, and_true] at hcopies'
    exact hcopies'.2.symm
  -- two places with one timer are one place
  have htimers := List.pairwise_iff_getElem.mp hi.wired.timers
  obtain ⟨hi', ei⟩ := List.getElem?_eq_some_iff.mp ht
  obtain ⟨hj', ej⟩ := List.getElem?_eq_some_iff.mp ht'
  rcases Nat.lt_trichotomy i j with hij | hij | hij
  · have := htimers i j hi' hj' hij
    rw [ei, ej, htt] at this
    exact absurd this (Nat.lt_irrefl _)
  · exact hij
  · have := htimers j i hj' hi' hij
    rw [ei, ej, htt] at this
    exact absurd this (Nat.lt_irrefl _)

namespace Network

variable {n n' : Network} {i : Input} {maxPackets : UInt32} {payload : Payload}

/-- Every increment of `m_retransRecv` was caused by the echo of a
retransmission of its own. -/
theorem recovered_by_retransmissions (h : Reachable maxPackets payload n)
    (hseq : n.machine.client.seqNum ≤ 65535) :
    n.machine.client.retransRecv = n.recovered.length ∧
    (∀ d ∈ n.recovered, ∃ s, IsCopy n.machine.log d.serial .again s) ∧
    (n.recovered.map Datagram.serial).Nodup ∧
    n.machine.client.retransRecv ≤ n.machine.client.packetRetrans ∧
    n.machine.client.retransmitSuccessRate ≤ 100 := by
  have hh := h.history hseq
  obtain ⟨hr, ht⟩ := h.transport
  obtain ⟨hi, hl⟩ := hr.laws hseq
  obtain ⟨q, -, -, he, -⟩ := hl.queued
  have hserials : (n.recovered.map Datagram.serial).Nodup := by
    obtain ⟨c, -, harrived, -⟩ := ht.channel
    exact (harrived ▸ c.arrived_nodup).sublist (hh.sublist.map _)
  have hnodup : (SelectiveRepeat.recovered n.machine.log).Nodup :=
    hh.recovered.nodup hserials fun _ _ _ hd hd' =>
      Machine.again_unique hi hl.copies hd hd'
  have hsub : SelectiveRepeat.recovered n.machine.log ⊆ retransmitted n.machine.log := by
    intro s hs
    obtain ⟨d, -, t, ht⟩ := hh.recovered.exists_mem hs
    exact SelectiveRepeat.mem_retransmitted.mpr ⟨t, List.mem_of_getElem? ht⟩
  have hle := (hnodup.subperm hsub).length_le
  -- neither counter wraps
  have hbound : (retransmitted n.machine.log).length ≤ n.machine.client.seqNum := by
    refine length_le_of_nodup (he ▸ q.emitted_nodup) fun s hs => ?_
    obtain ⟨t, hmem⟩ := SelectiveRepeat.mem_retransmitted.mp hs
    exact hl.ordered.sent_lt _ hmem
  have hrecv : n.machine.client.retransRecv = (SelectiveRepeat.recovered n.machine.log).length := by
    rw [hi.tally.retransRecv, u32_of_lt (by omega)]
  have hretrans : n.machine.client.packetRetrans = (retransmitted n.machine.log).length := by
    rw [hi.tally.packetRetrans, u32_of_lt (by omega)]
  have hcount : n.machine.client.retransRecv ≤ n.machine.client.packetRetrans := by
    rw [hrecv, hretrans]
    exact hle
  refine ⟨hrecv.trans hh.recovered.length_eq.symm, fun d hd => ?_, hserials, hcount,
    Client.retransmitSuccessRate_le hcount⟩
  obtain ⟨s, -, hs⟩ := hh.recovered.flip.exists_mem hd
  exact ⟨s, hs⟩

/-- Packet 0 is dropped and its gap declared; its retransmission is echoed. -/
theorem recovered_after_gap : ∃ n, exec step (start 10 ⟨4, 0, none⟩) [.fire 1, .fire 3,
      .dropToServer 0, .serve, .deliver, .fire 5, .serve, .deliver] = .ok n ∧
    n.recovered ≠ [] ∧ ∀ d ∈ n.recovered, ∃ s, IsCopy n.machine.log d.serial .again s := by
  obtain ⟨n, hn, hs, hr⟩ : ∃ n, exec step (start 10 ⟨4, 0, none⟩) [.fire 1, .fire 3,
      .dropToServer 0, .serve, .deliver, .fire 5, .serve, .deliver] = .ok n ∧
      n.machine.client.seqNum = 2 ∧ n.recovered.length = 1 := ⟨_, rfl, rfl, rfl⟩
  refine ⟨n, hn, fun h0 => ?_, (recovered_by_retransmissions ⟨_, hn⟩ (by omega)).2.1⟩
  rw [h0] at hr
  cases hr

-- ---------------------------------------------------------------------------
-- The retransmissions that are not counted
-- ---------------------------------------------------------------------------

/-- A delivery that hands `HandleRead` the echo of a retransmission increments
`m_retransRecv`. -/
def CountsRetransmission (n : Network) : Input → Prop
  | .deliver => ∀ d rest s, n.toClient = d :: rest → IsCopy n.machine.log d.serial .again s →
    ∀ n', step n .deliver = .ok n' →
      n'.machine.client.retransRecv = u32 (n.machine.client.retransRecv + 1)
  | _ => True

/-- When the echo of a retransmission is delivered, that packet or a later one
has been echoed before. -/
def EchoedBefore (n : Network) : Input → Prop
  | .deliver => ∀ d rest s, n.toClient = d :: rest → IsCopy n.machine.log d.serial .again s →
    ∃ k ∈ echoes n.machine.log, s ≤ k
  | _ => True

theorem countsRetransmission_iff (h : Reachable maxPackets payload n) (hs : step n i = .ok n')
    (hseq : n'.machine.client.seqNum ≤ 65535) : CountsRetransmission n i ↔ EchoedBefore n i := by
  have hle := Nat.le_trans (h.seqNum_mono hs) hseq
  obtain ⟨hr, ht⟩ := h.transport
  obtain ⟨hi, hl⟩ := hr.laws hle
  cases step_cases hs with
  | fire => exact Iff.rfl
  | serve => exact Iff.rfl
  | deliver d rest m hd hm =>
    obtain ⟨c, hdr, data, base, -, hcopy, -, T⟩ := delivered h hle hd hm
    have hcount : m.client.retransRecv = u32 (n.machine.client.retransRecv + 1) ↔
        hdr.getSeq < n.machine.client.ackNum := by
      have hrecv := hi.tally.retransRecv
      rw [T.retransRecv _ hrecv, hrecv, u32_u32_succ]
      split
      · simp [*]
      · rename_i hlate
        exact iff_of_false (fun he => u32_succ_ne _ he.symm) hlate
    have hack : hdr.getSeq < n.machine.client.ackNum ↔ _ := hl.acked.lt_ack_iff
    have same : ∀ s, IsCopy n.machine.log d.serial .again s → s = hdr.getSeq := by
      rintro s ⟨t, hs⟩
      obtain ⟨t', hs'⟩ := hcopy
      rw [hs] at hs'
      cases hs'
      rfl
    constructor
    · intro hcounts d' rest' s hd' hs'
      obtain ⟨rfl, rfl⟩ : d = d' ∧ rest = rest' := by simpa using hd.symm.trans hd'
      rw [same s hs']
      exact hack.mp (hcount.mp (hcounts d rest s hd hs' _ hs))
    · intro hbefore d' rest' s hd' hs' n' hn'
      obtain ⟨rfl, rfl⟩ : d = d' ∧ rest = rest' := by simpa using hd.symm.trans hd'
      rw [← Except.ok.inj (hs.symm.trans hn')]
      refine hcount.mpr (hack.mpr ?_)
      rw [← same s hs']
      exact hbefore d rest s hd hs'
  | dropToServer => exact Iff.rfl
  | dropToClient => exact Iff.rfl

/-- The echoes of retransmissions are all counted in a run exactly when none is
delivered before that packet or a later one has been echoed. -/
theorem retransmissions_counted_iff (is : List Input)
    (h : exec step (start maxPackets payload) is = .ok n)
    (hseq : n.machine.client.seqNum ≤ 65535) :
    EachStep step CountsRetransmission (start maxPackets payload) is ↔
      EachStep step EchoedBefore (start maxPackets payload) is :=
  Runs.eachStep_congr (G := fun n => n.machine.client.seqNum ≤ 65535)
    (fun _ _ _ hr hs hg => Nat.le_trans (Reachable.seqNum_mono hr hs) hg)
    (fun _ _ _ hr hs hg => countsRetransmission_iff hr hs hg) .refl h hseq

theorem retransmissions_counted_after_gap :
    EachStep step CountsRetransmission (start 10 ⟨4, 0, none⟩) [.fire 1, .fire 3,
      .dropToServer 0, .serve, .deliver, .fire 5, .serve, .deliver] := by
  obtain ⟨n, hn, hs⟩ : ∃ n, exec step (start 10 ⟨4, 0, none⟩) [.fire 1, .fire 3,
      .dropToServer 0, .serve, .deliver, .fire 5, .serve, .deliver] = .ok n ∧
      n.machine.client.seqNum = 2 := ⟨_, rfl, rfl⟩
  refine (retransmissions_counted_iff _ hn (by omega)).mpr ?_
  refine ⟨trivial, ?_⟩
  rintro _ ⟨⟩
  refine ⟨trivial, ?_⟩
  rintro _ ⟨⟩
  refine ⟨trivial, ?_⟩
  rintro _ ⟨⟩
  refine ⟨trivial, ?_⟩
  rintro _ ⟨⟩
  refine ⟨?_, ?_⟩
  · rintro d rest s ⟨⟩ ⟨t, ⟨⟩⟩
  rintro _ ⟨⟩
  refine ⟨trivial, ?_⟩
  rintro _ ⟨⟩
  refine ⟨trivial, ?_⟩
  rintro _ ⟨⟩
  refine ⟨?_, fun _ _ => trivial⟩
  rintro d rest s ⟨⟩ ⟨t, ⟨⟩⟩
  exact ⟨1, .head _, by decide⟩

/-- The echo that opens a gap is past every number it declares lost, so their
retransmissions are counted. -/
theorem echoed_before_of_gap (h : Reachable maxPackets payload n)
    (hseq : n.machine.client.seqNum ≤ 65535) {s : ℕ} (hs : s ∈ lostBy .gap n.machine.log) :
    ∃ k ∈ echoes n.machine.log, s ≤ k := by
  have ha := (h.transport.1.laws hseq).2.acked
  exact ha.top s (ha.gaps s hs)

/-- Packet 0 is dropped, times out and is retransmitted; its echo is the one the
cursor waits for, and is not counted. -/
theorem retransmission_not_counted : ∃ n n' d,
    exec step (start 10 ⟨4, 0, none⟩) [.fire 1, .dropToServer 0, .fire 2, .fire 3, .serve] = .ok n ∧
    n.machine.client.seqNum ≤ 65535 ∧ n.toClient = [d] ∧
    IsCopy n.machine.log d.serial .again 0 ∧ step n .deliver = .ok n' ∧
    n.machine.client.retransRecv = 0 ∧ n'.machine.client.retransRecv = 0 :=
  ⟨_, _, _, rfl, by decide, rfl, ⟨4, rfl⟩, rfl, rfl, rfl⟩

end Network

end ReliableEcho
