import ReliableEcho.Network
import ReliableEcho.Refinement

/-!
# What the history of the path says about the log

Every datagram is one of the client's transmissions. `History` ties what the
client processed to the echoes in its log, the gaps it declared to what the
channels dropped, and the packets it counted as recovered to the copies that
made it count them.
-/

namespace ReliableEcho

open SelectiveRepeat (Copy Line sends echoes lostBy recovered)

namespace Machine

variable {m m' : Machine} {id : ℕ}

theorem fire_log (hs : m.fire id = .ok m') : ∃ lines, m'.log = m.log ++ lines ∧
    echoes lines = [] ∧ lostBy .gap lines = [] ∧ recovered lines = [] := by
  have hs : step m (.fire id) = .ok m' := hs
  cases step_cases hs with
  | send _ _ hs =>
    cases send_cases hs with
    | waits => exact ⟨[], by simp⟩
    | fresh => exact ⟨_, log_transmitted, rfl, rfl, rfl⟩
    | again => exact ⟨_, log_transmitted, rfl, rfl, rfl⟩
    | skips => exact ⟨[], by simp⟩
  | handleTimeout _ seq _ hs =>
    obtain ⟨m₁, h₁, rfl⟩ := handleTimeout_ok.mp hs
    rcases timeoutLoss_ok.mp h₁ with ⟨-, hm⟩ | ⟨-, base, -, hm⟩
    · exact ⟨[.timeout id seq, .packetLoss .timeout seq], by simp [hm], rfl, rfl, rfl⟩
    · exact ⟨[.timeout id seq, .packetLoss .giveUp seq], by simp [hm], rfl, rfl, rfl⟩
  | ppsLog => exact ⟨[], by simp⟩

end Machine

def IsCopy (log : List (Line EventId)) (i : ℕ) (c : Copy) (s : ℕ) : Prop :=
  ∃ t, (sends log)[i]? = some (c, s, t)

theorem IsCopy.append {log : List (Line EventId)} {i s : ℕ} {c : Copy} (h : IsCopy log i c s)
    (lines : List (Line EventId)) : IsCopy (log ++ lines) i c s := by
  obtain ⟨t, ht⟩ := h
  refine ⟨t, ?_⟩
  rw [SelectiveRepeat.sends_append,
    List.getElem?_append_left (List.getElem?_eq_some_iff.mp ht).1, ht]

namespace Network

variable {n n' : Network} {i : Input} {d : Datagram} {rest : List Datagram} {m : Machine}
  {maxPackets : UInt32} {payload : Payload}

structure History (n : Network) : Prop where
  processed : List.Forall₂ (fun d s => ∃ c, IsCopy n.machine.log d.serial c s) n.processed
    (echoes n.machine.log)
  gaps : ∀ s ∈ lostBy .gap n.machine.log, ∃ d ∈ n.dropped, IsCopy n.machine.log d.serial .first s
  recovered : List.Forall₂ (fun d s => IsCopy n.machine.log d.serial .again s) n.recovered
    (SelectiveRepeat.recovered n.machine.log)
  sublist : n.recovered.Sublist n.processed

theorem history_start : History (start maxPackets payload) :=
  ⟨.nil, (fun _ h => by cases h), .nil, .slnil⟩

theorem History.fire (hh : n.History) {id : EventId} (hm : n.machine.fire id = .ok m)
    (toServer : List Datagram) : History { n with machine := m, toServer := toServer } := by
  obtain ⟨lines, hlog, hechoes, hgaps, hrecovered⟩ := Machine.fire_log hm
  refine ⟨?_, ?_, ?_, hh.sublist⟩
  · simp only [hlog, SelectiveRepeat.echoes_append, hechoes, List.append_nil]
    exact hh.processed.imp fun d s ⟨c, hc⟩ => ⟨c, hc.append lines⟩
  · simp only [hlog, SelectiveRepeat.lostBy_append, hgaps, List.append_nil]
    intro s hs
    obtain ⟨d, hd, hc⟩ := hh.gaps s hs
    exact ⟨d, hd, hc.append lines⟩
  · simp only [hlog, SelectiveRepeat.recovered_append, hrecovered, List.append_nil]
    exact hh.recovered.imp fun d s hc => hc.append lines

theorem History.drop (hh : n.History) (toServer toClient : List Datagram) (d : Datagram) :
    History { n with toServer := toServer, toClient := toClient, dropped := n.dropped ++ [d] } := by
  refine ⟨hh.processed, fun s hs => ?_, hh.recovered, hh.sublist⟩
  obtain ⟨d', hd, hc⟩ := hh.gaps s hs
  exact ⟨d', List.mem_append_left _ hd, hc⟩

-- ---------------------------------------------------------------------------
-- A delivery
-- ---------------------------------------------------------------------------

/-- The head of the path to the client is a copy of some packet, and
`HandleRead` takes it as the echo of that packet. -/
theorem delivered (h : Reachable maxPackets payload n) (hseq : n.machine.client.seqNum ≤ 65535)
    (hd : n.toClient = d :: rest) (hm : n.machine.readPacket d.packet = .ok m) :
    ∃ c hdr data base, RdtHeader.deserialize d.packet = some (hdr, data) ∧
      IsCopy n.machine.log d.serial c hdr.getSeq ∧ hdr.getSeq < n.machine.client.seqNum ∧
      n.machine.Takes hdr.getSeq base m := by
  obtain ⟨hr, ht⟩ := h.transport
  obtain ⟨hi, hl⟩ := hr.laws hseq
  have hcarried := carried_of_mem ht (d := d) (.inr (.inl (by simp [hd])))
  obtain ⟨hdr, data, hdes, hlt, T⟩ := Machine.takes_readPacket hi.faithful hi.wired hl.ok hseq
    hl.ordered.sent_lt (List.mem_of_getElem? hcarried) hm
  obtain ⟨⟨c, s, t⟩, he, hdr', data', hdes', hseqe⟩ := hi.wired.getElem? hcarried
  rw [hdes] at hdes'
  cases hdes'
  have hseqe : hdr.getSeq = s := hseqe
  exact ⟨c, hdr, data, _, hdes, ⟨t, hseqe ▸ he⟩, hlt, T⟩

theorem processed_before (ht : n.Transport) (hd : n.toClient = d :: rest) {d' : Datagram}
    (hp : d' ∈ n.processed) : d'.serial < d.serial := by
  obtain ⟨c, -, harrived, head, -⟩ := ht.head hd
  exact LossyFifo.arrived_lt_head head (harrived ▸ List.mem_map_of_mem hp)

theorem sent_before (ht : n.Transport) (hd : n.toClient = d :: rest) {j : ℕ} (hj : j < d.serial) :
    (∃ d' ∈ n.processed, d'.serial = j) ∨ ∃ d' ∈ n.dropped, d'.serial = j := by
  obtain ⟨c, -, harrived, head, hdropped⟩ := ht.head hd
  simpa [harrived, hdropped] using LossyFifo.overtaken head hj

/-- An echo that finds the cursor past its number belongs to a retransmission:
everything processed before a first copy has a smaller number. -/
theorem History.again_of_lt_ack (hh : n.History) (ht : n.Transport)
    {σ : SelectiveRepeat.Sender EventId} (ho : SelectiveRepeat.Ordered n.machine.log σ)
    (ha : SelectiveRepeat.Acked n.machine.log σ) (hd : n.toClient = d :: rest) {c : Copy} {s : ℕ}
    (hc : IsCopy n.machine.log d.serial c s) (hlt : s < σ.ack) : c = .again := by
  obtain ⟨t, ht'⟩ := hc
  cases c with
  | again => rfl
  | first =>
    obtain ⟨k, hk, hle⟩ := ha.top s hlt
    obtain ⟨d', hd', c', t', hcopy⟩ := hh.processed.exists_mem hk
    have := ho.before_first ht' hcopy (processed_before ht hd hd')
    omega

/-- What a gap jumps over was dropped: its first copy was sent before the echo
that opens the gap, and not processed. -/
theorem History.dropped_of_gap (hh : n.History) (ht : n.Transport)
    {σ : SelectiveRepeat.Sender EventId} (ho : SelectiveRepeat.Ordered n.machine.log σ)
    (hr : SelectiveRepeat.Resolved n.machine.log σ) (hd : n.toClient = d :: rest) {c : Copy}
    {s k : ℕ} (hc : IsCopy n.machine.log d.serial c s) (hlt : s < σ.next) (hk : k ∈ σ.gap s) :
    ∃ d' ∈ n.dropped, IsCopy n.machine.log d'.serial .first k := by
  obtain ⟨-, hks, hreceived, -⟩ := SelectiveRepeat.Sender.mem_gap.mp hk
  obtain ⟨t, hmem⟩ := ho.firsts k (Nat.lt_trans hks hlt)
  obtain ⟨j, hj⟩ := List.mem_iff_getElem?.mp hmem
  obtain ⟨_, hc⟩ := hc
  rcases sent_before ht hd (ho.first_before hj hc hks) with ⟨d', hd', rfl⟩ | ⟨d', hd', rfl⟩
  · obtain ⟨k', hk', c', t', hcopy⟩ := hh.processed.flip.exists_mem hd'
    rw [hj] at hcopy
    cases hcopy
    exact absurd (hr.of_echo k hk') hreceived
  · exact ⟨d', hd', t, hj⟩

theorem History.deliver (h : Reachable maxPackets payload n)
    (hseq : n.machine.client.seqNum ≤ 65535) (hh : n.History) (hd : n.toClient = d :: rest)
    (hm : n.machine.readPacket d.packet = .ok m) :
    History { n with
      machine := m
      toClient := rest
      processed := n.processed ++ [d]
      recovered := if m.client.retransRecv = n.machine.client.retransRecv then n.recovered
        else n.recovered ++ [d] } := by
  obtain ⟨c, hdr, data, base, -, hcopy, hlt, T⟩ := delivered h hseq hd hm
  generalize hdr.getSeq = s at *
  obtain ⟨hr, ht⟩ := h.transport
  obtain ⟨hi, hl⟩ := hr.laws hseq
  refine ⟨?_, ?_, ?_, ?_⟩ <;> simp only [T.log]
  · rw [SelectiveRepeat.echoes_append, SelectiveRepeat.echoes_echoLines]
    exact List.rel_append (hh.processed.imp fun d s ⟨c, hc⟩ => ⟨c, hc.append _⟩)
      (.cons ⟨c, hcopy.append _⟩ .nil)
  · intro k hk
    rw [SelectiveRepeat.lostBy_append, SelectiveRepeat.lostBy_echoLines, if_pos rfl] at hk
    have hdropped : ∃ d' ∈ n.dropped, IsCopy n.machine.log d'.serial .first k := by
      rcases List.mem_append.mp hk with hk | hk
      · exact hh.gaps k hk
      · exact hh.dropped_of_gap ht hl.ordered hl.resolved hd hcopy hlt hk
    obtain ⟨d', hd', hc'⟩ := hdropped
    exact ⟨d', hd', hc'.append _⟩
  · have hcount := T.retransRecv _ hi.tally.retransRecv
    rw [SelectiveRepeat.recovered_append, SelectiveRepeat.recovered_echoLines]
    have hmono := hh.recovered.imp fun (d : Datagram) k
        (hc : IsCopy n.machine.log d.serial .again k) =>
      hc.append (SelectiveRepeat.echoLines s (n.machine.view.gap s) (s < n.machine.client.ackNum))
    by_cases hlate : s < n.machine.client.ackNum
    · have hagain : c = .again :=
        hh.again_of_lt_ack ht hl.ordered hl.acked hd hcopy hlate
      subst hagain
      have hne : m.client.retransRecv ≠ n.machine.client.retransRecv := by
        rw [hcount, hi.tally.retransRecv, if_pos hlate]
        exact u32_succ_ne _
      rw [if_neg hne, if_pos (decide_eq_true hlate)]
      exact List.rel_append hmono (.cons (hcopy.append _) .nil)
    · have heq : m.client.retransRecv = n.machine.client.retransRecv := by
        rw [hcount, hi.tally.retransRecv, if_neg hlate, Nat.add_zero]
      rw [if_pos heq, if_neg (by simpa using hlate), List.append_nil]
      exact hmono
  · split
    · exact hh.sublist.trans (List.sublist_append_left _ _)
    · exact hh.sublist.append (List.Sublist.refl _)

theorem Reachable.history (h : Reachable maxPackets payload n)
    (hseq : n.machine.client.seqNum ≤ 65535) : n.History := by
  refine h.invariant (P := fun n => n.machine.client.seqNum ≤ 65535 → n.History)
    (fun _ => history_start) (fun n i n' hr ih hs hseq => ?_) hseq
  have hr : Reachable maxPackets payload n := hr
  have hle := Nat.le_trans (hr.seqNum_mono hs) hseq
  have hh := ih hle
  cases step_cases hs with
  | fire _ _ hm => exact hh.fire hm _
  | serve => exact ⟨hh.processed, hh.gaps, hh.recovered, hh.sublist⟩
  | deliver _ _ _ hd hm => exact hh.deliver hr hle hd hm
  | dropToServer _ d => exact hh.drop _ _ d
  | dropToClient _ d => exact hh.drop _ _ d

end Network

end ReliableEcho
