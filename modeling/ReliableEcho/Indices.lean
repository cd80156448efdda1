import ReliableEcho.Echoes
import ReliableEcho.Refinement

/-!
# Fresh packets by their index

Fresh packets are counted without a bound, 0, 1, 2, ..; the header has the low
16 bits of the index. A transmission carries the fresh packet of its index: a
retransmission the last one that was sent under its number.
-/

namespace SelectiveRepeat

section
variable {τ : Type}

/-- The numbers the fresh packets were sent under, in order. -/
def freshNumbers (sent : List (Copy × ℕ × τ)) : List ℕ :=
  (sent.filter (·.1 = .first)).map (·.2.1)

/-- The place of the last `s`. -/
def lastIdxOf (s : ℕ) (numbers : List ℕ) : ℕ := numbers.length - 1 - numbers.reverse.idxOf s

/-- The index of the fresh packet that transmission `i` carries. -/
def freshIndex (sent : List (Copy × ℕ × τ)) (i : ℕ) : ℕ :=
  match sent[i]? with
  | some (.again, s, _) => lastIdxOf s (freshNumbers (sent.take i))
  | _ => (freshNumbers (sent.take i)).length

variable {sent more : List (Copy × ℕ × τ)} {numbers : List ℕ} {i s : ℕ} {t : τ}

@[simp] theorem freshNumbers_append :
    freshNumbers (sent ++ more) = freshNumbers sent ++ freshNumbers more := by
  simp [freshNumbers]

@[simp] theorem freshNumbers_first : freshNumbers [(.first, s, t)] = [s] := rfl
@[simp] theorem freshNumbers_again : freshNumbers [(.again, s, t)] = [] := rfl

theorem getElem?_lastIdxOf (h : s ∈ numbers) : numbers[lastIdxOf s numbers]? = some s := by
  have hr : s ∈ numbers.reverse := List.mem_reverse.mpr h
  have hlt : numbers.reverse.idxOf s < numbers.length := by
    rw [← List.length_reverse]
    exact List.idxOf_lt_length_iff.mpr hr
  rw [lastIdxOf, ← List.getElem?_reverse hlt]
  exact List.getElem?_idxOf hr

theorem freshIndex_append (h : i < sent.length) :
    freshIndex (sent ++ more) i = freshIndex sent i := by
  simp only [freshIndex, List.getElem?_append_left h,
    List.take_append_of_le_length (Nat.le_of_lt h)]

theorem freshIndex_first :
    freshIndex (sent ++ [(.first, s, t)]) sent.length = (freshNumbers sent).length := by
  simp [freshIndex]

theorem freshIndex_again :
    freshIndex (sent ++ [(.again, s, t)]) sent.length = lastIdxOf s (freshNumbers sent) := by
  simp [freshIndex]

end

end SelectiveRepeat

namespace ReliableEcho

open SelectiveRepeat (Line Copy sends freshNumbers freshIndex lastIdxOf)

namespace Machine

variable {m m' : Machine} {i : Input} {id s k : ℕ} {maxPackets : UInt32} {payload : Payload}

-- ---------------------------------------------------------------------------
-- What a step sends
-- ---------------------------------------------------------------------------

theorem sends_readPacket {packet : Buffer} (hs : m.readPacket packet = .ok m') :
    sends m'.log = sends m.log := by
  obtain ⟨h, data, base, -, -, rfl⟩ := readPacket_ok.mp hs
  obtain ⟨lines, hl, hsends⟩ := (absorbs_taken m h.getSeq_lt).log
  dsimp only
  rw [hl, SelectiveRepeat.sends_append, hsends, List.append_nil]

theorem sends_handleTimeout (hs : m.handleTimeout s = .ok m') : sends m'.log = sends m.log := by
  obtain ⟨m₁, h₁, rfl⟩ := handleTimeout_ok.mp hs
  rcases timeoutLoss_ok.mp h₁ with ⟨-, rfl⟩ | ⟨-, base, -, rfl⟩ <;>
    exact SelectiveRepeat.sends_append.trans (List.append_nil _)

/-- A step sends nothing, the next fresh packet, or the active entry. -/
theorem Reachable.sends_step (hr : Reachable maxPackets payload m) (hs : step m i = .ok m') :
    (sends m'.log = sends m.log ∧ m'.wire = m.wire ∧ m'.client.seqNum = m.client.seqNum) ∨
    (∃ t p, sends m'.log = sends m.log ++ [(.first, u16 m.client.seqNum, t)] ∧
      m'.wire = m.wire ++ [(RdtHeader.setSeq m.client.seqNum).serialize ++ p] ∧
      m'.client.seqNum = m.client.seqNum + 1) ∨
    (m.client.retransmit = true ∧
      ∃ t p, sends m'.log = sends m.log ++ [(.again, u16 m.client.retransSeq, t)] ∧
      m'.wire = m.wire ++ [(RdtHeader.setSeq m.client.retransSeq).serialize ++ p] ∧
      m'.client.seqNum = m.client.seqNum) := by
  have hb := hr.budget
  cases step_cases hs with
  | send _ hid hs =>
    cases send_cases hs with
    | waits => exact .inl ⟨rfl, rfl, rfl⟩
    | fresh _ _ p =>
      refine .inr (.inl ⟨m.sim.uid, p, ?_, wire_transmitted, ?_⟩)
      · simp [log_transmitted]
      · rw [seqNum_transmitted]
        exact (hb.due hid).u32_seqNum
    | again ha _ p =>
      refine .inr (.inr ⟨ha, m.sim.uid, p, ?_, wire_transmitted, ?_⟩)
      · simp [log_transmitted]
      · rw [seqNum_transmitted, Client.takeRetrans_eq, Client.takeSkipped_eq]
    | skips =>
      refine .inl ⟨rfl, rfl, ?_⟩
      rw [Client.takeSkipped_eq]
      rfl
  | handleTimeout id seq hid hs =>
    have h := recovers_timeout hid hs
    have hlog : sends (m.log ++ [.timeout id seq]) = sends m.log :=
      SelectiveRepeat.sends_append.trans (List.append_nil _)
    exact .inl ⟨(sends_handleTimeout hs).trans hlog, h.wire, h.seqNum⟩
  | ppsLog => exact .inl ⟨rfl, rfl, rfl⟩
  | read _ _ hs =>
    have h := recovers_readPacket hb.owned hs
    exact .inl ⟨sends_readPacket hs, h.wire, h.seqNum⟩

theorem carries_header (n : ℕ) (p : Buffer) {copy : Copy} {t : EventId} :
    Carries (copy, u16 n, t) ((RdtHeader.setSeq n).serialize ++ p) :=
  ⟨_, p, RdtHeader.deserialize_serialize .., RdtHeader.getSeq_setSeq n⟩

theorem Reachable.carries (h : Reachable maxPackets payload m) :
    List.Forall₂ Carries (sends m.log) m.wire :=
  h.invariant (P := fun m => List.Forall₂ Carries (sends m.log) m.wire) .nil
    fun m i m' hr hc hs => by
      rcases Reachable.sends_step hr hs with ⟨hlog, hw, -⟩ | ⟨t, p, hlog, hw, -⟩ |
        ⟨-, t, p, hlog, hw, -⟩
      · rwa [hlog, hw]
      · rw [hlog, hw]
        exact List.rel_append hc (.cons (carries_header _ p) .nil)
      · rw [hlog, hw]
        exact List.rel_append hc (.cons (carries_header _ p) .nil)

-- ---------------------------------------------------------------------------
-- The indices of a run
-- ---------------------------------------------------------------------------

/-- Fresh packets have the numbers of their indices, 0, 1, 2, .., and every
transmission carries one of them. -/
structure Indexed (m : Machine) : Prop where
  fresh : freshNumbers (sends m.log) = (List.range m.client.seqNum).map u16
  carried : ∀ i e, (sends m.log)[i]? = some e → e.2.1 = u16 (freshIndex (sends m.log) i) ∧
    freshIndex (sends m.log) i < m.client.seqNum

theorem u16_u16 (n : ℕ) : u16 (u16 n) = u16 n := u16_of_lt (u16_lt n)

theorem Indexed.snoc (hi : m.Indexed) {e : Copy × ℕ × EventId}
    (hlog : sends m'.log = sends m.log ++ [e]) (hseq : m.client.seqNum ≤ m'.client.seqNum)
    (fresh : freshNumbers (sends m.log ++ [e]) = (List.range m'.client.seqNum).map u16)
    (new : e.2.1 = u16 (freshIndex (sends m.log ++ [e]) (sends m.log).length) ∧
      freshIndex (sends m.log ++ [e]) (sends m.log).length < m'.client.seqNum) : m'.Indexed where
  fresh := hlog ▸ fresh
  carried k a ha := by
    rw [hlog] at ha ⊢
    rcases Nat.lt_or_ge k (sends m.log).length with hk | hk
    · rw [List.getElem?_append_left hk] at ha
      rw [SelectiveRepeat.freshIndex_append hk]
      exact ⟨(hi.carried k a ha).1, Nat.lt_of_lt_of_le (hi.carried k a ha).2 hseq⟩
    · obtain ⟨hlt, -⟩ := List.getElem?_eq_some_iff.mp ha
      rw [List.length_append, List.length_singleton] at hlt
      obtain rfl : k = (sends m.log).length := by omega
      rw [List.getElem?_concat_length] at ha
      cases ha
      exact new

theorem Reachable.u16_retransSeq (h : Reachable maxPackets payload m)
    (hr : m.client.retransmit = true) : ∃ n < m.client.seqNum, u16 n = u16 m.client.retransSeq := by
  by_cases hseq : m.client.seqNum ≤ 65535
  · obtain ⟨-, hl⟩ := h.laws hseq
    exact ⟨_, hl.ok.pending_lt _ (by simp [view, Client.pending_active hr]), rfl⟩
  · have := u16_lt m.client.retransSeq
    exact ⟨_, by omega, u16_u16 _⟩

theorem Reachable.indexed (h : Reachable maxPackets payload m) : m.Indexed := by
  refine h.invariant (P := Indexed) ⟨rfl, fun _ _ he => by cases he⟩ fun m i m' hr hi hs => ?_
  have hfresh := hi.fresh
  rcases Reachable.sends_step hr hs with ⟨hlog, -, hseq⟩ | ⟨t, p, hlog, -, hseq⟩ |
    ⟨ha, t, p, hlog, -, hseq⟩
  · exact ⟨by rw [hlog, hseq, hfresh], by rw [hlog, hseq]; exact hi.carried⟩
  · refine hi.snoc hlog (by omega) ?_ ?_
    · simp [hfresh, hseq, List.range_succ]
    · rw [SelectiveRepeat.freshIndex_first, hfresh]
      simp [hseq]
  · obtain ⟨n, hn, h16⟩ := Reachable.u16_retransSeq hr ha
    have hmem : u16 m.client.retransSeq ∈ freshNumbers (sends m.log) := by
      rw [hfresh, ← h16]
      exact List.mem_map_of_mem (List.mem_range.mpr hn)
    have hlast := SelectiveRepeat.getElem?_lastIdxOf hmem
    refine hi.snoc hlog (by omega) ?_ ?_
    · simp [hfresh, hseq]
    · rw [SelectiveRepeat.freshIndex_again]
      rw [hfresh, List.getElem?_map, Option.map_eq_some_iff] at hlast
      obtain ⟨j, hj, hu⟩ := hlast
      obtain ⟨hlt, rfl⟩ := List.getElem?_eq_some_iff.mp hj
      rw [List.length_range] at hlt
      rw [List.getElem_range] at hu
      exact ⟨by rw [hfresh, hu], by rw [hfresh, hseq]; exact hlt⟩

/-- The index of a fresh packet is the value `m_seqNum` had when it was sent. -/
theorem Reachable.freshIndex_seqNum (h : Reachable maxPackets payload m) {t : EventId} :
    freshIndex (sends m.log ++ [(.first, s, t)]) (sends m.log).length = m.client.seqNum := by
  rw [SelectiveRepeat.freshIndex_first, h.indexed.fresh, List.length_map, List.length_range]

/-- A packet on the wire has the low 16 bits of its index in the header. -/
theorem Reachable.getSeq_freshIndex (h : Reachable maxPackets payload m) {packet data : Buffer}
    {header : RdtHeader} (hp : m.wire[k]? = some packet)
    (hd : RdtHeader.deserialize packet = some (header, data)) :
    header.getSeq = u16 (freshIndex (sends m.log) k) := by
  obtain ⟨e, he, _, _, hd', hseq⟩ := h.carries.exists_getElem? hp
  rw [hd] at hd'
  cases hd'
  rw [hseq, (h.indexed.carried k e he).1]

end Machine

end ReliableEcho
