import ReliableEcho.Refinement.Send
import ReliableEcho.Refinement.Receive
import ReliableEcho.Refinement.Timeout
import ReliableEcho.SelectiveRepeat.Timeline

/-!
# The client refines the sender

Every input the client takes is one step of the sender or none, as long as the
fresh numbers fit in 16 bits. `Reachable.refines` is the refinement of a whole
run, and `Reachable.laws` what it gives: the laws of the sender's runs hold of
the client's state and log.
-/

namespace ReliableEcho

open SelectiveRepeat (Line Sender Step Laws Timeline sends)
open Runs (Path)

namespace Machine

variable {m m' : Machine} {i : Input} {id : ℕ} {maxPackets : UInt32} {payload : Payload}

/-- A client in step with the sender. -/
structure InStep (m : Machine) : Prop where
  faithful : m.Faithful
  wired : m.Wired
  tally : m.Tally

theorem inStep_start : InStep (start maxPackets payload) where
  faithful := by
    refine ⟨rfl, Cursor.leastMissing_empty.symm, ⟨?_, fun _ => rfl, ?_⟩, ?_⟩
    · intro h
      cases h
    · intro pair h
      cases h
    · intro s a
      rw [lookup_start]
      refine iff_of_false (fun h => by cases h) ?_
      split <;> [simp; (split <;> simp)]
  wired := ⟨.nil, .nil, fun a h => by cases h⟩
  tally := ⟨rfl, rfl, rfl, rfl⟩

theorem view_start : (start maxPackets payload).view = Sender.init := rfl

theorem ppsLog_simulates (hi : m.InStep) (hf : m.sim.Fresh)
    (hid : m.sim.events.lookup id = some .ppsLog) :
    Simulates m (ppsLog { m with sim := m.sim.cancel id }) where
  faithful := ⟨hi.faithful.windowSize, hi.faithful.windowBase,
    ⟨hi.faithful.queue.active, hi.faithful.queue.idle, hi.faithful.queue.pairs⟩,
    (hi.faithful.exact.cancel hid (by simp)).schedule hf.cancel (by simp)⟩
  wired := ⟨hi.wired.carries, hi.wired.timers, fun a ha => Nat.lt_succ_of_lt (hi.wired.issued a ha)⟩
  tally := ⟨hi.tally.packetSent, hi.tally.packetRetrans, hi.tally.packetLost, hi.tally.retransRecv⟩
  follows := .inl ⟨rfl, rfl⟩

theorem step_simulates (hb : m.Budget) (hi : m.InStep) (ok : m.view.Ok 10)
    (hsent : ∀ e ∈ sends m.log, e.2.1 < m.client.seqNum) (hs : step m i = .ok m')
    (hmono : m.client.seqNum ≤ m'.client.seqNum) (hseq : m'.client.seqNum ≤ 65535) :
    Simulates m m' := by
  have hle := Nat.le_trans hmono hseq
  obtain ⟨hf, hw, ht⟩ := hi
  cases step_cases hs with
  | send id hid hs =>
    have h := send_simulates (m := { m with sim := m.sim.cancel id })
      ⟨hf.windowSize, hf.windowBase, hf.queue, hf.exact.cancel hid (by simp)⟩
      ⟨hw.carries, hw.timers, hw.issued⟩
      ⟨ht.packetSent, ht.packetRetrans, ht.packetLost, ht.retransRecv⟩ ok (hb.due hid) hseq hs
    exact ⟨h.faithful, h.wired, h.tally, h.follows⟩
  | handleTimeout _ _ hid hs => exact timeout_simulates hf hw ht ok hle hid hs
  | ppsLog _ hid => exact ppsLog_simulates ⟨hf, hw, ht⟩ hb.fresh hid
  | read _ hp hs => exact read_simulates hf hw ht ok hle hsent hp hs

/-- The run rule: while the fresh numbers fit, the client is in step with a run
of the sender that has the client's state and log. -/
theorem Reachable.refines (h : Reachable maxPackets payload m) (hseq : m.client.seqNum ≤ 65535) :
    m.InStep ∧ ∃ as, Path (Step 10) Sender.init as m.view ∧ m.log = as.flatten := by
  have hpath : m.InStep ∧ ∃ as, Path (Step 10) _ as m.view ∧ _ :=
    Runs.Reachable.path view log id (fun m => m.client.seqNum ≤ 65535) InStep h hseq inStep_start
      rfl (fun m i m' hr hs hg => Nat.le_trans (Reachable.seqNum_mono hr hs) hg) ?_
  · simpa only [List.flatMap_id, view_start] using hpath
  · intro m i m' as hr hp hlog hi hs hg
    rw [List.flatMap_id] at hlog
    have hr : Reachable maxPackets payload m := hr
    have hl : Laws 10 m.log m.view := hlog ▸ SelectiveRepeat.laws_of_path hp
    have hsim := step_simulates hr.budget hi hl.ok hl.ordered.sent_lt hs (hr.seqNum_mono hs) hg
    exact ⟨⟨hsim.faithful, hsim.wired, hsim.tally⟩, hsim.follows⟩

/-- The sender's laws, for the client's state and log. -/
theorem Reachable.laws (h : Reachable maxPackets payload m) (hseq : m.client.seqNum ≤ 65535) :
    m.InStep ∧ Laws 10 m.log m.view := by
  obtain ⟨hi, as, hp, hlog⟩ := h.refines hseq
  exact ⟨hi, hlog ▸ SelectiveRepeat.laws_of_path hp⟩

theorem Reachable.timeline (h : Reachable maxPackets payload m) (hseq : m.client.seqNum ≤ 65535) :
    Timeline m.log m.view := by
  obtain ⟨-, as, hp, hlog⟩ := h.refines hseq
  exact hlog ▸ SelectiveRepeat.timeline_of_path hp

theorem Reachable.simulates (h : Reachable maxPackets payload m) (hs : step m i = .ok m')
    (hseq : m'.client.seqNum ≤ 65535) : Simulates m m' := by
  have hmono := h.seqNum_mono hs
  obtain ⟨hi, hl⟩ := h.laws (Nat.le_trans hmono hseq)
  exact step_simulates h.budget hi hl.ok hl.ordered.sent_lt hs hmono hseq

end Machine

end ReliableEcho
