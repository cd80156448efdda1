import ReliableEcho.Client
import Mathlib.Algebra.Order.Field.Basic
import Mathlib.Tactic.NormNum

/-!
# Laws of the client's queue and window

The retransmission queue is spread over four fields. `WellQueued` ties them
together, and `pending` then grows at its end and shrinks at its head. The
window loop counts up to the least number not received, and never ends exactly
when every 16-bit number has been received.
-/

namespace ReliableEcho

open Cursor (whileHit leastMissing whileHit_eq_none whileHit_eq_some whileHit_terminates)

namespace Client

variable {c : Client} {seq base fuel n : ℕ} {received : Finset ℕ}

-- ---------------------------------------------------------------------------
-- The queue
-- ---------------------------------------------------------------------------

structure WellQueued (c : Client) : Prop where
  active : c.retransmit = true → c.retransStop = c.retransSeq + 1 ∧ c.retransSeq < 65535
  idle : c.retransmit = false → c.retransmissions = []
  pairs : ∀ pair ∈ c.retransmissions, pair.2 = pair.1 + 1 ∧ pair.1 < 65535

theorem pending_idle (h : c.retransmit = false) : c.pending = [] := by
  simp [pending, h]

theorem pending_active (h : c.retransmit = true) :
    c.pending = c.retransSeq :: c.retransmissions.map Prod.fst := by
  simp [pending, h]

theorem queueRetransmission_eq (c : Client) (seq : ℕ) : c.queueRetransmission seq =
    { c with
      retransmit := (c.queueRetransmission seq).retransmit
      retransSeq := (c.queueRetransmission seq).retransSeq
      retransStop := (c.queueRetransmission seq).retransStop
      retransmissions := (c.queueRetransmission seq).retransmissions } := by
  unfold queueRetransmission
  split <;> rfl

theorem pending_queueRetransmission (h : c.WellQueued) (hs : seq < 65535) :
    (c.queueRetransmission seq).pending = c.pending ++ [seq] := by
  cases hr : c.retransmit with
  | false => simp [queueRetransmission, pending, hr, h.idle hr]
  | true => simp [queueRetransmission, pending, hr, u16_of_lt (Nat.lt_succ_of_lt hs)]

theorem WellQueued.queueRetransmission (h : c.WellQueued) (hs : seq < 65535) :
    (c.queueRetransmission seq).WellQueued := by
  have h32 : u32 (seq + 1) = seq + 1 := u32_of_lt (by omega)
  have h16 : u16 seq = seq ∧ u16 (seq + 1) = seq + 1 :=
    ⟨u16_of_lt (by omega), u16_of_lt (by omega)⟩
  cases hr : c.retransmit with
  | false =>
    refine ⟨?_, ?_, ?_⟩ <;> simp [Client.queueRetransmission, hr, h.idle hr, h32, hs]
  | true =>
    refine ⟨?_, ?_, ?_⟩
    · simpa [Client.queueRetransmission, hr] using h.active hr
    · simp [Client.queueRetransmission, hr]
    · simp only [Client.queueRetransmission, hr, h16, Bool.not_true, Bool.false_eq_true, ↓reduceIte,
        List.mem_append, List.mem_singleton]
      rintro pair (hp | rfl)
      · exact h.pairs pair hp
      · exact ⟨rfl, hs⟩

theorem nextRetransmission_eq (c : Client) : c.nextRetransmission =
    { c with
      retransmit := c.nextRetransmission.retransmit
      retransSeq := c.nextRetransmission.retransSeq
      retransStop := c.nextRetransmission.retransStop
      retransmissions := c.nextRetransmission.retransmissions } := by
  unfold nextRetransmission
  split
  · split <;> rfl
  · rfl

theorem takeSkipped_eq (c : Client) : c.takeSkipped =
    { c with
      retransmit := c.takeSkipped.retransmit
      retransSeq := c.takeSkipped.retransSeq
      retransStop := c.takeSkipped.retransStop
      retransmissions := c.takeSkipped.retransmissions } :=
  nextRetransmission_eq _

theorem takeRetrans_eq (c : Client) : c.takeRetrans =
    { c.takeSkipped with
      retransmitPackets := insert (u16 c.retransSeq) c.retransmitPackets
      packetRetrans := u32 (c.packetRetrans + 1) } := by
  unfold takeRetrans takeSkipped nextRetransmission
  dsimp only
  split
  · split <;> rfl
  · rfl

/-- The active entry is a single number, so `Send` is done with it at once. -/
theorem takeSkipped_active (h : c.WellQueued) (hr : c.retransmit = true) :
    c.takeSkipped.pending = c.retransmissions.map Prod.fst ∧ c.takeSkipped.WellQueued := by
  obtain ⟨hstop, hlt⟩ := h.active hr
  have h32 : u32 (c.retransSeq + 1) = c.retransStop := by rw [hstop, u32_of_lt (by omega)]
  unfold takeSkipped nextRetransmission
  simp only [h32, ↓reduceIte]
  cases hq : c.retransmissions with
  | nil => exact ⟨rfl, ⟨by simp, by simp, by simp⟩⟩
  | cons pair rest =>
    have hpair := h.pairs pair (by simp [hq])
    refine ⟨by simp [pending, hr], ⟨fun _ => hpair, by simp [hr], ?_⟩⟩
    exact fun q hqm => h.pairs q (by simp [hq, show q ∈ rest from hqm])

-- ---------------------------------------------------------------------------
-- The payload
-- ---------------------------------------------------------------------------

theorem createPacket_error {payload : Payload} {e : Fault} (h : payload.createPacket = .error e) :
    e = .sizeInconsistent ∨ e = .noData := by
  unfold Payload.createPacket at h
  split at h
  · split at h
    · exact .inl (Except.error.inj h).symm
    · split at h
      · exact .inr (Except.error.inj h).symm
      · cases h
  · cases h

-- ---------------------------------------------------------------------------
-- The window loop
-- ---------------------------------------------------------------------------

theorem u16_iterate (n base : ℕ) : u16 ((fun base => u32 (base + 1))^[n] base) = u16 (base + n) := by
  induction n generalizing base with
  | zero => rfl
  | succ n ih =>
    rw [Function.iterate_succ_apply, ih]
    unfold u16 u32
    omega

theorem iterate_of_lt (h : base + n < 4294967296) :
    (fun base => u32 (base + 1))^[n] base = base + n := by
  induction n generalizing base with
  | zero => rfl
  | succ n ih =>
    rw [Function.iterate_succ_apply, u32_of_lt (by omega), ih (by omega)]
    omega

/-- While the numbers are small, the loop finds the least number not received. -/
theorem advanceWindow_eq (hb : base ≤ leastMissing received) (hlt : leastMissing received < 65536) :
    advanceWindow received (2 ^ 16 + 1) base = some (leastMissing received) := by
  obtain ⟨n, hn⟩ := Nat.exists_eq_add_of_le hb
  have hi : (fun base => u32 (base + 1))^[n] base = leastMissing received := by
    rw [iterate_of_lt (by omega), hn]
  have hw : advanceWindow received (2 ^ 16 + 1) base = some _ :=
    whileHit_eq_some (n := n) ?_ ?_ (by omega)
  · rw [hw, hi]
  · intro k hk
    rw [iterate_of_lt (by omega), u16_of_lt (by omega), decide_eq_true_eq]
    exact Cursor.mem_of_lt_leastMissing (by omega)
  · rw [hi, u16_of_lt hlt, decide_eq_false_iff_not]
    exact Cursor.leastMissing_notMem received

theorem covers_iff (hf : 65536 ≤ fuel) :
    (∀ n < fuel, u16 (base + n) ∈ received) ↔ ∀ k < 65536, k ∈ received := by
  refine ⟨fun h k hk => ?_, fun h n _ => h _ (u16_lt _)⟩
  have hb := u16_lt base
  have hm := h ((k + 65536 - u16 base) % 65536) (by omega)
  have hk : u16 (base + (k + 65536 - u16 base) % 65536) = k := by
    unfold u16 at *
    omega
  rwa [hk] at hm

theorem advanceWindow_none (hf : 65536 ≤ fuel) :
    advanceWindow received fuel base = none ↔ ∀ k < 65536, k ∈ received := by
  refine whileHit_eq_none.trans ?_
  simp only [u16_iterate, decide_eq_true_eq]
  exact covers_iff hf

theorem advanceWindow_terminates :
    (∃ fuel, advanceWindow received fuel base ≠ none) ↔ ∃ k < 65536, k ∉ received := by
  refine whileHit_terminates.trans ?_
  simp only [u16_iterate, decide_eq_false_iff_not]
  constructor
  · rintro ⟨n, hn⟩
    exact ⟨_, u16_lt _, hn⟩
  · rintro ⟨k, hk, hn⟩
    by_contra hall
    simp only [not_exists, Decidable.not_not] at hall
    exact hn ((covers_iff (Nat.le_refl _)).mp (fun n _ => hall n) k hk)

theorem moveWindow_ok {c' : Client} : c.moveWindow = .ok c' ↔
    ∃ base, advanceWindow c.receivedPackets (2 ^ 16 + 1) c.windowBase = some base ∧
      c' = { c with windowBase := base } := by
  unfold moveWindow
  cases advanceWindow c.receivedPackets (2 ^ 16 + 1) c.windowBase with
  | none => simp
  | some base => exact ⟨fun h => ⟨base, rfl, (Except.ok.inj h).symm⟩, by rintro ⟨_, ⟨⟩, rfl⟩; rfl⟩

theorem moveWindow_error : c.moveWindow = .error .windowLoop ↔
    ∀ k < 65536, k ∈ c.receivedPackets := by
  have hall : advanceWindow c.receivedPackets (2 ^ 16 + 1) c.windowBase = none ↔ _ :=
    advanceWindow_none (by decide)
  rw [← hall]
  unfold moveWindow
  cases advanceWindow c.receivedPackets (2 ^ 16 + 1) c.windowBase with
  | none => exact iff_of_true rfl rfl
  | some base => exact iff_of_false (fun h => nomatch h) (fun h => nomatch h)

theorem moveWindow_fault {e : Fault} (h : c.moveWindow = .error e) : e = .windowLoop := by
  unfold moveWindow at h
  split at h
  · exact (Except.error.inj h).symm
  · cases h

/-- The fault stands for a loop that ends on no amount of fuel. -/
theorem moveWindow_windowLoop : c.moveWindow = .error .windowLoop ↔
    ∀ fuel, advanceWindow c.receivedPackets fuel c.windowBase = none := by
  have hterm : (∃ fuel, advanceWindow c.receivedPackets fuel c.windowBase ≠ none) ↔ _ :=
    advanceWindow_terminates
  rw [moveWindow_error]
  grind

-- ---------------------------------------------------------------------------
-- The rates
-- ---------------------------------------------------------------------------

theorem percent_le {part whole : ℕ} (h : part ≤ whole) :
    (if 0 < whole then (part * 100 / whole : ℚ) else 0) ≤ 100 := by
  split
  · rename_i hpos
    rw [div_le_iff₀ (by exact_mod_cast hpos), mul_comm]
    gcongr
  · norm_num

theorem dropRate_le (h : c.packetLost ≤ c.packetSent) : c.dropRate ≤ 100 := percent_le h

theorem retransmitSuccessRate_le (h : c.retransRecv ≤ c.packetRetrans) :
    c.retransmitSuccessRate ≤ 100 := percent_le h

end Client

end ReliableEcho
