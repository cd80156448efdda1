import ReliableEcho.Refinement.Receive
import Mathlib.Order.Lattice.Nat

/-!
# What an echo does to any client

`HandleRead`, on a client in any state at all. The gap loop is `Passes`, which
composes along it; `taken_client` is one packet up to the window loop. For a
cursor that has not left the 16-bit numbers, `Hears` is the closed form of any
number of packets: it depends on the set of their numbers only.
-/

namespace ReliableEcho

open SelectiveRepeat (Line sends)
open Cursor (StopsAt stopsAt_of_whileHit)

namespace Machine

variable {m m' m₁ m₂ : Machine} {s k : ℕ} {seqs seqs' : List ℕ} {S T : Finset ℕ}

-- ---------------------------------------------------------------------------
-- The gap loop
-- ---------------------------------------------------------------------------

/-- The gap loop has gone over `seqs`. -/
structure Passes (m : Machine) (seqs : List ℕ) (m' : Machine) : Prop where
  client : m'.client = { m.client with
    retransmit := m'.client.retransmit
    retransSeq := m'.client.retransSeq
    retransStop := m'.client.retransStop
    retransmissions := m'.client.retransmissions
    packetLost := m'.client.packetLost
    timers := m'.client.timers }
  timers : ∀ k, m'.client.timers.lookup k =
    if k ∈ seqs ∧ k ∉ m.client.receivedPackets ∧ k ∉ m.client.retransmitPackets then none
    else m.client.timers.lookup k
  packetLost : m'.client.packetLost ≤ m.client.packetLost + seqs.length
  counted : m.client.packetLost + seqs.length < 2 ^ 32 → m.client.packetLost ≤ m'.client.packetLost
  log : ∃ lines, m'.log = m.log ++ lines ∧ sends lines = []

theorem Passes.refl (m : Machine) : Passes m [] m :=
  ⟨rfl, by simp, Nat.le_refl _, fun _ => Nat.le_refl _, [], by simp, rfl⟩

theorem Passes.trans (h : Passes m seqs m₁) (h' : Passes m₁ seqs' m₂) :
    Passes m (seqs ++ seqs') m₂ where
  client := by rw [h'.client, h.client]
  timers k := by
    rw [h'.timers, h.timers, h.client]
    grind
  packetLost := by
    have h₁ := h.packetLost
    have h₂ := h'.packetLost
    rw [List.length_append]
    omega
  counted hlt := by
    rw [List.length_append] at hlt
    have hle := h.packetLost
    exact Nat.le_trans (h.counted (by omega)) (h'.counted (by omega))
  log := by
    obtain ⟨lines, hl, hs⟩ := h.log
    obtain ⟨lines', hl', hs'⟩ := h'.log
    exact ⟨lines ++ lines', by rw [hl', hl, List.append_assoc], by simp [hs, hs']⟩

theorem passes_gapLoss (m : Machine) (s : ℕ) : Passes m [s] (m.gapLoss s) := by
  unfold gapLoss
  simp only
  split
  · rename_i hn
    generalize hcounted : { m.client with packetLost := u32 (m.client.packetLost + 1) } = counted
    generalize hqueued : counted.queueRetransmission s = queued
    have heq : queued = { m.client with
        retransmit := queued.retransmit
        retransSeq := queued.retransSeq
        retransStop := queued.retransStop
        retransmissions := queued.retransmissions
        packetLost := u32 (m.client.packetLost + 1) } := by
      rw [← hqueued, Client.queueRetransmission_eq, ← hcounted]
    obtain ⟨-, hlog, -⟩ :=
      cancelTimer_frame (write { m with client := queued } [.packetLoss .gap s]) s
    have hc := cancelTimer_client (write { m with client := queued } [.packetLoss .gap s]) s
    refine ⟨?_, fun k => ?_, ?_, fun hlt => ?_, [.packetLoss .gap s], hlog, rfl⟩ <;>
      rw [hc, client_write, heq]
    · simp only [Finmap.lookup_erase_eq, List.mem_singleton]
      grind
    · exact Nat.mod_le _ _
    · exact Nat.le_trans (Nat.le_succ _) (Nat.le_of_eq (u32_of_lt hlt).symm)
  · rename_i hn
    refine ⟨rfl, fun k => ?_, Nat.le_succ _, fun _ => Nat.le_refl _, [], by simp, rfl⟩
    rw [if_neg]
    rintro ⟨hk, h⟩
    exact hn (List.mem_singleton.mp hk ▸ h)

theorem passes_foldl (m : Machine) (seqs : List ℕ) : Passes m seqs (seqs.foldl gapLoss m) := by
  induction seqs generalizing m with
  | nil => exact .refl m
  | cons s seqs ih => exact (passes_gapLoss m s).trans (ih (m.gapLoss s))

-- ---------------------------------------------------------------------------
-- A packet
-- ---------------------------------------------------------------------------

/-- The echo of `s` was taken, before the window moves. -/
structure Absorbs (m : Machine) (s : ℕ) (m' : Machine) : Prop where
  client : m'.client = { m.client with
    ackNum := max m.client.ackNum (s + 1)
    receivedPackets := insert s m.client.receivedPackets
    retransmit := m'.client.retransmit
    retransSeq := m'.client.retransSeq
    retransStop := m'.client.retransStop
    retransmissions := m'.client.retransmissions
    packetLost := m'.client.packetLost
    retransRecv := m'.client.retransRecv
    timers := m'.client.timers }
  timers : ∀ k, m'.client.timers.lookup k =
    if k = s ∨ (m.client.ackNum ≤ k ∧ k < s ∧ k ∉ m.client.receivedPackets ∧
      k ∉ m.client.retransmitPackets) then none
    else m.client.timers.lookup k
  packetLost : m'.client.packetLost ≤ m.client.packetLost + (s - m.client.ackNum)
  counted : m.client.packetLost + (s - m.client.ackNum) < 2 ^ 32 →
    m.client.packetLost ≤ m'.client.packetLost
  log : ∃ lines, m'.log = m.log ++ lines ∧ sends lines = []

theorem lookup_marked (m : Machine) (s k : ℕ) : (m.marked s).client.timers.lookup k =
    if k = s then none else m.client.timers.lookup k := by
  rw [client_marked, Finmap.lookup_erase_eq]

theorem absorbs_taken (m : Machine) (hs : s < 65536) : Absorbs m s (m.taken s) := by
  have hc := client_marked m s
  obtain ⟨-, hlog, -⟩ := cancelTimer_frame m s
  have hl : (m.marked s).log = m.log ++ [.received s] := by simp [marked, hlog]
  have hack : (m.marked s).client.ackNum = m.client.ackNum := by rw [hc]
  rw [taken_eq]
  unfold classify
  rw [hack]
  split
  · -- the packet expected next
    rename_i heq
    refine ⟨?_, fun k => ?_, ?_, fun _ => ?_, [.received s], hl, rfl⟩
    · rw [hc, show max m.client.ackNum (s + 1) = u32 (m.client.ackNum + 1) by
        rw [u32_of_lt (by omega)]
        omega]
    · rw [lookup_marked]
      grind
    · simp [hc]
    · simp [hc]
  split
  · -- a packet was overtaken
    rename_i hne hlt
    have hp : Passes (m.marked s) _ ((m.marked s).gapLoop s) := passes_foldl _ _
    rw [hack, u16_of_lt (by omega)] at hp
    generalize (m.marked s).gapLoop s = m₁ at hp ⊢
    obtain ⟨lines, hlines, hsends⟩ := hp.log
    refine ⟨?_, fun k => ?_, ?_, fun hlt => ?_, [.received s] ++ lines, ?_, ?_⟩
    · dsimp only
      rw [hp.client, hc, show max m.client.ackNum (s + 1) = u32 (s + 1) by
        rw [u32_of_lt (by omega)]
        omega]
    · dsimp only
      rw [hp.timers, lookup_marked, hc]
      simp only [List.mem_range'_1, Finset.mem_insert]
      grind
    · have hle := hp.packetLost
      simp only [hc, List.length_range'] at hle
      exact hle
    · have hle := hp.counted
      simp only [hc, List.length_range'] at hle
      exact hle hlt
    · exact hlines.trans (by rw [hl, List.append_assoc])
    · rw [SelectiveRepeat.sends_append, hsends]
      rfl
  · -- a packet the cursor has passed
    rename_i hne hlt
    refine ⟨?_, fun k => ?_, ?_, fun _ => ?_, [.received s, .receiveRetrans s], ?_, rfl⟩
    · rw [client_write, hc, show max m.client.ackNum (s + 1) = m.client.ackNum by omega]
    · rw [client_write, lookup_marked]
      grind
    · simp [hc]
    · simp [hc]
    · rw [log_write, hl, List.append_assoc]
      rfl

-- ---------------------------------------------------------------------------
-- Any number of packets
-- ---------------------------------------------------------------------------

/-- The echoes of the numbers in `S` were taken, in whatever order and however
often each. -/
structure Hears (m : Machine) (S : Finset ℕ) (m' : Machine) : Prop where
  receivedPackets : m'.client.receivedPackets = m.client.receivedPackets ∪ S
  retransmitPackets : m'.client.retransmitPackets = m.client.retransmitPackets
  ackNum : m'.client.ackNum = max m.client.ackNum (S.sup (· + 1))
  unmoved : S = ∅ → m'.client.windowBase = m.client.windowBase
  moved : S ≠ ∅ → StopsAt (fun base => u16 base ∈ m'.client.receivedPackets)
    (fun base => u32 (base + 1)) m.client.windowBase m'.client.windowBase
  timers : ∀ k, m'.client.timers.lookup k =
    if k ∈ S ∨ (m.client.ackNum ≤ k ∧ k + 1 < S.sup (· + 1) ∧ k ∉ m.client.receivedPackets ∧
      k ∉ m.client.retransmitPackets) then none
    else m.client.timers.lookup k

theorem Hears.refl (m : Machine) : Hears m ∅ m where
  receivedPackets := by simp
  retransmitPackets := rfl
  ackNum := by simp
  unmoved _ := rfl
  moved h := absurd rfl h
  timers := by simp

theorem sup_succ_ne (h : k ∉ S) : S.sup (· + 1) ≠ k + 1 := by
  intro hsup
  rcases S.eq_empty_or_nonempty with rfl | hne
  · simp at hsup
  · obtain ⟨a, ha, hmax⟩ := Finset.exists_mem_eq_sup S hne (· + 1)
    rw [hsup, Nat.add_right_cancel_iff] at hmax
    exact h (hmax ▸ ha)

/-- A number that the second stretch finds above its cursor was above the first
cursor, and the other way round a number that is not heard cannot be the one
the first stretch stopped at. -/
theorem Hears.trans (h : Hears m S m₁) (h' : Hears m₁ T m₂) : Hears m (S ∪ T) m₂ where
  receivedPackets := by rw [h'.receivedPackets, h.receivedPackets, Finset.union_assoc]
  retransmitPackets := h'.retransmitPackets.trans h.retransmitPackets
  ackNum := by rw [h'.ackNum, h.ackNum, Finset.sup_union, max_assoc]
  unmoved he := by
    obtain ⟨hS, hT⟩ := Finset.union_eq_empty.mp he
    exact (h'.unmoved hT).trans (h.unmoved hS)
  moved hne := by
    by_cases hS : S = ∅
    · subst hS
      rw [Finset.empty_union] at hne
      exact h.unmoved rfl ▸ h'.moved hne
    by_cases hT : T = ∅
    · subst hT
      rw [h'.unmoved rfl, h'.receivedPackets, Finset.union_empty]
      exact h.moved hS
    · refine (h.moved hS).trans (h'.moved hT) fun base hb => ?_
      rw [decide_eq_true_eq] at hb ⊢
      rw [h'.receivedPackets]
      exact Finset.mem_union_left _ hb
  timers k := by
    rw [h'.timers, h.timers, h.ackNum, h.receivedPackets, h.retransmitPackets, Finset.sup_union]
    by_cases hS : k ∈ S
    · simp [hS]
    by_cases hT : k ∈ T
    · simp [hT]
    have hne := sup_succ_ne hS
    simp only [Finset.mem_union, hS, hT, or_false, false_or]
    grind

theorem hears_readPacket {h : RdtHeader} {data : Buffer}
    (hs : m.readPacket (h.serialize ++ data) = .ok m') : Hears m {h.getSeq} m' := by
  obtain ⟨h', data', base, hd, hloop, rfl⟩ := readPacket_ok.mp hs
  rw [RdtHeader.deserialize_serialize] at hd
  cases hd
  have ha := absorbs_taken m h.getSeq_lt
  rw [ha.client] at hloop
  refine ⟨?_, ?_, ?_, fun hne => ?_, fun _ => ?_, fun k => ?_⟩
  · dsimp only
    rw [ha.client, Finset.insert_eq, Finset.union_comm]
  · dsimp only
    rw [ha.client]
  · dsimp only
    rw [ha.client, Finset.sup_singleton]
  · exact absurd hne (Finset.singleton_ne_empty _)
  · dsimp only
    rw [ha.client]
    exact stopsAt_of_whileHit hloop
  · simp only [Finset.sup_singleton, Finset.mem_singleton, Nat.add_lt_add_iff_right]
    exact ha.timers k

theorem readPacket_returns (h : RdtHeader) (data : Buffer) (hk : k < 65536) (hne : k ≠ h.getSeq)
    (hn : k ∉ m.client.receivedPackets) : ∃ m', m.readPacket (h.serialize ++ data) = .ok m' := by
  have ha := absorbs_taken m h.getSeq_lt
  obtain ⟨base, hloop⟩ : ∃ base, Client.advanceWindow (m.taken h.getSeq).client.receivedPackets
      (2 ^ 16 + 1) (m.taken h.getSeq).client.windowBase = some base := by
    rw [← Option.ne_none_iff_exists', ne_eq, Client.advanceWindow_none (by decide), ha.client]
    exact fun hall => by simpa [hne, hn] using hall k hk
  exact ⟨_, readPacket_ok.mpr ⟨h, data, base, RdtHeader.deserialize_serialize .., hloop, rfl⟩⟩

/-- Echoes as the socket has them: the header is in front of the data. -/
def echoed (es : List (RdtHeader × Buffer)) : List Buffer := es.map fun e => e.1.serialize ++ e.2

def numbers (es : List (RdtHeader × Buffer)) : Finset ℕ := (es.map fun e => e.1.getSeq).toFinset

theorem hears_handleRead (m : Machine) (es : List (RdtHeader × Buffer)) (hk : k < 65536)
    (hn : k ∉ m.client.receivedPackets ∪ numbers es) :
    ∃ m', m.handleRead (echoed es) = .ok m' ∧ Hears m (numbers es) m' := by
  induction es generalizing m with
  | nil => exact ⟨m, rfl, .refl m⟩
  | cons e es ih =>
    have hnumbers : numbers (e :: es) = {e.1.getSeq} ∪ numbers es := by simp [numbers]
    rw [hnumbers, Finset.mem_union, Finset.mem_union, Finset.mem_singleton, not_or, not_or] at hn
    obtain ⟨hr, hne, hrest⟩ := hn
    obtain ⟨m₁, h₁⟩ := readPacket_returns e.1 e.2 hk hne hr
    have hh := hears_readPacket h₁
    obtain ⟨m₂, h₂, hh'⟩ := ih m₁ (by
      rw [hh.receivedPackets]
      simp [hr, hne, hrest])
    refine ⟨m₂, Runs.bind_ok.mpr ⟨m₁, h₁, h₂⟩, ?_⟩
    rw [hnumbers]
    exact hh.trans hh'

/-- What `HandleRead` has received, where the window and the cursor stand and
which timers run afterwards depends on the set of the numbers echoed alone. -/
theorem echoes_in_any_order (m : Machine) (es es' : List (RdtHeader × Buffer))
    (same : ∀ h, h ∈ es.map Prod.fst ↔ h ∈ es'.map Prod.fst)
    (missing : ∃ k < 65536, k ∉ m.client.receivedPackets ∧ ∀ e ∈ es, k ≠ e.1.getSeq) :
    ∃ m₁ m₂, m.handleRead (echoed es) = .ok m₁ ∧ m.handleRead (echoed es') = .ok m₂ ∧
      m₁.client.receivedPackets = m₂.client.receivedPackets ∧
      m₁.client.windowBase = m₂.client.windowBase ∧
      m₁.client.ackNum = m₂.client.ackNum ∧ m₁.client.timers = m₂.client.timers := by
  obtain ⟨k, hk, hr, hne⟩ := missing
  have hset : numbers es = numbers es' := by
    have hmap : ∀ l : List (RdtHeader × Buffer), (l.map fun e => e.1.getSeq) =
        (l.map Prod.fst).map RdtHeader.getSeq := fun l => by simp
    ext s
    simp only [numbers, hmap, List.mem_toFinset, List.mem_map (f := RdtHeader.getSeq), same]
  have hn : k ∉ m.client.receivedPackets ∪ numbers es := by
    simp only [numbers, Finset.mem_union, List.mem_toFinset, List.mem_map, not_or]
    exact ⟨hr, fun ⟨e, he, heq⟩ => hne e he heq.symm⟩
  obtain ⟨m₁, h₁, hh⟩ := hears_handleRead m es hk hn
  obtain ⟨m₂, h₂, hh'⟩ := hears_handleRead m es' hk (hset ▸ hn)
  rw [← hset] at hh'
  have hreceived : m₁.client.receivedPackets = m₂.client.receivedPackets :=
    hh.receivedPackets.trans hh'.receivedPackets.symm
  refine ⟨m₁, m₂, h₁, h₂, hreceived, ?_, hh.ackNum.trans hh'.ackNum.symm, ?_⟩
  · by_cases hS : numbers es = ∅
    · exact (hh.unmoved hS).trans (hh'.unmoved hS).symm
    · exact (hreceived ▸ hh.moved hS).unique (hh'.moved hS)
  · exact Finmap.ext_lookup fun s => (hh.timers s).trans (hh'.timers s).symm

theorem echoes_in_any_order_after_sends : ∃ m m₁ m₂,
    Runs.exec step (start 3 ⟨4, 0, none⟩) [.fire 1, .fire 3] = .ok m ∧
    m.handleRead (echoed [(⟨0⟩, []), (⟨1⟩, [])]) = .ok m₁ ∧
    m.handleRead (echoed [(⟨1⟩, []), (⟨0⟩, []), (⟨1⟩, [])]) = .ok m₂ ∧
    m₁.client.ackNum = m₂.client.ackNum ∧ m₁.client.timers = m₂.client.timers := by
  obtain ⟨m, hm, hr⟩ : ∃ m, Runs.exec step (start 3 ⟨4, 0, none⟩) [.fire 1, .fire 3] = .ok m ∧
      m.client.receivedPackets = ∅ := ⟨_, rfl, rfl⟩
  obtain ⟨m₁, m₂, h₁, h₂, -, -, hack, htimers⟩ := echoes_in_any_order m
    [(⟨0⟩, []), (⟨1⟩, [])] [(⟨1⟩, []), (⟨0⟩, []), (⟨1⟩, [])] (by simp)
    ⟨2, by decide, by simp [hr], by decide⟩
  exact ⟨m, m₁, m₂, hm, h₁, h₂, hack, htimers⟩

end Machine

end ReliableEcho
