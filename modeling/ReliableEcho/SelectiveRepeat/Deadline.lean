import ReliableEcho.SelectiveRepeat.Accounting
import ReliableEcho.SelectiveRepeat.Crowding

/-!
# When a packet is resolved

The sender with dates: timers run for `r`, the queue is served every `d`, and
it never has more than `q` entries. `Attended` says by when a packet that is
not resolved will be: its first timer runs out, then its entry reaches the head
of the queue, then its second timer runs out. `Attended.served` is the step
lemma for the steps that serve the queue, `Attended.declared` the one for the
steps that may add to it.
-/

namespace SelectiveRepeat

open Cursor (leastMissing_notMem)

variable {τ : Type} {w d r q now : ℕ} {σ σ' : Sender τ} {log lines : List (Line τ)}
  {date date' : τ → ℕ} {turn turn' : Option ℕ} {s : ℕ} {a : τ}

/-- Where packet `s`, whose first timer is `a`, waits: for the first timer, in
the queue, which is served next at `turn`, or for the second timer. -/
def Waits (d r q : ℕ) (log : List (Line τ)) (σ : Sender τ) (date : τ → ℕ) (turn : Option ℕ) (s : ℕ)
    (a : τ) : Prop :=
  (s ∉ σ.retried ∧ σ.timer s = some a) ∨
  (s ∉ σ.retried ∧ ∃ j, σ.pending[j]? = some s ∧ ∀ t ∈ turn, t + j * d ≤ date a + q * d) ∨
  (s ∈ σ.retried ∧ ∃ b, σ.timer s = some b ∧ (.again, s, b) ∈ sends log ∧
    date b ≤ date a + q * d + r)

def Attended (d r q : ℕ) (log : List (Line τ)) (σ : Sender τ) (date : τ → ℕ) (turn : Option ℕ) :
    Prop :=
  ∀ s a, (.first, s, a) ∈ sends log → s ∉ σ.received → Waits d r q log σ date turn s a

theorem Attended.init : Attended d r q [] Sender.init date turn :=
  fun s a h => by cases h

def Keeps (log : List (Line τ)) (date date' : τ → ℕ) : Prop :=
  ∀ e ∈ sends log, date' e.2.2 = date e.2.2

theorem Keeps.second {b : τ} {log' : List (Line τ)} (hdate : Keeps log date date')
    (ha : date' a = date a) (hmem : (.again, s, b) ∈ sends log)
    (hle : date b ≤ date a + q * d + r) (hold : s ∈ σ'.retried) (hb : σ'.timer s = some b)
    (hmem' : (.again, s, b) ∈ sends log') : Waits d r q log' σ' date' turn' s a := by
  refine .inr (.inr ⟨hold, b, hb, hmem', ?_⟩)
  rw [hdate _ hmem, ha]
  exact hle

theorem Attended.quiet (h : Attended d r q log σ date turn) (hdate : Keeps log date date')
    (hturn : σ.pending = [] ∨ ∀ t ∈ turn', t ∈ turn) : Attended d r q log σ date' turn' := by
  intro s a hs hr
  have ha : date' a = date a := hdate _ hs
  rcases h s a hs hr with h | ⟨hn, j, hj, hle⟩ | ⟨ho, b, hb, hmem, hle⟩
  · exact .inl h
  · rcases hturn with hempty | hturn
    · rw [hempty] at hj
      cases hj
    · exact .inr (.inl ⟨hn, j, hj, fun t ht => ha ▸ hle t (hturn t ht)⟩)
  · exact hdate.second ha hmem hle ho hb hmem

theorem getElem?_of_cons {x : ℕ} {xs : List ℕ} {j : ℕ} (hne : s ≠ x) (h : (x :: xs)[j]? = some s) :
    ∃ k, j = k + 1 ∧ xs[k]? = some s := by
  cases j with
  | zero =>
    rw [List.getElem?_cons_zero] at h
    exact absurd (Option.some.inj h).symm hne
  | succ k => exact ⟨k, rfl, h⟩

/-- The queue is served at its turn `t`, and next `d` later. -/
theorem Attended.served {t : ℕ} (ok : σ.Ok w) (ho : Ordered log σ)
    (h : Attended d r q log σ date (some t)) (hs : Step w σ lines σ')
    (hlosses : losses lines = []) (hechoes : echoes lines = []) (hdate : Keeps log date date')
    (hnew : ∀ e ∈ sends lines, date' e.2.2 = t + r) (hturn : ∀ u ∈ turn', u = t + d) :
    Attended d r q (log ++ lines) σ' date' turn' := by
  have behind : ∀ {s x : ℕ} {a : τ} {xs : List ℕ} {j : ℕ}, date' a = date a → s ≠ x → (x :: xs)[j]? = some s →
      t + j * d ≤ date a + q * d →
      ∃ k, xs[k]? = some s ∧ ∀ u ∈ turn', u + k * d ≤ date' a + q * d := by
    intro s x a xs j ha hne hj hle
    obtain ⟨k, rfl, hk⟩ := getElem?_of_cons hne hj
    refine ⟨k, hk, fun u hu => ?_⟩
    rw [hturn u hu, ha, Nat.add_assoc, Nat.add_comm d, ← Nat.succ_mul]
    exact hle
  cases hs with
  | fresh t₀ idle room =>
    intro s a hs hr
    rw [sends_append, sends_packetSend, List.mem_append, List.mem_singleton] at hs
    rcases hs with hs | hs
    · have hlt : s < σ.next := ho.sent_lt _ hs
      have ha : date' a = date a := hdate _ hs
      have hne : s ≠ σ.next := Nat.ne_of_lt hlt
      rcases h s a hs hr with ⟨hn, htimer⟩ | ⟨-, j, hj, -⟩ | ⟨hold, b, hb, hmem, hle⟩
      · exact .inl ⟨hn, by simpa [hne] using htimer⟩
      · rw [idle] at hj
        cases hj
      · exact hdate.second ha hmem hle hold (by simpa [hne] using hb) (by simp [hmem])
    · cases hs
      exact .inl ⟨fun hm => Nat.lt_irrefl _ (ok.retried_lt _ hm), by simp⟩
  | @retry x xs t₀ head new =>
    intro s a hsent hr
    have hs : (.first, s, a) ∈ sends log := by simpa using hsent
    have ha : date' a = date a := hdate _ hs
    by_cases hx : s = x
    · subst hx
      -- its entry is served: the second timer starts
      have hdue : t ≤ date a + q * d := by
        rcases h s a hs hr with ⟨-, htimer⟩ | ⟨-, j, -, hle⟩ | ⟨hold, -⟩
        · exact absurd (by simp [head]) (ok.first s a htimer new).2
        · exact Nat.le_trans (Nat.le_add_right t _) (hle t rfl)
        · exact absurd hold new
      refine .inr (.inr ⟨by simp, t₀, by simp, by simp, ?_⟩)
      have := hnew (.again, s, t₀) (by simp)
      dsimp only at this
      omega
    · rcases h s a hs hr with ⟨hn, htimer⟩ | ⟨hn, j, hj, hle⟩ | ⟨hold, b, hb, hmem, hle⟩
      · exact .inl ⟨by simp [hx, hn], by simpa [hx] using htimer⟩
      · exact .inr (.inl ⟨by simp [hx, hn], behind ha hx (head ▸ hj) (hle t rfl)⟩)
      · exact hdate.second ha hmem hle (by simp [hold]) (by simpa [hx] using hb) (by simp [hmem])
  | @skip x xs head old =>
    intro s a hsent hr
    have hs : (.first, s, a) ∈ sends log := by simpa using hsent
    have ha : date' a = date a := hdate _ hs
    rcases h s a hs hr with ⟨hn, htimer⟩ | ⟨hn, j, hj, hle⟩ | ⟨hold, b, hb, hmem, hle⟩
    · exact .inl ⟨hn, htimer⟩
    · have hx : s ≠ x := fun he => hn (he ▸ old)
      exact .inr (.inl ⟨hn, behind ha hx (head ▸ hj) (hle t rfl)⟩)
    · exact hdate.second ha hmem hle hold hb (by simp [hmem])
  | echo sent => simp at hechoes
  | expire running new => simp at hlosses
  | giveUp running old => simp at hlosses

/-- A number that is queued at `now`, not after its first timer's date, is served
in time: it is among the first `q`, and the next turn is at most `d` away. -/
theorem queued_in_time {j : ℕ} {xs : List ℕ} (hj : xs[j]? = some s) (hq : xs.length ≤ q)
    (hnow : now ≤ date a) (hturn : ∀ t ∈ turn, t ≤ now + d) :
    ∀ t ∈ turn, t + j * d ≤ date a + q * d := by
  intro t ht
  have hlt := (List.getElem?_eq_some_iff.mp hj).1
  calc t + j * d ≤ now + d + j * d := Nat.add_le_add_right (hturn t ht) _
    _ = now + (j + 1) * d := by rw [Nat.succ_mul]; omega
    _ ≤ date a + q * d := Nat.add_le_add hnow (Nat.mul_le_mul_right d (by omega))

/-- A loss is declared or an echo taken at `now`, when no timer is overdue and
the next turn is at most `d` away. -/
theorem Attended.declared (h : Attended d r q log σ date turn) (hs : Step w σ lines σ')
    (hquiet : sends lines = []) (hlines : lines ≠ []) (hdate : Keeps log date date')
    (hnow : ∀ s a, σ.timer s = some a → now ≤ date a) (hturn : ∀ t ∈ turn, t ≤ now + d)
    (hq : σ'.pending.length ≤ q) : Attended d r q (log ++ lines) σ' date' turn := by
  have earlier : ∀ {s : ℕ} {a : τ}, (.first, s, a) ∈ sends (log ++ lines) → (.first, s, a) ∈ sends log := by
    simp [hquiet]
  have later : ∀ {s : ℕ} {b : τ}, (.again, s, b) ∈ sends log → (.again, s, b) ∈ sends (log ++ lines) := by
    simp [hquiet]
  have queued : ∀ {s : ℕ} {a : τ}, date' a = date a → σ.timer s = some a → s ∈ σ'.pending →
      ∃ j, σ'.pending[j]? = some s ∧ ∀ t ∈ turn, t + j * d ≤ date' a + q * d := by
    intro s a ha htimer hmem
    obtain ⟨j, hj⟩ := List.mem_iff_getElem?.mp hmem
    rw [ha]
    exact ⟨j, hj, queued_in_time hj hq (hnow s a htimer) hturn⟩
  have keeps : ∀ {xs ys : List ℕ} {s j : ℕ} {a : τ}, date' a = date a → xs[j]? = some s →
      (∀ t ∈ turn, t + j * d ≤ date a + q * d) →
      (xs ++ ys)[j]? = some s ∧ ∀ t ∈ turn, t + j * d ≤ date' a + q * d := by
    intro xs ys s j a ha hj hle
    rw [List.getElem?_append_left (List.getElem?_eq_some_iff.mp hj).1, ha]
    exact ⟨hj, hle⟩
  cases hs with
  | fresh t idle room => simp at hquiet
  | retry t head new => simp at hquiet
  | skip head old => exact absurd rfl hlines
  | @echo x sent =>
    intro s a hs hr
    have hs := earlier hs
    have ha : date' a = date a := hdate _ hs
    have hx : s ≠ x ∧ s ∉ σ.received := by simpa using hr
    rcases h s a hs hx.2 with ⟨hn, htimer⟩ | ⟨hn, j, hj, hle⟩ | ⟨hold, b, hb, hmem, hle⟩
    · by_cases hg : s ∈ σ.gap x
      · exact .inr (.inl ⟨hn, queued ha htimer (List.mem_append_right _ hg)⟩)
      · exact .inl ⟨hn, by simpa [hx.1, hg] using htimer⟩
    · exact .inr (.inl ⟨hn, j, keeps ha hj hle⟩)
    · have hg : s ∉ σ.gap x := fun hg => (Sender.mem_gap.mp hg).2.2.2 hold
      exact hdate.second ha hmem hle hold (by simpa [hx.1, hg] using hb) (later hmem)
  | @expire x t running new =>
    intro s a hs hr
    have hs := earlier hs
    have ha : date' a = date a := hdate _ hs
    rcases h s a hs hr with ⟨hn, htimer⟩ | ⟨hn, j, hj, hle⟩ | ⟨hold, b, hb, hmem, hle⟩
    · by_cases hx : s = x
      · exact .inr (.inl ⟨hn, queued ha htimer (by simp [hx])⟩)
      · exact .inl ⟨hn, by simpa [hx] using htimer⟩
    · exact .inr (.inl ⟨hn, j, keeps ha hj hle⟩)
    · have hx : s ≠ x := fun he => new (he ▸ hold)
      exact hdate.second ha hmem hle hold (by simpa [hx] using hb) (later hmem)
  | @giveUp x t running old =>
    intro s a hs hr
    have hs := earlier hs
    have ha : date' a = date a := hdate _ hs
    have hx : s ≠ x ∧ s ∉ σ.received := by simpa using hr
    rcases h s a hs hx.2 with ⟨hn, htimer⟩ | ⟨hn, j, hj, hle⟩ | ⟨hold, b, hb, hmem, hle⟩
    · exact .inl ⟨hn, by simpa [hx.1] using htimer⟩
    · exact .inr (.inl ⟨hn, j, keeps ha hj hle⟩)
    · exact hdate.second ha hmem hle hold (by simpa [hx.1] using hb) (later hmem)

/-- While no timer is overdue and the queue has its next turn, a packet that is
not resolved is within `q * d + r` of its first timer's date. -/
theorem Attended.deadline (h : Attended d r q log σ date turn)
    (hnow : ∀ s a, σ.timer s = some a → now ≤ date a) (hturn : ∃ t ∈ turn, now ≤ t)
    (hs : (.first, s, a) ∈ sends log) (hr : s ∉ σ.received) : now ≤ date a + q * d + r := by
  rcases h s a hs hr with ⟨-, htimer⟩ | ⟨-, j, -, hle⟩ | ⟨-, b, hb, -, hle⟩
  · have := hnow s a htimer
    omega
  · obtain ⟨t, ht, hnext⟩ := hturn
    have := hle t ht
    omega
  · exact Nat.le_trans (hnow s b hb) hle

-- ---------------------------------------------------------------------------
-- Nothing outstanding
-- ---------------------------------------------------------------------------

structure Sender.Settled (σ : Sender τ) : Prop where
  received : ∀ s < σ.next, s ∈ σ.received
  timer : ∀ s, σ.timer s = none

theorem Sender.Settled.next_le (h : σ.Settled) : σ.next ≤ σ.base := by
  by_contra hlt
  exact leastMissing_notMem _ (h.received _ (Nat.lt_of_not_le hlt))

/-- Until a settled sender transmits, the queue only shrinks. -/
theorem Sender.Settled.shrinks (h : σ.Settled) (hs : Step w σ lines σ') (hquiet : sends lines = []) :
    σ'.pending = σ.pending ∨ ∃ s, σ.pending = s :: σ'.pending := by
  cases hs with
  | fresh t idle room => simp at hquiet
  | retry t head new => simp at hquiet
  | skip head old => exact .inr ⟨_, head⟩
  | @echo x sent =>
    have hgap : σ.gap x = [] := by
      refine List.eq_nil_iff_forall_not_mem.mpr fun k hk => ?_
      obtain ⟨-, hlt, hmissing, -⟩ := mem_gap.mp hk
      exact hmissing (h.received k (hlt.trans sent))
    exact .inl (by simp [hgap])
  | expire running new => simp [h.timer] at running
  | giveUp running old => simp [h.timer] at running

theorem Sender.Settled.served (h : σ.Settled) (hs : Step w σ lines σ') (hquiet : sends lines = [])
    (hechoes : echoes lines = []) : ∃ s, σ.pending = s :: σ'.pending := by
  cases hs with
  | fresh t idle room => simp at hquiet
  | retry t head new => simp at hquiet
  | skip head old => exact ⟨_, head⟩
  | echo sent => simp at hechoes
  | expire running new => simp [h.timer] at running
  | giveUp running old => simp [h.timer] at running

end SelectiveRepeat
