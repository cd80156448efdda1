import ReliableEcho.Lib.Runs
import ReliableEcho.Lib.Cursor

/-!
# A selective-repeat sender

The abstract sender counts packets with unbounded numbers. A packet is sent
once as a fresh one and at most once more as a retransmission; each
transmission starts a timer. A loss is declared when a later packet is echoed
first (a gap) or when the timer runs out, and is queued for retransmission. A
packet whose second timer runs out is given up, which resolves it like an echo.

A step reports what it did as lines of a log. The history of a run is the log
it wrote, and the functions below read it.
-/

namespace SelectiveRepeat

open Cursor (leastMissing)

inductive Copy
  | first
  | again
  deriving DecidableEq, Repr

/-- Why a retransmission was queued. -/
inductive Cause
  | gap
  | timeout
  | giveUp
  deriving DecidableEq, Repr

/-- What a sender reports; `τ` names its timers. -/
inductive Line (τ : Type)
  | packetSend (seq : ℕ) (timer : τ)
  | packetRetrans (seq : ℕ) (timer : τ)
  | received (seq : ℕ)
  | packetLoss (cause : Cause) (seq : ℕ)
  | receiveRetrans (seq : ℕ)
  | timeout (timer : τ) (seq : ℕ)
  deriving DecidableEq, Repr

-- ---------------------------------------------------------------------------
-- Reading a log
-- ---------------------------------------------------------------------------

section
variable {τ : Type}

def Line.copy? : Line τ → Option (Copy × ℕ × τ)
  | .packetSend s t => some (.first, s, t)
  | .packetRetrans s t => some (.again, s, t)
  | _ => none

def Line.echo? : Line τ → Option ℕ
  | .received s => some s
  | _ => none

def Line.loss? : Line τ → Option (Cause × ℕ)
  | .packetLoss c s => some (c, s)
  | _ => none

def Line.recovered? : Line τ → Option ℕ
  | .receiveRetrans s => some s
  | _ => none

def sends (log : List (Line τ)) : List (Copy × ℕ × τ) := log.filterMap Line.copy?

def copies (s : ℕ) (log : List (Line τ)) : List (Copy × ℕ × τ) := (sends log).filter (·.2.1 = s)

def retransmitted (log : List (Line τ)) : List ℕ :=
  ((sends log).filter (·.1 = .again)).map (·.2.1)

def echoes (log : List (Line τ)) : List ℕ := log.filterMap Line.echo?

def losses (log : List (Line τ)) : List (Cause × ℕ) := log.filterMap Line.loss?

/-- Every retransmission entry queued, in order. -/
def declared (log : List (Line τ)) : List ℕ := (losses log).map Prod.snd

def lostBy (c : Cause) (log : List (Line τ)) : List ℕ :=
  ((losses log).filter (·.1 = c)).map Prod.snd

/-- The declarations that count as a loss: by a gap, or by a timeout before
any retransmission. -/
def lost (log : List (Line τ)) : List ℕ := ((losses log).filter (·.1 ≠ .giveUp)).map Prod.snd

def recovered (log : List (Line τ)) : List ℕ := log.filterMap Line.recovered?

/-- What the echo of `s` reports: the losses of the gap it opens, and whether
it counts as a recovered packet. -/
def echoLines (s : ℕ) (gap : List ℕ) (late : Bool) : List (Line τ) :=
  .received s :: gap.map (.packetLoss .gap) ++ if late then [.receiveRetrans s] else []

variable {log log' : List (Line τ)} {s : ℕ} {gap : List ℕ} {late : Bool} {c : Cause}

@[simp] theorem sends_append : sends (log ++ log') = sends log ++ sends log' := by simp [sends]
@[simp] theorem copies_append : copies s (log ++ log') = copies s log ++ copies s log' := by
  simp [copies]
@[simp] theorem retransmitted_append :
    retransmitted (log ++ log') = retransmitted log ++ retransmitted log' := by simp [retransmitted]
@[simp] theorem echoes_append : echoes (log ++ log') = echoes log ++ echoes log' := by simp [echoes]
@[simp] theorem losses_append : losses (log ++ log') = losses log ++ losses log' := by simp [losses]
@[simp] theorem declared_append : declared (log ++ log') = declared log ++ declared log' := by
  simp [declared]
@[simp] theorem lostBy_append : lostBy c (log ++ log') = lostBy c log ++ lostBy c log' := by
  simp [lostBy]
@[simp] theorem lost_append : lost (log ++ log') = lost log ++ lost log' := by simp [lost]
@[simp] theorem recovered_append : recovered (log ++ log') = recovered log ++ recovered log' := by
  simp [recovered]

section
variable {t : τ}

@[simp] theorem sends_nil : sends ([] : List (Line τ)) = [] := rfl
@[simp] theorem echoes_nil : echoes ([] : List (Line τ)) = [] := rfl
@[simp] theorem recovered_nil : recovered ([] : List (Line τ)) = [] := rfl

@[simp] theorem copies_nil : copies s ([] : List (Line τ)) = [] := rfl
@[simp] theorem retransmitted_nil : retransmitted ([] : List (Line τ)) = [] := rfl
@[simp] theorem declared_nil : declared ([] : List (Line τ)) = [] := rfl
@[simp] theorem lost_nil : lost ([] : List (Line τ)) = [] := rfl
@[simp] theorem lostBy_nil : lostBy c ([] : List (Line τ)) = [] := rfl

@[simp] theorem sends_packetSend : sends [.packetSend s t] = [(.first, s, t)] := rfl
@[simp] theorem echoes_packetSend : echoes [.packetSend s t] = [] := rfl
@[simp] theorem losses_packetSend : losses [.packetSend s t] = [] := rfl
@[simp] theorem recovered_packetSend : recovered [.packetSend s t] = [] := rfl

@[simp] theorem copies_packetSend {k : ℕ} :
    copies k [.packetSend s t] = if s = k then [(.first, s, t)] else [] := by
  by_cases h : s = k <;> simp [copies, h]
@[simp] theorem retransmitted_packetSend : retransmitted [.packetSend s t] = [] := rfl
@[simp] theorem declared_packetSend : declared [.packetSend s t] = [] := rfl
@[simp] theorem lost_packetSend : lost [.packetSend s t] = [] := rfl
@[simp] theorem lostBy_packetSend : lostBy c [.packetSend s t] = [] := rfl

@[simp] theorem sends_packetRetrans : sends [.packetRetrans s t] = [(.again, s, t)] := rfl
@[simp] theorem echoes_packetRetrans : echoes [.packetRetrans s t] = [] := rfl
@[simp] theorem losses_packetRetrans : losses [.packetRetrans s t] = [] := rfl
@[simp] theorem recovered_packetRetrans : recovered [.packetRetrans s t] = [] := rfl

@[simp] theorem copies_packetRetrans {k : ℕ} :
    copies k [.packetRetrans s t] = if s = k then [(.again, s, t)] else [] := by
  by_cases h : s = k <;> simp [copies, h]
@[simp] theorem retransmitted_packetRetrans : retransmitted [.packetRetrans s t] = [s] := rfl
@[simp] theorem declared_packetRetrans : declared [.packetRetrans s t] = [] := rfl
@[simp] theorem lost_packetRetrans : lost [.packetRetrans s t] = [] := rfl
@[simp] theorem lostBy_packetRetrans : lostBy c [.packetRetrans s t] = [] := rfl

@[simp] theorem sends_timeout : sends [.timeout t s, .packetLoss c s] = [] := rfl
@[simp] theorem echoes_timeout : echoes [.timeout t s, .packetLoss c s] = [] := rfl
@[simp] theorem losses_timeout : losses [.timeout t s, .packetLoss c s] = [(c, s)] := rfl
@[simp] theorem recovered_timeout : recovered [.timeout t s, .packetLoss c s] = [] := rfl
@[simp] theorem copies_timeout {k : ℕ} : copies k [.timeout t s, .packetLoss c s] = [] := rfl
@[simp] theorem retransmitted_timeout : retransmitted [.timeout t s, .packetLoss c s] = [] := rfl
@[simp] theorem declared_timeout : declared [.timeout t s, .packetLoss c s] = [s] := rfl
@[simp] theorem lost_timeout :
    lost [.timeout t s, .packetLoss c s] = if c = .giveUp then [] else [s] := by
  cases c <;> rfl
@[simp] theorem lostBy_timeout {d : Cause} :
    lostBy d [.timeout t s, .packetLoss c s] = if c = d then [s] else [] := by
  cases c <;> cases d <;> rfl

end

theorem mem_echoes : s ∈ echoes log ↔ .received s ∈ log := by
  simp only [echoes, List.mem_filterMap]
  constructor
  · rintro ⟨line, hl, h⟩
    cases line <;> cases h
    exact hl
  · exact fun hl => ⟨_, hl, rfl⟩

theorem mem_losses : (c, s) ∈ losses log ↔ .packetLoss c s ∈ log := by
  simp only [losses, List.mem_filterMap]
  constructor
  · rintro ⟨line, hl, h⟩
    cases line <;> cases h
    exact hl
  · exact fun hl => ⟨_, hl, rfl⟩

theorem filterMap_echoLines {β : Type} (f : Line τ → Option β) :
    (echoLines s gap late).filterMap f = (f (.received s)).toList ++
      gap.filterMap (fun k => f (.packetLoss .gap k)) ++
        if late then (f (.receiveRetrans s)).toList else [] := by
  cases late <;> cases h : f (.received s) <;> cases h' : f (.receiveRetrans s) <;>
    simp [echoLines, List.filterMap_map, h, h']

@[simp] theorem sends_echoLines : sends (echoLines s gap late : List (Line τ)) = [] := by
  simp [sends, filterMap_echoLines, Line.copy?]

@[simp] theorem copies_echoLines {k : ℕ} : copies k (echoLines s gap late : List (Line τ)) = [] := by
  simp [copies]

@[simp] theorem retransmitted_echoLines :
    retransmitted (echoLines s gap late : List (Line τ)) = [] := by
  simp [retransmitted]

@[simp] theorem echoes_echoLines : echoes (echoLines s gap late : List (Line τ)) = [s] := by
  simp [echoes, filterMap_echoLines, Line.echo?]

@[simp] theorem losses_echoLines :
    losses (echoLines s gap late : List (Line τ)) = gap.map (Prod.mk .gap) := by
  simp [losses, filterMap_echoLines, Line.loss?, List.filterMap_eq_map']

@[simp] theorem declared_echoLines : declared (echoLines s gap late : List (Line τ)) = gap := by
  simp [declared]

@[simp] theorem lost_echoLines : lost (echoLines s gap late : List (Line τ)) = gap := by
  simp [lost, List.filter_map, Function.comp_def]

@[simp] theorem lostBy_echoLines :
    lostBy c (echoLines s gap late : List (Line τ)) = if c = .gap then gap else [] := by
  cases c <;> simp [lostBy, List.filter_map, Function.comp_def]

@[simp] theorem recovered_echoLines :
    recovered (echoLines s gap late : List (Line τ)) = if late then [s] else [] := by
  simp [recovered, filterMap_echoLines, Line.recovered?]

end

-- ---------------------------------------------------------------------------
-- The sender
-- ---------------------------------------------------------------------------

/-- `pending` holds the queued retransmissions, the next one first; `ack` is
one past the greatest number echoed. -/
structure Sender (τ : Type) where
  next : ℕ
  ack : ℕ
  pending : List ℕ
  received : Finset ℕ
  retried : Finset ℕ
  timer : ℕ → Option τ

section
variable {τ : Type}

def Sender.init : Sender τ := ⟨0, 0, [], ∅, ∅, fun _ => none⟩

def Sender.base (σ : Sender τ) : ℕ := leastMissing σ.received

/-- The numbers that the echo of `s` declares lost. -/
def Sender.gap (σ : Sender τ) (s : ℕ) : List ℕ :=
  (List.range' σ.ack (s - σ.ack)).filter fun k => k ∉ σ.received ∧ k ∉ σ.retried

/-- One step of a sender with a window of `w` packets. -/
inductive Step (w : ℕ) : Sender τ → List (Line τ) → Sender τ → Prop
  | fresh {σ : Sender τ} (t : τ) (idle : σ.pending = []) (room : σ.next < σ.base + w) :
      Step w σ [.packetSend σ.next t]
        { σ with next := σ.next + 1, timer := fun k => if k = σ.next then some t else σ.timer k }
  | retry {σ : Sender τ} {s : ℕ} {rest : List ℕ} (t : τ) (head : σ.pending = s :: rest)
      (new : s ∉ σ.retried) :
      Step w σ [.packetRetrans s t]
        { σ with pending := rest, retried := insert s σ.retried,
                 timer := fun k => if k = s then some t else σ.timer k }
  | skip {σ : Sender τ} {s : ℕ} {rest : List ℕ} (head : σ.pending = s :: rest)
      (old : s ∈ σ.retried) :
      Step w σ [] { σ with pending := rest }
  | echo {σ : Sender τ} {s : ℕ} (sent : s < σ.next) :
      Step w σ (echoLines s (σ.gap s) (s < σ.ack))
        { σ with ack := max σ.ack (s + 1), received := insert s σ.received,
                 pending := σ.pending ++ σ.gap s,
                 timer := fun k => if k = s ∨ k ∈ σ.gap s then none else σ.timer k }
  | expire {σ : Sender τ} {s : ℕ} {t : τ} (running : σ.timer s = some t) (new : s ∉ σ.retried) :
      Step w σ [.timeout t s, .packetLoss .timeout s]
        { σ with pending := σ.pending ++ [s], timer := fun k => if k = s then none else σ.timer k }
  | giveUp {σ : Sender τ} {s : ℕ} {t : τ} (running : σ.timer s = some t) (old : s ∈ σ.retried) :
      Step w σ [.timeout t s, .packetLoss .giveUp s]
        { σ with received := insert s σ.received, pending := σ.pending ++ [s],
                 timer := fun k => if k = s then none else σ.timer k }

variable {σ : Sender τ} {s k : ℕ}

theorem Sender.mem_gap : k ∈ σ.gap s ↔ σ.ack ≤ k ∧ k < s ∧ k ∉ σ.received ∧ k ∉ σ.retried := by
  simp only [Sender.gap, List.mem_filter, List.mem_range'_1, decide_eq_true_eq]
  grind

theorem Sender.gap_nodup (σ : Sender τ) (s : ℕ) : (σ.gap s).Nodup :=
  (List.nodup_range' ..).filter _

theorem Sender.gap_eq_nil (h : s ≤ σ.ack) : σ.gap s = [] := by
  simp [Sender.gap, Nat.sub_eq_zero_of_le h]

end

end SelectiveRepeat
