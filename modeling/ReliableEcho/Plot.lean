import ReliableEcho.Lib.Text
import ReliableEcho.Clients
import ReliableEcho.Pacing

/-!
# From `PpsLog` to the plot

`PpsLog` prints four lines at a time among whatever else is printed.
`parse_log.sh` takes the lines of one counter out of them, and
`assn3_cwnd_graph.py` reads a point off each line that is left.

How a time is printed and how Python reads a number are parameters: `seconds`
is `operator<<` on `GetSeconds ()`, `float` is Python's.
-/

namespace ReliableEcho

open Runs (exec)

abbrev Text := List Char

/-- `operator<<` on a `uint32_t`. -/
def decimal (n : ℕ) : Text := Nat.toDigits 10 n

/-- The counters that `PpsLog` prints a line for. -/
inductive Series
  | packetSent
  | packetLost
  | packetRetrans
  deriving DecidableEq, Repr

namespace Series

/-- `parse` of `parse_log.sh`. The script has the last of these; for the other two
counters the variable is set by hand. -/
def parse : Series → Text
  | .packetSent => "PacketSent PPS:".toList
  | .packetLost => "PacketLost PPS:".toList
  | .packetRetrans => "PacketRetrans PPS:".toList

def count : Series → PpsCounters → ℕ
  | .packetSent => PpsCounters.packetSent
  | .packetLost => PpsCounters.packetLost
  | .packetRetrans => PpsCounters.packetRetrans

end Series

-- ---------------------------------------------------------------------------
-- What is printed
-- ---------------------------------------------------------------------------

/-- What `PpsLog` prints for a report, with `now` for the time. -/
def PpsLog.lines (now : Text) (report : PpsCounters) : List Text :=
  ["Time:".toList ++ '\t' :: now,
   "PacketSent PPS:".toList ++ '\t' :: (decimal report.packetSent ++ '\t' :: now),
   "PacketLost PPS:".toList ++ '\t' :: (decimal report.packetLost ++ '\t' :: now),
   "PacketRetrans PPS:".toList ++ '\t' :: (decimal report.packetRetrans ++ '\t' :: now)]

namespace Plot

-- ---------------------------------------------------------------------------
-- parse_log.sh and assn3_cwnd_graph.py
-- ---------------------------------------------------------------------------

/-- `grep "$parse" | sed "s/$parse\t//"` -/
def parseLog (parse : Text) (input : List Text) : List Text :=
  (Text.grep parse input).map (Text.deleteFirst (parse ++ ['\t']))

/-- The characters at which `str.split ()` splits a line of ASCII. -/
def isSpace (c : Char) : Bool := c = ' ' || (9 ≤ c.toNat && c.toNat ≤ 13) ||
  (28 ≤ c.toNat && c.toNat ≤ 31)

/-- `x_list` and `y_list`. There is none if `float` takes a field for no number
or a line has a field too few. -/
def readFile {F : Type} (float : Text → Option F) (lines : List Text) : Option (List F × List F) := do
  let lines ← lines.mapM fun x => (Text.words isSpace x).mapM float
  let xs ← lines.mapM fun x => x[1]?
  let ys ← lines.mapM fun x => x[0]?
  return (xs, ys)

variable {now : Text} {report : PpsCounters} {s : Series}

theorem decimal_spaceless (n : ℕ) : ∀ c ∈ decimal n, isSpace c = false := by
  intro c hc
  have hdigit : c.isDigit = true := Nat.isDigit_of_mem_toDigits (by decide) (by decide) hc
  have hrange : 48 ≤ c.toNat ∧ c.toNat ≤ 57 := by
    simpa [Char.isDigit, UInt32.le_iff_toNat_le] using hdigit
  have hblank : c ≠ ' ' := by
    rintro rfl
    exact absurd hrange (by decide)
  simp only [isSpace, hblank, decide_false, Bool.false_or, Bool.or_eq_false_iff,
    Bool.and_eq_false_iff, decide_eq_false_iff_not]
  omega

theorem decimal_ne_nil (n : ℕ) : decimal n ≠ [] := Nat.toDigits_ne_nil

/-- What the line of a counter starts with, up to its only blank. -/
def name : Series → Text
  | .packetSent => "PacketSent".toList
  | .packetLost => "PacketLost".toList
  | .packetRetrans => "PacketRetrans".toList

theorem parse_eq (s : Series) : s.parse = name s ++ ' ' :: "PPS:".toList := by
  cases s <;> rfl

theorem not_parse_infix {s' : Series} (hs : s ≠ s') {rest : Text} (hrest : ' ' ∉ rest) :
    ¬ s.parse <:+: s'.parse ++ '\t' :: rest := by
  intro h
  rw [parse_eq, parse_eq, List.append_assoc, List.cons_append] at h
  have hsuffix := Text.suffix_of_marked_infix (by cases s' <;> decide) (by simpa using hrest) h
  revert hsuffix
  cases s <;> cases s' <;> first | exact absurd rfl hs | decide

theorem not_parse_infix_time (s : Series) {now : Text} (hnow : ' ' ∉ now) :
    ¬ s.parse <:+: "Time:".toList ++ '\t' :: now := by
  intro h
  have hblank : ' ' ∈ "Time:".toList ++ '\t' :: now := h.mem (by rw [parse_eq]; simp)
  simp [hnow] at hblank

def line (now : Text) (report : PpsCounters) (s : Series) : Text :=
  s.parse ++ '\t' :: (decimal (s.count report) ++ '\t' :: now)

theorem lines_eq : PpsLog.lines now report = ("Time:".toList ++ '\t' :: now) ::
    [Series.packetSent, .packetLost, .packetRetrans].map (line now report) := rfl

theorem grep_lines (hnow : ∀ c ∈ now, isSpace c = false) (s : Series) :
    Text.grep s.parse (PpsLog.lines now report) = [line now report s] := by
  have hblank : ' ' ∉ now := fun h => absurd (hnow _ h) (by decide)
  have hmatch : ∀ s', s.parse <:+: line now report s' ↔ s' = s := by
    intro s'
    constructor
    · intro h
      by_contra hne
      refine not_parse_infix (Ne.symm hne) ?_ h
      have hdigits : ' ' ∉ decimal (s'.count report) :=
        fun hc => absurd (decimal_spaceless _ _ hc) (by decide)
      simp [hblank, hdigits]
    · rintro rfl
      exact List.infix_append_left
  have hfilter : (fun line => decide (s.parse <:+: line)) ∘ line now report = (· = s) :=
    funext fun s' => decide_eq_decide.mpr (hmatch s')
  rw [Text.grep, lines_eq, List.filter_cons_of_neg, List.filter_map, hfilter]
  · cases s <;> rfl
  · exact decide_eq_true_iff.not.mpr (not_parse_infix_time s hblank)

theorem deleteFirst_line (s : Series) : Text.deleteFirst (s.parse ++ ['\t']) (line now report s) =
    decimal (s.count report) ++ '\t' :: now := by
  have hline : line now report s =
      (s.parse ++ ['\t']) ++ (decimal (s.count report) ++ '\t' :: now) := by
    simp [line]
  rw [hline, Text.deleteFirst_append (by simp)]

/-- A line that has none of the patterns. -/
def Other (line : Text) : Prop := ∀ s : Series, ¬ s.parse <:+: line

instance (line : Text) : Decidable (Other line) :=
  decidable_of_iff (∀ s ∈ [Series.packetSent, .packetLost, .packetRetrans], ¬ s.parse <:+: line)
    ⟨fun h s => h s (by cases s <;> decide), fun h s _ => h s⟩

theorem grep_of_filter {log out : List Text}
    (h : log.filter (¬ Other ·) = out.filter (¬ Other ·)) :
    Text.grep s.parse log = Text.grep s.parse out := by
  have hsub : ∀ lines : List Text,
      Text.grep s.parse lines = Text.grep s.parse (lines.filter (¬ Other ·)) := by
    intro lines
    rw [Text.grep, Text.grep, List.filter_filter]
    refine List.filter_congr fun line _ => ?_
    have himp : s.parse <:+: line → ¬ Other line := fun hp ho => ho s hp
    simpa using himp
  rw [hsub, h, ← hsub]

theorem parseLog_reports {seconds : ℕ → Text} (hseconds : ∀ t, ∀ c ∈ seconds t, isSpace c = false)
    (reports : List (ℕ × PpsCounters)) (s : Series) :
    parseLog s.parse (reports.flatMap fun r => PpsLog.lines (seconds r.1) r.2) =
      reports.map fun r => decimal (s.count r.2) ++ '\t' :: seconds r.1 := by
  induction reports with
  | nil => rfl
  | cons r reports ih =>
    have happend : ∀ lines lines', parseLog s.parse (lines ++ lines') =
        parseLog s.parse lines ++ parseLog s.parse lines' := by
      simp [parseLog, Text.grep]
    rw [List.flatMap_cons, happend, ih, parseLog, grep_lines (hseconds r.1), List.map_singleton,
      deleteFirst_line, List.map_cons, List.singleton_append]

theorem mapM_map_some {α β γ : Type} {f : β → Option γ} {h : α → β} {g : α → γ}
    (hf : ∀ a, f (h a) = some (g a)) (as : List α) : (as.map h).mapM f = some (as.map g) := by
  rw [List.mapM_map, show f ∘ h = fun a => pure (g a) from funext hf, List.mapM_pure]
  rfl

section
variable {F : Type} {float : Text → Option F} {seconds : ℕ → Text} {time count : ℕ → F}

theorem readFile_reports (hseconds : ∀ t, seconds t ≠ [] ∧ ∀ c ∈ seconds t, isSpace c = false)
    (htime : ∀ t, float (seconds t) = some (time t))
    (hcount : ∀ n, float (decimal n) = some (count n)) (reports : List (ℕ × PpsCounters)) :
    readFile float (reports.map fun r => decimal (s.count r.2) ++ '\t' :: seconds r.1) =
      some (reports.map fun r => time r.1, reports.map fun r => count (s.count r.2)) := by
  have hwords : ∀ r : ℕ × PpsCounters,
      (Text.words isSpace (decimal (s.count r.2) ++ '\t' :: seconds r.1)).mapM float =
        some [count (s.count r.2), time r.1] := by
    intro r
    rw [Text.words_pair (by decide) (decimal_spaceless _) (hseconds r.1).2 (decimal_ne_nil _)
      (hseconds r.1).1]
    simp [hcount, htime]
  let row := fun r : ℕ × PpsCounters => [count (s.count r.2), time r.1]
  have hlines : (reports.map fun r => decimal (s.count r.2) ++ '\t' :: seconds r.1).mapM
      (fun x => (Text.words isSpace x).mapM float) = some (reports.map row) :=
    mapM_map_some (f := fun x => (Text.words isSpace x).mapM float) hwords reports
  have hxs : (reports.map row).mapM (fun x => x[1]?) = some (reports.map fun r => time r.1) :=
    mapM_map_some (f := fun x => x[1]?) (fun _ => rfl) reports
  have hys : (reports.map row).mapM (fun x => x[0]?) =
      some (reports.map fun r => count (s.count r.2)) :=
    mapM_map_some (f := fun x => x[0]?) (fun _ => rfl) reports
  simp only [readFile, hlines, Option.bind_eq_bind, Option.bind_some, hxs, hys]
  rfl
end

-- ---------------------------------------------------------------------------
-- A run
-- ---------------------------------------------------------------------------

section
variable {τ : Timing} {maxPackets : UInt32} {payload : Payload} {x x' : Timed Network Item}
  {is : List (ℕ × Network.Input)}

def reports (τ : Timing) (x : Timed Network Item) (is : List (ℕ × Network.Input)) :
    List (ℕ × PpsCounters) :=
  (Network.clocked τ).outputs (·.machine.reports) x is

theorem report_date (h : Network.TimedReachable τ maxPackets payload x) {t : ℕ} {i : Network.Input}
    (hs : (Network.clocked τ).timedStep x (t, i) = .ok x') :
    x'.state.machine.reports = x.state.machine.reports ∨
    ∃ r, x'.state.machine.reports = x.state.machine.reports ++ [r] ∧
      t = τ.startTime + x.state.machine.reports.length * reportPeriod := by
  obtain ⟨⟨-, -, hruns⟩, n, hn, rfl⟩ := Clocked.timedStep_ok.mp hs
  have hn : Network.step x.state i = .ok n := hn
  obtain ⟨hquiet, hran⟩ := Network.reports_step h.untimed hn
  by_cases hrun : ∃ id, x.state.machine.sim.events.lookup id = some .ppsLog ∧ i = .fire id
  · obtain ⟨id, hid, rfl⟩ := hrun
    obtain ⟨-, r, hr, -⟩ := hran id hid rfl
    have htick : x.state.tick .ppsLog = some (.event id) :=
      (Network.tick_eq_some h.untimed (by simp)).mpr ⟨id, hid, rfl⟩
    refine .inr ⟨r, hr, ?_⟩
    rw [(hruns (.event id) rfl).1, h.regular.2 _ htick]
    rfl
  · exact .inl (hquiet fun id hid hi => hrun ⟨id, hid, hi⟩).2

theorem reports_eq
    (hrun : exec (Network.clocked τ).timedStep (Network.timedStart τ maxPackets payload) is = .ok x) :
    reports τ (Network.timedStart τ maxPackets payload) is =
      (x.state.machine.reports.zipIdx).map fun (r, k) => (τ.startTime + k * reportPeriod, r) := by
  obtain ⟨new, hnew, heq⟩ := Clocked.outputs_eq (fun n : Network => n.machine.reports)
    (fun k => τ.startTime + k * reportPeriod) (fun _ _ _ _ hx hs => report_date hx hs) .refl hrun
  rw [show x.state.machine.reports = new from hnew]
  exact heq

theorem total_report {m m' : Machine} {i : Clients.Input} (h : m.Sound)
    (htotal : PpsCounters.total m.reports = m.statics) (hle : m.statics ≤ m.counters)
    (hi : Clients.reports m i = true) (hs : Clients.handle m i = .ok m') :
    m'.counters = m.counters ∧ m'.statics = m.counters ∧
      PpsCounters.total m'.reports = m.counters := by
  obtain ⟨hcounters, hstatics, hreports⟩ := Clients.handle_reports hi hs
  obtain ⟨hsent, hlost, hretrans⟩ := h.counters_lt
  refine ⟨hcounters, hstatics, ?_⟩
  rw [hreports]
  exact ((PpsCounters.total_snoc_iff m.statics hsent hlost hretrans (htotal ▸ hle)).mpr
    htotal.symm).2

theorem total_reports {m : Machine} (h : Machine.Reachable maxPackets payload m) :
    PpsCounters.total m.reports = m.statics ∧ m.statics ≤ m.counters := by
  refine Runs.Reachable.invariant (P := fun m : Machine =>
    PpsCounters.total m.reports = m.statics ∧ m.statics ≤ m.counters) h
    ⟨rfl, le_refl (⟨0, 0, 0⟩ : PpsCounters)⟩ ?_
  rintro m i m' hr ⟨htotal, hle⟩ hs
  have hm : Machine.Reachable maxPackets payload m := hr
  by_cases hrun : ∃ id, m.sim.events.lookup id = some .ppsLog ∧ i = .fire id
  · obtain ⟨id, hid, rfl⟩ := hrun
    obtain ⟨hcounters, hstatics, hsum⟩ := total_report (i := .run (.fire id)) hm.sound htotal hle
      (by simp [Clients.reports, hid]) hs
    rw [hstatics, hcounters]
    exact ⟨hsum, le_refl _⟩
  · have hlive : m.Live i := by
      cases i with
      | fire id => trivial
      | read packet => exact hm.configured.2.2.2
    obtain ⟨hstatics, hreports⟩ :=
      hm.sound.silent hlive hs fun id hi hid => hrun ⟨id, hid, hi⟩
    rw [hstatics, hreports]
    exact ⟨htotal, hle.trans (hm.sound.step hlive hs).2⟩

/-- What the run printed that `StopApplication` ends at `t`. -/
def stdout (seconds : ℕ → Text) (τ : Timing) (x : Timed Network Item)
    (is : List (ℕ × Network.Input)) (m : Machine) (t : ℕ) : List Text :=
  let last := m.stopApplication.reports.drop m.reports.length
  (reports τ x is ++ last.map (t, ·)).flatMap fun r => PpsLog.lines (seconds r.1) r.2

variable {F : Type} {float : Text → Option F} {seconds : ℕ → Text} {time count : ℕ → F}

/-- Whatever else is in the log, the plot of a counter has a point for each
second since the start and one for the stop, the values are the differences that
were reported, and they add up to the counter. -/
theorem plots_run (hseconds : ∀ t, seconds t ≠ [] ∧ ∀ c ∈ seconds t, isSpace c = false)
    (htime : ∀ t, float (seconds t) = some (time t))
    (hcount : ∀ n, float (decimal n) = some (count n))
    (hrun : exec (Network.clocked τ).timedStep (Network.timedStart τ maxPackets payload) is = .ok x)
    {t : ℕ} {log : List Text}
    (hlog : log.filter (¬ Other ·) = (stdout seconds τ (Network.timedStart τ maxPackets payload) is
      x.state.machine t).filter (¬ Other ·)) (s : Series) :
    ∃ ys : List ℕ, readFile float (parseLog s.parse log) =
        some ((List.range x.state.machine.reports.length).map
            (fun k => time (τ.startTime + k * reportPeriod)) ++ [time t], ys.map count) ∧
      ys = x.state.machine.stopApplication.reports.map s.count ∧
      ys.sum = s.count x.state.machine.counters := by
  have h : Network.TimedReachable τ maxPackets payload x := ⟨is, hrun⟩
  have hm := h.untimed.transport.1
  obtain ⟨htotal, hle⟩ := total_reports hm
  obtain ⟨-, -, hlast⟩ := Clients.handle_reports (m := x.state.machine) (i := .stopApplication) rfl rfl
  obtain ⟨-, -, hsum⟩ := total_report (i := .stopApplication) hm.sound htotal hle rfl rfl
  refine ⟨_, ?_, rfl, ?_⟩
  · have htimes : (x.state.machine.reports.zipIdx).map
          (fun p => time (τ.startTime + p.2 * reportPeriod)) =
        (List.range x.state.machine.reports.length).map
          fun k => time (τ.startTime + k * reportPeriod) := by
      rw [List.range_eq_range', ← List.zipIdx_map_snd 0 x.state.machine.reports, List.map_map]
      rfl
    have hcounts : (x.state.machine.reports.zipIdx).map (fun p => count (s.count p.1)) =
        x.state.machine.reports.map fun r => count (s.count r) := by
      conv_rhs => rw [← List.zipIdx_map_fst 0 x.state.machine.reports]
      rw [List.map_map]
      rfl
    have hparse : parseLog s.parse log = parseLog s.parse (stdout seconds τ
        (Network.timedStart τ maxPackets payload) is x.state.machine t) :=
      congrArg (List.map _) (grep_of_filter hlog)
    rw [hparse, stdout, parseLog_reports fun t => (hseconds t).2,
      readFile_reports hseconds htime hcount, hlast, reports_eq hrun, List.drop_left]
    simp only [List.map_append, List.map_map, List.map_cons, List.map_nil,
      Function.comp_def, htimes, hcounts]
  · rw [← hsum]
    cases s <;> rfl

/-- `float` on whole numbers. -/
def wholeFloat (w : Text) : Option ℕ :=
  if w ≠ [] ∧ w.all Char.isDigit then some (Nat.ofDigitChars 10 w 0) else none

theorem wholeFloat_decimal (n : ℕ) : wholeFloat (decimal n) = some n := by
  have hdigits : (decimal n).all Char.isDigit = true :=
    List.all_eq_true.mpr fun c hc => Nat.isDigit_of_mem_toDigits (by decide) (by decide) hc
  rw [wholeFloat, if_pos ⟨decimal_ne_nil n, hdigits⟩]
  exact congrArg some Nat.ofDigitChars_ten_toDigits

/-- A client that has sent two packets is stopped after a second. -/
theorem plots_run_after_two : ∃ x,
    exec (Network.clocked ⟨100000, 20000000, 1000000000⟩).timedStep
      (Network.timedStart ⟨100000, 20000000, 1000000000⟩ 3 ⟨4, 0, none⟩)
      [(1000000000, .fire 0), (1000000000, .fire 1), (1000100000, .fire 4)] = .ok x ∧
    ∀ log, log = "Packet Send:\t0".toList :: (stdout (fun t => decimal (t / 1000000000))
        ⟨100000, 20000000, 1000000000⟩
        (Network.timedStart ⟨100000, 20000000, 1000000000⟩ 3 ⟨4, 0, none⟩)
        [(1000000000, .fire 0), (1000000000, .fire 1), (1000100000, .fire 4)] x.state.machine
        2000000000 ++ ["Packet Drop Rate: 0%".toList]) →
      readFile wholeFloat (parseLog Series.packetSent.parse log) = some ([1, 2], [0, 2]) := by
  obtain ⟨x, hx, hreports, hlast⟩ : ∃ x,
      exec (Network.clocked ⟨100000, 20000000, 1000000000⟩).timedStep
        (Network.timedStart ⟨100000, 20000000, 1000000000⟩ 3 ⟨4, 0, none⟩)
        [(1000000000, .fire 0), (1000000000, .fire 1), (1000100000, .fire 4)] = .ok x ∧
      x.state.machine.reports = [⟨0, 0, 0⟩] ∧
      PpsCounters.difference x.state.machine.counters x.state.machine.statics = ⟨2, 0, 0⟩ :=
    ⟨_, rfl, rfl, rfl⟩
  refine ⟨x, hx, ?_⟩
  rintro log rfl
  have hother : ∀ out : List Text, ("Packet Send:\t0".toList ::
      (out ++ ["Packet Drop Rate: 0%".toList])).filter (¬ Other ·) = out.filter (¬ Other ·) := by
    intro out
    rw [List.filter_cons_of_neg (by decide), List.filter_append,
      List.filter_cons_of_neg (by decide), List.filter_nil, List.append_nil]
  obtain ⟨ys, hplot, rfl, -⟩ := plots_run (t := 2000000000)
    (fun _ => ⟨decimal_ne_nil _, decimal_spaceless _⟩) (fun _ => wholeFloat_decimal _)
    wholeFloat_decimal hx (hother _) .packetSent
  rw [hplot, (Clients.handle_reports (i := .stopApplication) rfl rfl).2.2, hreports, hlast]
  rfl

end

end Plot

end ReliableEcho
