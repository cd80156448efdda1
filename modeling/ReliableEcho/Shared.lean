import ReliableEcho.Network
import ReliableEcho.Clients

/-!
# Several clients and one server

`UdpReliableEchoServer` keeps nothing of a client: what its socket holds goes
back to the address it came from. Each client has a path of its own to the
server and back. The server's socket and the static counters of `PpsLog` are
all that clients share, and neither shows: until it stops, a client runs as one
alone in a `Network` would.
-/

namespace ReliableEcho

open SelectiveRepeat (Line echoes)

namespace Machine

variable {m m' : Machine} {s : PpsCounters} {r : List PpsCounters} {id seq : ℕ} {packet : Buffer}

-- ---------------------------------------------------------------------------
-- What `PpsLog` printed
-- ---------------------------------------------------------------------------

def reprint (m : Machine) (s : PpsCounters) (r : List PpsCounters) : Machine :=
  { m with statics := s, reports := r }

theorem transmit_reprint {h : RdtHeader} {p : Buffer} {line : ℕ → EventId → Line EventId}
    (hs : m.transmit h p line = .ok m') :
    (m.reprint s r).transmit h p line = .ok (m'.reprint s r) := by
  obtain ⟨hsocket, rfl⟩ := transmit_ok.mp hs
  exact transmit_ok.mpr ⟨hsocket, apply_ite (reprint · s r) _ _ _⟩

theorem send_reprint (hs : m.send = .ok m') : (m.reprint s r).send = .ok (m'.reprint s r) := by
  unfold send at hs ⊢
  dsimp only at hs ⊢
  split at hs
  · cases hs
  rename_i hexp
  refine (if_neg hexp).trans ?_
  split at hs
  · rename_i hfull
    cases hs
    exact if_pos hfull
  rename_i hfull
  refine (if_neg hfull).trans ?_
  obtain ⟨p, hp, hs⟩ := Runs.bind_ok.mp hs
  refine Runs.bind_ok.mpr ⟨p, hp, ?_⟩
  split at hs
  · rename_i hfresh
    exact (if_pos hfresh).trans (transmit_reprint hs)
  rename_i hfresh
  refine (if_neg hfresh).trans ?_
  split at hs
  · rename_i hnew
    exact (if_pos hnew).trans (transmit_reprint hs)
  · rename_i hold
    cases hs
    exact if_neg hold

theorem cancelTimer_reprint : (m.reprint s r).cancelTimer seq = (m.cancelTimer seq).reprint s r := by
  dsimp only [cancelTimer, reprint]
  split <;> rfl

theorem gapLoss_reprint : (m.reprint s r).gapLoss seq = (m.gapLoss seq).reprint s r := by
  by_cases hn : seq ∉ m.client.receivedPackets ∧ seq ∉ m.client.retransmitPackets
  · have hm : m.gapLoss seq = _ := if_pos hn
    rw [hm]
    let counted := { m.client with packetLost := u32 (m.client.packetLost + 1) }
    exact (if_pos hn).trans (cancelTimer_reprint (m := write
      { m with client := counted.queueRetransmission seq } [.packetLoss .gap seq]))
  · have hm : m.gapLoss seq = m := if_neg hn
    rw [hm]
    exact if_neg hn

theorem foldl_gapLoss_reprint (seqs : List ℕ) :
    seqs.foldl gapLoss (m.reprint s r) = (seqs.foldl gapLoss m).reprint s r := by
  induction seqs generalizing m with
  | nil => rfl
  | cons seq seqs ih => rw [List.foldl_cons, gapLoss_reprint, ih, List.foldl_cons]

theorem classify_reprint : (m.reprint s r).classify seq = (m.classify seq).reprint s r := by
  unfold classify
  change (if seq = m.client.ackNum then _ else if m.client.ackNum < seq then _ else _) = _
  split
  · rfl
  split
  · simp only [gapLoop]
    rw [show (m.reprint s r).client = m.client from rfl, foldl_gapLoss_reprint]
    rfl
  · rfl

theorem taken_reprint : (m.reprint s r).taken seq = (m.taken seq).reprint s r := by
  unfold taken
  rw [cancelTimer_reprint]
  let received := insert seq (m.cancelTimer seq).client.receivedPackets
  exact classify_reprint (m := write { m.cancelTimer seq with client :=
    { (m.cancelTimer seq).client with receivedPackets := received } } [.received seq])

theorem readPacket_reprint (hs : m.readPacket packet = .ok m') :
    (m.reprint s r).readPacket packet = .ok (m'.reprint s r) := by
  obtain ⟨h, data, base, hd, hbase, rfl⟩ := readPacket_ok.mp hs
  refine readPacket_ok.mpr ⟨h, data, base, hd, ?_, ?_⟩
  · rwa [taken_reprint]
  · rw [taken_reprint]
    rfl

theorem handleTimeout_reprint (hs : m.handleTimeout seq = .ok m') :
    (m.reprint s r).handleTimeout seq = .ok (m'.reprint s r) := by
  obtain ⟨m₁, hloss, hs⟩ := Runs.bind_ok.mp hs
  cases hs
  refine Runs.bind_ok.mpr ⟨m₁.reprint s r, timeoutLoss_ok.mpr ?_, rfl⟩
  rcases timeoutLoss_ok.mp hloss with ⟨hn, rfl⟩ | ⟨hmem, base, hbase, rfl⟩
  · exact .inl ⟨hn, rfl⟩
  · exact .inr ⟨hmem, base, hbase, rfl⟩

theorem fire_reprint (hs : m.fire id = .ok m') :
    ∃ s' r', (m.reprint s r).fire id = .ok (m'.reprint s' r') := by
  unfold fire at hs
  split at hs
  · cases hs
  rename_i ev hid
  have hid' : (m.reprint s r).sim.events.lookup id = some ev := hid
  simp only [fire, hid']
  cases ev with
  | send => exact ⟨s, r, send_reprint hs⟩
  | handleTimeout seq => exact ⟨s, r, handleTimeout_reprint hs⟩
  | ppsLog =>
    cases hs
    exact ⟨_, _, rfl⟩

theorem socket_fire (hs : m.fire id = .ok m') : m'.client.socket = m.client.socket := by
  unfold fire at hs
  split at hs
  · cases hs
  rename_i ev hid
  cases ev with
  | send =>
    rw [client_send hs]
  | handleTimeout seq =>
    obtain ⟨m₁, hloss, hs⟩ := Runs.bind_ok.mp hs
    cases hs
    rw [Client.queueRetransmission_eq]
    rcases timeoutLoss_ok.mp hloss with ⟨-, rfl⟩ | ⟨-, base, -, rfl⟩ <;> rfl
  | ppsLog =>
    cases hs
    rfl

end Machine

-- ---------------------------------------------------------------------------
-- The server
-- ---------------------------------------------------------------------------

/-- `socket` is what the server's socket holds, each packet with the address it
came from. A stopped server is no longer `listening`. -/
structure Shared (ι : Type) where
  machine : ι → Machine
  statics : PpsCounters
  uplink : ι → List Datagram
  socket : List (ι × Datagram)
  downlink : ι → List Datagram
  listening : Bool

namespace Shared

variable {ι : Type} {g g' : Shared ι} {k : ι} {maxPackets : ι → UInt32} {payload : ι → Payload}

def start (maxPackets : ι → UInt32) (payload : ι → Payload) : Shared ι :=
  ⟨fun k => .start (maxPackets k) (payload k), ⟨0, 0, 0⟩, fun _ => [], [], fun _ => [], true⟩

inductive Input (ι : Type)
  | fire (k : ι) (id : EventId)
  | arrive (k : ι)
  | handleRead
  | deliver (k : ι)
  | stopClient (k : ι)
  | stopServer
  | dropUplink (k : ι) (i : ℕ)
  | dropDownlink (k : ι) (i : ℕ)

def Input.client? : Input ι → Option ι
  | .fire k _ | .arrive k | .deliver k | .stopClient k | .dropUplink k _ | .dropDownlink k _ => some k
  | .handleRead | .stopServer => none

def load (g : Shared ι) (k : ι) : Machine := { g.machine k with statics := g.statics }

theorem load_clients {c : Clients ι} (hmachine : c.machine = g.machine)
    (hstatics : c.statics = g.statics) : c.load k = g.load k := by
  rw [Clients.load, load, hmachine, hstatics]

/-- What of the socket's packets came from `k`. -/
def queued [DecidableEq ι] (socket : List (ι × Datagram)) (k : ι) : List Datagram :=
  (socket.filter (·.1 = k)).map Prod.snd

variable [DecidableEq ι]

def store (g : Shared ι) (k : ι) (m : Machine) : Shared ι :=
  { g with machine := Function.update g.machine k m, statics := m.statics }

/-- The loop of `UdpReliableEchoServer::HandleRead`: a packet goes back to the
address `RecvFrom` gave with it. -/
def echo (downlink : ι → List Datagram) : List (ι × Datagram) → ι → List Datagram
  | [] => downlink
  | (k, d) :: rest =>
    let reply := { d with packet := UdpReliableEchoServer.handleRead d.packet }
    echo (Function.update downlink k (downlink k ++ [reply])) rest

def step (g : Shared ι) : Input ι → Except Fault (Shared ι)
  | .fire k id => do
    let m ← (g.load k).fire id
    let sent := Network.datagrams m.wire (g.machine k).wire.length
    .ok (store { g with uplink := Function.update g.uplink k (g.uplink k ++ sent) } k m)
  | .arrive k =>
    match g.uplink k with
    | [] => .error .notEnabled
    | d :: rest => .ok { g with
        uplink := Function.update g.uplink k rest
        socket := if g.listening then g.socket ++ [(k, d)] else g.socket }
  | .handleRead =>
    if g.listening then .ok { g with socket := [], downlink := echo g.downlink g.socket }
    else .error .notEnabled
  | .deliver k =>
    match g.downlink k with
    | [] => .error .notEnabled
    | d :: rest => do
      let g' := { g with downlink := Function.update g.downlink k rest }
      -- a client without a socket is not called back
      if (g.machine k).client.socket then do
        let m ← (g.load k).handleRead [d.packet]
        .ok (g'.store k m)
      else .ok g'
  | .stopClient k => .ok (g.store k (g.load k).stopApplication)
  | .stopServer => .ok { g with listening := false }
  | .dropUplink k i =>
    if i < (g.uplink k).length then
      .ok { g with uplink := Function.update g.uplink k ((g.uplink k).eraseIdx i) }
    else .error .notEnabled
  | .dropDownlink k i =>
    if i < (g.downlink k).length then
      .ok { g with downlink := Function.update g.downlink k ((g.downlink k).eraseIdx i) }
    else .error .notEnabled

abbrev Reachable (maxPackets : ι → UInt32) (payload : ι → Payload) (g : Shared ι) : Prop :=
  Runs.Reachable step (start maxPackets payload) g

@[simp] theorem machine_store (j : ι) (m : Machine) :
    (g.store k m).machine j = if j = k then m else g.machine j :=
  Function.update_apply ..
@[simp] theorem uplink_store (m : Machine) : (g.store k m).uplink = g.uplink := rfl
@[simp] theorem socket_store (m : Machine) : (g.store k m).socket = g.socket := rfl
@[simp] theorem downlink_store (m : Machine) : (g.store k m).downlink = g.downlink := rfl

theorem queued_snoc (socket : List (ι × Datagram)) (j : ι) (d : Datagram) :
    queued (socket ++ [(j, d)]) k = queued socket k ++ if j = k then [d] else [] := by
  by_cases h : j = k <;> simp [queued, h]

theorem echo_apply (downlink : ι → List Datagram) (socket : List (ι × Datagram)) (k : ι) :
    echo downlink socket k = downlink k ++ queued socket k := by
  induction socket generalizing downlink with
  | nil => simp [echo, queued]
  | cons head rest ih =>
    obtain ⟨j, d⟩ := head
    rw [echo, ih]
    by_cases h : j = k
    · subst h
      simp [queued, UdpReliableEchoServer.handleRead]
    · simp [queued, h, Function.update_of_ne (Ne.symm h)]

/-- What a step does to the client it is about, the path and the server. A client
without a socket is not called back: its echo is discarded. -/
inductive Stepped (g : Shared ι) : Input ι → Shared ι → Prop
  | fire (j : ι) (id : EventId) (m : Machine) (hm : (g.load j).fire id = .ok m) :
    Stepped g (.fire j id) (store { g with uplink := Function.update g.uplink j (g.uplink j ++
      Network.datagrams m.wire (g.machine j).wire.length) } j m)
  | arrive (j : ι) (d : Datagram) (rest : List Datagram) (hd : g.uplink j = d :: rest) :
    Stepped g (.arrive j) { g with
      uplink := Function.update g.uplink j rest
      socket := if g.listening then g.socket ++ [(j, d)] else g.socket }
  | handleRead (hl : g.listening = true) :
    Stepped g .handleRead { g with socket := [], downlink := echo g.downlink g.socket }
  | deliver (j : ι) (d : Datagram) (rest : List Datagram) (m : Machine)
    (hd : g.downlink j = d :: rest) (hsocket : (g.machine j).client.socket = true)
    (hm : (g.load j).readPacket d.packet = .ok m) :
    Stepped g (.deliver j)
      (store { g with downlink := Function.update g.downlink j rest } j m)
  | discard (j : ι) (d : Datagram) (rest : List Datagram) (hd : g.downlink j = d :: rest)
    (hclosed : (g.machine j).client.socket = false) :
    Stepped g (.deliver j) { g with downlink := Function.update g.downlink j rest }
  | stopClient (j : ι) : Stepped g (.stopClient j) (g.store j (g.load j).stopApplication)
  | stopServer : Stepped g .stopServer { g with listening := false }
  | dropUplink (j : ι) (a : ℕ) (ha : a < (g.uplink j).length) :
    Stepped g (.dropUplink j a) { g with
      uplink := Function.update g.uplink j ((g.uplink j).eraseIdx a) }
  | dropDownlink (j : ι) (a : ℕ) (ha : a < (g.downlink j).length) :
    Stepped g (.dropDownlink j a) { g with
      downlink := Function.update g.downlink j ((g.downlink j).eraseIdx a) }

theorem step_cases {i : Input ι} (hs : step g i = .ok g') : g.Stepped i g' := by
  cases i with
  | fire j id =>
    obtain ⟨m, hm, hg⟩ := Runs.bind_ok.mp hs
    cases hg
    exact .fire j id m hm
  | arrive j =>
    simp only [step] at hs
    split at hs
    · cases hs
    · rename_i d rest hd
      cases hs
      exact .arrive j d rest hd
  | handleRead =>
    simp only [step] at hs
    split at hs
    · cases hs
      exact .handleRead ‹_›
    · cases hs
  | deliver j =>
    simp only [step] at hs
    split at hs
    · cases hs
    rename_i d rest hd
    split at hs
    · rename_i hsocket
      obtain ⟨m, hm, hg⟩ := Runs.bind_ok.mp hs
      cases hg
      exact .deliver j d rest m hd hsocket (Machine.handleRead_singleton.mp hm)
    · rename_i hsocket
      cases hs
      exact .discard j d rest hd (by simpa using hsocket)
  | stopClient j =>
    cases hs
    exact .stopClient j
  | stopServer =>
    cases hs
    exact .stopServer
  | dropUplink j a =>
    simp only [step] at hs
    split at hs
    · cases hs
      exact .dropUplink j a ‹_›
    · cases hs
  | dropDownlink j a =>
    simp only [step] at hs
    split at hs
    · cases hs
      exact .dropDownlink j a ‹_›
    · cases hs

-- ---------------------------------------------------------------------------
-- One client
-- ---------------------------------------------------------------------------

/-- `n` is what `k` would see alone: its own part of the socket is on the way to
the server, and only what was printed may differ. -/
structure View (g : Shared ι) (k : ι) (n : Network) : Prop where
  machine : ∃ s r, n.machine = (g.machine k).reprint s r
  toServer : n.toServer = queued g.socket k ++ g.uplink k
  toClient : n.toClient = g.downlink k

theorem step_other {i : Input ι} {j : ι} (hs : step g i = .ok g') (hi : i.client? = some j)
    (hk : k ≠ j) : g'.machine k = g.machine k ∧ queued g'.socket k = queued g.socket k ∧
      g'.uplink k = g.uplink k ∧ g'.downlink k = g.downlink k := by
  cases step_cases hs with
  | handleRead => cases hi
  | stopServer => cases hi
  | arrive =>
    cases hi
    refine ⟨rfl, ?_, by simp [hk], rfl⟩
    dsimp only
    split
    · rw [queued_snoc, if_neg (Ne.symm hk), List.append_nil]
    · rfl
  | _ =>
    cases hi
    simp [hk]

theorem step_socket {i : Input ι} (hs : step g i = .ok g')
    (h : (g'.machine k).client.socket = true) : (g.machine k).client.socket = true := by
  by_cases hother : ∃ j, i.client? = some j ∧ k ≠ j
  · obtain ⟨j, hi, hk⟩ := hother
    rwa [← (step_other hs hi hk).1]
  cases step_cases hs with
  | fire j _ _ hm =>
    obtain rfl : k = j := by simpa [Input.client?] using hother
    rw [machine_store, if_pos rfl, Machine.socket_fire hm] at h
    exact h
  | arrive => exact h
  | handleRead => exact h
  | deliver j _ _ _ _ hsocket =>
    obtain rfl : k = j := by simpa [Input.client?] using hother
    exact hsocket
  | discard => exact h
  | stopClient j =>
    obtain rfl : k = j := by simpa [Input.client?] using hother
    rw [machine_store, if_pos rfl] at h
    cases h
  | stopServer => exact h
  | dropUplink => exact h
  | dropDownlink => exact h

variable {n n' : Network}

theorem View.fire (hv : View g k n) {id : EventId} {m : Machine} (hm : (g.load k).fire id = .ok m) :
    ∃ n', Network.step n (.fire id) = .ok n' ∧
      View (store { g with uplink := Function.update g.uplink k (g.uplink k ++
        Network.datagrams m.wire (g.machine k).wire.length) } k m) k n' := by
  obtain ⟨s, r, hmachine⟩ := hv.machine
  obtain ⟨s', r', hfire⟩ := Machine.fire_reprint (s := s) (r := r) hm
  have hfire : n.machine.fire id = .ok (m.reprint s' r') := hmachine ▸ hfire
  refine ⟨_, Runs.bind_ok.mpr ⟨_, hfire, rfl⟩, ⟨s', r', ?_⟩, ?_, hv.toClient⟩
  · simp [store]
  · simp [store, hv.toServer, hmachine, Machine.reprint]

theorem View.deliver (hv : View g k n) {d : Datagram} {rest : List Datagram} {m : Machine}
    (hd : g.downlink k = d :: rest) (hm : (g.load k).readPacket d.packet = .ok m) :
    ∃ n', Network.step n .deliver = .ok n' ∧
      View (store { g with downlink := Function.update g.downlink k rest } k m) k n' := by
  obtain ⟨s, r, hmachine⟩ := hv.machine
  have hread : n.machine.readPacket d.packet = .ok (m.reprint s r) :=
    hmachine ▸ Machine.readPacket_reprint (m := g.load k) hm
  have hstep : ∃ recovered, Network.step n .deliver = .ok { n with
      machine := m.reprint s r, toClient := rest, processed := n.processed ++ [d],
      recovered := recovered } := by
    simp only [Network.step, hv.toClient.trans hd]
    exact ⟨_, Runs.bind_ok.mpr ⟨_, Machine.handleRead_singleton.mpr hread, rfl⟩⟩
  obtain ⟨recovered, hstep⟩ := hstep
  exact ⟨_, hstep, ⟨s, r, by simp [store]⟩, hv.toServer, by simp⟩

theorem exec_serve {ds rest : List Datagram} (hd : n.toServer = ds ++ rest) :
    Runs.exec Network.step n (ds.map fun _ => .serve) =
      .ok { n with toServer := rest, toClient := n.toClient ++ ds } := by
  induction ds generalizing n with
  | nil =>
    simp only [List.nil_append] at hd
    simp [← hd]
  | cons d ds ih =>
    refine Runs.exec_cons.mpr ⟨{ n with toServer := ds ++ rest, toClient := n.toClient ++ [d] },
      ?_, ?_⟩
    · simp [Network.step, hd, UdpReliableEchoServer.handleRead]
    · rw [ih rfl]
      simp

theorem View.handleRead (hv : View g k n) : ∃ is n', Runs.exec Network.step n is = .ok n' ∧
    View { g with socket := [], downlink := echo g.downlink g.socket } k n' := by
  refine ⟨_, _, exec_serve hv.toServer, hv.machine, by simp [queued], ?_⟩
  simp only [echo_apply, hv.toClient]

theorem View.congr (hv : View g k n) (hm : g'.machine k = g.machine k)
    (hs : queued g'.socket k = queued g.socket k) (hup : g'.uplink k = g.uplink k)
    (hdown : g'.downlink k = g.downlink k) : View g' k n where
  machine := hm ▸ hv.machine
  toServer := by rw [hv.toServer, hs, hup]
  toClient := by rw [hv.toClient, hdown]

theorem View.dropUplink (hv : View g k n) {a : ℕ} (ha : a < (g.uplink k).length) :
    ∃ n', Network.step n (.dropToServer ((queued g.socket k).length + a)) = .ok n' ∧
      View { g with uplink := Function.update g.uplink k ((g.uplink k).eraseIdx a) } k n' := by
  have hget : n.toServer[(queued g.socket k).length + a]? = some (g.uplink k)[a] := by
    simp [hv.toServer, ha]
  have hstep : Network.step n (.dropToServer ((queued g.socket k).length + a)) = .ok { n with
      toServer := n.toServer.eraseIdx ((queued g.socket k).length + a),
      dropped := n.dropped ++ [(g.uplink k)[a]] } := by
    simp only [Network.step, hget]
  refine ⟨_, hstep, hv.machine, ?_, hv.toClient⟩
  simp [hv.toServer, List.eraseIdx_append_of_length_le]

theorem View.dropDownlink (hv : View g k n) {a : ℕ} (ha : a < (g.downlink k).length) :
    ∃ n', Network.step n (.dropToClient a) = .ok n' ∧
      View { g with downlink := Function.update g.downlink k ((g.downlink k).eraseIdx a) } k n' := by
  have hget : n.toClient[a]? = some (g.downlink k)[a] := by
    simp [hv.toClient, ha]
  have hstep : Network.step n (.dropToClient a) = .ok { n with
      toClient := n.toClient.eraseIdx a, dropped := n.dropped ++ [(g.downlink k)[a]] } := by
    simp only [Network.step, hget]
  refine ⟨_, hstep, hv.machine, hv.toServer, ?_⟩
  simp [hv.toClient]

theorem View.arrive (hv : View g k n) {d : Datagram} {rest : List Datagram}
    (hd : g.uplink k = d :: rest) : ∃ is n', Runs.exec Network.step n is = .ok n' ∧
      View { g with uplink := Function.update g.uplink k rest
                    socket := if g.listening then g.socket ++ [(k, d)] else g.socket } k n' := by
  by_cases hl : g.listening = true
  · refine ⟨[], n, rfl, hv.machine, ?_, hv.toClient⟩
    simp [hl, hv.toServer, queued_snoc, hd]
  · obtain ⟨n', hn, hv'⟩ := hv.dropUplink (a := 0) (by simp [hd])
    refine ⟨[_], n', Runs.exec_cons.mpr ⟨n', hn, rfl⟩, hv'.congr rfl ?_ ?_ rfl⟩
    · simp [hl]
    · simp [hd]

theorem View.step (hv : View g k n) {i : Input ι} (hs : step g i = .ok g')
    (h : (g'.machine k).client.socket = true) :
    ∃ is n', Runs.exec Network.step n is = .ok n' ∧ View g' k n' := by
  have once : ∀ {g' : Shared ι} {l : Network.Input},
      (∃ n', Network.step n l = .ok n' ∧ View g' k n') →
      ∃ is n', Runs.exec Network.step n is = .ok n' ∧ View g' k n' := fun ⟨n', hn, hv'⟩ =>
    ⟨[_], n', Runs.exec_cons.mpr ⟨n', hn, rfl⟩, hv'⟩
  by_cases hother : ∃ j, i.client? = some j ∧ k ≠ j
  · obtain ⟨j, hi, hk⟩ := hother
    obtain ⟨hm, hsocket, hup, hdown⟩ := step_other hs hi hk
    exact ⟨[], n, rfl, hv.congr hm hsocket hup hdown⟩
  have hj : ∀ j, i.client? = some j → k = j := by
    simpa using hother
  have hsocket := step_socket hs h
  cases step_cases hs with
  | fire _ _ _ hm =>
    obtain rfl := hj _ rfl
    exact once (hv.fire hm)
  | arrive _ _ _ hd =>
    obtain rfl := hj _ rfl
    exact hv.arrive hd
  | handleRead => exact hv.handleRead
  | deliver _ _ _ _ hd _ hm =>
    obtain rfl := hj _ rfl
    exact once (hv.deliver hd hm)
  | discard _ _ _ _ hclosed =>
    obtain rfl := hj _ rfl
    simp [hsocket] at hclosed
  | stopClient =>
    obtain rfl := hj _ rfl
    rw [machine_store, if_pos rfl] at h
    cases h
  | stopServer => exact ⟨[], n, rfl, hv.machine, hv.toServer, hv.toClient⟩
  | dropUplink _ _ ha =>
    obtain rfl := hj _ rfl
    exact once (hv.dropUplink ha)
  | dropDownlink _ _ ha =>
    obtain rfl := hj _ rfl
    exact once (hv.dropDownlink ha)

theorem Reachable.view (h : Reachable maxPackets payload g)
    (hk : (g.machine k).client.socket = true) :
    ∃ n, Network.Reachable (maxPackets k) (payload k) n ∧ View g k n := by
  refine h.invariant (P := fun g => (g.machine k).client.socket = true →
    ∃ n, Network.Reachable (maxPackets k) (payload k) n ∧ View g k n)
    (fun _ => ⟨_, .refl, ⟨_, _, rfl⟩, rfl, rfl⟩) ?_ hk
  intro g i g' _ ih hs hk
  obtain ⟨n, hn, hv⟩ := ih (step_socket hs hk)
  obtain ⟨is, n', hn', hv'⟩ := hv.step hs hk
  exact ⟨n', hn.append hn', hv'⟩

-- ---------------------------------------------------------------------------
-- All clients
-- ---------------------------------------------------------------------------

theorem Reachable.mem_wire (h : Reachable maxPackets payload g)
    (hk : (g.machine k).client.socket = true) {d : Datagram} (hd : d ∈ g.downlink k) :
    (g.machine k).wire[d.serial]? = some d.packet := by
  obtain ⟨n, hn, hv⟩ := h.view hk
  obtain ⟨s, r, hmachine⟩ := hv.machine
  have hcarried := Network.carried_of_mem hn.transport.2 (.inr (.inl (hv.toClient ▸ hd)))
  rw [hmachine] at hcarried
  exact hcarried

theorem Reachable.clients (h : Reachable maxPackets payload g) :
    ∃ c : Clients ι, Clients.Reachable maxPackets payload c ∧
      c.machine = g.machine ∧ c.statics = g.statics := by
  refine Runs.Reachable.simulated (R := fun (g : Shared ι) (c : Clients ι) =>
    c.machine = g.machine ∧ c.statics = g.statics) h ⟨rfl, rfl⟩ ?_
  rintro g i g' c hr - ⟨hmachine, hstatics⟩ hs
  have once : ∀ {j m} {i : Clients.Input} {g' : Shared ι}, Clients.handle (g.load j) i = .ok m →
      g'.machine = Function.update g.machine j m → g'.statics = m.statics →
      ∃ is c', Runs.exec Clients.step c is = .ok c' ∧
        c'.machine = g'.machine ∧ c'.statics = g'.statics := by
    intro j m i g' hm hmachine' hstatics'
    refine ⟨[(j, i)], _, Runs.exec_cons.mpr ⟨_, Runs.bind_ok.mpr ⟨m, by rwa [load_clients hmachine hstatics], rfl⟩, rfl⟩, ?_⟩
    exact ⟨by rw [hmachine', ← hmachine], hstatics'.symm⟩
  cases step_cases hs with
  | fire _ id _ hm => exact once (i := .run (.fire id)) hm rfl rfl
  | arrive => exact ⟨[], c, rfl, hmachine, hstatics⟩
  | handleRead => exact ⟨[], c, rfl, hmachine, hstatics⟩
  | deliver _ d _ _ hd hsocket hm =>
    have hw := List.mem_of_getElem? (Reachable.mem_wire hr hsocket (d := d) (by simp [hd]))
    refine once (i := .run (.read d.packet)) ?_ rfl rfl
    exact (if_pos hsocket).trans ((if_pos hw).trans (Machine.handleRead_singleton.mpr hm))
  | discard => exact ⟨[], c, rfl, hmachine, hstatics⟩
  | stopClient => exact once (i := .stopApplication) rfl rfl rfl
  | stopServer => exact ⟨[], c, rfl, hmachine, hstatics⟩
  | dropUplink => exact ⟨[], c, rfl, hmachine, hstatics⟩
  | dropDownlink => exact ⟨[], c, rfl, hmachine, hstatics⟩

/-- Sharing a server changes nothing for a client: all of them run as clients of
arbitrary echoes, and each until it stops as one with a server of its own. -/
theorem served_alone (h : Reachable maxPackets payload g) :
    (∃ c : Clients ι, Clients.Reachable maxPackets payload c ∧
      c.machine = g.machine ∧ c.statics = g.statics) ∧
    ∀ k, (g.machine k).client.socket = true →
      ∃ n, Network.Reachable (maxPackets k) (payload k) n ∧ View g k n :=
  ⟨h.clients, fun _ hk => h.view hk⟩

/-- Two clients send; the server answers both and stops. -/
theorem served_alone_after_two : ∃ g : Shared Bool,
    Runs.exec step (start (fun _ => 3) fun _ => ⟨4, 0, none⟩)
      [.fire false 1, .fire true 1, .arrive false, .arrive true, .handleRead, .stopServer,
        .fire true 2, .stopClient false] = .ok g ∧
    (g.machine true).client.socket = true ∧
    ∃ n, Network.Reachable 3 ⟨4, 0, none⟩ n ∧ View g true n := by
  obtain ⟨g, hg, hsocket⟩ : ∃ g : Shared Bool,
      Runs.exec step (start (fun _ => 3) fun _ => ⟨4, 0, none⟩)
        [.fire false 1, .fire true 1, .arrive false, .arrive true, .handleRead, .stopServer,
          .fire true 2, .stopClient false] = .ok g ∧
      (g.machine true).client.socket = true := ⟨_, rfl, rfl⟩
  exact ⟨g, hg, hsocket, (served_alone ⟨_, hg⟩).2 true hsocket⟩

-- ---------------------------------------------------------------------------
-- Stopped clients
-- ---------------------------------------------------------------------------

theorem fire_stopped {m m' : Machine} {id : ℕ} (h : m.Sound) (hsocket : m.client.socket = false)
    (hs : m.fire id = .ok m') : m'.wire = m.wire ∧ echoes m'.log = echoes m.log := by
  unfold Machine.fire at hs
  split at hs
  · cases hs
  rename_i ev hid
  cases ev with
  | send => exact absurd ⟨id, hid⟩ (h.stopped hsocket)
  | handleTimeout seq =>
    obtain ⟨m₁, hloss, hs⟩ := Runs.bind_ok.mp hs
    cases hs
    rcases Machine.timeoutLoss_ok.mp hloss with ⟨-, rfl⟩ | ⟨-, base, -, rfl⟩ <;>
      exact ⟨rfl, by simp⟩
  | ppsLog =>
    cases hs
    exact ⟨rfl, rfl⟩

theorem Reachable.sound (h : Reachable maxPackets payload g) (k : ι) : (g.load k).Sound := by
  obtain ⟨c, hc, hmachine, hstatics⟩ := h.clients
  rw [← load_clients hmachine hstatics]
  exact Clients.sound_load (hc.sound k).1

theorem step_stopped {i : Input ι} (h : Reachable maxPackets payload g)
    (hk : (g.machine k).client.socket = false) (hs : step g i = .ok g') :
    (g'.machine k).wire = (g.machine k).wire ∧
      echoes (g'.machine k).log = echoes (g.machine k).log := by
  by_cases hother : ∃ j, i.client? = some j ∧ k ≠ j
  · obtain ⟨j, hi, hne⟩ := hother
    rw [(step_other hs hi hne).1]
    exact ⟨rfl, rfl⟩
  have hj : ∀ j, i.client? = some j → k = j := by
    simpa using hother
  cases step_cases hs with
  | fire _ _ m hm =>
    obtain rfl := hj _ rfl
    rw [machine_store, if_pos rfl]
    exact fire_stopped (m := g.load k) (h.sound k) hk hm
  | arrive => exact ⟨rfl, rfl⟩
  | handleRead => exact ⟨rfl, rfl⟩
  | deliver _ _ _ _ _ hopen =>
    obtain rfl := hj _ rfl
    rw [hk] at hopen
    cases hopen
  | discard => exact ⟨rfl, rfl⟩
  | stopClient =>
    obtain rfl := hj _ rfl
    rw [machine_store, if_pos rfl]
    exact ⟨rfl, rfl⟩
  | stopServer => exact ⟨rfl, rfl⟩
  | dropUplink => exact ⟨rfl, rfl⟩
  | dropDownlink => exact ⟨rfl, rfl⟩

/-- A stopped client stays stopped, sends nothing and takes no echo. -/
theorem stopped_silent {is : List (Input ι)} (h : Reachable maxPackets payload g)
    (hk : (g.machine k).client.socket = false) (hrun : Runs.exec step g is = .ok g') :
    (g'.machine k).client.socket = false ∧ (g'.machine k).wire = (g.machine k).wire ∧
      echoes (g'.machine k).log = echoes (g.machine k).log := by
  induction is generalizing g with
  | nil =>
    cases hrun
    exact ⟨hk, rfl, rfl⟩
  | cons i is ih =>
    obtain ⟨g₁, hs, hrun⟩ := Runs.exec_cons.mp hrun
    have hclosed : (g₁.machine k).client.socket = false := by
      by_contra hopen
      rw [step_socket hs (by simpa using hopen)] at hk
      cases hk
    obtain ⟨hwire, hechoes⟩ := step_stopped h hk hs
    obtain ⟨hstopped, hwire', hechoes'⟩ := ih (h.tail hs) hclosed hrun
    exact ⟨hstopped, hwire'.trans hwire, hechoes'.trans hechoes⟩

theorem stopped_silent_after_two : ∃ g g' : Shared Bool,
    Runs.exec step (start (fun _ => 3) fun _ => ⟨4, 0, none⟩)
      [.fire false 1, .arrive false, .handleRead, .stopClient false] = .ok g ∧
    Runs.exec step g [.deliver false, .fire true 1] = .ok g' ∧
    (g'.machine false).wire = (g.machine false).wire ∧ echoes (g'.machine false).log = [] := by
  obtain ⟨g, hg, hk, hechoes, g', hg'⟩ : ∃ g : Shared Bool,
      Runs.exec step (start (fun _ => 3) fun _ => ⟨4, 0, none⟩)
        [.fire false 1, .arrive false, .handleRead, .stopClient false] = .ok g ∧
      (g.machine false).client.socket = false ∧ echoes (g.machine false).log = [] ∧
      ∃ g', Runs.exec step g [.deliver false, .fire true 1] = .ok g' := ⟨_, rfl, rfl, rfl, _, rfl⟩
  obtain ⟨-, hwire, hsame⟩ := stopped_silent ⟨_, hg⟩ hk hg'
  exact ⟨g, g', hg, hg', hwire, hsame.trans hechoes⟩

end Shared

end ReliableEcho
