import PucRio.Consensus.Network

/-! The `MHNode`s above the network of the `MSSNode`s: what a mobile host sends to the node it is
connected to, and when. An `INIT_3` may arrive at any time, and which node a host finds is up to its
edges. -/
namespace PucRio.Consensus
variable {N M : ℕ}

inductive Request (M : ℕ)
  | init1
  /-- The value of a `PROPOSE` is the `initialValue` of its host, which is final. -/
  | propose (mh : Fin M)
  deriving DecidableEq

structure MHNode (N : ℕ) where
  connectedMSS : Option (Fin N) := none

namespace MHNode

/-- (1) Upon the application requires to start a consensus. -/
def startConsensus (h : MHNode N) : List (Fin N × Request M) :=
  match h.connectedMSS with
  | none => []
  | some i => [(i,.init1)]

/-- (2) Upon receipt of `INIT_3`. -/
def handleInit3 (mh : Fin M) (sender : Fin N) (h : MHNode N) : List (Fin N × Request M) :=
  if h.connectedMSS = some sender then [(sender,.propose mh)] else []

/-- The handover to the node that `findConnectedMSS` gives. -/
def setConnectedMSS (mh : Fin M) (foundMSS : Option (Fin N)) (h : MHNode N) :
    MHNode N × List (Fin N × Request M) :=
  (⟨foundMSS⟩,match foundMSS with
    | none => []
    | some i => if h.connectedMSS = some i then [] else [(i,.propose mh)])

end MHNode

structure MobileNetwork (N M : ℕ) where
  network : Network N M
  hosts : Fin M → MHNode N
  requests : List (Fin N × Request M)

inductive MobileAction (N M : ℕ)
  | startConsensus (mh : Fin M)
  | handleInit3 (mh : Fin M) (sender : Fin N)
  | setConnectedMSS (mh : Fin M) (foundMSS : Option (Fin N))
  /-- The `k`-th request arrives. -/
  | arrive (k : ℕ)
  | suspect (i : Fin N) (suspectedMSSs : Finset (Fin N))
  | deliver (k : ℕ)
  | onPhaseChanged (i : Fin N) (k : ℕ)
  deriving DecidableEq

namespace MobileNetwork

/-- What the hosts send in a step. -/
def sends (s : MobileNetwork N M) : MobileAction N M → List (Fin N × Request M)
  | .startConsensus mh => (s.hosts mh).startConsensus
  | .handleInit3 mh sender => (s.hosts mh).handleInit3 mh sender
  | .setConnectedMSS mh foundMSS => ((s.hosts mh).setConnectedMSS mh foundMSS).2
  | _ => []

/-- The action of the network that a step is, if it is one. -/
def action (s : MobileNetwork N M) : MobileAction N M → Option (Action N M)
  | .arrive k => s.requests[k]?.map fun r => match r.2 with
    | .init1 => .startConsensus r.1
    | .propose mh => .propose r.1 mh
  | .suspect i suspectedMSSs => some (.suspect i suspectedMSSs)
  | .deliver k => some (.deliver k)
  | .onPhaseChanged i k => some (.onPhaseChanged i k)
  | _ => none

def step (c : Config N M) (s : MobileNetwork N M) (a : MobileAction N M) :
    Option (MobileNetwork N M) :=
  match a with
  | .startConsensus _ | .handleInit3 .. => some { s with requests := s.requests++s.sends a }
  | .setConnectedMSS mh foundMSS =>
    some { s with
      hosts := Function.update s.hosts mh ((s.hosts mh).setConnectedMSS mh foundMSS).1
      requests := s.requests++s.sends a }
  | .arrive k => (s.action a).bind fun a => (s.network.step c a).map fun t =>
    { s with
      network := t
      requests := s.requests.eraseIdx k }
  | .suspect .. | .deliver .. | .onPhaseChanged .. =>
    (s.action a).bind fun a => (s.network.step c a).map fun t => { s with network := t }

end MobileNetwork

/-- The run of all nodes, and every request that a host has sent. -/
def mobile (c : Config N M) :
    TransitionSystem (MobileNetwork N M × List (Fin N × Request M)) (MobileAction N M) :=
  TransitionSystem.recorded ⟨⟨.init N M,fun _ => {},[]⟩,MobileNetwork.step c⟩ MobileNetwork.sends

namespace MobileNetwork
variable {c : Config N M} {s t : MobileNetwork N M} {a : MobileAction N M}

/-- A step is one of the network and loses at most a request, or it sends requests. -/
theorem step_cases (h : s.step c a = some t) :
    (t.network = s.network ∧ t.requests = s.requests++s.sends a) ∨
    s.sends a = [] ∧ (∀ r ∈ t.requests, r ∈ s.requests) ∧
      ∃ b, s.action a = some b ∧ s.network.step c b = some t.network := by
  have hnetwork {f : Network N M → MobileNetwork N M} (hf : ∀ u, (f u).network = u)
      (hrequests : ∀ u, ∀ r ∈ (f u).requests, r ∈ s.requests) (hsends : s.sends a = [])
      (h : ((s.action a).bind fun b => (s.network.step c b).map f) = some t) :
      s.sends a = [] ∧ (∀ r ∈ t.requests, r ∈ s.requests) ∧
        ∃ b, s.action a = some b ∧ s.network.step c b = some t.network := by
    obtain ⟨b,hb,hstep⟩ := Option.bind_eq_some_iff.mp h
    obtain ⟨u,hu,rfl⟩ := Option.map_eq_some_iff.mp hstep
    exact ⟨hsends,hrequests u,b,hb,(hf u).symm ▸ hu⟩
  cases a with
  | startConsensus mh => exact .inl (Option.some.inj h ▸ ⟨rfl,rfl⟩)
  | handleInit3 mh sender => exact .inl (Option.some.inj h ▸ ⟨rfl,rfl⟩)
  | setConnectedMSS mh foundMSS => exact .inl (Option.some.inj h ▸ ⟨rfl,rfl⟩)
  | arrive k =>
    exact .inr (hnetwork (fun _ => rfl) (fun _ _ hr => List.mem_of_mem_eraseIdx hr) rfl h)
  | suspect i suspectedMSSs =>
    exact .inr (hnetwork (f := fun u => { s with network := u }) (fun _ => rfl) (fun _ _ hr => hr)
      rfl h)
  | deliver k =>
    exact .inr (hnetwork (f := fun u => { s with network := u }) (fun _ => rfl) (fun _ _ hr => hr)
      rfl h)
  | onPhaseChanged i k =>
    exact .inr (hnetwork (f := fun u => { s with network := u }) (fun _ => rfl) (fun _ _ hr => hr)
      rfl h)

/-- A value is proposed to the network when a request for it arrives. -/
theorem mem_requests_of_action {i : Fin N} {mh : Fin M} (h : s.action a = some (.propose i mh)) :
    (i,.propose mh) ∈ s.requests := by
  cases a with
  | arrive k =>
    obtain ⟨⟨j,request⟩,hr,heq⟩ := Option.map_eq_some_iff.mp h
    cases request with
    | init1 => cases heq
    | propose mh' =>
      cases heq
      exact List.mem_of_getElem? hr
  | startConsensus | handleInit3 | setConnectedMSS | suspect | deliver | onPhaseChanged => cases h

end MobileNetwork

/-- Without its hosts, the run is one of the network. -/
theorem reachable_network {c : Config N M} {x : MobileNetwork N M × List (Fin N × Request M)}
    (h : (mobile c).Reachable x) : (consensus c).Reachable x.1.network := by
  have hinit : (consensus c).Reachable (consensus c).init := TransitionSystem.ReachableUnder.init
  refine TransitionSystem.GuardedRun.invariant (I := fun y => (consensus c).Reachable y.1.network) h
    hinit ?_
  intro y a z hy _ hstep
  obtain ⟨hnetwork,-⟩ | ⟨-,-,b,-,hb⟩ :=
    MobileNetwork.step_cases (TransitionSystem.recorded_step hstep).1
  · rw [hnetwork]
    exact hy
  · exact TransitionSystem.ReachableUnder.step hy trivial hb

end PucRio.Consensus
