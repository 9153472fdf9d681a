import Taurus.Interleaving
import Taurus.Wire

namespace Taurus

section

variable {H P : Type} [LinearOrder H] [DecidableEq P] {hash : Vertex H → H} {faulty : HashSet P}
  {config : P → Task.Config} {genesis : Vertex H} {net net' net'' : Network H P}
  {poll poll' poll'' : Poll H P} {n : P} {i : Nat}

omit [DecidableEq P] in
/-- A new task starts with the graph of the genesis vertex and without validators. -/
theorem Task.new_eq_ok {it : HashOrders H} {cfg : Task.Config} {task : Task H P}
    (h : Task.new hash it cfg genesis = .ok task) :
    DAG.new hash it cfg.dag [genesis] = .ok task.dag ∧ task.config = cfg := by
  unfold Task.new at h
  cases hc : cfg.check with
  | error e => simp [hc] at h
  | ok u =>
    simp only [hc] at h
    cases hd : DAG.new hash it cfg.dag [genesis] with
    | ok dag =>
      rw [hd] at h
      cases h
      exact ⟨rfl, rfl⟩
    | err e => simp [hd] at h
    | panic => simp [hd] at h

/-- The poll goes on: it stays the same poll, and what it has reported stands. -/
structure Poll.GoesOn (poll poll' : Poll H P) : Prop where
  owner : poll'.owner = poll.owner
  pollster : poll'.polling.pollster = poll.polling.pollster
  verdict : ∀ b, poll.polling.phase = .reported b → poll'.polling.phase = .reported b

namespace Poll.GoesOn

omit [LinearOrder H] [DecidableEq P] in
theorem refl (poll : Poll H P) : poll.GoesOn poll := ⟨rfl, rfl, fun _ h => h⟩

omit [LinearOrder H] [DecidableEq P] in
theorem trans (h : poll.GoesOn poll') (h' : poll'.GoesOn poll'') : poll.GoesOn poll'' where
  owner := h'.owner.trans h.owner
  pollster := h'.pollster.trans h.pollster
  verdict b hb := h'.verdict b (h.verdict b hb)

theorem of_step (h : Network.PollStep hash faulty net net' i poll poll') : poll.GoesOn poll' := by
  cases h with
  | same | asked | answered | forged => exact ⟨rfl, rfl, fun _ h => h⟩
  | delivered =>
    obtain ⟨hpollster, hphase⟩ := Polling.deliver_frame poll.polling _ _
    exact ⟨rfl, hpollster, fun b hb => hphase.trans hb⟩
  | turned ht _ =>
    refine ⟨rfl, Polling.turn_pollster ht, fun b hb => ?_⟩
    -- a poll that has reported takes no more turns
    cases hb.symm.trans (Polling.turn_eq_some ht).1

end Poll.GoesOn

/-- How a node comes from another state of it: its graph by calls, and with no validator lost. -/
structure Node.GoesOn (hash : Vertex H → H) (genesis : Vertex H) (node node' : Node H P) : Prop where
  config : node'.task.config = node.task.config
  graph : (DAG.system hash node.task.config.dag genesis).LeadsWhen (fun _ _ => True)
    node.task.dag node'.task.dag
  validators : ∀ p ∈ node.task.validators.values, p ∈ node'.task.validators.values

namespace Node.GoesOn

variable {node node' node'' : Node H P}

omit [DecidableEq P] in
theorem refl (node : Node H P) : node.GoesOn hash genesis node := ⟨rfl, .refl _, fun _ h => h⟩

omit [DecidableEq P] in
theorem trans (h : node.GoesOn hash genesis node') (h' : node'.GoesOn hash genesis node'') :
    node.GoesOn hash genesis node'' where
  config := h'.config.trans h.config
  graph := h.graph.trans (h.config ▸ h'.graph)
  validators p hp := h'.validators p (h.validators p hp)

theorem of_steps (h : Network.Steps hash faulty net net') (n : P) :
    (net.nodes n).GoesOn hash genesis (net'.nodes n) := by
  rcases h.task n with heq | ⟨action, effects, _, it, rng, hp⟩
  · exact ⟨by rw [heq], heq ▸ .refl _, fun p hp => heq ▸ hp⟩
  · exact ⟨hp.config_eq, hp.leads, hp.validators⟩

end Node.GoesOn

namespace Network

/-- How a network comes from another state of it: nodes and polls go on, and none disappears. -/
structure GoesOn (hash : Vertex H → H) (genesis : Vertex H) (net net' : Network H P) : Prop where
  node : ∀ n, (net.nodes n).GoesOn hash genesis (net'.nodes n)
  poll : ∀ (i : Nat) (poll : Poll H P), net.polls[i]? = some poll →
    ∃ poll', net'.polls[i]? = some poll' ∧ poll.GoesOn poll'

namespace GoesOn

omit [DecidableEq P] in
theorem refl (net : Network H P) : net.GoesOn hash genesis net :=
  ⟨fun _ => .refl _, fun _ poll hi => ⟨poll, hi, .refl poll⟩⟩

omit [DecidableEq P] in
theorem trans (h : net.GoesOn hash genesis net') (h' : net'.GoesOn hash genesis net'') :
    net.GoesOn hash genesis net'' where
  node n := (h.node n).trans (h'.node n)
  poll i poll hi := by
    obtain ⟨poll', hi', hp⟩ := h.poll i poll hi
    obtain ⟨poll'', hi'', hp'⟩ := h'.poll i poll' hi'
    exact ⟨poll'', hi'', hp.trans hp'⟩

theorem of_steps (h : Steps hash faulty net net') : net.GoesOn hash genesis net' where
  node := .of_steps h
  poll i poll hi := by
    obtain ⟨poll', hi', hp⟩ := h.poll i poll hi
    exact ⟨poll', hi', .of_step hp⟩

theorem of_leads (h : (system hash faulty config genesis).LeadsWhen (fun _ _ => True) net net') :
    net.GoesOn hash genesis net' := by
  induction h with
  | refl => exact .refl _
  | step _ _ hs ih => exact ih.trans (.of_steps (steps_of_step hs))

end GoesOn

theorem config_eq (h : (system hash faulty config genesis).Reachable net) (n : P) :
    (net.nodes n).task.config = config n := by
  refine h.invariant (P := fun net => (net.nodes n).task.config = config n) ?_ ?_
  · intro net hinit
    obtain ⟨it, hnew, _⟩ := hinit.2.2 n
    exact (Task.new_eq_ok hnew).2
  · intro net event net' _ ih _ hs
    have hgo : (net.nodes n).GoesOn hash genesis (net'.nodes n) := .of_steps (steps_of_step hs) n
    exact hgo.config.trans ih

/-- The graph of a node is one that its calls lead to, whatever happens in the network. -/
theorem reachable_dag (h : (system hash faulty config genesis).Reachable net) (n : P) :
    (DAG.system hash (config n).dag genesis).Reachable (net.nodes n).task.dag := by
  -- each step of the network is a row of calls at the node, often an empty one
  refine h.simulate (fun net => (net.nodes n).task.dag) ?_ ?_
  · intro net hinit
    obtain ⟨it, hnew, _⟩ := hinit.2.2 n
    exact .init ⟨hinit.1, it, (Task.new_eq_ok hnew).1⟩
  · intro net event net' hr _ hs
    rw [← config_eq hr n]
    exact (Node.GoesOn.of_steps (steps_of_step hs) n).graph

theorem sound (h : (system hash faulty config genesis).Reachable net) (n : P) :
    Sound hash genesis (net.nodes n).task.dag := sound_of_reachable (reachable_dag h n)

theorem grows (h : (system hash faulty config genesis).Reachable net)
    (hg : net.GoesOn hash genesis net') (n : P) :
    (net.nodes n).task.dag.Grows (net'.nodes n).task.dag := by
  have hl := (hg.node n).graph
  rw [config_eq h n] at hl
  exact .of_leads (reachable_dag h n) hl

/-- Nodes that have just been started. -/
def start (hash : Vertex H → H) (config : P → Task.Config) (genesis : Vertex H) : Network H P where
  nodes n := {
    task := { config := config n, dag := DAG.start hash (config n).dag genesis, validators := .empty }
    actions := []
    serving := none }
  polls := []

theorem init_start (hg : genesis.parents = [])
    (hc : ∀ n, (config n).check = .ok () ∧ (config n).dag.check (H := H) = .ok ()) :
    (system hash faulty config genesis).init (start hash config genesis) := by
  refine ⟨hg, rfl, fun n => ⟨.ascending, ?_, rfl, rfl⟩⟩
  rw [Task.new, (hc n).1]
  simp only [DAG.new_eq (config n).dag hg (hc n).2]
  rfl

/-- The genesis vertex of the configuration will do. -/
example (zero : H) (hc : ∀ n, (config n).check = .ok () ∧ (config n).dag.check (H := H) = .ok ()) :
    (system hash faulty config (GenesisConfig.toVertex zero)).init
      (start hash config (GenesisConfig.toVertex zero)) := init_start rfl hc

/-- What the events lead to is found at the end of a run. -/
theorem exists_run {Q : Network H P → Prop} (hg : genesis.parents = [])
    (hc : ∀ n, (config n).check = .ok () ∧ (config n).dag.check (H := H) = .ok ())
    (events : List (Event H P))
    (h : ∃ net ∈ events.foldlM (step hash faulty) (start hash config genesis), Q net) :
    ∃ past net, (system hash faulty config genesis).Run past net ∧ Q net := by
  obtain ⟨net, hevents, hQ⟩ := h
  obtain ⟨later, hrun, _⟩ := (System.Run.init (init_start hg hc)).extend events hevents
  exact ⟨later ++ [], net, hrun, hQ⟩

/-- The same, with a second list of events that leads on. -/
theorem exists_leads {guard : Network H P → Event H P → Prop} [∀ net event, Decidable (guard net event)]
    {Q Q' : Network H P → Prop} (hg : genesis.parents = [])
    (hc : ∀ n, (config n).check = .ok () ∧ (config n).dag.check (H := H) = .ok ())
    (events after : List (Event H P))
    (h : ∃ net ∈ events.foldlM (step hash faulty) (start hash config genesis), Q net ∧
      ∃ net' ∈ (system hash faulty config genesis).runWhen guard net after, Q' net') :
    ∃ net net', (system hash faulty config genesis).Reachable net ∧
      (system hash faulty config genesis).LeadsWhen guard net net' ∧ Q net ∧ Q' net' := by
  obtain ⟨past, net, hrun, hQ, net', hafter, hQ'⟩ := exists_run hg hc events h
  exact ⟨net, net', hrun.reachable, (System.LeadsWhen.refl net).run after hafter, hQ, hQ'⟩

end Network

/-- What each node does is a run of its graph, and a network that goes on takes each of these runs
further. -/
theorem network_refines (h : (Network.system hash faulty config genesis).Reachable net)
    (hl : (Network.system hash faulty config genesis).LeadsWhen (fun _ _ => True) net net') (n : P) :
    (DAG.system hash (config n).dag genesis).Reachable (net.nodes n).task.dag ∧
      (DAG.system hash (config n).dag genesis).LeadsWhen (fun _ _ => True)
        (net.nodes n).task.dag (net'.nodes n).task.dag := by
  have hgo := ((Network.GoesOn.of_leads hl).node n).graph
  rw [Network.config_eq h n] at hgo
  exact ⟨Network.reachable_dag h n, hgo⟩

end

/-! One node with another as its validator. -/

namespace Pair

def config : Bool → Task.Config := fun _ => ⟨⟨1, 1⟩, 1, 1⟩

/-- Both nodes have a vertex, and the first one polls the second one on it. -/
def events : List (Network.Event Digest Bool) :=
  [.call false (.addValidator true), .handle false .ascending .ascending,
    .call true (.submitVertex Fork.a none), .handle true .ascending .ascending,
    .call false (.submitVertex Fork.a none), .handle false .ascending .ascending,
    .ask 0 true, .handle true .ascending .ascending, .deliver 0 true (.preference true),
    .turn 0, .turn 0, .handle false .ascending .ascending]

/-- The poll of the run, before and after its end. -/
theorem halves : ∃ net net', (Network.system Vertex.wire ∅ config Fork.root).Reachable net ∧
    (Network.system Vertex.wire ∅ config Fork.root).LeadsWhen (fun _ _ => True) net net' ∧
    net.polls.length = 1 ∧ net'.polls.length = 1 ∧
      decisionOf (net'.nodes false).task.dag.state (.unity Fork.a.wire) = some true :=
  Network.exists_leads rfl (fun _ => ⟨rfl, rfl⟩) (events.take 6) (events.drop 6) (by decide +kernel)

theorem network_refines_pair : ∃ dag : DAG Digest, (Fork.system ⟨1, 1⟩).Reachable dag ∧
    ∃ dag', (Fork.system ⟨1, 1⟩).LeadsWhen (fun _ _ => True) dag dag' ∧
      decisionOf dag'.state (.unity Fork.a.wire) = some true := by
  obtain ⟨net, net', hr, hl, _, _, hdec⟩ := halves
  obtain ⟨hreach, hleads⟩ := network_refines hr hl false
  exact ⟨_, hreach, _, hleads, hdec⟩

end Pair

end Taurus
