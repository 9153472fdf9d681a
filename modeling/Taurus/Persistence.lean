import Taurus.Endorsement
import Taurus.Upheld

namespace Taurus

open Relation

section

variable {H P : Type} [LinearOrder H] [DecidableEq P] {hash : Vertex H → H} {faulty : HashSet P}
  {config : P → Task.Config} {genesis : Vertex H} {net net' : Network H P} {event : Network.Event H P}
  {past : List (Network H P × Network.Event H P)} {poll : Poll H P} {n p : P} {u v : H} {i : Nat}
  {c : Constraint H}

theorem DAG.Loyal.start (config : Taurus.Config) (hg : genesis.parents = []) :
    (DAG.start hash config genesis).Loyal := by
  have hd : Sound hash genesis (DAG.start hash config genesis) := .start config hg
  have hroot (d : Constraint H) (hdr : (DAG.start hash config genesis).graph.Registered d) :
      d = .unity (hash genesis) := (DAG.registered_start hg).mp hdr
  intro c hc
  rw [DAG.decisionOf_start] at hc
  split at hc
  swap
  · cases hc
  next he =>
  subst he
  have hreg := Graph.registered_unity hd.shaped.root_mem
  refine ⟨(DAG.Upheld.unity_iff hd hd.shaped.root_mem).mpr fun d hdc => ?_, fun _ p hp => ?_⟩
  · rw [hroot d (Graph.registered_of_commits hdc)]
    exact prefers_unity hd hreg rfl
  -- nothing lies above the genesis vertex
  · rw [hroot p (Graph.registered_of_parentConstraint hp.2)] at hp
    exact absurd hp (hd.shaped.child_irrefl _).1

/-- No action of a consensus task changes its opinions, if it only records results for vertices
that it stands by. -/
theorem Task.Performs.keeps {Ch : Type} {it : HashOrders H} {rng : Rng H} {task task' : Task H P}
    {action : Action H P Ch} {effects : List (Effect H P Ch)} {dagConfig : Taurus.Config}
    (h : Task.Performs hash it rng task action task' effects)
    (hr : (DAG.system hash dagConfig genesis).Reachable task.dag) (hL : task.dag.Loyal)
    (hrec : ∀ v b, action = .recordPeerPreference v b → task.dag.StandsBy v) :
    task.dag.Keeps task'.dag ∧ task'.dag.Loyal := by
  have hd := sound_of_reachable hr
  have hd' : Sound hash genesis task'.dag := sound_of_reachable (hr.leads h.leads)
  cases h with
  | added | frontier | preference | unknown | vertex | dropped => exact ⟨.refl _, hL⟩
  | inserted _ hs | refused _ hs => exact hL.submit hd hs
  | @recorded w b dag hok =>
    cases b with
    | true => exact DAG.Keeps.of_positive hr hL (hrec w true rfl) hok
    | false =>
      obtain ⟨hk, hdec⟩ := DAG.Keeps.of_negative hd hd' hok
      exact ⟨hk, .keeps hd hk fun c hc => hL c (hdec ▸ hc)⟩

omit [DecidableEq P] in
theorem submitVertex_total {dag : DAG H} (hd : Sound hash genesis dag) (it : HashOrders H)
    (vx : Vertex H) : ∃ resp dag', dag.submitVertex hash it vx = some (resp, dag') := by
  obtain ⟨⟨resp, dag₁⟩, ht, htried⟩ := tryInsert_spec it hd vx
  cases resp with
  | error e => exact ⟨.error e, dag₁, by simp [DAG.submitVertex, ht]⟩
  | ok waiting =>
    obtain ⟨⟨successes, dag₂⟩, hret⟩ := retryPending_total it (htried.sound hd)
      (it.vertices.order (some (hash vx)) waiting)
    exact ⟨.ok waiting, dag₂, by simp [DAG.submitVertex, ht, hret]⟩

/-- A consensus task performs every action, if it only records results for vertices that it stands
by. -/
theorem Task.handle_total {Ch : Type} {task : Task H P} {dagConfig : Taurus.Config}
    (hr : (DAG.system hash dagConfig genesis).Reachable task.dag) (action : Action H P Ch)
    (hrec : ∀ v b, action = .recordPeerPreference v b → task.dag.StandsBy v) (it : HashOrders H)
    (rng : Rng H) : ∃ task' effects, task.handle hash it rng action = some (task', effects) := by
  have hd := sound_of_reachable hr
  cases action with
  | addValidator validator => exact ⟨_, _, rfl⟩
  | getAcceptedFrontier resultCh =>
    obtain ⟨frontier, _, hf, _⟩ := getFrontier_spec it hd
    exact ⟨task, [.sendFrontier resultCh frontier], by simp [Task.handle, hf]⟩
  | getPreference vhash resultCh =>
    cases hq : task.dag.query hash it vhash with
    | ok preference =>
      exact ⟨task, [.sendPreference resultCh (some preference)], by simp only [Task.handle, hq]⟩
    | err e => exact ⟨task, [.sendPreference resultCh none], by simp only [Task.handle, hq]⟩
    | panic =>
      -- a query panics neither inside of the graph nor outside
      by_cases hv : vhash ∈ task.dag.graph
      · obtain ⟨b, hb, _⟩ := query_spec it hd hv
        cases hq.symm.trans hb
      · rcases query_outside hash it hv with he | he <;> cases hq.symm.trans he
  | getVertex vhash resultCh => exact ⟨_, _, rfl⟩
  | recordPeerPreference vhash preference =>
    have hnp := (hrec vhash preference rfl).record_total hd it preference
    cases hq : task.dag.recordQueryResult hash it vhash preference with
    | ok dag => exact ⟨{ task with dag := dag }, [], by simp only [Task.handle, hq]⟩
    | err e => exact ⟨task, [], by simp only [Task.handle, hq]⟩
    | panic => exact absurd hq hnp
  | submitVertex vertex resultCh =>
    obtain ⟨resp, dag, hs⟩ := submitVertex_total hd it vertex
    cases resp with
    | error e => exact ⟨_, _, by simp only [Task.handle, hs, Option.bind_eq_bind, Option.bind_some]; rfl⟩
    | ok waiting =>
      have hd' : Sound hash genesis dag := sound_of_reachable (hr.leads (submitVertex_leads hs))
      obtain ⟨frontier, _, hf, _⟩ := getFrontier_spec it hd'
      exact ⟨_, _, by simp only [Task.handle, hs, hf, Option.bind_eq_bind, Option.bind_some]; rfl⟩

namespace Network

/-- Does every node stand by what it has accepted, and by what it polls others on? -/
structure Loyal (net : Network H P) : Prop where
  node : ∀ n, (net.nodes n).task.dag.Loyal
  poll : ∀ (i : Nat) (poll : Poll H P), net.polls[i]? = some poll →
    (net.nodes poll.owner).task.dag.StandsBy poll.polling.pollster.vhash

omit [DecidableEq P] in
/-- Results are recorded for vertices that the node stands by. -/
theorem Loyal.recorded {b : Bool} (hL : net.Loyal) (hv : Valid faulty config past net)
    (hact : .recordPeerPreference v b ∈ (net.nodes n).actions) :
    (net.nodes n).task.dag.StandsBy v := by
  obtain ⟨i, poll, hi, rfl, rfl, _⟩ := hv.verdicts n v b hact
  exact hL.poll i poll hi

theorem Loyal.keeps (hL : net.Loyal) (hv : Valid faulty config past net)
    (hr : (system hash faulty config genesis).Reachable net) (hs : Steps hash faulty net net')
    (n : P) : (net.nodes n).task.dag.Keeps (net'.nodes n).task.dag ∧
      (net'.nodes n).task.dag.Loyal := by
  rcases hs.task n with heq | ⟨action, effects, hact, it, rng, hperf⟩
  · rw [heq]
    exact ⟨.refl _, hL.node n⟩
  · refine hperf.keeps (reachable_dag hr n) (hL.node n) fun v b he => ?_
    exact hL.recorded hv (he ▸ hact)

theorem Loyal.step (hL : net.Loyal) (hv : Valid faulty config past net)
    (hr : (system hash faulty config genesis).Reachable net)
    (hr' : (system hash faulty config genesis).Reachable net') (hs : Steps hash faulty net net') :
    net'.Loyal := by
  refine ⟨fun n => (hL.keeps hv hr hs n).2, fun i poll' hi' => ?_⟩
  rcases hs.poll_cases hi' with ⟨poll, hi, hp⟩ | ⟨m, action, effects, pollster, hw, hp, rfl⟩
  · have hgo := Poll.GoesOn.of_step hp
    rw [hgo.owner, hgo.pollster]
    exact (hL.poll i poll hi).keeps (sound hr _) (hL.keeps hv hr hs _).1
  -- a poll is started on a vertex that is strongly preferred
  · obtain ⟨_, it, rng, hperf⟩ := hw
    obtain ⟨_, _, _, hchildless, hsp⟩ := hperf.started (reachable_dag hr m) hp
    exact (hL.keeps hv hr hs m).2.standsBy (reachable_dag hr' m) hchildless.1 hsp

theorem Loyal.of_run (hrun : (system hash faulty config genesis).Run past net) : net.Loyal := by
  induction hrun with
  | @init net hinit =>
    obtain ⟨hg, hpolls, hnodes⟩ := hinit
    refine ⟨fun n => ?_, fun i poll hi => ?_⟩
    · obtain ⟨it, hnew, _⟩ := hnodes n
      rw [DAG.eq_start_of_init ⟨hg, it, (Task.new_eq_ok hnew).1⟩]
      exact .start _ hg
    · rw [hpolls] at hi
      cases hi
  | step hr hs ih =>
    exact ih.step (.of_run hr) hr.reachable (hr.step hs).reachable (steps_of_step hs)

/-- While a network goes on, every node keeps its opinions. -/
theorem keeps_of_leads (h : (system hash faulty config genesis).Reachable net)
    (hl : (system hash faulty config genesis).LeadsWhen (fun _ _ => True) net net') (n : P) :
    (net.nodes n).task.dag.Keeps (net'.nodes n).task.dag := by
  refine (hl.rel (R := fun s t => (s.nodes n).task.dag.Keeps (t.nodes n).task.dag)
    (fun _ => .refl _) (fun _ _ _ => .trans) h fun s event t hs _ hstep => ?_).1
  obtain ⟨past, hrun⟩ := hs.exists_run
  exact ((Loyal.of_run hrun).keeps (.of_run hrun) hs (steps_of_step hstep) n).1

theorem loyal_of_reachable (h : (system hash faulty config genesis).Reachable net) : net.Loyal := by
  obtain ⟨past, hrun⟩ := h.exists_run
  exact .of_run hrun

theorem standsBy (h : (system hash faulty config genesis).Reachable net)
    (hv : v ∈ (net.nodes n).task.dag.graph) (hsp : (net.nodes n).task.dag.StronglyPreferred v) :
    (net.nodes n).task.dag.StandsBy v :=
  ((loyal_of_reachable h).node n).standsBy (reachable_dag h n) hv hsp

/-- A consensus task performs the actions in its queue. -/
theorem handle_total (h : (system hash faulty config genesis).Reachable net)
    {action : Action H P (Option Nat)} (hact : action ∈ (net.nodes n).actions) (it : HashOrders H)
    (rng : Rng H) : ∃ task' effects,
      (net.nodes n).task.handle hash it rng action = some (task', effects) := by
  obtain ⟨past, hrun⟩ := h.exists_run
  refine Task.handle_total (reachable_dag h n) action (fun v b he => ?_) it rng
  exact (Loyal.of_run hrun).recorded (.of_run hrun) (he ▸ hact)

end Network

/-- A node never changes its preference in a conflict set, and accepts no other ordering than the
preferred one, whatever results it records. -/
theorem preferences_fixed (h : (Network.system hash faulty config genesis).Reachable net)
    (hl : (Network.system hash faulty config genesis).LeadsWhen (fun _ _ => True) net net')
    (hc : c.conflictSetKey ∈ (net.nodes n).task.dag.state) :
    (Prefers (net'.nodes n).task.dag.state c ↔ Prefers (net.nodes n).task.dag.state c) ∧
      (decisionOf (net'.nodes n).task.dag.state c = some true →
        Prefers (net.nodes n).task.dag.state c) := by
  have hprefers := (Network.keeps_of_leads h hl n).preferences c hc
  refine ⟨hprefers, fun hacc => hprefers.mp ?_⟩
  exact ((Network.loyal_of_reachable (h.leads hl)).node n c hacc).1.prefers

/-- What a node has decided stays decided. -/
theorem decisions_permanent (h : (Network.system hash faulty config genesis).Reachable net)
    (hl : (Network.system hash faulty config genesis).LeadsWhen (fun _ _ => True) net net') (n : P) :
    (∀ c b, decisionOf (net.nodes n).task.dag.state c = some b →
      decisionOf (net'.nodes n).task.dag.state c = some b) ∧
    ∀ v b it it', (net.nodes n).task.dag.query hash it v = .ok (b, true) →
      (net'.nodes n).task.dag.query hash it' v = .ok (b, true) := by
  have hk := Network.keeps_of_leads h hl n
  refine ⟨hk.decisions, fun v b it it' hq => ?_⟩
  obtain ⟨hv, hdec⟩ := (query_final_iff (Network.sound h n) v b).mp hq
  exact (query_final_iff (Network.sound (h.leads hl) n) v b).mpr
    ⟨hk.within.mem hv, hk.decisions _ b hdec⟩

/-- Consensus tasks never panic: whatever has happened in the network, a node with actions in its
queue performs the next one. -/
theorem consensus_never_panics (h : (Network.system hash faulty config genesis).Reachable net)
    (hact : (net.nodes n).actions ≠ []) (it : HashOrders H) (rng : Rng H) :
    ∃ net', Network.step hash faulty net (.handle n it rng) = some net' := by
  cases hqueue : (net.nodes n).actions with
  | nil => exact absurd hqueue hact
  | cons action actions =>
    obtain ⟨task', effects, hhandle⟩ :=
      Network.handle_total h (hqueue ▸ List.mem_cons_self) it rng
    simp only [Network.step, hqueue, hhandle, Option.bind_eq_bind, Option.bind_some,
      Option.pure_def, Option.some.injEq, exists_eq']

/-- Two vertices that a node answers to prefer, be it at different times, never commit to opposite
orderings, and neither do their ancestors. -/
theorem endorsements_consistent (h : (Network.system hash faulty config genesis).Reachable net)
    (hl : (Network.system hash faulty config genesis).LeadsWhen (fun _ _ => True) net net')
    {it it' : HashOrders H} {f f' : Bool}
    (hu : (net.nodes n).task.dag.query hash it u = .ok (true, f))
    (hv : (net'.nodes n).task.dag.query hash it' v = .ok (true, f')) :
    ¬ (net'.nodes n).task.dag.graph.Contradict u v := by
  rintro ⟨c, o, ho, hc, hco⟩
  have hd := Network.sound h n
  obtain ⟨hinu, hspu⟩ := stronglyPreferred_of_query hd hu
  obtain ⟨hinv, hspv⟩ := stronglyPreferred_of_query (Network.sound (h.leads hl) n) hv
  have hu' := (Network.standsBy h hinu hspu).keeps hd (Network.keeps_of_leads h hl n)
  have hv' := Network.standsBy (h.leads hl) hinv hspv
  have hupc := hu'.1.1.above (Graph.below_of_commits hc).to_reflTransGen
  have hupo := hv'.1.1.above (Graph.below_of_commits hco).to_reflTransGen
  exact hupc.not_against hupo ⟨o, ho, .refl⟩

end

namespace Pair

/-- Both nodes have two vertices and one that orders them, on which the first node polls the
second one. -/
def ordering : List (Network.Event Digest Bool) :=
  [.call true (.submitVertex Fork.a none), .handle true .ascending .ascending,
    .call true (.submitVertex Fork.b none), .handle true .ascending .ascending,
    .call true (.submitVertex Fork.ab none), .handle true .ascending .ascending,
    .call false (.submitVertex Fork.a none), .handle false .ascending .ascending,
    .call false (.submitVertex Fork.b none), .handle false .ascending .ascending,
    .call false (.addValidator true), .handle false .ascending .ascending,
    .call false (.submitVertex Fork.ab none), .handle false .ascending .ascending]

/-- The poll succeeds, and its result waits to be recorded. -/
def vote : List (Network.Event Digest Bool) :=
  [.ask 0 true, .handle true .ascending .ascending, .deliver 0 true (.preference true),
    .turn 0, .turn 0]

/-- A child of the order reaches both nodes, and the opposite order the first one. -/
def aftermath : List (Network.Event Digest Bool) :=
  [.call true (.submitVertex Fork.abTip none), .handle true .ascending .ascending,
    .call false (.submitVertex Fork.abTip none), .handle false .ascending .ascending,
    .call false (.submitVertex Fork.ba none), .handle false .ascending .ascending]

/-- Both nodes prefer the order and the first one has accepted it, before the rest arrives. -/
theorem history : ∃ net net' : Network Digest Bool,
    (Network.system Vertex.wire ∅ config Fork.root).Reachable net ∧
    (Network.system Vertex.wire ∅ config Fork.root).LeadsWhen (fun _ _ => True) net net' ∧
    ((∀ n, Prefers (net.nodes n).task.dag.state ⟨Fork.a.wire, Fork.b.wire⟩) ∧
      decisionOf (net.nodes false).task.dag.state ⟨Fork.a.wire, Fork.b.wire⟩ = some true ∧
      (net.nodes true).task.dag.query Vertex.wire .ascending Fork.ab.wire = .ok (true, false)) ∧
    Fork.abTip.wire ∈ (net'.nodes false).task.dag.graph ∧
    (net'.nodes true).task.dag.query Vertex.wire .ascending Fork.abTip.wire = .ok (true, false) ∧
    (net'.nodes false).task.dag.query Vertex.wire .ascending Fork.ba.wire = .ok (false, true) ∧
    ∀ n, (net'.nodes n).task.validators.values ⊆ [true] :=
  Network.exists_leads rfl (fun _ => ⟨rfl, rfl⟩)
    (ordering ++ vote ++ [.handle false .ascending .ascending]) aftermath (by decide +kernel)

theorem preferences_fixed_pair : ∃ net : Network Digest Bool,
    Prefers (net.nodes false).task.dag.state ⟨Fork.a.wire, Fork.b.wire⟩ := by
  obtain ⟨_, net', hr, hl, ⟨hprefers, _⟩, _⟩ := history
  have hfixed := preferences_fixed hr hl (hprefers false).mem
  exact ⟨net', hfixed.1.mpr (hprefers false)⟩

theorem decisions_permanent_pair : ∃ net' : Network Digest Bool,
    Fork.abTip.wire ∈ (net'.nodes false).task.dag.graph ∧
      decisionOf (net'.nodes false).task.dag.state ⟨Fork.a.wire, Fork.b.wire⟩ = some true := by
  obtain ⟨_, net', hr, hl, ⟨_, hacc, _⟩, hin, _⟩ := history
  exact ⟨net', hin, (decisions_permanent hr hl false).1 _ true hacc⟩

theorem consensus_never_panics_pair : ∃ net net' : Network Digest Bool,
    (net.nodes false).actions.length = 1 ∧
      Network.step Vertex.wire ∅ net (.handle false .ascending .ascending) = some net' := by
  have hrun : ∃ past net, (Network.system Vertex.wire ∅ config Fork.root).Run past net ∧
      (net.nodes false).actions.length = 1 :=
    Network.exists_run rfl (fun _ => ⟨rfl, rfl⟩) (ordering ++ vote) (by decide +kernel)
  obtain ⟨past, net, hrun, hlen⟩ := hrun
  have hact : (net.nodes false).actions ≠ [] := by
    intro he
    rw [he] at hlen
    cases hlen
  obtain ⟨net', hs⟩ := consensus_never_panics hrun.reachable hact .ascending .ascending
  exact ⟨net, net', hlen, hs⟩

theorem endorsements_consistent_pair : ∃ net' : Network Digest Bool,
    ¬ (net'.nodes true).task.dag.graph.Contradict Fork.ab.wire Fork.abTip.wire := by
  obtain ⟨_, net', hr, hl, ⟨_, _, hu⟩, _, hv, _⟩ := history
  exact ⟨net', endorsements_consistent hr hl hu hv⟩

end Pair

end Taurus
