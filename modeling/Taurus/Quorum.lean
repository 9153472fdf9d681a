import Taurus.Acceptance
import Taurus.Endorsement

namespace Taurus

section

variable {H P : Type} [LinearOrder H] [DecidableEq P] {hash : Vertex H → H} {faulty : HashSet P}
  {config : P → Task.Config} {genesis : Vertex H} {net : Network H P}
  {past : List (Network H P × Network.Event H P)} {poll : Poll H P} {n : P} {v : H} {i : Nat} {b : Bool}

/-- Behind every positive result that a node has recorded stand as many distinct validators as its
quorum asks for, each of them faulty, or a holder of the vertex that has strongly preferred it. -/
theorem recorded_result_endorsed (hrun : (Network.system hash faulty config genesis).Run past net)
    (hchit : chitOf (net.nodes n).task.dag.state (.unity v) = some true) :
    Network.Endorsed faulty past net n v :=
  Network.endorsed_of_reported hrun ((Network.Valid.of_run hrun).chits n v hchit)

/-- Behind every acceptance stand as many vertices as the smaller threshold asks for, and at least
one, which support the constraint, each with a quorum of its own. -/
theorem acceptance_endorsed (hrun : (Network.system hash faulty config genesis).Run past net)
    {c : Constraint H} (hne : c ≠ .unity (hash genesis))
    (hacc : decisionOf (net.nodes n).task.dag.state c = some true) :
    ∃ voters : Finset H, max 1 (config n).dag.threshSafeEarlyCommit ≤ voters.card ∧ ∀ w ∈ voters,
      (net.nodes n).task.dag.graph.Supports w c ∧ Network.Endorsed faulty past net n w := by
  obtain ⟨calls, hcalls⟩ := (Network.reachable_dag hrun.reachable n).exists_run
  have hcarried := (carried_of_accepted hcalls hacc).resolve_left hne
  obtain ⟨voters, hcard, hvoters⟩ := hcarried.supporters hcalls
  refine ⟨voters, hcard, fun w hw => ⟨(hvoters w hw).1, ?_⟩⟩
  exact Network.endorsed_of_reported hrun ((Network.Valid.of_run hrun).chits n w (hvoters w hw).2)

end

namespace Pair

/-- The poll succeeds, the vertex is accepted, and nothing is left to do. -/
theorem events_end : ∃ past net, (Network.system Vertex.wire ∅ config Fork.root).Run past net ∧
    ((∀ n, (net.nodes n).actions = [] ∧ (net.nodes n).serving = none) ∧
      ∀ poll ∈ net.polls, poll.questions = ∅ ∧ poll.answers = [] ∧ poll.polling.turn = none) ∧
    (∃ poll ∈ net.polls[0]?, poll.polling.pollster.vhash = Fork.a.wire ∧
      poll.polling.phase = .reported true) ∧
    chitOf (net.nodes false).task.dag.state (.unity Fork.a.wire) = some true ∧
    decisionOf (net.nodes false).task.dag.state (.unity Fork.a.wire) = some true :=
  Network.exists_run rfl (fun _ => ⟨rfl, rfl⟩) events (by decide +kernel)

theorem recorded_result_endorsed_pair : ∃ (past : List (Network Digest Bool ×
    Network.Event Digest Bool)) (net : Network Digest Bool),
      Network.Endorsed ∅ past net false Fork.a.wire := by
  obtain ⟨past, net, hrun, _, _, hchit, _⟩ := events_end
  exact ⟨past, net, recorded_result_endorsed hrun hchit⟩

theorem acceptance_endorsed_pair : ∃ (past : List (Network Digest Bool ×
    Network.Event Digest Bool)) (net : Network Digest Bool) (voters : Finset Digest),
      1 ≤ voters.card ∧ ∀ w ∈ voters, Network.Endorsed ∅ past net false w := by
  obtain ⟨past, net, hrun, _, _, _, hacc⟩ := events_end
  have hne : Constraint.unity Fork.a.wire ≠ .unity Fork.root.wire := by decide
  obtain ⟨voters, hcard, hvoters⟩ := acceptance_endorsed hrun hne hacc
  exact ⟨past, net, voters, hcard, fun w hw => (hvoters w hw).2⟩

end Pair

end Taurus
