import Taurus.StateMap
import Taurus.Graph

namespace Taurus

variable {H : Type} [LinearOrder H]

/-- Invariants of every reachable state, whatever the votes were. -/
structure Sound (hash : Vertex H → H) (genesis : Vertex H) (dag : DAG H) : Prop where
  hash_eq : ∀ h vx, dag.vertex.lookup h = some vx → hash vx = h
  inserted_known : ∀ h vx, dag.graph.lookup h = some vx → dag.vertex.lookup h = some vx
  pending_inserted : ∀ h vx, dag.pendingQuery.lookup h = some vx →
    dag.graph.lookup h = some vx ∧ h ≠ hash genesis
  children_known : ∀ p s, dag.children.lookup p = some s → ∀ h ∈ s, h ∈ dag.vertex
  children_listed : ∀ h vx, dag.vertex.lookup h = some vx → ∀ p ∈ vx.parents,
    ∃ s, dag.children.lookup p = some s ∧ h ∈ s
  frontier_iff : ∀ h, h ∈ dag.frontier ↔ h ∈ dag.graph ∧ ∀ k, ¬ dag.graph.IsParent h k
  shaped : dag.graph.Shaped (hash genesis) genesis
  stores : Stores dag.graph.Registered dag.graph.ParentConstraint dag.state
  accepted_registered : ∀ c, decisionOf dag.state c = some true → dag.graph.Registered c
  genesis_accepted : decisionOf dag.state (.unity (hash genesis)) = some true
  exclusive : dag.graph.constraintGraph.Exclusive (decisionOf dag.state)
  decided : dag.graph.constraintGraph.DecidedOn (decisionOf dag.state) fun c => c.isUnity

namespace DAG

/-- The decision on the unity constraint of a vertex. -/
def decisionOn (dag : DAG H) (vhash : H) : Option Bool :=
  decisionOf dag.state (.unity vhash)

end DAG

namespace Sound

variable {hash : Vertex H → H} {genesis : Vertex H} {dag : DAG H} {h p : H}
  (hd : Sound hash genesis dag)
include hd

theorem card_le : dag.graph.keys.card ≤ dag.depth := by
  refine Finset.card_le_card fun h hh => ?_
  rw [Finmap.mem_keys] at hh ⊢
  obtain ⟨vx, hv⟩ := Finmap.mem_iff.mp hh
  exact Finmap.mem_of_lookup_eq_some (hd.inserted_known h vx hv)

theorem known (hh : h ∈ dag.graph) : h ∈ dag.vertex := by
  obtain ⟨vx, hv⟩ := Finmap.mem_iff.mp hh
  exact Finmap.mem_of_lookup_eq_some (hd.inserted_known h vx hv)

/-- An inserted vertex is looked up with its height in the map of known vertices. -/
theorem vertex_lookup (hh : h ∈ dag.graph) :
    ∃ vx, dag.graph.lookup h = some vx ∧ dag.vertex.lookup h = some vx ∧
      vx.height = dag.graph.height h := by
  obtain ⟨vx, hv⟩ := Finmap.mem_iff.mp hh
  exact ⟨vx, hv, hd.inserted_known h vx hv, (Graph.height_of_lookup hv).symm⟩

theorem unity_mem (hh : h ∈ dag.graph) : (Constraint.unity h).conflictSetKey ∈ dag.state :=
  hd.stores.mem_of_registered (Graph.registered_unity hh)

theorem unity_lookup (hh : h ∈ dag.graph) :
    ∃ cs, dag.state.lookup (Constraint.unity h).conflictSetKey = some cs ∧
      cs.decision.lookup (.unity h) = dag.decisionOn h := by
  obtain ⟨cs, hcs⟩ := Finmap.mem_iff.mp (hd.unity_mem hh)
  exact ⟨cs, hcs, (entry_of_lookup hcs).symm⟩

/-- Lines that end in the graph stay within it. -/
theorem line_mem {a : H} (hh : h ∈ dag.graph) (ha : Relation.ReflTransGen dag.graph.IsParent a h) :
    a ∈ dag.graph := by
  rcases Relation.reflTransGen_iff_eq_or_transGen.mp ha with rfl | ha
  · exact hh
  · exact hd.shaped.ancestor_mem ha

/-- An undecided vertex has no rejected parent. -/
theorem parent_not_rejected (hp : dag.graph.IsParent p h) (hh : dag.decisionOn h = none) :
    dag.decisionOn p ≠ some false := by
  intro hf
  have hc := Graph.child_unity (Graph.unity_mem_commitments hp)
  exact hd.decided (.unity h) (by simp) (.unity p) hc hf hh

theorem exists_parent (hh : h ∈ dag.graph) (hu : dag.decisionOn h = none) :
    ∃ vx, dag.graph.lookup h = some vx ∧ dag.graph.Legal vx := by
  obtain ⟨vx, hv⟩ := Finmap.mem_iff.mp hh
  refine ⟨vx, hv, hd.shaped.legal h vx hv ?_⟩
  rintro rfl
  rw [DAG.decisionOn, hd.genesis_accepted] at hu
  cases hu

end Sound

end Taurus
