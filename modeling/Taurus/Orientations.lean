import Taurus.Confidence

namespace Taurus

variable {H : Type} [LinearOrder H] {hash : Vertex H → H} {config : Config} {genesis : Vertex H}
  {graph : Graph H} {dag : DAG H} {c d : Constraint H} {past : List (DAG H × Call H)}

/-- The members of the conflict set with a key: a single unity constraint, or a pair in both
orders. -/
def ConflictSetKey.orientations (k : ConflictSetKey H) : HashSet (Constraint H) :=
  if k.lt = k.gt then {.unity k.lt} else {⟨k.lt, k.gt⟩, ⟨k.gt, k.lt⟩}

theorem ConflictSetKey.mem_orientations :
    d ∈ c.conflictSetKey.orientations ↔ d.conflictSetKey = c.conflictSetKey := by
  rw [Constraint.conflictSetKey_eq_iff]
  obtain ⟨l, r⟩ := c
  unfold Constraint.conflictSetKey orientations Constraint.swap
  rcases lt_trichotomy l r with h | h | h
  · simp [h, h.ne]
  · simp [h, Constraint.unity]
  · simp [h.not_gt, h.ne, or_comm]

/-- Only opposites share the key of a conflict set. -/
theorem Constraint.eq_or_conflict (h : c.conflictSetKey = d.conflictSetKey) :
    c = d ∨ c.conflict = some d := by
  rcases (conflictSetKey_eq_iff c d).mp h with he | he
  · exact Or.inl he
  · by_cases hlr : d.left = d.right
    · -- a unity constraint is its own opposite order
      left
      rw [he, d.eq_unity_of_left_eq_right hlr]
      rfl
    · right
      rw [conflict_eq_some, he]
      exact ⟨fun h => hlr h.symm, d.swap_swap.symm⟩

/-- A map of a conflict set that is defined on the constraints with its key is defined on the
orientations of the key. -/
theorem ConflictSet.keys_eq_orientations {V : Type} {m : HashMap (Constraint H) V}
    (hm : ∀ d, d ∈ m ↔ d.conflictSetKey = c.conflictSetKey) :
    m.keys = c.conflictSetKey.orientations := by
  ext d
  rw [Finmap.mem_keys, hm, ConflictSetKey.mem_orientations]

theorem Graph.registered_iff : graph.Registered c ↔
    ∃ v vx, graph.lookup v = some vx ∧ (c ∈ vx.parentConstraints ∨ c = .unity v) := by
  constructor
  · rintro ⟨v, hv, hc⟩
    obtain ⟨vx, hvx⟩ := Finmap.mem_iff.mp hv
    rw [commitments_of_lookup hvx] at hc
    exact ⟨v, vx, hvx, hc.symm⟩
  · rintro ⟨v, vx, hvx, hc⟩
    rw [← commitments_of_lookup hvx] at hc
    exact ⟨v, Finmap.mem_of_lookup_eq_some hvx, hc.symm⟩

/-- The state has one conflict set for each pair that an inserted vertex commits to and for each
inserted vertex. Its maps are defined on the orientations of its key, and have a chit only for a
vertex that the run has recorded as strongly preferred. -/
theorem conflictSets_exact (hrun : (DAG.system hash config genesis).Run past dag) :
    (∀ k, k ∈ dag.state ↔ ∃ v vx, dag.graph.lookup v = some vx ∧
      ∃ c, (c ∈ vx.parentConstraints ∨ c = .unity v) ∧ c.conflictSetKey = k) ∧
    (∀ c d : Constraint H, c.conflictSetKey = d.conflictSetKey → c = d ∨ c.conflict = some d) ∧
    ∀ k cs, dag.state.lookup k = some cs →
      cs.chit.keys = k.orientations ∧ cs.confidence.keys = k.orientations ∧
      cs.count.keys = k.orientations ∧ cs.parents.keys = k.orientations ∧
      cs.children.keys = k.orientations ∧ cs.decision.keys ⊆ k.orientations ∧
      cs.preferred ∈ k.orientations ∧ cs.last ∈ k.orientations ∧
      ∀ c, cs.chit.lookup c = some true → ∃ v, Favoured hash past v ∧ c = .unity v := by
  have hd := sound_of_reachable hrun.reachable
  refine ⟨fun k => ?_, fun c d => Constraint.eq_or_conflict, fun k cs hcs => ?_⟩
  · simp only [hd.stores.key_mem, Graph.registered_iff]
    constructor
    · rintro ⟨c, ⟨v, vx, hvx, hc⟩, hk⟩
      exact ⟨v, vx, hvx, c, hc, hk⟩
    · rintro ⟨v, vx, hvx, c, hc, hk⟩
      exact ⟨c, ⟨v, vx, hvx, hc⟩, hk⟩
  · obtain ⟨c, _, rfl⟩ := (hd.stores.key_mem k).mp (Finmap.mem_of_lookup_eq_some hcs)
    have hw := hd.stores.wellFormed _ cs hcs
    refine ⟨ConflictSet.keys_eq_orientations hw.chit,
      ConflictSet.keys_eq_orientations hw.confidence, ConflictSet.keys_eq_orientations hw.count,
      ConflictSet.keys_eq_orientations hw.parents, ConflictSet.keys_eq_orientations hw.children,
      fun d hdec => ?_, ConflictSetKey.mem_orientations.mpr hw.preferred,
      ConflictSetKey.mem_orientations.mpr hw.last, fun d hchit => ?_⟩
    · exact ConflictSetKey.mem_orientations.mpr (hw.decision d (Finmap.mem_keys.mp hdec))
    · have hk : d.conflictSetKey = c.conflictSetKey :=
        (hw.chit d).mp (Finmap.mem_of_lookup_eq_some hchit)
      refine (Chitted.of_run hrun d).mp ?_
      rw [chitOf, entry_of_lookup (hk ▸ hcs), hchit]

/-- Once two batches have been ordered and the vertex ordering them is strongly preferred, the
pair has both orientations, and the chit is that of the vertex. -/
theorem conflictSets_exact_pair : ∃ (dag : DAG Digest) (past : List (DAG Digest × Call Digest)),
    (∃ cs, dag.state.lookup (Constraint.mk Fork.a.wire Fork.b.wire).conflictSetKey = some cs ∧
      cs.count.keys = {⟨Fork.a.wire, Fork.b.wire⟩, ⟨Fork.b.wire, Fork.a.wire⟩}) ∧
    ∃ v, Favoured Vertex.wire past v ∧ Constraint.unity Fork.ab.wire = .unity v := by
  have hrun : ∃ dag, (Fork.system ⟨3, 2⟩).Reachable dag ∧
      (dag.state.lookup (Constraint.mk Fork.a.wire Fork.b.wire).conflictSetKey).isSome ∧
      ∃ cs ∈ dag.state.lookup (Constraint.unity Fork.ab.wire).conflictSetKey,
        cs.chit.lookup (.unity Fork.ab.wire) = some true :=
    reachable_of_run rfl rfl (Fork.run [Fork.a, Fork.b, Fork.ab] [Fork.ab]) (by decide +kernel)
  obtain ⟨dag, hr, hpair, unity, hunity, hchit⟩ := hrun
  obtain ⟨cs, hcs⟩ := Option.isSome_iff_exists.mp hpair
  obtain ⟨past, hpast⟩ := hr.exists_run
  obtain ⟨_, _, hentry⟩ := conflictSets_exact hpast
  obtain ⟨_, _, hcount, _⟩ := hentry _ cs hcs
  obtain ⟨_, _, _, _, _, _, _, _, hchits⟩ := hentry _ unity hunity
  exact ⟨dag, past, ⟨cs, hcs, hcount.trans (by decide +kernel)⟩, hchits _ hchit⟩

end Taurus
