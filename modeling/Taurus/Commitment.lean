import Taurus.Agreement

namespace Taurus

variable {H : Type} [LinearOrder H] {hash : Vertex H → H} {it : HashOrders H} {config : Config}
  {genesis : Vertex H} {dag : DAG H} {call : Call H} {v : DAG H × Constraint H} {w : H}

/-- Does a vertex commit to the opposite of `c`? -/
def Graph.Conflicted (graph : Graph H) (c : Constraint H) : Prop :=
  ∃ o, c.conflict = some o ∧ ∃ u, o ∈ graph.commitments u

theorem Graph.conflicted_iff {graph : Graph H} {c : Constraint H} :
    graph.Conflicted c ↔ c.left ≠ c.right ∧ ∃ u ∈ graph, c.swap ∈ graph.commitments u := by
  constructor
  · rintro ⟨o, ho, u, hu⟩
    obtain ⟨hne, rfl⟩ := (Constraint.conflict_eq_some _ _).mp ho
    exact ⟨hne, u, mem_of_mem_commitments hu, hu⟩
  · rintro ⟨hne, u, _, hu⟩
    exact ⟨c.swap, (Constraint.conflict_eq_some _ _).mpr ⟨hne, rfl⟩, u, hu⟩

/-- Are the parent constraints of `c`, whatever is stored of them, all accepted? -/
def DAG.GroundsAccepted (dag : DAG H) (c : Constraint H) : Prop :=
  ∀ p, dag.graph.ParentConstraint p c → decisionOf dag.state p = some true

/-- Is the constraint accepted once its turn in the loop of `record_query_result` is over? -/
def TurnAccepts (it : HashOrders H) (v : DAG H × Constraint H) : Prop :=
  ∃ state, v.1.recordConstraint it true v.1.state v.2 = some state ∧
    decisionOf state v.2 = some true

/-- The criterion for acceptance as it is documented: the lower threshold will do for those
without conflict whose parents are accepted. -/
structure EarlyCommitment (it : HashOrders H) (v : DAG H × Constraint H) : Prop where
  unconflicted : ¬ v.1.graph.Conflicted v.2 → v.1.GroundsAccepted v.2 →
    v.1.config.threshSafeEarlyCommit ≤ tally v.1.state v.2 → TurnAccepts it v
  conflicted : v.1.graph.Conflicted v.2 → TurnAccepts it v →
    v.1.config.threshAccepted ≤ tally v.1.state v.2

/-- The case that the criterion misses: an ordering without conflict, on accepted parents, whose
counter is at the lower threshold and not at the higher one. -/
structure Overlooked (v : DAG H × Constraint H) : Prop where
  ordering : v.2.left ≠ v.2.right
  unconflicted : ¬ v.1.graph.Conflicted v.2
  grounds : v.1.GroundsAccepted v.2
  reached : v.1.config.threshSafeEarlyCommit ≤ tally v.1.state v.2
  short : tally v.1.state v.2 < v.1.config.threshAccepted

theorem Ballot.turnAccepts_iff (h : Ballot hash genesis dag call v w)
    (hun : decisionOf v.1.state v.2 ≠ some true) :
    TurnAccepts call.it v ↔ Accepts v.1.config v.1.state v.2 := by
  obtain ⟨state, hstate, hacc, hrest⟩ := h.recordConstraint_spec
  constructor
  · rintro ⟨state', hstate', htrue⟩
    cases hstate.symm.trans hstate'
    by_contra hn
    rw [hrest hn] at htrue
    exact hun htrue
  · exact fun ha => ⟨state, hstate, hacc ha⟩

/-- What is undecided before the call is not accepted before its turn. -/
theorem Ballot.unaccepted_of_undecided (h : Ballot hash genesis dag call v w)
    (hun : decisionOf dag.state v.2 = none) : decisionOf v.1.state v.2 ≠ some true := by
  obtain ⟨start, before, after, haward, hl, hbefore⟩ := h.turn
  have hn := h.nodup
  rw [hl, List.nodup_append] at hn
  intro hacc
  have hstart := voteFor_loop_accepts_only hbefore
    (fun hm => hn.2.2 _ hm _ List.mem_cons_self rfl) hacc
  rw [decisionOf_awardIfPreferred haward, hun] at hstart
  cases hstart

/-- The criterion is met by every constraint updated but the overlooked ones. -/
theorem early_commitment_iff (h : (DAG.system hash config genesis).Reachable dag)
    (hv : v ∈ dag.votes hash ⟨.recordQueryResult w true, it⟩)
    (hun : decisionOf dag.state v.2 = none) : EarlyCommitment it v ↔ ¬ Overlooked v := by
  obtain ⟨x, hb⟩ := DAG.exists_ballot (sound_of_reachable h) hv
  have haccepts := hb.turnAccepts_iff (hb.unaccepted_of_undecided hun)
  have hd := hb.sound
  have hreg : v.1.graph.Registered v.2 := by
    rw [hb.recording]
    exact hb.registered
  constructor
  · rintro hE ⟨hne, huc, hg, hreached, hshort⟩
    rcases haccepts.mp (hE.unconflicted huc hg hreached) with hthresh | ⟨he, _⟩
    · exact absurd hthresh hshort.not_ge
    · exact hne he
  · intro hno
    refine ⟨fun huc hg hreached => haccepts.mpr ?_, ?_⟩
    · by_cases he : v.2.left = v.2.right
      · -- what is stored for a unity constraint are its parents
        obtain ⟨cs, hcs, hw⟩ := hd.stores.lookup (hd.stores.mem_of_registered hreg)
        obtain ⟨s, hs⟩ := Finmap.mem_iff.mp ((hw.parents v.2).mpr rfl)
        have hps : parentsOf v.1.state v.2 = some s := by rw [parentsOf, entry_of_lookup hcs, hs]
        exact Or.inr ⟨he, ⟨s, hps, fun p hp => hg p (hd.stores.parents v.2 s hps p hp).2⟩, hreached⟩
      · by_contra hn
        exact hno ⟨he, huc, hg, hreached, not_le.mp fun hle => hn (Or.inl hle)⟩
    · rintro ⟨o, ho, _⟩ hacc
      rcases haccepts.mp hacc with hthresh | ⟨he, _⟩
      · exact hthresh
      · exact absurd he ((Constraint.conflict_eq_some _ _).mp ho).1

theorem early_commitment_iff_unity : ∃ (dag : DAG Digest) (v : DAG Digest × Constraint Digest),
    v.2 = .unity Fork.a.wire ∧ decisionOf dag.state v.2 = none ∧ EarlyCommitment .ascending v := by
  have hrun : ∃ dag, (Fork.system ⟨2, 1⟩).Reachable dag ∧
      ∃ v ∈ dag.votes Vertex.wire ⟨.recordQueryResult Fork.ab.wire true, .ascending⟩,
        v.2 = .unity Fork.a.wire ∧ decisionOf dag.state v.2 = none :=
    reachable_of_run rfl rfl (Fork.run [Fork.a, Fork.b, Fork.ab] []) (by decide +kernel)
  obtain ⟨dag, hr, v, hv, he, hun⟩ := hrun
  refine ⟨dag, v, he, hun, (early_commitment_iff hr hv hun).mpr fun ho => ?_⟩
  exact ho.ordering (he ▸ rfl)

/-- An ordering that nothing opposes stays undecided at the lower threshold. -/
theorem unopposed_ordering_undecided : Vertex.CollisionFree Vertex.wire Set.univ ∧
    ∃ (dag dag' : DAG Digest) (v : DAG Digest × Constraint Digest),
      (Fork.system ⟨2, 1⟩).Reachable dag ∧
      dag.recordQueryResult Vertex.wire .ascending Fork.abTip.wire true = .ok dag' ∧
      v ∈ dag.votes Vertex.wire ⟨.recordQueryResult Fork.abTip.wire true, .ascending⟩ ∧
      decisionOf dag.state v.2 = none ∧ ¬ v.1.graph.Conflicted v.2 ∧ v.1.GroundsAccepted v.2 ∧
      v.1.config.threshSafeEarlyCommit ≤ tally v.1.state v.2 ∧
      decisionOf dag'.state v.2 = none := by
  have hrun : ∃ dag, (Fork.system ⟨2, 1⟩).Reachable dag ∧
      ∃ dag' ∈ (dag.recordQueryResult Vertex.wire .ascending Fork.abTip.wire true).unwrap,
      ∃ v ∈ dag.votes Vertex.wire ⟨.recordQueryResult Fork.abTip.wire true, .ascending⟩,
        decisionOf dag.state v.2 = none ∧
        (∀ u ∈ v.1.graph.keys, v.2.swap ∉ v.1.graph.commitments u) ∧
        (∀ p ∈ v.1.graph.commitments v.2.left ++ v.1.graph.commitments v.2.right,
          decisionOf v.1.state p = some true) ∧
        v.1.config.threshSafeEarlyCommit ≤ tally v.1.state v.2 ∧
        decisionOf dag'.state v.2 = none :=
    reachable_of_run rfl rfl (Fork.run [Fork.a, Fork.b, Fork.ab, Fork.abTip] []) (by decide +kernel)
  obtain ⟨dag, hr, dag', hok, v, hv, hun, hopp, hgrounds, hreached, hlast⟩ := hrun
  refine ⟨Vertex.wire_collisionFree _, dag, dag', v, hr, (Outcome.unwrap_eq_some _ _).mp hok, hv, hun,
    ?_, fun p hp => hgrounds p (List.mem_append.mpr hp), hreached, hlast⟩
  rw [Graph.conflicted_iff]
  rintro ⟨_, u, hu, hsw⟩
  exact hopp u (Finmap.mem_keys.mpr hu) hsw

end Taurus
