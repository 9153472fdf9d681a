import Taurus.Recording

namespace Taurus

open Relation

variable {H : Type} [LinearOrder H] {hash : Vertex H → H} {it : HashOrders H}
  {genesis vx : Vertex H} {dag : DAG H} {v : H}

/-- Is `c` the preferred member of its conflict set? -/
def Prefers (state : StateMap H) (c : Constraint H) : Prop :=
  ∃ cs, state.lookup c.conflictSetKey = some cs ∧ cs.preferred = c

instance (state : StateMap H) (c : Constraint H) : Decidable (Prefers state c) :=
  inferInstanceAs (Decidable (∃ cs ∈ state.lookup c.conflictSetKey, cs.preferred = c))

theorem Prefers.mem {state : StateMap H} {c : Constraint H} (h : Prefers state c) :
    c.conflictSetKey ∈ state := by
  obtain ⟨_, hcs, _⟩ := h
  exact Finmap.mem_of_lookup_eq_some hcs

/-- Accepted, or undecided with a preference for every undecided constraint of the active
ancestry? -/
def DAG.StronglyPreferred (dag : DAG H) (v : H) : Prop :=
  dag.decisionOn v = some true ∨ dag.decisionOn v = none ∧
    ∃ vx, dag.graph.lookup v = some vx ∧ ∀ c, dag.ActiveConstraint c vx → Prefers dag.state c

/-- A query result is final exactly when it is the decision on the unity constraint of an
inserted vertex. -/
theorem query_final_iff (hd : Sound hash genesis dag) (v : H) (b : Bool) :
    dag.query hash it v = .ok (b, true) ↔ v ∈ dag.graph ∧ dag.decisionOn v = some b := by
  cases hv : dag.graph.lookup v with
  | none =>
    have hn : v ∉ dag.graph := Finmap.lookup_eq_none.mp hv
    simp only [DAG.query, hv, hn, false_and, iff_false]
    split <;> simp
  | some vx =>
    have hm : v ∈ dag.graph := Finmap.mem_of_lookup_eq_some hv
    obtain ⟨cs, hcs, hdec⟩ := hd.unity_lookup hm
    simp only [DAG.query, hv, hcs, Outcome.lift_some, Outcome.ok_bind, hdec, hm, true_and]
    cases dag.decisionOn v with
    | some d => simp
    | none =>
      simp only [Outcome.bind_eq_ok, Outcome.pure_def, Outcome.ok.injEq, Prod.mk.injEq,
        Bool.false_eq_true, and_false, exists_false, reduceCtorEq]

theorem prefers_iff {state : StateMap H} {c : Constraint H} {cs : ConflictSet H}
    (hcs : state.lookup c.conflictSetKey = some cs) : Prefers state c ↔ cs.preferred = c := by
  rw [Prefers, hcs]
  simp

/-- Overwriting a conflict set without a change of preference leaves all preferences. -/
theorem prefers_insert_of_eq {state : StateMap H} {k : ConflictSetKey H} {cs cs' : ConflictSet H}
    (hcs : state.lookup k = some cs) (hp : cs'.preferred = cs.preferred) (d : Constraint H) :
    Prefers (state.insert k cs') d ↔ Prefers state d := by
  rw [Prefers, Prefers, HashMap.lookup_insert]
  split
  · next hk =>
    rw [hk, hcs]
    simp [hp]
  · rfl

/-- A query of an undecided vertex looks at the preferences of its active constraints. -/
theorem query_undecided (it : HashOrders H) (hd : Sound hash genesis dag)
    (hv : dag.graph.lookup v = some vx) (hu : dag.decisionOn v = none) :
    ∃ b, dag.query hash it v = .ok (b, false) ∧
      (b = true ↔ ∀ c, dag.ActiveConstraint c vx → Prefers dag.state c) := by
  have hm : v ∈ dag.graph := Finmap.mem_of_lookup_eq_some hv
  obtain ⟨v', hv', hlegal⟩ := hd.exists_parent hm hu
  cases hv.symm.trans hv'
  have hnr (p : H) (hp : p ∈ vx.parents) : dag.decisionOn p ≠ some false :=
    hd.parent_not_rejected ⟨vx, hv, hp⟩ hu
  obtain ⟨cs, hcs, _, hmem⟩ := getActiveAncestorConstraints_spec it hd hlegal.nonempty
    hlegal.inserted hnr hlegal.antichain
  obtain ⟨s, hs, hdec⟩ := hd.unity_lookup hm
  refine ⟨cs.all fun c => decide (Prefers dag.state c), ?_, ?_⟩
  · simp only [DAG.query, hv, hs, Outcome.lift_some, Outcome.ok_bind, hdec, hu, hcs]
    rw [Outcome.mapM_of_ok _ (fun c => (decide (Prefers dag.state c), false)) cs, Outcome.ok_bind,
      List.all_map]
    · rfl
    -- a listed constraint is undecided, so its preference is what counts
    intro c hc
    obtain ⟨hnone, hc⟩ := (hmem c).mp hc
    have hreg := registered_of_committed hv hc
    obtain ⟨s, hs, _⟩ := hd.stores.lookup (hd.stores.mem_of_registered hreg)
    have hdec : s.decision.lookup c = none := by
      rw [← hnone, decisionOf, entry_of_lookup hs]
    rw [hs, Outcome.lift_some, Outcome.ok_bind, hdec]
    simp only [prefers_iff hs, Bool.not_false, Bool.or_true, if_true, Outcome.pure_def]
  · simp only [List.all_eq_true, decide_eq_true_eq, hmem]

/-- `query` answers on every inserted vertex, with whether it is strongly preferred and
whether it is decided. -/
theorem query_spec (it : HashOrders H) (hd : Sound hash genesis dag) (hv : v ∈ dag.graph) :
    ∃ b, dag.query hash it v = .ok (b, (dag.decisionOn v).isSome) ∧
      (b = true ↔ dag.StronglyPreferred v) := by
  obtain ⟨vx, hvx⟩ := Finmap.mem_iff.mp hv
  cases hu : dag.decisionOn v with
  | some b =>
    refine ⟨b, (query_final_iff hd v b).mpr ⟨hv, hu⟩, ?_⟩
    simp [DAG.StronglyPreferred, hu]
  | none =>
    obtain ⟨b, hb, hiff⟩ := query_undecided it hd hvx hu
    refine ⟨b, hb, hiff.trans ?_⟩
    simp [DAG.StronglyPreferred, hu, hvx]

/-- A vertex outside the graph is answered with an error. -/
theorem query_outside (hash : Vertex H → H) (it : HashOrders H) (hv : v ∉ dag.graph) :
    dag.query hash it v = .err .waitingOnInsert ∨ dag.query hash it v = .err .notFound := by
  rw [DAG.query, Finmap.lookup_eq_none.mpr hv]
  simp only
  split
  · exact Or.inl rfl
  · exact Or.inr rfl

/-- `is_preferred` answers on every inserted vertex, with the preferences of its own
constraints. -/
theorem isPreferred_spec (hd : Sound hash genesis dag) (hv : dag.graph.lookup v = some vx) :
    ∃ b, dag.isPreferred v = .ok b ∧ (b = true ↔ ∀ c ∈ vx.parentConstraints, Prefers dag.state c) := by
  refine ⟨vx.parentConstraints.all fun c => decide (Prefers dag.state c), ?_, ?_⟩
  · simp only [DAG.isPreferred, hd.inserted_known v vx hv, hv]
    rw [Outcome.allM_total _ (fun c => decide (Prefers dag.state c))]
    intro c hc
    have hreg : dag.graph.Registered c :=
      Graph.registered_of_mem_commitments (by rwa [Graph.commitments_of_lookup hv])
    obtain ⟨s, hs, _⟩ := hd.stores.lookup (hd.stores.mem_of_registered hreg)
    rw [hs, Outcome.lift_some, Outcome.ok_bind]
    simp only [prefers_iff hs, Outcome.pure_def]
  · simp only [List.all_eq_true, decide_eq_true_eq]

/-- A vertex that is not in the graph is answered with an error. -/
theorem isPreferred_outside (hv : v ∉ dag.graph) :
    dag.isPreferred v = .err .waitingOnInsert ∨ dag.isPreferred v = .err .notFound := by
  rw [DAG.isPreferred]
  cases dag.vertex.lookup v with
  | none => exact Or.inr rfl
  | some vx =>
    rw [Finmap.lookup_eq_none.mpr hv]
    exact Or.inl rfl

/-- `get_frontier` returns the entries of the strongly preferred frontier vertices. -/
theorem getFrontier_spec (it : HashOrders H) (hd : Sound hash genesis dag) :
    ∃ (l : List (Vertex H)) (kept : List H), dag.getFrontier hash it = some l ∧
      l.Perm (kept.filterMap fun h => dag.frontier.lookup h) ∧ kept.Nodup ∧
      ∀ h, h ∈ kept ↔ h ∈ dag.frontier ∧ dag.StronglyPreferred h := by
  classical
  have hmem (h : H) (hh : h ∈ it.vertices.order none dag.frontier.keys) : h ∈ dag.frontier := by
    rwa [HashOrder.mem_order, Finmap.mem_keys] at hh
  refine ⟨_, (it.vertices.order none dag.frontier.keys).filter fun h =>
    decide (dag.StronglyPreferred h), ?_, List.perm_insertionSort (fun a b => a.timestamp ≤ b.timestamp) _,
    (HashOrder.nodup_order _ _ _).filter _, fun h => ?_⟩
  · rw [DAG.getFrontier, filterM_eq_filter _ fun h => decide (dag.StronglyPreferred h)]
    · rfl
    intro h hh
    obtain ⟨b, hb, hiff⟩ := query_spec it hd ((hd.frontier_iff h).mp (hmem h hh)).1
    rw [hb]
    refine congrArg some ?_
    rw [Bool.eq_iff_iff, hiff, decide_eq_true_eq]
  · rw [List.mem_filter, HashOrder.mem_order, Finmap.mem_keys, decide_eq_true_eq]

end Taurus
