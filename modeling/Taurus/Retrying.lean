import Taurus.Reads

namespace Taurus

open Relation

variable {H : Type} [LinearOrder H] {hash : Vertex H → H} {it : HashOrders H} {config : Config}
  {genesis vx x : Vertex H} {dag dag' dag'' : DAG H} {queue : List H} {c : Constraint H} {h : H}
  {successes successes' : HashSet H}

/-- Of two opposite orderings of a vertex and its active ancestors, one is inserted. -/
theorem DAG.ActiveConstraint.registered_or (hc : dag.ActiveConstraint c vx)
    (hsw : dag.ActiveConstraint c.swap vx) (hne : c.left ≠ c.right) (hnd : vx.parents.Nodup) :
    dag.graph.Registered c ∨ dag.graph.Registered c.swap := by
  rcases hc.2 with hown | ⟨a, _, hca⟩
  · rcases hsw.2 with hown' | ⟨a, _, hca⟩
    · exact absurd hown' (vx.swap_notMem_parentConstraints c hnd hne hown)
    · exact Or.inr (Graph.registered_of_mem_commitments hca)
  · exact Or.inl (Graph.registered_of_mem_commitments hca)

/-- A vertex whose parents are all in the graph passes after an attempt only if it has passed
before. -/
theorem Passes.of_attempt (hp : Passes hash dag' vx) (hd : Sound hash genesis dag)
    (ha : Attempt hash it x dag dag') (hin : ∀ p ∈ vx.parents, p ∈ dag.graph) :
    Passes hash dag vx := by
  have hcont := Continues.of_attempt hd ha
  have hheights : vx.parents.map dag'.graph.height = vx.parents.map dag.graph.height :=
    List.map_congr_left fun p hp => hcont.within.height_eq (hin p hp)
  refine ⟨⟨hp.ready.sane, fun hh => hp.ready.fresh (hcont.within.mem hh), hin⟩, ?_, ?_, ?_, ?_⟩
  · obtain ⟨m, hm, hfits⟩ := hp.height
    exact ⟨m, hheights ▸ hm, hfits⟩
  · intro p hpv
    rw [← hcont.decisionOn_eq (hin p hpv)]
    exact hp.unrejected p hpv
  · intro p hpv q hqv hpq
    have hkept (a b : H) (hab : dag.graph.IsParent a b) : dag'.graph.IsParent a b :=
      (hcont.within.isParent_iff hab.mem).mpr hab
    exact hp.antichain p hpv q hqv (TransGen.mono hkept p q hpq)
  · intro c hne hc hsw
    have hkey : c.conflictSetKey ∈ dag.state := by
      rcases hc.registered_or hsw hne (vx.sanityChecks_eq_ok hp.ready.sane).2 with hr | hr
      · exact hd.stores.mem_of_registered hr
      · exact Constraint.conflictSetKey_swap c ▸ hd.stores.mem_of_registered hr
    have hactive {e : Constraint H} (hk : e.conflictSetKey ∈ dag.state)
        (he : dag.ActiveConstraint e vx) : dag'.ActiveConstraint e vx := by
      refine ⟨(ha.grown.decisionOf_eq hk).trans he.1, he.2.imp_right ?_⟩
      rintro ⟨a, hact, hca⟩
      refine ⟨a, (hcont.active_iff hd hin).mpr hact, ?_⟩
      rwa [hcont.within.commitments_eq (hact.mem hd hin)]
    exact hp.consistent c hne (hactive hkey hc)
      (hactive ((Constraint.conflictSetKey_swap c).symm ▸ hkey) hsw)

namespace DAG

/-- Is there no vertex known but not inserted that `check_vertex` would let through? -/
def Drained (hash : Vertex H → H) (dag : DAG H) : Prop :=
  ∀ h vx, dag.vertex.lookup h = some vx → h ∉ dag.graph → (∀ p ∈ vx.parents, p ∈ dag.graph) →
    ∀ it, dag.checkVertex hash it vx ≠ .ok ()

/-- Is each vertex that could be inserted queued for another try? -/
def Queued (hash : Vertex H → H) (dag : DAG H) (queue : List H) : Prop :=
  ∀ h vx, dag.vertex.lookup h = some vx → h ∉ dag.graph → Passes hash dag vx → h ∈ queue

theorem drained_iff_queued (hd : Sound hash genesis dag) :
    dag.Drained hash ↔ dag.Queued hash [] := by
  constructor
  · intro hdr h vx hv hh hp
    exact absurd ((checkVertex_eq_ok .ascending hd).mpr hp)
      (hdr h vx hv hh hp.ready.parents .ascending)
  · intro hq h vx hv hh _ it hok
    exact List.not_mem_nil (hq h vx hv hh ((checkVertex_eq_ok it hd).mp hok))

namespace Queued

variable (hd : Sound hash genesis dag)
include hd

/-- A known vertex that is refused need not be queued any longer. -/
theorem refused (hQ : dag.Queued hash (hash x :: queue))
    (hx : dag.vertex.lookup (hash x) = some x ∨ dag.Queued hash queue) {e : Error H}
    (hc : dag.checkVertex hash it x = .err e) : (dag.park hash x e).Queued hash queue := by
  have ha : Attempt hash it x dag (dag.park hash x e) := ⟨_, tryInsert_of_err hc⟩
  have hchecked := checkVertex_spec it x hd
  rw [hc] at hchecked
  intro h vx hv hh hp
  have hin := hp.ready.parents
  rw [park_graph] at hh hin
  have hp' := hp.of_attempt hd ha hin
  rcases hchecked.park_cases with hpark | ⟨_, ⟨p, hpx, hpg⟩, hpark⟩
  · rw [hpark] at hv
    rcases hx with hx | hq
    · refine (List.mem_cons.mp (hQ h vx hv hh hp')).resolve_left ?_
      rintro rfl
      cases hv.symm.trans hx
      rw [(checkVertex_eq_ok it hd).mpr hp'] at hc
      cases hc
    · exact hq h vx hv hh hp'
  · rw [hpark, HashMap.lookup_insert] at hv
    split at hv
    · -- what is kept for later lacks a parent
      cases hv
      exact absurd (hin p hpx) hpg
    · next hne => exact (List.mem_cons.mp (hQ h vx hv hh hp')).resolve_left hne

/-- Once a vertex is inserted, those that wait for it may pass, too. -/
theorem inserted (hQ : dag.Queued hash (hash x :: queue)) (ha : Attempt hash it x dag dag')
    (hi : InsertedDAG hash x dag dag') {waiting : List H}
    (hwait : ∀ w, w ∈ waiting ↔ w ∉ dag'.graph ∧
      ∃ s, dag'.children.lookup (hash x) = some s ∧ w ∈ s) :
    dag'.Queued hash (waiting ++ queue) := by
  have hd' := ha.sound hd
  intro h vx hv hh hp
  have hne : h ≠ hash x := by
    rintro rfl
    exact hh (hi.graph ▸ Finmap.mem_insert.mpr (Or.inl rfl))
  by_cases hin : ∀ p ∈ vx.parents, p ∈ dag.graph
  · have hv' : dag.vertex.lookup h = some vx := by
      rwa [hi.vertex, HashMap.lookup_insert, if_neg hne] at hv
    have hold : h ∉ dag.graph := fun hold =>
      hh (hi.graph ▸ Finmap.mem_insert.mpr (Or.inr hold))
    have hq := hQ h vx hv' hold (hp.of_attempt hd ha hin)
    exact List.mem_append_right _ ((List.mem_cons.mp hq).resolve_left hne)
  · -- one of its parents is the new vertex, which knows all its children
    obtain ⟨p, hpv, hpg⟩ : ∃ p ∈ vx.parents, p ∉ dag.graph := by simpa using hin
    have hpx : p = hash x := by
      have hpg' := hp.ready.parents p hpv
      rw [hi.graph, Finmap.mem_insert] at hpg'
      exact hpg'.resolve_right hpg
    subst hpx
    exact List.mem_append_left _ ((hwait h).mpr ⟨hh, hd'.children_listed h vx hv _ hpv⟩)

/-- The retries leave nothing that could be inserted. -/
theorem retried (it : HashOrders H) {hashes : List H} (hQ : dag.Queued hash hashes)
    (h : dag.retryPending hash it hashes = some (successes, dag')) : dag'.Queued hash [] := by
  have hspec := retryPending_spec it (Q := DAG.Queued hash) ?_ ?_ ?_ hd hashes
    fun h vx hv hh hp => List.mem_reverse.mpr (hQ h vx hv hh hp)
  · obtain ⟨_, _, hrun, _, hQ'⟩ := hspec
    cases h.symm.trans hrun
    exact hQ'
  · intro dag h queue _ hQ hnone k vx hv hk hp
    refine (List.mem_cons.mp (hQ k vx hv hk hp)).resolve_left ?_
    rintro rfl
    cases hnone.symm.trans hv
  · intro dag h queue x e hd hQ hx hc _
    obtain rfl := hd.hash_eq h x hx
    exact hQ.refused hd (Or.inl hx) hc
  · intro dag h queue x dag' waiting hd hQ hx ha _ hi hwait
    obtain rfl := hd.hash_eq h x hx
    exact hQ.inserted hd ha hi hwait

end Queued

end DAG

/-- More fuel changes nothing once the loop has ended. -/
theorem retryLoop_fuel {n m : Nat} {r : HashSet H × DAG H}
    (h : DAG.retryLoop hash it n dag queue successes = some r) (hle : n ≤ m) :
    DAG.retryLoop hash it m dag queue successes = some r := by
  induction n generalizing m dag queue successes with
  | zero => cases h
  | succ n ih =>
    obtain ⟨m, rfl⟩ : ∃ k, m = k + 1 := ⟨m - 1, by omega⟩
    have hle : n ≤ m := by omega
    cases queue with
    | nil => exact h
    | cons vhash queue =>
      rw [DAG.retryLoop] at h ⊢
      cases hv : dag.vertex.lookup vhash with
      | none =>
        rw [hv] at h
        exact ih h hle
      | some vx =>
        simp only [hv, Option.bind_eq_bind, Option.bind_eq_some_iff] at h ⊢
        obtain ⟨⟨result, dag₁⟩, hr, h⟩ := h
        refine ⟨(result, dag₁), hr, ?_⟩
        cases result with
        | error e => exact ih h hle
        | ok waiting => exact ih h hle

/-- The loop adds to the successes what it adds to the graph. -/
theorem retryLoop_successes {fuel : Nat} (hd : Sound hash genesis dag)
    (h : DAG.retryLoop hash it fuel dag queue successes = some (successes', dag')) (k : H) :
    k ∈ successes' ↔ k ∈ successes ∨ k ∈ dag'.graph ∧ k ∉ dag.graph := by
  induction fuel generalizing dag queue successes with
  | zero => cases h
  | succ fuel ih =>
    cases queue with
    | nil =>
      cases h
      exact (or_iff_left fun hk => hk.2 hk.1).symm
    | cons vhash queue =>
      rw [DAG.retryLoop] at h
      cases hv : dag.vertex.lookup vhash with
      | none =>
        rw [hv] at h
        exact ih hd h
      | some vx =>
        simp only [hv, Option.bind_eq_bind, Option.bind_eq_some_iff] at h
        obtain ⟨⟨result, dag₁⟩, hr, h⟩ := h
        obtain ⟨r, hr', ht⟩ := tryInsert_spec it hd vx
        cases hr.symm.trans hr'
        have hd₁ := ht.sound hd
        cases ht with
        | refused hc =>
          rw [ih hd₁ h, park_graph]
        | inserted hc hi _ =>
          -- the vertex is new to the graph, and stays there
          have hh : hash vx = vhash := hd.hash_eq vhash vx hv
          have hfresh : vhash ∉ dag.graph := hh ▸ hc.ready.fresh
          have hmem (k : H) : k ∈ dag₁.graph ↔ k = vhash ∨ k ∈ dag.graph := by
            rw [hi.graph, Finmap.mem_insert, hh]
          have hin : vhash ∈ dag'.graph :=
            (Continues.of_retries hd₁ (retryLoop_retries h)).within.mem ((hmem vhash).mpr (Or.inl rfl))
          rw [ih hd₁ h, Finset.mem_insert, hmem]
          by_cases hk : k = vhash
          · rw [hk]
            exact iff_of_true (Or.inl (Or.inl rfl)) (Or.inr ⟨hin, hfresh⟩)
          · simp only [hk, false_or]

/-- With enough fuel the loop ends, and what it returns are the vertices that it has inserted. -/
theorem retryPending_ends (hd : Sound hash genesis dag) (it : HashOrders H) (hashes : List H) :
    ∃ successes dag',
      (∃ n, ∀ fuel, n ≤ fuel →
        DAG.retryLoop hash it fuel dag hashes.reverse ∅ = some (successes, dag')) ∧
      dag.retryPending hash it hashes = some (successes, dag') ∧
      ∀ k, k ∈ successes ↔ k ∈ dag'.graph ∧ k ∉ dag.graph := by
  obtain ⟨⟨successes, dag'⟩, hrun⟩ := retryPending_total it hd hashes
  refine ⟨successes, dag', ⟨_, fun fuel hle => retryLoop_fuel hrun hle⟩, hrun, fun k => ?_⟩
  rw [retryLoop_successes hd hrun, or_iff_right (Finset.notMem_empty k)]

/-- A submission leaves nothing behind that could be inserted. -/
theorem submission_drains (hd : Sound hash genesis dag) (hdr : dag.Drained hash)
    (it : HashOrders H) (vx : Vertex H) : ∃ result dag',
      dag.tryInsert hash it vx = some (result, dag') ∧
      (∀ e, result = .error e → dag'.Drained hash) ∧
      ∀ waiting, result = .ok waiting → ∀ it' hashes, (∀ w, w ∈ hashes ↔ w ∈ waiting) →
        ∃ successes dag'', dag'.retryPending hash it' hashes = some (successes, dag'') ∧
          dag''.Drained hash ∧ ∀ k, k ∈ successes ↔ k ∈ dag''.graph ∧ k ∉ dag'.graph := by
  have hQ : dag.Queued hash [] := (DAG.drained_iff_queued hd).mp hdr
  have hQ' : dag.Queued hash [hash vx] := fun h x hx hh hp =>
    absurd (hQ h x hx hh hp) List.not_mem_nil
  have hchecked := checkVertex_spec it vx hd
  cases hc : dag.checkVertex hash it vx with
  | panic =>
    rw [hc] at hchecked
    cases hchecked
  | err e =>
    rw [hc] at hchecked
    refine ⟨_, _, tryInsert_of_err hc, fun _ _ => ?_, fun _ h => by cases h⟩
    exact (DAG.drained_iff_queued (hchecked.park_sound hd)).mpr (hQ'.refused hd (Or.inr hQ) hc)
  | ok u =>
    obtain ⟨waiting, dag', hrun, hi, hwait⟩ := tryInsert_of_ok hd hc
    have ha : Attempt hash it vx dag dag' := ⟨_, hrun⟩
    have hd' := ha.sound hd
    refine ⟨_, _, hrun, fun _ h => (by cases h), fun waiting' he it' hashes hhashes => ?_⟩
    cases he
    -- what the new vertex was missing for is among its known children
    have hqueued : dag'.Queued hash hashes := by
      have hq := hQ'.inserted hd ha hi fun w => (hhashes w).trans (hwait w)
      rwa [List.append_nil] at hq
    obtain ⟨successes, dag'', _, hret, hsucc⟩ := retryPending_ends hd' it' hashes
    have hd'' := (Retries.induct (P := fun _ => True) (retryLoop_retries hret) hd' trivial
      fun _ _ _ _ _ _ _ _ => trivial).1
    exact ⟨successes, dag'', hret,
      (DAG.drained_iff_queued hd'').mpr (hqueued.retried hd' it' hret), hsucc⟩

/-- Retrying ends, and is complete. -/
theorem retry_complete (h : (DAG.system hash config genesis).Reachable dag) :
    (∀ it hashes, ∃ successes dag',
      (∃ n, ∀ fuel, n ≤ fuel →
        DAG.retryLoop hash it fuel dag hashes.reverse ∅ = some (successes, dag')) ∧
      dag.retryPending hash it hashes = some (successes, dag') ∧
      ∀ k, k ∈ successes ↔ k ∈ dag'.graph ∧ k ∉ dag.graph) ∧
    (dag.Drained hash → ∀ it vx, ∃ result dag',
      dag.tryInsert hash it vx = some (result, dag') ∧
      (∀ e, result = .error e → dag'.Drained hash) ∧
      ∀ waiting, result = .ok waiting → ∀ it' hashes, (∀ w, w ∈ hashes ↔ w ∈ waiting) →
        ∃ successes dag'', dag'.retryPending hash it' hashes = some (successes, dag'') ∧
          dag''.Drained hash ∧ ∀ k, k ∈ successes ↔ k ∈ dag''.graph ∧ k ∉ dag'.graph) :=
  have hd : Sound hash genesis dag := sound_of_reachable h
  ⟨retryPending_ends hd, submission_drains hd⟩

theorem retry_complete_fork : ∃ (dag dag' : DAG Digest) (waiting : HashSet Digest),
    dag.tryInsert Vertex.wire .ascending Fork.b = some (.ok waiting, dag') ∧
      Fork.ab.wire ∈ waiting ∧
      ∃ successes dag'', dag'.retryPending Vertex.wire .ascending [Fork.ab.wire] =
        some (successes, dag'') ∧ dag''.Drained Vertex.wire := by
  -- `ab` and its child wait for `b`
  have hrun : ∃ dag, (Fork.system ⟨2, 1⟩).Reachable dag ∧
      (∀ h ∈ dag.vertex.keys, h ∉ dag.graph →
        ∀ vx ∈ dag.vertex.lookup h, ∃ p ∈ vx.parents, p ∉ dag.graph) ∧
      ((dag.tryInsert Vertex.wire .ascending Fork.b).bind fun r => r.1.toOption) =
        some {Fork.ab.wire} :=
    reachable_of_run rfl rfl (Fork.run [Fork.ab, Fork.abTip, Fork.a] []) (by decide +kernel)
  obtain ⟨dag, hr, hparked, hb⟩ := hrun
  have hdr : dag.Drained Vertex.wire := by
    intro h vx hv hh hin
    obtain ⟨p, hp, hpg⟩ :=
      hparked h (Finmap.mem_keys.mpr (Finmap.mem_of_lookup_eq_some hv)) hh vx hv
    exact absurd (hin p hp) hpg
  obtain ⟨result, dag', hres, _, hok⟩ := (retry_complete hr).2 hdr .ascending Fork.b
  rw [hres, Option.bind_some] at hb
  have hwaiting : result = .ok {Fork.ab.wire} := by
    cases result with
    | error e => cases hb
    | ok waiting => exact congrArg Except.ok (Option.some.inj hb)
  subst hwaiting
  obtain ⟨successes, dag'', hret, hdr', _⟩ :=
    hok _ rfl .ascending [Fork.ab.wire] fun w => by simp
  exact ⟨dag, dag', _, hres, Finset.mem_singleton_self _, successes, dag'', hret, hdr'⟩

end Taurus
