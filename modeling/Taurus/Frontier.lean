import Mathlib.Data.Finset.Max
import Taurus.Causes

namespace Taurus

open Relation

variable {H : Type} [LinearOrder H] {hash : Vertex H → H} {it : HashOrders H} {config : Config}
  {genesis vx : Vertex H} {dag dag' : DAG H} {s t u : StateMap H} {S : Constraint H → Prop}
  {c : Constraint H} {h : H}

namespace Graph

/-- Is the vertex in the graph, with no vertex on top of it? -/
def Childless (graph : Graph H) (h : H) : Prop := h ∈ graph ∧ ∀ k, ¬ graph.IsParent h k

/-- Do no two vertices commit to opposite orderings? -/
def Uncontested (graph : Graph H) : Prop :=
  ∀ c, graph.Registered c → c.left ≠ c.right → ¬ graph.Registered c.swap

variable {graph : Graph H} {root : H}

/-- The highest vertices have no children. -/
theorem Shaped.exists_childless (hs : graph.Shaped root genesis) : ∃ h, graph.Childless h := by
  have hne : graph.keys.Nonempty := ⟨root, Finmap.mem_keys.mpr hs.root_mem⟩
  obtain ⟨h, hh, hmax⟩ := Finset.exists_max_image graph.keys graph.height hne
  refine ⟨h, Finmap.mem_keys.mp hh, fun k hk => ?_⟩
  exact absurd (hs.height_lt hk) (hmax k (Finmap.mem_keys.mpr hk.mem)).not_gt

end Graph

/-- What the second state map prefers is one of `S`, or is preferred in the first one. -/
def PrefersFrom (S : Constraint H → Prop) (s t : StateMap H) : Prop :=
  ∀ k cs', t.lookup k = some cs' → S cs'.preferred ∨
    ∃ cs, s.lookup k = some cs ∧ cs'.preferred = cs.preferred

namespace PrefersFrom

theorem refl (S : Constraint H → Prop) (s : StateMap H) : PrefersFrom S s s :=
  fun _ cs' h => Or.inr ⟨cs', h, rfl⟩

theorem trans (hst : PrefersFrom S s t) (htu : PrefersFrom S t u) : PrefersFrom S s u := by
  intro k cs'' h
  rcases htu k cs'' h with hS | ⟨cs', h', he⟩
  · exact Or.inl hS
  rcases hst k cs' h' with hS | ⟨cs, hcs, he'⟩
  · exact Or.inl (he ▸ hS)
  · exact Or.inr ⟨cs, hcs, he.trans he'⟩

theorem of_grown (hg : Grown S s t) : PrefersFrom S s t := by
  intro k cs' h
  by_cases hk : k ∈ s
  · obtain ⟨cs, hcs⟩ := Finmap.mem_iff.mp hk
    obtain ⟨ch, hch⟩ := hg.kept k cs hcs
    cases h.symm.trans hch
    exact Or.inr ⟨cs, hcs, rfl⟩
  · exact Or.inl (hg.fresh k cs' h hk).1

theorem of_voteFor {depth : Nat} (h : DAG.voteFor it config depth s c = some t) (hc : S c) :
    PrefersFrom S s t := by
  obtain ⟨csc, cs₁, hcsc, hdec, _, _, hpref, _⟩ := voteFor_frame h
  intro k cs' hcs'
  obtain ⟨cs₂, hcs₂, _, rfl⟩ := hdec.lookup hcs'
  rw [HashMap.lookup_insert] at hcs₂
  split at hcs₂
  · next hk =>
    cases hcs₂
    rcases hpref with he | he
    · exact Or.inl (show S cs₁.preferred from he.symm ▸ hc)
    · exact Or.inr ⟨csc, hk ▸ hcsc, he⟩
  · exact Or.inr ⟨cs₂, hcs₂, rfl⟩

theorem of_voteAgainst (h : DAG.voteAgainst s c = some t) : PrefersFrom S s t := by
  obtain ⟨cs, hcs, rfl⟩ := voteAgainst_eq_some h
  intro k cs' hcs'
  rw [HashMap.lookup_insert] at hcs'
  split at hcs'
  · next hk =>
    cases hcs'
    exact Or.inr ⟨cs, hk ▸ hcs, rfl⟩
  · exact Or.inr ⟨cs', hcs', rfl⟩

/-- The loop over the constraints of a result prefers some of these at most. -/
theorem of_loop {b : Bool} {l : List (Constraint H)} (hl : ∀ c ∈ l, S c)
    (h : l.foldlM (dag.recordConstraint it b) s = some t) : PrefersFrom S s t := by
  refine foldlM_rel (refl S) (fun _ _ _ => trans) l (fun s c hc t ht => ?_) h
  cases b with
  | false => exact of_voteAgainst ht
  | true => exact of_voteFor ht (hl c hc)

end PrefersFrom

/-- Does every conflict set prefer an ordering that some vertex commits to? -/
def DAG.PrefersRegistered (dag : DAG H) : Prop :=
  ∀ k cs, dag.state.lookup k = some cs → dag.graph.Registered cs.preferred

namespace DAG.PrefersRegistered

theorem start (hg : genesis.parents = []) : (DAG.start hash config genesis).PrefersRegistered := by
  intro k cs hcs
  rw [DAG.start, HashMap.lookup_insert] at hcs
  split at hcs
  · cases hcs
    exact (DAG.registered_start hg).mpr rfl
  · cases hcs

theorem attempt (hP : dag.PrefersRegistered) (hd : Sound hash genesis dag)
    (ha : Attempt hash it vx dag dag') : dag'.PrefersRegistered := by
  have hfrom := PrefersFrom.of_grown ha.grown_within
  obtain ⟨_, ht⟩ := ha.tried hd
  cases ht with
  | refused hc =>
    intro k cs hcs
    rw [park_state] at hcs
    rw [park_graph]
    exact hP k cs hcs
  | inserted hc hi _ =>
    intro k cs hcs
    rw [hi.graph, Graph.registered_insert hc.ready.fresh]
    rcases hfrom k cs hcs with hS | ⟨cs₀, hcs₀, he⟩
    · exact Or.inr hS
    · rw [he]
      exact Or.inl (hP k cs₀ hcs₀)

theorem record {w : H} {b : Bool} (hP : dag.PrefersRegistered) (hd : Sound hash genesis dag)
    (hok : dag.recordQueryResult hash it w b = .ok dag') : dag'.PrefersRegistered := by
  obtain ⟨vx, dag₁, l, state, hv, hb, hf, rfl⟩ := recordQueryResult_eq_ok.mp hok
  obtain ⟨state₀, haward, rfl, _, _, hup, _⟩ := beginRecord_updates hd hv hb
  have hw : w ∈ dag.graph := Finmap.mem_of_lookup_eq_some (hd.pending_inserted w vx hv).1
  have hloop := PrefersFrom.of_loop (S := dag.graph.Registered)
    (fun c hc => (hup c hc).registered hw) hf
  intro k cs hcs
  rcases hloop k cs hcs with hS | ⟨cs₁, hcs₁, he⟩
  · exact hS
  obtain ⟨cs₀, hcs₀, _, _, he₀⟩ := awardIfPreferred_frame haward hcs₁
  rw [he, he₀]
  exact hP k cs₀ hcs₀

theorem of_reachable (h : (DAG.system hash config genesis).Reachable dag) :
    dag.PrefersRegistered :=
  reachable_induct (P := DAG.PrefersRegistered) h start (fun _ _ _ _ hd hP ha => hP.attempt hd ha)
    fun _ _ _ _ _ hd hP hok => hP.record hd hok

end DAG.PrefersRegistered

/-- Where two vertices commit to opposite orderings, and only there, inserted constraints get
rejected. -/
theorem rejected_contested (h : (DAG.system hash config genesis).Reachable dag)
    (hc : dag.graph.Registered c) (hrej : decisionOf dag.state c = some false) :
    ∃ r, dag.graph.Registered r ∧ r.left ≠ r.right ∧ dag.graph.Registered r.swap := by
  have hP : Stable hash genesis _ _ := causedBy_stable (S := Graph.Registered)
    fun graph _ _ _ hf hS => (Graph.registered_insert hf).mpr (Or.inl hS)
  obtain ⟨past, hrun⟩ := h.exists_run
  have hcaused := (hP.reachable (causedBy_start _)
    (hrun.reachableWhen.mono fun s call hs v hv _ _ => ?_)).2
  · obtain ⟨r, hr, o, ho, hreg⟩ := hcaused c hrej
    obtain ⟨hne, rfl⟩ := (Constraint.conflict_eq_some r o).mp ho
    refine ⟨r, ?_, hne, hreg⟩
    -- what lies above something inserted is inserted
    rcases ReflTransGen.cases_head hr with rfl | ⟨d, hrd, _⟩
    · exact hc
    · exact Graph.registered_of_parentConstraint hrd.2
  · obtain ⟨later, older, rfl⟩ := List.append_of_mem hs
    obtain ⟨w, hb⟩ := DAG.exists_ballot (sound_of_reachable hrun.before.1.reachable) hv
    rw [hb.recording]
    exact hb.registered

/-- Is the vertex rejected, or undecided with an undecided ordering in its active ancestry
whose opposite is preferred? -/
def DAG.Outvoted (dag : DAG H) (h : H) : Prop :=
  dag.decisionOn h = some false ∨ dag.decisionOn h = none ∧ ∃ vx, dag.graph.lookup h = some vx ∧
    ∃ c, dag.ActiveConstraint c vx ∧ c.left ≠ c.right ∧ Prefers dag.state c.swap

/-- A conflict set prefers exactly one of its members. -/
theorem prefers_swap_iff (hd : Sound hash genesis dag) (hc : dag.graph.Registered c)
    (hne : c.left ≠ c.right) : Prefers dag.state c.swap ↔ ¬ Prefers dag.state c := by
  obtain ⟨cs, hcs, hw⟩ := hd.stores.lookup (hd.stores.mem_of_registered hc)
  have hkey : c.swap.conflictSetKey = c.conflictSetKey :=
    (Constraint.conflictSetKey_eq_iff c.swap c).mpr (Or.inr rfl)
  have hswap : c.swap ≠ c := fun he => hne (congrArg Constraint.right he)
  rw [prefers_iff hcs, prefers_iff (hkey ▸ hcs)]
  rcases (Constraint.conflictSetKey_eq_iff _ c).mp hw.preferred with he | he
  · rw [he]
    exact ⟨fun h => absurd h.symm hswap, fun h => absurd rfl h⟩
  · rw [he]
    exact ⟨fun _ => hswap, fun _ => rfl⟩

/-- A constraint without conflict is preferred in its own conflict set. -/
theorem prefers_unity (hd : Sound hash genesis dag) (hc : dag.graph.Registered c)
    (hu : c.left = c.right) : Prefers dag.state c := by
  obtain ⟨cs, hcs, hw⟩ := hd.stores.lookup (hd.stores.mem_of_registered hc)
  refine (prefers_iff hcs).mpr ?_
  have hk := hw.preferred
  rw [c.eq_unity_of_left_eq_right hu] at hk ⊢
  exact (Constraint.conflictSetKey_unity_eq_iff _ _).mp hk

theorem stronglyPreferred_iff_not_outvoted (hd : Sound hash genesis dag) (hh : h ∈ dag.graph) :
    dag.StronglyPreferred h ↔ ¬ dag.Outvoted h := by
  obtain ⟨vx, hv⟩ := Finmap.mem_iff.mp hh
  rw [DAG.StronglyPreferred, DAG.Outvoted]
  cases hu : dag.decisionOn h with
  | some b => cases b <;> simp
  | none =>
    simp only [reduceCtorEq, false_or, true_and, hv, Option.some.injEq, exists_eq_left',
      not_exists, not_and]
    refine forall_congr' fun c => imp_congr_right fun hc => ?_
    have hreg := registered_of_committed hv hc.2
    by_cases hlr : c.left = c.right
    · exact iff_of_true (prefers_unity hd hreg hlr) fun hne => absurd hlr hne
    · rw [prefers_swap_iff hd hreg hlr, not_not]
      exact ⟨fun hp _ => hp, fun hp => hp hlr⟩

/-- The frontier is empty exactly when all vertices without children are outvoted, which is
never the case as long as no two vertices commit to opposite orderings. -/
theorem frontier_nonempty_iff (h : (DAG.system hash config genesis).Reachable dag)
    (it : HashOrders H) :
    ((∃ l, dag.getFrontier hash it = some l ∧ l ≠ []) ↔
      ∃ v, dag.graph.Childless v ∧ ¬ dag.Outvoted v) ∧
    (dag.graph.Uncontested → ∃ l, dag.getFrontier hash it = some l ∧ l ≠ []) := by
  have hd := sound_of_reachable h
  have hiff : (∃ l, dag.getFrontier hash it = some l ∧ l ≠ []) ↔
      ∃ v, dag.graph.Childless v ∧ ¬ dag.Outvoted v := by
    obtain ⟨l, kept, hl, hperm, _, hkept⟩ := getFrontier_spec it hd
    have hmem (v : H) : v ∈ kept ↔ dag.graph.Childless v ∧ ¬ dag.Outvoted v := by
      rw [hkept, hd.frontier_iff]
      exact and_congr_right fun hv => stronglyPreferred_iff_not_outvoted hd hv.1
    simp only [hl, Option.some.injEq, exists_eq_left', ← hmem]
    constructor
    · intro hne
      obtain ⟨vx, hvx⟩ := List.exists_mem_of_ne_nil l hne
      obtain ⟨v, hv, _⟩ := List.mem_filterMap.mp (hperm.mem_iff.mp hvx)
      exact ⟨v, hv⟩
    · rintro ⟨v, hv⟩
      obtain ⟨vx, hvx⟩ := Finmap.mem_iff.mp ((hkept v).mp hv).1
      exact List.ne_nil_of_mem (hperm.mem_iff.mpr (List.mem_filterMap.mpr ⟨v, hv, hvx⟩))
  refine ⟨hiff, fun hun => hiff.mpr ?_⟩
  -- without contested pairs no childless vertex is outvoted, and there is one
  obtain ⟨v, hv⟩ := hd.shaped.exists_childless
  refine ⟨v, hv, ?_⟩
  rintro (hrej | ⟨_, vx, hvx, c, hact, hne, hpref⟩)
  · obtain ⟨r, hr, hne, hsw⟩ := rejected_contested h (Graph.registered_unity hv.1) hrej
    exact hun r hr hne hsw
  · obtain ⟨cs, hcs, hsw⟩ := hpref
    refine hun c (registered_of_committed hvx hact.2) hne ?_
    exact hsw ▸ DAG.PrefersRegistered.of_reachable h _ cs hcs

/-! Two contested pairs, and two tips that each combine the preferred ordering of one pair with
the other ordering of the second. -/

namespace Cross

open Vertex

def e : Vertex Digest := batch 11 1 [Fork.root]
def f : Vertex Digest := batch 12 1 [Fork.root]
def ef : Vertex Digest := batch 13 2 [e, f]
def fe : Vertex Digest := batch 14 2 [f, e]
def abFe : Vertex Digest := batch 15 3 [Fork.ab, fe]
def baEf : Vertex Digest := batch 16 3 [Fork.ba, ef]

/-- Each pair prefers the ordering that has reached it first. -/
theorem run : ∃ dag, (Fork.system ⟨2, 1⟩).Reachable dag ∧
    dag.getFrontier Vertex.wire .ascending = some [] :=
  reachable_of_run rfl rfl
    (Fork.run [Fork.a, Fork.b, e, f, Fork.ab, Fork.ba, ef, fe, abFe, baEf] []) (by decide +kernel)

end Cross

theorem frontier_nonempty_iff_cross : ∃ dag : DAG Digest,
    dag.getFrontier Vertex.wire .ascending = some [] ∧
      ∀ v, dag.graph.Childless v → dag.Outvoted v := by
  obtain ⟨dag, hr, hempty⟩ := Cross.run
  refine ⟨dag, hempty, fun v hv => ?_⟩
  by_contra hno
  obtain ⟨l, hl, hne⟩ := (frontier_nonempty_iff hr .ascending).1.mpr ⟨v, hv, hno⟩
  cases hempty.symm.trans hl
  exact hne rfl

/-- The frontier can be empty, without a single vote. -/
theorem frontier_empty : Vertex.CollisionFree Vertex.wire Set.univ ∧
    ∃ dag, (Fork.system ⟨2, 1⟩).Reachable dag ∧
      dag.getFrontier Vertex.wire .ascending = some [] :=
  ⟨Vertex.wire_collisionFree _, Cross.run⟩

end Taurus
