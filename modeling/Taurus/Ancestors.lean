import Taurus.Wire

namespace Taurus

open Relation

variable {H : Type} [LinearOrder H] {hash : Vertex H → H} {it it' : HashOrders H}
  {config : Config} {genesis vx px : Vertex H} {dag dag' : DAG H} {a p v : H} {c : Constraint H}

namespace DAG

/-- Does an undecided line lead from a rejected vertex to a parent of the vertex? -/
def ReachesRejected (dag : DAG H) (vx : Vertex H) : Prop :=
  ∃ a, dag.OpenLine a vx ∧ dag.decisionOn a = some false

/-- The children of a rejected vertex are decided, so such a line has no length. -/
theorem reachesRejected_iff (hd : Sound hash genesis dag) :
    dag.ReachesRejected vx ↔ ∃ p ∈ vx.parents, dag.decisionOn p = some false := by
  constructor
  · rintro ⟨a, ⟨p, hp, hap⟩, ha⟩
    rcases ReflTransGen.cases_head hap with rfl | ⟨b, hab, _⟩
    · exact ⟨a, hp, ha⟩
    · exact absurd ha (hd.parent_not_rejected hab.1 hab.2)
  · rintro ⟨p, hp, hrej⟩
    exact ⟨p, ⟨p, hp, .refl⟩, hrej⟩

end DAG

/-- What `get_active_ancestors` returns, on every vertex whose parents are inserted. -/
theorem getActiveAncestors_exact (h : (DAG.system hash config genesis).Reachable dag)
    (it : HashOrders H) (hne : vx.parents ≠ []) (hn : vx.parents.Nodup)
    (hp : ∀ p ∈ vx.parents, p ∈ dag.graph) :
    (dag.getActiveAncestors hash it vx = .err .rejectedAncestor ↔ dag.ReachesRejected vx) ∧
    (¬ dag.ReachesRejected vx → (dag.getActiveAncestors hash it vx = .err .selfReferentialParent ↔
      ∃ p ∈ vx.parents, ∃ q ∈ vx.parents, dag.graph.Ancestor p q)) ∧
    (¬ dag.ReachesRejected vx →
      (¬ ∃ p ∈ vx.parents, ∃ q ∈ vx.parents, dag.graph.Ancestor p q) →
      ∃ l, dag.getActiveAncestors hash it vx = .ok l ∧ l.Nodup ∧
        (l.Pairwise fun a b => dag.graph.height a ≤ dag.graph.height b) ∧
        (∀ a ∈ l, dag.decisionOn a = none ∧ dag.graph.Precedes a vx) ∧
        ∀ a, dag.OpenLine a vx → dag.decisionOn a = none → a ∈ l) := by
  have hd := sound_of_reachable h
  obtain ⟨hrej, hself, hok⟩ := getActiveAncestors_spec it hd hne hp
  have hnone (hnr : ¬ dag.ReachesRejected vx) (p : H) (hpv : p ∈ vx.parents) :
      dag.decisionOn p ≠ some false := fun hf =>
    hnr ((DAG.reachesRejected_iff hd).mpr ⟨p, hpv, hf⟩)
  have hlist (hnr : ¬ dag.ReachesRejected vx)
      (hna : ¬ ∃ p ∈ vx.parents, ∃ q ∈ vx.parents, dag.graph.Ancestor p q) :=
    hok (hnone hnr) fun p hpv q hqv ha => hna ⟨p, hpv, q, hqv, ha⟩
  refine ⟨⟨fun he => ?_, fun hr => hrej ((DAG.reachesRejected_iff hd).mp hr)⟩,
    fun hnr => ⟨fun he => ?_, hself (hnone hnr)⟩, fun hnr hna => ?_⟩
  -- the three results differ, so each of them is the one of its own case
  · by_contra hnr
    by_cases hna : ∃ p ∈ vx.parents, ∃ q ∈ vx.parents, dag.graph.Ancestor p q
    · have hs := hself (hnone hnr) hna
      rw [he] at hs
      cases hs
    · obtain ⟨l, hl, _⟩ := hlist hnr hna
      rw [he] at hl
      cases hl
  · by_contra hna
    obtain ⟨l, hl, _⟩ := hlist hnr hna
    rw [he] at hl
    cases hl
  · obtain ⟨l, hl, hmem, hnodup, hsorted⟩ := hlist hnr hna
    have hactive := ActiveAncestors.of_iff hd hmem
    exact ⟨l, hl, hnodup hn, hsorted, hactive.sound, hactive.complete⟩

theorem getActiveAncestors_exact_tip : ∃ (dag : DAG Digest) (l : List Digest),
    dag.getActiveAncestors Vertex.wire .ascending Fork.abTip = .ok l ∧ l.Nodup ∧
      ∀ a, dag.OpenLine a Fork.abTip → dag.decisionOn a = none → a ∈ l := by
  have hrun : ∃ dag, (Fork.system ⟨2, 2⟩).Reachable dag ∧
      (∀ p ∈ Fork.abTip.parents, p ∈ dag.graph) ∧
      dag.getActiveAncestors Vertex.wire .ascending Fork.abTip ≠ .err .rejectedAncestor ∧
      dag.getActiveAncestors Vertex.wire .ascending Fork.abTip ≠ .err .selfReferentialParent :=
    reachable_of_run rfl rfl (Fork.run [Fork.a, Fork.b, Fork.ab] []) (by decide +kernel)
  obtain ⟨dag, hr, hin, hrej, hself⟩ := hrun
  obtain ⟨hr1, hr2, hr3⟩ := getActiveAncestors_exact hr .ascending (by decide) (by decide) hin
  have hnr := fun h => hrej (hr1.mpr h)
  obtain ⟨l, hl, hn, _, _, hall⟩ := hr3 hnr fun h => hself ((hr2 hnr).mpr h)
  exact ⟨dag, l, hl, hn, hall⟩

section Parent

variable (hd : Sound hash genesis dag) (hpl : dag.graph.lookup p = some px)
  (hu : dag.decisionOn p = none) (hpv : p ∈ vx.parents)
include hpl hpv

/-- What comes before a parent of the vertex comes before the vertex. -/
theorem Graph.Precedes.of_parent (ha : dag.graph.Precedes a px) : dag.graph.Precedes a vx := by
  obtain ⟨q, hq, haq⟩ := ha
  exact ⟨p, hpv, haq.tail ⟨px, hpl, hq⟩⟩

include hu

omit hpv in
/-- An undecided line from a parent of `p` goes on to `p`, and ends at the same heights. -/
theorem DAG.EndsAt.of_parent {q : H} {n : Nat} (hq : q ∈ px.parents) (he : dag.EndsAt q n) :
    dag.EndsAt p n := by
  rcases he with ⟨e, heq, hacc, hn⟩ | ⟨hn, _⟩
  · exact Or.inl ⟨e, heq.tail ⟨⟨px, hpl, hq⟩, hu⟩, hacc, hn⟩
  · exact Or.inr ⟨hn, hu⟩

include hd

/-- The active ancestors of an undecided parent are active ancestors of the vertex. -/
theorem DAG.Active.of_parent (ha : dag.Active a px) : dag.Active a vx := by
  obtain ⟨hua, hap | ⟨b, hab, hb, q, hq, n, hn, hlt⟩⟩ := ha
  · exact .of_openLine hd ⟨p, hpv, .single ⟨⟨px, hpl, hap⟩, hu⟩⟩ hua
  · exact ⟨hua, Or.inr ⟨b, hab, hb.of_parent hpl hpv, p, hpv, n, hn.of_parent hpl hu hq, hlt⟩⟩

theorem DAG.ActiveConstraint.of_parent (hc : dag.ActiveConstraint c px) :
    dag.ActiveConstraint c vx := by
  obtain ⟨huc, hown | ⟨a, ha, hca⟩⟩ := hc
  · -- the commitments of the parent itself count for the vertex, as the parent is active
    refine ⟨huc, Or.inr ⟨p, ⟨hu, Or.inl hpv⟩, ?_⟩⟩
    rwa [Graph.commitments_of_lookup hpl]
  · exact ⟨huc, Or.inr ⟨a, ha.of_parent hd hpl hu hpv, hca⟩⟩

end Parent

/-- The parents of a vertex that is strongly preferred and undecided are strongly preferred. -/
theorem stronglyPreferred_hereditary (h : (DAG.system hash config genesis).Reachable dag)
    (hq : dag.query hash it v = .ok (true, false)) (hp : dag.graph.IsParent p v)
    (it' : HashOrders H) : ∃ b, dag.query hash it' p = .ok (true, b) := by
  have hd := sound_of_reachable h
  obtain ⟨vx, hv, hpv⟩ := hp
  obtain ⟨b, hb, hstrong⟩ := query_spec it hd (Finmap.mem_of_lookup_eq_some hv)
  rw [hq, Outcome.ok.injEq, Prod.mk.injEq] at hb
  obtain ⟨rfl, hund⟩ := hb
  have hu : dag.decisionOn v = none := by simpa using hund.symm
  obtain ⟨b', hb', hstrong'⟩ := query_spec it' hd (hd.shaped.parent_mem ⟨vx, hv, hpv⟩)
  have hsp : dag.StronglyPreferred p := by
    cases hup : dag.decisionOn p with
    | some d =>
      cases d with
      | true => exact Or.inl hup
      | false => exact absurd hup (hd.parent_not_rejected ⟨vx, hv, hpv⟩ hu)
    | none =>
      obtain ⟨px, hpl⟩ := Finmap.mem_iff.mp (hd.shaped.parent_mem ⟨vx, hv, hpv⟩)
      have hprefers : ∀ c, dag.ActiveConstraint c vx → Prefers dag.state c := by
        rcases hstrong.mp rfl with hacc | ⟨_, wx, hw, hall⟩
        · rw [hu] at hacc
          cases hacc
        · cases hv.symm.trans hw
          exact hall
      exact Or.inr ⟨hup, px, hpl, fun c hc => hprefers c (hc.of_parent hd hpl hup hpv)⟩
  rw [hstrong'.mpr hsp] at hb'
  exact ⟨_, hb'⟩

theorem stronglyPreferred_hereditary_tip : ∃ dag : DAG Digest,
    dag.query Vertex.wire .ascending Fork.abTip.wire = .ok (true, false) ∧
      ∃ b, dag.query Vertex.wire .ascending Fork.ab.wire = .ok (true, b) := by
  have hrun : ∃ dag, (Fork.system ⟨2, 2⟩).Reachable dag ∧
      dag.query Vertex.wire .ascending Fork.abTip.wire = .ok (true, false) ∧
      dag.graph.IsParent Fork.ab.wire Fork.abTip.wire :=
    reachable_of_run rfl rfl (Fork.run [Fork.a, Fork.b, Fork.ab, Fork.abTip] []) (by decide +kernel)
  obtain ⟨dag, hr, hq, hp⟩ := hrun
  exact ⟨dag, hq, stronglyPreferred_hereditary hr hq hp .ascending⟩

end Taurus
