import Taurus.Admission
import Taurus.Wire

namespace Taurus

open Relation

variable {H : Type} [LinearOrder H] {hash : Vertex H → H} {it it' : HashOrders H}
  {config : Config} {genesis : Vertex H} {dag dag' : DAG H} {vx : Vertex H}

/-- When the counter of a vertex reaches the acceptance threshold, every ordering that it
or an ancestor commits to is accepted. -/
def OrderingsSettled (dag : DAG H) (c : Constraint H) : Prop :=
  c.left = c.right → dag.config.threshAccepted ≤ tally dag.state c →
    ∀ r, dag.graph.Commits c.left r → r.left ≠ r.right → decisionOf dag.state r = some true

/-- What holds of graph and verdicts as long as the threshold only accepts settled vertices. -/
structure Safe (graph : Graph H) (D : Verdicts (Constraint H)) : Prop where
  settled : graph.constraintGraph.SettledOn D fun c => c.isUnity
  rooted : graph.constraintGraph.Rooted D
  consistent : ∀ h c, c.left ≠ c.right → graph.Commits h c → ¬ graph.Commits h c.swap

namespace Safe

variable {graph : Graph H} {D : Verdicts (Constraint H)}

theorem start (hg : genesis.parents = []) : Safe (DAG.start hash config genesis).graph
    (decisionOf (DAG.start hash config genesis).state) := by
  refine ⟨fun c _ _ r hr _ => ?_, fun c hc => ?_, fun h c _ hc => ?_⟩
  · obtain ⟨d, _, hd⟩ := TransGen.tail'_iff.mp hr
    exact absurd hd.2 (DAG.not_parentConstraint_start hg d)
  · rw [DAG.decisionOf_start] at hc
    split at hc <;> cases hc
  · obtain ⟨a, _, ha⟩ := hc
    exact absurd (Graph.isParent_of_mem_commitments ha).1 (DAG.not_isParent_start hg)

end Safe

section Ancestry

variable (hd : Sound hash genesis dag) (hs : Safe dag.graph (decisionOf dag.state))
include hs

/-- Nothing that an accepted vertex or its ancestors commit to is rejected. -/
theorem above_accepted_not_rejected {k : H} {c : Constraint H} (hk : dag.decisionOn k = some true)
    (hc : TransGen dag.graph.constraintGraph.child c (.unity k)) :
    decisionOf dag.state c ≠ some false := by
  intro hf
  -- a rejected constraint has a rejected ordering above it, but those are all accepted
  obtain ⟨r, hr, hcr, hrf⟩ := hs.rooted c hf
  have hacc := hs.settled (.unity k) (by simp) hk r (TransGen.trans_right hr hc) hcr
  rw [hacc] at hrf
  cases hrf

include hd

/-- Every ancestor of a vertex that is not rejected is not rejected either, and is reached
by an undecided line or lies above an accepted vertex. -/
theorem ancestor_open_or_accepted {a h : H} (hh : dag.decisionOn h ≠ some false)
    (ha : ReflTransGen dag.graph.IsParent a h) :
    dag.decisionOn a ≠ some false ∧ (ReflTransGen dag.OpenParent a h ∨
      ∃ k, dag.decisionOn k = some true ∧ TransGen dag.graph.IsParent a k) := by
  have hunity {a k : H} (hak : TransGen dag.graph.IsParent a k) :
      TransGen dag.graph.constraintGraph.child (.unity a) (.unity k) := by
    induction hak with
    | single hp => exact .single (Graph.child_unity (Graph.unity_mem_commitments hp))
    | tail _ hp ih => exact ih.tail (Graph.child_unity (Graph.unity_mem_commitments hp))
  -- up the line: undecided vertices until the first accepted one, and above it none is rejected
  induction ha using ReflTransGen.head_induction_on with
  | refl => exact ⟨hh, Or.inl .refl⟩
  | @head a b hab _ ih =>
    obtain ⟨hb, hline⟩ := ih
    have hbelow {k : H} (hk : dag.decisionOn k = some true)
        (hak : TransGen dag.graph.IsParent a k) : dag.decisionOn a ≠ some false :=
      above_accepted_not_rejected hs hk (hunity hak)
    rcases hline with hline | ⟨k, hk, hbk⟩
    · cases hb' : dag.decisionOn b with
      | none => exact ⟨hd.parent_not_rejected hab hb', Or.inl (.head ⟨hab, hb'⟩ hline)⟩
      | some v =>
        cases v with
        | false => exact absurd hb' hb
        | true => exact ⟨hbelow hb' (.single hab), Or.inr ⟨b, hb', .single hab⟩⟩
    · exact ⟨hbelow hk (.head hab hbk), Or.inr ⟨k, hk, .head hab hbk⟩⟩

/-- An ordering committed to above a vertex that is not rejected is accepted, or it is
undecided and so are its vertex and the line that leads there. -/
theorem ordering_accepted_or_open {a h : H} {c : Constraint H}
    (hh : dag.decisionOn h ≠ some false) (ha : ReflTransGen dag.graph.IsParent a h)
    (hc : c ∈ dag.graph.commitments a) (hne : c.left ≠ c.right) :
    decisionOf dag.state c = some true ∨ decisionOf dag.state c = none ∧
      dag.decisionOn a = none ∧ ReflTransGen dag.OpenParent a h := by
  obtain ⟨hna, hline⟩ := ancestor_open_or_accepted hd hs hh ha
  have hcr : dag.graph.constraintGraph.Contestable c := Graph.contestable_iff.mpr hne
  have hchild := Graph.child_unity hc
  cases hda : dag.decisionOn a with
  | some v =>
    cases v with
    | false => exact absurd hda hna
    | true => exact Or.inl (hs.settled (.unity a) (by simp) hda c (.single hchild) hcr)
  | none =>
    rcases hline with hline | ⟨k, hk, hak⟩
    · cases hdc : decisionOf dag.state c with
      | none => exact Or.inr ⟨rfl, rfl, hline⟩
      | some v =>
        cases v with
        | true => exact Or.inl rfl
        | false => exact absurd hda (hd.decided (.unity a) (by simp) c hchild hdc)
    · have habove : TransGen dag.graph.constraintGraph.child c (.unity k) :=
        Graph.below_of_commits ⟨a, hak.to_reflTransGen, hc⟩
      exact Or.inl (hs.settled (.unity k) (by simp) hk c habove hcr)

/-- A vertex that passes the checks inherits no ordering together with its opposite. -/
theorem inherited_consistent (hc : Checked hash dag vx (.ok ())) {a b : H} {c : Constraint H}
    (ha : dag.graph.Precedes a vx) (hb : dag.graph.Precedes b vx) (hne : c.left ≠ c.right)
    (hca : c ∈ dag.graph.commitments a) : c.swap ∉ dag.graph.commitments b := by
  intro hcb
  cases hc with
  | ok _ _ hnr _ hact hno =>
    obtain ⟨p, hp, hap⟩ := ha
    obtain ⟨q, hq, hbq⟩ := hb
    have hne' : c.swap.left ≠ c.swap.right := fun h => hne h.symm
    have hopp : dag.graph.constraintGraph.opposite c = some c.swap :=
      (Constraint.conflict_eq_some c c.swap).mpr ⟨hne, rfl⟩
    have hopp' := dag.graph.constraintGraph.opposite_symm c c.swap hopp
    have h1 := ordering_accepted_or_open hd hs (hnr p hp) hap hca hne
    have h2 := ordering_accepted_or_open hd hs (hnr q hq) hbq hcb hne'
    -- accepted on one side is rejected on the other; both undecided is what the check looks for
    rcases h1 with h1 | ⟨hu1, ha1, hl1⟩
    · rw [hd.exclusive c c.swap hopp h1] at h2
      simp at h2
    · rcases h2 with h2 | ⟨hu2, hb2, hl2⟩
      · rw [hd.exclusive c.swap c hopp' h2] at hu1
        cases hu1
      · exact hno c (hact.inherited a ⟨p, hp, hl1⟩ ha1 c hca hu1) hne
          (hact.inherited b ⟨q, hq, hl2⟩ hb2 c.swap hcb hu2)

end Ancestry

namespace Safe

/-- The checks leave nothing out: a vertex that passes them is admitted. -/
theorem admits (hd : Sound hash genesis dag) (hs : Safe dag.graph (decisionOf dag.state))
    (hc : Checked hash dag vx (.ok ())) : dag.graph.Admits vx := by
  have hl := hc.legal
  -- an own ordering of two parents is not found reversed above one of them
  have hown (d : Constraint H) (hdv : d ∈ vx.parentConstraints) (a : H)
      (ha : dag.graph.Precedes a vx) : d.swap ∉ dag.graph.commitments a := by
    intro hda
    obtain ⟨p, hp, hap⟩ := ha
    have hpar := (Graph.isParent_of_mem_commitments hda).2
    exact hl.antichain d.left (vx.parents_of_mem_parentConstraints d hdv).1 p hp
      (TransGen.head' hpar hap)
  refine ⟨hc.ready.sane, hl.inserted, hl.height_eq, hl.antichain, fun c hne hcm hsw => ?_⟩
  rcases hcm with hcv | ⟨a, ha, hca⟩
  · rcases hsw with hsv | ⟨b, hb, hsb⟩
    · exact vx.swap_notMem_parentConstraints c hl.nodup hne hcv hsv
    · exact hown c hcv b hb hsb
  · rcases hsw with hsv | ⟨b, hb, hsb⟩
    · exact hown c.swap hsv a ha hca
    · exact inherited_consistent hd hs hc ha hb hne hca hsb

/-- Inserting a vertex that passes the checks is safe. -/
theorem insert (hd : Sound hash genesis dag) (hs : Safe dag.graph (decisionOf dag.state))
    (hc : Checked hash dag vx (.ok ())) (hi : InsertedDAG hash vx dag dag') :
    Safe dag'.graph (decisionOf dag'.state) := by
  have hf := hc.ready.fresh
  have hl := hc.legal
  have hd' := hd.insert hf hl hi
  have hext := hi.state.decisions
  constructor
  · intro c hu hacc r hr hcr
    have hold : decisionOf dag.state c = some true :=
      (hext.origin c true hacc).resolve_right fun h => by cases h.1
    have hreg := hd.accepted_registered c hold
    rw [hi.graph] at hr
    exact hext.kept r true (hs.settled c hu hold r ((Graph.above_insert hd.shaped hf hreg).mp hr) hcr)
  · intro c hrej
    obtain ⟨r, hr, hrf⟩ := hi.rejected_above hd'.shaped hrej
    obtain ⟨t, ht, hct, htf⟩ := hs.rooted r hrf
    refine ⟨t, ReflTransGen.trans ?_ hr, hct, hext.kept t false htf⟩
    rw [hi.graph]
    exact Graph.above_insert_of_above hd.shaped hf ht
  · intro h c hne hcm hsw
    rw [hi.graph] at hcm hsw
    -- the new vertex has been checked, the older ones commit to what they did
    by_cases hh : h = hash vx
    · subst hh
      rw [Graph.commits_insert_self hd.shaped hf hl.inserted] at hcm hsw
      exact (hs.admits hd hc).consistent c hne hcm hsw
    · have hm : h ∈ dag.graph := by
        obtain ⟨a, ha, hca⟩ := hcm
        have hin : h ∈ dag.graph.insert (hash vx) vx := by
          rcases reflTransGen_iff_eq_or_transGen.mp ha with rfl | ha
          · exact Graph.mem_of_mem_commitments hca
          · exact Graph.Ancestor.mem ha
        exact (Finmap.mem_insert.mp hin).resolve_left hh
      rw [Graph.commits_insert hd.shaped hf hm] at hcm hsw
      exact hs.consistent h c hne hcm hsw

/-- What a vote accepts is settled, if it is a unity constraint. -/
theorem settled_of_accepts (hd : Sound hash genesis dag) (hs : Safe dag.graph (decisionOf dag.state))
    {c : Constraint H} (hu : c.left = c.right) (hg : OrderingsSettled dag c)
    (ha : Accepts dag.config dag.state c) :
    dag.graph.constraintGraph.Settled (decisionOf dag.state) c := by
  intro r hr hcr
  obtain ⟨k, rfl⟩ := c.exists_eq_unity ((Constraint.isUnity_iff c).mpr hu)
  have hcm : dag.graph.Commits k r := (Graph.above_iff_commits.mp hr).2.elim id id
  -- through the threshold the condition says it; early, the parents are accepted, hence settled
  rcases ha with ha | ⟨_, ha, _⟩
  · exact hg rfl ha r hcm (Graph.contestable_iff.mp hcr)
  · rcases Graph.commits_iff.mp hcm with hrk | ⟨p, hp, hpr⟩
    · exact parentsAccepted_unity hd ha hrk
    · have hpa := parentsAccepted_unity hd ha (Graph.unity_mem_commitments hp)
      exact hs.settled (.unity p) (by simp) hpa r (Graph.below_of_commits hpr) hcr

/-- Nothing that is rejected gets accepted. -/
theorem not_rejected_of_accepts (hd : Sound hash genesis dag)
    (hs : Safe dag.graph (decisionOf dag.state)) {x : H} {c : Constraint H}
    (hup : dag.Updated x c) (hg : OrderingsSettled dag c) (ha : Accepts dag.config dag.state c) :
    decisionOf dag.state c ≠ some false := by
  intro hf
  by_cases hu : c.left = c.right
  · obtain ⟨r, hr, hcr, hrf⟩ := hs.rooted c hf
    rcases reflTransGen_iff_eq_or_transGen.mp hr with rfl | hr
    · exact Graph.contestable_iff.mp hcr hu
    · rw [settled_of_accepts hd hs hu hg ha r hr hcr] at hrf
      cases hrf
  · rcases hup with rfl | ⟨hxc, hnone | ⟨e, hxe, o, ho, hoc⟩⟩
    · exact hu rfl
    · rw [hnone] at hf
      cases hf
    · -- the opposite of `e` lies above `c`, so the vertex commits to both
      obtain ⟨hne, rfl⟩ := (Constraint.conflict_eq_some e o).mp ho
      refine hs.consistent x e hne hxe ?_
      rcases reflTransGen_iff_eq_or_transGen.mp hoc with rfl | hoc
      · exact hxc
      · obtain ⟨a, hax, hca⟩ := hxc
        obtain ⟨hl, hr⟩ := Graph.isParent_of_mem_commitments hca
        exact (Graph.above_iff_commits.mp hoc).2.elim
          (fun h => (h.of_parent hl).of_ancestor hax) (fun h => (h.of_parent hr).of_ancestor hax)

theorem stable : Stable hash genesis OrderingsSettled Safe where
  insert _ _ _ hd hs hc hi := hs.insert hd hc hi
  accept _ _ _ hd hs _ hup hg ha :=
    { settled := hs.settled.accepted fun hu =>
        settled_of_accepts hd hs ((Constraint.isUnity_iff _).mp hu) hg ha
      rooted := hs.rooted.accepted (not_rejected_of_accepts hd hs hup hg ha)
      consistent := hs.consistent }

end Safe

/-- Runs in which the threshold only accepts settled vertices are safe. -/
theorem safe_of_reachable {cond : DAG H → Constraint H → Prop}
    (hcond : ∀ dag c, cond dag c → OrderingsSettled dag c)
    (h : (DAG.system hash config genesis).ReachableWhen (DAG.Guarded hash cond) dag) :
    Safe dag.graph (decisionOf dag.state) := by
  exact (Safe.stable.reachable (Safe.start h.genesis_parents)
    (h.mono fun _ _ hgd v hv => hcond _ _ (hgd v hv))).2

/-- Consensus safety: as long as the threshold only accepts settled vertices, two accepted
vertices never commit to contradictory orderings. -/
theorem accepted_vertices_agree
    (h : (DAG.system hash config genesis).ReachableWhen (DAG.Guarded hash OrderingsSettled) dag)
    {u v : H} (hu : dag.query hash it u = .ok (true, true))
    (hv : dag.query hash it' v = .ok (true, true)) : ¬ dag.graph.Contradict u v := by
  rintro ⟨c, o, ho, hc, hco⟩
  have hd := sound_of_reachable h
  have hs := safe_of_reachable (fun _ _ hcond => hcond) h
  obtain ⟨_, hua⟩ := (query_final_iff hd u true).mp hu
  obtain ⟨_, hva⟩ := (query_final_iff hd v true).mp hv
  have hcc : dag.graph.constraintGraph.Contestable c := by
    rw [ConflictGraph.Contestable, Graph.constraintGraph_opposite, ho]
    rfl
  have hcacc := hs.settled (.unity u) (by simp) hua c (Graph.below_of_commits hc) hcc
  have horej := hd.exclusive c o ho hcacc
  exact above_accepted_not_rejected hs hva (Graph.below_of_commits hco) horej

/-- Below the threshold the condition asks for nothing. -/
theorem orderingsSettled_of_lt {c : Constraint H}
    (h : c.left = c.right → tally dag.state c < dag.config.threshAccepted) :
    OrderingsSettled dag c := fun hu ht => absurd ht (h hu).not_ge

/-- The second of two vertices on the same pair is accepted early, once their votes have
settled the ordering of the pair. -/
theorem Fork.twin_accepted : ∃ dag, (Fork.system ⟨2, 1⟩).ReachableWhen
    (DAG.Guarded Vertex.wire OrderingsSettled) dag ∧
    dag.query Vertex.wire .ascending Fork.abTwin.wire = .ok (true, true) := by
  have hrun : ∃ dag, (Fork.system ⟨2, 1⟩).ReachableWhen
      (DAG.Guarded Vertex.wire fun dag c =>
        c.left = c.right → tally dag.state c < dag.config.threshAccepted) dag ∧
      dag.query Vertex.wire .ascending Fork.abTwin.wire = .ok (true, true) :=
    reachable_of_run rfl rfl
      (Fork.run [Fork.a, Fork.b, Fork.ab, Fork.abTwin] [Fork.ab, Fork.abTwin]) (by decide +kernel)
  obtain ⟨dag, hr, hq⟩ := hrun
  exact ⟨dag, hr.mono fun _ _ hg v hv => orderingsSettled_of_lt (hg v hv), hq⟩

theorem accepted_vertices_agree_twin : ∃ dag : DAG Digest,
    dag.query Vertex.wire .ascending Fork.abTwin.wire = .ok (true, true) ∧
      ¬ dag.graph.Contradict Fork.abTwin.wire Fork.abTwin.wire := by
  obtain ⟨dag, hr, hq⟩ := Fork.twin_accepted
  exact ⟨dag, hq, accepted_vertices_agree hr hq hq⟩

/-- With both thresholds at two, a vote for each branch and for a child of each accepts both:
the branches reset each other's count for the ordering, but not for their own vertex. -/
theorem contradictory_vertices_accepted : Vertex.CollisionFree Vertex.wire Set.univ ∧
    ∃ dag, (Fork.system ⟨2, 2⟩).Reachable dag ∧
      dag.query Vertex.wire .ascending Fork.ab.wire = .ok (true, true) ∧
      dag.query Vertex.wire .ascending Fork.ba.wire = .ok (true, true) ∧
      dag.graph.Contradict Fork.ab.wire Fork.ba.wire := by
  obtain ⟨dag, hr, hq, hq', hab, hba, _⟩ := Fork.branches_accepted
  refine ⟨Vertex.wire_collisionFree _, dag, hr, hq, hq', Graph.contradict_iff.mpr ?_⟩
  exact ⟨_, by decide, Graph.commits_self hab, Graph.commits_self hba⟩

/-- Admission excludes contradictory ancestries, as long as the threshold only accepts
settled vertices. -/
theorem inserted_ancestry_consistent
    (h : (DAG.system hash config genesis).ReachableWhen (DAG.Guarded hash OrderingsSettled) dag)
    (v : H) : dag.query hash it v = .ok (false, true) ∨ ¬ dag.graph.Contradict v v := by
  right
  rw [Graph.contradict_iff]
  rintro ⟨c, hne, hc, hsw⟩
  exact (safe_of_reachable (fun _ _ hcond => hcond) h).consistent v c hne hc hsw

theorem inserted_ancestry_consistent_twin : ∃ dag : DAG Digest,
    Fork.abTwin.wire ∈ dag.graph ∧
      (dag.query Vertex.wire .ascending Fork.abTwin.wire = .ok (false, true) ∨
        ¬ dag.graph.Contradict Fork.abTwin.wire Fork.abTwin.wire) := by
  obtain ⟨dag, hr, hq⟩ := Fork.twin_accepted
  have hm := ((query_final_iff (sound_of_reachable hr.reachable) _ _).mp hq).1
  exact ⟨dag, hm, inserted_ancestry_consistent hr _⟩

/-- Once a branch is accepted ahead of its ordering, that ordering is no longer searched:
a vertex on top of both branches is inserted, and not rejected. -/
theorem contradictory_ancestry_inserted : Vertex.CollisionFree Vertex.wire Set.univ ∧
    ∃ dag, (Fork.system ⟨2, 2⟩).Reachable dag ∧
      Fork.both.wire ∈ dag.graph ∧
      dag.query Vertex.wire .ascending Fork.both.wire ≠ .ok (false, true) ∧
      dag.graph.Contradict Fork.both.wire Fork.both.wire := by
  obtain ⟨dag, hr, _, _, hab, hba, _, hboth, hq⟩ := Fork.branches_accepted
  have hpab : dag.graph.IsParent Fork.ab.wire Fork.both.wire := ⟨Fork.both, hboth, .head _⟩
  have hpba : dag.graph.IsParent Fork.ba.wire Fork.both.wire := ⟨Fork.both, hboth, .tail _ (.head _)⟩
  refine ⟨Vertex.wire_collisionFree _, dag, hr, Finmap.mem_of_lookup_eq_some hboth, hq,
    Graph.contradict_iff.mpr ?_⟩
  exact ⟨_, by decide, (Graph.commits_self hab).of_parent hpab,
    (Graph.commits_self hba).of_parent hpba⟩

end Taurus
