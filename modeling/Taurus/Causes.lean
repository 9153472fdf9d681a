import Taurus.Ballots

namespace Taurus

open Relation

variable {H : Type} [LinearOrder H] {hash : Vertex H → H} {config : Config} {genesis : Vertex H}
  {dag : DAG H} {call : Call H} {past : List (DAG H × Call H)} {c : Constraint H}

/-- If only orderings of `S` are ever accepted, then what is rejected is so because of them. -/
theorem causedBy_stable {S : Graph H → Constraint H → Prop}
    (hmono : ∀ graph h vx c, h ∉ graph → S graph c → S (graph.insert h vx) c) :
    Stable hash genesis
      (fun dag c => Accepts dag.config dag.state c → c.left ≠ c.right → S dag.graph c)
      fun graph D => graph.constraintGraph.CausedBy D (S graph) where
  insert dag dag' vx hd hP hc hi c hrej := by
    obtain ⟨r, hr, hrf⟩ := hi.rejected_above (hd.insert hc.ready.fresh hc.legal hi).shaped hrej
    obtain ⟨t, ht, o, ho, hS⟩ := hP r hrf
    refine ⟨t, ReflTransGen.trans ?_ hr, o, ho, ?_⟩
    · rw [hi.graph]
      exact Graph.above_insert_of_above hd.shaped hc.ready.fresh ht
    · rw [hi.graph]
      exact hmono _ _ _ _ hc.ready.fresh hS
  accept dag x c hd hP hx hup hg ha :=
    hP.accepted fun hcr => hg ha (Graph.contestable_iff.mp hcr)

/-- At the start nothing is rejected. -/
theorem causedBy_start (S : Constraint H → Prop) :
    (DAG.start hash config genesis).graph.constraintGraph.CausedBy
      (decisionOf (DAG.start hash config genesis).state) S := by
  intro c hf
  rw [DAG.decisionOf_start] at hf
  split at hf <;> cases hf

/-- A turn that meets the criterion for an ordering accepts it. -/
theorem Ballot.acceptsIn {v : DAG H × Constraint H} {w : H}
    (h : Ballot hash genesis dag call v w) (hv : v ∈ dag.votes hash call)
    (ha : Accepts v.1.config v.1.state v.2) (hne : v.2.left ≠ v.2.right) :
    dag.AcceptsIn hash call v.2 := by
  obtain ⟨state, hstate, hacc, _⟩ := h.recordConstraint_spec
  refine ⟨v, hv, rfl, h.unaccepted.resolve_left fun hu => hne ?_, state, hstate, hacc ha⟩
  rw [hu]
  rfl

/-- Whatever is rejected is, or is below, an ordering whose opposite has been accepted by the
record of a positive result. -/
theorem rejected_for_cause (hrun : (DAG.system hash config genesis).Run past dag)
    (hc : decisionOf dag.state c = some false) :
    ∃ r, ReflTransGen dag.graph.constraintGraph.child r c ∧ ∃ o, r.conflict = some o ∧
      ∃ s ∈ past, (∃ w, s.2.op = .recordQueryResult w true) ∧ s.1.AcceptsIn hash s.2 o := by
  have hP : Stable hash genesis _ _ := causedBy_stable (S := fun _ o => ∃ s ∈ past,
    (∃ w, s.2.op = .recordQueryResult w true) ∧ s.1.AcceptsIn hash s.2 o) fun _ _ _ _ _ hS => hS
  refine (hP.reachable (causedBy_start _) (hrun.reachableWhen.mono fun s call hs v hv ha hne => ?_)).2 c hc
  obtain ⟨later, older, rfl⟩ := List.append_of_mem hs
  have hd := sound_of_reachable hrun.before.1.reachable
  obtain ⟨w, hb⟩ := DAG.exists_ballot hd hv
  exact ⟨_, hs, ⟨w, hb.op⟩, hb.acceptsIn hv ha hne⟩

/-- A vote for one branch rejects the tip of the other. -/
theorem rejected_for_cause_fork : ∃ (dag : DAG Digest) (past : List (DAG Digest × Call Digest)),
    dag.query Vertex.wire .ascending Fork.baTip.wire = .ok (false, true) ∧
      ∃ r, ReflTransGen dag.graph.constraintGraph.child r (.unity Fork.baTip.wire) ∧
        ∃ o, r.conflict = some o ∧
          ∃ s ∈ past, (∃ w, s.2.op = .recordQueryResult w true) ∧
            s.1.AcceptsIn Vertex.wire s.2 o := by
  have hrun : ∃ dag, (Fork.system ⟨1, 1⟩).Reachable dag ∧
      decisionOf dag.state (.unity Fork.baTip.wire) = some false ∧
      dag.query Vertex.wire .ascending Fork.baTip.wire = .ok (false, true) :=
    reachable_of_run rfl rfl
      (Fork.run [Fork.a, Fork.b, Fork.ab, Fork.ba, Fork.baTip] [Fork.ab]) (by decide +kernel)
  obtain ⟨dag, hr, hdec, hq⟩ := hrun
  obtain ⟨past, hpast⟩ := hr.exists_run
  exact ⟨dag, past, hq, rejected_for_cause hpast hdec⟩

end Taurus
