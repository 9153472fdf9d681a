import Taurus.Causes
import Taurus.Deferred
import Taurus.Persistence

namespace Taurus

open Relation

section

variable {H P : Type} [LinearOrder H] {hash : Vertex H → H} {it : HashOrders H}
  {genesis vx : Vertex H} {dag dag' : DAG H} {c : Constraint H} {u v w : H}

namespace DAG

/-- Is everything that is rejected an ordering whose opposite is accepted, or below one? -/
def Warranted (dag : DAG H) : Prop :=
  dag.graph.constraintGraph.CausedBy (decisionOf dag.state)
    fun o => decisionOf dag.state o = some true

theorem Upheld.not_rejected (hc : dag.Upheld c) (hL : dag.Loyal) (hW : dag.Warranted) :
    decisionOf dag.state c ≠ some false := by
  intro hrej
  obtain ⟨r, hrc, o, ho, hacc⟩ := hW c hrej
  obtain ⟨hne, rfl⟩ := (Constraint.conflict_eq_some r o).mp ho
  exact not_prefers_swap hne (hc.above hrc).prefers (hL _ hacc).1.prefers

namespace Warranted

/-- While decisions are kept, so are the reasons for rejections. -/
theorem keeps (hW : dag.Warranted) (hk : dag.Keeps dag') :
    dag.graph.constraintGraph.CausedBy (decisionOf dag.state)
      fun o => decisionOf dag'.state o = some true := by
  intro c hc
  obtain ⟨r, hrc, o, ho, hacc⟩ := hW c hc
  exact ⟨r, hrc, o, ho, hk.decisions o true hacc⟩

theorem attempt (hW : dag.Warranted) (hd : Sound hash genesis dag)
    (ha : Attempt hash it vx dag dag') : dag'.Warranted := by
  obtain ⟨_, ht⟩ := ha.tried hd
  have hP : Stable hash genesis _ _ :=
    causedBy_stable (S := fun _ o => decisionOf dag'.state o = some true) fun _ _ _ _ _ hS => hS
  exact hP.tried ht hd (hW.keeps (.of_attempt hd ha))

theorem submit (hW : dag.Warranted) (hd : Sound hash genesis dag)
    {resp : Except (Error H) (HashSet H)}
    (h : dag.submitVertex hash it vx = some (resp, dag')) : dag'.Warranted := by
  obtain ⟨dag₁, ha, hr⟩ := submitVertex_cases h
  exact (hr.induct (P := DAG.Warranted) (ha.sound hd) (hW.attempt hd ha)
    fun _ _ _ _ hs hP _ ha => hP.attempt hs ha).2

/-- What a positive result rejects, for a vertex that the graph stands by, it rejects because of an
ordering that it accepts, and no later turn takes this one back. -/
theorem positive {config : Config} (hW : dag.Warranted)
    (h : (DAG.system hash config genesis).Reachable dag) (hL : dag.Loyal) (hw : dag.StandsBy w)
    (hok : dag.recordQueryResult hash it w true = .ok dag') : dag'.Warranted := by
  have hd := sound_of_reachable h
  obtain ⟨hk, _⟩ := Keeps.of_positive h hL hw hok
  obtain ⟨vx, dag₁, l, _, hv, hb, _, _⟩ := recordQueryResult_eq_ok.mp hok
  have happly : dag.apply hash ⟨.recordQueryResult w true, it⟩ = some dag' := by
    simp only [DAG.apply, hok]
  have hnr (p : H) (hp : p ∈ vx.parents) : dag.decisionOn p ≠ some false :=
    hw.parent_not_rejected ⟨vx, (hd.pending_inserted w vx hv).1, hp⟩
  -- a turn that accepts its constraint decides it for good, and it is not rejected in the end
  have hturn (u : DAG H × Constraint H) (hu : u ∈ dag.votes hash ⟨.recordQueryResult w true, it⟩)
      (ha : Accepts u.1.config u.1.state u.2) : decisionOf dag'.state u.2 = some true := by
    obtain ⟨_, hballot⟩ := DAG.exists_ballot hd hu
    have hul : u.2 ∈ l := by
      simpa only [DAG.updates, hv, Option.bind_some, hb] using hballot.mem_updates
    have hup := hw.1.1.updates hd hv hb u.2 hul
    have hnf := (hk.upheld _ hup).2 (hup.not_rejected hL hW)
    cases hdec : decisionOf dag'.state u.2 with
    | none => exact absurd hdec (hballot.decided happly ha)
    | some b =>
      cases b with
      | true => rfl
      | false => exact absurd hdec hnf
  have hP : Stable hash genesis _ _ :=
    causedBy_stable (S := fun _ o => decisionOf dag'.state o = some true) fun _ _ _ _ _ hS => hS
  have hg : DAG.Guarded hash (fun dag c => Accepts dag.config dag.state c → c.left ≠ c.right →
      decisionOf dag'.state c = some true) dag ⟨.recordQueryResult w true, it⟩ :=
    fun u hu ha _ => hturn u hu ha
  obtain ⟨dag'', hok', _, hcaused⟩ := hP.record hd (hW.keeps hk) hv hnr hg
  cases hok.symm.trans hok'
  exact hcaused

end Warranted

end DAG

/-- No action of a consensus task leaves a rejection without a reason, if it only records results
for vertices that it stands by. -/
theorem Task.Performs.warranted {P Ch : Type} [DecidableEq P] {rng : Rng H} {task task' : Task H P}
    {action : Action H P Ch} {effects : List (Effect H P Ch)} {dagConfig : Taurus.Config}
    (h : Task.Performs hash it rng task action task' effects)
    (hr : (DAG.system hash dagConfig genesis).Reachable task.dag) (hL : task.dag.Loyal)
    (hrec : ∀ v b, action = .recordPeerPreference v b → task.dag.StandsBy v)
    (hW : task.dag.Warranted) : task'.dag.Warranted := by
  have hd := sound_of_reachable hr
  have hd' : Sound hash genesis task'.dag := sound_of_reachable (hr.leads h.leads)
  cases h with
  | added | frontier | preference | unknown | vertex | dropped => exact hW
  | inserted _ hs | refused _ hs => exact hW.submit hd hs
  | @recorded w b dag hok =>
    cases b with
    | true => exact hW.positive hr hL (hrec w true rfl) hok
    | false =>
      obtain ⟨state, rfl⟩ := record_eq_recording hok
      obtain ⟨_, hdec⟩ := DAG.Keeps.of_negative hd hd' hok
      rw [DAG.Warranted, hdec]
      exact hW

theorem DAG.ActiveConstraint.commits (hc : dag.ActiveConstraint c vx)
    (hv : dag.graph.lookup v = some vx) : dag.graph.Commits v c := by
  rcases hc.2 with hown | ⟨a, ⟨_, ha | ⟨b, hab, ⟨p, hp, hbp⟩, _⟩⟩, hca⟩
  · exact Graph.commits_self (by rwa [Graph.commitments_of_lookup hv])
  · exact ⟨a, .single ⟨vx, hv, ha⟩, hca⟩
  · exact ⟨a, .head hab (hbp.tail ⟨vx, hv, hp⟩), hca⟩

/-- What is upheld and not rejected is strongly preferred. -/
theorem DAG.Upheld.stronglyPreferred (hup : dag.Upheld (.unity v)) (hv : v ∈ dag.graph)
    (hnr : dag.decisionOn v ≠ some false) : dag.StronglyPreferred v := by
  cases hdec : dag.decisionOn v with
  | some b =>
    cases b with
    | true => exact Or.inl hdec
    | false => exact absurd hdec hnr
  | none =>
    obtain ⟨vx, hvx⟩ := Finmap.mem_iff.mp hv
    refine Or.inr ⟨hdec, vx, hvx, fun c hc => ?_⟩
    exact hup.2 c (Graph.below_of_commits (hc.commits hvx)).to_reflTransGen

/-- What a graph holds and does not uphold, it will not uphold later either. -/
theorem DAG.Keeps.upheld_iff (hk : dag.Keeps dag') (hd : Sound hash genesis dag)
    (hc : dag.graph.Registered c) : dag'.Upheld c ↔ dag.Upheld c := by
  refine ⟨fun hup => ⟨hc, fun d hdc => ?_⟩, fun hup => (hk.upheld c hup).1⟩
  have hreg : dag.graph.Registered d := by
    rcases hdc.cases_head with rfl | ⟨e, hde, _⟩
    · exact hc
    · exact Graph.registered_of_parentConstraint hde.2
  have hprefers := hup.2 d ((hk.within.above_iff hd.shaped hc).mpr hdc)
  exact (hk.preferences d (hd.stores.mem_of_registered hreg)).mp hprefers

/-- What a graph has accepted has no rejected parent, so that a rejection goes down to each child. -/
theorem DAG.Loyal.rejected_child (hL : dag.Loyal) (hd : Sound hash genesis dag)
    (hc : dag.graph.constraintGraph.child c (.unity v)) (hf : decisionOf dag.state c = some false) :
    dag.decisionOn v = some false := by
  have hdecided := hd.decided (.unity v) (by simp) c hc hf
  cases hdec : dag.decisionOn v with
  | none => exact absurd hdec hdecided
  | some b =>
    cases b with
    | false => rfl
    | true => exact absurd hf ((hL _ hdec).2 rfl c hc)

theorem DAG.Loyal.rejected_below (hL : dag.Loyal) (hd : Sound hash genesis dag)
    (hc : dag.graph.Commits v c) (hf : decisionOf dag.state c = some false) :
    dag.decisionOn v = some false := by
  obtain ⟨a, hav, hca⟩ := hc
  induction hav with
  | refl => exact hL.rejected_child hd (Graph.child_unity hca) hf
  | tail _ hp ih => exact hL.rejected_child hd (Graph.child_unity (Graph.unity_mem_commitments hp)) ih

end

section

variable {H P : Type} [LinearOrder H] [DecidableEq P] {hash : Vertex H → H} {faulty : HashSet P}
  {config : P → Task.Config} {genesis : Vertex H} {net net' : Network H P} {n : P} {c : Constraint H}
  {v : H}

namespace Network

theorem warranted (h : (system hash faulty config genesis).Reachable net) (n : P) :
    (net.nodes n).task.dag.Warranted := by
  have hall : ∀ n, (net.nodes n).task.dag.Warranted := by
    refine h.invariant (P := fun net => ∀ n, (net.nodes n).task.dag.Warranted) ?_ ?_
    · rintro net ⟨hg, _, hnodes⟩ n
      obtain ⟨it, hnew, _⟩ := hnodes n
      rw [DAG.eq_start_of_init ⟨hg, it, (Task.new_eq_ok hnew).1⟩]
      exact causedBy_start _
    · intro net event net' hr hW _ hs n
      obtain ⟨past, hrun⟩ := hr.exists_run
      have hL := Loyal.of_run hrun
      rcases (steps_of_step hs).task n with heq | ⟨action, effects, hact, it, rng, hperf⟩
      · rw [heq]
        exact hW n
      · refine hperf.warranted (reachable_dag hr n) (hL.node n) (fun v b he => ?_) (hW n)
        exact hL.recorded (.of_run hrun) (he ▸ hact)
  exact hall n

theorem not_rejected (h : (system hash faulty config genesis).Reachable net)
    (hc : (net.nodes n).task.dag.Upheld c) :
    decisionOf (net.nodes n).task.dag.state c ≠ some false :=
  hc.not_rejected ((loyal_of_reachable h).node n) (warranted h n)

/-- A vertex is strongly preferred exactly if it is upheld. -/
theorem stronglyPreferred_iff (h : (system hash faulty config genesis).Reachable net)
    (hv : v ∈ (net.nodes n).task.dag.graph) :
    (net.nodes n).task.dag.StronglyPreferred v ↔ (net.nodes n).task.dag.Upheld (.unity v) := by
  constructor
  · exact fun hsp => (standsBy h hv hsp).1.1
  · exact fun hup => hup.stronglyPreferred hv (not_rejected h hup)

/-- A node never changes its mind on a vertex that it holds. -/
theorem stronglyPreferred_fixed (h : (system hash faulty config genesis).Reachable net)
    (hl : (system hash faulty config genesis).LeadsWhen (fun _ _ => True) net net')
    (hv : v ∈ (net.nodes n).task.dag.graph) :
    (net'.nodes n).task.dag.StronglyPreferred v ↔ (net.nodes n).task.dag.StronglyPreferred v := by
  have hk := keeps_of_leads h hl n
  rw [stronglyPreferred_iff h hv, stronglyPreferred_iff (h.leads hl) (hk.within.mem hv)]
  exact hk.upheld_iff (sound h n) (Graph.registered_unity hv)

end Network

/-- In the network a query looks as if it went back to the genesis vertex: a vertex is strongly
preferred exactly if it and all its ancestors are preferred over their conflicts, decided or not. -/
theorem query_preferred_iff (h : (Network.system hash faulty config genesis).Reachable net)
    (hv : v ∈ (net.nodes n).task.dag.graph) (it : HashOrders H) :
    (∃ final, (net.nodes n).task.dag.query hash it v = .ok (true, final)) ↔
      ∀ u, ReflTransGen (net.nodes n).task.dag.graph.IsParent u v →
        (net.nodes n).task.dag.isPreferred u = .ok true := by
  have hd := Network.sound h n
  obtain ⟨b, hb, hiff⟩ := query_spec it hd hv
  have hquery : (∃ final, (net.nodes n).task.dag.query hash it v = .ok (true, final)) ↔
      (net.nodes n).task.dag.StronglyPreferred v := by
    rw [hb, ← hiff]
    simp
  have hpreferred (u : H) (hu : ReflTransGen (net.nodes n).task.dag.graph.IsParent u v) :
      (net.nodes n).task.dag.isPreferred u = .ok true ↔
        ∀ c ∈ (net.nodes n).task.dag.graph.commitments u,
          Prefers (net.nodes n).task.dag.state c := by
    obtain ⟨ux, hux⟩ := Finmap.mem_iff.mp (hd.line_mem hv hu)
    obtain ⟨b, hb, hiff⟩ := isPreferred_spec hd hux
    rw [hb, Graph.commitments_of_lookup hux, ← hiff]
    simp
  -- both sides speak about the commitments of all ancestors
  rw [hquery, Network.stronglyPreferred_iff h hv, DAG.Upheld.unity_iff hd hv]
  constructor
  · exact fun hall u hu => (hpreferred u hu).mpr fun c hc => hall c ⟨u, hu, hc⟩
  · rintro hall c ⟨u, hu, hc⟩
    exact (hpreferred u hu).mp (hall u hu) c hc

/-- In the network a vertex is rejected exactly if it or an ancestor commits to an ordering whose
opposite is accepted, and whenever something in its ancestry is rejected. -/
theorem rejected_iff_overruled (h : (Network.system hash faulty config genesis).Reachable net)
    (hv : v ∈ (net.nodes n).task.dag.graph) (it : HashOrders H) :
    ((net.nodes n).task.dag.query hash it v = .ok (false, true) ↔
      ∃ c o, (net.nodes n).task.dag.graph.Commits v c ∧ c.conflict = some o ∧
        decisionOf (net.nodes n).task.dag.state o = some true) ∧
    ((∃ c, (net.nodes n).task.dag.graph.Commits v c ∧
      decisionOf (net.nodes n).task.dag.state c = some false) →
        (net.nodes n).task.dag.query hash it v = .ok (false, true)) := by
  have hd := Network.sound h n
  have hbelow : (∃ c, (net.nodes n).task.dag.graph.Commits v c ∧
      decisionOf (net.nodes n).task.dag.state c = some false) →
        (net.nodes n).task.dag.query hash it v = .ok (false, true) := by
    rintro ⟨c, hc, hf⟩
    have hrej := ((Network.loyal_of_reachable h).node n).rejected_below hd hc hf
    exact (query_final_iff hd v false).mpr ⟨hv, hrej⟩
  refine ⟨⟨fun hq => ?_, ?_⟩, hbelow⟩
  -- a vertex has no opposite, so it is rejected because of something above it
  · obtain ⟨_, hrej⟩ := (query_final_iff hd v false).mp hq
    obtain ⟨r, hr, o, ho, hacc⟩ := Network.warranted h n _ hrej
    rcases reflTransGen_iff_eq_or_transGen.mp hr with rfl | hr
    · exact absurd rfl ((Constraint.conflict_eq_some _ o).mp ho).1
    · exact ⟨r, o, (Graph.above_iff_commits.mp hr).2.elim id id, ho, hacc⟩
  · rintro ⟨c, o, hc, ho, hacc⟩
    exact hbelow ⟨c, hc, hd.exclusive o c (Constraint.conflict_symm c o ho) hacc⟩

end

namespace Pair

theorem query_preferred_iff_pair : ∃ net : Network Digest Bool,
    Fork.ab.wire ∈ (net.nodes true).task.dag.graph ∧
      ∀ u, ReflTransGen (net.nodes true).task.dag.graph.IsParent u Fork.ab.wire →
        (net.nodes true).task.dag.isPreferred u = .ok true := by
  obtain ⟨net, _, hr, _, ⟨_, _, hq⟩, _⟩ := history
  have hin := (stronglyPreferred_of_query (Network.sound hr true) hq).1
  exact ⟨net, hin, (query_preferred_iff hr hin .ascending).mp ⟨_, hq⟩⟩

/-- The opposite order comes when the first one is accepted. -/
theorem rejected_iff_overruled_pair : ∃ net : Network Digest Bool,
    (net.nodes false).task.dag.query Vertex.wire .ascending Fork.ba.wire = .ok (false, true) ∧
      ∃ c o, (net.nodes false).task.dag.graph.Commits Fork.ba.wire c ∧ c.conflict = some o ∧
        decisionOf (net.nodes false).task.dag.state o = some true := by
  obtain ⟨_, net', hr, hl, _, _, _, hq, _⟩ := history
  have hin := ((query_final_iff (Network.sound (hr.leads hl) false) _ _).mp hq).1
  exact ⟨net', hq, (rejected_iff_overruled (hr.leads hl) hin .ascending).1.mp hq⟩

end Pair

end Taurus
