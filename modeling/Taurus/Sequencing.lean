import Taurus.Accountability
import Taurus.Proposal
import Taurus.Standing

namespace Taurus

open Relation

section

variable {H : Type} [LinearOrder H] {hash : Vertex H → H} {it : HashOrders H} {config : Config}
  {genesis vx : Vertex H} {dag dag' : DAG H} {c : Constraint H} {p q v : H}

theorem Graph.Within.agree {graph graph' : Graph H} (h : graph.Within graph') :
    graph.Agree graph' := by
  intro k u v hu hv
  cases (h k u hu).symm.trans hv
  exact ⟨rfl, rfl, rfl, rfl, rfl⟩

/-- Inserted vertices have passed the sanity checks, the genesis vertex apart. -/
theorem sane_of_inserted (h : (DAG.system hash config genesis).Reachable dag) :
    ∀ k w, dag.graph.lookup k = some w → k ≠ hash genesis → w.sanityChecks = .ok () := by
  refine reachable_induct (P := fun dag => ∀ k w, dag.graph.lookup k = some w →
    k ≠ hash genesis → w.sanityChecks = .ok ()) h ?_ ?_ ?_
  · intro _ k w hw hne
    rw [DAG.start, HashMap.lookup_insert, if_neg hne] at hw
    cases hw
  · intro it vx s t hd hP ha
    obtain ⟨_, ht⟩ := ha.tried hd
    cases ht with
    | refused _ =>
      rw [park_graph]
      exact hP
    | inserted hc hi _ =>
      intro k w hw hne
      rw [hi.graph, HashMap.lookup_insert] at hw
      split at hw
      · cases hw
        exact hc.ready.sane
      · exact hP k w hw hne
  · intro it w b s t _ hP hok
    obtain ⟨_, rfl⟩ := record_eq_recording hok
    exact hP

namespace DAG

/-- Vertices that are upheld do not commit to opposite orderings. -/
theorem Upheld.not_both (hp : dag.Upheld (.unity p)) (hq : dag.Upheld (.unity q))
    (hne : c.left ≠ c.right) (hc : dag.graph.Commits p c) : ¬ dag.graph.Commits q c.swap := by
  intro hsw
  have hprefers := hp.2 c (Graph.below_of_commits hc).to_reflTransGen
  have hswap := hq.2 c.swap (Graph.below_of_commits hsw).to_reflTransGen
  exact not_prefers_swap hne hprefers hswap

/-- An upheld vertex meets all that a graph demands of a vertex, in any graph. -/
theorem Upheld.admits (hup : dag.Upheld (.unity v))
    (h : (DAG.system hash config genesis).Reachable dag) (hv : dag.graph.lookup v = some vx)
    (hne : v ≠ hash genesis) : dag.graph.Admits vx := by
  have hlegal := (sound_of_reachable h).shaped.legal v vx hv hne
  have hcommits (c : Constraint H) (hc : dag.graph.WouldCommit vx c) : dag.graph.Commits v c := by
    rcases hc with hown | ⟨a, ⟨p, hp, hap⟩, hca⟩
    · exact Graph.commits_self (by rwa [Graph.commitments_of_lookup hv])
    · exact ⟨a, hap.tail ⟨vx, hv, hp⟩, hca⟩
  exact {
    sane := sane_of_inserted h v vx hv hne
    inserted := hlegal.inserted
    height := hlegal.height_eq
    antichain := hlegal.antichain
    consistent := fun c hne hc hsw => hup.not_both hup hne (hcommits c hc) (hcommits _ hsw) }

end DAG

/-- A proposal on vertices that are upheld meets all that a graph demands of a vertex. -/
theorem Proposed.admits (hp : Proposed dag vx) (hd : Sound hash genesis dag)
    (hup : ∀ p ∈ vx.parents, dag.Upheld (.unity p)) : dag.graph.Admits vx where
  sane := hp.sane
  inserted p hpv := (hp.childless p hpv).1
  height := hp.height
  antichain p hpv q _ hpq := by
    obtain ⟨k, hpk, _⟩ := TransGen.head'_iff.mp hpq
    exact (hp.childless p hpv).2 k hpk
  consistent c hne hc hsw := by
    -- a pair of two parents is in nobody's ancestry, in either order
    have hnew (d : Constraint H) (hd' : d ∈ vx.parentConstraints) (hdne : d.left ≠ d.right) {b : H}
        (hb : d.swap ∈ dag.graph.commitments b) : False := by
      refine hp.pair_notMem hd hd' hdne ?_
      rw [← (Constraint.conflictSetKey_eq_iff d.swap d).mpr (Or.inr rfl)]
      exact hd.stores.mem_of_registered (Graph.registered_of_mem_commitments hb)
    rcases hc with hc | ⟨a, ⟨p, hpv, hap⟩, hca⟩
    · rcases hsw with hsw | ⟨b, _, hcb⟩
      · have hnodup := (vx.sanityChecks_eq_ok hp.sane).2
        exact vx.swap_notMem_parentConstraints c hnodup hne hc hsw
      · exact hnew c hc hne hcb
    · rcases hsw with hsw | ⟨b, ⟨q, hqv, hbq⟩, hcb⟩
      · exact hnew c.swap hsw hne.symm hca
      · exact (hup p hpv).not_both (hup q hqv) hne ⟨a, hap, hca⟩ ⟨b, hbq, hcb⟩

/-- A new vertex that the graph admits is inserted, unless one of its parents is rejected. -/
theorem Graph.Admits.inserted_of_fresh (ha : dag.graph.Admits vx) (hd : Sound hash genesis dag)
    (hfresh : hash vx ∉ dag.graph) (hnr : ∀ p ∈ vx.parents, dag.decisionOn p ≠ some false)
    (it : HashOrders H) : ∃ waiting dag', dag.tryInsert hash it vx = some (.ok waiting, dag') ∧
      InsertedDAG hash vx dag dag' := by
  obtain ⟨r, hr, ht⟩ := tryInsert_spec it hd vx
  cases ht with
  | inserted _ hi _ => exact ⟨_, _, hr, hi⟩
  | refused hc =>
    rcases hc.refused_of_admits ha with ⟨_, hin⟩ | ⟨_, p, hp, hf⟩
    · exact absurd hin hfresh
    · exact absurd hf (hnr p hp)

/-- A new vertex on upheld parents is upheld, if nobody has committed to the opposite of one of its
pairs before it. -/
theorem Graph.Admits.upheld (ha : dag.graph.Admits vx)
    (h : (DAG.system hash config genesis).Reachable dag) (hfresh : hash vx ∉ dag.graph)
    (hup : ∀ p ∈ vx.parents, dag.Upheld (.unity p))
    (hpairs : ∀ c ∈ vx.parentConstraints, c.conflictSetKey ∈ dag.state → Prefers dag.state c)
    (hatt : Attempt hash it vx dag dag') (hi : InsertedDAG hash vx dag dag') :
    dag'.Upheld (.unity (hash vx)) := by
  have hd := sound_of_reachable h
  have hd' : Sound hash genesis dag' := hatt.sound hd
  have hk : dag.Keeps dag' := .of_attempt hd hatt
  refine (DAG.Upheld.unity_iff hd' hi.mem).mpr fun c hc => ?_
  have hreg := Graph.registered_of_commits hc
  rw [hi.graph, Graph.commits_insert_self hd.shaped hfresh ha.inserted] at hc
  rcases hc with hown | ⟨a, ⟨p, hp, hap⟩, hca⟩
  · by_cases hlr : c.left = c.right
    · exact prefers_unity hd' hreg hlr
    by_cases hkey : c.conflictSetKey ∈ dag.state
    · exact (hk.preferences c hkey).mpr (hpairs c hown hkey)
    -- the new conflict set prefers one of the orders that are committed to, which is this one
    obtain ⟨cs, hcs, hw⟩ := hd'.stores.lookup (hd'.stores.mem_of_registered hreg)
    have hpref := (DAG.PrefersRegistered.of_reachable h).attempt hd hatt _ cs hcs
    refine (prefers_iff hcs).mpr ?_
    rcases (Constraint.conflictSetKey_eq_iff _ c).mp hw.preferred with he | he
    · exact he
    rw [he, hi.graph, Graph.registered_insert hfresh] at hpref
    rcases hpref with hold | hsw | hunity
    · refine absurd (hd.stores.mem_of_registered hold) ?_
      rwa [(Constraint.conflictSetKey_eq_iff c.swap c).mpr (Or.inr rfl)]
    · have hnodup := (vx.sanityChecks_eq_ok ha.sane).2
      exact absurd hsw (vx.swap_notMem_parentConstraints c hnodup hlr hown)
    · have hl := congrArg Constraint.left hunity
      have hr := congrArg Constraint.right hunity
      exact absurd (hr.trans hl.symm) hlr
  · have hpc : dag.graph.Commits p c := ⟨a, hap, hca⟩
    have hreg := Graph.registered_of_commits hpc
    have hprefers := (hup p hp).2 c (Graph.below_of_commits hpc).to_reflTransGen
    exact (hk.preferences c (hd.stores.mem_of_registered hreg)).mpr hprefers

/-- A vertex gets its parents and its height, if there are parents and none is repeated; it is what
the sequencer would build on them. -/
theorem Vertex.withParents_eq_ok {base : Vertex H} {parents : List (Vertex H)} :
    base.withParents hash parents = .ok vx ↔
      (parents.map hash).Nodup ∧ Sequencer.proposal hash base parents = some vx := by
  rw [withParents, Sequencer.proposal]
  cases (parents.map height).max? with
  | none => simp
  | some m =>
    by_cases hn : (parents.map hash).Nodup
    · simp [hn, length_eraseDups_of_nodup hn]
    · have hlen : (parents.map hash).length ≠ (parents.map hash).eraseDups.length :=
        fun hlen => hn (nodup_of_length_eraseDups _ hlen)
      simp only [if_pos hlen, reduceCtorEq, hn, false_and]

example : (Vertex.batch 3 0 []).withParents Vertex.wire [Fork.a, Fork.b] = .ok Fork.ab ∧
    (Vertex.batch 3 0 []).withParents Vertex.wire [Fork.a, Fork.a] = .error .duplicateParents := by
  decide +kernel

/-- A vertex that is built on inserted vertices passes the checks exactly if it is new, has no
rejected parent, no parent above another one, and no conflict among its active ancestors: version,
parents and height are right. -/
theorem built_vertex_checked {base : Vertex H} {parents : List (Vertex H)}
    (h : (DAG.system hash config genesis).Reachable dag)
    (hparents : ∀ x ∈ parents, dag.graph.lookup (hash x) = some x)
    (hversion : base.version = VERSION) (hb : base.withParents hash parents = .ok vx) :
    dag.checkVertex hash it vx = .ok () ↔ hash vx ∉ dag.graph ∧
      (∀ p ∈ parents, dag.decisionOn (hash p) ≠ some false) ∧
      (∀ p ∈ parents, ∀ q ∈ parents, ¬ dag.graph.Ancestor (hash p) (hash q)) ∧
      dag.Consistent vx := by
  obtain ⟨hn, hvx⟩ := Vertex.withParents_eq_ok.mp hb
  obtain ⟨m, hm, hvx⟩ := Option.bind_eq_some_iff.mp hvx
  cases hvx
  have hne : parents.map hash ≠ [] := by
    rintro he
    rw [List.map_eq_nil_iff.mp he] at hm
    cases hm
  have hsane : { base with height := 1 + m, parents := parents.map hash }.sanityChecks = .ok () :=
    Vertex.sanityChecks_of_nodup hversion hne hn
  have hheights : (parents.map hash).map dag.graph.height = parents.map Vertex.height := by
    rw [List.map_map]
    exact List.map_congr_left fun w hw => Graph.height_of_lookup (hparents w hw)
  rw [checkVertex_eq_ok it (sound_of_reachable h)]
  constructor
  · intro hp
    refine ⟨hp.ready.fresh, fun p hm => hp.unrejected _ (List.mem_map_of_mem hm),
      fun p hm q hm' => hp.antichain _ (List.mem_map_of_mem hm) _ (List.mem_map_of_mem hm'),
      hp.consistent⟩
  · rintro ⟨hfresh, hnr, hanti, hcons⟩
    refine ⟨⟨hsane, hfresh, ?_⟩, ⟨m, by rw [hheights, hm], rfl⟩, ?_, ?_, hcons⟩
    · rintro _ hp
      obtain ⟨x, hx, rfl⟩ := List.mem_map.mp hp
      exact Finmap.mem_of_lookup_eq_some (hparents x hx)
    · rintro _ hp
      obtain ⟨x, hx, rfl⟩ := List.mem_map.mp hp
      exact hnr x hx
    · rintro _ hp _ hq
      obtain ⟨x, hx, rfl⟩ := List.mem_map.mp hp
      obtain ⟨y, hy, rfl⟩ := List.mem_map.mp hq
      exact hanti x hx y hy

theorem built_vertex_checked_fork : ∃ dag : DAG Digest,
    Fork.ab.wire ∉ dag.graph ∧ dag.Consistent Fork.ab := by
  have hrun : ∃ dag, (Fork.system ⟨1, 1⟩).Reachable dag ∧
      (∀ x ∈ [Fork.a, Fork.b], dag.graph.lookup x.wire = some x) ∧
      dag.checkVertex Vertex.wire .ascending Fork.ab = .ok () :=
    reachable_of_run rfl rfl (Fork.run [Fork.a, Fork.b] []) (by decide +kernel)
  obtain ⟨dag, hr, hparents, hok⟩ := hrun
  have hb : (Vertex.batch 3 0 []).withParents Vertex.wire [Fork.a, Fork.b] = .ok Fork.ab := rfl
  obtain ⟨hfresh, _, _, hcons⟩ := (built_vertex_checked hr hparents rfl hb).mp hok
  exact ⟨dag, hfresh, hcons⟩

end

section

variable {H P : Type} [LinearOrder H] [DecidableEq P] {hash : Vertex H → H} {faulty : HashSet P}
  {config : P → Task.Config} {genesis vx empty : Vertex H} {net net' : Network H P}
  {frontier : List (Vertex H)} {it : HashOrders H} {dag' : DAG H} {n m : P} {v : H}

/-- What the sequencer builds on the frontier of a node is inserted there whenever it is handed in,
no matter what has happened in between. It is strongly preferred at once, unless somebody else has
by then committed to the opposite of one of its pairs. -/
theorem proposal_never_refused (h : (Network.system hash faulty config genesis).Reachable net)
    (hl : (Network.system hash faulty config genesis).LeadsWhen (fun _ _ => True) net net')
    (hF : (net.nodes n).task.dag.getFrontier hash it = some frontier)
    (hvx : Sequencer.proposal hash empty frontier = some vx) (hversion : empty.version = VERSION)
    (hfresh : hash vx ∉ (net'.nodes n).task.dag.graph) (it' : HashOrders H) :
    ∃ waiting dag', (net'.nodes n).task.dag.tryInsert hash it' vx = some (.ok waiting, dag') ∧
      ((∀ c ∈ vx.parentConstraints, c.conflictSetKey ∈ (net'.nodes n).task.dag.state →
        Prefers (net'.nodes n).task.dag.state c) →
          ∀ it'', dag'.query hash it'' (hash vx) = .ok (true, false)) := by
  have h' := h.leads hl
  have hd := Network.sound h n
  have hd' := Network.sound h' n
  have hk := Network.keeps_of_leads h hl n
  have hp := proposed_of_proposal (Network.reachable_dag h n) hF hvx hversion
  have hstands (p : H) (hpv : p ∈ vx.parents) : (net.nodes n).task.dag.StandsBy p :=
    Network.standsBy h (hp.childless p hpv).1 (hp.preferred p hpv)
  have hstands' (p : H) (hpv : p ∈ vx.parents) := (hstands p hpv).keeps hd hk
  -- the parents are upheld then as now, and what lies above them has stayed the same
  have hadm : (net'.nodes n).task.dag.graph.Admits vx := by
    have hadm := hp.admits hd fun p hpv => (hstands p hpv).1.1
    have hin (p : H) (hpv : p ∈ vx.parents) := hk.within.mem (hadm.inserted p hpv)
    exact hk.within.agree.admits hd.shaped hd'.shaped hin hadm
  obtain ⟨waiting, dag', hins, hi⟩ :=
    hadm.inserted_of_fresh hd' hfresh (fun p hpv => (hstands' p hpv).2) it'
  refine ⟨waiting, dag', hins, fun hpairs it'' => ?_⟩
  have hatt : Attempt hash it' vx (net'.nodes n).task.dag dag' := ⟨_, hins⟩
  -- the new vertex is upheld, and decided neither way
  have hup := hadm.upheld (Network.reachable_dag h' n) hfresh
    (fun p hpv => (hstands' p hpv).1.1) hpairs hatt hi
  have hL := (Network.loyal_of_reachable h').node n
  have hnr := hup.not_rejected (hL.attempt hd' hatt) ((Network.warranted h' n).attempt hd' hatt)
  have hna : dag'.decisionOn (hash vx) ≠ some true := by
    intro hacc
    have hold := (hL _ (DAG.accepted_of_attempt hd' hatt hacc)).1.1
    exact hfresh (hd'.shaped.registered_mem hold).1
  obtain ⟨b, hb, hiff⟩ := query_spec it'' (hatt.sound hd') hi.mem
  rw [hb, hiff.mpr (hup.stronglyPreferred hi.mem hnr)]
  cases hdec : dag'.decisionOn (hash vx) with
  | none => rfl
  | some b =>
    cases b with
    | true => exact absurd hdec hna
    | false => exact absurd hdec hnr

/-- Nobody is penalised for a vertex that some node has strongly preferred: wherever the vertex is
handed in from then on, with whatever parents at hand, the result is no ground for a punishment. -/
theorem preferred_not_punished (h : (Network.system hash faulty config genesis).Reachable net)
    (hl : (Network.system hash faulty config genesis).LeadsWhen (fun _ _ => True) net net')
    (hcf : Vertex.CollisionFree hash net'.inserted) {final : Bool}
    (hq : (net.nodes n).task.dag.query hash it v = .ok (true, final))
    (hv : (net.nodes n).task.dag.graph.lookup v = some vx) (hne : v ≠ hash genesis)
    {it' : HashOrders H} {result : Except (Error H) (HashSet H)}
    (hres : (net'.nodes m).task.dag.tryInsert hash it' vx = some (result, dag')) :
    handleGossipsub result ≠ .reject := by
  have h' := h.leads hl
  have hdn := Network.sound h' n
  have hdm := Network.sound h' m
  have hk := Network.keeps_of_leads h hl n
  obtain ⟨hin, hsp⟩ := stronglyPreferred_of_query (Network.sound h n) hq
  -- what upholds the vertex admits it, and so does every graph that holds its parents
  have hup := (hk.upheld _ (Network.standsBy h hin hsp).1.1).1
  have hadm := hup.admits (Network.reachable_dag h' n) (hk.within v vx hv) hne
  obtain ⟨r, hr, ht⟩ := tryInsert_spec it' hdm vx
  cases hres.symm.trans hr
  intro hrej
  cases ht with
  | inserted => cases hrej
  | refused hc =>
    obtain ⟨hnot, hparents | hinsane⟩ := hc.not_admitted hrej
    · have hagree := agree_of_collisionFree hdn hdm fun u hu w hw =>
        hcf u (net'.insertedIn_subset n m hu) w (net'.insertedIn_subset n m hw)
      exact hnot (hagree.admits hdn.shaped hdm.shaped hparents hadm)
    · exact hinsane hadm.sane

end

namespace Pair

/-- A proposal on two vertices. -/
def proposal : Vertex Digest := Vertex.batch 30 2 [Fork.a, Fork.b]

/-- The proposal is handed in after somebody else has put its parents into the same order. -/
theorem proposal_never_refused_pair : ∃ (net' : Network Digest Bool) (waiting : HashSet Digest)
    (dag' : DAG Digest), Fork.ab.wire ∈ (net'.nodes true).task.dag.graph ∧
      (net'.nodes true).task.dag.tryInsert Vertex.wire .ascending proposal =
        some (.ok waiting, dag') ∧
      dag'.query Vertex.wire .ascending proposal.wire = .ok (true, false) := by
  have hrun : ∃ net net', (Network.system Vertex.wire ∅ config Fork.root).Reachable net ∧
      (Network.system Vertex.wire ∅ config Fork.root).LeadsWhen (fun _ _ => True) net net' ∧
      (∃ frontier ∈ (net.nodes true).task.dag.getFrontier Vertex.wire .ascending,
        Sequencer.proposal Vertex.wire (Vertex.batch 30 0 []) frontier = some proposal) ∧
      Fork.ab.wire ∈ (net'.nodes true).task.dag.graph ∧
      proposal.wire ∉ (net'.nodes true).task.dag.graph ∧
      ∀ c ∈ proposal.parentConstraints, c.conflictSetKey ∈ (net'.nodes true).task.dag.state →
        Prefers (net'.nodes true).task.dag.state c :=
    Network.exists_leads rfl (fun _ => ⟨rfl, rfl⟩) (ordering.take 4)
      [.call true (.submitVertex Fork.ab none), .handle true .ascending .ascending]
      (by decide +kernel)
  obtain ⟨net, net', hr, hl, ⟨frontier, hF, hvx⟩, hab, hfresh, hpairs⟩ := hrun
  obtain ⟨waiting, dag', hins, hq⟩ := proposal_never_refused hr hl hF hvx rfl hfresh .ascending
  exact ⟨net', waiting, dag', hab, hins, hq hpairs .ascending⟩

theorem preferred_not_punished_pair : ∃ net' : Network Digest Bool,
    ∀ result dag', (net'.nodes false).task.dag.tryInsert Vertex.wire .ascending Fork.ab =
      some (result, dag') → handleGossipsub result ≠ .reject := by
  have hrun : ∃ net net', (Network.system Vertex.wire ∅ config Fork.root).Reachable net ∧
      (Network.system Vertex.wire ∅ config Fork.root).LeadsWhen (fun _ _ => True) net net' ∧
      ((net.nodes true).task.dag.query Vertex.wire .ascending Fork.ab.wire = .ok (true, false) ∧
        (net.nodes true).task.dag.graph.lookup Fork.ab.wire = some Fork.ab) ∧
      Fork.ba.wire ∈ (net'.nodes false).task.dag.graph :=
    Network.exists_leads rfl (fun _ => ⟨rfl, rfl⟩) (ordering.take 12)
      [.call false (.submitVertex Fork.ba none), .handle false .ascending .ascending]
      (by decide +kernel)
  obtain ⟨_, net', hr, hl, ⟨hq, hv⟩, _⟩ := hrun
  exact ⟨net', fun result dag' hres => preferred_not_punished hr hl (Vertex.wire_collisionFree _)
    hq hv (by decide) hres⟩

end Pair

end Taurus
