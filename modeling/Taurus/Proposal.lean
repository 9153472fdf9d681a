import Taurus.Frontier
import Taurus.Reads
import Taurus.Safety

namespace Taurus

open Relation

variable {H : Type} [LinearOrder H] {hash : Vertex H → H} {it it' : HashOrders H} {config : Config}
  {genesis vx empty : Vertex H} {dag dag' : DAG H} {c : Constraint H} {a p : H}
  {frontier : List (Vertex H)}

/-- The vertex that the sequencer builds on the frontier, from a vertex without parents. The
maximum is unwrapped, which fails on an empty frontier. -/
def Sequencer.proposal (hash : Vertex H → H) (empty : Vertex H) (frontier : List (Vertex H)) :
    Option (Vertex H) := do
  let maxHeight ← (frontier.map Vertex.height).max?
  return { empty with height := 1 + maxHeight, parents := frontier.map hash }

/-- What the sequencer hands in: a sane vertex on strongly preferred vertices without children,
one higher than these. -/
structure Proposed (dag : DAG H) (vx : Vertex H) : Prop where
  sane : vx.sanityChecks = .ok ()
  height : dag.graph.HeightFits vx
  childless : ∀ p ∈ vx.parents, dag.graph.Childless p
  preferred : ∀ p ∈ vx.parents, dag.StronglyPreferred p

theorem Vertex.sanityChecks_of_nodup (hv : vx.version = VERSION) (hne : vx.parents ≠ [])
    (hn : vx.parents.Nodup) : vx.sanityChecks = .ok () := by
  have hlen : vx.parents.length = vx.parents.eraseDups.length := (length_eraseDups_of_nodup hn).symm
  rw [sanityChecks, if_neg (not_not.mpr hv), if_neg, if_neg (not_not.mpr hlen)]
  rwa [List.isEmpty_iff]

/-- The frontier holds inserted vertices. -/
theorem frontier_inserted (h : (DAG.system hash config genesis).Reachable dag) :
    ∀ k w, dag.frontier.lookup k = some w → dag.graph.lookup k = some w := by
  refine reachable_induct
    (P := fun dag => ∀ k w, dag.frontier.lookup k = some w → dag.graph.lookup k = some w) h
    (fun _ _ _ hw => hw) ?_ ?_
  · intro it vx s t hd hP ha
    obtain ⟨_, ht⟩ := ha.tried hd
    cases ht with
    | refused _ =>
      rw [park_frontier, park_graph]
      exact hP
    | inserted _ hi _ => exact hi.frontier_inserted hP
  · intro it w b s t _ hP hok
    obtain ⟨_, rfl⟩ := record_eq_recording hok
    exact hP

/-- The sequencer proposes on the strongly preferred vertices without children. -/
theorem proposed_of_proposal (h : (DAG.system hash config genesis).Reachable dag)
    (hF : dag.getFrontier hash it = some frontier)
    (hvx : Sequencer.proposal hash empty frontier = some vx) (hversion : empty.version = VERSION) :
    Proposed dag vx := by
  have hd := sound_of_reachable h
  obtain ⟨l, kept, hl, hperm, hnodup, hkept⟩ := getFrontier_spec it hd
  cases hF.symm.trans hl
  simp only [Sequencer.proposal, Option.bind_eq_bind, Option.bind_eq_some_iff, Option.pure_def,
    Option.some.injEq] at hvx
  obtain ⟨m, hm, rfl⟩ := hvx
  -- the frontier entries are found in the graph, under their hashes
  have hentry (w : Vertex H) (hw : w ∈ frontier) : hash w ∈ kept ∧
      dag.graph.lookup (hash w) = some w := by
    obtain ⟨k, hk, hkw⟩ := List.mem_filterMap.mp (hperm.mem_iff.mp hw)
    have hkg := frontier_inserted h k w hkw
    rw [hd.hash_eq k w (hd.inserted_known k w hkg)]
    exact ⟨hk, hkg⟩
  have hparent (p : H) (hp : p ∈ frontier.map hash) :
      dag.graph.Childless p ∧ dag.StronglyPreferred p := by
    obtain ⟨w, hw, rfl⟩ := List.mem_map.mp hp
    obtain ⟨hf, hsp⟩ := (hkept _).mp (hentry w hw).1
    exact ⟨(hd.frontier_iff _).mp hf, hsp⟩
  have hheights : (frontier.map hash).map dag.graph.height = frontier.map Vertex.height := by
    rw [List.map_map]
    exact List.map_congr_left fun w hw => Graph.height_of_lookup (hentry w hw).2
  have hne : frontier ≠ [] := by
    rintro rfl
    cases hm
  have hkeptmap : (kept.filterMap fun k => dag.frontier.lookup k).map hash = kept := by
    rw [List.map_filterMap]
    refine (List.filterMap_congr fun k hk => ?_).trans List.filterMap_some
    obtain ⟨w, hw⟩ := Finmap.mem_iff.mp ((hkept k).mp hk).1
    rw [hw, Option.map_some, hd.hash_eq k w (hd.inserted_known k w (frontier_inserted h k w hw))]
  have hnd : (frontier.map hash).Nodup := by
    rw [(hperm.map hash).nodup_iff, hkeptmap]
    exact hnodup
  refine ⟨Vertex.sanityChecks_of_nodup hversion (by simpa using hne) hnd, ⟨m, ?_, rfl⟩,
    fun p hp => (hparent p hp).1, fun p hp => (hparent p hp).2⟩
  exact hheights ▸ hm

section Built

variable (hd : Sound hash genesis dag) (hs : Safe dag.graph (decisionOf dag.state))
  (hp : Proposed dag vx)

theorem DAG.StronglyPreferred.not_rejected (h : dag.StronglyPreferred p) :
    dag.decisionOn p ≠ some false := by
  rcases h with h | ⟨h, _⟩ <;> rw [h] <;> simp

include hd hs in
/-- Nothing that lies above a vertex is rejected unless the vertex is. -/
theorem above_not_rejected (hnr : dag.decisionOn p ≠ some false) (hc : dag.graph.Commits p c) :
    decisionOf dag.state c ≠ some false := by
  obtain ⟨a, ha, hca⟩ := hc
  have hchild := Graph.child_unity hca
  intro hf
  cases hda : dag.decisionOn a with
  | none => exact hd.decided (.unity a) (by simp) c hchild hf hda
  | some b =>
    cases b with
    | false => exact (ancestor_open_or_accepted hd hs hnr ha).1 hda
    | true => exact above_accepted_not_rejected hs hda (.single hchild) hf

include hd hs in
/-- A strongly preferred vertex prefers all undecided constraints of its ancestry. -/
theorem prefers_inherited (hsp : dag.StronglyPreferred p) (ha : ReflTransGen dag.graph.IsParent a p)
    (hc : c ∈ dag.graph.commitments a) (hu : decisionOf dag.state c = none) :
    Prefers dag.state c := by
  by_cases hlr : c.left = c.right
  · exact prefers_unity hd (Graph.registered_of_mem_commitments hc) hlr
  rcases ordering_accepted_or_open hd hs hsp.not_rejected ha hc hlr with hacc | ⟨_, hau, hline⟩
  · rw [hu] at hacc
    cases hacc
  -- the line down from `a` is undecided, so that `a` is active, and so is `p`
  rcases hline.cases_tail with rfl | ⟨q, haq, hqp⟩
  · obtain hacc | ⟨_, w, hw, hall⟩ := hsp
    · cases hacc.symm.trans hau
    · refine hall c ⟨hu, Or.inl ?_⟩
      rwa [← Graph.commitments_of_lookup hw]
  · obtain hacc | ⟨_, w, hw, hall⟩ := hsp
    · cases hacc.symm.trans hqp.2
    · have hqw : q ∈ w.parents := (Graph.isParent_of_lookup hw).mp hqp.1
      exact hall c ⟨hu, Or.inr ⟨a, .of_openLine hd ⟨q, hqw, haq⟩ hau, hc⟩⟩

include hd hp in
/-- The pairs of a proposal are new to the state map. -/
theorem Proposed.pair_notMem (hc : c ∈ vx.parentConstraints) (hne : c.left ≠ c.right) :
    c.conflictSetKey ∉ dag.state := by
  intro hk
  obtain ⟨hl, hr⟩ := vx.parents_of_mem_parentConstraints c hc
  obtain ⟨d, ⟨k, _, hd'⟩, hkey⟩ := (hd.stores.key_mem _).mp hk
  -- whoever commits to the pair is a child of both
  have hno (d : Constraint H) (hdl : d.left ∈ vx.parents) (hdne : d.left ≠ d.right)
      (hd' : d = .unity k ∨ d ∈ dag.graph.commitments k) : False := by
    rcases hd' with rfl | hd'
    · exact hdne rfl
    · exact (hp.childless _ hdl).2 k (Graph.isParent_of_mem_commitments hd').1
  rcases (Constraint.conflictSetKey_eq_iff d c).mp hkey with rfl | rfl
  · exact hno d hl hne hd'
  · exact hno c.swap hr (Ne.symm hne) hd'

include hd hs hp in
/-- A new proposal passes the checks. -/
theorem Proposed.not_refused (hfresh : hash vx ∉ dag.graph) {e : Error H}
    (hc : Checked hash dag vx (.err e)) : False := by
  cases hc with
  | vertex hsane => cases hp.sane.symm.trans hsane
  | alreadyInserted _ hin => exact hfresh hin
  | missingParents _ _ hmiss =>
    obtain ⟨p, hpv, hpg⟩ := hmiss
    exact hpg (hp.childless p hpv).1
  | waitingOnParents _ _ hwait =>
    obtain ⟨p, hpv, hpg⟩ := hwait
    exact hpg (hp.childless p hpv).1
  | badHeight _ hm hne =>
    obtain ⟨m, hm', hh⟩ := hp.height
    cases hm.symm.trans hm'
    exact hne hh
  | rejectedAncestor _ _ hrej =>
    obtain ⟨p, hpv, hf⟩ := hrej
    exact (hp.preferred p hpv).not_rejected hf
  | selfReferentialParent _ _ _ hna =>
    refine hna fun p hpv q _ hpq => ?_
    obtain ⟨k, hpk, _⟩ := TransGen.head'_iff.mp hpq
    exact (hp.childless p hpv).2 k hpk
  | conflictingAncestors hr _ _ _ hact hconf =>
    obtain ⟨c, hc, hne, hsw⟩ := hconf
    -- a pair of two parents is in nobody's ancestry, in either order
    have hown (d : Constraint H) (hdv : d ∈ vx.parentConstraints) (hdne : d.left ≠ d.right)
        {b : H} (hb : d.swap ∈ dag.graph.commitments b) : False := by
      refine hp.pair_notMem hd hdv hdne ?_
      rw [← (Constraint.conflictSetKey_eq_iff d.swap d).mpr (Or.inr rfl)]
      exact hd.stores.mem_of_registered (Graph.registered_of_mem_commitments hb)
    rcases hact.sound c hc with hcv | ⟨a, ⟨p, hpv, hap⟩, hca⟩
    · rcases hact.sound c.swap hsw with hswv | ⟨b, _, hcb⟩
      · exact vx.swap_notMem_parentConstraints c (vx.sanityChecks_eq_ok hr.sane).2 hne hcv hswv
      · exact hown c hcv hne hcb
    · rcases hact.sound c.swap hsw with hswv | ⟨b, ⟨q, hqv, hbq⟩, hcb⟩
      · exact hown c.swap hswv (Ne.symm hne) hca
      -- inherited from both sides, both orderings would be preferred
      · have hpref := prefers_inherited hd hs (hp.preferred p hpv) hap hca (hact.undecided c hc)
        have hpref' := prefers_inherited hd hs (hp.preferred q hqv) hbq hcb
          (hact.undecided c.swap hsw)
        have hreg := Graph.registered_of_mem_commitments hca
        exact (prefers_swap_iff hd hreg hne).mp hpref' hpref

section Inserted

variable (hc : Checked hash dag vx (.ok ())) (hi : InsertedDAG hash vx dag dag')
include hd hs hp hc hi

/-- An inserted proposal is not decided. -/
theorem Proposed.undecided : dag'.decisionOn (hash vx) = none := by
  have hf := hc.ready.fresh
  have hd' := hd.insert hf hc.legal hi
  have hnew : (Constraint.unity (hash vx)).conflictSetKey ∉ dag.state := by
    intro hk
    obtain ⟨d, hreg, hkey⟩ := (hd.stores.key_mem _).mp hk
    rw [(Constraint.conflictSetKey_unity_eq_iff _ _).mp hkey] at hreg
    exact hf (hd.shaped.registered_mem hreg).1
  have hold {d : Constraint H} (hk : d.conflictSetKey ∉ dag.state) (b : Bool) :
      decisionOf dag.state d ≠ some b := by
    rw [decisionOf, entry_of_notMem hk]
    simp
  cases hdec : dag'.decisionOn (hash vx) with
  | none => rfl
  | some b =>
    exfalso
    cases b with
    -- an insertion accepts nothing
    | true =>
      rcases hi.state.decisions.origin _ true hdec with h | ⟨h, _⟩
      · exact hold hnew true h
      · cases h
    -- born rejected, it would have something rejected above it: itself, one of its own
    -- constraints, or one of a parent's ancestry
    | false =>
      obtain ⟨r, hr, hrf⟩ := hi.rejected_above hd'.shaped hdec
      rcases reflTransGen_iff_eq_or_transGen.mp hr with he | hr
      · rw [← he] at hrf
        exact hold hnew false hrf
      have hcommits := (Graph.above_iff_commits.mp hr).2.elim id id
      rw [hi.graph] at hcommits
      rcases (Graph.commits_insert_self hd.shaped hf hc.legal.inserted).mp hcommits with
        hrv | ⟨a, ⟨p, hpv, hap⟩, hra⟩
      · by_cases hlr : r.left = r.right
        · have hrp := (vx.parents_of_mem_parentConstraints r hrv).1
          rw [r.eq_unity_of_left_eq_right hlr] at hrf
          exact (hp.preferred _ hrp).not_rejected hrf
        · exact hold (hp.pair_notMem hd hrv hlr) false hrf
      · exact above_not_rejected hd hs (hp.preferred p hpv).not_rejected ⟨a, hap, hra⟩ hrf

/-- An inserted proposal prefers what it commits to: its pairs are new, so that they start out
with its own order, and the rest is preferred by its parents. -/
theorem Proposed.inserted_preferred (ha : Attempt hash it vx dag dag') :
    dag'.StronglyPreferred (hash vx) := by
  have hin := hc.ready.parents
  have hd' := hd.insert hc.ready.fresh hc.legal hi
  have hcont : Continues dag dag' := .of_attempt hd ha
  have hlookup : dag'.graph.lookup (hash vx) = some vx := by
    rw [hi.graph, Finmap.lookup_insert]
  refine Or.inr ⟨hp.undecided hd hs hc hi, vx, hlookup, ?_⟩
  rintro c ⟨hnone, hcv | ⟨a, hact, hca⟩⟩
  · have hreg : dag'.graph.Registered c :=
      Graph.registered_of_mem_commitments (by rwa [Graph.commitments_of_lookup hlookup])
    by_cases hlr : c.left = c.right
    · exact prefers_unity hd' hreg hlr
    -- the conflict set of a pair is made by this insertion, for the order of the proposal
    obtain ⟨cs, hcs, hw⟩ := hd'.stores.lookup (hd'.stores.mem_of_registered hreg)
    refine (prefers_iff hcs).mpr ?_
    obtain ⟨hmem, _⟩ := ha.grown_within.fresh _ cs hcs (hp.pair_notMem hd hcv hlr)
    rcases (Constraint.conflictSetKey_eq_iff _ c).mp hw.preferred with he | he
    · exact he
    · rw [he] at hmem
      rcases hmem with hmem | hmem
      · have hnodup := (vx.sanityChecks_eq_ok hc.ready.sane).2
        exact absurd hmem (vx.swap_notMem_parentConstraints c hnodup hlr hcv)
      · have hl := congrArg Constraint.left hmem
        have hr := congrArg Constraint.right hmem
        exact absurd (hr.trans hl.symm) hlr
  -- what an active ancestor commits to was preferred below the parent before the insertion
  · obtain ⟨p, hpv, hap'⟩ : dag'.graph.Precedes a vx := by
      rcases hact.2 with hav | ⟨b, hab, ⟨p, hpv, hbp⟩, _⟩
      · exact ⟨a, hav, .refl⟩
      · exact ⟨p, hpv, .head hab hbp⟩
    have hap := (hcont.line_iff hd (hin p hpv)).mp hap'
    rw [hcont.within.commitments_eq (hd.line_mem (hin p hpv) hap)] at hca
    have hreg := Graph.registered_of_mem_commitments hca
    rw [hcont.decisions c hreg] at hnone
    exact (hcont.preferences c hreg).mpr
      (prefers_inherited hd hs (hp.preferred p hpv) hap hca hnone)

end Inserted

end Built

/-- What the sequencer builds on the frontier is inserted, and strongly preferred at once, as
long as the threshold only accepts settled vertices. -/
theorem proposal_inserted_preferred
    (h : (DAG.system hash config genesis).ReachableWhen (DAG.Guarded hash OrderingsSettled) dag)
    (hF : dag.getFrontier hash it = some frontier)
    (hvx : Sequencer.proposal hash empty frontier = some vx) (hversion : empty.version = VERSION)
    (hfresh : hash vx ∉ dag.graph) (it' : HashOrders H) :
    ∃ waiting dag', dag.tryInsert hash it' vx = some (.ok waiting, dag') ∧
      ∀ it'', dag'.query hash it'' (hash vx) = .ok (true, false) := by
  have hd := sound_of_reachable h
  have hs := safe_of_reachable (fun _ _ hcond => hcond) h
  have hp := proposed_of_proposal h.reachable hF hvx hversion
  obtain ⟨r, hr, ht⟩ := tryInsert_spec it' hd vx
  cases ht with
  | refused hc => exact (hp.not_refused hd hs hfresh hc).elim
  | @inserted dag' waiting hc hi _ =>
    refine ⟨waiting, dag', hr, fun it'' => ?_⟩
    have hd' := hd.insert hc.ready.fresh hc.legal hi
    have hin : hash vx ∈ dag'.graph := by
      rw [hi.graph]
      exact Finmap.mem_insert.mpr (Or.inl rfl)
    obtain ⟨b, hb, hiff⟩ := query_spec it'' hd' hin
    rw [hb, hiff.mpr (hp.inserted_preferred hd hs hc hi ⟨_, hr⟩), hp.undecided hd hs hc hi]
    rfl

/-- A proposal on two fresh branches, which commits to an ordering of them. -/
theorem proposal_inserted_preferred_pair : ∃ (dag dag' : DAG Digest) (vx : Vertex Digest),
    ∃ waiting, vx.parents = [Fork.a.wire, Fork.b.wire] ∧
      dag.tryInsert Vertex.wire .ascending vx = some (.ok waiting, dag') ∧
      dag'.query Vertex.wire .ascending vx.wire = .ok (true, false) := by
  have hrun : ∃ dag, (Fork.system ⟨2, 2⟩).ReachableWhen
      (DAG.Guarded Vertex.wire fun dag c =>
        c.left = c.right → tally dag.state c < dag.config.threshAccepted) dag ∧
      ∃ frontier ∈ dag.getFrontier Vertex.wire .ascending,
        ∃ vx ∈ Sequencer.proposal Vertex.wire (Vertex.batch 30 0 []) frontier,
          vx.wire ∉ dag.graph ∧ vx.parents = [Fork.a.wire, Fork.b.wire] :=
    reachable_of_run rfl rfl (Fork.run [Fork.a, Fork.b] []) (by decide +kernel)
  obtain ⟨dag, hr, frontier, hF, vx, hvx, hfresh, hparents⟩ := hrun
  have hr' := hr.mono fun _ _ hg v hv => orderingsSettled_of_lt (hg v hv)
  obtain ⟨waiting, dag', hins, hq⟩ :=
    proposal_inserted_preferred hr' hF hvx rfl hfresh .ascending
  exact ⟨dag, dag', vx, waiting, hparents, hins, hq .ascending⟩

namespace Fork

open Vertex

def abTop : Vertex Digest := batch 21 4 [abTip]
def baTop : Vertex Digest := batch 22 4 [baTip]
def loner : Vertex Digest := batch 23 1 [root]

/-- Votes that accept the tips of both branches, and neither ordering. -/
def tipVotes : List (Call Digest) :=
  Op.calls ([Fork.a, Fork.b, ab, ba, abTip, baTip, abTop, baTop, loner].map Op.tryInsert ++
    [.recordQueryResult abTip.wire true, .recordQueryResult ab.wire false,
      .recordQueryResult abTop.wire true, .recordQueryResult baTip.wire true,
      .recordQueryResult ba.wire false, .recordQueryResult baTop.wire true])

end Fork

/-- A proposal on a frontier with both branches and a vertex far below them is refused: the low
height brings the contradictory orderings back into its active ancestry. -/
theorem proposal_refused : Vertex.CollisionFree Vertex.wire Set.univ ∧
    ∃ dag, (Fork.system ⟨2, 2⟩).Reachable dag ∧
      ∃ frontier, dag.getFrontier Vertex.wire .ascending = some frontier ∧ frontier ≠ [] ∧
        ∃ vx, Sequencer.proposal Vertex.wire (Vertex.batch 30 0 []) frontier = some vx ∧
          vx.wire ∉ dag.vertex ∧ ∃ r, dag.tryInsert Vertex.wire .ascending vx = some r ∧
            r.1 = .error .conflictingAncestors := by
  refine ⟨Vertex.wire_collisionFree _, ?_⟩
  have hrun : ∃ dag, (Fork.system ⟨2, 2⟩).Reachable dag ∧
      ∃ frontier ∈ dag.getFrontier Vertex.wire .ascending, frontier ≠ [] ∧
        ∃ vx ∈ Sequencer.proposal Vertex.wire (Vertex.batch 30 0 []) frontier,
          vx.wire ∉ dag.vertex ∧ ∃ r ∈ dag.tryInsert Vertex.wire .ascending vx,
            r.1 = .error .conflictingAncestors :=
    reachable_of_run rfl rfl Fork.tipVotes (by decide +kernel)
  exact hrun

end Taurus
