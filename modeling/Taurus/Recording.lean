import Taurus.Runs

namespace Taurus

open Relation

variable {H : Type} [LinearOrder H] {hash : Vertex H → H} {it : HashOrders H}
  {config : Config} {genesis : Vertex H} {dag dag' : DAG H} {vx : Vertex H} {x : H}

namespace DAG

/-- Is the vertex waiting for a query result, with a parent that is already rejected? -/
def Orphaned (dag : DAG H) (vhash : H) : Prop :=
  ∃ vx, dag.pendingQuery.lookup vhash = some vx ∧ ∃ p ∈ vx.parents, dag.decisionOn p = some false

instance (dag : DAG H) (vhash : H) : Decidable (dag.Orphaned vhash) :=
  inferInstanceAs (Decidable (∃ vx ∈ dag.pendingQuery.lookup vhash,
    ∃ p ∈ vx.parents, dag.decisionOn p = some false))

/-- The constraints a query result for `x` updates: its unity constraint, and what it or an
ancestor commits to. The latter are undecided when the loop begins, so one that is decided
by now was rejected along with the opposite of another. -/
def Updated (dag : DAG H) (x : H) (c : Constraint H) : Prop :=
  c = .unity x ∨ dag.graph.Commits x c ∧ (decisionOf dag.state c = none ∨
    ∃ e, dag.graph.Commits x e ∧ dag.graph.constraintGraph.Against e c)

end DAG

theorem DAG.Updated.registered {c : Constraint H} (hu : dag.Updated x c) (hx : x ∈ dag.graph) :
    dag.graph.Registered c := by
  rcases hu with rfl | ⟨hc, _⟩
  · exact Graph.registered_unity hx
  · exact Graph.registered_of_commits hc

/-- A vote on one of the constraints leaves the others updatable. -/
theorem DAG.Updated.kept {t u : StateMap H} {c d : Constraint H}
    (hd : DAG.Updated { dag with state := t } x d) (hc : DAG.Updated { dag with state := t } x c)
    (hne : d ≠ c) (hdec : decisionOf u = decisionOf t ∨
      decisionOf u = dag.graph.constraintGraph.accepted (decisionOf t) c) :
    DAG.Updated { dag with state := u } x d := by
  rcases hd with he | ⟨hcd, hnone | he⟩
  · exact Or.inl he
  swap
  · exact Or.inr ⟨hcd, Or.inr he⟩
  refine Or.inr ⟨hcd, ?_⟩
  rcases hdec with hdec | hdec
  · left
    rw [show decisionOf u = _ from hdec]
    exact hnone
  by_cases hag : dag.graph.constraintGraph.Against c d
  · rcases hc with rfl | ⟨hcc, _⟩
    -- a unity constraint has no opposite
    · obtain ⟨o, ho, _⟩ := hag
      rw [Graph.constraintGraph_opposite, Constraint.conflict_unity] at ho
      cases ho
    · exact Or.inr ⟨c, hcc, hag⟩
  · left
    rw [show decisionOf u = _ from hdec, ConflictGraph.accepted_other hag hne]
    exact hnone

/-- The start of `record_query_result` for a pending vertex: it panics on a rejected parent,
and else changes no decision. -/
theorem beginRecord_spec (it : HashOrders H) (hd : Sound hash genesis dag) {vhash : H}
    (hv : dag.pendingQuery.lookup vhash = some vx) (stronglyPreferred : Bool) :
    ((∃ p ∈ vx.parents, dag.decisionOn p = some false) →
      dag.beginRecord hash it vx vhash stronglyPreferred = none) ∧
    ((∀ p ∈ vx.parents, dag.decisionOn p ≠ some false) → ∃ state cs,
      dag.beginRecord hash it vx vhash stronglyPreferred =
        some (dag.recording vhash state, cs ++ [.unity vhash]) ∧
      Sound hash genesis (dag.recording vhash state) ∧ decisionOf state = decisionOf dag.state ∧
      ActiveConstraints (dag.recording vhash state) vx cs) := by
  obtain ⟨hgv, hne⟩ := hd.pending_inserted vhash vx hv
  have hin := Finmap.mem_of_lookup_eq_some hgv
  have hlegal := hd.shaped.legal vhash vx hgv hne
  obtain ⟨state, haward, hshape, hdec⟩ : ∃ state,
      DAG.awardIfPreferred stronglyPreferred dag.state (.unity vhash) = some state ∧
        SameShape dag.state state ∧ decisionOf state = decisionOf dag.state := by
    cases stronglyPreferred with
    | true => exact awardChit_spec hd.stores (hd.unity_mem hin)
    | false => exact ⟨dag.state, rfl, .refl _, rfl⟩
  -- the award decides nothing, so the active constraints are gathered in a sound state
  have hd' : Sound hash genesis (dag.recording vhash state) :=
    (hd.vote hshape (Or.inl hdec)).erasePending vhash
  have hrej := (getActiveAncestors_spec it hd' hlegal.nonempty hlegal.inserted).1
  have hrun : dag.beginRecord hash it vx vhash stronglyPreferred =
      ((dag.recording vhash state).getActiveAncestorConstraints hash it vx).unwrap.bind fun cs =>
        some (dag.recording vhash state, cs ++ [.unity vhash]) := by
    simp only [DAG.beginRecord, haward, Option.bind_eq_bind, Option.bind_some, Option.pure_def]
  have hon (p : H) : (dag.recording vhash state).decisionOn p = dag.decisionOn p :=
    congrFun hdec _
  simp only [hon] at hrej
  constructor
  · intro hp
    rw [hrun, DAG.getActiveAncestorConstraints, hrej hp]
    rfl
  · intro hp
    obtain ⟨cs, hcs, hact, _⟩ := getActiveAncestorConstraints_spec it hd' hlegal.nonempty
      hlegal.inserted (fun p hpv => hon p ▸ hp p hpv) hlegal.antichain
    refine ⟨state, cs, ?_, hd', hdec, hact⟩
    rw [hrun, hcs]
    rfl

/-- The list that the loop of `record_query_result` goes through. -/
theorem updated_of_active {cs : List (Constraint H)} (hd : Sound hash genesis dag)
    (hv : dag.graph.lookup x = some vx) (ha : ActiveConstraints dag vx cs) :
    (cs ++ [Constraint.unity x]).Nodup ∧ ∀ c ∈ cs ++ [Constraint.unity x], dag.Updated x c := by
  have hcommits (c : Constraint H) (hc : c ∈ cs) : dag.graph.Commits x c := by
    rcases ha.sound c hc with hown | ⟨a, ⟨p, hp, hap⟩, hca⟩
    · exact Graph.commits_self (by rwa [Graph.commitments_of_lookup hv])
    · exact ⟨a, hap.tail ⟨vx, hv, hp⟩, hca⟩
  constructor
  · refine List.nodup_append.mpr ⟨ha.nodup, List.nodup_singleton _, fun c hc d hd' he => ?_⟩
    have hlt := hd.shaped.above_rank_lt (Graph.below_of_commits (hcommits c hc))
    rw [he, List.mem_singleton.mp hd'] at hlt
    exact lt_irrefl _ hlt
  · intro c hc
    rcases List.mem_append.mp hc with hc | hc
    · exact Or.inr ⟨hcommits c hc, Or.inl (ha.undecided c hc)⟩
    · exact Or.inl (List.mem_singleton.mp hc)

/-- The parents stored for a unity constraint are all that the vertex commits to. -/
theorem parentsAccepted_unity (hd : Sound hash genesis dag) {h : H}
    (ha : ParentsAccepted dag.state (.unity h)) {p : Constraint H}
    (hp : p ∈ dag.graph.commitments h) : decisionOf dag.state p = some true := by
  obtain ⟨s, hs, hall⟩ := ha
  exact hall p (hd.stores.unity_parents h s hs p ((Graph.parentConstraint_unity p h).mpr hp))

/-- A property of the graph and the verdicts that is kept by inserting a vertex which passed
the checks, and by accepting an updated constraint under the condition. -/
structure Stable (hash : Vertex H → H) (genesis : Vertex H)
    (cond : DAG H → Constraint H → Prop) (P : Graph H → Verdicts (Constraint H) → Prop) : Prop where
  insert : ∀ (dag dag' : DAG H) (vx : Vertex H), Sound hash genesis dag →
    P dag.graph (decisionOf dag.state) → Checked hash dag vx (.ok ()) →
    InsertedDAG hash vx dag dag' → P dag'.graph (decisionOf dag'.state)
  accept : ∀ (dag : DAG H) (x : H) (c : Constraint H), Sound hash genesis dag →
    P dag.graph (decisionOf dag.state) → x ∈ dag.graph → dag.Updated x c → cond dag c →
    Accepts dag.config dag.state c →
    P dag.graph (dag.graph.constraintGraph.accepted (decisionOf dag.state) c)

namespace Stable

variable {cond : DAG H → Constraint H → Prop} {P : Graph H → Verdicts (Constraint H) → Prop}

theorem trivial : Stable hash genesis cond fun _ _ => True where
  insert _ _ _ _ _ _ _ := True.intro
  accept _ _ _ _ _ _ _ _ _ := True.intro

variable (hP : Stable hash genesis cond P)
include hP

/-- The loop over the constraints on a positive result never panics. -/
theorem voteFor_loop (dag : DAG H) (hx : x ∈ dag.graph) (l : List (Constraint H)) (t : StateMap H)
    (hd : Sound hash genesis { dag with state := t }) (hPt : P dag.graph (decisionOf t))
    (hn : l.Nodup) (hup : ∀ c ∈ l, DAG.Updated { dag with state := t } x c)
    (hg : ∀ v ∈ loopStates (dag.recordConstraint it true) t l, cond { dag with state := v.1 } v.2) :
    ∃ t', l.foldlM (dag.recordConstraint it true) t = some t' ∧
      Sound hash genesis { dag with state := t' } ∧ P dag.graph (decisionOf t') := by
  induction l generalizing t with
  | nil => exact ⟨t, rfl, hd, hPt⟩
  | cons c l ih =>
    obtain ⟨hcl, hn⟩ := List.nodup_cons.mp hn
    have huc := hup c (by simp)
    have hreg := huc.registered hx
    obtain ⟨u, hu, hshape, hacc, hrest⟩ := voteFor_spec it dag.config hd.shaped
      hd.stores hd.card_le (hd.stores.mem_of_registered hreg)
    have hstep : dag.recordConstraint it true t c = some u := hu
    have hdec : decisionOf u = decisionOf t ∨ Accepts dag.config t c ∧
        decisionOf u = dag.graph.constraintGraph.accepted (decisionOf t) c := by
      by_cases ha : Accepts dag.config t c
      · exact Or.inr ⟨ha, hacc ha⟩
      · exact Or.inl (hrest ha)
    have hd' : Sound hash genesis { dag with state := u } :=
      hd.vote hshape (hdec.imp_right fun h => ⟨c, hreg, h.2⟩)
    -- only an acceptance changes decisions, and the guard is about these
    have hPu : P dag.graph (decisionOf u) := by
      rcases hdec with hdec | ⟨ha, hdec⟩
      · rwa [hdec]
      · rw [hdec]
        exact hP.accept { dag with state := t } x c hd hPt hx huc
          (hg (t, c) (by simp [loopStates])) ha
    have hup' (d : Constraint H) (hdl : d ∈ l) : DAG.Updated { dag with state := u } x d :=
      (hup d (by simp [hdl])).kept huc (fun he => hcl (he ▸ hdl)) (hdec.imp_right And.right)
    obtain ⟨v, hv, hdv, hPv⟩ := ih u hd' hPu hn hup' fun w hw =>
      hg w (by simp only [loopStates, hstep, List.mem_cons]; exact Or.inr hw)
    exact ⟨v, foldlM_cons_eq_some.mpr ⟨u, hstep, hv⟩, hdv, hPv⟩

omit hP in
theorem voteAgainst_loop (it : HashOrders H) (dag : DAG H) (hx : x ∈ dag.graph) (l : List (Constraint H))
    (t : StateMap H) (hd : Sound hash genesis { dag with state := t })
    (hup : ∀ c ∈ l, DAG.Updated { dag with state := t } x c) :
    ∃ t', l.foldlM (dag.recordConstraint it false) t = some t' ∧
      Sound hash genesis { dag with state := t' } ∧ decisionOf t' = decisionOf t := by
  refine foldlM_total (P := fun s => Sound hash genesis { dag with state := s } ∧
    decisionOf s = decisionOf t) l t ⟨hd, rfl⟩ ?_
  rintro s c hc ⟨hs, hdec⟩
  have hreg := (hup c hc).registered hx
  obtain ⟨u, hu, hshape, hdu⟩ := voteAgainst_spec hs.stores (hs.stores.mem_of_registered hreg)
  exact ⟨u, hu, hs.vote hshape (Or.inl hdu), hdu.trans hdec⟩

/-- Recording a result for a pending vertex without a rejected parent succeeds. -/
theorem record (hd : Sound hash genesis dag) (hPd : P dag.graph (decisionOf dag.state)) {vhash : H}
    {stronglyPreferred : Bool} (hv : dag.pendingQuery.lookup vhash = some vx)
    (hnr : ∀ p ∈ vx.parents, dag.decisionOn p ≠ some false)
    (hg : DAG.Guarded hash cond dag ⟨.recordQueryResult vhash stronglyPreferred, it⟩) :
    ∃ dag', dag.recordQueryResult hash it vhash stronglyPreferred = .ok dag' ∧
      Sound hash genesis dag' ∧ P dag'.graph (decisionOf dag'.state) := by
  obtain ⟨state, cs, hb, hd1, hdec, hact⟩ :=
    (beginRecord_spec it hd hv stronglyPreferred).2 hnr
  have hgv := (hd.pending_inserted vhash vx hv).1
  have hx : vhash ∈ dag.graph := Finmap.mem_of_lookup_eq_some hgv
  obtain ⟨hn, hup⟩ := updated_of_active hd1 hgv hact
  have hP1 : P dag.graph (decisionOf state) := by rwa [hdec]
  obtain ⟨t, ht, hdt, hPt⟩ : ∃ t, (cs ++ [Constraint.unity vhash]).foldlM
      ((dag.recording vhash state).recordConstraint it stronglyPreferred) state = some t ∧
      Sound hash genesis (dag.recording vhash t) ∧ P dag.graph (decisionOf t) := by
    cases stronglyPreferred with
    | true =>
      refine hP.voteFor_loop (dag.recording vhash state) hx _ state hd1 hP1 hn hup ?_
      intro v hvm
      refine hg (dag.recording vhash v.1, v.2) ?_
      simp only [DAG.votes, hv, Option.bind_some, hb, List.mem_map]
      exact ⟨v, hvm, rfl⟩
    | false =>
      obtain ⟨t, ht, hdt, hdec'⟩ := voteAgainst_loop it (dag.recording vhash state) hx
        _ state hd1 hup
      exact ⟨t, ht, hdt, by rwa [hdec']⟩
  refine ⟨dag.recording vhash t, ?_, hdt, hPt⟩
  simp only [DAG.recordQueryResult, hv, hb, Outcome.lift_some, Outcome.ok_bind]
  rw [show (dag.recording vhash state).state = state from rfl, ht]
  rfl

end Stable

/-- The unwrap in `record_query_result` panics on a rejected parent. -/
theorem recordQueryResult_orphaned (hd : Sound hash genesis dag) {vhash : H}
    (ho : dag.Orphaned vhash) (stronglyPreferred : Bool) :
    dag.recordQueryResult hash it vhash stronglyPreferred = .panic := by
  obtain ⟨vx, hv, hp⟩ := ho
  simp only [DAG.recordQueryResult, hv, (beginRecord_spec it hd hv stronglyPreferred).1 hp,
    Outcome.lift_none, Outcome.panic_bind]

namespace Stable

variable {cond : DAG H → Constraint H → Prop} {P : Graph H → Verdicts (Constraint H) → Prop}
  (hP : Stable hash genesis cond P)
include hP

theorem tried {r : Except (Error H) (HashSet H) × DAG H} (ht : Tried hash dag vx r)
    (hd : Sound hash genesis dag) (hPd : P dag.graph (decisionOf dag.state)) :
    P r.2.graph (decisionOf r.2.state) := by
  cases ht with
  | refused _ =>
    rw [park_graph, park_state]
    exact hPd
  | inserted hc hi _ => exact hP.insert dag _ vx hd hPd hc hi

/-- A guarded call keeps the property. -/
theorem apply {call : Call H} (hd : Sound hash genesis dag)
    (hPd : P dag.graph (decisionOf dag.state)) (hg : DAG.Guarded hash cond dag call)
    (h : dag.apply hash call = some dag') :
    Sound hash genesis dag' ∧ P dag'.graph (decisionOf dag'.state) := by
  obtain ⟨op, it⟩ := call
  cases op with
  | tryInsert vx =>
    obtain ⟨r, hr, ht⟩ := tryInsert_spec it hd vx
    simp only [DAG.apply, hr, Option.map_some, Option.some.injEq] at h
    subst h
    exact ⟨ht.sound hd, hP.tried ht hd hPd⟩
  | retryPending hashes =>
    obtain ⟨s, dag1, hrun, hd1, hP1⟩ := retryPending_spec it
      (Q := fun dag _ => P dag.graph (decisionOf dag.state))
      (fun _ _ _ _ hQ _ => hQ)
      (fun dag _ _ vx e hd hQ _ _ hc => hP.tried (.refused hc) hd hQ)
      (fun dag _ _ vx dag' _ hd hQ _ _ hc hi _ => hP.insert dag dag' vx hd hQ hc hi)
      hd hashes hPd
    simp only [DAG.apply, hrun, Option.map_some, Option.some.injEq] at h
    subst h
    exact ⟨hd1, hP1⟩
  | recordQueryResult vhash stronglyPreferred =>
    cases hv : dag.pendingQuery.lookup vhash with
    | none =>
      have hsame : dag' = dag := by
        simp only [DAG.apply, DAG.recordQueryResult, hv] at h
        split_ifs at h <;> exact (Option.some.inj h).symm
      rw [hsame]
      exact ⟨hd, hPd⟩
    | some vx =>
      -- below a rejected parent the call panics, and the run ends without it
      by_cases ho : ∃ p ∈ vx.parents, dag.decisionOn p = some false
      · simp only [DAG.apply, recordQueryResult_orphaned hd ⟨vx, hv, ho⟩] at h
        cases h
      · obtain ⟨dag1, hrun, hd1, hP1⟩ := hP.record hd hPd hv (fun p hp hf => ho ⟨p, hp, hf⟩) hg
        simp only [DAG.apply, hrun, Option.some.injEq] at h
        subst h
        exact ⟨hd1, hP1⟩

/-- A guarded run from the start keeps the property. -/
theorem reachable (hstart : P (DAG.start hash config genesis).graph
      (decisionOf (DAG.start hash config genesis).state))
    (h : (DAG.system hash config genesis).ReachableWhen (DAG.Guarded hash cond) dag) :
    Sound hash genesis dag ∧ P dag.graph (decisionOf dag.state) := by
  refine System.ReachableWhen.invariant (P := fun dag => Sound hash genesis dag ∧
    P dag.graph (decisionOf dag.state)) ?_ ?_ h
  · intro s hs
    rw [DAG.eq_start_of_init hs]
    exact ⟨Sound.start config hs.1, hstart⟩
  · rintro s call s' _ ⟨hd, hPs⟩ hg hs
    exact hP.apply hd hPs hg hs

/-- A guarded run from a sound state keeps the property. -/
theorem leads (hd : Sound hash genesis dag) (hPd : P dag.graph (decisionOf dag.state))
    (h : (DAG.system hash config genesis).LeadsWhen (DAG.Guarded hash cond) dag dag') :
    P dag'.graph (decisionOf dag'.state) := by
  have hboth : Sound hash genesis dag' ∧ P dag'.graph (decisionOf dag'.state) := by
    induction h with
    | refl => exact ⟨hd, hPd⟩
    | step _ hg hs ih => exact hP.apply ih.1 ih.2 hg hs
  exact hboth.2

end Stable

theorem System.ReachableWhen.genesis_parents {guard : DAG H → Call H → Prop}
    (h : (DAG.system hash config genesis).ReachableWhen guard dag) : genesis.parents = [] := by
  induction h with
  | init hi => exact hi.1
  | step _ _ _ ih => exact ih

/-- Whatever the guard, reachable states are sound. -/
theorem sound_of_reachable {guard : DAG H → Call H → Prop}
    (h : (DAG.system hash config genesis).ReachableWhen guard dag) : Sound hash genesis dag :=
  (Stable.trivial.reachable True.intro
    (h.mono (show ∀ s call, guard s call → DAG.Guarded hash (fun _ _ => True) s call from
      fun _ _ _ _ _ => True.intro))).1

end Taurus
