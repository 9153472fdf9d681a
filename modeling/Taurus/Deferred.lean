import Taurus.Ballots

namespace Taurus

variable {H : Type} [LinearOrder H] {hash : Vertex H → H} {config : Config} {genesis : Vertex H}
  {dag dag' : DAG H} {call : Call H} {past : List (DAG H × Call H)} {c : Constraint H} {w : H}

/-- A call clears no decision on a constraint that has a conflict set. -/
theorem apply_never_clears (hd : Sound hash genesis dag) (hs : dag.apply hash call = some dag')
    (hc : c.conflictSetKey ∈ dag.state) (hdec : decisionOf dag.state c ≠ none) :
    decisionOf dag'.state c ≠ none := by
  rcases apply_cases hs with ⟨vx, _, ha⟩ | ⟨hashes, _, hret⟩ | ⟨w, b, _, hrec⟩
  · rwa [ha.grown.decisionOf_eq hc]
  · rwa [(hret.grown hd).decisionOf_eq hc]
  · rcases hrec with ⟨_, rfl⟩ | hok
    · exact hdec
    obtain ⟨_, _, _, _, _, hb, hf, rfl⟩ := recordQueryResult_eq_ok.mp hok
    obtain ⟨_, _, haward, rfl, _⟩ := beginRecord_eq_some hb
    exact NeverClears.loop hf c (NeverClears.awardIfPreferred haward c hdec)

/-- The turns after this one lead to the state after the call. -/
theorem Ballot.later_turns {v : DAG H × Constraint H} (h : Ballot hash genesis dag call v w)
    (hs : dag.apply hash call = some dag') :
    ∃ (state : StateMap H) (after : List (Constraint H)),
      v.1.recordConstraint call.it true v.1.state v.2 = some state ∧
      after.foldlM (v.1.recordConstraint call.it true) state = some dag'.state := by
  obtain ⟨b, dag₁, ho, hok⟩ := Records.of_pending hs h.op h.pending
  cases ho.symm.trans h.op
  simp only [DAG.apply, h.op, hok, Option.some.injEq] at hs
  subst hs
  obtain ⟨vx, dag₁, cs, t, hv, hb, hf, rfl⟩ := recordQueryResult_eq_ok.mp hok
  obtain ⟨state₁, _, haward₁, rfl, _⟩ := beginRecord_eq_some hb
  obtain ⟨state, before, after, haward, hl, hbefore⟩ := h.turn
  cases haward.symm.trans haward₁
  have hcs : cs = before ++ v.2 :: after := by
    rw [← hl]
    simp only [DAG.updates, h.op, hv, Option.bind_some, hb]
  rw [hcs] at hf
  obtain ⟨r, u, hr, hu, hf⟩ := foldlM_turn_eq_some.mp hf
  cases hr.symm.trans hbefore
  rw [h.recording]
  exact ⟨u, after, hu, hf⟩

/-- A constraint that a turn accepts is decided after the call. -/
theorem Ballot.decided {v : DAG H × Constraint H} (h : Ballot hash genesis dag call v w)
    (hs : dag.apply hash call = some dag') (ha : Accepts v.1.config v.1.state v.2) :
    decisionOf dag'.state v.2 ≠ none := by
  obtain ⟨state, after, hstate, hafter⟩ := h.later_turns hs
  obtain ⟨state', hstate', hacc, _⟩ := h.recordConstraint_spec
  cases hstate.symm.trans hstate'
  refine NeverClears.loop hafter v.2 ?_
  rw [hacc ha]
  simp

/-- The last call to update the constraint brought its counter to `n`, and did not accept it. -/
def Deferred (hash : Vertex H → H) (past : List (DAG H × Call H)) (c : Constraint H) (n : Nat) :
    Prop :=
  ∃ between s older, past = between ++ s :: older ∧
    (∃ v ∈ s.1.votes hash s.2, v.2 = c ∧ tally v.1.state c = n ∧
      ¬ Accepts v.1.config v.1.state c) ∧
    ∀ t ∈ between, ∀ w b, ¬ Updates hash t w b c

/-- Where a constraint with votes is undecided, its last update did not accept it. -/
theorem deferred_of_undecided (hrun : (DAG.system hash config genesis).Run past dag)
    {cs : ConflictSet H} (hcs : dag.state.lookup c.conflictSetKey = some cs) {n : Nat}
    (hn : cs.count.lookup c = some n) (hn₀ : n ≠ 0) (hdec : decisionOf dag.state c = none) :
    Deferred hash past c n := by
  induction hrun generalizing cs with
  | init hi =>
    rw [DAG.eq_start_of_init hi] at hcs
    exact absurd (count_start hcs hn) hn₀
  | @step past dag dag' call hr hs ih =>
    have hd := sound_of_reachable hr.reachable
    rcases step_count hd hs hcs hn hn₀ with ⟨hno, cs₀, hcs₀, hn', _⟩ | ⟨_, v, hv, rfl, hn', _⟩
    · have hdec₀ : decisionOf dag.state c = none := by
        by_contra hne
        exact apply_never_clears hd hs (Finmap.mem_of_lookup_eq_some hcs₀) hne hdec
      obtain ⟨between, s, older, rfl, hlast, hsince⟩ := ih hcs₀ hn' hdec₀
      refine ⟨(dag, call) :: between, s, older, rfl, hlast, fun t ht => ?_⟩
      rcases List.mem_cons.mp ht with rfl | ht
      · exact hno
      · exact hsince t ht
    · obtain ⟨w, hb⟩ := DAG.exists_ballot hd hv
      refine ⟨[], (dag, call), past, rfl, ⟨v, hv, rfl, hn'.symm, fun ha => ?_⟩, ?_⟩
      · exact hb.decided hs ha hdec
      · exact fun t ht => (List.not_mem_nil ht).elim

/-- A vertex whose commitments are all accepted has the parents of its unity constraint accepted. -/
theorem parentsAccepted_of_commitments (hd : Sound hash genesis dag) {h : H} (hh : h ∈ dag.graph)
    (hall : ∀ p ∈ dag.graph.commitments h, decisionOf dag.state p = some true) :
    ParentsAccepted dag.state (.unity h) := by
  obtain ⟨cs, hcs, hw⟩ := hd.stores.lookup (hd.unity_mem hh)
  obtain ⟨s, hs⟩ := Finmap.mem_iff.mp ((hw.parents (.unity h)).mpr rfl)
  have hps : parentsOf dag.state (.unity h) = some s := by rw [parentsOf, entry_of_lookup hcs, hs]
  refine ⟨s, hps, fun p hp => hall p ?_⟩
  exact (Graph.parentConstraint_unity p h).mp (hd.stores.parents _ s hps p hp).2

/-- No undecided constraint has as many votes as the threshold asks for. One without conflict
that has enough for an early commitment had a parent that was not accepted when it was last
updated, by the call that counted the last of these votes. -/
theorem criterion_unmet_at_last_update (hrun : (DAG.system hash config genesis).Run past dag)
    {cs : ConflictSet H} (hcs : dag.state.lookup c.conflictSetKey = some cs) {n : Nat}
    (hn : cs.count.lookup c = some n) (hdec : decisionOf dag.state c = none) :
    ¬ max 1 config.threshAccepted ≤ n ∧
      (c.left = c.right → max 1 config.threshSafeEarlyCommit ≤ n →
        ∃ between s older, past = between ++ s :: older ∧
          (∀ t ∈ between, ∀ w b, ¬ Updates hash t w b c) ∧
          ∃ v ∈ s.1.votes hash s.2, v.2 = c ∧ tally v.1.state c = n ∧
            ∃ p ∈ s.1.graph.commitments c.left, decisionOf v.1.state p ≠ some true) := by
  have hdef (hn₀ : n ≠ 0) := deferred_of_undecided hrun hcs hn hn₀ hdec
  have hballot {between older : List (DAG H × Call H)} {s : DAG H × Call H} {v : DAG H × Constraint H}
      (hpast : past = between ++ s :: older) (hv : v ∈ s.1.votes hash s.2) :
      (∃ w, Ballot hash genesis s.1 s.2 v w) ∧ v.1.config = config := by
    subst hpast
    have hr := hrun.before.1.reachable
    obtain ⟨w, hb⟩ := DAG.exists_ballot (sound_of_reachable hr) hv
    exact ⟨⟨w, hb⟩, hb.config_eq.trans (config_of_reachable hr)⟩
  constructor
  · intro hle
    obtain ⟨between, s, older, hpast, ⟨v, hv, rfl, htal, hna⟩, _⟩ := hdef (by omega)
    refine hna (Or.inl ?_)
    rw [(hballot hpast hv).2, htal]
    omega
  · intro hlr hle
    obtain ⟨between, s, older, hpast, ⟨v, hv, rfl, htal, hna⟩, hsince⟩ := hdef (by omega)
    obtain ⟨⟨w, hb⟩, hconfig⟩ := hballot hpast hv
    refine ⟨between, s, older, hpast, hsince, v, hv, rfl, htal, ?_⟩
    -- with all parents accepted, the early commitment would have accepted it
    by_contra hall
    push Not at hall
    have hunity := v.2.eq_unity_of_left_eq_right hlr
    have hgraph : v.1.graph = s.1.graph := by rw [hb.recording]; rfl
    refine hna (Or.inr ⟨hlr, ?_, by rw [hconfig, htal]; omega⟩)
    rw [hunity]
    refine parentsAccepted_of_commitments hb.sound ?_ (hgraph ▸ hall)
    exact (hb.sound.shaped.registered_mem (hgraph ▸ hb.registered)).1

/-! A chain of two vertices, with another child of the first one and a tip on the second one. -/

namespace Chain

open Vertex

def p : Vertex Digest := batch 1 1 [Fork.root]
def q : Vertex Digest := batch 2 2 [p]
def r : Vertex Digest := batch 3 2 [p]
def tip : Vertex Digest := batch 4 3 [q]

/-- The result for `r` resets the counter of `p`, while `q` collects two votes. -/
def calls : List (Call Digest) :=
  Fork.run [p, q, r, tip] [q] ++ Op.calls [.recordQueryResult r.wire false] ++ Fork.run [] [tip, p]

end Chain

theorem Chain.run : ∃ dag, (Fork.system ⟨3, 2⟩).Reachable dag ∧
    decisionOf dag.state (.unity Chain.q.wire) = none ∧
    dag.graph.commitments Chain.q.wire = [.unity Chain.p.wire] ∧
    decisionOf dag.state (.unity Chain.p.wire) = some true ∧
    ∃ cs ∈ dag.state.lookup (Constraint.unity Chain.q.wire).conflictSetKey,
      cs.last = .unity Chain.q.wire ∧ cs.count.lookup (.unity Chain.q.wire) = some 2 :=
  reachable_of_run rfl rfl Chain.calls (by decide +kernel)

/-- The second vertex lacked an accepted parent when it got its second vote. -/
theorem criterion_unmet_at_last_update_chain : ∃ past : List (DAG Digest × Call Digest),
    ∃ between s older, past = between ++ s :: older ∧
      (∀ t ∈ between, ∀ w b, ¬ Updates Vertex.wire t w b (.unity Chain.q.wire)) ∧
      ∃ v ∈ s.1.votes Vertex.wire s.2, v.2 = .unity Chain.q.wire ∧ tally v.1.state v.2 = 2 ∧
        ∃ p ∈ s.1.graph.commitments Chain.q.wire, decisionOf v.1.state p ≠ some true := by
  obtain ⟨dag, hr, hdec, _, _, cs, hcs, _, hn⟩ := Chain.run
  obtain ⟨past, hpast⟩ := hr.exists_run
  obtain ⟨between, s, older, hp, hsince, v, hv, hvc, htal, hparent⟩ :=
    (criterion_unmet_at_last_update hpast hcs hn hdec).2 rfl (by decide)
  exact ⟨past, between, s, older, hp, hsince, v, hv, hvc, hvc ▸ htal, hparent⟩

/-- The vote that accepts the first vertex of the chain does not look at the second one again, which
then has enough votes for an early commitment and only accepted parents. -/
theorem left_pending : Vertex.CollisionFree Vertex.wire Set.univ ∧
    ∃ dag, (Fork.system ⟨3, 2⟩).Reachable dag ∧
      decisionOf dag.state (.unity Chain.q.wire) = none ∧
      dag.graph.commitments Chain.q.wire = [.unity Chain.p.wire] ∧
      decisionOf dag.state (.unity Chain.p.wire) = some true ∧
      ∃ cs, dag.state.lookup (Constraint.unity Chain.q.wire).conflictSetKey = some cs ∧
        cs.last = .unity Chain.q.wire ∧ cs.count.lookup (.unity Chain.q.wire) = some 2 :=
  ⟨Vertex.wire_collisionFree _, Chain.run⟩

end Taurus
