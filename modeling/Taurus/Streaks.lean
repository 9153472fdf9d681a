import Taurus.Ballots

namespace Taurus

variable {H : Type} [LinearOrder H] {hash : Vertex H → H} {config : Config} {genesis : Vertex H}
  {dag dag' : DAG H} {call : Call H} {past : List (DAG H × Call H)} {c : Constraint H} {w : H}

/-- The vertices, last one first, by whose positive results the constraint was updated without
being reset in between. -/
def Streak (hash : Vertex H → H) (past : List (DAG H × Call H)) (c : Constraint H)
    (voters : List H) : Prop :=
  ∃ between s older first others, past = between ++ s :: older ∧ voters = others ++ [first] ∧
    Updates hash s first true c ∧ (∀ v ∈ others, ∃ t ∈ between, Updates hash t v true c) ∧
    ∀ t ∈ between, ¬ Resets hash t c

namespace Streak

variable {s : DAG H × Call H} {voters : List H}

theorem first (hu : Updates hash s w true c) : Streak hash (s :: past) c [w] :=
  ⟨[], s, past, w, [], rfl, rfl, hu, fun _ h => (List.not_mem_nil h).elim,
    fun _ h => (List.not_mem_nil h).elim⟩

theorem keep (h : Streak hash past c voters) (hs : ¬ Resets hash s c) :
    Streak hash (s :: past) c voters := by
  obtain ⟨between, s₀, older, v₀, others, rfl, rfl, hu, hothers, hno⟩ := h
  refine ⟨s :: between, s₀, older, v₀, others, rfl, rfl, hu, fun v hv => ?_, fun t ht => ?_⟩
  · obtain ⟨t, ht, hut⟩ := hothers v hv
    exact ⟨t, List.mem_cons_of_mem _ ht, hut⟩
  · rcases List.mem_cons.mp ht with rfl | ht
    · exact hs
    · exact hno t ht

theorem vote (h : Streak hash past c voters) (hs : ¬ Resets hash s c)
    (hu : Updates hash s w true c) : Streak hash (s :: past) c (w :: voters) := by
  obtain ⟨between, s₀, older, v₀, others, rfl, rfl, hu₀, hothers, hno⟩ := h
  refine ⟨s :: between, s₀, older, v₀, w :: others, rfl, rfl, hu₀, fun v hv => ?_, fun t ht => ?_⟩
  · rcases List.mem_cons.mp hv with rfl | hv
    · exact ⟨s, List.mem_cons_self, hu⟩
    · obtain ⟨t, ht, hut⟩ := hothers v hv
      exact ⟨t, List.mem_cons_of_mem _ ht, hut⟩
  · rcases List.mem_cons.mp ht with rfl | ht
    · exact hs
    · exact hno t ht

theorem recorded (h : Streak hash past c voters) {v : H} (hv : v ∈ voters) :
    ∃ s ∈ past, Records hash s v := by
  obtain ⟨between, s₀, older, v₀, others, rfl, rfl, hu₀, hothers, _⟩ := h
  rcases List.mem_append.mp hv with hv | hv
  · obtain ⟨t, ht, hut⟩ := hothers v hv
    exact ⟨t, List.mem_append_left _ ht, hut.2.1⟩
  · rw [List.mem_singleton.mp hv]
    exact ⟨s₀, List.mem_append_right _ List.mem_cons_self, hu₀.2.1⟩

end Streak

/-- The counter of the last constraint voted for counts the voters of a streak. -/
def Counted (hash : Vertex H → H) (past : List (DAG H × Call H)) (state : StateMap H) : Prop :=
  ∀ c cs n, state.lookup c.conflictSetKey = some cs → cs.last = c → cs.count.lookup c = some n →
    n ≠ 0 → ∃ voters, Streak hash past c voters ∧ voters.Nodup ∧ voters.length = n

/-- Behind the counter that a turn brings its constraint to stand as many voters: a streak,
and the vertex whose result is recorded. -/
theorem voters_of_tally (hC : Counted hash past dag.state) (hB : Booked hash genesis past dag)
    (hw : w ∈ dag.pendingQuery) {n : Nat}
    (hn : n = 1 ∨ ∃ cs, dag.state.lookup c.conflictSetKey = some cs ∧ cs.last = c ∧
      n = (cs.count.lookup c).getD 0 + 1) :
    ∃ voters, (voters = [] ∨ Streak hash past c voters) ∧ (w :: voters).Nodup ∧
      (w :: voters).length = n := by
  rcases hn with rfl | ⟨cs, hcs, hl, rfl⟩
  · exact ⟨[], Or.inl rfl, List.nodup_singleton w, rfl⟩
  cases hcn : cs.count.lookup c with
  | none => exact ⟨[], Or.inl rfl, List.nodup_singleton w, rfl⟩
  | some m =>
    by_cases hm : m = 0
    · exact ⟨[], Or.inl rfl, List.nodup_singleton w, by rw [hm]; rfl⟩
    obtain ⟨voters, hst, hnd, hlen⟩ := hC c cs m hcs hl hcn hm
    refine ⟨voters, Or.inr hst, List.nodup_cons.mpr ⟨fun hwv => ?_, hnd⟩, by simp [hlen]⟩
    -- a vertex that is still pending has not voted before
    obtain ⟨s, hs, hr⟩ := hst.recorded hwv
    exact ((hB.pending_iff w).mp hw).2.2 s hs hr

theorem Counted.of_run (hrun : (DAG.system hash config genesis).Run past dag) :
    Counted hash past dag.state := by
  induction hrun with
  | init hi =>
    rw [DAG.eq_start_of_init hi]
    intro c cs n hcs _ hn hn₀
    exact absurd (count_start hcs hn) hn₀
  | @step past dag dag' call hr hs ih =>
    have hd := sound_of_reachable hr.reachable
    intro c cs' n hcs' hl hn hn₀
    rcases step_count hd hs hcs' hn hn₀ with ⟨_, cs, hcs, hcn, hlast⟩ | ⟨w, v, hv, rfl, _, hu, htal⟩
    -- untouched by the step, the counter keeps its streak
    · obtain ⟨hls, hno⟩ := hlast hl
      obtain ⟨voters, hst, hnd, hlen⟩ := ih c cs n hcs hls hcn hn₀
      exact ⟨voters, hst.keep hno, hnd, hlen⟩
    -- a turn of the step starts a streak, or continues the one from before the call
    rcases htal hl with rfl | ⟨cs, hcs, hls, hcn, hno⟩
    · exact ⟨[w], .first hu, List.nodup_singleton w, rfl⟩
    obtain ⟨voters, hst, hnd, hlen⟩ := voters_of_tally ih (.of_run hr) hu.2.1.pending
      (Or.inr ⟨cs, hcs, hls, hcn⟩)
    refine ⟨w :: voters, ?_, hnd, hlen⟩
    rcases hst with rfl | hst
    · exact .first hu
    · exact hst.vote hno hu

/-- Behind every acceptance stands a streak of votes: distinct vertices, none of which votes
twice, as many as the threshold asks for. -/
theorem votes_behind_acceptance
    (hrun : (DAG.system hash config genesis).Run ((dag, call) :: past) dag')
    (hacc : dag.AcceptsIn hash call c) :
    ∃ w voters, Updates hash (dag, call) w true c ∧
      (voters = [] ∨ Streak hash past c voters) ∧ (w :: voters).Nodup ∧
      (((dag, call) :: past).Pairwise fun s t => ∀ h, Records hash s h → ¬ Records hash t h) ∧
      (config.threshAccepted ≤ (w :: voters).length ∨
        ∃ h, c = .unity h ∧ (∃ v ∈ dag.votes hash call, v.2 = c ∧
          ∀ p ∈ dag.graph.commitments h, decisionOf v.1.state p = some true) ∧
        config.threshSafeEarlyCommit ≤ (w :: voters).length) := by
  have hB : Booked hash genesis ((dag, call) :: past) dag' := .of_run hrun
  cases hrun with
  | step hr hs =>
    have hd := sound_of_reachable hr.reachable
    obtain ⟨v, hv, rfl, hne, state, hstate, hdec⟩ := hacc
    obtain ⟨w, hb⟩ := DAG.exists_ballot hd hv
    obtain ⟨state', hstate', _, hrest⟩ := hb.recordConstraint_spec
    cases hstate.symm.trans hstate'
    -- the turn decides the constraint, so the criterion is met when it starts
    have haccepts : Accepts v.1.config v.1.state v.2 := by
      by_contra hn
      exact hne (hrest hn ▸ hdec)
    have hrecords : Records hash (dag, call) w := .of_pending hs hb.op hb.pending
    -- other constraints updated before it in the call do not touch its counter
    obtain ⟨voters, hst, hnd, hlen⟩ : ∃ voters, (voters = [] ∨ Streak hash past v.2 voters) ∧
        (w :: voters).Nodup ∧ (w :: voters).length = tally v.1.state v.2 := by
      obtain ⟨state₀, before, after, haward, hl, hbefore⟩ := hb.turn
      have hcb : v.2 ∉ before := fun h =>
        (List.nodup_append.mp (hl ▸ hb.nodup)).2.2 _ h _ List.mem_cons_self rfl
      refine voters_of_tally (.of_run hr) (.of_run hr) hb.pending ?_
      refine (tally_of_turns haward hbefore hcb ?_).imp_right ?_
      · refine hb.sound.stores.mem_of_registered ?_
        rw [hb.recording]
        exact hb.registered
      · rintro ⟨cs, hcs, hls, htal, _⟩
        exact ⟨cs, hcs, hls, htal⟩
    refine ⟨w, voters, ⟨hb.op, hrecords, hb.mem_updates⟩, hst, hnd, hB.once, ?_⟩
    have hconfig : v.1.config = config := hb.config_eq.trans (config_of_reachable hr.reachable)
    rw [Accepts, hconfig, ← hlen] at haccepts
    refine haccepts.imp_right ?_
    rintro ⟨hlr, hpa, hn⟩
    have hunity := v.2.eq_unity_of_left_eq_right hlr
    refine ⟨v.2.left, hunity, ⟨v, hv, rfl, fun p hp => ?_⟩, hn⟩
    rw [hunity] at hpa
    refine parentsAccepted_unity hb.sound hpa ?_
    rw [hb.recording]
    exact hp

/-- Two branches that agree on an ordering make two votes for it. -/
theorem votes_behind_acceptance_twin : ∃ past w voters,
    (voters = [] ∨ Streak Vertex.wire past ⟨Fork.a.wire, Fork.b.wire⟩ voters) ∧
      (w :: voters).Nodup ∧ 2 ≤ (w :: voters).length := by
  have hrun : ∃ dag, (Fork.system ⟨2, 2⟩).Reachable dag ∧ ∃ dag' ∈
      dag.apply Vertex.wire ⟨.recordQueryResult Fork.abTwin.wire true, .ascending⟩,
      dag.AcceptsIn Vertex.wire ⟨.recordQueryResult Fork.abTwin.wire true, .ascending⟩
        ⟨Fork.a.wire, Fork.b.wire⟩ :=
    reachable_of_run rfl rfl (Fork.run [Fork.a, Fork.b, Fork.ab, Fork.abTwin] [Fork.ab])
      (by decide +kernel)
  obtain ⟨dag, hr, dag', hs, hacc⟩ := hrun
  obtain ⟨past, hpast⟩ := hr.exists_run
  have hstep : (Fork.system ⟨2, 2⟩).step dag
      ⟨.recordQueryResult Fork.abTwin.wire true, .ascending⟩ = some dag' := hs
  obtain ⟨w, voters, _, hst, hnd, _, hlen⟩ := votes_behind_acceptance (.step hpast hstep) hacc
  refine ⟨past, w, voters, hst, hnd, hlen.resolve_right ?_⟩
  rintro ⟨h, he, _⟩
  exact absurd ((congrArg Constraint.left he).trans (congrArg Constraint.right he).symm) (by decide)

end Taurus
