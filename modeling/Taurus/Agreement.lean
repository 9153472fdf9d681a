import Taurus.Coherence
import Taurus.Frontier

namespace Taurus

variable {H : Type} [LinearOrder H] {hash : Vertex H → H} {it it' : HashOrders H}
  {config : Config} {genesis vx : Vertex H} {dag dag' : DAG H} {s t : StateMap H}
  {c d : Constraint H} {l : List (Constraint H)} {v w : H}

theorem prefers_insert {k : ConflictSetKey H} {cs : ConflictSet H} :
    Prefers (s.insert k cs) d ↔ if d.conflictSetKey = k then cs.preferred = d else Prefers s d := by
  rw [Prefers, HashMap.lookup_insert]
  split <;> simp [Prefers]

theorem OnlyDecides.prefers_iff (h : OnlyDecides s t) (d : Constraint H) :
    Prefers t d ↔ Prefers s d := by
  have hk := congrArg (Option.map ConflictSet.preferred) (h d.conflictSetKey)
  simp only [Option.map_map] at hk
  change (t.lookup d.conflictSetKey).map ConflictSet.preferred =
    (s.lookup d.conflictSetKey).map ConflictSet.preferred at hk
  rw [Prefers, Prefers, ← Option.map_eq_some_iff, ← Option.map_eq_some_iff, hk]

/-- Is each accepted constraint the preferred one of its set? -/
def PrefersAccepted (s : StateMap H) : Prop := ∀ d, decisionOf s d = some true → Prefers s d

/-- A positive vote keeps that up, unless it is for the opposite of an accepted constraint. -/
theorem PrefersAccepted.voteFor {depth : Nat} (hP : PrefersAccepted s)
    (hsw : c.left ≠ c.right → decisionOf s c.swap ≠ some true)
    (h : DAG.voteFor it config depth s c = some t) : PrefersAccepted t := by
  intro d hd
  -- what else in the set of `c` might be accepted is its opposite
  have hset (hk : d.conflictSetKey = c.conflictSetKey) (hs : decisionOf s d = some true) :
      d = c := by
    rcases (Constraint.conflictSetKey_eq_iff d c).mp hk with he | rfl
    · exact he
    · by_cases hne : c.left = c.right
      · rw [c.eq_unity_of_left_eq_right hne]
        rfl
      · exact absurd hs (hsw hne)
  obtain ⟨cs, cs', hcs, hcounted, rfl | ⟨accepted, rfl, haccept⟩⟩ := voteFor_cases h
  · rw [decisionOf_insert_of_eq hcs hcounted.decision] at hd
    rw [prefers_insert]
    split
    · next hk =>
      have hp := hP d hd
      rw [hset hk hd] at hp ⊢
      exact hcounted.preferred.elim id fun he => he.trans ((prefers_iff hcs).mp hp)
    · exact hP d hd
  · -- rejecting the progeny of the opposite moves no preference
    rw [Finmap.insert_insert] at haccept
    have hdec : OnlyDecides (s.insert c.conflictSetKey
        { cs' with decision := cs'.decision.insert c true, preferred := c }) t := by
      rcases haccept with ⟨_, rfl⟩ | ⟨_, _, _, hrej⟩
      · exact fun _ => rfl
      · exact rejectProgeny_onlyDecides hrej
    rw [hdec.prefers_iff, prefers_insert]
    rcases voteFor_accepts_only h d hd with rfl | hs
    · rw [if_pos rfl]
    · split
      · next hk => exact (hset hk hs).symm
      · exact hP d hs

theorem PrefersAccepted.voteFor_loop (hl : ∀ c ∈ l, c.left ≠ c.right → c.swap ∉ l)
    (hs : ∀ c ∈ l, c.left ≠ c.right → decisionOf s c.swap ≠ some true) (hP : PrefersAccepted s)
    (h : l.foldlM (dag.recordConstraint it true) s = some t) : PrefersAccepted t := by
  induction l generalizing s with
  | nil =>
    cases h
    exact hP
  | cons c l ih =>
    obtain ⟨r, hr, h⟩ := foldlM_cons_eq_some.mp h
    have hvote : DAG.voteFor it dag.config dag.depth s c = some r := hr
    refine ih (fun d hd hne hsw => hl d (.tail c hd) hne (.tail c hsw)) (fun d hd hne hsw => ?_)
      (hP.voteFor (hs c List.mem_cons_self) hvote) h
    -- an opposite accepted by this vote would be in the list, too
    rcases voteFor_accepts_only hvote _ hsw with he | hsw
    · exact hl d (.tail c hd) hne (he ▸ List.mem_cons_self)
    · exact hs d (.tail c hd) hne hsw

/-- An insertion decides nothing but rejections. -/
theorem PrefersAccepted.attempt (hP : PrefersAccepted dag.state) (hd : Sound hash genesis dag)
    (ha : Attempt hash it vx dag dag') : PrefersAccepted dag'.state := by
  intro d hacc
  have hold : decisionOf dag.state d = some true := by
    rcases ha.passes_or_kept hd with ⟨_, hs⟩ | ⟨_, hi⟩
    · rwa [hs] at hacc
    · rcases hi.state.decisions.origin d true hacc with hold | ⟨hf, _⟩
      · exact hold
      · cases hf
  exact (ha.grown.prefers_iff (mem_of_entry hold)).mpr (hP d hold)

theorem PrefersAccepted.record {b : Bool} (h : (DAG.system hash config genesis).Reachable dag)
    (hd' : Sound hash genesis dag') (hP : PrefersAccepted dag.state)
    (hok : dag.recordQueryResult hash it w b = .ok dag') : PrefersAccepted dag'.state := by
  obtain ⟨vx, start, cs, state, hl, hf, rfl⟩ := RecordLoop.of_ok h hok
  cases b with
  | false =>
    have hc := Continues.of_negative hok
    intro d hacc
    have hreg : dag.graph.Registered d := hd'.accepted_registered d hacc
    rw [hc.decisions d hreg] at hacc
    exact (hc.preferences d hreg).mpr (hP d hacc)
  | true =>
    have hcont := recording_continues hl.award
    have hstart : PrefersAccepted start := by
      intro d hacc
      have hreg := hl.sound.accepted_registered d hacc
      exact (hcont.preferences d hreg).mpr (hP d (hl.decisions ▸ hacc))
    refine hstart.voteFor_loop hl.one_sided (fun c hc hne hsw => ?_) hf
    -- the opposite of something accepted is rejected, so it is not listed
    have hrej : decisionOf start c = some false := hl.sound.exclusive c.swap c
      ((Constraint.conflict_eq_some _ _).mpr ⟨hne.symm, rfl⟩) hsw
    rcases List.mem_append.mp hc with hc | hc
    · have hnone := ((hl.mem_iff c).mp hc).1
      rw [← hl.decisions, hrej] at hnone
      cases hnone
    · rw [List.mem_singleton.mp hc] at hne
      exact hne rfl

/-- The preferred constraint of a set with an accepted one is that one, for good. -/
theorem prefersAccepted_of_reachable (h : (DAG.system hash config genesis).Reachable dag) :
    PrefersAccepted dag.state := by
  induction h with
  | @init s hi =>
    rw [DAG.eq_start_of_init hi]
    intro d hd
    rw [DAG.decisionOf_start] at hd
    split at hd
    swap
    · cases hd
    next he =>
      subst he
      have hs : Sound hash genesis (DAG.start hash config genesis) := .start config hi.1
      exact prefers_unity hs (Graph.registered_unity hs.shaped.root_mem) rfl
  | @step s t call hr _ hs hP =>
    have hd := sound_of_reachable hr
    rcases apply_cases hs with ⟨vx, _, ha⟩ | ⟨hashes, _, hret⟩ | ⟨w, b, _, ⟨_, rfl⟩ | hok⟩
    · exact hP.attempt hd ha
    · exact (hret.induct (P := fun s => PrefersAccepted s.state) hd hP
        fun _ _ _ _ hs hP _ ha => hP.attempt hs ha).2
    · exact hP
    · exact hP.record hr (sound_of_reachable (hr.step trivial hs)) hok

/-- Whatever an undecided vertex commits to is preferred once it is decided. -/
theorem prefers_of_decided (h : (DAG.system hash config genesis).Reachable dag)
    (hu : dag.decisionOn v = none) (hc : c ∈ dag.graph.commitments v)
    (hdec : decisionOf dag.state c ≠ none) : Prefers dag.state c := by
  have hd := sound_of_reachable h
  obtain ⟨b, hb⟩ := Option.ne_none_iff_exists'.mp hdec
  cases b with
  | true => exact prefersAccepted_of_reachable h c hb
  | false => exact absurd hu (hd.decided (.unity v) (by simp) c (Graph.child_unity hc) hb)

/-- A query of an undecided vertex agrees with what `is_preferred` says of the vertex and of its
active ancestors. -/
theorem query_agrees (h : (DAG.system hash config genesis).Reachable dag) (it it' : HashOrders H)
    (hv : dag.graph.lookup v = some vx) (hu : dag.decisionOn v = none) :
    ∃ l, dag.getActiveAncestors hash it' vx = .ok l ∧
      (dag.query hash it v = .ok (true, false) ↔
        dag.isPreferred v = .ok true ∧ ∀ x ∈ l, dag.isPreferred x = .ok true) ∧
      (¬ (dag.isPreferred v = .ok true ∧ ∀ x ∈ l, dag.isPreferred x = .ok true) →
        dag.query hash it v = .ok (false, false)) := by
  have hd := sound_of_reachable h
  have hm : v ∈ dag.graph := Finmap.mem_of_lookup_eq_some hv
  obtain ⟨wx, hw, hlegal⟩ := hd.exists_parent hm hu
  cases hv.symm.trans hw
  have hnr (p : H) (hp : p ∈ vx.parents) : dag.decisionOn p ≠ some false :=
    hd.parent_not_rejected ⟨vx, hv, hp⟩ hu
  obtain ⟨l, hl, hmem, _⟩ := (getActiveAncestors_spec it' hd hlegal.nonempty hlegal.inserted).2.2
    hnr hlegal.antichain
  -- for an undecided vertex `is_preferred` comes down to the undecided constraints
  have hpref (x : H) (hx : x ∈ dag.graph) (hux : dag.decisionOn x = none) :
      dag.isPreferred x = .ok true ↔
        ∀ c ∈ dag.graph.commitments x, decisionOf dag.state c = none → Prefers dag.state c := by
    obtain ⟨xx, hxx⟩ := Finmap.mem_iff.mp hx
    obtain ⟨b, hb, hiff⟩ := isPreferred_spec hd hxx
    rw [hb, Outcome.ok.injEq, hiff, Graph.commitments_of_lookup hxx]
    refine forall_congr' fun c => imp_congr_right fun hc => ⟨fun hp _ => hp, fun hp => ?_⟩
    by_cases hdec : decisionOf dag.state c = none
    · exact hp hdec
    · exact prefers_of_decided h hux (by rwa [Graph.commitments_of_lookup hxx]) hdec
  have hall : (dag.isPreferred v = .ok true ∧ ∀ x ∈ l, dag.isPreferred x = .ok true) ↔
      ∀ c, dag.ActiveConstraint c vx → Prefers dag.state c := by
    rw [hpref v hm hu, Graph.commitments_of_lookup hv]
    constructor
    · rintro ⟨hown, hanc⟩ c ⟨huc, hc | ⟨a, ha, hc⟩⟩
      · exact hown c hc huc
      · exact (hpref a (ha.mem hd hlegal.inserted) ha.1).mp (hanc a ((hmem a).mpr ha)) c hc huc
    · intro hact
      refine ⟨fun c hc huc => hact c ⟨huc, Or.inl hc⟩, fun a ha => ?_⟩
      have ha := (hmem a).mp ha
      exact (hpref a (ha.mem hd hlegal.inserted) ha.1).mpr fun c hc huc =>
        hact c ⟨huc, Or.inr ⟨a, ha, hc⟩⟩
  obtain ⟨b, hb, hiff⟩ := query_undecided it hd hv hu
  refine ⟨l, hl, ?_, fun hn => ?_⟩
  · rw [hall, ← hiff, hb, Outcome.ok.injEq, Prod.mk.injEq]
    exact and_iff_left rfl
  · rw [hall, ← hiff, Bool.not_eq_true] at hn
    rw [hb, hn]

theorem query_agrees_fork : ∃ (dag : DAG Digest) (l : List Digest),
    dag.getActiveAncestors Vertex.wire .ascending Fork.abTip = .ok l ∧
      (dag.query Vertex.wire .ascending Fork.abTip.wire = .ok (true, false) ↔
        dag.isPreferred Fork.abTip.wire = .ok true ∧ ∀ x ∈ l, dag.isPreferred x = .ok true) := by
  have hrun : ∃ dag, (Fork.system ⟨2, 2⟩).Reachable dag ∧
      dag.graph.lookup Fork.abTip.wire = some Fork.abTip ∧
      dag.decisionOn Fork.abTip.wire = none :=
    reachable_of_run rfl rfl (Fork.run [Fork.a, Fork.b, Fork.ab, Fork.abTip] [Fork.ab])
      (by decide +kernel)
  obtain ⟨dag, hr, hv, hu⟩ := hrun
  obtain ⟨l, hl, hagree, _⟩ := query_agrees hr .ascending .ascending hv hu
  exact ⟨dag, l, hl, hagree⟩

end Taurus
