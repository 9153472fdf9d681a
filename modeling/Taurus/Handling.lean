import Taurus.Growth
import Taurus.Network
import Taurus.Proposal

namespace Taurus

variable {H P Ch : Type} [LinearOrder H] {hash : Vertex H → H} {it : HashOrders H} {rng : Rng H}
  {genesis vx : Vertex H} {dagConfig : Taurus.Config} {dag dag' : DAG H} {v w : H} {b : Bool}

/-- A submission is an attempt to insert the vertex, followed by retries of others. -/
theorem submitVertex_cases {resp : Except (Error H) (HashSet H)}
    (h : dag.submitVertex hash it vx = some (resp, dag')) :
    ∃ dag₁, Attempt hash it vx dag dag₁ ∧ Retries hash it dag₁ dag' := by
  obtain ⟨⟨resp', dag₁⟩, ht, h⟩ := Option.bind_eq_some_iff.mp h
  refine ⟨dag₁, ⟨resp', ht⟩, ?_⟩
  cases resp' with
  | error e =>
    cases h
    exact .refl
  | ok waiting =>
    obtain ⟨⟨successes, dag₂⟩, hr, h⟩ := Option.bind_eq_some_iff.mp h
    cases h
    exact retryLoop_retries hr

/-- A submission awards no chits, and what it inserts is pending. -/
theorem submitVertex_frame {resp : Except (Error H) (HashSet H)} (hd : Sound hash genesis dag)
    (h : dag.submitVertex hash it vx = some (resp, dag')) :
    SameChits dag.state dag'.state ∧ Enrolls dag dag' := by
  obtain ⟨dag₁, ha, hr⟩ := submitVertex_cases h
  refine ⟨(SameChits.attempt ha).trans ?_, (Enrolls.of_attempt hd ha).trans (.of_retries (ha.sound hd) hr)⟩
  exact (hr.induct (P := fun t => SameChits dag₁.state t.state) (ha.sound hd) (.refl _)
    fun _ _ _ _ _ hP _ ha => hP.trans (.attempt ha)).2

/-- What a submission does to the graph, calls of `try_insert` and `retry_pending` do. -/
theorem submitVertex_leads {resp : Except (Error H) (HashSet H)}
    (h : dag.submitVertex hash it vx = some (resp, dag')) :
    (DAG.system hash dagConfig genesis).LeadsWhen (fun _ _ => True) dag dag' := by
  obtain ⟨⟨resp', dag₁⟩, ht, h⟩ := Option.bind_eq_some_iff.mp h
  have htry : (DAG.system hash dagConfig genesis).step dag ⟨.tryInsert vx, it⟩ = some dag₁ := by
    simp only [DAG.system, DAG.apply, ht, Option.map_some]
  have htried : (DAG.system hash dagConfig genesis).LeadsWhen (fun _ _ => True) dag dag₁ :=
    .step (.refl dag) trivial htry
  cases resp' with
  | error e =>
    cases h
    exact htried
  | ok waiting =>
    obtain ⟨⟨successes, dag₂⟩, hr, h⟩ := Option.bind_eq_some_iff.mp h
    cases h
    have hretry : (DAG.system hash dagConfig genesis).step dag₁
        ⟨.retryPending (it.vertices.order (some (hash vx)) waiting), it⟩ = some dag' := by
      simp only [DAG.system, DAG.apply, hr, Option.map_some]
    exact .step htried trivial hretry

/-- A vertex whose result is refused is not pending. -/
theorem not_pending_of_err {e : Error H} (he : dag.recordQueryResult hash it v b = .err e) :
    v ∉ dag.pendingQuery := by
  intro hv
  -- the result of a pending vertex is recorded, not refused
  have hs : dag.apply hash ⟨.recordQueryResult v b, it⟩ = some dag := by simp only [DAG.apply, he]
  have hrecords : Records hash (dag, ⟨.recordQueryResult v b, it⟩) v := .of_pending hs rfl hv
  obtain ⟨b', dag', ho, hok⟩ := hrecords
  cases ho
  cases he.symm.trans hok

/-- The only chit that a result awards is for its own vertex. -/
theorem chit_of_record (hok : dag.recordQueryResult hash it w b = .ok dag')
    (hv : chitOf dag'.state (.unity v) = some true) :
    chitOf dag.state (.unity v) = some true ∨ w = v ∧ b = true := by
  obtain ⟨_, dag₁, cs, state, _, hb, hf, rfl⟩ := recordQueryResult_eq_ok.mp hok
  obtain ⟨state₀, _, haward, rfl, _, _⟩ := beginRecord_eq_some hb
  have hv₀ : chitOf state₀ (.unity v) = some true := (SameChits.loop hf _).mp hv
  cases b with
  | false =>
    cases haward
    exact Or.inl hv₀
  | true =>
    rcases (chitOf_award haward _).mp hv₀ with hvw | hold
    · exact Or.inr ⟨((Constraint.unity_inj v w).mp hvw).symm, rfl⟩
    · exact Or.inl hold

/-- The vertices of the frontier are inserted, childless and strongly preferred. -/
theorem mem_getFrontier {frontier : List (Vertex H)}
    (hr : (DAG.system hash dagConfig genesis).Reachable dag)
    (hf : dag.getFrontier hash it = some frontier) (hv : vx ∈ frontier) :
    dag.graph.Childless (hash vx) ∧ dag.StronglyPreferred (hash vx) := by
  have hd : Sound hash genesis dag := sound_of_reachable hr
  obtain ⟨l, kept, hl, hperm, _, hkept⟩ := getFrontier_spec it hd
  cases hf.symm.trans hl
  obtain ⟨k, hk, hkv⟩ := List.mem_filterMap.mp (hperm.mem_iff.mp hv)
  have hhash : hash vx = k :=
    hd.hash_eq k vx (hd.inserted_known k vx (frontier_inserted hr k vx hkv))
  rw [hhash]
  obtain ⟨hfront, hsp⟩ := (hkept k).mp hk
  exact ⟨(hd.frontier_iff k).mp hfront, hsp⟩

/-- Who answers that it prefers a vertex holds it, and strongly prefers it. -/
theorem stronglyPreferred_of_query {final : Bool} (hd : Sound hash genesis dag)
    (hq : dag.query hash it v = .ok (true, final)) :
    v ∈ dag.graph ∧ dag.StronglyPreferred v := by
  have hv : v ∈ dag.graph := by
    by_contra hn
    rcases query_outside hash it hn with he | he <;> cases hq.symm.trans he
  obtain ⟨b, hb, hsp⟩ := query_spec it hd hv
  cases hq.symm.trans hb
  exact ⟨hv, hsp.mp rfl⟩

namespace Task

variable [DecidableEq P] {task task' : Task H P} {action : Action H P Ch}
  {effects : List (Effect H P Ch)}

/-- What the task does for an action. -/
inductive Performs (hash : Vertex H → H) (it : HashOrders H) (rng : Rng H) (task : Task H P) :
    Action H P Ch → Task H P → List (Effect H P Ch) → Prop
  | added (validator : P) : Performs hash it rng task (.addValidator validator)
      { task with validators := task.validators.insert validator } []
  | frontier {frontier : List (Vertex H)} (resultCh : Ch) :
      task.dag.getFrontier hash it = some frontier →
      Performs hash it rng task (.getAcceptedFrontier resultCh) task [.sendFrontier resultCh frontier]
  | preference {vhash : H} {preference : Bool × Bool} (resultCh : Ch) :
      task.dag.query hash it vhash = .ok preference →
      Performs hash it rng task (.getPreference vhash resultCh) task
        [.sendPreference resultCh (some preference)]
  | unknown {vhash : H} {e : Taurus.Error H} (resultCh : Ch) : task.dag.query hash it vhash = .err e →
      Performs hash it rng task (.getPreference vhash resultCh) task [.sendPreference resultCh none]
  | vertex (vhash : H) (resultCh : Ch) : Performs hash it rng task (.getVertex vhash resultCh) task
      [.sendVertex resultCh (task.dag.vertex.lookup vhash)]
  | recorded {vhash : H} {preference : Bool} {dag : DAG H} :
      task.dag.recordQueryResult hash it vhash preference = .ok dag →
      Performs hash it rng task (.recordPeerPreference vhash preference) { task with dag := dag } []
  | dropped {vhash : H} {preference : Bool} {e : Taurus.Error H} :
      task.dag.recordQueryResult hash it vhash preference = .err e →
      Performs hash it rng task (.recordPeerPreference vhash preference) task []
  | inserted {vx : Vertex H} {waiting : HashSet H} {dag : DAG H} {frontier : List (Vertex H)}
      (resultCh : Ch) : task.dag.submitVertex hash it vx = some (.ok waiting, dag) →
      dag.getFrontier hash it = some frontier →
      Performs hash it rng task (.submitVertex vx resultCh) { task with dag := dag }
        (({ task with dag := dag }.pollsters hash rng frontier).map .startPollster ++
          [.newFrontier frontier, .sendInserted resultCh (.ok waiting)])
  | refused {vx : Vertex H} {e : Taurus.Error H} {dag : DAG H} (resultCh : Ch) :
      task.dag.submitVertex hash it vx = some (.error e, dag) →
      Performs hash it rng task (.submitVertex vx resultCh) { task with dag := dag }
        [.sendInserted resultCh (.error e)]

theorem performs_of_handle (h : task.handle hash it rng action = some (task', effects)) :
    Performs hash it rng task action task' effects := by
  cases action with
  | addValidator validator =>
    cases h
    exact .added validator
  | getAcceptedFrontier resultCh =>
    obtain ⟨frontier, hf, h⟩ := Option.bind_eq_some_iff.mp h
    cases h
    exact .frontier resultCh hf
  | getPreference vhash resultCh =>
    -- an error of the query is sent as no preference
    simp only [handle] at h
    split at h
    · next hq =>
      cases h
      exact .preference resultCh hq
    · next hq =>
      cases h
      exact .unknown resultCh hq
    · cases h
  | getVertex vhash resultCh =>
    cases h
    exact .vertex vhash resultCh
  | recordPeerPreference vhash preference =>
    -- an error leaves the graph as it is, and nobody hears of it
    simp only [handle] at h
    split at h
    · next hok =>
      cases h
      exact .recorded hok
    · next he =>
      cases h
      exact .dropped he
    · cases h
  | submitVertex vx resultCh =>
    obtain ⟨⟨resp, dag⟩, hs, h⟩ := Option.bind_eq_some_iff.mp h
    cases resp with
    | error e =>
      cases h
      exact .refused resultCh hs
    | ok waiting =>
      obtain ⟨frontier, hf, h⟩ := Option.bind_eq_some_iff.mp h
      cases h
      exact .inserted resultCh hs hf

/-- The validators that are polled are validators of the task. -/
theorem mem_getValidatorsForQuery {config : Config} {validators : List P}
    {draws : List (Fin validators.length)} {peers : HashSet P}
    (h : getValidatorsForQuery config validators draws = .ok peers) :
    ∀ p ∈ peers, p ∈ validators := by
  unfold getValidatorsForQuery at h
  split at h
  · cases h
  cases h
  intro p hp
  obtain ⟨i, _, rfl⟩ := List.mem_map.mp (List.mem_toFinset.mp hp)
  exact List.get_mem validators i

theorem queryCount_le {config : Config} {validators : List P}
    {draws : List (Fin validators.length)} {peers : HashSet P}
    (h : getValidatorsForQuery config validators draws = .ok peers) :
    config.queryCount ≤ validators.length := by
  unfold getValidatorsForQuery at h
  split at h
  · cases h
  · next hn => exact Nat.le_of_not_lt hn

omit [LinearOrder H] in
theorem mem_pollsters {frontier : List (Vertex H)} {pollster : Pollster H P} :
    pollster ∈ task.pollsters hash rng frontier ↔ ∃ vx ∈ frontier, ∃ peers,
      getValidatorsForQuery task.config task.validators.values
        (rng.draws task.validators.values.length (hash vx)) = .ok peers ∧
      pollster = ⟨hash vx, peers, task.config.quorumSize⟩ := by
  rw [pollsters, List.mem_filterMap]
  refine exists_congr fun vx => and_congr_right fun _ => ?_
  cases getValidatorsForQuery task.config task.validators.values
    (rng.draws task.validators.values.length (hash vx)) with
  | error e => simp [Except.toOption]
  | ok peers => simp [Except.toOption, eq_comm]

namespace Performs

variable (h : Performs hash it rng task action task' effects)
include h

theorem config_eq : task'.config = task.config := by
  cases h <;> rfl

/-- The graph changes by calls alone. -/
theorem leads : (DAG.system hash dagConfig genesis).LeadsWhen (fun _ _ => True) task.dag task'.dag := by
  cases h with
  | added | frontier | preference | unknown | vertex | dropped => exact .refl _
  | @recorded w b dag hok =>
    have hstep : (DAG.system hash dagConfig genesis).step task.dag ⟨.recordQueryResult w b, it⟩ =
        some dag := by
      simp only [DAG.system, DAG.apply, hok]
    exact .step (.refl _) trivial hstep
  | inserted _ hs | refused _ hs => exact submitVertex_leads hs

theorem validators : ∀ p ∈ task.validators.values, p ∈ task'.validators.values := by
  cases h with
  | added validator => exact fun p hp => (IndexSet.mem_insert _ _ _).mpr (Or.inr hp)
  | frontier | preference | unknown | vertex | recorded | dropped | inserted | refused =>
    exact fun _ hp => hp

/-- Pollsters are started for childless vertices of the graph which it strongly prefers, with as
many validators as the configuration says. -/
theorem started (hr : (DAG.system hash dagConfig genesis).Reachable task.dag)
    {pollster : Pollster H P} (hp : .startPollster pollster ∈ effects) :
    pollster.quorumSize = task.config.quorumSize ∧
      pollster.peersToPoll.card = task.config.queryCount ∧
      (∀ p ∈ pollster.peersToPoll, p ∈ task.validators.values) ∧
      task'.dag.graph.Childless pollster.vhash ∧ task'.dag.StronglyPreferred pollster.vhash := by
  have hr' : (DAG.system hash dagConfig genesis).Reachable task'.dag := hr.leads h.leads
  cases h with
  | added | recorded | dropped => cases hp
  | frontier | preference | unknown | vertex | refused =>
    cases List.mem_singleton.mp hp
  | @inserted vx waiting dag frontier resultCh hs hf =>
    -- the frontier is that of the graph after the submission
    rcases List.mem_append.mp hp with hp | hp
    · obtain ⟨pollster', hp', he⟩ := List.mem_map.mp hp
      cases he
      obtain ⟨vx', hvx', peers, hok, rfl⟩ := mem_pollsters.mp hp'
      refine ⟨rfl, ?_, mem_getValidatorsForQuery hok, mem_getFrontier hr' hf hvx'⟩
      refine card_getValidatorsForQuery task.validators.nodup ?_ hok
      rw [Rng.length_eraseDups]
      exact queryCount_le hok
    · simp at hp

/-- A chit is awarded where a positive result is recorded. -/
theorem chit (hd : Sound hash genesis task.dag)
    (hv : chitOf task'.dag.state (.unity v) = some true) :
    chitOf task.dag.state (.unity v) = some true ∨ action = .recordPeerPreference v true := by
  cases h with
  | added | frontier | preference | unknown | vertex | dropped => exact Or.inl hv
  | inserted _ hs | refused _ hs => exact Or.inl (((submitVertex_frame hd hs).1 _).mp hv)
  | recorded hok =>
    refine (chit_of_record hok hv).imp_right ?_
    rintro ⟨rfl, rfl⟩
    rfl

/-- A pending vertex stays pending as long as no result is recorded for it. -/
theorem pending (hd : Sound hash genesis task.dag) (hv : v ∈ task.dag.pendingQuery)
    (hno : ∀ b, action ≠ .recordPeerPreference v b) : v ∈ task'.dag.pendingQuery := by
  cases h with
  | added | frontier | preference | unknown | vertex | dropped => exact hv
  | inserted _ hs | refused _ hs =>
    exact ((submitVertex_frame hd hs).2.pending_iff v).mpr (Or.inl hv)
  | @recorded w b _ hok =>
    obtain ⟨state, rfl⟩ := record_eq_recording hok
    refine Finmap.mem_erase.mpr ⟨?_, hv⟩
    rintro rfl
    exact hno b rfl

/-- After its result a vertex is not pending. -/
theorem not_pending (hv : action = .recordPeerPreference v b) : v ∉ task'.dag.pendingQuery := by
  cases h with
  | added | frontier | preference | unknown | vertex | inserted | refused => cases hv
  | dropped he =>
    cases hv
    exact not_pending_of_err he
  | recorded hok =>
    cases hv
    obtain ⟨state, rfl⟩ := record_eq_recording hok
    exact fun hp => (Finmap.mem_erase.mp hp).1 rfl

/-- The preference that is sent is positive exactly for a vertex that the graph holds and strongly
prefers. -/
theorem preferred (hd : Sound hash genesis task.dag) {resultCh : Ch} {preference : Option (Bool × Bool)}
    (hs : .sendPreference resultCh preference ∈ effects) :
    ∃ vhash, action = .getPreference vhash resultCh ∧
      ((∃ final, preference = some (true, final)) ↔
        vhash ∈ task.dag.graph ∧ task.dag.StronglyPreferred vhash) := by
  cases h with
  | added | recorded | dropped => cases hs
  | frontier | vertex | refused => cases List.mem_singleton.mp hs
  | inserted => simp at hs
  | unknown _ hq =>
    cases List.mem_singleton.mp hs
    refine ⟨_, rfl, iff_of_false (by simp) ?_⟩
    rintro ⟨hv, _⟩
    obtain ⟨b, hb, _⟩ := query_spec it hd hv
    cases hq.symm.trans hb
  | @preference vhash _ _ hq =>
    cases List.mem_singleton.mp hs
    refine ⟨vhash, rfl, ?_, ?_⟩
    · rintro ⟨final, ⟨⟩⟩
      exact stronglyPreferred_of_query hd hq
    · rintro ⟨hv, hsp⟩
      obtain ⟨b, hb, hiff⟩ := query_spec it hd hv
      cases hq.symm.trans hb
      exact ⟨_, by rw [hiff.mpr hsp]⟩

/-- A vertex that is not pending any more has got a chit, or the result was negative. -/
theorem concluded (hd : Sound hash genesis task.dag) (hv : v ∈ task'.dag.graph)
    (hp : v ∉ task'.dag.pendingQuery) :
    v ∈ task.dag.graph ∧ v ∉ task.dag.pendingQuery ∨
      chitOf task'.dag.state (.unity v) = some true ∨ action = .recordPeerPreference v false := by
  cases h with
  | added | frontier | preference | unknown | vertex | dropped => exact Or.inl ⟨hv, hp⟩
  | inserted _ hs | refused _ hs =>
    -- what is inserted is pending
    rw [(submitVertex_frame hd hs).2.pending_iff, not_or, not_and_not_right] at hp
    exact Or.inl ⟨hp.2 hv, hp.1⟩
  | @recorded w b _ hok =>
    obtain ⟨_, dag₁, cs, state, _, hb, hf, rfl⟩ := recordQueryResult_eq_ok.mp hok
    obtain ⟨state₀, _, haward, rfl, _, _⟩ := beginRecord_eq_some hb
    by_cases hvw : v = w
    · subst hvw
      cases b with
      | false => exact Or.inr (Or.inr rfl)
      | true => exact Or.inr (Or.inl ((SameChits.loop hf _).mpr ((chitOf_award haward _).mpr (Or.inl rfl))))
    · exact Or.inl ⟨hv, fun hpend => hp (Finmap.mem_erase.mpr ⟨hvw, hpend⟩)⟩

end Performs

end Task

end Taurus
