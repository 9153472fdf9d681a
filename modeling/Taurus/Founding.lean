import Taurus.Runs

namespace Taurus

variable {H : Type} [LinearOrder H] {hash : Vertex H → H} {it : HashOrders H} {config : Config}
  {dag : DAG H} {vx : Vertex H} {init done : List (Vertex H)} {s t u : StateMap H}
  {c : Constraint H}

/-- Lists of vertices to start from: distinct ones, each after its parents and one higher than
the highest of them, of which no two commit to opposite orderings. -/
@[mk_iff]
structure LegalInit (hash : Vertex H → H) (init : List (Vertex H)) : Prop where
  distinct : (init.map hash).Nodup
  closed : ∀ i : Fin init.length, ∀ p ∈ init[i].parents, p ∈ (init.take i).map hash
  heights : ∀ vx ∈ init, vx.parents ≠ [] →
    (∃ p ∈ init, hash p ∈ vx.parents ∧ vx.height = 1 + p.height) ∧
      ∀ p ∈ init, hash p ∈ vx.parents → p.height < vx.height
  consistent : ∀ u ∈ init, ∀ v ∈ init, ∀ c ∈ u.parentConstraints, c.left ≠ c.right →
    c.swap ∉ v.parentConstraints

instance : Decidable (LegalInit hash init) := decidable_of_iff' _ (legalInit_iff hash init)

omit [LinearOrder H] in
theorem LegalInit.parents_before (hl : LegalInit hash init) {before after : List (Vertex H)}
    (hi : init = before ++ vx :: after) (p : H) (hp : p ∈ vx.parents) : p ∈ before.map hash := by
  subst hi
  have h := hl.closed ⟨before.length, by simp⟩ p (by simpa using hp)
  simpa using h

/-- Do the conflict sets have their maps defined on their members? -/
def WellFormedState (state : StateMap H) : Prop :=
  ∀ k cs, state.lookup k = some cs → cs.WellFormed k

/-- The second state map has at least the conflict sets of the first, and the same decisions. -/
structure Widens (s t : StateMap H) : Prop where
  wellFormed : WellFormedState t
  kept : ∀ k ∈ s, k ∈ t
  decisions : decisionOf t = decisionOf s

theorem Widens.trans (hst : Widens s t) (htu : Widens t u) : Widens s u where
  wellFormed := htu.wellFormed
  kept k hk := htu.kept k (hst.kept k hk)
  decisions := htu.decisions.trans hst.decisions

theorem WellFormedState.childrenOf_isSome (hw : WellFormedState s) (hc : c.conflictSetKey ∈ s) :
    ∃ ch, childrenOf s c = some ch := by
  obtain ⟨cs, hcs⟩ := Finmap.mem_iff.mp hc
  obtain ⟨ch, hch⟩ := Finmap.mem_iff.mp (((hw _ cs hcs).children c).mpr rfl)
  exact ⟨ch, by rw [childrenOf, entry_of_lookup hcs, hch]⟩

/-- Where nothing is rejected, a constraint between known vertices whose parents are there is
added without a decision. -/
theorem insertConstraint_total (it : HashOrders H) {vertex : HashMap H (Vertex H)} {x y : Vertex H}
    (hw : WellFormedState s) (hun : ∀ d, decisionOf s d ≠ some false)
    (hx : vertex.lookup c.left = some x) (hy : vertex.lookup c.right = some y)
    (hpar : ∀ p ∈ x.parentConstraints ++ y.parentConstraints, p.conflictSetKey ∈ s) :
    ∃ t, DAG.insertConstraint it vertex s c = some t ∧ Widens s t ∧ c.conflictSetKey ∈ t := by
  obtain ⟨r, l, ha, _, hrun⟩ := insertConstraint_run it hx hy
    fun p hp => hw.childrenOf_isSome (hpar p hp)
  have hany : (l.any fun p => decisionOf s p == some false) = false := by
    simp [hun]
  rw [hany] at hrun
  have hdec (d : Constraint H) : decisionOf r d = decisionOf s d := ha.entry_eq (fun _ _ => rfl) d
  refine ⟨_, hrun, ⟨fun k cs hcs => ?_, fun k hk => ?_, funext fun d => ?_⟩, ?_⟩
  · rw [HashMap.lookup_tryInsert] at hcs
    split at hcs
    · next hk =>
      cases hcs
      rw [hk.1]
      exact bornConflictSet_wellFormed c _ _
    · exact ha.wellFormed hw k cs hcs
  · exact (HashMap.mem_tryInsert _ _ _ _).mpr (Or.inr ((ha.mem_iff k).mpr hk))
  · rw [← hdec d, decisionOf, entry_tryInsert]
    split
    · next hk =>
      -- a new conflict set has no decisions
      rw [show decisionOf r d = none from entry_of_notMem (hk.1 ▸ hk.2)]
      rfl
    · rfl
  · exact (HashMap.mem_tryInsert _ _ _ _).mpr (Or.inl rfl)

theorem insertConstraints_total (it : HashOrders H) {vertex : HashMap H (Vertex H)}
    (l : List (Constraint H)) (s : StateMap H) (hw : WellFormedState s)
    (hun : ∀ d, decisionOf s d ≠ some false)
    (hl : ∀ c ∈ l, ∃ x y, vertex.lookup c.left = some x ∧ vertex.lookup c.right = some y ∧
      ∀ p ∈ x.parentConstraints ++ y.parentConstraints, p.conflictSetKey ∈ s) :
    ∃ t, l.foldlM (DAG.insertConstraint it vertex) s = some t ∧ Widens s t ∧
      ∀ c ∈ l, c.conflictSetKey ∈ t := by
  induction l generalizing s with
  | nil => exact ⟨s, rfl, ⟨hw, fun _ h => h, rfl⟩, fun _ h => (List.not_mem_nil h).elim⟩
  | cons c l ih =>
    obtain ⟨x, y, hx, hy, hpar⟩ := hl c List.mem_cons_self
    obtain ⟨t, ht, hst, hct⟩ := insertConstraint_total it hw hun hx hy hpar
    obtain ⟨u, hu, htu, hlu⟩ := ih t hst.wellFormed (hst.decisions ▸ hun) fun d hd => by
      obtain ⟨x, y, hx, hy, hpar⟩ := hl d (List.mem_cons_of_mem _ hd)
      exact ⟨x, y, hx, hy, fun p hp => hst.kept _ (hpar p hp)⟩
    refine ⟨u, foldlM_cons_eq_some.mpr ⟨t, ht, hu⟩, hst.trans htu, fun d hd => ?_⟩
    rcases List.mem_cons.mp hd with rfl | hd
    · exact htu.kept _ hct
    · exact hlu d hd

/-- Marking constraints with a conflict set as accepted decides these. -/
theorem markAccepted_total (l : List (Constraint H)) (s : StateMap H) (hw : WellFormedState s)
    (hl : ∀ c ∈ l, c.conflictSetKey ∈ s) :
    ∃ t, l.foldlM DAG.markAccepted s = some t ∧ WellFormedState t ∧
      ∀ d, decisionOf t d = if d ∈ l then some true else decisionOf s d := by
  induction l generalizing s with
  | nil => exact ⟨s, rfl, hw, fun d => by simp⟩
  | cons c l ih =>
    obtain ⟨cs, hcs⟩ := Finmap.mem_iff.mp (hl c List.mem_cons_self)
    have hstep : DAG.markAccepted s c = some (s.insert c.conflictSetKey
        { cs with decision := cs.decision.insert c true }) := by
      simp only [DAG.markAccepted, hcs, Option.bind_eq_bind, Option.bind_some, Option.pure_def]
    have hkeys (k : ConflictSetKey H) (hk : k ∈ s) : k ∈ s.insert c.conflictSetKey
        { cs with decision := cs.decision.insert c true } := Finmap.mem_insert.mpr (Or.inr hk)
    obtain ⟨t, ht, hwt, hdec⟩ := ih (s.insert c.conflictSetKey
      { cs with decision := cs.decision.insert c true }) (fun k cs' hcs' => by
        rw [HashMap.lookup_insert] at hcs'
        split at hcs'
        · next hk =>
          cases hcs'
          subst hk
          exact (hw _ cs hcs).decide rfl true
        · exact hw k cs' hcs') fun d hd => hkeys _ (hl d (List.mem_cons_of_mem _ hd))
    refine ⟨t, foldlM_cons_eq_some.mpr ⟨_, hstep, ht⟩, hwt, fun d => ?_⟩
    rw [hdec, decisionOf_insert hcs rfl]
    by_cases hd : d ∈ l <;> by_cases hdc : d = c <;> simp [hd, hdc]

/-- A graph made of initial vertices alone, all of whose constraints are accepted. -/
structure Founded (hash : Vertex H → H) (done : List (Vertex H)) (dag : DAG H) : Prop where
  known : ∀ vx ∈ done, dag.vertex.lookup (hash vx) = some vx
  inserted : ∀ vx ∈ done, dag.graph.lookup (hash vx) = some vx
  source : ∀ k vx, dag.vertex.lookup k = some vx → vx ∈ done ∧ hash vx = k
  wellFormed : WellFormedState dag.state
  accepted : ∀ vx ∈ done, ∀ c ∈ vx.parentConstraints ++ [.unity (hash vx)],
    decisionOf dag.state c = some true
  unrejected : ∀ c, decisionOf dag.state c ≠ some false

namespace Founded

theorem empty (config : Config) : Founded hash [] (DAG.empty config) where
  known _ h := (List.not_mem_nil h).elim
  inserted _ h := (List.not_mem_nil h).elim
  source _ _ h := by cases h
  wellFormed _ _ h := by cases h
  accepted _ h := (List.not_mem_nil h).elim
  unrejected c := by
    have hnone : decisionOf (DAG.empty config).state c = none := entry_of_notMem Finmap.notMem_empty
    simp [hnone]

theorem lookup_insert (hF : Founded hash done dag) (hfresh : hash vx ∉ done.map hash)
    {w : Vertex H} (hw : w ∈ done) : (dag.vertex.insert (hash vx) vx).lookup (hash w) = some w := by
  have hne : hash w ≠ hash vx := fun he => hfresh (List.mem_map.mpr ⟨w, hw, he⟩)
  rw [HashMap.lookup_insert, if_neg hne]
  exact hF.known w hw

/-- The constraints of one more initial vertex are inserted, as those of its parents are there. -/
theorem insertState (it : HashOrders H) (hF : Founded hash done dag)
    (hfresh : hash vx ∉ done.map hash) (hpar : ∀ p ∈ vx.parents, p ∈ done.map hash) :
    ∃ u, (it.constraints.order (.unity (hash vx)) vx.parentConstraints.toFinset ++
        [Constraint.unity (hash vx)]).foldlM
          (DAG.insertConstraint it (dag.vertex.insert (hash vx) vx)) dag.state = some u ∧
      Widens dag.state u ∧
      ∀ c ∈ vx.parentConstraints ++ [.unity (hash vx)], c.conflictSetKey ∈ u := by
  -- the parents of a constraint of the new vertex are constraints of vertices inserted before it
  have habove (w : Vertex H) (hw : w ∈ done) (p : Constraint H) (hp : p ∈ w.parentConstraints) :
      p.conflictSetKey ∈ dag.state :=
    mem_of_entry (hF.accepted w hw p (List.mem_append_left _ hp))
  obtain ⟨t, ht, hst, hlt⟩ := insertConstraints_total it
    (it.constraints.order (.unity (hash vx)) vx.parentConstraints.toFinset) dag.state
    hF.wellFormed hF.unrejected fun c hc => by
      rw [HashOrder.mem_order, List.mem_toFinset] at hc
      obtain ⟨hl, hr⟩ := vx.parents_of_mem_parentConstraints c hc
      obtain ⟨x, hx, hxl⟩ := List.mem_map.mp (hpar _ hl)
      obtain ⟨y, hy, hyr⟩ := List.mem_map.mp (hpar _ hr)
      refine ⟨x, y, hxl ▸ hF.lookup_insert hfresh hx, hyr ▸ hF.lookup_insert hfresh hy,
        fun p hp => ?_⟩
      rcases List.mem_append.mp hp with hp | hp
      · exact habove x hx p hp
      · exact habove y hy p hp
  have hkeys (c : Constraint H) (hc : c ∈ vx.parentConstraints) : c.conflictSetKey ∈ t :=
    hlt c (by rwa [HashOrder.mem_order, List.mem_toFinset])
  have hown : (dag.vertex.insert (hash vx) vx).lookup (hash vx) = some vx := Finmap.lookup_insert _
  -- the unity constraint comes last, below those
  obtain ⟨u, hu, htu, huk⟩ := insertConstraint_total it hst.wellFormed
    (hst.decisions ▸ hF.unrejected) (c := .unity (hash vx)) hown hown fun p hp =>
      hkeys p ((List.mem_append.mp hp).elim id id)
  refine ⟨u, foldlM_concat_eq_some.mpr ⟨t, ht, hu⟩, hst.trans htu, fun c hc => ?_⟩
  rcases List.mem_append.mp hc with hc | hc
  · exact htu.kept _ (hkeys c hc)
  · rw [List.mem_singleton.mp hc]
    exact huk

/-- One more initial vertex is inserted, and its constraints are marked. -/
theorem insertDecided (it : HashOrders H) (hF : Founded hash done dag)
    (hfresh : hash vx ∉ done.map hash) (hpar : ∀ p ∈ vx.parents, p ∈ done.map hash) :
    ∃ dag', dag.insertDecided hash it vx = some dag' ∧ Founded hash (done ++ [vx]) dag' := by
  obtain ⟨u, hu, hsu, hkeys⟩ := hF.insertState it hfresh hpar
  obtain ⟨r, hr, hwr, hdec⟩ := markAccepted_total _ u hsu.wellFormed hkeys
  rw [hsu.decisions] at hdec
  simp only [DAG.insertDecided, DAG.insert, hu, Option.bind_eq_bind, Option.bind_some,
    Option.pure_def, hr, Option.some.injEq, exists_eq_left']
  constructor
  case known =>
    intro w hw
    rcases List.mem_append.mp hw with hw | hw
    · exact hF.lookup_insert hfresh hw
    · rw [List.mem_singleton.mp hw]
      exact Finmap.lookup_insert _
  case inserted =>
    intro w hw
    rcases List.mem_append.mp hw with hw | hw
    · have hne : hash w ≠ hash vx := fun he => hfresh (List.mem_map.mpr ⟨w, hw, he⟩)
      rw [HashMap.lookup_insert, if_neg hne]
      exact hF.inserted w hw
    · rw [List.mem_singleton.mp hw]
      exact Finmap.lookup_insert _
  case source =>
    intro k w hw
    rw [HashMap.lookup_insert] at hw
    split at hw
    · next hk =>
      cases hw
      exact ⟨List.mem_append_right _ List.mem_cons_self, hk.symm⟩
    · obtain ⟨hmem, hh⟩ := hF.source k w hw
      exact ⟨List.mem_append_left _ hmem, hh⟩
  case wellFormed =>
    exact hwr
  case accepted =>
    intro w hw c hc
    rw [hdec]
    rcases List.mem_append.mp hw with hw | hw
    · rw [hF.accepted w hw c hc, ite_self]
    · rw [List.mem_singleton.mp hw] at hc
      exact if_pos hc
  case unrejected =>
    intro c
    rw [hdec]
    split
    · simp
    · exact hF.unrejected c

end Founded

/-- Induction over the loop of `new`, which succeeds on a legal list. -/
theorem new_induct (it : HashOrders H) {P : List (Vertex H) → DAG H → Prop}
    (hl : LegalInit hash init)
    (hc : config.check (H := H) = .ok ()) (hempty : P [] (DAG.empty config))
    (hstep : ∀ done vx after dag dag', init = done ++ vx :: after → Founded hash done dag →
      P done dag → dag.insertDecided hash it vx = some dag' → P (done ++ [vx]) dag') :
    ∃ dag, DAG.new hash it config init = .ok dag ∧ Founded hash init dag ∧ P init dag := by
  have hprefix (done after : List (Vertex H)) (hi : init = done ++ after) :
      ∃ dag, done.foldlM (DAG.insertDecided hash it) (DAG.empty config) = some dag ∧
        Founded hash done dag ∧ P done dag := by
    induction done using List.reverseRecOn generalizing after with
    | nil => exact ⟨_, rfl, .empty config, hempty⟩
    | append_singleton done vx ih =>
      rw [List.append_assoc, List.singleton_append] at hi
      obtain ⟨dag, hdag, hF, hP⟩ := ih _ hi
      have hnodup := hl.distinct
      rw [hi, List.map_append, List.map_cons, List.nodup_append] at hnodup
      have hfresh : hash vx ∉ done.map hash := fun h =>
        hnodup.2.2 _ h _ List.mem_cons_self rfl
      obtain ⟨dag', hdag', hF'⟩ := hF.insertDecided it hfresh (hl.parents_before hi)
      exact ⟨dag', foldlM_concat_eq_some.mpr ⟨dag, hdag, hdag'⟩, hF',
        hstep done vx after dag dag' hi hF hP hdag'⟩
  obtain ⟨dag, hdag, hF, hP⟩ := hprefix init [] (List.append_nil _).symm
  refine ⟨dag, ?_, hF, hP⟩
  rw [DAG.new, hc]
  simp only [hdag, Outcome.lift_some]

end Taurus
