import Taurus.Safety

namespace Taurus

variable {H : Type} [LinearOrder H] {hash : Vertex H → H} {config : Config} {genesis : Vertex H}
  {dag dag' : DAG H} {vx w : Vertex H} {source : Set (Vertex H)} {queue : List H}

namespace DAG

/-- Submits the vertices one after the other, each call with its own orders of hash sets. -/
def submitAll (hash : Vertex H → H) (dag : DAG H) (submitted : List (Vertex H × HashOrders H)) :
    Option (DAG H) :=
  submitted.foldlM (fun dag s => dag.submit hash s.2 s.1) dag

end DAG

/-- Invariants of a graph into which vertices have been submitted, but no votes. -/
structure Collected (hash : Vertex H → H) (genesis : Vertex H) (source : Set (Vertex H))
    (dag : DAG H) : Prop where
  sound : Sound hash genesis dag
  safe : Safe dag.graph (decisionOf dag.state)
  unvoted : ∀ c, decisionOf dag.state c ≠ some false
  submitted : ∀ h v, dag.vertex.lookup h = some v → v = genesis ∨ v ∈ source
  pending_iff : ∀ h, h ∈ dag.pendingQuery ↔ h ∈ dag.graph ∧ h ≠ hash genesis
  admitted : ∀ h v, dag.graph.lookup h = some v → h ≠ hash genesis → dag.graph.Admits v

/-- What the graph owes to a submitted vertex: a vertex that it admits is inserted, unless
it is queued for another try, and one that only lacks parents is kept. -/
structure Served (hash : Vertex H → H) (dag : DAG H) (queue : List H) (w : Vertex H) : Prop where
  inserted : dag.graph.Admits w → hash w ∈ dag.graph ∨ hash w ∈ queue ∧ hash w ∈ dag.vertex
  kept : w.sanityChecks = .ok () → (∃ p ∈ w.parents, p ∉ dag.graph) → hash w ∈ dag.vertex

namespace Collected

theorem start (config : Config) (hg : genesis.parents = []) :
    Collected hash genesis source (DAG.start hash config genesis) where
  sound := .start config hg
  safe := .start hg
  unvoted c := by
    rw [DAG.decisionOf_start]
    split <;> simp
  submitted h v hv := by
    have hl : (DAG.start hash config genesis).graph.lookup h = some v := hv
    exact Or.inl (DAG.lookup_start hl).2
  pending_iff _ := DAG.mem_pendingQuery_start
  admitted h v hv hne := absurd (DAG.lookup_start hv).1 hne

theorem park {e : Error H} (hC : Collected hash genesis source dag) (hv : vx = genesis ∨ vx ∈ source)
    (hc : Checked hash dag vx (.err e)) : Collected hash genesis source (dag.park hash vx e) := by
  refine ⟨hc.park_sound hC.sound, ?_, ?_, ?_, ?_, ?_⟩
  · rw [park_graph, park_state]
    exact hC.safe
  · rw [park_state]
    exact hC.unvoted
  · intro h v hl
    rcases hc.park_cases with hp | ⟨_, _, hp⟩
    · rw [hp] at hl
      exact hC.submitted h v hl
    · rw [hp, HashMap.lookup_insert] at hl
      split at hl
      · cases hl
        exact hv
      · exact hC.submitted h v hl
  · have hpending : (dag.park hash vx e).pendingQuery = dag.pendingQuery := by cases e <;> rfl
    rw [park_graph, hpending]
    exact hC.pending_iff
  · rw [park_graph]
    exact hC.admitted

theorem insert (hC : Collected hash genesis source dag) (hv : vx = genesis ∨ vx ∈ source)
    (hc : Checked hash dag vx (.ok ())) (hi : InsertedDAG hash vx dag dag') :
    Collected hash genesis source dag' := by
  have hf := hc.ready.fresh
  have hd' := hC.sound.insert hf hc.legal hi
  have hadmits : dag.graph.Admits vx := hC.safe.admits hC.sound hc
  have hagree : dag.graph.Agree dag'.graph := hi.graph ▸ Graph.agree_insert hf
  have hkeep {v : Vertex H} (ha : dag.graph.Admits v) : dag'.graph.Admits v := by
    refine hagree.admits hC.sound.shaped hd'.shaped (fun p hp => ?_) ha
    rw [hi.graph]
    exact Finmap.mem_insert.mpr (Or.inr (ha.inserted p hp))
  refine ⟨hd', hC.safe.insert hC.sound hc hi, fun c hrej => ?_, ?_, fun h => ?_, ?_⟩
  -- without votes there is no first rejection to inherit
  · obtain ⟨r, _, hr⟩ := hi.rejected_above hd'.shaped hrej
    exact hC.unvoted r hr
  · intro h v hl
    rw [hi.vertex, HashMap.lookup_insert] at hl
    split at hl
    · cases hl
      exact hv
    · exact hC.submitted h v hl
  · rw [hi.pendingQuery, hi.graph, Finmap.mem_insert, Finmap.mem_insert, hC.pending_iff]
    have hroot : hash vx ≠ hash genesis := fun he => hf (he ▸ hC.sound.shaped.root_mem)
    constructor
    · rintro (rfl | ⟨hh, hne⟩)
      · exact ⟨Or.inl rfl, hroot⟩
      · exact ⟨Or.inr hh, hne⟩
    · rintro ⟨rfl | hh, hne⟩
      · exact Or.inl rfl
      · exact Or.inr ⟨hh, hne⟩
  · intro h v hl hne
    rw [hi.graph, HashMap.lookup_insert] at hl
    split at hl
    · cases hl
      exact hkeep hadmits
    · exact hkeep (hC.admitted h v hl hne)

/-- A vertex known under the hash of a submitted one agrees with it. -/
theorem sameWire (hC : Collected hash genesis source dag)
    (hcf : Vertex.CollisionFree hash (Insert.insert genesis source)) (hw : w ∈ source)
    {v : Vertex H} (hv : dag.vertex.lookup (hash w) = some v) : v.SameWire w :=
  hcf v (hC.submitted _ v hv) w (Or.inr hw) (hC.sound.hash_eq _ v hv)

end Collected

namespace Served

variable (hC : Collected hash genesis source dag)
  (hcf : Vertex.CollisionFree hash (Insert.insert genesis source))
  (hv : vx = genesis ∨ vx ∈ source) (hw : w ∈ source)
  (hS : hash w = hash vx ∨ Served hash dag (hash vx :: queue) w)
include hC hcf hv hw hS

/-- A vertex that is refused is served, and takes nothing from the others. -/
theorem refused {e : Error H} (hc : Checked hash dag vx (.err e)) :
    Served hash (dag.park hash vx e) queue w := by
  have hknown {h : H} (hh : h ∈ dag.vertex) : h ∈ (dag.park hash vx e).vertex := by
    rcases hc.park_cases with hp | ⟨_, _, hp⟩
    · rwa [hp]
    · rw [hp]
      exact Finmap.mem_insert.mpr (Or.inr hh)
  by_cases hh : hash w = hash vx
  -- the refused vertex is `w` itself, up to its time: an admissible one is only refused as a repetition
  · have hsame : w.SameWire vx := hcf w (Or.inr hw) vx hv hh
    constructor
    · rw [park_graph, hh]
      intro ha
      rcases hc.refused_of_admits (ha.sameWire hsame) with ⟨_, hin⟩ | ⟨_, p, _, hf⟩
      · exact Or.inl hin
      · exact absurd hf (hC.unvoted _)
    · rw [park_graph, hh]
      rintro hsane ⟨p, hp, hpg⟩
      rw [hsame.2.2.1] at hp
      rw [hsame.sanityChecks_eq] at hsane
      have hstored : hash vx ∈ (dag.vertex.insert (hash vx) vx) := Finmap.mem_insert.mpr (Or.inl rfl)
      cases hc with
      | vertex hs =>
        rw [hsane] at hs
        cases hs
      | alreadyInserted _ hin => exact hC.sound.known hin
      | missingParents | waitingOnParents => exact hstored
      | badHeight hr => exact absurd (hr.parents p hp) hpg
      | rejectedAncestor hr => exact absurd (hr.parents p hp) hpg
      | selfReferentialParent hr => exact absurd (hr.parents p hp) hpg
      | conflictingAncestors hr => exact absurd (hr.parents p hp) hpg
  · have hS := hS.resolve_left hh
    constructor
    · rw [park_graph]
      intro ha
      rcases hS.inserted ha with hin | ⟨hq, hk⟩
      · exact Or.inl hin
      · exact Or.inr ⟨(List.mem_cons.mp hq).resolve_left hh, hknown hk⟩
    · rw [park_graph]
      exact fun hsane hp => hknown (hS.kept hsane hp)

omit hv in
/-- A vertex that is inserted is served, and those waiting for it are queued. -/
theorem inserted_of {waiting : List H} (hc : Checked hash dag vx (.ok ()))
    (hi : InsertedDAG hash vx dag dag')
    (hwait : ∀ k, k ∈ waiting ↔ k ∉ dag'.graph ∧
      ∃ s, dag'.children.lookup (hash vx) = some s ∧ k ∈ s) :
    Served hash dag' (waiting ++ queue) w := by
  have hf := hc.ready.fresh
  have hd' := hC.sound.insert hf hc.legal hi
  have hin {h : H} : h ∈ dag'.graph ↔ h = hash vx ∨ h ∈ dag.graph := by
    rw [hi.graph, Finmap.mem_insert]
  have hknown {h : H} : h ∈ dag'.vertex ↔ h = hash vx ∨ h ∈ dag.vertex := by
    rw [hi.vertex, Finmap.mem_insert]
  by_cases hh : hash w = hash vx
  · exact ⟨fun _ => Or.inl (hin.mpr (Or.inl hh)), fun _ _ => hknown.mpr (Or.inl hh)⟩
  have hS := hS.resolve_left hh
  constructor
  · intro ha
    by_cases hold : ∀ p ∈ w.parents, p ∈ dag.graph
    · have hagree : dag.graph.Agree dag'.graph := hi.graph ▸ Graph.agree_insert hf
      have ha' := hagree.symm.admits hd'.shaped hC.sound.shaped hold ha
      rcases hS.inserted ha' with hg | ⟨hq, hk⟩
      · exact Or.inl (hin.mpr (Or.inr hg))
      · have hq' := (List.mem_cons.mp hq).resolve_left hh
        exact Or.inr ⟨List.mem_append_right _ hq', hknown.mpr (Or.inr hk)⟩
    -- the last parent to come is the new vertex, which has `w` among its known children
    · have hlack : ∃ p ∈ w.parents, p ∉ dag.graph := by simpa using hold
      have hk := hS.kept ha.sane hlack
      obtain ⟨p, hp, hpg⟩ := hlack
      have hpx : p = hash vx := (hin.mp (ha.inserted p hp)).resolve_right hpg
      subst hpx
      obtain ⟨v, hv'⟩ := Finmap.mem_iff.mp hk
      have hpv : hash vx ∈ v.parents := by rwa [(hC.sameWire hcf hw hv').2.2.1]
      have hlookup : dag'.vertex.lookup (hash w) = some v := by
        rw [hi.vertex, HashMap.lookup_insert, if_neg hh, hv']
      by_cases hg : hash w ∈ dag'.graph
      · exact Or.inl hg
      · have hmem : hash w ∈ waiting :=
          (hwait _).mpr ⟨hg, hd'.children_listed (hash w) v hlookup _ hpv⟩
        exact Or.inr ⟨List.mem_append_left _ hmem, hknown.mpr (Or.inr hk)⟩
  · rintro hsane ⟨p, hp, hpg⟩
    exact hknown.mpr (Or.inr (hS.kept hsane ⟨p, hp, fun h => hpg (hin.mpr (Or.inr h))⟩))

end Served

section Submit

variable (hcf : Vertex.CollisionFree hash (Insert.insert genesis source))
include hcf

/-- The retries serve all that is owed to the queue. -/
theorem retryPending_serves (it : HashOrders H) {P : Vertex H → Prop} (hashes : List H)
    (hC : Collected hash genesis source dag)
    (hS : ∀ w ∈ source, P w → Served hash dag hashes.reverse w) :
    ∃ successes dag', dag.retryPending hash it hashes = some (successes, dag') ∧
      Collected hash genesis source dag' ∧ ∀ w ∈ source, P w → Served hash dag' [] w := by
  have hspec := retryPending_spec it (Q := fun dag queue =>
    Collected hash genesis source dag ∧ ∀ w ∈ source, P w → Served hash dag queue w)
    ?_ ?_ ?_ hC.sound hashes ⟨hC, hS⟩
  · obtain ⟨successes, dag', hrun, _, hC', hS'⟩ := hspec
    exact ⟨successes, dag', hrun, hC', hS'⟩
  · -- a hash that is not known is owed nothing
    rintro dag h queue _ ⟨hC, hS⟩ hnone
    refine ⟨hC, fun w hw hP => ⟨fun ha => ?_, (hS w hw hP).kept⟩⟩
    rcases (hS w hw hP).inserted ha with hin | ⟨hq, hk⟩
    · exact Or.inl hin
    · refine Or.inr ⟨(List.mem_cons.mp hq).resolve_left ?_, hk⟩
      rintro rfl
      exact Finmap.lookup_eq_none.mp hnone hk
  · rintro dag h queue vx e _ ⟨hC, hS⟩ hv _ hc
    have hvx := hC.submitted h vx hv
    have hh := hC.sound.hash_eq h vx hv
    exact ⟨hC.park hvx hc, fun w hw hP =>
      Served.refused hC hcf hvx hw (Or.inr (hh ▸ hS w hw hP)) hc⟩
  · rintro dag h queue vx dag' waiting _ ⟨hC, hS⟩ hv _ hc hi hwait
    have hvx := hC.submitted h vx hv
    have hh := hC.sound.hash_eq h vx hv
    exact ⟨hC.insert hvx hc hi, fun w hw hP =>
      Served.inserted_of hC hcf hw (Or.inr (hh ▸ hS w hw hP)) hc hi hwait⟩

/-- A submission never panics, and serves the vertex without taking from the others. -/
theorem submit_spec (it : HashOrders H) (hC : Collected hash genesis source dag)
    (hvx : vx ∈ source) : ∃ dag', dag.submit hash it vx = some dag' ∧
      Collected hash genesis source dag' ∧
      ∀ w ∈ source, w = vx ∨ Served hash dag [] w → Served hash dag' [] w := by
  -- any other vertex is served with the new one in the queue, too
  have hqueued {w : Vertex H} (hw : w = vx ∨ Served hash dag [] w) :
      hash w = hash vx ∨ Served hash dag [hash vx] w := by
    rcases hw with rfl | hS
    · exact Or.inl rfl
    · refine Or.inr ⟨fun ha => Or.inl ?_, hS.kept⟩
      exact (hS.inserted ha).resolve_right fun h => List.not_mem_nil h.1
  obtain ⟨r, hr, ht⟩ := tryInsert_spec it hC.sound vx
  cases ht with
  | @refused e hc =>
    refine ⟨dag.park hash vx e, ?_, hC.park (Or.inr hvx) hc, fun w hw hSw => ?_⟩
    · simp only [DAG.submit, hr, Option.bind_eq_bind, Option.bind_some, Option.pure_def]
    · exact Served.refused hC hcf (Or.inr hvx) hw (hqueued hSw) hc
  | @inserted dag1 waiting hc hi hwait =>
    have hC1 := hC.insert (Or.inr hvx) hc hi
    have horder (k : H) : k ∈ (it.vertices.order (some (hash vx)) waiting).reverse ↔
        k ∉ dag1.graph ∧ ∃ s, dag1.children.lookup (hash vx) = some s ∧ k ∈ s := by
      rw [List.mem_reverse, HashOrder.mem_order, hwait]
    obtain ⟨_, dag', hrun, hC', hS'⟩ := retryPending_serves hcf it
      (P := fun w => w = vx ∨ Served hash dag [] w) (it.vertices.order (some (hash vx)) waiting) hC1
      fun w hw hSw => by
        simpa using Served.inserted_of hC hcf hw (hqueued hSw) hc hi horder
    refine ⟨dag', ?_, hC', hS'⟩
    simp only [DAG.submit, hr, hrun, Option.bind_eq_bind, Option.bind_some, Option.pure_def]

/-- After all submissions every submitted vertex is served. -/
theorem submitAll_spec (l : List (Vertex H × HashOrders H)) (dag : DAG H)
    (hC : Collected hash genesis source dag) (hl : ∀ s ∈ l, s.1 ∈ source) :
    ∃ dag', DAG.submitAll hash dag l = some dag' ∧ Collected hash genesis source dag' ∧
      ∀ w ∈ source, (∃ s ∈ l, s.1 = w) ∨ Served hash dag [] w → Served hash dag' [] w := by
  induction l generalizing dag with
  | nil =>
    refine ⟨dag, rfl, hC, fun w _ hw => hw.resolve_left ?_⟩
    rintro ⟨_, hs, _⟩
    exact List.not_mem_nil hs
  | cons s l ih =>
    obtain ⟨dag1, hrun1, hC1, hS1⟩ := submit_spec hcf s.2 hC (hl s (by simp))
    obtain ⟨dag', hrun', hC', hS'⟩ := ih dag1 hC1 fun t ht => hl t (by simp [ht])
    refine ⟨dag', foldlM_cons_eq_some.mpr ⟨dag1, hrun1, hrun'⟩, hC', fun w hw hSw => hS' w hw ?_⟩
    rcases hSw with ⟨t, ht, rfl⟩ | hSw
    · rcases List.mem_cons.mp ht with rfl | ht
      · exact Or.inr (hS1 _ hw (Or.inl rfl))
      · exact Or.inl ⟨t, ht, rfl⟩
    · exact Or.inr (hS1 w hw (Or.inr hSw))

variable {D E : DAG H} (hD : Collected hash genesis source D) (hE : Collected hash genesis source E)
include hD hE

theorem Collected.agree : D.graph.Agree E.graph := by
  intro h u v hu hv
  have hu' := hD.sound.inserted_known h u hu
  have hv' := hE.sound.inserted_known h v hv
  refine hcf u (hD.submitted h u hu') v (hE.submitted h v hv') ?_
  rw [hD.sound.hash_eq h u hu', hE.sound.hash_eq h v hv']

/-- What one graph has inserted, another inserts that has served the same vertices. -/
theorem Collected.inserted_of_served (hS : ∀ w ∈ source, Served hash E [] w) {h : H}
    (hh : h ∈ D.graph) : h ∈ E.graph := by
  -- parents have smaller height, so they are there by induction
  induction hn : D.graph.height h using Nat.strong_induction_on generalizing h with
  | _ n ih =>
    by_cases hroot : h = hash genesis
    · rw [hroot]
      exact hE.sound.shaped.root_mem
    obtain ⟨v, hv⟩ := Finmap.mem_iff.mp hh
    have hv' := hD.sound.inserted_known h v hv
    have hvh := hD.sound.hash_eq h v hv'
    have hvs : v ∈ source := (hD.submitted h v hv').resolve_left fun he => hroot (he ▸ hvh.symm)
    have hpar (p : H) (hp : p ∈ v.parents) : p ∈ E.graph := by
      have hip : D.graph.IsParent p h := ⟨v, hv, hp⟩
      exact ih _ (hn ▸ hD.sound.shaped.height_lt hip) (hD.sound.shaped.parent_mem hip) rfl
    -- `E` holds the parents, agrees on them with `D`, and so admits the vertex
    have hadm : E.graph.Admits v := (Collected.agree hcf hD hE).admits hD.sound.shaped
      hE.sound.shaped hpar (hD.admitted h v hv hroot)
    rcases (hS v hvs).inserted hadm with hin | ⟨hq, _⟩
    · exact hvh ▸ hin
    · exact absurd hq List.not_mem_nil

/-- Two graphs that have served the same vertices hold the same sets of hashes. -/
theorem Collected.keys_eq (hSD : ∀ w ∈ source, Served hash D [] w)
    (hSE : ∀ w ∈ source, Served hash E [] w) : D.graph.keys = E.graph.keys ∧
      D.frontier.keys = E.frontier.keys ∧ D.pendingQuery.keys = E.pendingQuery.keys := by
  have hmem (h : H) : h ∈ D.graph ↔ h ∈ E.graph :=
    ⟨hD.inserted_of_served hcf hE hSE, hE.inserted_of_served hcf hD hSD⟩
  have hparent (p h : H) : D.graph.IsParent p h ↔ E.graph.IsParent p h := by
    constructor
    · intro hp
      exact ((Collected.agree hcf hD hE).isParent hp.mem ((hmem h).mp hp.mem)).mp hp
    · intro hp
      exact ((Collected.agree hcf hE hD).isParent hp.mem ((hmem h).mpr hp.mem)).mp hp
  refine ⟨?_, ?_, ?_⟩ <;> ext h
  · rw [Finmap.mem_keys, Finmap.mem_keys, hmem]
  · rw [Finmap.mem_keys, Finmap.mem_keys, hD.sound.frontier_iff, hE.sound.frontier_iff, hmem]
    simp only [hparent]
  · rw [Finmap.mem_keys, Finmap.mem_keys, hD.pending_iff, hE.pending_iff, hmem]

end Submit

/-- Delivery-order independence: in whatever order the same vertices are submitted, none of
the calls panics, and the graphs end with the same inserted vertices, the same frontier and
the same vertices waiting for a query. -/
theorem delivery_order_independent {D E : DAG H} {l l' : List (Vertex H × HashOrders H)}
    (hD : (DAG.system hash config genesis).init D) (hE : (DAG.system hash config genesis).init E)
    (hcf : Vertex.CollisionFree hash (insert genesis fun v => v ∈ l.map Prod.fst))
    (hperm : (l.map Prod.fst).Perm (l'.map Prod.fst)) :
    ∃ D' E', DAG.submitAll hash D l = some D' ∧ DAG.submitAll hash E l' = some E' ∧
      D'.graph.keys = E'.graph.keys ∧ D'.frontier.keys = E'.frontier.keys ∧
      D'.pendingQuery.keys = E'.pendingQuery.keys := by
  rw [DAG.eq_start_of_init hD, DAG.eq_start_of_init hE]
  have hC : Collected hash genesis (fun v => v ∈ l.map Prod.fst) (DAG.start hash config genesis) :=
    .start config hD.1
  obtain ⟨D', hrunD, hCD, hSD⟩ := submitAll_spec hcf l _ hC
    fun s hs => List.mem_map_of_mem hs
  obtain ⟨E', hrunE, hCE, hSE⟩ := submitAll_spec hcf l' _ hC
    fun s hs => hperm.mem_iff.mpr (List.mem_map_of_mem hs)
  refine ⟨D', E', hrunD, hrunE, Collected.keys_eq hcf hCD hCE (fun w hw => ?_) fun w hw => ?_⟩
  · exact hSD w hw (Or.inl (List.mem_map.mp hw))
  · exact hSE w hw (Or.inl (List.mem_map.mp (hperm.mem_iff.mp hw)))

/-- One branch of the fork, delivered from its tip down to the genesis vertex. -/
theorem delivery_order_independent_fork :
    let submitted := [Fork.root, Fork.a, Fork.b, Fork.ab, Fork.abTip].map fun vx =>
      (vx, (.ascending : HashOrders Digest))
    let init := DAG.start Vertex.wire ⟨2, 1⟩ Fork.root
    ∃ D E, DAG.submitAll Vertex.wire init submitted = some D ∧
      DAG.submitAll Vertex.wire init submitted.reverse = some E ∧
      D.graph.keys = E.graph.keys ∧ D.frontier.keys = E.frontier.keys ∧
      D.pendingQuery.keys = E.pendingQuery.keys := by
  intro submitted init
  have hinit : (Fork.system ⟨2, 1⟩).init init := start_init rfl rfl
  exact delivery_order_independent hinit hinit (Vertex.wire_collisionFree _)
    ((List.reverse_perm submitted).symm.map Prod.fst)

end Taurus
