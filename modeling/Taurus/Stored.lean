import Taurus.Coherence
import Taurus.Frontier

namespace Taurus

variable {H : Type} [LinearOrder H] {hash : Vertex H → H} {it : HashOrders H} {config : Config}
  {genesis vx : Vertex H} {dag dag' : DAG H} {graph : Graph H} {root : H} {s t u : StateMap H}
  {S : Constraint H → Prop} {vertex : HashMap H (Vertex H)} {c d : Constraint H}

namespace DAG

/-- Are the parents that the conflict set holds for `c` its parent constraints? -/
def ParentsStored (dag : DAG H) (c : Constraint H) : Prop :=
  ∃ s, parentsOf dag.state c = some s ∧ ∀ p, p ∈ s ↔ dag.graph.ParentConstraint p c

/-- Do the conflict sets hold the constraint graph of the inserted vertices, in both directions? -/
structure Faithful (dag : DAG H) : Prop where
  parents : ∀ c, dag.graph.Registered c → dag.ParentsStored c
  children : ∀ c p, dag.graph.Registered c → dag.graph.Registered p →
    ∃ parents children, parentsOf dag.state c = some parents ∧
      childrenOf dag.state p = some children ∧ (c ∈ children ↔ p ∈ parents)

/-- Is `c` the constraint for which its conflict set was made? It has its parents there, and
its opposite has none. -/
structure InitialIn (dag : DAG H) (c : Constraint H) : Prop where
  registered : dag.graph.Registered c
  parents : dag.ParentsStored c
  opposite : ∀ d, d.conflictSetKey = c.conflictSetKey → d ≠ c → parentsOf dag.state d = some ∅

end DAG

/-- The parents written for `c` are those of the vertices that it names. -/
def WritesParents (vertex : HashMap H (Vertex H)) (state : StateMap H) (c : Constraint H) : Prop :=
  ∃ l r, vertex.lookup c.left = some l ∧ vertex.lookup c.right = some r ∧
    parentsOf state c = some (l.parentConstraints ++ r.parentConstraints).toFinset

/-- A conflict set that is only in the second state map was made for one of the constraints `S`. -/
structure Born (vertex : HashMap H (Vertex H)) (S : Constraint H → Prop) (s t : StateMap H) :
    Prop extends Grown S s t where
  born : ∀ k ∈ t, k ∉ s → ∃ c, S c ∧ c.conflictSetKey = k ∧ WritesParents vertex t c ∧
    ∀ d, d.conflictSetKey = k → d ≠ c → parentsOf t d = some ∅

namespace Born

theorem refl (vertex : HashMap H (Vertex H)) (S : Constraint H → Prop) (s : StateMap H) :
    Born vertex S s s where
  toGrown := .refl S s
  born _ hk hn := absurd hk hn

theorem trans (hst : Born vertex S s t) (htu : Born vertex S t u) : Born vertex S s u where
  toGrown := hst.toGrown.trans htu.toGrown
  born k hk hn := by
    by_cases hkt : k ∈ t
    · obtain ⟨c, hc, rfl, ⟨l, r, hl, hr, hps⟩, hopp⟩ := hst.born k hkt hn
      -- the parents are as they were in the state map in between
      have hkeep (d : Constraint H) (hd : d.conflictSetKey = c.conflictSetKey) :
          parentsOf u d = parentsOf t d :=
        htu.entry_eq (fun _ _ => rfl) (hd ▸ hkt)
      refine ⟨c, hc, rfl, ⟨l, r, hl, hr, (hkeep c rfl).trans hps⟩, fun d hd hne => ?_⟩
      exact (hkeep d hd).trans (hopp d hd hne)
    · exact htu.born k hk hkt

theorem insertConstraint (hc : S c) (h : DAG.insertConstraint it vertex s c = some t) :
    Born vertex S s t where
  toGrown := insertConstraint_grown hc h
  born k hk hn := by
    obtain ⟨l, r, u, rejected, hl, hr, hu, rfl⟩ := insertConstraint_eq_some h
    have hku : k ∉ u := by
      intro hk
      obtain ⟨cs, hcs⟩ := Finmap.mem_iff.mp hk
      exact ((registerChildren_grown (S := fun _ => False) hu).fresh k cs hcs hn).1
    obtain rfl : k = c.conflictSetKey := ((HashMap.mem_tryInsert ..).mp hk).resolve_right hku
    -- the new conflict set has the parents of `c` and nothing for its opposite
    have hnew (d : Constraint H) (hd : d.conflictSetKey = c.conflictSetKey) :
        parentsOf (HashMap.tryInsert u c.conflictSetKey (bornConflictSet c
          (l.parentConstraints ++ r.parentConstraints).toFinset rejected)) d =
        if d = c then some (l.parentConstraints ++ r.parentConstraints).toFinset else some ∅ := by
      rw [parentsOf, entry_tryInsert, if_pos ⟨hd, hku⟩, parents_bornConflictSet, if_pos hd]
    refine ⟨c, hc, rfl, ⟨l, r, hl, hr, ?_⟩, fun d hd hne => ?_⟩
    · rw [hnew c rfl, if_pos rfl]
    · rw [hnew d hd, if_neg hne]

theorem insert (h : dag.insert hash it vx = some dag') :
    Born dag'.vertex (fun c => c ∈ vx.parentConstraints ∨ c = .unity (hash vx))
      dag.state dag'.state :=
  insert_rel (refl _ _) (fun _ _ _ => trans) (fun _ _ _ hc ht => insertConstraint hc ht) h

end Born

theorem parentsOf_record {w : H} {b : Bool}
    (hok : dag.recordQueryResult hash it w b = .ok dag') (d : Constraint H) :
    parentsOf dag'.state d = parentsOf dag.state d := by
  obtain ⟨vx, dag₁, l, state, _, hb, hf, rfl⟩ := recordQueryResult_eq_ok.mp hok
  obtain ⟨state₀, _, haward, rfl, _, _⟩ := beginRecord_eq_some hb
  have hfree : VoteFree (ConflictSet.parents (H := H)) := fun _ _ _ hparents _ => hparents
  calc
    parentsOf state d = parentsOf state₀ d := hfree.entry_loop hf d
    _ = parentsOf dag.state d := entry_awardIfPreferred (fun _ _ => rfl) haward d

namespace DAG

theorem InitialIn.kept (hc : dag.InitialIn c) (hs : dag.graph.Shaped root genesis)
    (hw : dag.graph.Within dag'.graph)
    (hps : ∀ d, d.conflictSetKey = c.conflictSetKey →
      parentsOf dag'.state d = parentsOf dag.state d) : dag'.InitialIn c where
  registered := hw.registered hc.registered
  parents := by
    obtain ⟨s, hparents, hmem⟩ := hc.parents
    obtain ⟨hl, hr⟩ := hs.registered_mem hc.registered
    refine ⟨s, (hps c rfl).trans hparents, fun p => ?_⟩
    rw [hmem, Graph.ParentConstraint, Graph.ParentConstraint, hw.commitments_eq hl,
      hw.commitments_eq hr]
  opposite d hd hne := (hps d hd).trans (hc.opposite d hd hne)

/-- What a vertex map with the inserted vertices writes as parents are the parent constraints. -/
theorem parentsStored_of_writes (hs : dag.graph.Shaped root genesis)
    (hknown : ∀ h x, dag.graph.lookup h = some x → dag.vertex.lookup h = some x)
    (hc : dag.graph.Registered c) (hw : WritesParents dag.vertex dag.state c) :
    dag.ParentsStored c := by
  obtain ⟨l, r, hl, hr, hps⟩ := hw
  have hlookup {h : H} {x : Vertex H} (hh : h ∈ dag.graph) (hx : dag.vertex.lookup h = some x) :
      dag.graph.lookup h = some x := by
    obtain ⟨y, hy⟩ := Finmap.mem_iff.mp hh
    rw [hy, ← hknown h y hy, hx]
  obtain ⟨hleft, hright⟩ := hs.registered_mem hc
  refine ⟨_, hps, fun p => ?_⟩
  rw [List.mem_toFinset, List.mem_append, Graph.ParentConstraint,
    Graph.commitments_of_lookup (hlookup hleft hl), Graph.commitments_of_lookup (hlookup hright hr)]

/-- Is the conflict set of each inserted constraint as it was made, for one of the two? -/
def InitialsKept (dag : DAG H) : Prop :=
  ∀ d, dag.graph.Registered d → ∃ c, c.conflictSetKey = d.conflictSetKey ∧ dag.InitialIn c

namespace InitialsKept

theorem start (hg : genesis.parents = []) : (DAG.start hash config genesis).InitialsKept := by
  intro d hd
  obtain rfl := (registered_start hg).mp hd
  refine ⟨.unity (hash genesis), rfl, hd, ⟨∅, ?_, fun p => ?_⟩, fun e he hne => ?_⟩
  · rw [DAG.start, parentsOf, entry_insert, if_pos rfl]
    exact (ConflictSet.lookup_orientations _ _ _ _).trans (if_pos rfl)
  · exact iff_of_false (Finset.notMem_empty p) (not_parentConstraint_start hg p)
  · exact absurd ((Constraint.conflictSetKey_unity_eq_iff _ _).mp he) hne

theorem attempt (hI : dag.InitialsKept) (hd : Sound hash genesis dag)
    (ha : Attempt hash it vx dag dag') : dag'.InitialsKept := by
  intro d hreg
  have hd' := ha.sound hd
  have hw : dag.graph.Within dag'.graph := (Continues.of_attempt hd ha).within
  by_cases hk : d.conflictSetKey ∈ dag.state
  · obtain ⟨e, he, hke⟩ := (hd.stores.key_mem _).mp hk
    obtain ⟨c, hkc, hc⟩ := hI e he
    refine ⟨c, hkc.trans hke, hc.kept hd.shaped hw fun x hx => ?_⟩
    exact ha.grown.entry_eq (fun _ _ => rfl) (hx.trans (hkc.trans hke) ▸ hk)
  rcases ha.cases with ⟨e, _, rfl⟩ | ⟨_, hins⟩
  · rw [park_graph] at hreg
    exact absurd (hd.stores.mem_of_registered hreg) hk
  · obtain ⟨c, hc, hkc, hwrites, hopp⟩ :=
      (Born.insert hins).born _ (hd'.stores.mem_of_registered hreg) hk
    have hregc : dag'.graph.Registered c := by
      rcases ha.passes_or_kept hd with ⟨hgraph, _⟩ | ⟨hpass, hi⟩
      · exact absurd (hd.stores.mem_of_registered (hgraph ▸ hreg)) hk
      · rw [hi.graph, Graph.registered_insert hpass.ready.fresh]
        exact Or.inr hc
    exact ⟨c, hkc, hregc, parentsStored_of_writes hd'.shaped hd'.inserted_known hregc hwrites,
      fun x hx => hopp x (hx.trans hkc)⟩

theorem record {w : H} {b : Bool} (hI : dag.InitialsKept) (hd : Sound hash genesis dag)
    (hok : dag.recordQueryResult hash it w b = .ok dag') : dag'.InitialsKept := by
  have hgraph : dag'.graph = dag.graph := by
    obtain ⟨_, rfl⟩ := record_eq_recording hok
    rfl
  intro d hreg
  obtain ⟨c, hk, hc⟩ := hI d (hgraph ▸ hreg)
  refine ⟨c, hk, hc.kept hd.shaped ?_ fun e _ => parentsOf_record hok e⟩
  rw [hgraph]
  exact fun _ _ hx => hx

theorem of_reachable (h : (DAG.system hash config genesis).Reachable dag) : dag.InitialsKept :=
  reachable_induct (P := DAG.InitialsKept) h start (fun _ _ _ _ hd hP ha => hP.attempt hd ha)
    fun _ _ _ _ _ hd hP hok => hP.record hd hok

end InitialsKept

/-- Of what is inserted all parents are stored, but for the orderings whose opposite was
inserted before. -/
theorem InitialsKept.initial_or (hI : dag.InitialsKept) (hc : dag.graph.Registered c) :
    dag.InitialIn c ∨ c.left ≠ c.right ∧ dag.InitialIn c.swap := by
  obtain ⟨d, hk, hd⟩ := hI c hc
  rcases (Constraint.conflictSetKey_eq_iff d c).mp hk with rfl | rfl
  · exact Or.inl hd
  · by_cases he : c.left = c.right
    · have hsw : c.swap = c := by
        rw [c.eq_unity_of_left_eq_right he]
        rfl
      exact Or.inl (hsw ▸ hd)
    · exact Or.inr ⟨he, hd⟩

/-- Two vertices are not both the first one, so something is committed to below an ordering. -/
theorem exists_parentConstraint (hs : dag.graph.Shaped root genesis)
    (hc : dag.graph.Registered c) (hne : c.left ≠ c.right) :
    ∃ p, dag.graph.ParentConstraint p c := by
  obtain ⟨hl, hr⟩ := hs.registered_mem hc
  have hcommits {h : H} (hh : h ∈ dag.graph) (hroot : h ≠ root) :
      ∃ p, p ∈ dag.graph.commitments h := by
    obtain ⟨x, hx⟩ := Finmap.mem_iff.mp hh
    obtain ⟨p, hp⟩ := List.exists_mem_of_ne_nil _ (hs.legal h x hx hroot).nonempty
    exact ⟨.unity p, Graph.unity_mem_commitments ⟨x, hx, hp⟩⟩
  by_cases hroot : c.left = root
  · obtain ⟨p, hp⟩ := hcommits hr fun h => hne (hroot.trans h.symm)
    exact ⟨p, Or.inr hp⟩
  · obtain ⟨p, hp⟩ := hcommits hl hroot
    exact ⟨p, Or.inl hp⟩

/-- Of two opposite orderings that are inserted exactly one is stored with its parents. -/
theorem InitialsKept.parentsStored_swap_iff (hI : dag.InitialsKept)
    (hs : dag.graph.Shaped root genesis) (hc : dag.graph.Registered c)
    (hsw : dag.graph.Registered c.swap) (hne : c.left ≠ c.right) :
    dag.ParentsStored c.swap ↔ ¬ dag.ParentsStored c := by
  -- the opposite of an initial ordering has parents, but none are stored
  have hlost {d : Constraint H} (hd : dag.InitialIn d) (hd' : dag.graph.Registered d.swap)
      (hne : d.left ≠ d.right) : ¬ dag.ParentsStored d.swap := by
    rintro ⟨s, hps, hmem⟩
    have hempty := hd.opposite d.swap (Constraint.conflictSetKey_swap d) fun h =>
      hne (congrArg Constraint.right h)
    obtain ⟨p, hp⟩ := exists_parentConstraint hs hd' hne.symm
    rw [hps, Option.some.injEq] at hempty
    exact Finset.notMem_empty p (hempty ▸ (hmem p).mpr hp)
  rcases hI.initial_or hc with hd | ⟨_, hd⟩
  · exact iff_of_false (hlost hd hsw hne) (not_not_intro hd.parents)
  · refine iff_of_true hd.parents ?_
    have h := hlost hd (by rwa [Constraint.swap_swap]) hne.symm
    rwa [Constraint.swap_swap] at h

end DAG

/-- The stored graph is that of the inserted vertices as long as no two of them commit to
opposite orderings. -/
theorem faithful_iff_uncontested (h : (DAG.system hash config genesis).Reachable dag) :
    dag.Faithful ↔ dag.graph.Uncontested := by
  have hd : Sound hash genesis dag := sound_of_reachable h
  have hI := DAG.InitialsKept.of_reachable h
  constructor
  · intro hf c hc hne hsw
    exact (hI.parentsStored_swap_iff hd.shaped hc hsw hne).mp (hf.parents _ hsw) (hf.parents c hc)
  · intro hun
    have hstored (c : Constraint H) (hc : dag.graph.Registered c) : dag.ParentsStored c := by
      rcases hI.initial_or hc with hinit | ⟨hne, hinit⟩
      · exact hinit.parents
      · exact absurd hinit.registered (hun c hc hne)
    refine ⟨hstored, fun c p hc hp => ?_⟩
    obtain ⟨parents, hparents, hmem⟩ := hstored c hc
    obtain ⟨children, hchildren⟩ := hd.stores.childrenOf_isSome (hd.stores.mem_of_registered hp)
    refine ⟨parents, children, hparents, hchildren, ?_⟩
    rw [hd.stores.children p children hchildren, hmem, and_iff_right hc]

theorem faithful_iff_uncontested_fork : ∃ dag : DAG Digest,
    ⟨Fork.a.wire, Fork.b.wire⟩ ∈ dag.graph.commitments Fork.ab.wire ∧ dag.Faithful := by
  have hrun : ∃ dag, (Fork.system ⟨2, 1⟩).Reachable dag ∧
      ⟨Fork.a.wire, Fork.b.wire⟩ ∈ dag.graph.commitments Fork.ab.wire ∧
      ∀ u ∈ dag.graph.keys, ∀ c ∈ dag.graph.commitments u, c.left ≠ c.right →
        ∀ w ∈ dag.graph.keys, c.swap ∉ dag.graph.commitments w :=
    reachable_of_run rfl rfl (Fork.run [Fork.a, Fork.b, Fork.ab] []) (by decide +kernel)
  obtain ⟨dag, hr, hab, hun⟩ := hrun
  -- an ordering of two vertices is inserted with a vertex that commits to it
  have hcommitted {c : Constraint Digest} (hc : dag.graph.Registered c) (hne : c.left ≠ c.right) :
      ∃ u ∈ dag.graph.keys, c ∈ dag.graph.commitments u := by
    obtain ⟨u, hu, rfl | hcu⟩ := hc
    · exact absurd rfl hne
    · exact ⟨u, Finmap.mem_keys.mpr hu, hcu⟩
  refine ⟨dag, hab, (faithful_iff_uncontested hr).mpr fun c hc hne hsw => ?_⟩
  obtain ⟨u, hu, hcu⟩ := hcommitted hc hne
  obtain ⟨w, hw, hsw⟩ := hcommitted hsw hne.symm
  exact hun u hu c hcu hne w hw hsw

/-- The second of two opposite orderings is stored without its parents. -/
theorem later_ordering_parentless : Vertex.CollisionFree Vertex.wire Set.univ ∧
    ∃ dag, (Fork.system ⟨2, 1⟩).Reachable dag ∧
      dag.graph.Registered ⟨Fork.b.wire, Fork.a.wire⟩ ∧
      dag.graph.ParentConstraint (.unity Fork.root.wire) ⟨Fork.b.wire, Fork.a.wire⟩ ∧
      parentsOf dag.state ⟨Fork.b.wire, Fork.a.wire⟩ = some ∅ := by
  have hrun : ∃ dag, (Fork.system ⟨2, 1⟩).Reachable dag ∧
      ⟨Fork.b.wire, Fork.a.wire⟩ ∈ dag.graph.commitments Fork.ba.wire ∧
      .unity Fork.root.wire ∈ dag.graph.commitments Fork.b.wire ∧
      parentsOf dag.state ⟨Fork.b.wire, Fork.a.wire⟩ = some ∅ :=
    reachable_of_run rfl rfl (Fork.run [Fork.a, Fork.b, Fork.ab, Fork.ba] []) (by decide +kernel)
  obtain ⟨dag, hr, hba, hb, hparents⟩ := hrun
  exact ⟨Vertex.wire_collisionFree _, dag, hr, Graph.registered_of_mem_commitments hba, Or.inl hb,
    hparents⟩

end Taurus
