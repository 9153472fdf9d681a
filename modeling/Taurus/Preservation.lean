import Taurus.Check
import Taurus.Insertion
import Taurus.Votes

namespace Taurus

open Relation

variable {H : Type} [LinearOrder H] {hash : Vertex H → H} {it : HashOrders H}
  {genesis : Vertex H} {dag dag' : DAG H} {vx : Vertex H}

theorem lookup_addChild (children : HashMap H (HashSet H)) (vhash p q : H) :
    (DAG.addChild vhash children q).lookup p =
      if p = q then some (insert vhash ((children.lookup p).getD ∅)) else children.lookup p := by
  unfold DAG.addChild
  cases hq : children.lookup q with
  | none =>
    rw [HashMap.lookup_insert]
    by_cases hp : p = q
    · subst hp
      simp [hq]
    · simp [hp]
  | some known =>
    rw [HashMap.lookup_insert]
    by_cases hp : p = q
    · subst hp
      simp [hq]
    · simp [hp]

theorem lookup_mapChild (children : HashMap H (HashSet H)) (vhash p : H) (parents : List H) :
    (DAG.mapChild children vhash parents).lookup p =
      if p ∈ parents then some (insert vhash ((children.lookup p).getD ∅))
      else children.lookup p := by
  induction parents generalizing children with
  | nil => simp [DAG.mapChild]
  | cons q parents ih =>
    rw [DAG.mapChild, List.foldl_cons]
    change (DAG.mapChild _ vhash parents).lookup p = _
    rw [ih, lookup_addChild]
    by_cases hp : p = q
    · subst hp
      by_cases hm : p ∈ parents <;> simp [hm]
    · simp [hp]

theorem mem_mapChild {children : HashMap H (HashSet H)} {vhash p h : H} {parents : List H}
    {s : HashSet H} (hs : (DAG.mapChild children vhash parents).lookup p = some s) :
    h ∈ s ↔ (h = vhash ∧ p ∈ parents) ∨ ∃ s', children.lookup p = some s' ∧ h ∈ s' := by
  rw [lookup_mapChild] at hs
  split at hs
  · next hp =>
    cases hs
    rw [Finset.mem_insert]
    cases children.lookup p with
    | none => simp [hp]
    | some s' => simp [hp]
  · next hp =>
    simp [hp, hs]

/-- The known children stay listed when another vertex is registered with its parents. -/
theorem listed_mapChild {children : HashMap H (HashSet H)} {vhash p h : H} {parents : List H}
    (hl : (h = vhash ∧ p ∈ parents) ∨ ∃ s, children.lookup p = some s ∧ h ∈ s) :
    ∃ s, (DAG.mapChild children vhash parents).lookup p = some s ∧ h ∈ s := by
  by_cases hp : p ∈ parents
  · refine ⟨_, by rw [lookup_mapChild, if_pos hp], ?_⟩
    rw [Finset.mem_insert]
    rcases hl with ⟨he, _⟩ | ⟨s, hs, hh⟩
    · exact Or.inl he
    · rw [hs]
      exact Or.inr hh
  · rcases hl with ⟨_, hq⟩ | ⟨s, hs, hh⟩
    · exact absurd hq hp
    · exact ⟨s, by rw [lookup_mapChild, if_neg hp, hs], hh⟩

theorem mem_eraseAll {V : Type} (l : List H) (m : HashMap H V) (h : H) :
    h ∈ l.foldl (fun m p => m.erase p) m ↔ h ∈ m ∧ h ∉ l := by
  induction l generalizing m with
  | nil => simp
  | cons p l ih =>
    rw [List.foldl_cons, ih, Finmap.mem_erase, List.mem_cons]
    tauto

namespace DAG

/-- The state of `new` on a single vertex without parents. -/
def start (hash : Vertex H → H) (config : Config) (genesis : Vertex H) : DAG H :=
  let vhash := hash genesis
  let unity := Constraint.unity vhash
  { config := config
    vertex := Finmap.insert vhash genesis ∅
    graph := Finmap.insert vhash genesis ∅
    pendingQuery := (Finmap.insert vhash genesis ∅).erase vhash
    children := Finmap.insert vhash ∅ ∅
    state := Finmap.insert unity.conflictSetKey
      { ConflictSet.new unity ∅ with decision := Finmap.insert unity true ∅ } ∅
    frontier := Finmap.insert vhash genesis ∅ }

/-- `new` accepts a parentless vertex, in whatever order sets are iterated. -/
theorem new_eq (config : Config) (hg : genesis.parents = []) (hc : config.check = .ok () (ε := Error H)) :
    DAG.new hash it config [genesis] = .ok (start hash config genesis) := by
  -- without parents, the loop over constraints has the unity constraint alone
  have hpc : genesis.parentConstraints = [] := by
    rw [Vertex.parentConstraints, hg]
    rfl
  have horder (c : Constraint H) : it.constraints.order c ∅ = [] := by
    rw [← List.length_eq_zero_iff, HashOrder.length_order, Finset.card_empty]
  have hins : insertConstraint it (Finmap.insert (hash genesis) genesis ∅) ∅
      (.unity (hash genesis)) = some (Finmap.insert (Constraint.unity (hash genesis)).conflictSetKey
        (ConflictSet.new (.unity (hash genesis)) ∅) ∅) := by
    simp [insertConstraint, hpc, horder, HashMap.tryInsert, Finmap.notMem_empty]
  have hinsert : insert hash it (empty config) genesis = some
      { config := config
        vertex := Finmap.insert (hash genesis) genesis ∅
        graph := Finmap.insert (hash genesis) genesis ∅
        pendingQuery := Finmap.insert (hash genesis) genesis ∅
        children := Finmap.insert (hash genesis) ∅ ∅
        state := Finmap.insert (Constraint.unity (hash genesis)).conflictSetKey
          (ConflictSet.new (.unity (hash genesis)) ∅) ∅
        frontier := Finmap.insert (hash genesis) genesis ∅ } := by
    simp [insert, empty, hpc, horder, hins, hg, mapChild, HashMap.tryInsert, Finmap.notMem_empty]
  have hmark : markAccepted (Finmap.insert (Constraint.unity (hash genesis)).conflictSetKey
      (ConflictSet.new (.unity (hash genesis)) ∅) ∅) (.unity (hash genesis)) =
      some (start hash config genesis).state := by
    simp only [markAccepted, Finmap.lookup_insert, Option.bind_eq_bind, Option.bind_some,
      Option.pure_def, Finmap.insert_insert, start]
    rfl
  have hdec : insertDecided hash it (empty config) genesis = some (start hash config genesis) := by
    simp only [insertDecided, hinsert, hpc, List.nil_append, Option.bind_eq_bind, Option.bind_some,
      List.foldlM_cons, List.foldlM_nil, hmark, Option.pure_def]
    rfl
  simp only [new, hc, List.foldlM_cons, List.foldlM_nil, hdec, Option.bind_eq_bind, Option.bind_some,
    Option.pure_def]
  rfl

variable {config : Config} {p h : H} {c : Constraint H}

theorem lookup_start {v : Vertex H} (hv : (start hash config genesis).graph.lookup h = some v) :
    h = hash genesis ∧ v = genesis := by
  change (Finmap.insert (hash genesis) genesis (∅ : Graph H)).lookup h = some v at hv
  rw [HashMap.lookup_insert] at hv
  split at hv
  · next he => exact ⟨he, (Option.some.inj hv).symm⟩
  · cases hv

/-- To begin with the genesis vertex has no children. -/
theorem children_start {s : HashSet H}
    (hs : (start hash config genesis).children.lookup p = some s) : s = ∅ := by
  change (Finmap.insert (hash genesis) (∅ : HashSet H) (∅ : HashMap H (HashSet H))).lookup p = _ at hs
  rw [HashMap.lookup_insert] at hs
  split at hs
  · cases hs
    rfl
  · cases hs

theorem mem_start : h ∈ (start hash config genesis).graph ↔ h = hash genesis :=
  Finmap.mem_insert.trans (or_iff_left Finmap.notMem_empty)

/-- To begin with the genesis vertex is the one inserted vertex, and not pending. -/
theorem mem_pendingQuery_start : h ∈ (start hash config genesis).pendingQuery ↔
    h ∈ (start hash config genesis).graph ∧ h ≠ hash genesis := by
  change h ∈ (start hash config genesis).graph.erase (hash genesis) ↔ _
  rw [Finmap.mem_erase]
  exact and_comm

theorem not_isParent_start (hg : genesis.parents = []) :
    ¬ (start hash config genesis).graph.IsParent p h := by
  rintro ⟨v, hv, hp⟩
  rw [(lookup_start hv).2, hg] at hp
  cases hp

/-- To begin with nobody commits to anything. -/
theorem not_parentConstraint_start (hg : genesis.parents = []) (p : Constraint H) :
    ¬ (start hash config genesis).graph.ParentConstraint p c := by
  have hno (h : H) : p ∉ (start hash config genesis).graph.commitments h := fun hp =>
    not_isParent_start hg (Graph.isParent_of_mem_commitments hp).1
  exact fun hp => hp.elim (hno _) (hno _)

/-- To begin with only the genesis vertex is decided. -/
theorem decisionOf_start : decisionOf (start hash config genesis).state c =
    if c = .unity (hash genesis) then some true else none := by
  change decisionOf (Finmap.insert (Constraint.unity (hash genesis)).conflictSetKey _ ∅) c = _
  rw [decisionOf, entry_insert, HashMap.lookup_insert]
  by_cases hk : c.conflictSetKey = (Constraint.unity (hash genesis)).conflictSetKey
  · rw [if_pos hk, Finmap.lookup_empty]
  · have hne : c ≠ .unity (hash genesis) := fun h => hk (congrArg _ h)
    rw [if_neg hk, if_neg hne]
    exact entry_of_notMem Finmap.notMem_empty

theorem registered_start (hg : genesis.parents = []) :
    (start hash config genesis).graph.Registered c ↔ c = .unity (hash genesis) := by
  constructor
  · rintro ⟨h, hh, hc | hc⟩
    · rw [hc, mem_start.mp hh]
    · exact absurd (Graph.isParent_of_mem_commitments hc).1 (not_isParent_start hg)
  · rintro rfl
    exact Graph.registered_unity (mem_start.mpr rfl)

theorem shaped_start (hg : genesis.parents = []) :
    (start hash config genesis).graph.Shaped (hash genesis) genesis := by
  refine ⟨Finmap.lookup_insert _, hg, fun h v hv hne => ?_, fun h v hv => ?_⟩
  · exact absurd (lookup_start hv).1 hne
  · have hk : (start hash config genesis).graph.keys = {hash genesis} := by
      ext k
      rw [Finmap.mem_keys, mem_start, Finset.mem_singleton]
    rw [(lookup_start hv).2, hk]
    exact ⟨le_rfl, by simp⟩

/-- The conflict set of the genesis vertex lists neither parents nor children. -/
theorem stores_start (hg : genesis.parents = []) :
    Stores (start hash config genesis).graph.Registered
      (start hash config genesis).graph.ParentConstraint (start hash config genesis).state := by
  let unity := Constraint.unity (hash genesis)
  -- every entry is one of the conflict set of the genesis vertex
  have hw : ({ ConflictSet.new unity ∅ with decision := Finmap.insert unity true ∅ } :
      ConflictSet H).WellFormed unity.conflictSetKey :=
    (ConflictSet.new_wellFormed unity ∅).decide rfl true
  have hfield {V : Type} {f : ConflictSet H → HashMap (Constraint H) V} {c : Constraint H} {v : V}
      (hv : entry f (start hash config genesis).state c = some v) :
      (f { ConflictSet.new unity ∅ with decision := Finmap.insert unity true ∅ }).lookup c =
        some v := by
    change entry f (Finmap.insert unity.conflictSetKey _ ∅) c = _ at hv
    rw [entry_insert] at hv
    split at hv
    · exact hv
    · rw [entry_of_notMem Finmap.notMem_empty] at hv
      cases hv
  have hempty (c : Constraint H) (s : HashSet (Constraint H))
      (hs : (collectMap ((ConflictSet.orientations unity).zip [∅, ∅])).lookup c = some s) :
      s = ∅ := by
    rw [ConflictSet.lookup_orientations] at hs
    split at hs
    · exact (Option.some.inj hs).symm
    split at hs
    · exact (Option.some.inj hs).symm
    · cases hs
  constructor
  case key_mem =>
    intro k
    change k ∈ Finmap.insert unity.conflictSetKey _ ∅ ↔ _
    simp only [Finmap.mem_insert, Finmap.notMem_empty, or_false, registered_start hg,
      exists_eq_left]
    exact eq_comm
  case wellFormed =>
    intro k cs hcs
    change (Finmap.insert unity.conflictSetKey _ (∅ : StateMap H)).lookup k = some cs at hcs
    rw [HashMap.lookup_insert] at hcs
    split at hcs
    · next hk =>
      cases hcs
      exact hk ▸ hw
    · cases hcs
  case children =>
    intro p s hs d
    rw [hempty p s (hfield hs)]
    exact ⟨fun h => absurd h (Finset.notMem_empty d),
      fun h => absurd h.2 (not_parentConstraint_start hg _)⟩
  case parents =>
    intro c s hs p hp
    rw [hempty c s (hfield hs)] at hp
    exact absurd hp (Finset.notMem_empty p)
  case unity_parents =>
    intro h s _ p hp
    exact absurd hp (not_parentConstraint_start hg _)

end DAG

namespace Sound

theorem start (config : Config) (hg : genesis.parents = []) :
    Sound hash genesis (DAG.start hash config genesis) := by
  have hlookup {h : H} {v : Vertex H} (hv : (DAG.start hash config genesis).graph.lookup h = some v) :
      h = hash genesis ∧ v = genesis := DAG.lookup_start hv
  constructor
  case hash_eq =>
    intro h v hv
    obtain ⟨rfl, rfl⟩ := hlookup hv
    rfl
  case inserted_known =>
    exact fun h v hv => hv
  case pending_inserted =>
    intro h v hv
    obtain ⟨hh, hne⟩ := DAG.mem_pendingQuery_start.mp (Finmap.mem_of_lookup_eq_some hv)
    exact absurd (DAG.mem_start.mp hh) hne
  case children_known =>
    intro p s hs h hh
    rw [DAG.children_start hs] at hh
    exact absurd hh (Finset.notMem_empty h)
  case children_listed =>
    intro h v hv p hp
    rw [(hlookup hv).2, hg] at hp
    cases hp
  case frontier_iff =>
    exact fun h => ⟨fun hf => ⟨hf, fun _ => DAG.not_isParent_start hg⟩, fun hf => hf.1⟩
  case shaped =>
    exact DAG.shaped_start hg
  case stores =>
    exact DAG.stores_start hg
  case accepted_registered =>
    intro c hc
    rw [DAG.decisionOf_start] at hc
    split at hc
    · next he => exact (DAG.registered_start hg).mpr he
    · cases hc
  case genesis_accepted =>
    rw [DAG.decisionOf_start, if_pos rfl]
  case exclusive =>
    intro c o ho hc
    rw [DAG.decisionOf_start] at hc
    split at hc
    · next he =>
      rw [Graph.constraintGraph_opposite, he, Constraint.conflict_unity] at ho
      cases ho
    · cases hc
  case decided =>
    intro c _ p hp _
    exact absurd hp.2 (DAG.not_parentConstraint_start hg _)

/-- Keeping a vertex for later touches only the maps of known vertices and children. -/
theorem park (hd : Sound hash genesis dag) (hf : hash vx ∉ dag.graph) (e : Error H) :
    Sound hash genesis (dag.park hash vx e) := by
  have hparked : Sound hash genesis { dag with
      children := DAG.mapChild dag.children (hash vx) vx.parents
      vertex := dag.vertex.insert (hash vx) vx } := by
    refine { hd with
      hash_eq := fun h v hv => ?_
      inserted_known := fun h v hv => ?_
      children_known := fun p s hs h hh => ?_
      children_listed := fun h v hv p hp => ?_ }
    · rw [HashMap.lookup_insert] at hv
      split at hv
      · next he =>
        cases hv
        exact he.symm
      · exact hd.hash_eq h v hv
    · rw [HashMap.lookup_insert, if_neg, hd.inserted_known h v hv]
      rintro rfl
      exact hf (Finmap.mem_of_lookup_eq_some hv)
    · rw [Finmap.mem_insert]
      rcases (mem_mapChild hs).mp hh with ⟨he, _⟩ | ⟨s', hs', hh'⟩
      · exact Or.inl he
      · exact Or.inr (hd.children_known p s' hs' h hh')
    · refine listed_mapChild ?_
      rw [HashMap.lookup_insert] at hv
      split at hv
      · next he =>
        cases hv
        exact Or.inl ⟨he, hp⟩
      · exact Or.inr (hd.children_listed h v hv p hp)
  cases e <;> first | exact hd | exact hparked

/-- Inserting a legal vertex keeps every invariant. -/
theorem insert (hd : Sound hash genesis dag) (hf : hash vx ∉ dag.graph) (hl : dag.graph.Legal vx)
    (hi : InsertedDAG hash vx dag dag') : Sound hash genesis dag' := by
  have hs' := hd.shaped.insert hf hl
  -- the vertex is new, so what is said of the older ones stays
  have hroot := hd.shaped.root_mem
  have hold {h : H} (hh : h ∈ dag.graph) : h ≠ hash vx := fun he => hf (he ▸ hh)
  constructor
  case hash_eq =>
    intro h v hv
    rw [hi.vertex, HashMap.lookup_insert] at hv
    split at hv
    · next he =>
      cases hv
      exact he.symm
    · exact hd.hash_eq h v hv
  case inserted_known =>
    intro h v hv
    rw [hi.graph, HashMap.lookup_insert] at hv
    rw [hi.vertex, HashMap.lookup_insert]
    split at hv
    · next he => rw [if_pos he, hv]
    · next he => rw [if_neg he, hd.inserted_known h v hv]
  case pending_inserted =>
    intro h v hv
    rw [hi.pendingQuery, HashMap.lookup_insert] at hv
    rw [hi.graph, HashMap.lookup_insert]
    split at hv
    · next he =>
      rw [if_pos he]
      exact ⟨hv, fun hg => hold hroot (hg.symm.trans he)⟩
    · next he =>
      rw [if_neg he]
      exact hd.pending_inserted h v hv
  case children_known =>
    intro p s hs h hh
    rw [hi.children] at hs
    rw [hi.vertex, Finmap.mem_insert]
    rcases (mem_mapChild hs).mp hh with ⟨he, _⟩ | ⟨s', hs', hh'⟩
    · exact Or.inl he
    · rw [HashMap.lookup_tryInsert] at hs'
      split at hs'
      · cases hs'
        exact absurd hh' (Finset.notMem_empty h)
      · exact Or.inr (hd.children_known p s' hs' h hh')
  case children_listed =>
    intro h v hv p hp
    rw [hi.vertex, HashMap.lookup_insert] at hv
    rw [hi.children]
    refine listed_mapChild ?_
    split at hv
    · next he =>
      cases hv
      exact Or.inl ⟨he, hp⟩
    · obtain ⟨s, hs, hh⟩ := hd.children_listed h v hv p hp
      refine Or.inr ⟨s, ?_, hh⟩
      rw [HashMap.lookup_tryInsert, if_neg, hs]
      rintro ⟨rfl, hn⟩
      exact hn (Finmap.mem_of_lookup_eq_some hs)
  case frontier_iff =>
    intro h
    rw [hi.frontier, hi.graph, Finmap.mem_insert, mem_eraseAll, hd.frontier_iff,
      Graph.childless_insert hd.shaped hf hl]
  case shaped =>
    rw [hi.graph]
    exact hs'
  case stores =>
    rw [hi.graph]
    exact hi.state.stores
  case accepted_registered =>
    intro c hc
    rw [hi.graph, Graph.registered_insert hf]
    rcases hi.state.decisions.origin c true hc with h | ⟨h, _⟩
    · exact Or.inl (hd.accepted_registered c h)
    · cases h
  case genesis_accepted =>
    exact hi.state.decisions.kept _ _ hd.genesis_accepted
  case exclusive =>
    intro c o ho hc
    rcases hi.state.decisions.origin c true hc with h | ⟨h, _⟩
    · exact hi.state.decisions.kept _ _ (hd.exclusive c o ho h)
    · cases h
  case decided =>
    intro c hu p hp hpf
    rw [hi.graph] at hp
    obtain ⟨k, rfl⟩ := c.exists_eq_unity hu
    -- an older vertex keeps its decision, the new one is born rejected below a rejection
    rcases Graph.child_unity_insert hd.shaped hf hp with ⟨hk, hp'⟩ | ⟨rfl, hpx⟩
    · have hpk := hd.stores.mem_of_registered (Graph.registered_of_parentConstraint hp'.2)
      rw [(hi.state.decisions.known p hpk).2] at hpf
      rw [(hi.state.decisions.known _ (hd.unity_mem hk)).2]
      exact hd.decided (.unity k) hu p hp' hpf
    · rw [hi.state.unity_rejected p hpx hpf]
      simp

/-- No proposition with an opposite lies above the unity constraint of the genesis vertex. -/
theorem not_against_genesis (hd : Sound hash genesis dag) (c : Constraint H) :
    ¬ dag.graph.constraintGraph.Against c (.unity (hash genesis)) := by
  rintro ⟨o, ho, hline⟩
  rcases reflTransGen_iff_eq_or_transGen.mp hline with he | hline
  · rw [Graph.constraintGraph_opposite, Constraint.conflict_eq_some] at ho
    have heq : c.swap.left = c.swap.right := ho.2 ▸ he ▸ rfl
    exact ho.1 heq.symm
  · have hroot : ∀ p, ¬ dag.graph.IsParent p (hash genesis) := fun p hp => by
      have hm := Graph.unity_mem_commitments hp
      rw [hd.shaped.commitments_root] at hm
      cases hm
    have hno : ¬ dag.graph.Commits (hash genesis) o := fun hc => by
      rcases Graph.commits_iff.mp hc with hc | ⟨p, hp, _⟩
      · rw [hd.shaped.commitments_root] at hc
        cases hc
      · exact hroot p hp
    exact (Graph.above_iff_commits.mp hline).2.elim hno hno

/-- Votes keep every invariant: the decisions change by acceptance steps at most. -/
theorem vote (hd : Sound hash genesis dag) {state : StateMap H} (hs : SameShape dag.state state)
    (hdec : decisionOf state = decisionOf dag.state ∨ ∃ c, dag.graph.Registered c ∧
      decisionOf state = dag.graph.constraintGraph.accepted (decisionOf dag.state) c) :
    Sound hash genesis { dag with state := state } := by
  rcases hdec with hdec | ⟨c, hreg, hdec⟩
  · exact { hd with
      stores := hd.stores.sameShape hs
      accepted_registered := hdec ▸ hd.accepted_registered
      genesis_accepted := hdec ▸ hd.genesis_accepted
      exclusive := hdec ▸ hd.exclusive
      decided := hdec ▸ hd.decided }
  · refine { hd with
      stores := hd.stores.sameShape hs
      accepted_registered := fun d hd' => ?_
      genesis_accepted := ?_
      exclusive := ?_
      decided := ?_ }
    · rw [hdec] at hd'
      rcases (ConflictGraph.of_accepted_eq_true hd').2 with rfl | h
      · exact hreg
      · exact hd.accepted_registered d h
    · rw [hdec]
      exact ConflictGraph.accepted_of_true hd.genesis_accepted (hd.not_against_genesis c)
    · rw [hdec]
      exact hd.exclusive.accepted
    · rw [hdec]
      exact hd.decided.accepted

theorem erasePending (hd : Sound hash genesis dag) (h : H) :
    Sound hash genesis { dag with pendingQuery := dag.pendingQuery.erase h } := by
  refine { hd with pending_inserted := fun k v hv => hd.pending_inserted k v ?_ }
  by_cases hk : k = h
  · subst hk
    rw [show _ = _ from Finmap.lookup_erase k dag.pendingQuery] at hv
    cases hv
  · rwa [show _ = _ from Finmap.lookup_erase_ne hk] at hv

end Sound

end Taurus
