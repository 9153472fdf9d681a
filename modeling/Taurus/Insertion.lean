import Taurus.Registration
import Taurus.Graph

namespace Taurus

open Relation

variable {H : Type} [LinearOrder H] {hash : Vertex H → H} {it : HashOrders H}

/-- How insertion changes the decisions: those there stay, and what is newly decided is
the rejection of something with a rejected parent. -/
structure Extends (par : Constraint H → Constraint H → Prop) (state state' : StateMap H) :
    Prop where
  kept : ∀ d b, decisionOf state d = some b → decisionOf state' d = some b
  known : ∀ d, d.conflictSetKey ∈ state →
    d.conflictSetKey ∈ state' ∧ decisionOf state' d = decisionOf state d
  origin : ∀ d b, decisionOf state' d = some b → decisionOf state d = some b ∨
    b = false ∧ ∃ p, par p d ∧ decisionOf state' p = some false

theorem Extends.refl (par : Constraint H → Constraint H → Prop) (state : StateMap H) :
    Extends par state state where
  kept _ _ h := h
  known _ h := ⟨h, rfl⟩
  origin _ _ h := Or.inl h

theorem Extends.trans {par : Constraint H → Constraint H → Prop} {s t u : StateMap H}
    (hst : Extends par s t) (htu : Extends par t u) : Extends par s u where
  kept d b h := htu.kept d b (hst.kept d b h)
  known d h := by
    obtain ⟨ht, hd⟩ := hst.known d h
    obtain ⟨hu, hd'⟩ := htu.known d ht
    exact ⟨hu, hd'.trans hd⟩
  origin d b h := by
    rcases htu.origin d b h with ht | hp
    · rcases hst.origin d b ht with hs | ⟨hb, p, hp, hf⟩
      · exact Or.inl hs
      · exact Or.inr ⟨hb, p, hp, htu.kept p false hf⟩
    · exact Or.inr hp

theorem insertConstraint_extends (it : HashOrders H) {R : Constraint H → Prop}
    {par : Constraint H → Constraint H → Prop} {state : StateMap H}
    {vertex : HashMap H (Vertex H)} {c : Constraint H} {l r : Vertex H}
    (hS : Stores R par state) (hj : Joins R par c)
    (hl : vertex.lookup c.left = some l) (hr : vertex.lookup c.right = some r)
    (hpar : ∀ p, par p c ↔ p ∈ l.parentConstraints ∨ p ∈ r.parentConstraints) :
    ∃ state', DAG.insertConstraint it vertex state c = some state' ∧
      Stores (fun d => R d ∨ d = c) par state' ∧ Extends par state state' ∧
      (c.conflictSetKey ∉ state → (∃ p, par p c ∧ decisionOf state p = some false) →
        decisionOf state' c = some false) := by
  obtain ⟨state', hrun, hS', hkept, hdec⟩ := insertConstraint_spec it hS hj hl hr hpar
  have hkeep (d : Constraint H) (b : Bool) (h : decisionOf state d = some b) :
      decisionOf state' d = some b := (hdec d b).mpr (Or.inl h)
  refine ⟨state', hrun, hS', ⟨hkeep, ?_, ?_⟩, ?_⟩
  · intro d hd
    obtain ⟨cs, hcs⟩ := Finmap.mem_iff.mp hd
    obtain ⟨ch, hch⟩ := hkept _ cs hcs
    refine ⟨Finmap.mem_of_lookup_eq_some hch, ?_⟩
    rw [decisionOf, decisionOf, entry_of_lookup hcs, entry_of_lookup hch]
  · intro d b hd
    rcases (hdec d b).mp hd with h | ⟨rfl, hb, _, p, hp, hf⟩
    · exact Or.inl h
    · exact Or.inr ⟨hb, p, hp, hkeep p false hf⟩
  · intro hk hp
    exact (hdec c false).mpr (Or.inr ⟨rfl, rfl, hk, hp⟩)

/-- The loop of `insert`, over constraints whose parents are all in the stored graph. -/
theorem insertConstraints_spec (it : HashOrders H) {R : Constraint H → Prop}
    {par : Constraint H → Constraint H → Prop} {state : StateMap H}
    {vertex : HashMap H (Vertex H)} (L : List (Constraint H)) (hS : Stores R par state)
    (hirr : ∀ c, ¬ par c c ∧ ¬ par c.swap c) (hR : ∀ d, R d → ∀ p, par p d → R p)
    (hL : ∀ c ∈ L, (∀ p, par p c → R p) ∧ ∃ l r, vertex.lookup c.left = some l ∧
      vertex.lookup c.right = some r ∧
      ∀ p, par p c ↔ p ∈ l.parentConstraints ∨ p ∈ r.parentConstraints) :
    ∃ state', L.foldlM (DAG.insertConstraint it vertex) state = some state' ∧
      Stores (fun d => R d ∨ d ∈ L) par state' ∧ Extends par state state' := by
  induction L generalizing R state with
  | nil => exact ⟨state, rfl, hS.congr (by simp) fun _ _ _ => Iff.rfl, .refl par state⟩
  | cons c L ih =>
    obtain ⟨hp, l, r, hl, hr, hpar⟩ := hL c (by simp)
    obtain ⟨t, ht, hSt, hst, _⟩ := insertConstraint_extends it hS
      ⟨hp, hR, (hirr c).1, (hirr c).2⟩ hl hr hpar
    have hRt (d : Constraint H) (hd : R d ∨ d = c) (p : Constraint H) (hpd : par p d) :
        R p ∨ p = c := by
      rcases hd with hd | rfl
      · exact Or.inl (hR d hd p hpd)
      · exact Or.inl (hp p hpd)
    obtain ⟨u, hu, hSu, htu⟩ := ih hSt hRt fun d hd => by
      obtain ⟨hpd, hv⟩ := hL d (by simp [hd])
      exact ⟨fun p h => Or.inl (hpd p h), hv⟩
    refine ⟨u, foldlM_cons_eq_some.mpr ⟨t, ht, hu⟩, hSu.congr ?_ fun _ _ _ => Iff.rfl,
      hst.trans htu⟩
    intro d
    rw [List.mem_cons, or_assoc]

/-- What inserting the vertex `x` under the hash `h` does to the state map. -/
structure Inserted (graph : Graph H) (h : H) (x : Vertex H) (state state' : StateMap H) :
    Prop where
  stores : Stores (Graph.Registered (graph.insert h x)) (Graph.ParentConstraint (graph.insert h x))
    state'
  decisions : Extends (Graph.constraintGraph (graph.insert h x)).child state state'
  unity_rejected : ∀ p ∈ x.parentConstraints, decisionOf state' p = some false →
    decisionOf state' (.unity h) = some false

/-- Inserting a vertex whose parents are in the graph never panics, and joins its
constraints to the stored graph. -/
theorem insertState_spec (it : HashOrders H) {graph : Graph H} {root h : H} {genesis x : Vertex H}
    {state : StateMap H} {vertex : HashMap H (Vertex H)} {L : List (Constraint H)}
    (hs : graph.Shaped root genesis) (hx : graph.Legal x) (hh : h ∉ graph)
    (hS : Stores graph.Registered graph.ParentConstraint state)
    (hv : ∀ k v, graph.lookup k = some v → vertex.lookup k = some v) (hvx : vertex.lookup h = some x)
    (hL : ∀ c, c ∈ L ↔ c ∈ x.parentConstraints) :
    ∃ state', (L ++ [Constraint.unity h]).foldlM (DAG.insertConstraint it vertex) state = some state' ∧
      Inserted graph h x state state' := by
  have hs' := hs.insert hh hx
  let par := (Graph.constraintGraph (graph.insert h x)).child
  have hirr (c : Constraint H) : ¬ par c c ∧ ¬ par c.swap c := hs'.child_irrefl c
  -- nothing in the old graph sees the new vertex
  have hS0 : Stores graph.Registered par state :=
    hS.congr (fun _ => Iff.rfl) fun d hd p => by
      rw [show par p d ↔ _ from Graph.child_insert hs hh hd]
      exact (and_iff_right hd).symm
  have hclosed (d : Constraint H) (hd : graph.Registered d) (p : Constraint H) (hp : par p d) :
      graph.Registered p :=
    Graph.registered_of_parentConstraint ((Graph.child_insert hs hh hd).mp hp).2
  have hnew (c : Constraint H) (hc : c ∈ x.parentConstraints) :
      (∀ p, par p c → graph.Registered p) ∧ ∃ l r, vertex.lookup c.left = some l ∧
        vertex.lookup c.right = some r ∧
        ∀ p, par p c ↔ p ∈ l.parentConstraints ∨ p ∈ r.parentConstraints := by
    obtain ⟨hl, hr⟩ := x.parents_of_mem_parentConstraints c hc
    obtain ⟨l, hl⟩ := Finmap.mem_iff.mp (hx.inserted _ hl)
    obtain ⟨r, hr⟩ := Finmap.mem_iff.mp (hx.inserted _ hr)
    have hchild (p : Constraint H) : par p c ↔ graph.ParentConstraint p c :=
      Graph.child_parentConstraint_insert hh hx hc
    refine ⟨fun p hp => Graph.registered_of_parentConstraint ((hchild p).mp hp), l, r,
      hv _ _ hl, hv _ _ hr, fun p => ?_⟩
    rw [hchild, Graph.ParentConstraint, Graph.commitments_of_lookup hl,
      Graph.commitments_of_lookup hr]
  obtain ⟨t, ht, hSt, hst⟩ := insertConstraints_spec it L hS0 hirr hclosed
    fun c hc => hnew c ((hL c).mp hc)
  -- the unity constraint of the new vertex comes last, below all the others
  have hunity (p : Constraint H) : par p (.unity h) ↔ p ∈ x.parentConstraints := by
    have hreg : Graph.Registered (graph.insert h x) (.unity h) :=
      Graph.registered_unity (Finmap.mem_insert.mpr (Or.inl rfl))
    rw [show par p (.unity h) ↔ _ from and_iff_right hreg, Graph.parentConstraint_unity,
      Graph.commitments_insert_self]
  have hjoin : Joins (fun d => graph.Registered d ∨ d ∈ L) par (.unity h) := by
    refine ⟨fun p hp => Or.inr ((hL p).mpr ((hunity p).mp hp)), ?_, (hirr _).1, (hirr _).2⟩
    rintro d (hd | hd) p hp
    · exact Or.inl (hclosed d hd p hp)
    · exact Or.inl ((hnew d ((hL d).mp hd)).1 p hp)
  obtain ⟨u, hu, hSu, htu, hrej⟩ := insertConstraint_extends it hSt hjoin hvx hvx
    fun p => (hunity p).trans or_self_iff.symm
  refine ⟨u, foldlM_concat_eq_some.mpr ⟨t, ht, hu⟩, ?_, hst.trans htu, ?_⟩
  · refine hSu.congr (fun d => ?_) fun d hd p => ?_
    · rw [Graph.registered_insert hh, or_assoc, hL]
    · have hreg : Graph.Registered (graph.insert h x) d :=
        (Graph.registered_insert hh).mpr (by rwa [or_assoc, hL] at hd)
      exact and_iff_right hreg
  · intro p hp hf
    have hpt : p.conflictSetKey ∈ t := hSt.mem_of_registered (Or.inr ((hL p).mpr hp))
    rw [(htu.known p hpt).2] at hf
    refine hrej ?_ ⟨p, (hunity p).mpr hp, hf⟩
    -- the unity constraint is new, so it is born with its own conflict set
    intro hk
    obtain ⟨c, hc, hck⟩ := (hSt.key_mem _).mp hk
    rw [Constraint.conflictSetKey_unity_eq_iff] at hck
    subst hck
    rcases hc with hc | hc
    · exact hh (hs.registered_mem hc).1
    · exact hh (hx.inserted _ (x.parents_of_mem_parentConstraints _ ((hL _).mp hc)).1)

/-- What `insert` does to a graph that the vertex legally extends. -/
structure InsertedDAG (hash : Vertex H → H) (x : Vertex H) (dag dag' : DAG H) : Prop where
  config : dag'.config = dag.config
  vertex : dag'.vertex = dag.vertex.insert (hash x) x
  graph : dag'.graph = dag.graph.insert (hash x) x
  pendingQuery : dag'.pendingQuery = dag.pendingQuery.insert (hash x) x
  children : dag'.children =
    DAG.mapChild (HashMap.tryInsert dag.children (hash x) ∅) (hash x) x.parents
  frontier : dag'.frontier =
    (x.parents.foldl (fun frontier p => frontier.erase p) dag.frontier).insert (hash x) x
  state : Inserted dag.graph (hash x) x dag.state dag'.state

theorem InsertedDAG.mem {x : Vertex H} {dag dag' : DAG H} (hi : InsertedDAG hash x dag dag') :
    hash x ∈ dag'.graph := by
  rw [hi.graph]
  exact Finmap.mem_insert.mpr (Or.inl rfl)

/-- What is rejected after an insertion is, or is below, something rejected before it. -/
theorem InsertedDAG.rejected_above {root : H} {genesis x : Vertex H} {dag dag' : DAG H}
    (hi : InsertedDAG hash x dag dag') (hs : dag'.graph.Shaped root genesis) {c : Constraint H}
    (hc : decisionOf dag'.state c = some false) :
    ∃ r, ReflTransGen dag'.graph.constraintGraph.child r c ∧
      decisionOf dag.state r = some false := by
  -- a new rejection comes from a rejected parent, of smaller rank
  induction hn : dag'.graph.rank c using Nat.strong_induction_on generalizing c with
  | _ n ih =>
    rcases hi.state.decisions.origin c false hc with hold | ⟨_, p, hp, hpf⟩
    · exact ⟨c, .refl, hold⟩
    · rw [← hi.graph] at hp
      obtain ⟨r, hr, hrf⟩ := ih _ (hn ▸ hs.rank_lt hp.2) hpf rfl
      exact ⟨r, hr.tail hp, hrf⟩

theorem insert_spec (it : HashOrders H) {root : H} {genesis x : Vertex H} {dag : DAG H}
    (hs : dag.graph.Shaped root genesis) (hx : dag.graph.Legal x) (hh : hash x ∉ dag.graph)
    (hS : Stores dag.graph.Registered dag.graph.ParentConstraint dag.state)
    (hv : ∀ k v, dag.graph.lookup k = some v → dag.vertex.lookup k = some v) :
    ∃ dag', dag.insert hash it x = some dag' ∧ InsertedDAG hash x dag dag' := by
  have hv' (k : H) (v : Vertex H) (hk : dag.graph.lookup k = some v) :
      (dag.vertex.insert (hash x) x).lookup k = some v := by
    rw [HashMap.lookup_insert, if_neg, hv k v hk]
    rintro rfl
    exact hh (Finmap.mem_of_lookup_eq_some hk)
  obtain ⟨state', hstate, hi⟩ := insertState_spec it
    (L := it.constraints.order (.unity (hash x)) x.parentConstraints.toFinset) hs hx hh hS hv'
    (Finmap.lookup_insert _) (fun c => by rw [HashOrder.mem_order, List.mem_toFinset])
  simp only [DAG.insert, Option.bind_eq_bind, hstate, Option.bind_some, Option.pure_def,
    Option.some.injEq, exists_eq_left']
  exact ⟨rfl, rfl, rfl, rfl, rfl, rfl, hi⟩

end Taurus
