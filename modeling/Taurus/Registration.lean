import Taurus.StateMap

namespace Taurus

variable {H : Type} [LinearOrder H] {it : HashOrders H}

/-- The second state map is the first one with `c` added to the children of each
constraint of the list. -/
structure ChildrenAdded (c : Constraint H) (l : List (Constraint H)) (state state' : StateMap H) :
    Prop where
  kept : ∀ k cs, state.lookup k = some cs → ∃ ch, state'.lookup k = some { cs with children := ch }
  mem_iff : ∀ k, k ∈ state' ↔ k ∈ state
  wellFormed : (∀ k cs, state.lookup k = some cs → cs.WellFormed k) →
    ∀ k cs, state'.lookup k = some cs → cs.WellFormed k
  children : ∀ q, childrenOf state' q =
    (childrenOf state q).map fun s => if q ∈ l then insert c s else s

theorem ChildrenAdded.nil (c : Constraint H) (state : StateMap H) :
    ChildrenAdded c [] state state where
  kept _ cs h := ⟨cs.children, h⟩
  mem_iff _ := Iff.rfl
  wellFormed h := h
  children q := by simp

theorem ChildrenAdded.cons {c p : Constraint H} {l : List (Constraint H)} {s t u : StateMap H}
    (h1 : ChildrenAdded c [p] s t) (h2 : ChildrenAdded c l t u) : ChildrenAdded c (p :: l) s u where
  kept k cs h := by
    obtain ⟨ch, hch⟩ := h1.kept k cs h
    obtain ⟨ch', hch'⟩ := h2.kept k _ hch
    exact ⟨ch', hch'⟩
  mem_iff k := (h2.mem_iff k).trans (h1.mem_iff k)
  wellFormed h := h2.wellFormed (h1.wellFormed h)
  children q := by
    rw [h2.children, h1.children, Option.map_map]
    congr 1
    funext s
    by_cases hp : q = p <;> by_cases hl : q ∈ l <;> simp [hp, hl]

theorem registerChild_spec (c p : Constraint H) (state : StateMap H)
    (hp : ∃ s, childrenOf state p = some s) :
    ∃ state', DAG.registerChild c state p = some state' ∧ ChildrenAdded c [p] state state' := by
  obtain ⟨s, hs⟩ := hp
  obtain ⟨cs, hcs, hch⟩ := Option.bind_eq_some_iff.mp hs
  refine ⟨state.insert p.conflictSetKey
    { cs with children := cs.children.insert p (insert c s) }, ?_, ?_, ?_, ?_, ?_⟩
  · simp [DAG.registerChild, hcs, hch]
  · intro k cs' h
    rw [HashMap.lookup_insert]
    by_cases hk : k = p.conflictSetKey
    · rw [hk, hcs] at h
      cases h
      exact ⟨_, if_pos hk⟩
    · exact ⟨cs'.children, by rw [if_neg hk, h]⟩
  · intro k
    rw [Finmap.mem_insert]
    exact ⟨fun h => h.elim (fun he => he ▸ Finmap.mem_of_lookup_eq_some hcs) id, Or.inr⟩
  · intro hwf k cs' h
    rw [HashMap.lookup_insert] at h
    split at h
    · next hk =>
      subst hk
      cases h
      refine { hwf _ cs hcs with children := fun d => ?_ }
      rw [Finmap.mem_insert, (hwf _ cs hcs).children d]
      exact ⟨fun hd => hd.elim (fun he => he ▸ rfl) id, Or.inr⟩
    · exact hwf k cs' h
  · intro q
    rw [childrenOf, entry_insert]
    by_cases hk : q.conflictSetKey = p.conflictSetKey
    · rw [if_pos hk, HashMap.lookup_insert, childrenOf, entry_of_lookup (hk ▸ hcs)]
      by_cases hq : q = p
      · subst hq
        simp [hch]
      · simp [hq]
    · have hq : q ≠ p := fun h => hk (congrArg _ h)
      simp [hk, hq, childrenOf]

theorem registerChildren_spec (c : Constraint H) (l : List (Constraint H)) (state : StateMap H)
    (hl : ∀ p ∈ l, ∃ s, childrenOf state p = some s) :
    ∃ state', l.foldlM (DAG.registerChild c) state = some state' ∧
      ChildrenAdded c l state state' := by
  induction l generalizing state with
  | nil => exact ⟨state, rfl, .nil c state⟩
  | cons p l ih =>
    obtain ⟨t, ht, ha⟩ := registerChild_spec c p state (hl p (by simp))
    obtain ⟨u, hu, hb⟩ := ih t fun q hq => by
      obtain ⟨s, hs⟩ := hl q (by simp [hq])
      exact ⟨_, by rw [ha.children, hs, Option.map_some]⟩
    exact ⟨u, foldlM_cons_eq_some.mpr ⟨t, ht, hu⟩, ha.cons hb⟩

theorem ChildrenAdded.entry_eq {V : Type} {field : ConflictSet H → HashMap (Constraint H) V}
    {c : Constraint H} {l : List (Constraint H)} {s t : StateMap H} (h : ChildrenAdded c l s t)
    (hf : ∀ cs ch, field { cs with children := ch } = field cs) (d : Constraint H) :
    entry field t d = entry field s d := by
  cases hs : s.lookup d.conflictSetKey with
  | none =>
    have hn : d.conflictSetKey ∉ s := Finmap.lookup_eq_none.mp hs
    rw [entry_of_notMem hn, entry_of_notMem ((h.mem_iff _).not.mpr hn)]
  | some cs =>
    obtain ⟨ch, hch⟩ := h.kept _ cs hs
    rw [entry_of_lookup hs, entry_of_lookup hch, hf]

/-- Conditions under which a constraint joins a stored graph: its parents are there
already, and nobody there has it or its opposite as a parent. -/
structure Joins (R : Constraint H → Prop) (par : Constraint H → Constraint H → Prop)
    (c : Constraint H) : Prop where
  parents : ∀ p, par p c → R p
  closed : ∀ d, R d → ∀ p, par p d → R p
  irrefl : ¬ par c c
  irrefl_swap : ¬ par c.swap c

/-- With `c` among the children of its parents, the children are those of the joined graph. -/
theorem ChildrenAdded.children_iff {R : Constraint H → Prop}
    {par : Constraint H → Constraint H → Prop} {state t : StateMap H} {c : Constraint H}
    {L : List (Constraint H)} (ha : ChildrenAdded c L state t) (hS : Stores R par state)
    (hL : ∀ p, p ∈ L ↔ par p c) {p : Constraint H} {s : HashSet (Constraint H)}
    (hs : childrenOf t p = some s) (d : Constraint H) : d ∈ s ↔ (R d ∨ d = c) ∧ par p d := by
  rw [ha.children, Option.map_eq_some_iff] at hs
  obtain ⟨s0, hs0, rfl⟩ := hs
  have h0 := hS.children p s0 hs0 d
  by_cases hp : p ∈ L
  · have hpc := (hL p).mp hp
    rw [if_pos hp, Finset.mem_insert, h0]
    exact ⟨fun h => h.elim (fun he => ⟨Or.inr he, he ▸ hpc⟩) (fun h => ⟨Or.inl h.1, h.2⟩),
      fun h => h.1.elim (fun hd => Or.inr ⟨hd, h.2⟩) Or.inl⟩
  · have hpc := (hL p).not.mp hp
    rw [if_neg hp, h0]
    exact ⟨fun h => ⟨Or.inl h.1, h.2⟩,
      fun h => h.1.elim (fun hd => ⟨hd, h.2⟩) (fun he => absurd (he ▸ h.2) hpc)⟩

/-- A constraint with its parents, children and conflict set added joins the stored graph. -/
theorem joined_stores {R : Constraint H → Prop} {par : Constraint H → Constraint H → Prop}
    {state t : StateMap H} {c : Constraint H} {L : List (Constraint H)} {born : ConflictSet H}
    {cParents : HashSet (Constraint H)}
    (hS : Stores R par state) (hj : Joins R par c) (ha : ChildrenAdded c L state t)
    (hL : ∀ p, p ∈ L ↔ par p c) (hborn : born.WellFormed c.conflictSetKey)
    (hpa : ∀ d, born.parents.lookup d = if d = c then some cParents
      else if d.conflictSetKey = c.conflictSetKey then some ∅ else none)
    (hch : ∀ d, born.children.lookup d = if d = c then some ∅
      else if d.conflictSetKey = c.conflictSetKey then some ∅ else none)
    (hcp : ∀ p, p ∈ cParents ↔ par p c) :
    Stores (fun d => R d ∨ d = c) par (HashMap.tryInsert t c.conflictSetKey born) := by
  have hpold (d : Constraint H) : parentsOf t d = parentsOf state d :=
    ha.entry_eq (fun _ _ => rfl) d
  constructor
  case key_mem =>
    intro k
    rw [HashMap.mem_tryInsert, ha.mem_iff, hS.key_mem]
    constructor
    · rintro (rfl | ⟨d, hd, hk⟩)
      · exact ⟨c, Or.inr rfl, rfl⟩
      · exact ⟨d, Or.inl hd, hk⟩
    · rintro ⟨d, hd | rfl, hk⟩
      · exact Or.inr ⟨d, hd, hk⟩
      · exact Or.inl hk.symm
  case wellFormed =>
    intro k cs hk
    rw [HashMap.lookup_tryInsert] at hk
    split at hk
    · next h =>
      cases hk
      exact h.1 ▸ hborn
    · exact ha.wellFormed hS.wellFormed k cs hk
  case children =>
    intro p s hs d
    rw [childrenOf, entry_tryInsert] at hs
    split at hs
    · next hpk =>
      -- a fresh conflict set has no children, and none of its members is a parent yet
      have hempty : s = ∅ := by
        rw [hch, if_pos hpk.1] at hs
        split at hs <;> exact (Option.some.inj hs).symm
      have hnR : ¬ R p := fun hR =>
        hpk.2 ((ha.mem_iff _).mpr (hpk.1 ▸ hS.mem_of_registered hR))
      have hnc : ¬ par p c := by
        rcases (Constraint.conflictSetKey_eq_iff p c).mp hpk.1 with rfl | rfl
        · exact hj.irrefl
        · exact hj.irrefl_swap
      rw [hempty]
      exact ⟨fun h => absurd h (Finset.notMem_empty d),
        fun h => h.1.elim (fun hd => absurd (hj.closed d hd p h.2) hnR)
          (fun he => absurd (he ▸ h.2) hnc)⟩
    · exact ha.children_iff hS hL hs d
  case parents =>
    intro d s hs p hp
    rw [parentsOf, entry_tryInsert] at hs
    split at hs
    · next hdk =>
      rw [hpa, if_pos hdk.1] at hs
      split at hs
      · next hdc =>
        cases hs
        exact ⟨Or.inr hdc, hdc ▸ (hcp p).mp hp⟩
      · cases hs
        exact absurd hp (Finset.notMem_empty p)
    · obtain ⟨hd, hpd⟩ := hS.parents d s ((hpold d).symm.trans hs) p hp
      exact ⟨Or.inl hd, hpd⟩
  case unity_parents =>
    intro x s hs p hp
    rw [parentsOf, entry_tryInsert] at hs
    split at hs
    · next hxk =>
      have hxc : c = .unity x := (Constraint.conflictSetKey_unity_eq_iff c x).mp hxk.1.symm
      rw [hpa, if_pos hxc.symm] at hs
      cases hs
      exact (hcp p).mpr (hxc ▸ hp)
    · exact hS.unity_parents x s ((hpold _).symm.trans hs) p hp

/-- A new conflict set for `c`, in which `c` is rejected if `r` holds. -/
def bornConflictSet (c : Constraint H) (cParents : HashSet (Constraint H)) (r : Bool) :
    ConflictSet H :=
  if r then
    { ConflictSet.new c cParents with decision := (ConflictSet.new c cParents).decision.insert c false }
  else ConflictSet.new c cParents

theorem bornConflictSet_wellFormed (c : Constraint H) (cParents : HashSet (Constraint H)) (r : Bool) :
    (bornConflictSet c cParents r).WellFormed c.conflictSetKey := by
  have hn := ConflictSet.new_wellFormed c cParents
  unfold bornConflictSet
  split
  · refine { hn with decision := fun d hd => ?_ }
    rcases Finmap.mem_insert.mp hd with rfl | hd
    · rfl
    · exact hn.decision d hd
  · exact hn

theorem parents_bornConflictSet (c d : Constraint H) (cParents : HashSet (Constraint H)) (r : Bool) :
    (bornConflictSet c cParents r).parents.lookup d = if d = c then some cParents
      else if d.conflictSetKey = c.conflictSetKey then some ∅ else none := by
  unfold bornConflictSet
  split <;> exact ConflictSet.lookup_orientations c d _ _

theorem children_bornConflictSet (c d : Constraint H) (cParents : HashSet (Constraint H)) (r : Bool) :
    (bornConflictSet c cParents r).children.lookup d = if d = c then some ∅
      else if d.conflictSetKey = c.conflictSetKey then some ∅ else none := by
  unfold bornConflictSet
  split <;> exact ConflictSet.lookup_orientations c d _ _

theorem decision_bornConflictSet (c d : Constraint H) (cParents : HashSet (Constraint H)) (r b : Bool) :
    (bornConflictSet c cParents r).decision.lookup d = some b ↔ d = c ∧ b = false ∧ r = true := by
  unfold bornConflictSet
  cases r with
  | false => simp [ConflictSet.new]
  | true =>
    rw [if_pos rfl, HashMap.lookup_insert]
    by_cases hdc : d = c <;> simp [hdc, ConflictSet.new, eq_comm]

/-- Where the parents of a constraint have entries, it is added to their children, and gets a
conflict set unless its opposite has made that before. -/
theorem insertConstraint_run (it : HashOrders H) {state : StateMap H}
    {vertex : HashMap H (Vertex H)} {c : Constraint H} {l r : Vertex H}
    (hl : vertex.lookup c.left = some l) (hr : vertex.lookup c.right = some r)
    (hpar : ∀ p ∈ l.parentConstraints ++ r.parentConstraints, ∃ s, childrenOf state p = some s) :
    ∃ t L, ChildrenAdded c L state t ∧
      (∀ p, p ∈ L ↔ p ∈ l.parentConstraints ++ r.parentConstraints) ∧
      DAG.insertConstraint it vertex state c = some (HashMap.tryInsert t c.conflictSetKey
        (bornConflictSet c (l.parentConstraints ++ r.parentConstraints).toFinset
          (L.any fun p => decisionOf state p == some false))) := by
  have hmem (p : Constraint H) :
      p ∈ it.constraints.order c (l.parentConstraints ++ r.parentConstraints).toFinset ↔
        p ∈ l.parentConstraints ++ r.parentConstraints := by
    rw [HashOrder.mem_order, List.mem_toFinset]
  obtain ⟨t, ht, ha⟩ := registerChildren_spec c
    (it.constraints.order c (l.parentConstraints ++ r.parentConstraints).toFinset) state
    fun p hp => hpar p ((hmem p).mp hp)
  have hany := anyM_eq_any
    (fun p => (state.lookup p.conflictSetKey).bind fun pState =>
      some (pState.decision.lookup p == some false))
    (fun p => decisionOf state p == some false)
    (it.constraints.order c (l.parentConstraints ++ r.parentConstraints).toFinset)
    fun p hp => by
      obtain ⟨s, hs⟩ := hpar p ((hmem p).mp hp)
      obtain ⟨cs, hcs, _⟩ := Option.bind_eq_some_iff.mp hs
      rw [hcs, decisionOf, entry_of_lookup hcs, Option.bind_some]
  -- the two loops run over the same list, in the order of the hash set
  refine ⟨t, _, ha, hmem, ?_⟩
  simp only [DAG.insertConstraint, hl, hr, Option.bind_eq_bind, Option.bind_some,
    Option.pure_def, hany, ht, bornConflictSet]

/-- What `insert` does to the state map for one constraint: the constraint joins the
stored graph; if it is new it is rejected exactly when one of its parents is. -/
theorem insertConstraint_spec (it : HashOrders H) {R : Constraint H → Prop} {par : Constraint H → Constraint H → Prop}
    {state : StateMap H} {vertex : HashMap H (Vertex H)} {c : Constraint H} {l r : Vertex H}
    (hS : Stores R par state) (hj : Joins R par c)
    (hl : vertex.lookup c.left = some l) (hr : vertex.lookup c.right = some r)
    (hpar : ∀ p, par p c ↔ p ∈ l.parentConstraints ∨ p ∈ r.parentConstraints) :
    ∃ state', DAG.insertConstraint it vertex state c = some state' ∧
      Stores (fun d => R d ∨ d = c) par state' ∧
      (∀ k cs, state.lookup k = some cs →
        ∃ ch, state'.lookup k = some { cs with children := ch }) ∧
      ∀ d b, decisionOf state' d = some b ↔ decisionOf state d = some b ∨
        (d = c ∧ b = false ∧ c.conflictSetKey ∉ state ∧
          ∃ p, par p c ∧ decisionOf state p = some false) := by
  obtain ⟨t, L, ha, hL, hrun⟩ := insertConstraint_run it hl hr fun p hp =>
    hS.childrenOf_isSome (hS.mem_of_registered (hj.parents p
      ((hpar p).mpr (List.mem_append.mp hp))))
  have hmem (p : Constraint H) : p ∈ L ↔ par p c := by
    rw [hL, List.mem_append, hpar]
  refine ⟨_, hrun, ?_, ?_, ?_⟩
  · exact joined_stores hS hj ha hmem (bornConflictSet_wellFormed c _ _)
      (fun d => parents_bornConflictSet c d _ _) (fun d => children_bornConflictSet c d _ _)
      fun p => by simp only [List.mem_toFinset, List.mem_append, hpar]
  · intro k cs hk
    obtain ⟨ch, hch⟩ := ha.kept k cs hk
    refine ⟨ch, ?_⟩
    rw [HashMap.lookup_tryInsert, if_neg, hch]
    rintro ⟨rfl, hn⟩
    exact hn (Finmap.mem_of_lookup_eq_some hch)
  · intro d b
    have hrej : L.any (fun p => decisionOf state p == some false) = true ↔
        ∃ p, par p c ∧ decisionOf state p = some false := by
      simp only [List.any_eq_true, beq_iff_eq, hmem]
    have hold : decisionOf t d = decisionOf state d := ha.entry_eq (fun _ _ => rfl) d
    have hkeys : c.conflictSetKey ∉ t ↔ c.conflictSetKey ∉ state := (ha.mem_iff _).not
    rw [decisionOf, entry_tryInsert]
    split
    -- the new conflict set decides nothing but possibly `c`
    · next hk =>
      have hnew := hkeys.mp hk.2
      have hnone : decisionOf state d = none := entry_of_notMem (hk.1 ▸ hnew)
      rw [hnone, decision_bornConflictSet, hrej]
      simp [hnew]
    · next hk =>
      have hno : ¬ (d = c ∧ c.conflictSetKey ∉ state) := fun h =>
        hk ⟨congrArg _ h.1, hkeys.mpr h.2⟩
      rw [show entry _ t d = decisionOf t d from rfl, hold]
      exact ⟨Or.inl, fun h => h.elim id fun h => absurd ⟨h.1, h.2.2.1⟩ hno⟩

end Taurus
