import Taurus.DAG
import Taurus.Transition

namespace Taurus

variable {H : Type} [LinearOrder H]

/-- Component of the state of a constraint, looked up as the source does: the conflict
set first, then the constraint in one of its maps. -/
def entry {V : Type} (field : ConflictSet H → HashMap (Constraint H) V) (state : StateMap H)
    (c : Constraint H) : Option V :=
  (state.lookup c.conflictSetKey).bind fun cs => (field cs).lookup c

def decisionOf (state : StateMap H) (c : Constraint H) : Option Bool :=
  entry ConflictSet.decision state c

def childrenOf (state : StateMap H) (c : Constraint H) : Option (HashSet (Constraint H)) :=
  entry ConflictSet.children state c

/-- Is there a chit on `c`, as far as it has a conflict set? -/
def chitOf (state : StateMap H) (c : Constraint H) : Option Bool := entry ConflictSet.chit state c

def parentsOf (state : StateMap H) (c : Constraint H) : Option (HashSet (Constraint H)) :=
  entry ConflictSet.parents state c

theorem entry_of_lookup {V : Type} {field : ConflictSet H → HashMap (Constraint H) V}
    {state : StateMap H} {c : Constraint H} {cs : ConflictSet H}
    (h : state.lookup c.conflictSetKey = some cs) : entry field state c = (field cs).lookup c := by
  rw [entry, h, Option.bind_some]

theorem entry_of_notMem {V : Type} {field : ConflictSet H → HashMap (Constraint H) V}
    {state : StateMap H} {c : Constraint H} (h : c.conflictSetKey ∉ state) :
    entry field state c = none := by
  rw [entry, Finmap.lookup_eq_none.mpr h, Option.bind_none]

/-- A constraint with an entry has a conflict set. -/
theorem mem_of_entry {V : Type} {field : ConflictSet H → HashMap (Constraint H) V}
    {state : StateMap H} {c : Constraint H} {v : V} (h : entry field state c = some v) :
    c.conflictSetKey ∈ state := by
  obtain ⟨cs, hcs, _⟩ := Option.bind_eq_some_iff.mp h
  exact Finmap.mem_of_lookup_eq_some hcs

theorem entry_insert {V : Type} (field : ConflictSet H → HashMap (Constraint H) V)
    (state : StateMap H) (k : ConflictSetKey H) (cs : ConflictSet H) (c : Constraint H) :
    entry field (state.insert k cs) c =
      if c.conflictSetKey = k then (field cs).lookup c else entry field state c := by
  rw [entry, HashMap.lookup_insert]
  split
  · rw [Option.bind_some]
  · rfl

theorem entry_tryInsert {V : Type} (field : ConflictSet H → HashMap (Constraint H) V)
    (state : StateMap H) (k : ConflictSetKey H) (cs : ConflictSet H) (c : Constraint H) :
    entry field (HashMap.tryInsert state k cs) c =
      if c.conflictSetKey = k ∧ k ∉ state then (field cs).lookup c else entry field state c := by
  rw [entry, HashMap.lookup_tryInsert]
  split
  · rw [Option.bind_some]
  · rfl

/-- Overwriting a conflict set without touching one of its maps leaves that map's entries. -/
theorem entry_insert_of_eq {V : Type} {field : ConflictSet H → HashMap (Constraint H) V}
    {state : StateMap H} {k : ConflictSetKey H} {cs cs' : ConflictSet H}
    (h : state.lookup k = some cs) (hf : field cs' = field cs) (c : Constraint H) :
    entry field (state.insert k cs') c = entry field state c := by
  rw [entry_insert]
  split
  · next hk =>
    subst hk
    rw [entry_of_lookup h, hf]
  · rfl

/-- The same entries, but for the voting variables and the decisions. -/
def SameShape (state state' : StateMap H) : Prop :=
  ∀ k, Option.Rel (fun cs cs' => cs'.parents = cs.parents ∧ cs'.children = cs.children ∧
    (cs.WellFormed k → cs'.WellFormed k)) (state.lookup k) (state'.lookup k)

theorem SameShape.refl (state : StateMap H) : SameShape state state := by
  intro k
  cases state.lookup k with
  | none => exact .none
  | some cs => exact .some ⟨rfl, rfl, id⟩

theorem SameShape.trans {s t u : StateMap H} (hst : SameShape s t) (htu : SameShape t u) :
    SameShape s u := by
  intro k
  have h1 := hst k
  have h2 := htu k
  revert h1 h2
  cases s.lookup k <;> cases t.lookup k <;> cases u.lookup k <;> intro h1 h2 <;>
    cases h1 <;> cases h2
  · exact .none
  · next h1 h2 =>
    exact .some ⟨h2.1.trans h1.1, h2.2.1.trans h1.2.1, fun hw => h2.2.2 (h1.2.2 hw)⟩

theorem SameShape.insert {state : StateMap H} {k : ConflictSetKey H} {cs cs' : ConflictSet H}
    (h : state.lookup k = some cs) (hp : cs'.parents = cs.parents)
    (hc : cs'.children = cs.children) (hw : cs.WellFormed k → cs'.WellFormed k) :
    SameShape state (state.insert k cs') := by
  intro k'
  rw [HashMap.lookup_insert]
  by_cases hk : k' = k
  · rw [if_pos hk, hk, h]
    exact .some ⟨hp, hc, hw⟩
  · rw [if_neg hk]
    exact SameShape.refl state k'

theorem SameShape.mem_iff {state state' : StateMap H} (h : SameShape state state')
    (k : ConflictSetKey H) : k ∈ state' ↔ k ∈ state := by
  have hk := h k
  rw [← Finmap.lookup_isSome, ← Finmap.lookup_isSome]
  revert hk
  cases state.lookup k <;> cases state'.lookup k <;> intro hk <;> cases hk <;> simp

/-- A map that parents and children determine has the same entries. -/
theorem SameShape.entry_eq {V : Type} {field : ConflictSet H → HashMap (Constraint H) V}
    {state state' : StateMap H} (h : SameShape state state')
    (hf : ∀ cs cs' : ConflictSet H, cs'.parents = cs.parents → cs'.children = cs.children →
      field cs' = field cs) (c : Constraint H) : entry field state' c = entry field state c := by
  have hk := h c.conflictSetKey
  unfold entry
  revert hk
  cases state.lookup c.conflictSetKey <;> cases state'.lookup c.conflictSetKey <;> intro hk <;>
    cases hk
  · rfl
  · next hk => simp only [Option.bind_some, hf _ _ hk.1 hk.2.1]

theorem SameShape.childrenOf_eq {state state' : StateMap H} (h : SameShape state state')
    (c : Constraint H) : childrenOf state' c = childrenOf state c :=
  h.entry_eq (fun _ _ _ hchildren => hchildren) c

theorem SameShape.parentsOf_eq {state state' : StateMap H} (h : SameShape state state')
    (c : Constraint H) : parentsOf state' c = parentsOf state c :=
  h.entry_eq (fun _ _ hparents _ => hparents) c

/-- The state map stores the graph of the constraints `R` under the parent relation
`par`: who has an entry, and the parents and children written there. -/
structure Stores (R : Constraint H → Prop) (par : Constraint H → Constraint H → Prop)
    (state : StateMap H) : Prop where
  key_mem : ∀ k, k ∈ state ↔ ∃ c, R c ∧ c.conflictSetKey = k
  wellFormed : ∀ k cs, state.lookup k = some cs → cs.WellFormed k
  children : ∀ p s, childrenOf state p = some s → ∀ d, d ∈ s ↔ R d ∧ par p d
  parents : ∀ c s, parentsOf state c = some s → ∀ p ∈ s, R c ∧ par p c
  unity_parents : ∀ h s, parentsOf state (.unity h) = some s → ∀ p, par p (.unity h) → p ∈ s

namespace Stores

variable {R : Constraint H → Prop} {par : Constraint H → Constraint H → Prop}
  {state : StateMap H}

theorem sameShape {state' : StateMap H} (hS : Stores R par state) (h : SameShape state state') :
    Stores R par state' where
  key_mem k := (h.mem_iff k).trans (hS.key_mem k)
  wellFormed k cs' hcs' := by
    have hk := h k
    rw [hcs'] at hk
    cases hcs : state.lookup k with
    | none => rw [hcs] at hk; cases hk
    | some cs =>
      rw [hcs] at hk
      cases hk with
      | some hk => exact hk.2.2 (hS.wellFormed k cs hcs)
  children p s hs := hS.children p s (h.childrenOf_eq p ▸ hs)
  parents c s hs := hS.parents c s (h.parentsOf_eq c ▸ hs)
  unity_parents x s hs := hS.unity_parents x s (h.parentsOf_eq _ ▸ hs)

/-- The parent relation matters only on the constraints with an entry. -/
theorem congr {par' : Constraint H → Constraint H → Prop} {R' : Constraint H → Prop}
    (hS : Stores R par state) (hR : ∀ d, R d ↔ R' d)
    (hpar : ∀ d, R d → ∀ p, par p d ↔ par' p d) : Stores R' par' state where
  key_mem k := (hS.key_mem k).trans (exists_congr fun c => and_congr_left' (hR c))
  wellFormed := hS.wellFormed
  children p s hs d := (hS.children p s hs d).trans
    ⟨fun h => ⟨(hR d).mp h.1, (hpar d h.1 p).mp h.2⟩,
      fun h => ⟨(hR d).mpr h.1, (hpar d ((hR d).mpr h.1) p).mpr h.2⟩⟩
  parents c s hs p hp := by
    obtain ⟨hc, h⟩ := hS.parents c s hs p hp
    exact ⟨(hR c).mp hc, (hpar c hc p).mp h⟩
  unity_parents x s hs p hp := by
    refine hS.unity_parents x s hs p ((hpar _ ?_ p).mpr hp)
    obtain ⟨c, hc, hk⟩ := (hS.key_mem _).mp (mem_of_entry hs)
    rw [Constraint.conflictSetKey_unity_eq_iff] at hk
    exact hk ▸ hc

theorem mem_of_registered (hS : Stores R par state) {c : Constraint H} (hc : R c) :
    c.conflictSetKey ∈ state :=
  (hS.key_mem _).mpr ⟨c, hc, rfl⟩

/-- A constraint with an entry has its conflict set, and that has each of its maps
defined there. -/
theorem lookup (hS : Stores R par state) {c : Constraint H} (hc : c.conflictSetKey ∈ state) :
    ∃ cs, state.lookup c.conflictSetKey = some cs ∧ cs.WellFormed c.conflictSetKey := by
  obtain ⟨cs, hcs⟩ := Finmap.mem_iff.mp hc
  exact ⟨cs, hcs, hS.wellFormed _ _ hcs⟩

theorem childrenOf_isSome (hS : Stores R par state) {c : Constraint H}
    (hc : c.conflictSetKey ∈ state) : ∃ s, childrenOf state c = some s := by
  obtain ⟨cs, hcs, hw⟩ := hS.lookup hc
  obtain ⟨s, hs⟩ := Finmap.mem_iff.mp ((hw.children c).mpr rfl)
  exact ⟨s, by rw [childrenOf, entry_of_lookup hcs, hs]⟩

end Stores

end Taurus
