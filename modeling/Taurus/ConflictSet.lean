import Taurus.HashMap
import Taurus.Constraint

namespace Taurus

variable {H : Type} [LinearOrder H]

/-- State variables used in Avalanche consensus, to reach agreement on the members
of one conflict set. -/
structure ConflictSet (H : Type) where
  preferred : Constraint H
  last : Constraint H
  chit : HashMap (Constraint H) Bool
  confidence : HashMap (Constraint H) Nat
  count : HashMap (Constraint H) Nat
  parents : HashMap (Constraint H) (HashSet (Constraint H))
  children : HashMap (Constraint H) (HashSet (Constraint H))
  decision : HashMap (Constraint H) Bool

/-- `Iterator::collect` into a hash map. -/
def collectMap {V : Type} (l : List (Constraint H × V)) : HashMap (Constraint H) V :=
  l.foldl (fun m p => m.insert p.1 p.2) ∅

namespace ConflictSet

/-- The members of the conflict set of `initial`. -/
def orientations (initial : Constraint H) : List (Constraint H) :=
  match initial.conflict with
  | none => [initial]
  | some opposite => [initial, opposite]

/-- The state of a fresh conflict set. Only the initial orientation is given its
parents; the opposite one starts with none. -/
def new (initial : Constraint H) (parents : HashSet (Constraint H)) : ConflictSet H :=
  let keys := orientations initial
  { preferred := initial
    last := initial
    chit := collectMap (keys.zip [false, false])
    confidence := collectMap (keys.zip [0, 0])
    count := collectMap (keys.zip [0, 0])
    parents := collectMap (keys.zip [parents, ∅])
    children := collectMap (keys.zip [∅, ∅])
    decision := ∅ }

theorem lookup_orientations {V : Type} (c d : Constraint H) (v w : V) :
    (collectMap ((orientations c).zip [v, w])).lookup d =
      if d = c then some v
      else if d.conflictSetKey = c.conflictSetKey then some w else none := by
  unfold orientations collectMap
  cases hc : c.conflict with
  | none =>
    have hu : d.conflictSetKey = c.conflictSetKey ↔ d = c := by
      rw [c.eq_unity_of_left_eq_right ((Constraint.conflict_eq_none c).mp hc),
        Constraint.conflictSetKey_unity_eq_iff]
    by_cases h : d = c <;> simp [HashMap.lookup_insert, hu, h]
  | some o =>
    obtain ⟨hne, rfl⟩ := (Constraint.conflict_eq_some c o).mp hc
    have hsw : c ≠ c.swap := fun h => hne (congrArg Constraint.left h)
    by_cases h : d = c
    · simp [HashMap.lookup_insert, h, hsw]
    · simp [HashMap.lookup_insert, h, Constraint.conflictSetKey_eq_iff]

/-- The maps of a conflict set are defined exactly on the constraints with its key. -/
structure WellFormed (k : ConflictSetKey H) (cs : ConflictSet H) : Prop where
  chit : ∀ c, c ∈ cs.chit ↔ c.conflictSetKey = k
  confidence : ∀ c, c ∈ cs.confidence ↔ c.conflictSetKey = k
  count : ∀ c, c ∈ cs.count ↔ c.conflictSetKey = k
  parents : ∀ c, c ∈ cs.parents ↔ c.conflictSetKey = k
  children : ∀ c, c ∈ cs.children ↔ c.conflictSetKey = k
  decision : ∀ c, c ∈ cs.decision → c.conflictSetKey = k
  preferred : cs.preferred.conflictSetKey = k
  last : cs.last.conflictSetKey = k

theorem mem_orientations {V : Type} (c d : Constraint H) (v w : V) :
    d ∈ collectMap ((orientations c).zip [v, w]) ↔ d.conflictSetKey = c.conflictSetKey := by
  rw [← Finmap.lookup_isSome, lookup_orientations]
  split
  · next h => simp [h]
  · split <;> simp_all

theorem new_wellFormed (c : Constraint H) (ps : HashSet (Constraint H)) :
    (new c ps).WellFormed c.conflictSetKey where
  chit d := mem_orientations c d _ _
  confidence d := mem_orientations c d _ _
  count d := mem_orientations c d _ _
  parents d := mem_orientations c d _ _
  children d := mem_orientations c d _ _
  decision _ h := absurd h Finmap.notMem_empty
  preferred := rfl
  last := rfl

end ConflictSet

/-- `DAG::state`. -/
abbrev StateMap (H : Type) := HashMap (ConflictSetKey H) (ConflictSet H)

end Taurus
