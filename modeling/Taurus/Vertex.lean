import Mathlib.Data.List.Perm.Subperm
import Mathlib.Data.Set.Defs
import Taurus.Constraint

namespace Taurus

variable {H : Type}

/-- Current revision of the vertex structure. -/
def VERSION : Nat := 1

inductive VertexError where
  | badVersion (expected found : Nat)
  | duplicateParents
  | missingField (field : String)
deriving DecidableEq, Repr

/-- A batch of transactions in the graph. Versions and heights are unsigned machine
integers in the source; a height exceeds that of the genesis vertex by at most the
number of vertices held in memory, so neither is reduced here. -/
structure Vertex (H : Type) where
  version : Nat
  height : Nat
  parents : List H
  namespaceId : H
  root : H
  timestamp : Int
deriving DecidableEq, Repr

namespace Vertex

/-- Agreement in everything that is serialized, hence hashed: all but the time at
which the vertex was first observed. -/
def SameWire (u v : Vertex H) : Prop :=
  u.version = v.version ∧ u.height = v.height ∧ u.parents = v.parents ∧
    u.namespaceId = v.namespaceId ∧ u.root = v.root

theorem SameWire.symm {u v : Vertex H} (h : u.SameWire v) : v.SameWire u :=
  ⟨h.1.symm, h.2.1.symm, h.2.2.1.symm, h.2.2.2.1.symm, h.2.2.2.2.symm⟩

/-- No two of the vertices that differ in a serialized field have the same hash. -/
def CollisionFree (hash : Vertex H → H) (vertices : Set (Vertex H)) : Prop :=
  ∀ u ∈ vertices, ∀ v ∈ vertices, hash u = hash v → u.SameWire v

def sanityChecks [DecidableEq H] (vx : Vertex H) : Except VertexError Unit :=
  if vx.version ≠ VERSION then
    .error (.badVersion VERSION vx.version)
  else if vx.parents.isEmpty then
    .error (.missingField "parents")
  else if vx.parents.length ≠ vx.parents.eraseDups.length then
    .error .duplicateParents
  else
    .ok ()

/-- Assigns new parents, and the height above them. -/
def withParents [DecidableEq H] (hash : Vertex H → H) (vx : Vertex H) (parents : List (Vertex H)) :
    Except VertexError (Vertex H) :=
  match (parents.map height).max? with
  -- no parents at all
  | none => .error (.missingField "parents")
  | some maxHeight =>
    if (parents.map hash).length ≠ (parents.map hash).eraseDups.length then
      .error .duplicateParents
    else
      .ok { vx with height := 1 + maxHeight, parents := parents.map hash }

/-- The parent ordering constraints the vertex commits to. -/
def parentConstraints (vx : Vertex H) : List (Constraint H) :=
  (Constraints.new vx.parents).collect

theorem mem_parentConstraints (vx : Vertex H) (c : Constraint H) :
    c ∈ vx.parentConstraints ↔
      List.Sublist [c.left, c.right] vx.parents ∨ c.left = c.right ∧ c.left ∈ vx.parents :=
  Constraints.mem_collect_new vx.parents c

theorem unity_mem_parentConstraints (vx : Vertex H) (p : H) (hp : p ∈ vx.parents) :
    Constraint.unity p ∈ vx.parentConstraints :=
  (vx.mem_parentConstraints _).mpr (Or.inr ⟨rfl, hp⟩)

/-- Every constraint a vertex commits to is between parents of it. -/
theorem parents_of_mem_parentConstraints (vx : Vertex H) (c : Constraint H)
    (hc : c ∈ vx.parentConstraints) : c.left ∈ vx.parents ∧ c.right ∈ vx.parents := by
  rcases (vx.mem_parentConstraints c).mp hc with h | ⟨he, hm⟩
  · exact ⟨h.subset (by simp), h.subset (by simp)⟩
  · exact ⟨hm, he ▸ hm⟩

/-- A vertex without repeated parents never commits to both orders of a pair. -/
theorem swap_notMem_parentConstraints (vx : Vertex H) (c : Constraint H) (hn : vx.parents.Nodup)
    (hne : c.left ≠ c.right) (hc : c ∈ vx.parentConstraints) :
    c.swap ∉ vx.parentConstraints :=
  Constraints.swap_notMem_collect hn hne hc

section
variable [DecidableEq H]

theorem nodup_eraseDups (l : List H) : l.eraseDups.Nodup := by
  induction hn : l.length using Nat.strong_induction_on generalizing l with
  | _ n ih =>
    cases l with
    | nil => simp
    | cons a l =>
      rw [List.eraseDups_cons, List.nodup_cons]
      have hlen : (l.filter fun b => !b == a).length < n := by
        have := List.length_filter_le (fun b => !b == a) l
        simp only [List.length_cons] at hn
        omega
      refine ⟨?_, ih _ hlen _ rfl⟩
      simp [List.mem_eraseDups]

theorem length_eraseDups_of_nodup {l : List H} (h : l.Nodup) : l.eraseDups.length = l.length := by
  refine le_antisymm ?_ ?_
  · exact (List.subperm_of_subset (nodup_eraseDups l) fun a ha => List.mem_eraseDups.mp ha).length_le
  · exact (List.subperm_of_subset h fun a ha => List.mem_eraseDups.mpr ha).length_le

theorem nodup_of_length_eraseDups (l : List H) (h : l.length = l.eraseDups.length) :
    l.Nodup := by
  have hsub : l.eraseDups.Subperm l :=
    List.subperm_of_subset (nodup_eraseDups l) fun a ha => List.mem_eraseDups.mp ha
  exact (hsub.perm_of_length_le h.le).nodup_iff.mp (nodup_eraseDups l)

theorem sanityChecks_eq_ok (vx : Vertex H) (h : vx.sanityChecks = .ok ()) :
    vx.parents ≠ [] ∧ vx.parents.Nodup := by
  unfold sanityChecks at h
  split at h
  · cases h
  split at h
  · cases h
  split at h
  · cases h
  next hp hd =>
    exact ⟨by simpa using hp, nodup_of_length_eraseDups _ (not_ne_iff.mp hd)⟩

end

/-- The sanity checks read nothing but serialized fields. -/
theorem SameWire.sanityChecks_eq [DecidableEq H] {u v : Vertex H} (h : u.SameWire v) :
    u.sanityChecks = v.sanityChecks := by
  unfold sanityChecks
  rw [h.1, h.2.2.1]

theorem SameWire.parentConstraints_eq {u v : Vertex H} (h : u.SameWire v) :
    u.parentConstraints = v.parentConstraints := by
  rw [parentConstraints, parentConstraints, h.2.2.1]

end Vertex

end Taurus
