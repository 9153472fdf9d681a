import Mathlib.Data.Finmap
import Mathlib.Data.List.Sort
import Mathlib.Data.Finset.Card
import Mathlib.Tactic.Common

namespace Taurus

/-- `HashMap<K, V>`: a finite map, with no order on its entries. -/
abbrev HashMap (K V : Type) := Finmap fun _ : K => V

/-- `HashSet<T>`: a finite set, with no order on its elements. -/
abbrev HashSet (α : Type) := Finset α

/-- The order in which hash sets yield their elements. A set is iterated under a
tag `k`, so that equal sets held in different places may differ in their order. -/
structure HashOrder (K α : Type) where
  order : K → HashSet α → List α
  coe_order : ∀ k s, (order k s : Multiset α) = s.val

namespace HashOrder

variable {K α : Type} (o : HashOrder K α) (k : K) (s : HashSet α)

@[simp] theorem mem_order (a : α) : a ∈ o.order k s ↔ a ∈ s := by
  rw [← Multiset.mem_coe, o.coe_order, Finset.mem_val]

theorem length_order : (o.order k s).length = s.card := by
  rw [← Multiset.coe_card, o.coe_order, Finset.card_def]

theorem nodup_order : (o.order k s).Nodup := by
  rw [← Multiset.coe_nodup, o.coe_order]
  exact s.nodup

/-- Iteration in ascending order, whatever the tag: one order a hash set may have. -/
def ascending [LinearOrder α] : HashOrder K α where
  order _ s := s.val.lift (fun l : List α => l.insertionSort (· ≤ ·)) fun l l' h =>
    List.Perm.eq_of_pairwise (fun _ _ _ _ => le_antisymm)
      (l.pairwise_insertionSort _) (l'.pairwise_insertionSort _)
      (((l.perm_insertionSort _).trans h).trans (l'.perm_insertionSort _).symm)
  coe_order _ s := by
    obtain ⟨⟨l⟩, hl⟩ := s
    exact Multiset.coe_eq_coe.mpr (l.perm_insertionSort _)

end HashOrder

namespace HashMap

variable {K V : Type} [DecidableEq K]

/-- `HashMap::try_insert`: adds the entry unless the key is already there. -/
def tryInsert (m : HashMap K V) (k : K) (v : V) : HashMap K V :=
  if k ∈ m then m else m.insert k v

theorem lookup_insert (m : HashMap K V) (k k' : K) (v : V) :
    (m.insert k v).lookup k' = if k' = k then some v else m.lookup k' := by
  split
  · next h => rw [h, Finmap.lookup_insert]
  · next h => exact Finmap.lookup_insert_of_ne m h

theorem lookup_tryInsert (m : HashMap K V) (k k' : K) (v : V) :
    (tryInsert m k v).lookup k' = if k' = k ∧ k ∉ m then some v else m.lookup k' := by
  unfold tryInsert
  split
  · next h => simp [h]
  · next h => simp only [lookup_insert, h, not_false_eq_true, and_true]

theorem mem_tryInsert (m : HashMap K V) (k k' : K) (v : V) :
    k' ∈ tryInsert m k v ↔ k' = k ∨ k' ∈ m := by
  unfold tryInsert
  split
  · next h => exact ⟨Or.inr, fun h' => h'.elim (fun he => he ▸ h) id⟩
  · exact Finmap.mem_insert

end HashMap

end Taurus
