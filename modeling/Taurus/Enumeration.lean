import Mathlib.Data.List.FinRange
import Taurus.Constraint
import Taurus.Iteration

namespace Taurus

variable {H : Type}

namespace Constraints

/-- The constraints of a list by their indices: `(i, j)` for `i < j` in lexicographic order, then
`(k, k)` from the last index down to the first. -/
def enumeration (l : List H) : List (Constraint H) :=
  (increasingPairs (List.finRange l.length)).map (fun p => ⟨l.get p.1, l.get p.2⟩) ++
    (List.finRange l.length).reverse.map fun k => Constraint.unity (l.get k)

/-- Pairs of the members of a list are pairs of their indices. -/
theorem pairs_map {ι : Type} [LinearOrder ι] (f : ι → H) {m : List ι} (hm : m.Pairwise (· < ·)) :
    pairs (m.map f) = (increasingPairs m).map fun p => ⟨f p.1, f p.2⟩ := by
  induction m with
  | nil => rfl
  | cons a m ih =>
    obtain ⟨ha, hm⟩ := List.pairwise_cons.mp hm
    rw [List.map_cons, pairs, ih hm, increasingPairs_cons ha, List.map_append, List.map_map,
      List.map_map]
    rfl

/-- The iterator's own list is the enumeration by indices. -/
theorem collect_eq_enumeration (l : List H) : (new l).collect = enumeration l := by
  have hpairs := pairs_map l.get (List.pairwise_lt_finRange l.length)
  rw [List.map_get_finRange] at hpairs
  have hunity : (List.finRange l.length).reverse.map (fun k => Constraint.unity (l.get k)) =
      (l.map Constraint.unity).reverse := calc
    _ = (((List.finRange l.length).map l.get).map Constraint.unity).reverse := by
      rw [List.map_map, List.map_reverse]
      rfl
    _ = (l.map Constraint.unity).reverse := by rw [List.map_get_finRange]
  rw [collect_new, enumeration, hunity, hpairs]

/-- From any of its states the iterator yields what is left, and ends. -/
theorem yields_rest (it : Constraints H) : Yields next it it.rest := by
  refine Yields.of_rest (fun s hn => ?_) (fun s c s' hn => ?_) it
  · rw [rest_next, hn]
  · rw [rest_next, hn]

theorem yields_new (l : List H) : Yields next (new l) (enumeration l) := by
  rw [← collect_eq_enumeration, collect_new, ← rest_new]
  exact yields_rest (new l)

theorem length_enumeration (l : List H) :
    (enumeration l).length = l.length * (l.length + 1) / 2 := by
  have hp := length_pairs l
  calc
    (enumeration l).length = (pairs l).length + l.length := by
      rw [← collect_eq_enumeration, collect_new, List.length_append, List.length_reverse,
        List.length_map]
    _ = l.length * (l.length + 1) / 2 := by
      rw [Nat.mul_add_one]
      omega

/-- Without repetitions in the list, no constraint is yielded twice, and none together with its
opposite. -/
theorem enumeration_distinct [DecidableEq H] {l : List H} (hn : l.Nodup) :
    (enumeration l).Nodup ∧ ∀ c ∈ enumeration l, ∀ d ∈ enumeration l, c.conflict ≠ some d := by
  rw [← collect_eq_enumeration]
  refine ⟨nodup_collect_new hn, fun c hc d hd ho => ?_⟩
  obtain ⟨hne, rfl⟩ := (Constraint.conflict_eq_some c d).mp ho
  exact swap_notMem_collect hn hne hc hd

/-- On every list of `n` vertices the iterator ends after `n * (n + 1) / 2` constraints, which are
those of the enumeration in its order. -/
theorem constraints_enumerated [DecidableEq H] (l : List H) :
    (∀ items, Yields next (new l) items ↔ items = enumeration l) ∧
      (enumeration l).length = l.length * (l.length + 1) / 2 ∧
      (increasingPairs (List.finRange l.length)).Pairwise (Prod.Lex (· < ·) (· < ·)) ∧
      (∀ i j : Fin l.length, (i, j) ∈ increasingPairs (List.finRange l.length) ↔ i < j) ∧
      (l.Nodup → (enumeration l).Nodup ∧
        ∀ c ∈ enumeration l, ∀ d ∈ enumeration l, c.conflict ≠ some d) := by
  refine ⟨fun items => ⟨fun h => h.unique (yields_new l), fun h => h ▸ yields_new l⟩,
    length_enumeration l, increasingPairs_lex (List.pairwise_lt_finRange l.length),
    fun i j => ?_, enumeration_distinct⟩
  simp only [mem_increasingPairs, List.mem_finRange, true_and]

/-- The order of three vertices. -/
theorem constraints_enumerated_three :
    Yields next (new [3, 1, 2]) ([⟨3, 1⟩, ⟨3, 2⟩, ⟨1, 2⟩, .unity 2, .unity 1, .unity 3] :
      List (Constraint Nat)) ∧ (enumeration [3, 1, 2]).Nodup := by
  obtain ⟨hyields, _, _, _, hdistinct⟩ := constraints_enumerated [3, 1, 2]
  exact ⟨(hyields _).mpr (by decide), (hdistinct (by decide)).1⟩

end Constraints

end Taurus
