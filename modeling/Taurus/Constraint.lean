import Mathlib.Data.List.Nodup
import Mathlib.Order.Lattice
import Mathlib.Tactic.Common
import Mathlib.Tactic.Ring

namespace Taurus

variable {H : Type}

/-- An ordered pair of vertices: `left` is constrained to come in sequence before
`right`. A unity constraint names one vertex twice. -/
structure Constraint (H : Type) where
  left : H
  right : H
deriving DecidableEq, Repr

/-- Key of the conflict set a constraint belongs to. The source concatenates the
two hashes into 64 bytes; the pair carries the same information. -/
structure ConflictSetKey (H : Type) where
  lt : H
  gt : H
deriving DecidableEq, Repr

namespace Constraint

def unity (vhash : H) : Constraint H := ⟨vhash, vhash⟩

/-- Deterministic key, the same for a constraint and its opposite. -/
def conflictSetKey [LinearOrder H] (c : Constraint H) : ConflictSetKey H :=
  if c.left < c.right then ⟨c.left, c.right⟩ else ⟨c.right, c.left⟩

def isUnity [DecidableEq H] (c : Constraint H) : Bool := c.left == c.right

/-- The opposite ordering, if any. -/
def conflict [DecidableEq H] (c : Constraint H) : Option (Constraint H) :=
  if !c.isUnity then some ⟨c.right, c.left⟩ else none

/-- The two vertices in the other order. -/
def swap (c : Constraint H) : Constraint H := ⟨c.right, c.left⟩

@[simp] theorem unity_left (h : H) : (unity h).left = h := rfl
@[simp] theorem unity_right (h : H) : (unity h).right = h := rfl
@[simp] theorem swap_left (c : Constraint H) : c.swap.left = c.right := rfl
@[simp] theorem swap_right (c : Constraint H) : c.swap.right = c.left := rfl
@[simp] theorem swap_swap (c : Constraint H) : c.swap.swap = c := rfl

@[simp] theorem unity_inj (a b : H) : unity a = unity b ↔ a = b := by
  simp [unity]

theorem eq_unity_of_left_eq_right (c : Constraint H) (h : c.left = c.right) :
    c = unity c.left := by
  cases c
  simp_all [unity]

section
variable [DecidableEq H]

@[simp] theorem isUnity_iff (c : Constraint H) : c.isUnity = true ↔ c.left = c.right := by
  simp [isUnity]

@[simp] theorem conflict_unity (h : H) : (unity h).conflict = none := by
  simp [conflict, isUnity, unity]

theorem exists_eq_unity (c : Constraint H) (h : c.isUnity = true) : ∃ k, c = unity k :=
  ⟨c.left, c.eq_unity_of_left_eq_right ((isUnity_iff c).mp h)⟩

/-- A constraint has an opposite exactly when it names two vertices. -/
theorem conflict_eq_some (c o : Constraint H) :
    c.conflict = some o ↔ c.left ≠ c.right ∧ o = c.swap := by
  unfold conflict isUnity swap
  by_cases h : c.left = c.right <;> simp [h, @eq_comm _ o]

theorem conflict_eq_none (c : Constraint H) : c.conflict = none ↔ c.left = c.right := by
  unfold conflict isUnity
  by_cases h : c.left = c.right <;> simp [h]

theorem conflict_symm (c o : Constraint H) (h : c.conflict = some o) : o.conflict = some c := by
  rw [conflict_eq_some] at h ⊢
  obtain ⟨hne, rfl⟩ := h
  exact ⟨fun he => hne he.symm, rfl⟩

end

section
variable [LinearOrder H]

@[simp] theorem conflictSetKey_swap (c : Constraint H) : c.swap.conflictSetKey = c.conflictSetKey := by
  unfold conflictSetKey swap
  rcases lt_trichotomy c.left c.right with h | h | h
  · simp [h, h.not_gt]
  · simp [h]
  · simp [h, h.not_gt]

/-- Two constraints share a conflict set exactly when they are equal or opposite. -/
theorem conflictSetKey_eq_iff (c d : Constraint H) :
    c.conflictSetKey = d.conflictSetKey ↔ c = d ∨ c = d.swap := by
  constructor
  · intro h
    obtain ⟨cl, cr⟩ := c
    obtain ⟨dl, dr⟩ := d
    unfold conflictSetKey at h
    simp only [swap, mk.injEq]
    split at h <;> split at h <;> simp_all
  · rintro (rfl | rfl)
    · rfl
    · exact conflictSetKey_swap d

theorem conflictSetKey_unity_eq_iff (c : Constraint H) (h : H) :
    c.conflictSetKey = (unity h).conflictSetKey ↔ c = unity h := by
  rw [conflictSetKey_eq_iff, show (unity h).swap = unity h from rfl, or_self]

theorem conflictSetKey_conflict (c o : Constraint H) (h : c.conflict = some o) :
    o.conflictSetKey = c.conflictSetKey := by
  rw [((conflict_eq_some c o).mp h).2, conflictSetKey_swap]

end

end Constraint

/-- Iterator over the constraints between the vertices of a list. The field `valid`
is what keeps the indexing of `next` in bounds. -/
structure Constraints (H : Type) where
  vertices : List H
  idx1 : Nat
  idx2 : Nat
  valid : idx1 + 1 < vertices.length → idx2 < vertices.length

namespace Constraints

def new (vertices : List H) : Constraints H := ⟨vertices, 0, 1, id⟩

/-- Pairs in order while `idx1` has a successor, then the vertices popped one by one. -/
def next (it : Constraints H) : Option (Constraint H × Constraints H) :=
  if h : it.idx1 + 1 ≥ it.vertices.length then
    it.vertices.getLast?.map fun vhash =>
      (Constraint.unity vhash,
        { it with
          vertices := it.vertices.dropLast
          valid := by simp only [List.length_dropLast]; omega })
  else
    have h1 : it.idx1 < it.vertices.length := by omega
    have h2 : it.idx2 < it.vertices.length := it.valid (by omega)
    let constraint : Constraint H := ⟨it.vertices[it.idx1], it.vertices[it.idx2]⟩
    if h3 : it.idx2 + 1 = it.vertices.length then
      some (constraint, ⟨it.vertices, it.idx1 + 1, it.idx1 + 1 + 1, id⟩)
    else
      some (constraint, ⟨it.vertices, it.idx1, it.idx2 + 1, fun _ => by omega⟩)

/-- The first `fuel` items. -/
def take : Nat → Constraints H → List (Constraint H)
  | 0, _ => []
  | fuel + 1, it =>
    match it.next with
    | none => []
    | some (c, it') => c :: take fuel it'

/-- Everything the iterator yields; it stops well before `n * n + 1` items. -/
def collect (it : Constraints H) : List (Constraint H) :=
  it.take (it.vertices.length * it.vertices.length + 1)

/-- Ordered pairs of a list, first component first. -/
def pairs : List H → List (Constraint H)
  | [] => []
  | a :: l => l.map (Constraint.mk a) ++ pairs l

/-- What an iterator has still to yield. -/
def rest (it : Constraints H) : List (Constraint H) :=
  if h : it.idx1 + 1 < it.vertices.length then
    (it.vertices.drop it.idx2).map (Constraint.mk it.vertices[it.idx1]) ++
      (pairs (it.vertices.drop (it.idx1 + 1)) ++ (it.vertices.map Constraint.unity).reverse)
  else
    (it.vertices.map Constraint.unity).reverse

theorem pairs_of_length_le_one (l : List H) (h : l.length ≤ 1) : pairs l = [] := by
  match l, h with
  | [], _ => rfl
  | [_], _ => rfl

/-- One call of `next` takes the head off what is left. -/
theorem rest_next (it : Constraints H) :
    it.rest = match it.next with
      | none => []
      | some (c, it') => c :: it'.rest := by
  unfold next
  by_cases h : it.idx1 + 1 < it.vertices.length
  · have h2 : it.idx2 < it.vertices.length := it.valid h
    have hdrop : it.vertices.drop it.idx2 = it.vertices[it.idx2] :: it.vertices.drop (it.idx2 + 1) :=
      List.drop_eq_getElem_cons h2
    rw [dif_neg (by omega)]
    by_cases h3 : it.idx2 + 1 = it.vertices.length
    · simp only [rest, h, h3, hdrop, ↓reduceDIte, List.drop_length, List.map_cons, List.map_nil,
        List.cons_append, List.nil_append, List.cons.injEq, true_and]
      by_cases h4 : it.idx1 + 1 + 1 < it.vertices.length
      · rw [dif_pos h4, List.drop_eq_getElem_cons h, pairs, List.append_assoc]
      · rw [dif_neg h4, pairs_of_length_le_one _ (by simp only [List.length_drop]; omega),
          List.nil_append]
    · simp only [rest, h, h3, hdrop, ↓reduceDIte, List.map_cons, List.cons_append]
  · rw [dif_pos (by omega), rest, dif_neg h]
    rcases List.eq_nil_or_concat it.vertices with hv | ⟨l, a, hv⟩
    · simp [hv]
    · have hl : ¬ it.idx1 + 1 < l.length := by
        simp only [hv, List.concat_eq_append, List.length_append, List.length_singleton] at h
        omega
      simp [hv, rest, hl]

theorem take_eq_rest (fuel : Nat) (it : Constraints H) (h : it.rest.length < fuel) :
    it.take fuel = it.rest := by
  induction fuel generalizing it with
  | zero => omega
  | succ fuel ih =>
    have hr := rest_next it
    rw [take]
    cases hn : it.next with
    | none => rw [hr, hn]
    | some p =>
      obtain ⟨c, it'⟩ := p
      rw [hn] at hr
      rw [hr] at h ⊢
      simp only [List.length_cons] at h
      simp only [List.cons.injEq, true_and]
      exact ih it' (by omega)

theorem length_pairs (l : List H) : 2 * (pairs l).length + l.length = l.length * l.length := by
  induction l with
  | nil => rfl
  | cons a l ih =>
    simp only [pairs, List.length_append, List.length_map, List.length_cons]
    have hsq : (l.length + 1) * (l.length + 1) = l.length * l.length + 2 * l.length + 1 := by ring
    omega

theorem rest_new (l : List H) : (new l).rest = pairs l ++ (l.map Constraint.unity).reverse := by
  match l with
  | [] => rfl
  | [_] => rfl
  | a :: b :: l =>
    simp [rest, new, pairs]

/-- The iterator yields every ordered pair of the list, then the unity constraint of
each vertex from the last to the first. -/
theorem collect_new (l : List H) :
    (new l).collect = pairs l ++ (l.map Constraint.unity).reverse := by
  have hlen : (new l).rest.length < l.length * l.length + 1 := by
    have hp := length_pairs l
    rw [rest_new]
    simp only [List.length_append, List.length_reverse, List.length_map]
    rcases l with - | ⟨a, l⟩
    · simp [pairs]
    · simp only [List.length_cons] at hp ⊢
      have hge : l.length + 1 ≤ (l.length + 1) * (l.length + 1) := Nat.le_mul_self _
      omega
  rw [collect, show (new l).vertices = l from rfl, take_eq_rest _ _ hlen, rest_new]

theorem mem_pairs (l : List H) (c : Constraint H) :
    c ∈ pairs l ↔ List.Sublist [c.left, c.right] l := by
  induction l with
  | nil => simp [pairs]
  | cons a l ih =>
    obtain ⟨x, y⟩ := c
    simp only [pairs, List.mem_append, List.mem_map, Constraint.mk.injEq, ih]
    constructor
    · rintro (⟨b, hb, rfl, rfl⟩ | h)
      · exact (List.singleton_sublist.mpr hb).cons_cons _
      · exact h.cons _
    · intro h
      cases h with
      | cons _ h => exact Or.inr h
      | cons_cons _ h => exact Or.inl ⟨y, List.singleton_sublist.mp h, rfl, rfl⟩

theorem mem_collect_new (l : List H) (c : Constraint H) :
    c ∈ (new l).collect ↔ List.Sublist [c.left, c.right] l ∨ c.left = c.right ∧ c.left ∈ l := by
  rw [collect_new, List.mem_append, mem_pairs, List.mem_reverse, List.mem_map]
  refine or_congr_right ⟨?_, ?_⟩
  · rintro ⟨h, hh, rfl⟩
    exact ⟨rfl, hh⟩
  · rintro ⟨he, hm⟩
    exact ⟨c.left, hm, (c.eq_unity_of_left_eq_right he).symm⟩

theorem sublist_pair_asymm (l : List H) (a b : H) (hl : l.Nodup)
    (hab : List.Sublist [a, b] l) : ¬ List.Sublist [b, a] l := by
  intro hba
  induction l with
  | nil => cases hab
  | cons x l ih =>
    obtain ⟨hx, hl⟩ := List.nodup_cons.mp hl
    cases hab with
    | cons _ hab =>
      cases hba with
      | cons _ hba => exact ih hl hab hba
      | cons_cons _ _ => exact hx (hab.subset (by simp))
    | cons_cons _ hb =>
      cases hba with
      | cons _ hba => exact hx (hba.subset (by simp))
      | cons_cons _ _ => exact hx (List.singleton_sublist.mp hb)

/-- A list without repetitions never has both orders of a pair. -/
theorem swap_notMem_collect {l : List H} {c : Constraint H} (hn : l.Nodup)
    (hne : c.left ≠ c.right) (hc : c ∈ (new l).collect) : c.swap ∉ (new l).collect := by
  rw [mem_collect_new] at hc ⊢
  rcases hc with h | ⟨he, _⟩
  · rintro (h' | ⟨he, _⟩)
    · exact sublist_pair_asymm _ _ _ hn h h'
    · exact hne he.symm
  · exact absurd he hne

/-- The pairs of a list without repetitions are distinct, and each names two vertices. -/
theorem nodup_pairs {l : List H} (hn : l.Nodup) :
    (pairs l).Nodup ∧ ∀ c ∈ pairs l, c.left ≠ c.right := by
  induction l with
  | nil => simp [pairs]
  | cons a l ih =>
    obtain ⟨ha, hn⟩ := List.nodup_cons.mp hn
    obtain ⟨hpairs, hne⟩ := ih hn
    have hinj : Function.Injective (Constraint.mk a) := fun b b' h => congrArg Constraint.right h
    have hfirst : ∀ c ∈ l.map (Constraint.mk a), c.left = a ∧ c.right ∈ l := by
      intro c hc
      obtain ⟨b, hb, rfl⟩ := List.mem_map.mp hc
      exact ⟨rfl, hb⟩
    rw [pairs]
    refine ⟨List.nodup_append.mpr ⟨hn.map hinj, hpairs, fun c hc d hd he => ?_⟩, fun c hc => ?_⟩
    · -- the pairs of the tail start with a vertex of the tail
      have hd' : d.left ∈ l := ((mem_pairs l d).mp hd).subset (by simp)
      rw [← he, (hfirst c hc).1] at hd'
      exact ha hd'
    · rcases List.mem_append.mp hc with hc | hc
      · obtain ⟨hl, hr⟩ := hfirst c hc
        exact fun he => ha (hl ▸ he ▸ hr)
      · exact hne c hc

theorem nodup_collect_new {l : List H} (hn : l.Nodup) : (new l).collect.Nodup := by
  obtain ⟨hpairs, hne⟩ := nodup_pairs hn
  rw [collect_new, List.nodup_append, List.nodup_reverse]
  refine ⟨hpairs, hn.map fun a b => (Constraint.unity_inj a b).mp, fun c hc d hd he => ?_⟩
  obtain ⟨h, _, rfl⟩ := List.mem_map.mp (List.mem_reverse.mp hd)
  exact hne c hc (by rw [he]; rfl)

end Constraints

end Taurus
