import Mathlib.Data.List.ProdSigma
import Mathlib.Data.Prod.Lex
import Mathlib.Tactic.Common

namespace Taurus

section

variable {σ α : Type} {next : σ → Option (α × σ)} {s : σ} {l l' : List α}

/-- Asked for one item after another, from the state `s` on, the iterator yields those of the
list and then ends. -/
inductive Yields (next : σ → Option (α × σ)) : σ → List α → Prop
  | done {s : σ} : next s = none → Yields next s []
  | item {s s' : σ} {a : α} {l : List α} : next s = some (a, s') → Yields next s' l →
      Yields next s (a :: l)

theorem Yields.unique (h : Yields next s l) (h' : Yields next s l') : l = l' := by
  induction h generalizing l' with
  | done hn =>
    cases h' with
    | done _ => rfl
    | item hn' _ => cases hn.symm.trans hn'
  | item hn _ ih =>
    cases h' with
    | done hn' => cases hn.symm.trans hn'
    | item hn' h' =>
      cases hn.symm.trans hn'
      rw [ih h']

/-- Rule for iterators: a list from which every call takes the head, and which is empty when the
iterator ends, is what it yields. -/
theorem Yields.of_rest {rest : σ → List α} (hdone : ∀ s, next s = none → rest s = [])
    (hitem : ∀ s a s', next s = some (a, s') → rest s = a :: rest s') (s : σ) :
    Yields next s (rest s) := by
  induction hl : rest s generalizing s with
  | nil =>
    cases hn : next s with
    | none => exact .done hn
    | some p =>
      have h := hitem s p.1 p.2 hn
      rw [hl] at h
      cases h
  | cons a l ih =>
    cases hn : next s with
    | none =>
      have h := hdone s hn
      rw [hl] at h
      cases h
    | some p =>
      have h := hitem s p.1 p.2 hn
      rw [hl, List.cons.injEq] at h
      rw [h.1]
      exact .item hn (ih p.2 h.2.symm)

end

section

variable {α β : Type} [LinearOrder α] [LinearOrder β]

/-- The product of two ascending lists is in lexicographic order. -/
theorem product_lex {l : List α} {m : List β} (hl : l.Pairwise (· < ·)) (hm : m.Pairwise (· < ·)) :
    (l ×ˢ m).Pairwise (Prod.Lex (· < ·) (· < ·)) := by
  induction l with
  | nil => exact List.Pairwise.nil
  | cons a l ih =>
    obtain ⟨ha, hl⟩ := List.pairwise_cons.mp hl
    rw [List.product_cons, List.pairwise_append]
    refine ⟨?_, ih hl, ?_⟩
    · exact List.pairwise_map.mpr (hm.imp fun h => Prod.Lex.right a h)
    · intro p hp q hq
      obtain ⟨b, _, rfl⟩ := List.mem_map.mp hp
      exact Prod.lex_def.mpr (Or.inl (ha q.1 (List.mem_product.mp hq).1))

/-- The pairs of elements of a list whose first comes before its second in the order. -/
def increasingPairs (l : List α) : List (α × α) := (l ×ˢ l).filter fun p => p.1 < p.2

theorem mem_increasingPairs {l : List α} {p : α × α} :
    p ∈ increasingPairs l ↔ p.1 ∈ l ∧ p.2 ∈ l ∧ p.1 < p.2 := by
  rw [increasingPairs, List.mem_filter, List.mem_product, decide_eq_true_eq, and_assoc]

theorem increasingPairs_lex {l : List α} (hl : l.Pairwise (· < ·)) :
    (increasingPairs l).Pairwise (Prod.Lex (· < ·) (· < ·)) :=
  (product_lex hl hl).filter _

/-- In an ascending list the least element is paired with all others, before they are paired with
each other. -/
theorem increasingPairs_cons {a : α} {l : List α} (ha : ∀ b ∈ l, a < b) :
    increasingPairs (a :: l) = l.map (Prod.mk a) ++ increasingPairs l := by
  have hdrop (m : List α) (hm : ∀ b ∈ m, a < b) :
      (m ×ˢ (a :: l)).filter (fun p => p.1 < p.2) = (m ×ˢ l).filter fun p => p.1 < p.2 := by
    induction m with
    | nil => rfl
    | cons b m ih =>
      have hb : ¬ b < a := (hm b List.mem_cons_self).not_gt
      rw [List.product_cons, List.product_cons, List.filter_append, List.filter_append,
        ih fun x hx => hm x (List.mem_cons_of_mem b hx), List.map_cons,
        List.filter_cons_of_neg (by simpa using hb)]
  have hkeep : (l.map (Prod.mk a)).filter (fun p => p.1 < p.2) = l.map (Prod.mk a) := by
    refine List.filter_eq_self.mpr fun p hp => ?_
    obtain ⟨b, hb, rfl⟩ := List.mem_map.mp hp
    exact decide_eq_true (ha b hb)
  rw [increasingPairs, List.product_cons, List.filter_append, hdrop l ha, List.map_cons,
    List.filter_cons_of_neg (by simp), hkeep]
  rfl

end

end Taurus
