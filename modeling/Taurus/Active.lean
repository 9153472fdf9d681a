import Taurus.Sound

namespace Taurus

open Relation

variable {H : Type} [LinearOrder H] {hash : Vertex H → H} {it : HashOrders H}
  {genesis : Vertex H} {dag : DAG H} {vx : Vertex H}

namespace Graph

/-- Is `a` a parent of the vertex, or an ancestor of one? -/
def Precedes (graph : Graph H) (a : H) (vx : Vertex H) : Prop :=
  ∃ p ∈ vx.parents, ReflTransGen graph.IsParent a p

end Graph

namespace DAG

/-- Parents, seen from an undecided vertex. -/
def OpenParent (dag : DAG H) (p h : H) : Prop := dag.graph.IsParent p h ∧ dag.decisionOn h = none

/-- Is there a line from `a` to a parent of the vertex, undecided below `a`? -/
def OpenLine (dag : DAG H) (a : H) (vx : Vertex H) : Prop :=
  ∃ p ∈ vx.parents, ReflTransGen dag.OpenParent a p

/-- Does an undecided line up from `h` end at the height `n`, where an accepted vertex is?
An undecided `h` also counts as one that ends at the seed of the search. -/
def EndsAt (dag : DAG H) (h : H) (n : Nat) : Prop :=
  (∃ a, ReflTransGen dag.OpenParent a h ∧ dag.decisionOn a = some true ∧ dag.graph.height a = n) ∨
    n = u64Max ∧ dag.decisionOn h = none

/-- Is `a` an undecided parent of the vertex, or an undecided parent of an ancestor that lies
above the lowest end of an undecided line? -/
def Active (dag : DAG H) (a : H) (vx : Vertex H) : Prop :=
  dag.decisionOn a = none ∧ (a ∈ vx.parents ∨ ∃ b, dag.graph.IsParent a b ∧
    dag.graph.Precedes b vx ∧ ∃ p ∈ vx.parents, ∃ n, dag.EndsAt p n ∧ n < dag.graph.height b)

/-- Is `c` an undecided constraint that the vertex or one of its active ancestors commits to? -/
def ActiveConstraint (dag : DAG H) (c : Constraint H) (vx : Vertex H) : Prop :=
  decisionOf dag.state c = none ∧
    (c ∈ vx.parentConstraints ∨ ∃ a, dag.Active a vx ∧ c ∈ dag.graph.commitments a)

end DAG

theorem DAG.Active.mem {a : H} (ha : dag.Active a vx) (hd : Sound hash genesis dag)
    (hin : ∀ p ∈ vx.parents, p ∈ dag.graph) : a ∈ dag.graph := by
  rcases ha.2 with ha | ⟨b, hab, _⟩
  · exact hin a ha
  · exact hd.shaped.parent_mem hab

/-- What an inserted vertex or another vertex of the graph commits to is registered. -/
theorem registered_of_committed {v : H} {c : Constraint H} {S : H → Prop}
    (hv : dag.graph.lookup v = some vx)
    (hc : c ∈ vx.parentConstraints ∨ ∃ a, S a ∧ c ∈ dag.graph.commitments a) :
    dag.graph.Registered c := by
  rcases hc with hc | ⟨a, _, hc⟩
  · exact Graph.registered_of_mem_commitments (by rwa [Graph.commitments_of_lookup hv])
  · exact Graph.registered_of_mem_commitments hc

theorem foldr_min_le (l : List Nat) (z n : Nat) (hn : n ∈ l) : l.foldr min z ≤ n := by
  induction l with
  | nil => cases hn
  | cons a l ih =>
    rw [List.foldr_cons]
    rcases List.mem_cons.mp hn with rfl | hn
    · exact min_le_left _ _
    · exact (min_le_right _ _).trans (ih hn)

theorem mem_foldr_union {α : Type} [DecidableEq α] (l : List (Finset α)) (z : Finset α) (a : α) :
    a ∈ l.foldr (· ∪ ·) z ↔ a ∈ z ∨ ∃ s ∈ l, a ∈ s := by
  induction l with
  | nil => simp
  | cons s l ih =>
    rw [List.foldr_cons, Finset.mem_union, ih]
    simp only [List.mem_cons, exists_eq_or_imp]
    tauto

theorem foldr_min_le_init (l : List Nat) (z : Nat) : l.foldr min z ≤ z := by
  induction l with
  | nil => exact le_rfl
  | cons a l ih => exact (min_le_right _ _).trans ih

theorem foldr_min_mem (l : List Nat) (z : Nat) : l.foldr min z = z ∨ l.foldr min z ∈ l := by
  induction l with
  | nil => exact Or.inl rfl
  | cons a l ih =>
    rw [List.foldr_cons]
    rcases min_choice a (l.foldr min z) with h | h
    · exact Or.inr (by simp [h])
    · rw [h]
      exact ih.imp_right (List.mem_cons_of_mem a)

/-- An undecided line up from a vertex that is not rejected ends at an accepted one. -/
theorem exists_end (hd : Sound hash genesis dag) {h : H} (hh : h ∈ dag.graph)
    (hnr : dag.decisionOn h ≠ some false) :
    ∃ a, ReflTransGen dag.OpenParent a h ∧ dag.decisionOn a = some true ∧
      dag.graph.height a ≤ dag.graph.height h := by
  induction hn : dag.graph.height h using Nat.strong_induction_on generalizing h with
  | _ n ih =>
    cases hu : dag.decisionOn h with
    | some b =>
      cases b with
      | false => exact absurd hu hnr
      | true => exact ⟨h, .refl, hu, hn.le⟩
    | none =>
      obtain ⟨v, hv, hlegal⟩ := hd.exists_parent hh hu
      obtain ⟨p, hp⟩ := List.exists_mem_of_ne_nil _ hlegal.nonempty
      have hip : dag.graph.IsParent p h := ⟨v, hv, hp⟩
      have hlt := hd.shaped.height_lt hip
      obtain ⟨a, ha, hacc, hle⟩ := ih _ (hn ▸ hlt) (hlegal.inserted p hp)
        (hd.parent_not_rejected hip hu) rfl
      exact ⟨a, ha.tail ⟨hip, hu⟩, hacc, by omega⟩

/-- `decided_height` ends. It fails exactly on a rejected vertex, and else returns the lowest
height at which an undecided line ends. -/
theorem decidedHeight_spec (hd : Sound hash genesis dag) (fuel : Nat) (h : H)
    (hh : h ∈ dag.graph) (hfuel : dag.graph.height h < fuel + genesis.height) :
    (dag.decisionOn h = some false → dag.decidedHeight fuel h = .err .rejectedAncestor) ∧
      (dag.decisionOn h ≠ some false → ∃ k, dag.decidedHeight fuel h = .ok k ∧
        dag.EndsAt h k ∧ ∀ n, dag.EndsAt h n → k ≤ n) := by
  induction fuel generalizing h with
  | zero =>
    have hb := hd.shaped.height_bounds hh
    omega
  | succ fuel ih =>
    obtain ⟨cs, hcs, hdec⟩ := hd.unity_lookup hh
    obtain ⟨v, hgv, hvv, hheight⟩ := hd.vertex_lookup hh
    rw [DAG.decidedHeight, hcs, Outcome.lift_some, Outcome.ok_bind, hdec, hvv]
    -- the recursion goes on from undecided vertices only
    cases hu : dag.decisionOn h with
    | some b =>
      cases b with
      | false => exact ⟨fun _ => rfl, fun hn => absurd rfl hn⟩
      | true =>
        refine ⟨fun hf => by simp at hf, fun _ => ⟨v.height, rfl, Or.inl ⟨h, .refl, hu, hheight.symm⟩, ?_⟩⟩
        rintro n (⟨a, ha, _, rfl⟩ | ⟨_, hn⟩)
        · rcases ReflTransGen.cases_tail ha with rfl | ⟨q, _, hq⟩
          · exact hheight.le
          · rw [hq.2] at hu
            cases hu
        · rw [hu] at hn
          cases hn
    | none =>
      refine ⟨fun hf => by simp at hf, fun _ => ?_⟩
      obtain ⟨v', hv', hlegal⟩ := hd.exists_parent hh hu
      cases hgv.symm.trans hv'
      have hopen (p : H) (hp : p ∈ v.parents) : dag.OpenParent p h := ⟨⟨v, hgv, hp⟩, hu⟩
      -- no parent is rejected, so each yields a height
      have hpar (p : H) (hp : p ∈ v.parents) : ∃ k, dag.decidedHeight fuel p = .ok k ∧
          dag.EndsAt p k ∧ ∀ n, dag.EndsAt p n → k ≤ n := by
        have hlt := hd.shaped.height_lt (hopen p hp).1
        exact (ih p (hlegal.inserted p hp) (by omega)).2 (hd.parent_not_rejected (hopen p hp).1 hu)
      choose! g hg hends hle using hpar
      refine ⟨(v.parents.map g).foldr min u64Max, ?_, ?_, ?_⟩
      · simp only [Outcome.lift_some, Outcome.mapM_of_ok _ g v.parents hg, Outcome.ok_bind,
          Outcome.pure_def]
      · rcases foldr_min_mem (v.parents.map g) u64Max with he | he
        · exact Or.inr ⟨he, hu⟩
        · obtain ⟨p, hp, he⟩ := List.mem_map.mp he
          rw [← he]
          rcases hends p hp with ⟨a, ha, hacc, hk⟩ | ⟨hk, _⟩
          · exact Or.inl ⟨a, ha.tail (hopen p hp), hacc, hk⟩
          · exact Or.inr ⟨hk, hu⟩
      · rintro n (⟨a, ha, hacc, rfl⟩ | ⟨rfl, _⟩)
        · rcases ReflTransGen.cases_tail ha with rfl | ⟨p, hap, ⟨w, hw, hp⟩, _⟩
          · rw [hacc] at hu
            cases hu
          · cases hgv.symm.trans hw
            exact (foldr_min_le _ _ _ (List.mem_map_of_mem hp)).trans
              (hle p hp _ (Or.inl ⟨a, hap, hacc, rfl⟩))
        · exact foldr_min_le_init _ _

/-- `gather_ancestors` ends. It collects the parents of the vertex and of its ancestors that
lie above the specified height. -/
theorem gatherAncestors_spec (hd : Sound hash genesis dag) (toHeight fuel : Nat) (h : H)
    (hh : h ∈ dag.graph) (hfuel : dag.graph.height h < fuel + genesis.height) :
    ∃ s, dag.gatherAncestors toHeight fuel h = .ok s ∧ ∀ a, a ∈ s ↔
      ∃ b, dag.graph.IsParent a b ∧ ReflTransGen dag.graph.IsParent b h ∧
        toHeight < dag.graph.height b := by
  induction fuel generalizing h with
  | zero =>
    have hb := hd.shaped.height_bounds hh
    omega
  | succ fuel ih =>
    obtain ⟨v, hgv, hvv, hheight⟩ := hd.vertex_lookup hh
    have hpm (p : H) : dag.graph.IsParent p h ↔ p ∈ v.parents := Graph.isParent_of_lookup hgv
    have hpar (p : H) (hp : p ∈ v.parents) : ∃ s, dag.gatherAncestors toHeight fuel p = .ok s ∧
        ∀ a, a ∈ s ↔ ∃ b, dag.graph.IsParent a b ∧ ReflTransGen dag.graph.IsParent b p ∧
          toHeight < dag.graph.height b := by
      have hlt := hd.shaped.height_lt ((hpm p).mpr hp)
      exact ih p (hd.shaped.parent_mem ((hpm p).mpr hp)) (by omega)
    choose! g hg hmem using hpar
    have hunfold : dag.gatherAncestors toHeight (fuel + 1) h =
        .ok (if v.height > toHeight then (v.parents.map g).foldr (· ∪ ·) v.parents.toFinset
          else ∅) := by
      rw [DAG.gatherAncestors, hvv, Outcome.lift_some, Outcome.ok_bind,
        Outcome.mapM_of_ok _ g v.parents hg]
      split <;> rfl
    refine ⟨_, hunfold, fun a => ?_⟩
    constructor
    · intro ha
      split at ha
      · next hgt =>
        rw [mem_foldr_union, List.mem_toFinset] at ha
        rcases ha with ha | ⟨s, hs, ha⟩
        · exact ⟨h, (hpm a).mpr ha, .refl, by omega⟩
        · obtain ⟨p, hp, rfl⟩ := List.mem_map.mp hs
          obtain ⟨b, hab, hbp, hb⟩ := (hmem p hp a).mp ha
          exact ⟨b, hab, hbp.tail ((hpm p).mpr hp), hb⟩
      · exact absurd ha (Finset.notMem_empty a)
    · rintro ⟨b, hab, hbh, hb⟩
      -- the ancestors get lower, so `h` lies above the cut-off as well
      have hle : dag.graph.height b ≤ dag.graph.height h := by
        rcases reflTransGen_iff_eq_or_transGen.mp hbh with rfl | hbh
        · exact le_rfl
        · exact (hd.shaped.ancestor_height_lt hbh).le
      rw [if_pos (by omega), mem_foldr_union, List.mem_toFinset]
      rcases ReflTransGen.cases_tail hbh with rfl | ⟨p, hbp, hp⟩
      · exact Or.inl ((hpm a).mp hab)
      · have hpv := (hpm p).mp hp
        exact Or.inr ⟨g p, List.mem_map_of_mem hpv, (hmem p hpv a).mpr ⟨b, hab, hbp, hb⟩⟩

/-- What `get_active_ancestors` returns: undecided ancestors, and all of those that an
undecided line leads to. -/
structure ActiveAncestors (dag : DAG H) (vx : Vertex H) (l : List H) : Prop where
  sound : ∀ a ∈ l, dag.decisionOn a = none ∧ dag.graph.Precedes a vx
  complete : ∀ a, dag.OpenLine a vx → dag.decisionOn a = none → a ∈ l

theorem sortedByHeight_spec (hd : Sound hash genesis dag) (l : List H)
    (hl : ∀ a ∈ l, a ∈ dag.graph) :
    ∃ l', dag.sortedByHeight l = .ok l' ∧ l'.Perm l ∧
      l'.Pairwise fun a b => dag.graph.height a ≤ dag.graph.height b := by
  have hkey : l.mapM (fun vhash => do
      let vx ← (dag.vertex.lookup vhash : Outcome (Error H) (Vertex H))
      return (vx.height, vhash)) = .ok (l.map fun a => (dag.graph.height a, a)) := by
    refine Outcome.mapM_of_ok _ _ l fun a ha => ?_
    obtain ⟨v, _, hv, hh⟩ := hd.vertex_lookup (hl a ha)
    rw [hv, Outcome.lift_some, Outcome.ok_bind, hh]
    rfl
  generalize hkeyed : l.map (fun a => (dag.graph.height a, a)) = keyed at hkey
  have hperm := keyed.perm_insertionSort fun a b => a.1 ≤ b.1
  refine ⟨_, by rw [DAG.sortedByHeight, hkey, Outcome.ok_bind]; rfl, ?_, ?_⟩
  · have hsnd : keyed.map Prod.snd = l := by
      rw [← hkeyed, List.map_map]
      exact List.map_id l
    exact hsnd ▸ hperm.map Prod.snd
  · rw [List.pairwise_map]
    refine (keyed.pairwise_insertionSort fun a b => a.1 ≤ b.1).imp_of_mem ?_
    intro a b ha hb hab
    -- every key is the height of the vertex it stands with
    have hheight (c : Nat × H) (hc : c ∈ keyed.insertionSort fun a b => a.1 ≤ b.1) :
        c.1 = dag.graph.height c.2 := by
      rw [hperm.mem_iff, ← hkeyed] at hc
      obtain ⟨_, _, rfl⟩ := List.mem_map.mp hc
      rfl
    rwa [← hheight a ha, ← hheight b hb]

theorem isUndecided_spec (hd : Sound hash genesis dag) (a : H) (ha : a ∈ dag.graph) :
    dag.isUndecided a = .ok (dag.decisionOn a == none) := by
  obtain ⟨cs, hcs, hdec⟩ := hd.unity_lookup ha
  rw [DAG.isUndecided, hcs, Outcome.lift_some, Outcome.ok_bind, ← hdec]
  have hiff : (Constraint.unity a ∉ cs.decision) ↔ cs.decision.lookup (.unity a) = none :=
    Finmap.lookup_eq_none.symm
  simp only [hiff, Outcome.pure_def, beq_eq_decide]

/-- The last part of `get_active_ancestors`: of some inserted vertices it keeps those without
a decision, in order of their heights. -/
theorem filterUndecided_spec (hd : Sound hash genesis dag) (candidates : List H)
    (hin : ∀ a ∈ candidates, a ∈ dag.graph) :
    ∃ l, (candidates.filterM dag.isUndecided >>= fun active => dag.sortedByHeight active) = .ok l ∧
      (∀ a, a ∈ l ↔ a ∈ candidates ∧ dag.decisionOn a = none) ∧ (candidates.Nodup → l.Nodup) ∧
      l.Pairwise fun a b => dag.graph.height a ≤ dag.graph.height b := by
  obtain ⟨l, hl, hperm, hsorted⟩ := sortedByHeight_spec hd
    (candidates.filter fun a => dag.decisionOn a == none)
    fun a ha => hin a (List.mem_of_mem_filter ha)
  refine ⟨l, ?_, fun a => ?_, fun hn => hperm.nodup_iff.mpr (hn.filter _), hsorted⟩
  · rw [Outcome.filterM_total _ (fun a => dag.decisionOn a == none) candidates
      fun a ha => isUndecided_spec hd a (hin a ha), Outcome.ok_bind, hl]
  · rw [hperm.mem_iff, List.mem_filter, beq_iff_eq]

/-- An undecided ancestor to which an undecided line leads is active. -/
theorem DAG.Active.of_openLine (hd : Sound hash genesis dag) {a : H} (hline : dag.OpenLine a vx)
    (hu : dag.decisionOn a = none) : dag.Active a vx := by
  obtain ⟨p, hpv, hap⟩ := hline
  refine ⟨hu, ?_⟩
  rcases ReflTransGen.cases_head hap with rfl | ⟨b, hab, hbp⟩
  · exact Or.inl hpv
  -- the line goes on to an accepted vertex, which lies below `b`
  · have hain : a ∈ dag.graph := hd.shaped.parent_mem hab.1
    obtain ⟨e, hea, hacc, hle⟩ := exists_end hd hain (by simp [hu])
    have hlt := hd.shaped.height_lt hab.1
    refine Or.inr ⟨b, hab.1, ⟨p, hpv, hbp.lift id fun _ _ h => h.1⟩, p, hpv, _, ?_, hle.trans_lt hlt⟩
    exact Or.inl ⟨e, hea.trans hap, hacc, rfl⟩

/-- The active ancestors are all undecided ancestors to which an undecided line leads, and
possibly more. -/
theorem ActiveAncestors.of_iff (hd : Sound hash genesis dag) {l : List H}
    (hl : ∀ a, a ∈ l ↔ dag.Active a vx) : ActiveAncestors dag vx l where
  sound a ha := by
    obtain ⟨hu, hap | ⟨b, hab, ⟨p, hpv, hbp⟩, _⟩⟩ := (hl a).mp ha
    · exact ⟨hu, a, hap, .refl⟩
    · exact ⟨hu, p, hpv, .head hab hbp⟩
  complete a hline hu := (hl a).mpr (.of_openLine hd hline hu)

section ActiveAncestors

variable {g : H → Nat} {toHeight : Nat} {gathered : H → HashSet H}

theorem height_lt_depth (hd : Sound hash genesis dag) {p : H} (hp : p ∈ dag.graph) :
    dag.graph.height p < dag.depth + genesis.height := by
  have hb := hd.shaped.height_bounds hp
  have hc := hd.card_le
  omega

/-- The cut-off is the lowest end of an undecided line from a parent. -/
theorem cutoff_iff (hmin : (vx.parents.map g).min? = some toHeight)
    (hends : ∀ p ∈ vx.parents, dag.EndsAt p (g p))
    (hle : ∀ p ∈ vx.parents, ∀ n, dag.EndsAt p n → g p ≤ n) (n : Nat) :
    toHeight < n ↔ ∃ p ∈ vx.parents, ∃ k, dag.EndsAt p k ∧ k < n := by
  obtain ⟨hmem, hto⟩ := List.min?_eq_some_iff.mp hmin
  constructor
  · intro hlt
    obtain ⟨p, hpp, rfl⟩ := List.mem_map.mp hmem
    exact ⟨p, hpp, g p, hends p hpp, hlt⟩
  · rintro ⟨p, hpp, k, hk, hlt⟩
    calc toHeight ≤ g p := hto _ (List.mem_map_of_mem hpp)
      _ ≤ k := hle p hpp k hk
      _ < n := hlt

/-- From all parents together, the parents of the vertices above the cut-off are gathered. -/
theorem mem_gathered_iff
    (hcut : ∀ n, toHeight < n ↔ ∃ p ∈ vx.parents, ∃ k, dag.EndsAt p k ∧ k < n)
    (hmem : ∀ p ∈ vx.parents, ∀ a, a ∈ gathered p ↔ ∃ b, dag.graph.IsParent a b ∧
      ReflTransGen dag.graph.IsParent b p ∧ toHeight < dag.graph.height b) (a : H) :
    a ∈ (vx.parents.map gathered).foldr (· ∪ ·) ∅ ↔ ∃ b, dag.graph.IsParent a b ∧
      dag.graph.Precedes b vx ∧ ∃ p ∈ vx.parents, ∃ n, dag.EndsAt p n ∧ n < dag.graph.height b := by
  simp only [mem_foldr_union, Finset.notMem_empty, false_or, List.mem_map,
    exists_exists_and_eq_and, ← hcut]
  constructor
  · rintro ⟨p, hpp, ha⟩
    obtain ⟨b, hab, hbp, hb⟩ := (hmem p hpp a).mp ha
    exact ⟨b, hab, ⟨p, hpp, hbp⟩, hb⟩
  · rintro ⟨b, hab, ⟨p, hpp, hbp⟩, hb⟩
    exact ⟨p, hpp, (hmem p hpp a).mpr ⟨b, hab, hbp, hb⟩⟩

/-- The cut-off lies at or below every parent, so no parent is missed among the ancestors. -/
theorem gathered_parent_iff (hd : Sound hash genesis dag) (hp : ∀ p ∈ vx.parents, p ∈ dag.graph)
    (hnr : ∀ p ∈ vx.parents, dag.decisionOn p ≠ some false) :
    (∃ a ∈ vx.parents, ∃ b, dag.graph.IsParent a b ∧ dag.graph.Precedes b vx ∧
      ∃ p ∈ vx.parents, ∃ n, dag.EndsAt p n ∧ n < dag.graph.height b) ↔
    ∃ p ∈ vx.parents, ∃ q ∈ vx.parents, dag.graph.Ancestor p q := by
  refine exists_congr fun p => and_congr_right fun hpp => ?_
  constructor
  · rintro ⟨b, hpb, ⟨q, hq, hbq⟩, _⟩
    exact ⟨q, hq, TransGen.head' hpb hbq⟩
  · rintro ⟨q, hq, ha⟩
    obtain ⟨b, hpb, hbq⟩ := TransGen.head'_iff.mp ha
    obtain ⟨e, he, hacc, hhe⟩ := exists_end hd (hp p hpp) (hnr p hpp)
    exact ⟨b, hpb, ⟨q, hq, hbq⟩, p, hpp, _, Or.inl ⟨e, he, hacc, rfl⟩,
      hhe.trans_lt (hd.shaped.height_lt hpb)⟩

/-- `get_active_ancestors` fails on a rejected parent, then on a parent that is an ancestor
of another however far below the decided height, and else returns the active ancestors. -/
theorem getActiveAncestors_spec (it : HashOrders H) (hd : Sound hash genesis dag)
    (hne : vx.parents ≠ []) (hp : ∀ p ∈ vx.parents, p ∈ dag.graph) :
    ((∃ p ∈ vx.parents, dag.decisionOn p = some false) →
      dag.getActiveAncestors hash it vx = .err .rejectedAncestor) ∧
    ((∀ p ∈ vx.parents, dag.decisionOn p ≠ some false) →
      (∃ p ∈ vx.parents, ∃ q ∈ vx.parents, dag.graph.Ancestor p q) →
      dag.getActiveAncestors hash it vx = .err .selfReferentialParent) ∧
    ((∀ p ∈ vx.parents, dag.decisionOn p ≠ some false) →
      (∀ p ∈ vx.parents, ∀ q ∈ vx.parents, ¬ dag.graph.Ancestor p q) →
      ∃ l, dag.getActiveAncestors hash it vx = .ok l ∧ (∀ a, a ∈ l ↔ dag.Active a vx) ∧
        (vx.parents.Nodup → l.Nodup) ∧
        l.Pairwise fun a b => dag.graph.height a ≤ dag.graph.height b) := by
  have hknown : ¬ (vx.parents.any fun p => p ∉ dag.vertex) = true := by
    simp only [List.any_eq_true, decide_eq_true_eq, not_exists, not_and, not_not]
    exact fun p hpp => hd.known (hp p hpp)
  have hdh (p : H) (hpp : p ∈ vx.parents) :=
    decidedHeight_spec hd dag.depth p (hp p hpp) (height_lt_depth hd (hp p hpp))
  rw [DAG.getActiveAncestors, if_neg hknown]
  refine ⟨?_, ?_⟩
  · rintro ⟨p, hpp, hf⟩
    rw [Outcome.mapM_eq_err _ _ .rejectedAncestor ?_ ⟨p, hpp, (hdh p hpp).1 hf⟩, Outcome.err_bind]
    intro q hq
    by_cases hr : dag.decisionOn q = some false
    · exact Or.inl ((hdh q hq).1 hr)
    · obtain ⟨k, hk, _⟩ := (hdh q hq).2 hr
      exact Or.inr ⟨k, hk⟩
  rw [← forall_and]
  intro hnr
  have hk (p : H) (hpp : p ∈ vx.parents) := (hdh p hpp).2 (hnr p hpp)
  choose! g hg hends hle using hk
  obtain ⟨toHeight, hmin⟩ : ∃ m, (vx.parents.map g).min? = some m := by
    rw [← Option.isSome_iff_exists, List.isSome_min?_iff]
    simpa using hne
  have hga (p : H) (hpp : p ∈ vx.parents) := gatherAncestors_spec hd toHeight dag.depth p
    (hp p hpp) (height_lt_depth hd (hp p hpp))
  choose! s hs hsmem using hga
  have hmem := mem_gathered_iff (cutoff_iff hmin hends hle) hsmem
  have hself : (vx.parents.any fun p => p ∈ (vx.parents.map s).foldr (· ∪ ·) ∅) = true ↔
      ∃ p ∈ vx.parents, ∃ q ∈ vx.parents, dag.graph.Ancestor p q := by
    simp only [List.any_eq_true, decide_eq_true_eq, hmem]
    exact gathered_parent_iff hd hp hnr
  rw [Outcome.mapM_of_ok _ g _ hg, Outcome.ok_bind, hmin, Outcome.lift_some, Outcome.ok_bind,
    Outcome.mapM_of_ok _ s _ hs, Outcome.ok_bind]
  refine ⟨fun h => ?_, fun h => ?_⟩
  · rw [if_pos (hself.mpr h)]
  · have hn : ¬ ∃ p ∈ vx.parents, ∃ q ∈ vx.parents, dag.graph.Ancestor p q := by
      rintro ⟨p, hpp, q, hq, ha⟩
      exact h p hpp q hq ha
    rw [if_neg (hself.not.mpr hn)]
    generalize hcd : it.vertices.order (some (hash vx)) ((vx.parents.map s).foldr (· ∪ ·) ∅) ++
      vx.parents = candidates
    have hcand (a : H) : a ∈ candidates ↔ a ∈ vx.parents ∨ ∃ b, dag.graph.IsParent a b ∧
        dag.graph.Precedes b vx ∧
        ∃ p ∈ vx.parents, ∃ n, dag.EndsAt p n ∧ n < dag.graph.height b := by
      rw [← hcd, List.mem_append, HashOrder.mem_order, hmem, or_comm]
    have hin (a : H) (ha : a ∈ candidates) : a ∈ dag.graph := by
      rcases (hcand a).mp ha with hap | ⟨b, hab, _⟩
      · exact hp a hap
      · exact hd.shaped.parent_mem hab
    obtain ⟨l, hl, hlm, hnodup, hsorted⟩ := filterUndecided_spec hd candidates hin
    refine ⟨l, hl, fun a => ?_, fun hvn => hnodup ?_, hsorted⟩
    · rw [hlm, hcand, and_comm]
      rfl
    -- no parent is among the gathered ancestors here, so the two parts have nothing in common
    · rw [← hcd]
      refine (it.vertices.nodup_order _ _).append hvn fun a ha hap => hself.not.mpr hn ?_
      rw [HashOrder.mem_order] at ha
      simpa only [List.any_eq_true, decide_eq_true_eq] using ⟨a, hap, ha⟩

end ActiveAncestors

/-- What `get_active_ancestor_constraints` returns: undecided commitments of the vertex
and of its active ancestors. -/
structure ActiveConstraints (dag : DAG H) (vx : Vertex H) (cs : List (Constraint H)) : Prop where
  nodup : cs.Nodup
  undecided : ∀ c ∈ cs, decisionOf dag.state c = none
  sound : ∀ c ∈ cs, c ∈ vx.parentConstraints ∨
    ∃ a, dag.graph.Precedes a vx ∧ c ∈ dag.graph.commitments a
  own : ∀ c ∈ vx.parentConstraints, decisionOf dag.state c = none → c ∈ cs
  inherited : ∀ a, dag.OpenLine a vx → dag.decisionOn a = none →
    ∀ c ∈ dag.graph.commitments a, decisionOf dag.state c = none → c ∈ cs

theorem getActiveAncestorConstraints_of_ok (hd : Sound hash genesis dag) {l : List H}
    (hp : ∀ p ∈ vx.parents, p ∈ dag.graph)
    (hl : dag.getActiveAncestors hash it vx = .ok l) (hlm : ∀ a, a ∈ l ↔ dag.Active a vx) :
    ∃ cs, dag.getActiveAncestorConstraints hash it vx = .ok cs ∧ ActiveConstraints dag vx cs ∧
      ∀ c, c ∈ cs ↔ dag.ActiveConstraint c vx := by
  have ha := ActiveAncestors.of_iff hd hlm
  have hin (a : H) (hal : a ∈ l) : a ∈ dag.graph := by
    obtain ⟨p, hpp, hap⟩ := (ha.sound a hal).2
    rcases reflTransGen_iff_eq_or_transGen.mp hap with rfl | hap
    · exact hp _ hpp
    · exact hd.shaped.ancestor_mem hap
  have hmap : l.mapM (fun vhash => do
      let avx ← (dag.vertex.lookup vhash : Outcome (Error H) (Vertex H))
      return avx.parentConstraints) = .ok (l.map dag.graph.commitments) := by
    refine Outcome.mapM_of_ok _ _ l fun a hal => ?_
    obtain ⟨v, hg, hv, _⟩ := hd.vertex_lookup (hin a hal)
    rw [hv, Outcome.lift_some, Outcome.ok_bind, Graph.commitments_of_lookup hg]
    rfl
  obtain ⟨cs, hcs, hnodup, hmem⟩ : ∃ cs, dag.getActiveAncestorConstraints hash it vx = .ok cs ∧
      cs.Nodup ∧ ∀ c, c ∈ cs ↔ dag.ActiveConstraint c vx := by
    refine ⟨_, by rw [DAG.getActiveAncestorConstraints, hl, Outcome.ok_bind, hmap,
      Outcome.ok_bind]; rfl, (Vertex.nodup_eraseDups _).filter _, fun c => ?_⟩
    rw [List.mem_filter, List.mem_eraseDups, List.mem_append, DAG.ActiveConstraint, and_comm,
      or_comm]
    refine and_congr ?_ (or_congr_right ?_)
    · rw [decisionOf, entry]
      cases dag.state.lookup c.conflictSetKey with
      | none => simp
      | some cs => simp [Finmap.lookup_eq_none]
    · simp only [List.mem_flatten, List.mem_map, exists_exists_and_eq_and, hlm]
  refine ⟨cs, hcs, ?_, hmem⟩
  constructor
  case nodup =>
    exact hnodup
  case undecided =>
    exact fun c hc => ((hmem c).mp hc).1
  case sound =>
    intro c hc
    rcases ((hmem c).mp hc).2 with hcv | ⟨a, hal, hca⟩
    · exact Or.inl hcv
    · exact Or.inr ⟨a, (ha.sound a ((hlm a).mpr hal)).2, hca⟩
  case own =>
    exact fun c hc hu => (hmem c).mpr ⟨hu, Or.inl hc⟩
  case inherited =>
    intro a hline hua c hc hu
    exact (hmem c).mpr ⟨hu, Or.inr ⟨a, (hlm a).mp (ha.complete a hline hua), hc⟩⟩

/-- The active constraints of a vertex whose parents are inserted, none of them rejected or an
ancestor of another. -/
theorem getActiveAncestorConstraints_spec (it : HashOrders H) (hd : Sound hash genesis dag)
    (hne : vx.parents ≠ []) (hp : ∀ p ∈ vx.parents, p ∈ dag.graph)
    (hnr : ∀ p ∈ vx.parents, dag.decisionOn p ≠ some false)
    (ha : ∀ p ∈ vx.parents, ∀ q ∈ vx.parents, ¬ dag.graph.Ancestor p q) :
    ∃ cs, dag.getActiveAncestorConstraints hash it vx = .ok cs ∧ ActiveConstraints dag vx cs ∧
      ∀ c, c ∈ cs ↔ dag.ActiveConstraint c vx := by
  obtain ⟨l, hl, hmem, _⟩ := (getActiveAncestors_spec it hd hne hp).2.2 hnr ha
  exact getActiveAncestorConstraints_of_ok hd hp hl hmem

end Taurus
