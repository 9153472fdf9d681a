import Taurus.DAG
import Taurus.Verdict

namespace Taurus

open Relation

variable {H : Type} [LinearOrder H]

namespace Graph

variable (graph : Graph H)

/-- Is `p` a parent of the inserted vertex `h`? -/
def IsParent (p h : H) : Prop := ∃ vx, graph.lookup h = some vx ∧ p ∈ vx.parents

/-- Proper ancestors. -/
def Ancestor (a h : H) : Prop := TransGen graph.IsParent a h

/-- Height of an inserted vertex. -/
def height (h : H) : Nat := ((graph.lookup h).map Vertex.height).getD 0

/-- The constraints an inserted vertex commits to. -/
def commitments (h : H) : List (Constraint H) :=
  ((graph.lookup h).map Vertex.parentConstraints).getD []

/-- Does `h` or one of its ancestors commit to `c`? -/
def Commits (h : H) (c : Constraint H) : Prop :=
  ∃ a, ReflTransGen graph.IsParent a h ∧ c ∈ graph.commitments a

/-- Do `u` and `v`, or ancestors of them, commit to a constraint and its opposite? -/
def Contradict (u v : H) : Prop :=
  ∃ c o, c.conflict = some o ∧ graph.Commits u c ∧ graph.Commits v o

/-- Constraints committed to by an inserted vertex, and the unity constraints. -/
def Registered (c : Constraint H) : Prop :=
  ∃ h ∈ graph, c = .unity h ∨ c ∈ graph.commitments h

/-- Is `p` among the parent constraints of the two vertices that `c` names? -/
def ParentConstraint (p c : Constraint H) : Prop :=
  p ∈ graph.commitments c.left ∨ p ∈ graph.commitments c.right

/-- The constraint graph: the registered constraints below their parent constraints. -/
def constraintGraph : ConflictGraph (Constraint H) where
  child p c := graph.Registered c ∧ graph.ParentConstraint p c
  opposite := Constraint.conflict
  opposite_symm := Constraint.conflict_symm

/-- A constraint lies above another by the greater height of its vertices. -/
def rank (c : Constraint H) : Nat := max (graph.height c.left) (graph.height c.right)

/-- What an inserted vertex must satisfy: distinct parents in the graph, the height that
follows from theirs, and no parent an ancestor of another. -/
structure Legal (vx : Vertex H) : Prop where
  nonempty : vx.parents ≠ []
  nodup : vx.parents.Nodup
  inserted : ∀ p ∈ vx.parents, p ∈ graph
  height_eq : ∃ m, (vx.parents.map graph.height).max? = some m ∧ vx.height = 1 + m
  antichain : ∀ p ∈ vx.parents, ∀ q ∈ vx.parents, ¬ graph.Ancestor p q

/-- A graph grown from a genesis vertex by legal vertices. -/
structure Shaped (root : H) (genesis : Vertex H) : Prop where
  root_lookup : graph.lookup root = some genesis
  root_parents : genesis.parents = []
  legal : ∀ h vx, graph.lookup h = some vx → h ≠ root → graph.Legal vx
  bounded : ∀ h vx, graph.lookup h = some vx →
    genesis.height ≤ vx.height ∧ vx.height + 1 ≤ genesis.height + graph.keys.card

variable {graph} {root : H} {genesis : Vertex H} {h p a : H} {vx : Vertex H} {c d : Constraint H}

theorem height_of_lookup (hv : graph.lookup h = some vx) : graph.height h = vx.height := by
  rw [height, hv]
  rfl

theorem commitments_of_lookup (hv : graph.lookup h = some vx) :
    graph.commitments h = vx.parentConstraints := by
  rw [commitments, hv]
  rfl

theorem isParent_of_lookup (hv : graph.lookup h = some vx) : graph.IsParent p h ↔ p ∈ vx.parents := by
  constructor
  · rintro ⟨w, hw, hp⟩
    cases hv.symm.trans hw
    exact hp
  · exact fun hp => ⟨vx, hv, hp⟩

instance : Decidable (graph.IsParent p h) :=
  inferInstanceAs (Decidable (∃ vx ∈ graph.lookup h, p ∈ vx.parents))

theorem IsParent.mem (hp : graph.IsParent p h) : h ∈ graph := by
  obtain ⟨vx, hv, _⟩ := hp
  exact Finmap.mem_of_lookup_eq_some hv

theorem Ancestor.mem (ha : graph.Ancestor a h) : h ∈ graph := by
  cases ha with
  | single hp => exact hp.mem
  | tail _ hp => exact hp.mem

theorem exists_of_mem_commitments (hc : c ∈ graph.commitments h) :
    ∃ vx, graph.lookup h = some vx ∧ c ∈ vx.parentConstraints := by
  unfold commitments at hc
  cases hv : graph.lookup h with
  | none =>
    rw [hv] at hc
    simp at hc
  | some vx =>
    rw [hv] at hc
    exact ⟨vx, rfl, hc⟩

theorem mem_of_mem_commitments (hc : c ∈ graph.commitments h) : h ∈ graph := by
  obtain ⟨vx, hv, _⟩ := exists_of_mem_commitments hc
  exact Finmap.mem_of_lookup_eq_some hv

/-- A commitment is between parents. -/
theorem isParent_of_mem_commitments (hc : c ∈ graph.commitments h) :
    graph.IsParent c.left h ∧ graph.IsParent c.right h := by
  obtain ⟨vx, hv, hc⟩ := exists_of_mem_commitments hc
  obtain ⟨hl, hr⟩ := vx.parents_of_mem_parentConstraints c hc
  exact ⟨⟨vx, hv, hl⟩, ⟨vx, hv, hr⟩⟩

theorem unity_mem_commitments (hp : graph.IsParent p h) : .unity p ∈ graph.commitments h := by
  obtain ⟨vx, hv, hp⟩ := hp
  rw [commitments_of_lookup hv]
  exact vx.unity_mem_parentConstraints p hp

theorem Legal.height_lt (hl : graph.Legal vx) (hp : p ∈ vx.parents) : graph.height p < vx.height := by
  obtain ⟨m, hm, he⟩ := hl.height_eq
  have hle := (List.max?_eq_some_iff.mp hm).2 (graph.height p) (List.mem_map_of_mem hp)
  omega

theorem registered_unity (hh : h ∈ graph) : graph.Registered (.unity h) := ⟨h, hh, Or.inl rfl⟩

theorem registered_of_mem_commitments (hc : c ∈ graph.commitments h) : graph.Registered c :=
  ⟨h, mem_of_mem_commitments hc, Or.inr hc⟩

theorem registered_of_commits (hc : graph.Commits h c) : graph.Registered c := by
  obtain ⟨a, _, hc⟩ := hc
  exact registered_of_mem_commitments hc

theorem registered_of_parentConstraint (hp : graph.ParentConstraint c d) : graph.Registered c :=
  hp.elim registered_of_mem_commitments registered_of_mem_commitments

theorem parentConstraint_unity (p : Constraint H) (h : H) :
    graph.ParentConstraint p (.unity h) ↔ p ∈ graph.commitments h :=
  or_self_iff

theorem child_unity (hp : c ∈ graph.commitments h) :
    graph.constraintGraph.child c (.unity h) :=
  ⟨registered_unity (mem_of_mem_commitments hp), (parentConstraint_unity c h).mpr hp⟩

@[simp] theorem constraintGraph_opposite (c : Constraint H) :
    graph.constraintGraph.opposite c = c.conflict := rfl

theorem contestable_iff : graph.constraintGraph.Contestable c ↔ c.left ≠ c.right := by
  rw [ConflictGraph.Contestable, constraintGraph, Option.isSome_iff_ne_none, ne_eq,
    Constraint.conflict_eq_none]

theorem commits_self (hc : c ∈ graph.commitments h) : graph.Commits h c := ⟨h, .refl, hc⟩

theorem Commits.of_parent (hc : graph.Commits p c) (hp : graph.IsParent p h) : graph.Commits h c := by
  obtain ⟨a, ha, hc⟩ := hc
  exact ⟨a, ha.tail hp, hc⟩

theorem Commits.of_ancestor (hc : graph.Commits a c) (ha : ReflTransGen graph.IsParent a h) :
    graph.Commits h c := by
  obtain ⟨b, hb, hc⟩ := hc
  exact ⟨b, hb.trans ha, hc⟩

/-- A vertex commits to `c` itself or through one of its parents. -/
theorem commits_iff : graph.Commits h c ↔
    c ∈ graph.commitments h ∨ ∃ p, graph.IsParent p h ∧ graph.Commits p c := by
  constructor
  · rintro ⟨a, ha, hc⟩
    rcases ReflTransGen.cases_tail ha with rfl | ⟨p, hap, hp⟩
    · exact Or.inl hc
    · exact Or.inr ⟨p, hp, a, hap, hc⟩
  · rintro (hc | ⟨p, hp, hc⟩)
    · exact commits_self hc
    · exact hc.of_parent hp

theorem contradict_iff {u v : H} : graph.Contradict u v ↔
    ∃ c, c.left ≠ c.right ∧ graph.Commits u c ∧ graph.Commits v c.swap := by
  simp only [Contradict, Constraint.conflict_eq_some]
  constructor
  · rintro ⟨c, _, ⟨hne, rfl⟩, hu, hv⟩
    exact ⟨c, hne, hu, hv⟩
  · rintro ⟨c, hne, hu, hv⟩
    exact ⟨c, c.swap, ⟨hne, rfl⟩, hu, hv⟩

/-- What an ancestor line commits to lies above the unity constraint of the vertex. -/
theorem below_of_commits (hc : graph.Commits h c) :
    TransGen graph.constraintGraph.child c (.unity h) := by
  obtain ⟨a, ha, hc⟩ := hc
  induction ha with
  | refl => exact .single (child_unity hc)
  | tail _ hp ih => exact ih.tail (child_unity (unity_mem_commitments hp))

/-- Above a constraint lies exactly what its two vertices and their ancestors commit to. -/
theorem above_iff_commits : TransGen graph.constraintGraph.child c d ↔
    graph.Registered d ∧ (graph.Commits d.left c ∨ graph.Commits d.right c) := by
  constructor
  · intro h
    induction h with
    | single h => exact ⟨h.1, h.2.imp commits_self commits_self⟩
    | @tail e d _ h ih =>
      refine ⟨h.1, ?_⟩
      have hup (x : H) (he : e ∈ graph.commitments x) : graph.Commits x c := by
        obtain ⟨hl, hr⟩ := isParent_of_mem_commitments he
        exact ih.2.elim (·.of_parent hl) (·.of_parent hr)
      exact h.2.imp (hup _) (hup _)
  · rintro ⟨hd, h⟩
    have hup (x : H) (hx : x = d.left ∨ x = d.right) (hc : graph.Commits x c) :
        TransGen graph.constraintGraph.child c d := by
      have hpar (e : Constraint H) (he : e ∈ graph.commitments x) :
          graph.constraintGraph.child e d := by
        rcases hx with rfl | rfl
        · exact ⟨hd, Or.inl he⟩
        · exact ⟨hd, Or.inr he⟩
      rcases commits_iff.mp hc with hc | ⟨p, hp, hc⟩
      · exact .single (hpar c hc)
      · exact (below_of_commits hc).tail (hpar _ (unity_mem_commitments hp))
    exact h.elim (hup _ (Or.inl rfl)) (hup _ (Or.inr rfl))

namespace Shaped

variable (hs : graph.Shaped root genesis)
include hs

theorem root_mem : root ∈ graph := Finmap.mem_of_lookup_eq_some hs.root_lookup

theorem commitments_root : graph.commitments root = [] := by
  rw [commitments_of_lookup hs.root_lookup, Vertex.parentConstraints, hs.root_parents]
  rfl

theorem isParent_legal (hp : graph.IsParent p h) : ∃ vx, graph.lookup h = some vx ∧
    p ∈ vx.parents ∧ graph.Legal vx := by
  obtain ⟨vx, hv, hp⟩ := hp
  refine ⟨vx, hv, hp, hs.legal h vx hv ?_⟩
  rintro rfl
  rw [hs.root_lookup] at hv
  cases hv
  rw [hs.root_parents] at hp
  cases hp

theorem parent_mem (hp : graph.IsParent p h) : p ∈ graph := by
  obtain ⟨vx, _, hp, hl⟩ := hs.isParent_legal hp
  exact hl.inserted p hp

theorem height_lt (hp : graph.IsParent p h) : graph.height p < graph.height h := by
  obtain ⟨vx, hv, hp, hl⟩ := hs.isParent_legal hp
  rw [height_of_lookup hv]
  exact hl.height_lt hp

theorem ancestor_mem (ha : graph.Ancestor a h) : a ∈ graph := by
  induction ha using TransGen.head_induction_on with
  | single hp => exact hs.parent_mem hp
  | head hp _ _ => exact hs.parent_mem hp

theorem ancestor_height_lt (ha : graph.Ancestor a h) : graph.height a < graph.height h := by
  induction ha with
  | single hp => exact hs.height_lt hp
  | tail _ hp ih => exact ih.trans (hs.height_lt hp)

theorem height_bounds (hh : h ∈ graph) :
    genesis.height ≤ graph.height h ∧ graph.height h + 1 ≤ genesis.height + graph.keys.card := by
  obtain ⟨vx, hv⟩ := Finmap.mem_iff.mp hh
  rw [height_of_lookup hv]
  exact hs.bounded h vx hv

theorem registered_mem (hc : graph.Registered c) : c.left ∈ graph ∧ c.right ∈ graph := by
  obtain ⟨h, hh, rfl | hc⟩ := hc
  · exact ⟨hh, hh⟩
  · obtain ⟨hl, hr⟩ := isParent_of_mem_commitments hc
    exact ⟨hs.parent_mem hl, hs.parent_mem hr⟩

theorem rank_lt (hp : graph.ParentConstraint d c) : graph.rank d < graph.rank c := by
  have hup (x : H) (hx : graph.height x ≤ graph.rank c) (hm : d ∈ graph.commitments x) :
      graph.rank d < graph.rank c := by
    obtain ⟨hl, hr⟩ := isParent_of_mem_commitments hm
    have h1 := hs.height_lt hl
    have h2 := hs.height_lt hr
    exact lt_of_lt_of_le (max_lt h1 h2) hx
  exact hp.elim (hup _ (le_max_left _ _)) (hup _ (le_max_right _ _))

theorem child_irrefl (c : Constraint H) :
    ¬ graph.constraintGraph.child c c ∧ ¬ graph.constraintGraph.child c.swap c := by
  constructor
  · intro hp
    exact lt_irrefl _ (hs.rank_lt hp.2)
  · intro hp
    have hlt := hs.rank_lt hp.2
    rw [rank, rank, Constraint.swap_left, Constraint.swap_right, max_comm] at hlt
    exact lt_irrefl _ hlt

theorem above_rank_lt (h : TransGen graph.constraintGraph.child c d) :
    graph.rank c < graph.rank d := by
  induction h with
  | single hp => exact hs.rank_lt hp.2
  | tail _ hp ih => exact ih.trans (hs.rank_lt hp.2)

end Shaped

section Growth

variable {x : Vertex H} {k : H}

theorem isParent_insert_of_ne (hk : k ≠ h) :
    IsParent (graph.insert h x) p k ↔ graph.IsParent p k := by
  simp only [IsParent, HashMap.lookup_insert, if_neg hk]

theorem isParent_insert_self : IsParent (graph.insert h x) p h ↔ p ∈ x.parents := by
  simp [IsParent]

theorem commitments_insert_of_ne (hk : k ≠ h) :
    commitments (graph.insert h x) k = graph.commitments k := by
  simp only [commitments, HashMap.lookup_insert, if_neg hk]

theorem commitments_insert_self : commitments (graph.insert h x) h = x.parentConstraints := by
  simp [commitments]

theorem height_insert_of_ne (hk : k ≠ h) :
    height (graph.insert h x) k = graph.height k := by
  simp only [height, HashMap.lookup_insert, if_neg hk]

theorem keys_insert : (graph.insert h x).keys = insert h graph.keys := by
  ext k
  simp [Finmap.mem_keys, Finmap.mem_insert]

theorem registered_insert (hh : h ∉ graph) : Registered (graph.insert h x) c ↔
    graph.Registered c ∨ c ∈ x.parentConstraints ∨ c = .unity h := by
  have hne {k : H} (hk : k ∈ graph) : k ≠ h := fun he => hh (he ▸ hk)
  constructor
  · rintro ⟨k, hk, hc⟩
    rcases Finmap.mem_insert.mp hk with rfl | hk
    · rw [commitments_insert_self] at hc
      exact Or.inr hc.symm
    · rw [commitments_insert_of_ne (hne hk)] at hc
      exact Or.inl ⟨k, hk, hc⟩
  · rintro (⟨k, hk, hc⟩ | hc)
    · refine ⟨k, Finmap.mem_insert.mpr (Or.inr hk), ?_⟩
      rwa [commitments_insert_of_ne (hne hk)]
    · refine ⟨h, Finmap.mem_insert.mpr (Or.inl rfl), ?_⟩
      rw [commitments_insert_self]
      exact hc.symm

/-- A new vertex changes the parent constraints of nothing between old vertices. -/
theorem parentConstraint_insert (hh : h ∉ graph) (hl : c.left ∈ graph) (hr : c.right ∈ graph) :
    ParentConstraint (graph.insert h x) d c ↔ graph.ParentConstraint d c := by
  have hne {k : H} (hk : k ∈ graph) : k ≠ h := fun he => hh (he ▸ hk)
  rw [ParentConstraint, ParentConstraint, commitments_insert_of_ne (hne hl),
    commitments_insert_of_ne (hne hr)]

/-- What lies right above an own constraint of the new vertex is committed to by one of the
two parents that the constraint names. -/
theorem child_parentConstraint_insert (hh : h ∉ graph) (hl : graph.Legal x) (hd : d ∈ x.parentConstraints) :
    (constraintGraph (graph.insert h x)).child c d ↔ graph.ParentConstraint c d := by
  obtain ⟨hleft, hright⟩ := x.parents_of_mem_parentConstraints d hd
  have hreg := (registered_insert (x := x) hh).mpr (Or.inr (Or.inl hd))
  exact (and_iff_right hreg).trans
    (parentConstraint_insert hh (hl.inserted _ hleft) (hl.inserted _ hright))

variable (hs : graph.Shaped root genesis) (hh : h ∉ graph)
include hs hh

/-- Ancestor lines that end in an old vertex stay within the old graph. -/
theorem line_insert (hk : k ∈ graph) :
    ReflTransGen (IsParent (graph.insert h x)) a k ↔ ReflTransGen graph.IsParent a k := by
  have hne {k : H} (hk : k ∈ graph) : k ≠ h := fun he => hh (he ▸ hk)
  constructor
  · intro ha
    -- lines are glued at vertices of the old graph, which is closed under parents
    induction ha using ReflTransGen.trans_induction_on with
    | refl => exact .refl
    | single hp => exact .single ((isParent_insert_of_ne (hne hk)).mp hp)
    | trans _ _ ih1 ih2 =>
      have h2 := ih2 hk
      refine (ih1 ?_).trans h2
      rcases reflTransGen_iff_eq_or_transGen.mp h2 with rfl | h2
      · exact hk
      · exact hs.ancestor_mem h2
  · intro ha
    induction ha with
    | refl => exact .refl
    | tail _ hp ih => exact (ih (hs.parent_mem hp)).tail ((isParent_insert_of_ne (hne hk)).mpr hp)

theorem ancestor_insert (hk : k ∈ graph) :
    Ancestor (graph.insert h x) a k ↔ graph.Ancestor a k := by
  have hne : k ≠ h := fun he => hh (he ▸ hk)
  simp only [Ancestor, TransGen.tail'_iff, isParent_insert_of_ne hne]
  constructor
  · rintro ⟨b, hab, hb⟩
    exact ⟨b, (line_insert hs hh (hs.parent_mem hb)).mp hab, hb⟩
  · rintro ⟨b, hab, hb⟩
    exact ⟨b, (line_insert hs hh (hs.parent_mem hb)).mpr hab, hb⟩

theorem commits_insert (hk : k ∈ graph) :
    Commits (graph.insert h x) k c ↔ graph.Commits k c := by
  have hne {a : H} (ha : ReflTransGen graph.IsParent a k) : a ≠ h := by
    rintro rfl
    rcases reflTransGen_iff_eq_or_transGen.mp ha with rfl | ha
    · exact hh hk
    · exact hh (hs.ancestor_mem ha)
  simp only [Commits, line_insert hs hh hk]
  exact exists_congr fun a => and_congr_right fun ha => by rw [commitments_insert_of_ne (hne ha)]

theorem child_insert (hc : graph.Registered c) :
    (constraintGraph (graph.insert h x)).child d c ↔ graph.constraintGraph.child d c := by
  obtain ⟨hl, hr⟩ := hs.registered_mem hc
  simp only [constraintGraph, parentConstraint_insert hh hl hr, hc, true_and,
    (registered_insert hh).mpr (Or.inl hc)]

/-- What lies above a constraint stays there. -/
theorem above_insert_of_above (hc : ReflTransGen graph.constraintGraph.child d c) :
    ReflTransGen (constraintGraph (graph.insert h x)).child d c :=
  hc.lift id fun _ _ hab => (child_insert hs hh hab.1).mpr hab

/-- What lies right above a unity constraint was there before, or is what the new vertex
commits to. -/
theorem child_unity_insert (hc : (constraintGraph (graph.insert h x)).child c (.unity k)) :
    (k ∈ graph ∧ graph.constraintGraph.child c (.unity k)) ∨ k = h ∧ c ∈ x.parentConstraints := by
  have hck := (parentConstraint_unity c k).mp hc.2
  rcases Finmap.mem_insert.mp (mem_of_mem_commitments hck) with rfl | hk
  · rw [commitments_insert_self] at hck
    exact Or.inr ⟨rfl, hck⟩
  · exact Or.inl ⟨hk, (child_insert hs hh (registered_unity hk)).mp hc⟩

/-- The new vertex has no children, and takes the place of its parents. -/
theorem childless_insert (hl : graph.Legal x) :
    (k ∈ graph.insert h x ∧ ∀ j, ¬ IsParent (graph.insert h x) k j) ↔
      k = h ∨ (k ∈ graph ∧ ∀ j, ¬ graph.IsParent k j) ∧ k ∉ x.parents := by
  have hstep (j : H) : IsParent (graph.insert h x) k j ↔
      j = h ∧ k ∈ x.parents ∨ j ≠ h ∧ graph.IsParent k j := by
    by_cases hj : j = h
    · subst hj
      simp [isParent_insert_self]
    · simp [isParent_insert_of_ne hj, hj]
  simp only [hstep, Finmap.mem_insert]
  constructor
  · rintro ⟨rfl | hk, hno⟩
    · exact Or.inl rfl
    · refine Or.inr ⟨⟨hk, fun j hj => ?_⟩, fun hp => hno h (Or.inl ⟨rfl, hp⟩)⟩
      exact hno j (Or.inr ⟨fun he => hh (he ▸ hj.mem), hj⟩)
  · rintro (rfl | ⟨⟨hk, hno⟩, hp⟩)
    · refine ⟨Or.inl rfl, fun j hj => ?_⟩
      rcases hj with ⟨_, hp⟩ | ⟨_, hj⟩
      · exact hh (hl.inserted _ hp)
      · exact hh (hs.parent_mem hj)
    · refine ⟨Or.inr hk, fun j hj => ?_⟩
      rcases hj with ⟨_, hp'⟩ | ⟨_, hj⟩
      · exact hp hp'
      · exact hno j hj

theorem above_insert (hc : graph.Registered c) :
    TransGen (constraintGraph (graph.insert h x)).child d c ↔
      TransGen graph.constraintGraph.child d c := by
  obtain ⟨hl, hr⟩ := hs.registered_mem hc
  simp only [above_iff_commits, commits_insert hs hh hl, commits_insert hs hh hr, hc,
    (registered_insert hh).mpr (Or.inl hc)]

theorem legal_insert {v : Vertex H} (hl : graph.Legal v) : Legal (graph.insert h x) v where
  nonempty := hl.nonempty
  nodup := hl.nodup
  inserted p hp := Finmap.mem_insert.mpr (Or.inr (hl.inserted p hp))
  height_eq := by
    have hmap : v.parents.map (height (graph.insert h x)) = v.parents.map graph.height :=
      List.map_congr_left fun p hp =>
        height_insert_of_ne fun he => hh (he ▸ hl.inserted p hp)
    rw [hmap]
    exact hl.height_eq
  antichain p hp q hq := by
    rw [ancestor_insert hs hh (hl.inserted q hq)]
    exact hl.antichain p hp q hq

/-- A legal vertex keeps the shape of the graph. -/
theorem Shaped.insert (hl : graph.Legal x) : Shaped (graph.insert h x) root genesis := by
  have hroot : root ≠ h := fun he => hh (he ▸ hs.root_mem)
  have hcard : (graph.insert h x).keys.card = graph.keys.card + 1 := by
    rw [keys_insert, Finset.card_insert_of_notMem (by rwa [Finmap.mem_keys])]
  -- an entry is the new vertex, or an old one
  have hlookup : ∀ k v, (graph.insert h x).lookup k = some v →
      k = h ∧ v = x ∨ k ≠ h ∧ graph.lookup k = some v := by
    intro k v hv
    rw [HashMap.lookup_insert] at hv
    split at hv
    · next he => exact Or.inl ⟨he, (Option.some.inj hv).symm⟩
    · next he => exact Or.inr ⟨he, hv⟩
  constructor
  · rw [HashMap.lookup_insert, if_neg hroot]
    exact hs.root_lookup
  · exact hs.root_parents
  · intro k v hv hk
    rcases hlookup k v hv with ⟨-, rfl⟩ | ⟨-, hv⟩
    · exact legal_insert hs hh hl
    · exact legal_insert hs hh (hs.legal k v hv hk)
  · intro k v hv
    rw [hcard]
    rcases hlookup k v hv with ⟨-, rfl⟩ | ⟨-, hv⟩
    -- the new vertex is one above some parent, so one more key makes room for it
    · obtain ⟨m, hm, he⟩ := hl.height_eq
      obtain ⟨p, hp, rfl⟩ := List.mem_map.mp (List.max?_eq_some_iff.mp hm).1
      have hb := hs.height_bounds (hl.inserted p hp)
      omega
    · have hb := hs.bounded k v hv
      omega

end Growth

end Graph

end Taurus
