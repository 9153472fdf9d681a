import Taurus.Check

namespace Taurus

open Relation

variable {H : Type} [LinearOrder H] {hash : Vertex H → H} {genesis : Vertex H} {dag : DAG H}
  {vx wx : Vertex H}

namespace Graph

/-- Would a new vertex commit to `c`, itself or through an ancestor? -/
def WouldCommit (graph : Graph H) (vx : Vertex H) (c : Constraint H) : Prop :=
  c ∈ vx.parentConstraints ∨ ∃ a, graph.Precedes a vx ∧ c ∈ graph.commitments a

/-- All that a graph demands of a vertex, whatever the votes in it were. -/
structure Admits (graph : Graph H) (vx : Vertex H) : Prop where
  sane : vx.sanityChecks = .ok ()
  inserted : ∀ p ∈ vx.parents, p ∈ graph
  height : graph.HeightFits vx
  antichain : graph.Antichain vx
  consistent : ∀ c, c.left ≠ c.right → graph.WouldCommit vx c → ¬ graph.WouldCommit vx c.swap

/-- Do the vertices that two graphs share agree in all that is hashed? -/
def Agree (A B : Graph H) : Prop :=
  ∀ h u v, A.lookup h = some u → B.lookup h = some v → u.SameWire v

variable {A B graph : Graph H} {root a h p q : H} {c : Constraint H}

theorem commits_insert_self (hs : graph.Shaped root genesis) (hh : h ∉ graph)
    (hin : ∀ p ∈ vx.parents, p ∈ graph) :
    Commits (graph.insert h vx) h c ↔ graph.WouldCommit vx c := by
  rw [commits_iff, commitments_insert_self, WouldCommit]
  refine or_congr_right ⟨?_, ?_⟩
  · rintro ⟨p, hp, hc⟩
    have hpv := isParent_insert_self.mp hp
    obtain ⟨a, ha, hca⟩ := (commits_insert hs hh (hin p hpv)).mp hc
    exact ⟨a, ⟨p, hpv, ha⟩, hca⟩
  · rintro ⟨a, ⟨p, hp, ha⟩, hca⟩
    exact ⟨p, isParent_insert_self.mpr hp, (commits_insert hs hh (hin p hp)).mpr ⟨a, ha, hca⟩⟩

theorem agree_insert (hh : h ∉ graph) : graph.Agree (graph.insert h vx) := by
  intro k u v hu hv
  rw [HashMap.lookup_insert, if_neg, hu] at hv
  · cases hv
    exact ⟨rfl, rfl, rfl, rfl, rfl⟩
  · rintro rfl
    exact hh (Finmap.mem_of_lookup_eq_some hu)

namespace Agree

variable (hAB : A.Agree B)
include hAB

theorem symm : B.Agree A := fun h u v hu hv => (hAB h v u hv hu).symm

theorem sameWire (hA : q ∈ A) (hB : q ∈ B) :
    ∃ u v, A.lookup q = some u ∧ B.lookup q = some v ∧ u.SameWire v := by
  obtain ⟨u, hu⟩ := Finmap.mem_iff.mp hA
  obtain ⟨v, hv⟩ := Finmap.mem_iff.mp hB
  exact ⟨u, v, hu, hv, hAB q u v hu hv⟩

theorem isParent (hA : q ∈ A) (hB : q ∈ B) : A.IsParent p q ↔ B.IsParent p q := by
  obtain ⟨u, v, hu, hv, hw⟩ := hAB.sameWire hA hB
  rw [isParent_of_lookup hu, isParent_of_lookup hv, hw.2.2.1]

theorem commitments_eq (hA : q ∈ A) (hB : q ∈ B) : A.commitments q = B.commitments q := by
  obtain ⟨u, v, hu, hv, hw⟩ := hAB.sameWire hA hB
  rw [commitments_of_lookup hu, commitments_of_lookup hv, hw.parentConstraints_eq]

theorem height_eq (hA : q ∈ A) (hB : q ∈ B) : A.height q = B.height q := by
  obtain ⟨u, v, hu, hv, hw⟩ := hAB.sameWire hA hB
  rw [height_of_lookup hu, height_of_lookup hv, hw.2.1]

variable (hsA : A.Shaped root genesis) (hsB : B.Shaped root genesis)
include hsA hsB

/-- The line from an ancestor to a shared vertex is shared. -/
theorem line (hA : q ∈ A) (hB : q ∈ B) (ha : ReflTransGen A.IsParent a q) :
    a ∈ A ∧ a ∈ B ∧ ReflTransGen B.IsParent a q := by
  induction ha using ReflTransGen.head_induction_on with
  | refl => exact ⟨hA, hB, .refl⟩
  | head hp _ ih =>
    obtain ⟨hbA, hbB, hline⟩ := ih
    have hp' := (hAB.isParent hbA hbB).mp hp
    exact ⟨hsA.parent_mem hp, hsB.parent_mem hp', .head hp' hline⟩

theorem ancestor (hA : q ∈ A) (hB : q ∈ B) (ha : A.Ancestor a q) : B.Ancestor a q := by
  obtain ⟨b, hab, hp⟩ := TransGen.tail'_iff.mp ha
  have hp' := (hAB.isParent hA hB).mp hp
  exact TransGen.tail'_iff.mpr
    ⟨b, (hAB.line hsA hsB (hsA.parent_mem hp) (hsB.parent_mem hp') hab).2.2, hp'⟩

variable (hinA : ∀ p ∈ vx.parents, p ∈ A) (hinB : ∀ p ∈ vx.parents, p ∈ B)
include hinA hinB

theorem wouldCommit (hc : A.WouldCommit vx c) : B.WouldCommit vx c := by
  rcases hc with hc | ⟨a, ⟨p, hp, ha⟩, hc⟩
  · exact Or.inl hc
  · obtain ⟨haA, haB, hline⟩ := hAB.line hsA hsB (hinA p hp) (hinB p hp) ha
    rw [hAB.commitments_eq haA haB] at hc
    exact Or.inr ⟨a, ⟨p, hp, hline⟩, hc⟩

omit hinA in
/-- Graphs that hold the parents of a vertex and agree on them admit it alike. -/
theorem admits (ha : A.Admits vx) : B.Admits vx where
  sane := ha.sane
  inserted := hinB
  height := by
    obtain ⟨m, hm, hv⟩ := ha.height
    have hmap : vx.parents.map A.height = vx.parents.map B.height :=
      List.map_congr_left fun p hp => hAB.height_eq (ha.inserted p hp) (hinB p hp)
    exact ⟨m, hmap ▸ hm, hv⟩
  antichain p hp q hq hpq :=
    ha.antichain p hp q hq (hAB.symm.ancestor hsB hsA (hinB q hq) (ha.inserted q hq) hpq)
  consistent c hne hc hsw := by
    have hback {d : Constraint H} (hd : B.WouldCommit vx d) : A.WouldCommit vx d :=
      hAB.symm.wouldCommit hsB hsA hinB ha.inserted hd
    exact ha.consistent c hne (hback hc) (hback hsw)

end Agree

/-- What a graph demands concerns the serialized fields only. -/
theorem Admits.sameWire (ha : graph.Admits vx) (hw : vx.SameWire wx) : graph.Admits wx := by
  have hcommit (c : Constraint H) : graph.WouldCommit wx c ↔ graph.WouldCommit vx c := by
    simp only [WouldCommit, Precedes, hw.2.2.1, hw.parentConstraints_eq]
  obtain ⟨hsane, hin, ⟨m, hm, hv⟩, hanti, hcons⟩ := ha
  refine ⟨hw.sanityChecks_eq ▸ hsane, hw.2.2.1 ▸ hin, ⟨m, hw.2.2.1 ▸ hm, hw.2.1 ▸ hv⟩, ?_, ?_⟩
  · intro p hp q hq
    rw [← hw.2.2.1] at hp hq
    exact hanti p hp q hq
  · intro c hne
    rw [hcommit, hcommit]
    exact hcons c hne

end Graph

/-- A vertex that the graph admits is refused only if it is already there, or if one of its
parents has been rejected. -/
theorem Checked.refused_of_admits {e : Error H} (hc : Checked hash dag vx (.err e))
    (ha : dag.graph.Admits vx) : e = .alreadyInserted ∧ hash vx ∈ dag.graph ∨
      e = .rejectedAncestor ∧ ∃ p ∈ vx.parents, dag.decisionOn p = some false := by
  cases hc with
  | vertex hs =>
    rw [ha.sane] at hs
    cases hs
  | alreadyInserted _ hin => exact Or.inl ⟨rfl, hin⟩
  | missingParents _ _ hp | waitingOnParents _ _ hp =>
    obtain ⟨p, hpv, hpg⟩ := hp
    exact absurd (ha.inserted p hpv) hpg
  | badHeight _ hm hne =>
    obtain ⟨m, hm', hv⟩ := ha.height
    rw [hm] at hm'
    cases hm'
    exact absurd hv hne
  | rejectedAncestor _ _ hf => exact Or.inr ⟨rfl, hf⟩
  | selfReferentialParent _ _ _ hanti => exact absurd ha.antichain hanti
  | conflictingAncestors _ _ _ _ hact hcs =>
    obtain ⟨c, hc, hne, hsw⟩ := hcs
    exact absurd (hact.sound c.swap hsw) (ha.consistent c hne (hact.sound c hc))

end Taurus
