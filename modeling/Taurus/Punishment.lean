import Taurus.Safety

namespace Taurus

variable {H : Type} [LinearOrder H] {hash : Vertex H → H} {itA itB : HashOrders H}
  {config : Config} {genesis : Vertex H} {A A' B B' : DAG H} {vx : Vertex H}

/-- What is reported about a broadcast message to the peers. -/
inductive MessageValidity where
  | accept
  | reject
  | ignore
deriving DecidableEq, Repr

/-- What is reported about a broadcast vertex, by the result of submitting it. -/
def handleGossipsub : Except (Error H) (HashSet H) → MessageValidity
  | .ok _ => .accept
  | .error (.missingParents _) => .accept
  -- punitive errors: the peer that sent the vertex is penalised
  | .error (.badHeight _ _) => .reject
  | .error .conflictingAncestors => .reject
  | .error .selfReferentialParent => .reject
  | .error (.vertex _) => .reject
  | .error _ => .ignore

/-- The vertices that are inserted in one of the two graphs. -/
def DAG.insertedIn (A B : DAG H) : Set (Vertex H) :=
  fun v => ∃ h, A.graph.lookup h = some v ∨ B.graph.lookup h = some v

theorem agree_of_collisionFree (hA : Sound hash genesis A) (hB : Sound hash genesis B)
    (hcf : Vertex.CollisionFree hash (A.insertedIn B)) : A.graph.Agree B.graph := by
  intro h u v hu hv
  refine hcf u ⟨h, Or.inl hu⟩ v ⟨h, Or.inr hv⟩ ?_
  rw [hA.hash_eq h u (hA.inserted_known h u hu), hB.hash_eq h v (hB.inserted_known h v hv)]

/-- A refusal is punitive only if the graph does not admit the vertex, all of whose parents
it holds unless the vertex is insane in itself. -/
theorem Checked.not_admitted {e : Error H} (hc : Checked hash B vx (.err e))
    (hr : handleGossipsub (.error e : Except (Error H) (HashSet H)) = .reject) :
    ¬ B.graph.Admits vx ∧ ((∀ p ∈ vx.parents, p ∈ B.graph) ∨ vx.sanityChecks ≠ .ok ()) := by
  constructor
  · intro ha
    rcases hc.refused_of_admits ha with ⟨rfl, _⟩ | ⟨rfl, _⟩ <;> cases hr
  · cases hc with
    | vertex hs => exact Or.inr (by simp [hs])
    | alreadyInserted | missingParents | waitingOnParents => cases hr
    | badHeight hready => exact Or.inl hready.parents
    | rejectedAncestor hready => exact Or.inl hready.parents
    | selfReferentialParent hready => exact Or.inl hready.parents
    | conflictingAncestors hready => exact Or.inl hready.parents

/-- Punished vertices are objectively invalid, as long as the threshold of the node that
inserts the vertex only accepts settled vertices: no other node, whatever its votes were,
penalises the peer that sends it the vertex. -/
theorem inserted_not_punished
    (hA : (DAG.system hash config genesis).ReachableWhen (DAG.Guarded hash OrderingsSettled) A)
    (hB : (DAG.system hash config genesis).Reachable B)
    (hcf : Vertex.CollisionFree hash (A.insertedIn B)) {waiting : HashSet H}
    (hins : A.tryInsert hash itA vx = some (.ok waiting, A'))
    {result : Except (Error H) (HashSet H)} (hres : B.tryInsert hash itB vx = some (result, B')) :
    handleGossipsub result ≠ .reject := by
  have hdA := sound_of_reachable hA
  have hdB := sound_of_reachable hB
  have hsafe := safe_of_reachable (fun _ _ hcond => hcond) hA
  have hadm : A.graph.Admits vx := by
    obtain ⟨r, hr, ht⟩ := tryInsert_spec itA hdA vx
    rw [hins, Option.some.injEq] at hr
    cases hr
    cases ht with
    | inserted hc _ _ => exact hsafe.admits hdA hc
  obtain ⟨r, hr, ht⟩ := tryInsert_spec itB hdB vx
  rw [hres, Option.some.injEq] at hr
  cases hr
  intro hrej
  cases ht with
  | inserted _ _ _ => cases hrej
  | refused hc =>
    obtain ⟨hnot, hin | hinsane⟩ := hc.not_admitted hrej
    -- `B` holds the parents, so it admits what `A` admits
    · have hagree := agree_of_collisionFree hdA hdB hcf
      exact hnot (hagree.admits hdA.shaped hdB.shaped hin hadm)
    · exact hinsane hadm.sane

/-- An insertion that a run was seen to succeed in. -/
theorem exists_of_isOk {dag : DAG H} {it : HashOrders H}
    (h : (dag.tryInsert hash it vx).any (fun r => r.1.isOk) = true) :
    ∃ waiting dag', dag.tryInsert hash it vx = some (.ok waiting, dag') := by
  match hr : dag.tryInsert hash it vx with
  | none => simp [hr] at h
  | some (.error _, _) => simp [hr, Except.isOk, Except.toBool] at h
  | some (.ok waiting, dag') => exact ⟨waiting, dag', rfl⟩

/-- A twin of a branch that votes have accepted is not punished where nobody has voted. -/
theorem inserted_not_punished_twin : ∃ A B : DAG Digest,
    (A.tryInsert Vertex.wire .ascending Fork.abTwin).any (fun r => r.1.isOk) = true ∧
      ∀ result B', B.tryInsert Vertex.wire .ascending Fork.abTwin = some (result, B') →
        handleGossipsub result ≠ .reject := by
  have hrunA : ∃ A, (Fork.system ⟨2, 1⟩).ReachableWhen
      (DAG.Guarded Vertex.wire fun dag c =>
        c.left = c.right → tally dag.state c < dag.config.threshAccepted) A ∧
      (A.tryInsert Vertex.wire .ascending Fork.abTwin).any (fun r => r.1.isOk) = true :=
    reachable_of_run rfl rfl
      (Fork.run [Fork.a, Fork.b, Fork.ab, Fork.ba] [Fork.ab]) (by decide +kernel)
  have hrunB : ∃ B, (Fork.system ⟨2, 1⟩).Reachable B ∧ Fork.ba.wire ∈ B.graph :=
    reachable_of_run rfl rfl
      (Fork.run [Fork.a, Fork.b, Fork.ba] []) (by decide +kernel)
  obtain ⟨A, hA, hok⟩ := hrunA
  obtain ⟨B, hB, _⟩ := hrunB
  obtain ⟨waiting, A', hins⟩ := exists_of_isOk hok
  have hA' := hA.mono fun _ _ hg v hv => orderingsSettled_of_lt (hg v hv)
  exact ⟨A, B, hok, fun result B' hres => inserted_not_punished hA' hB
    (Vertex.wire_collisionFree _) hins hres⟩

/-- With both thresholds at two, a node that has accepted one branch through the threshold
inserts a vertex on top of both branches. A node without votes penalises its sender. -/
theorem inserted_and_punished : Vertex.CollisionFree Vertex.wire Set.univ ∧
    ∃ A B, (Fork.system ⟨2, 2⟩).Reachable A ∧ (Fork.system ⟨2, 2⟩).Reachable B ∧
      (∀ p ∈ Fork.both.parents, p ∈ A.graph ∧ p ∈ B.graph) ∧
      Fork.both.wire ∉ A.graph ∧ Fork.both.wire ∉ B.graph ∧
      (∃ waiting A', A.tryInsert Vertex.wire .ascending Fork.both = some (.ok waiting, A')) ∧
      ∃ result B', B.tryInsert Vertex.wire .ascending Fork.both = some (result, B') ∧
        handleGossipsub result = .reject := by
  have hrunA : ∃ A, (Fork.system ⟨2, 2⟩).Reachable A ∧ (∀ p ∈ Fork.both.parents, p ∈ A.graph) ∧
      Fork.both.wire ∉ A.graph ∧
      (A.tryInsert Vertex.wire .ascending Fork.both).any (fun r => r.1.isOk) = true :=
    reachable_of_run rfl rfl
      (Fork.run [Fork.a, Fork.b, Fork.ab, Fork.ba, Fork.abTip] [Fork.ab, Fork.ba, Fork.abTip])
      (by decide +kernel)
  have hrunB : ∃ B, (Fork.system ⟨2, 2⟩).Reachable B ∧ (∀ p ∈ Fork.both.parents, p ∈ B.graph) ∧
      Fork.both.wire ∉ B.graph ∧
      (B.tryInsert Vertex.wire .ascending Fork.both).map (fun r => handleGossipsub r.1) =
        some .reject :=
    reachable_of_run rfl rfl (Fork.run [Fork.a, Fork.b, Fork.ab, Fork.ba] []) (by decide +kernel)
  obtain ⟨A, hA, hparA, hfA, hok⟩ := hrunA
  obtain ⟨B, hB, hparB, hfB, hrej⟩ := hrunB
  obtain ⟨⟨result, B'⟩, hres, hrej⟩ := Option.map_eq_some_iff.mp hrej
  exact ⟨Vertex.wire_collisionFree _, A, B, hA, hB, fun p hp => ⟨hparA p hp, hparB p hp⟩,
    hfA, hfB, exists_of_isOk hok, result, B', hres, hrej⟩

end Taurus
