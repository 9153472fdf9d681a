import Taurus.Attempts

namespace Taurus

variable {H : Type} [LinearOrder H] {hash : Vertex H → H} {it : HashOrders H} {config : Config}
  {genesis vx : Vertex H} {dag dag' : DAG H} {s t u : StateMap H} {c : Constraint H}
  {l : List (Constraint H)}

/-- The conflict set without its decisions. -/
def ConflictSet.cleared (cs : ConflictSet H) : ConflictSet H := { cs with decision := ∅ }

/-- The second state map differs from the first in decisions at most. -/
def OnlyDecides (s t : StateMap H) : Prop :=
  ∀ k, (t.lookup k).map ConflictSet.cleared = (s.lookup k).map ConflictSet.cleared

namespace OnlyDecides

theorem trans (hst : OnlyDecides s t) (htu : OnlyDecides t u) : OnlyDecides s u :=
  fun k => (htu k).trans (hst k)

theorem insert {k : ConflictSetKey H} {cs cs' : ConflictSet H} (hcs : s.lookup k = some cs)
    (h : cs'.cleared = cs.cleared) : OnlyDecides s (s.insert k cs') := by
  intro k'
  rw [HashMap.lookup_insert]
  split
  · next hk => rw [hk, hcs, Option.map_some, Option.map_some, h]
  · rfl

theorem lookup {k : ConflictSetKey H} {cs' : ConflictSet H} (h : OnlyDecides s t)
    (hk : t.lookup k = some cs') : ∃ cs, s.lookup k = some cs ∧ ∃ d, cs' = { cs with decision := d } := by
  have hs := h k
  rw [hk, Option.map_some] at hs
  obtain ⟨cs, hcs, hc⟩ := Option.map_eq_some_iff.mp hs.symm
  exact ⟨cs, hcs, cs'.decision, congrArg (fun x => { x with decision := cs'.decision }) hc.symm⟩

theorem entry_eq {V : Type} {field : ConflictSet H → HashMap (Constraint H) V}
    (h : OnlyDecides s t) (hf : ∀ cs : ConflictSet H, field cs.cleared = field cs)
    (c : Constraint H) : entry field t c = entry field s c := by
  have hk := congrArg (Option.bind · fun cs => (field cs).lookup c) (h c.conflictSetKey)
  simpa only [Option.bind_map, Function.comp_def, hf, entry] using hk

end OnlyDecides

theorem rejectProgeny_onlyDecides {fuel : Nat} (h : DAG.rejectProgeny it fuel s c = some t) :
    OnlyDecides s t :=
  rejectProgeny_rel (R := OnlyDecides) (fun _ _ => rfl) (fun _ _ _ => OnlyDecides.trans)
    (fun _ _ _ hcs => OnlyDecides.insert hcs rfl) h

/-- A positive vote writes one conflict set, in which it counts and may change the preference,
and decides. -/
theorem voteFor_frame {depth : Nat} (h : DAG.voteFor it config depth s c = some t) :
    ∃ cs cs₁ : ConflictSet H, s.lookup c.conflictSetKey = some cs ∧
      OnlyDecides (s.insert c.conflictSetKey cs₁) t ∧ cs₁.last = c ∧
      cs₁.count = cs.count.insert c (cs.tally c) ∧
      (cs₁.preferred = c ∨ cs₁.preferred = cs.preferred) ∧
      cs₁.chit = cs.chit ∧ cs₁.parents = cs.parents ∧ cs₁.children = cs.children := by
  obtain ⟨cs, cs₁, hcs, hw, rfl | ⟨accepted, rfl, haccept⟩⟩ := voteFor_written h
  · exact ⟨cs, cs₁, hcs, fun _ => rfl, hw.last, hw.count, hw.preferred, hw.chit, hw.parents,
      hw.children⟩
  · rw [Finmap.insert_insert] at haccept
    refine ⟨cs, { cs₁ with decision := cs₁.decision.insert c true, preferred := c }, hcs, ?_,
      hw.last, hw.count, Or.inl rfl, hw.chit, hw.parents, hw.children⟩
    rcases haccept with ⟨_, rfl⟩ | ⟨o, _, _, hrej⟩
    · exact fun _ => rfl
    · exact rejectProgeny_onlyDecides hrej

/-- Is the component one that no vote writes? -/
def VoteFree {V : Type} (field : ConflictSet H → HashMap (Constraint H) V) : Prop :=
  ∀ cs cs' : ConflictSet H, cs'.chit = cs.chit → cs'.parents = cs.parents →
    cs'.children = cs.children → field cs' = field cs

section VoteFree

variable {V : Type} {field : ConflictSet H → HashMap (Constraint H) V}

theorem VoteFree.entry_voteFor (hf : VoteFree field) {depth : Nat}
    (h : DAG.voteFor it config depth s c = some t) (d : Constraint H) :
    entry field t d = entry field s d := by
  obtain ⟨cs, cs₁, hcs, hdec, _, _, _, hchit, hparents, hchildren⟩ := voteFor_frame h
  calc
    entry field t d = entry field (s.insert c.conflictSetKey cs₁) d :=
      hdec.entry_eq (fun cs => hf cs cs.cleared rfl rfl rfl) d
    _ = entry field s d := entry_insert_of_eq hcs (hf cs cs₁ hchit hparents hchildren) d

theorem VoteFree.entry_loop (hf : VoteFree field) {b : Bool}
    (h : l.foldlM (dag.recordConstraint it b) s = some t) (d : Constraint H) :
    entry field t d = entry field s d := by
  refine foldlM_rel (R := fun s t : StateMap H => entry field t d = entry field s d)
    (fun _ => rfl) (fun _ _ _ hst htu => htu.trans hst) l (fun s c _ t hc => ?_) h
  cases b with
  | true => exact hf.entry_voteFor hc d
  | false =>
    obtain ⟨cs, hcs, rfl⟩ := voteAgainst_eq_some hc
    exact entry_insert_of_eq hcs (hf cs { cs with count := cs.count.insert c 0 } rfl rfl rfl) d

end VoteFree

/-- A positive vote on another constraint leaves the counter of `c` alone; if it is on the
opposite of `c`, then `c` is not the last one voted for any more. -/
theorem voteFor_other {depth : Nat} {d : Constraint H} (h : DAG.voteFor it config depth s d = some t)
    (hne : c ≠ d) {cs' : ConflictSet H} (hcs' : t.lookup c.conflictSetKey = some cs') :
    ∃ cs, s.lookup c.conflictSetKey = some cs ∧ cs'.count.lookup c = cs.count.lookup c ∧
      (cs'.last = c → cs.last = c ∧ c.conflict ≠ some d) := by
  obtain ⟨csd, cs₁, hcsd, hdec, hlast, hcount, _⟩ := voteFor_frame h
  obtain ⟨cs, hcs, _, rfl⟩ := hdec.lookup hcs'
  rw [HashMap.lookup_insert] at hcs
  split at hcs
  · next hk =>
    cases hcs
    refine ⟨csd, hk ▸ hcsd, ?_, fun hl => ?_⟩
    · rw [hcount, HashMap.lookup_insert, if_neg hne]
    · exact absurd (hl.symm.trans hlast) hne
  · next hk =>
    refine ⟨cs, hcs, rfl, fun hl => ⟨hl, fun ho => ?_⟩⟩
    exact hk (Constraint.conflictSetKey_conflict c d ho).symm

/-- The same for the loop over the constraints of a positive result. -/
theorem voteFor_loop_other (hc : c ∉ l)
    (h : l.foldlM (dag.recordConstraint it true) s = some t) {cs' : ConflictSet H}
    (hcs' : t.lookup c.conflictSetKey = some cs') :
    ∃ cs, s.lookup c.conflictSetKey = some cs ∧ cs'.count.lookup c = cs.count.lookup c ∧
      (cs'.last = c → cs.last = c ∧ ∀ o, c.conflict = some o → o ∉ l) := by
  induction l generalizing s with
  | nil =>
    cases h
    exact ⟨cs', hcs', rfl, fun hl => ⟨hl, fun _ _ => List.not_mem_nil⟩⟩
  | cons d l ih =>
    obtain ⟨hne, hc⟩ := not_or.mp (List.mem_cons.not.mp hc)
    obtain ⟨u, hu, h⟩ := foldlM_cons_eq_some.mp h
    obtain ⟨csu, hcsu, hcount, hlast⟩ := ih hc h
    obtain ⟨cs, hcs, hcount', hlast'⟩ := voteFor_other hu hne hcsu
    refine ⟨cs, hcs, hcount.trans hcount', fun hl => ?_⟩
    obtain ⟨hlu, hno⟩ := hlast hl
    obtain ⟨hls, hnd⟩ := hlast' hlu
    refine ⟨hls, fun o ho hm => ?_⟩
    rcases List.mem_cons.mp hm with rfl | hm
    · exact hnd ho
    · exact hno o ho hm

/-- A negative result resets the counters of the constraints it updates. -/
theorem voteAgainst_loop_counters (h : l.foldlM (dag.recordConstraint it false) s = some t)
    {cs' : ConflictSet H} (hcs' : t.lookup c.conflictSetKey = some cs') :
    ∃ cs, s.lookup c.conflictSetKey = some cs ∧ cs'.last = cs.last ∧
      cs'.count.lookup c = if c ∈ l then some 0 else cs.count.lookup c := by
  induction l generalizing s with
  | nil =>
    cases h
    exact ⟨cs', hcs', rfl, rfl⟩
  | cons d l ih =>
    obtain ⟨u, hu, h⟩ := foldlM_cons_eq_some.mp h
    obtain ⟨csu, hcsu, hlast, hcount⟩ := ih h
    obtain ⟨csd, hcsd, rfl⟩ := voteAgainst_eq_some hu
    rw [HashMap.lookup_insert] at hcsu
    split at hcsu
    · next hk =>
      cases hcsu
      refine ⟨csd, hk ▸ hcsd, hlast, ?_⟩
      rw [hcount, HashMap.lookup_insert]
      by_cases hcd : c = d <;> by_cases hcl : c ∈ l <;> simp [hcd, hcl]
    · next hk =>
      have hcd : c ≠ d := fun he => hk (congrArg _ he)
      exact ⟨csu, hcsu, hlast, by rw [hcount]; simp [hcd]⟩

/-- The award of a chit touches neither counters nor preferences. -/
theorem awardIfPreferred_frame {stronglyPreferred : Bool} {k : ConflictSetKey H}
    (h : DAG.awardIfPreferred stronglyPreferred s c = some t) {cs' : ConflictSet H}
    (hcs' : t.lookup k = some cs') : ∃ cs, s.lookup k = some cs ∧ cs'.last = cs.last ∧
      cs'.count = cs.count ∧ cs'.preferred = cs.preferred := by
  rcases awardIfPreferred_cases h with rfl | ⟨cs, hcs, rfl⟩
  · exact ⟨cs', hcs', rfl, rfl, rfl⟩
  · rw [HashMap.lookup_insert] at hcs'
    split at hcs'
    · next hk =>
      cases hcs'
      exact ⟨cs, hk ▸ hcs, rfl, rfl, rfl⟩
    · exact ⟨cs', hcs', rfl, rfl, rfl⟩

/-- What is decided stays decided. -/
def NeverClears (s t : StateMap H) : Prop := ∀ d, decisionOf s d ≠ none → decisionOf t d ≠ none

namespace NeverClears

theorem trans (hst : NeverClears s t) (htu : NeverClears t u) : NeverClears s u :=
  fun d hd => htu d (hst d hd)

theorem insert {cs cs' : ConflictSet H} {b : Bool} (hcs : s.lookup c.conflictSetKey = some cs)
    (hd : cs'.decision = cs.decision.insert c b) : NeverClears s (s.insert c.conflictSetKey cs') := by
  intro d hsd
  rw [decisionOf_insert hcs hd]
  split
  · simp
  · exact hsd

theorem insert_of_eq {cs cs' : ConflictSet H} (hcs : s.lookup c.conflictSetKey = some cs)
    (hd : cs'.decision = cs.decision) : NeverClears s (s.insert c.conflictSetKey cs') := by
  intro d hsd
  rwa [decisionOf_insert_of_eq hcs hd]

theorem voteFor {depth : Nat} (h : DAG.voteFor it config depth s c = some t) : NeverClears s t := by
  obtain ⟨cs, cs₁, hcs, hcounted, rfl | ⟨accepted, rfl, haccept⟩⟩ := voteFor_cases h
  · exact insert_of_eq hcs hcounted.decision
  have hfirst : NeverClears s (s.insert c.conflictSetKey cs₁) := insert_of_eq hcs hcounted.decision
  have haccepted : NeverClears (s.insert c.conflictSetKey cs₁)
      ((s.insert c.conflictSetKey cs₁).insert c.conflictSetKey
        { cs₁ with decision := cs₁.decision.insert c true, preferred := c }) :=
    insert (b := true) (Finmap.lookup_insert s) rfl
  refine hfirst.trans (haccepted.trans ?_)
  rcases haccept with ⟨_, rfl⟩ | ⟨o, _, _, hrej⟩
  · exact fun _ hd => hd
  · exact rejectProgeny_rel (R := NeverClears) (fun _ _ hd => hd) (fun _ _ _ => trans)
      (fun _ _ _ hcs => insert hcs rfl) hrej

theorem voteAgainst (h : DAG.voteAgainst s c = some t) : NeverClears s t := by
  obtain ⟨cs, hcs, rfl⟩ := voteAgainst_eq_some h
  exact insert_of_eq hcs (by rfl)

theorem awardIfPreferred {stronglyPreferred : Bool}
    (h : DAG.awardIfPreferred stronglyPreferred s c = some t) : NeverClears s t := by
  intro d hd
  rwa [decisionOf_awardIfPreferred h]

theorem loop {b : Bool} (h : l.foldlM (dag.recordConstraint it b) s = some t) : NeverClears s t := by
  refine foldlM_rel (R := NeverClears) (fun _ _ hd => hd) (fun _ _ _ => trans) _
    (fun s c _ u hu => ?_) h
  cases b with
  | false => exact voteAgainst hu
  | true => exact voteFor hu

end NeverClears

end Taurus
