import Taurus.Handling

namespace Taurus

open Relation

variable {H P Ch : Type} [LinearOrder H] {hash : Vertex H → H} {it : HashOrders H}
  {config : Config} {genesis vx : Vertex H} {dag dag' dag'' : DAG H} {s t : StateMap H}
  {c d : Constraint H} {v w : H} {b : Bool}

namespace DAG

/-- Is the constraint preferred, and everything above it? -/
def Upheld (dag : DAG H) (c : Constraint H) : Prop :=
  dag.graph.Registered c ∧
    ∀ d, ReflTransGen dag.graph.constraintGraph.child d c → Prefers dag.state d

/-- Is the constraint upheld, and unless it is an ordering, none of its parents rejected? -/
def Sustained (dag : DAG H) (c : Constraint H) : Prop :=
  dag.Upheld c ∧ (c.left = c.right → ∀ p, dag.graph.constraintGraph.child p c →
    decisionOf dag.state p ≠ some false)

/-- Is the vertex sustained, and not rejected itself? -/
def StandsBy (dag : DAG H) (v : H) : Prop :=
  dag.Sustained (.unity v) ∧ dag.decisionOn v ≠ some false

/-- Is everything sustained that is accepted? -/
def Loyal (dag : DAG H) : Prop := ∀ c, decisionOf dag.state c = some true → dag.Sustained c

end DAG

/-- Of two opposite orderings one at most is preferred. -/
theorem not_prefers_swap (hne : c.left ≠ c.right) (hc : Prefers s c) : ¬ Prefers s c.swap := by
  rintro ⟨cs', hcs', hp'⟩
  obtain ⟨cs, hcs, hp⟩ := hc
  rw [(Constraint.conflictSetKey_eq_iff c.swap c).mpr (Or.inr rfl)] at hcs'
  cases hcs.symm.trans hcs'
  exact hne (congrArg Constraint.left (hp.symm.trans hp'))

namespace DAG.Upheld

theorem prefers (h : dag.Upheld c) : Prefers dag.state c := h.2 c .refl

theorem above (h : dag.Upheld c) (hdc : ReflTransGen dag.graph.constraintGraph.child d c) :
    dag.Upheld d := by
  refine ⟨?_, fun e he => h.2 e (he.trans hdc)⟩
  rcases ReflTransGen.cases_head hdc with rfl | ⟨e, hde, _⟩
  · exact h.1
  · exact Graph.registered_of_parentConstraint hde.2

/-- What is upheld is not rejected along with the opposite of something upheld. -/
theorem not_against (hc : dag.Upheld c) (hd : dag.Upheld d) :
    ¬ dag.graph.constraintGraph.Against c d := by
  rintro ⟨o, ho, hod⟩
  obtain ⟨hne, rfl⟩ := (Constraint.conflict_eq_some c o).mp ho
  exact not_prefers_swap hne hc.prefers (hd.2 _ hod)

/-- A vertex is upheld when everything that it or an ancestor commits to is preferred. -/
theorem unity_iff (hd : Sound hash genesis dag) (hv : v ∈ dag.graph) :
    dag.Upheld (.unity v) ↔ ∀ c, dag.graph.Commits v c → Prefers dag.state c := by
  constructor
  · exact fun h c hc => h.2 c (Graph.below_of_commits hc).to_reflTransGen
  · refine fun h => ⟨Graph.registered_unity hv, fun c hc => ?_⟩
    rcases reflTransGen_iff_eq_or_transGen.mp hc with he | hc
    · rw [← he]
      exact prefers_unity hd (Graph.registered_unity hv) rfl
    · exact h c ((Graph.above_iff_commits.mp hc).2.elim id id)

end DAG.Upheld

/-- The line from an ancestor down to an undecided vertex is undecided, or it passes through an
accepted vertex. -/
theorem open_or_below_accepted (hd : Sound hash genesis dag) (hu : dag.decisionOn v = none) {a : H}
    (ha : ReflTransGen dag.graph.IsParent a v) :
    dag.decisionOn a = none ∧ ReflTransGen dag.OpenParent a v ∨
      ∃ y, dag.decisionOn y = some true ∧ ReflTransGen dag.graph.IsParent a y := by
  induction ha using ReflTransGen.head_induction_on with
  | refl => exact Or.inl ⟨hu, .refl⟩
  | @head a k hak _ ih =>
    rcases ih with ⟨hk, hline⟩ | ⟨y, hy, hline⟩
    · have hnr := hd.parent_not_rejected hak hk
      match hda : dag.decisionOn a with
      | none => exact Or.inl ⟨rfl, .head ⟨hak, hk⟩ hline⟩
      | some true => exact Or.inr ⟨a, hda, .refl⟩
      | some false => exact absurd hda hnr
    · exact Or.inr ⟨y, hy, .head hak hline⟩

/-- A graph that sustains what it has accepted stands by each vertex that it strongly prefers. -/
theorem DAG.Loyal.standsBy (hL : dag.Loyal) (h : (DAG.system hash config genesis).Reachable dag)
    (hv : v ∈ dag.graph) (hsp : dag.StronglyPreferred v) : dag.StandsBy v := by
  have hd := sound_of_reachable h
  rcases hsp with hacc | ⟨hu, vx, hvx, hall⟩
  · exact ⟨hL _ hacc, by rw [hacc]; simp⟩
  refine ⟨⟨(DAG.Upheld.unity_iff hd hv).mpr fun c hc => ?_, fun _ p hp hf => ?_⟩, by rw [hu]; simp⟩
  · obtain ⟨a, ha, hca⟩ := hc
    rcases open_or_below_accepted hd hu ha with ⟨hua, hline⟩ | ⟨y, hy, hline⟩
    · by_cases hdec : decisionOf dag.state c = none
      swap
      · exact prefers_of_decided h hua hca hdec
      -- an undecided constraint of the open line is active, so its preference has been looked at
      rcases hline.cases_tail with rfl | ⟨q, haq, hqv⟩
      · exact hall c ⟨hdec, Or.inl (by rwa [← Graph.commitments_of_lookup hvx])⟩
      · have hq : q ∈ vx.parents := (Graph.isParent_of_lookup hvx).mp hqv.1
        exact hall c ⟨hdec, Or.inr ⟨a, .of_openLine hd ⟨q, hq, haq⟩ hua, hca⟩⟩
    · exact (hL _ hy).1.2 c (Graph.below_of_commits ⟨a, hline, hca⟩).to_reflTransGen
  · exact hd.decided (.unity v) (by simp) p hp hf hu

namespace Graph.Within

variable {graph graph' : Graph H} {root : H} (h : graph.Within graph')
  (hs : graph.Shaped root genesis)
include h

theorem child_iff (hs : graph.Shaped root genesis) (hc : graph.Registered c) :
    graph'.constraintGraph.child d c ↔ graph.constraintGraph.child d c := by
  obtain ⟨hl, hr⟩ := hs.registered_mem hc
  have hparent : graph'.ParentConstraint d c ↔ graph.ParentConstraint d c := by
    rw [ParentConstraint, ParentConstraint, h.commitments_eq hl, h.commitments_eq hr]
  exact and_congr (iff_of_true (h.registered hc) hc) hparent

include hs

/-- What lies above something inserted stays the same while a graph grows. -/
theorem above_iff (hc : graph.Registered c) :
    ReflTransGen graph'.constraintGraph.child d c ↔
      ReflTransGen graph.constraintGraph.child d c := by
  apply reflTransGen_iff_of_closed (S := graph.Registered)
  · exact fun _ _ _ hab => registered_of_parentConstraint hab.2
  · exact fun _ _ hb => h.child_iff hs hb
  · exact hc

end Graph.Within

/-- The second graph has kept the opinions of the first one: what is preferred in its conflict sets,
what is decided, and what it upholds, which is not rejected either. -/
structure DAG.Keeps (dag dag' : DAG H) : Prop where
  within : dag.graph.Within dag'.graph
  keys : ∀ k ∈ dag.state, k ∈ dag'.state
  preferences : ∀ c : Constraint H, c.conflictSetKey ∈ dag.state →
    (Prefers dag'.state c ↔ Prefers dag.state c)
  decisions : ∀ c b, decisionOf dag.state c = some b → decisionOf dag'.state c = some b
  upheld : ∀ c, dag.Upheld c → dag'.Upheld c ∧
    (decisionOf dag.state c ≠ some false → decisionOf dag'.state c ≠ some false)

namespace DAG

theorem Upheld.grown (hc : dag.Upheld c) (hd : Sound hash genesis dag)
    (hw : dag.graph.Within dag'.graph) (hp : ∀ c : Constraint H, c.conflictSetKey ∈ dag.state →
      (Prefers dag'.state c ↔ Prefers dag.state c)) : dag'.Upheld c := by
  refine ⟨hw.registered hc.1, fun d hdc => ?_⟩
  have hup := hc.above ((hw.above_iff hd.shaped hc.1).mp hdc)
  exact (hp d (hd.stores.mem_of_registered hup.1)).mpr hup.prefers

theorem Sustained.keeps (hc : dag.Sustained c) (hd : Sound hash genesis dag)
    (hk : dag.Keeps dag') : dag'.Sustained c := by
  obtain ⟨hup, hparents⟩ := hc
  refine ⟨(hk.upheld c hup).1, fun hu p hp => ?_⟩
  have hpc := (hk.within.child_iff hd.shaped hup.1).mp hp
  exact (hk.upheld p (hup.above (.single hpc))).2 (hparents hu p hpc)

theorem StandsBy.keeps (hv : dag.StandsBy v) (hd : Sound hash genesis dag)
    (hk : dag.Keeps dag') : dag'.StandsBy v :=
  ⟨hv.1.keeps hd hk, (hk.upheld _ hv.1.1).2 hv.2⟩

/-- A graph stays loyal, if what it accepts has been sustained before. -/
theorem Loyal.keeps (hd : Sound hash genesis dag) (hk : dag.Keeps dag')
    (hacc : ∀ c, decisionOf dag'.state c = some true → dag.Sustained c) : dag'.Loyal :=
  fun c hc => (hacc c hc).keeps hd hk

namespace Keeps

theorem refl (dag : DAG H) : dag.Keeps dag where
  within _ _ h := h
  keys _ h := h
  preferences _ _ := Iff.rfl
  decisions _ _ h := h
  upheld _ h := ⟨h, id⟩

theorem trans (h : dag.Keeps dag') (h' : dag'.Keeps dag'') : dag.Keeps dag'' where
  within k vx hv := h'.within k vx (h.within k vx hv)
  keys k hk := h'.keys k (h.keys k hk)
  preferences c hc := (h'.preferences c (h.keys _ hc)).trans (h.preferences c hc)
  decisions c b hc := h'.decisions c b (h.decisions c b hc)
  upheld c hc := by
    obtain ⟨hup, hrej⟩ := h.upheld c hc
    obtain ⟨hup', hrej'⟩ := h'.upheld c hup
    exact ⟨hup', fun hc => hrej' (hrej hc)⟩

theorem of_attempt (hd : Sound hash genesis dag) (ha : Attempt hash it vx dag dag') :
    dag.Keeps dag' := by
  have hw := (Continues.of_attempt hd ha).within
  have hprefers (c : Constraint H) (hc : c.conflictSetKey ∈ dag.state) := ha.grown.prefers_iff hc
  refine ⟨hw, (DAG.Grows.of_attempt hd ha).conflictSets, hprefers, fun c b hc => ?_,
    fun c hc => ⟨hc.grown hd hw hprefers, fun hrej => ?_⟩⟩
  · rwa [ha.grown.decisionOf_eq (mem_of_entry hc)]
  · rwa [ha.grown.decisionOf_eq (hd.stores.mem_of_registered hc.1)]

end Keeps

/-- An attempt to insert a vertex accepts nothing. -/
theorem accepted_of_attempt (hd : Sound hash genesis dag) (ha : Attempt hash it vx dag dag')
    (hc : decisionOf dag'.state c = some true) : decisionOf dag.state c = some true := by
  rcases ha.passes_or_kept hd with ⟨_, hs⟩ | ⟨_, hi⟩
  · rwa [hs] at hc
  · rcases hi.state.decisions.origin c true hc with hold | ⟨hf, _⟩
    · exact hold
    · cases hf

theorem Loyal.attempt (hL : dag.Loyal) (hd : Sound hash genesis dag)
    (ha : Attempt hash it vx dag dag') : dag'.Loyal :=
  .keeps hd (.of_attempt hd ha) fun c hc => hL c (accepted_of_attempt hd ha hc)

/-- A submission keeps all opinions. -/
theorem Loyal.submit (hL : dag.Loyal) (hd : Sound hash genesis dag)
    {resp : Except (Error H) (HashSet H)}
    (h : dag.submitVertex hash it vx = some (resp, dag')) : dag.Keeps dag' ∧ dag'.Loyal := by
  obtain ⟨dag₁, ha, hr⟩ := submitVertex_cases h
  refine (hr.induct (P := fun t => dag.Keeps t ∧ t.Loyal) (ha.sound hd)
    ⟨.of_attempt hd ha, hL.attempt hd ha⟩ fun s _ _ t hs hP _ ha => ?_).2
  exact ⟨hP.1.trans (.of_attempt hs ha), hP.2.attempt hs ha⟩

end DAG

/-- The votes on constraints of which none is against another reject none of these, and accept no
others. -/
theorem decisionOf_loop {U : Constraint H → Prop} {l : List (Constraint H)}
    (hU : ∀ c d, U c → U d → ¬ dag.graph.constraintGraph.Against c d)
    (hl : ∀ c ∈ l, U c ∧ dag.graph.Registered c)
    (hd : Sound hash genesis { dag with state := s })
    (h : l.foldlM (dag.recordConstraint it true) s = some t) (d : Constraint H) :
    (U d → decisionOf t d = decisionOf s d ∨ d ∈ l ∧ decisionOf t d = some true) ∧
      (¬ U d → decisionOf t d = decisionOf s d ∨ decisionOf t d = some false) := by
  induction l generalizing s with
  | nil =>
    cases h
    exact ⟨fun _ => Or.inl rfl, fun _ => Or.inl rfl⟩
  | cons c l ih =>
    obtain ⟨u, hu, h⟩ := foldlM_cons_eq_some.mp h
    obtain ⟨hUc, hreg⟩ := hl c List.mem_cons_self
    obtain ⟨u', hu', hshape, hacc, hrest⟩ := voteFor_spec it dag.config hd.shaped hd.stores
      hd.card_le (hd.stores.mem_of_registered hreg)
    cases hu.symm.trans hu'
    have hdec : decisionOf u = decisionOf s ∨
        decisionOf u = dag.graph.constraintGraph.accepted (decisionOf s) c := by
      by_cases ha : Accepts dag.config s c
      · exact Or.inr (hacc ha)
      · exact Or.inl (hrest ha)
    have hdu : Sound hash genesis { dag with state := u } :=
      hd.vote hshape (hdec.imp_right fun h => ⟨c, hreg, h⟩)
    obtain ⟨hin, hout⟩ := ih (fun e he => hl e (.tail c he)) hdu h
    constructor
    · intro hUd
      -- the turn of `c` decides at most `c` itself among the constraints of `U`
      have hturn : decisionOf u d = decisionOf s d ∨ d = c ∧ decisionOf u d = some true := by
        rcases hdec with hdec | hdec
        · exact Or.inl (congrFun hdec d)
        rw [hdec]
        by_cases hdc : d = c
        · subst hdc
          exact Or.inr ⟨rfl, ConflictGraph.accepted_self (hU d d hUd hUd)⟩
        · exact Or.inl (ConflictGraph.accepted_other (hU c d hUc hUd) hdc)
      rcases hin hUd with hsame | ⟨hdl, htrue⟩
      · rcases hturn with hold | ⟨rfl, htrue⟩
        · exact Or.inl (hsame.trans hold)
        · exact Or.inr ⟨List.mem_cons_self, hsame.trans htrue⟩
      · exact Or.inr ⟨.tail c hdl, htrue⟩
    · intro hUd
      have hdc : d ≠ c := by
        rintro rfl
        exact hUd hUc
      have hturn : decisionOf u d = decisionOf s d ∨ decisionOf u d = some false := by
        rcases hdec with hdec | hdec
        · exact Or.inl (congrFun hdec d)
        rw [hdec]
        by_cases hag : dag.graph.constraintGraph.Against c d
        · exact Or.inr (ConflictGraph.accepted_against hag)
        · exact Or.inl (ConflictGraph.accepted_other hag hdc)
      rcases hout hUd with hsame | hfalse
      · exact hturn.imp hsame.trans hsame.trans
      · exact Or.inr hfalse

/-- Votes on preferred constraints change no preference. -/
theorem PrefersFrom.prefers_iff {S : Constraint H → Prop} (h : PrefersFrom S s t)
    (hS : ∀ c, S c → Prefers s c) {k : ConflictSetKey H} {cs' : ConflictSet H}
    (hk : c.conflictSetKey = k) (hs : k ∈ s) (ht : t.lookup k = some cs')
    (hw : cs'.preferred.conflictSetKey = k) : Prefers t c ↔ Prefers s c := by
  obtain ⟨cs, hcs⟩ := Finmap.mem_iff.mp hs
  subst hk
  have hsame : cs'.preferred = cs.preferred := by
    rcases h _ cs' ht with hSc | ⟨cs₀, hcs₀, he⟩
    · obtain ⟨cs₁, hcs₁, hp⟩ := hS _ hSc
      rw [hw] at hcs₁
      cases hcs.symm.trans hcs₁
      exact hp.symm
    · cases hcs.symm.trans hcs₀
      exact he
  rw [Taurus.prefers_iff ht, Taurus.prefers_iff hcs, hsame]

namespace DAG

/-- A negative result changes no opinion. -/
theorem Keeps.of_negative (hd : Sound hash genesis dag) (hd' : Sound hash genesis dag')
    (hok : dag.recordQueryResult hash it w false = .ok dag') :
    dag.Keeps dag' ∧ decisionOf dag'.state = decisionOf dag.state := by
  have hgrows := DAG.Grows.of_record hd hd' hok
  obtain ⟨vx, dag₁, l, state, _, hb, hf, rfl⟩ := recordQueryResult_eq_ok.mp hok
  obtain ⟨start, active, haward, rfl, _, rfl⟩ := beginRecord_eq_some hb
  cases haward
  have hframe : ∀ d, decisionOf state d = decisionOf dag.state d ∧
      (Prefers state d ↔ Prefers dag.state d) := by
    refine foldlM_rel (R := fun s t => ∀ d, decisionOf t d = decisionOf s d ∧
      (Prefers t d ↔ Prefers s d)) (fun _ _ => ⟨rfl, Iff.rfl⟩) (fun r s t hrs hst d => ?_) _
      (fun _ _ _ _ hs => Continues.voteAgainst_frame hs) hf
    exact ⟨(hst d).1.trans (hrs d).1, (hst d).2.trans (hrs d).2⟩
  refine ⟨⟨hgrows.inserted, hgrows.conflictSets, fun c _ => (hframe c).2,
    fun c b hc => (hframe c).1.trans hc, fun c hc => ⟨?_, fun hrej => ?_⟩⟩,
    funext fun c => (hframe c).1⟩
  · exact hc.grown hd hgrows.inserted fun d _ => (hframe d).2
  · rwa [show decisionOf state c = _ from (hframe c).1]

/-- What a result updates is upheld, if its vertex is. -/
theorem Upheld.updates {l : List (Constraint H)} {dag₁ : DAG H} (hw : dag.Upheld (.unity w))
    (hd : Sound hash genesis dag) (hv : dag.pendingQuery.lookup w = some vx)
    (hb : dag.beginRecord hash it vx w b = some (dag₁, l)) : ∀ c ∈ l, dag.Upheld c := by
  obtain ⟨_, _, rfl, _, _, hup, _⟩ := beginRecord_updates hd hv hb
  intro c hc
  rcases hup c hc with rfl | ⟨hcommits, _⟩
  · exact hw
  · exact hw.above (Graph.below_of_commits hcommits).to_reflTransGen

/-- A positive result for a vertex that the graph stands by changes no opinion: it accepts only
what has been sustained before, and rejects nothing that is upheld. -/
theorem Keeps.of_positive (h : (DAG.system hash config genesis).Reachable dag) (hL : dag.Loyal)
    (hw : dag.StandsBy w) (hok : dag.recordQueryResult hash it w true = .ok dag') :
    dag.Keeps dag' ∧ dag'.Loyal := by
  have hd := sound_of_reachable h
  have hd' : Sound hash genesis dag' := sound_of_reachable (h.step trivial (show
    (DAG.system hash config genesis).step dag ⟨.recordQueryResult w true, it⟩ = some dag' by
      simp only [DAG.system, DAG.apply, hok]))
  have hgrows := DAG.Grows.of_record hd hd' hok
  obtain ⟨vx, start, cs, state, hl, hf, rfl⟩ := RecordLoop.of_ok h hok
  have hup := hw.1.1.updates hd hl.pending hl.begins
  -- awarding the chit prefers nothing
  have hstart (c : Constraint H) : Prefers start c ↔ Prefers dag.state c := by
    rcases awardIfPreferred_cases hl.award with rfl | ⟨cs, hcs, rfl⟩
    · exact Iff.rfl
    · exact prefers_insert_of_eq hcs (by rfl) c
  have hprefers (c : Constraint H) (hc : c.conflictSetKey ∈ dag.state) :
      Prefers state c ↔ Prefers dag.state c := by
    have hfrom := PrefersFrom.of_loop (S := dag.Upheld) hup hf
    obtain ⟨cs', hcs', hwf⟩ := hd'.stores.lookup (hgrows.conflictSets _ hc)
    have hkey : c.conflictSetKey ∈ start :=
      (hl.sound.stores.key_mem _).mpr ((hd.stores.key_mem _).mp hc)
    rw [← hstart]
    exact hfrom.prefers_iff (fun e he => (hstart e).mpr he.prefers) rfl hkey hcs' hwf.preferred
  have hpeace (c d : Constraint H) (hc : dag.Upheld c) (hd : dag.Upheld d) :
      ¬ (dag.recording w start).graph.constraintGraph.Against c d := hc.not_against hd
  have hdec (c : Constraint H) := decisionOf_loop hpeace
    (fun c hc => ⟨hup c hc, (hup c hc).1⟩) hl.sound hf c
  simp only [hl.decisions] at hdec
  -- a constraint that is updated has not been rejected
  have hlist (c : Constraint H) (hc : c ∈ cs ++ [Constraint.unity w]) :
      decisionOf dag.state c = none ∨ c = .unity w := by
    rcases List.mem_append.mp hc with hc | hc
    · exact Or.inl ((hl.mem_iff c).mp hc).1
    · exact Or.inr (List.mem_singleton.mp hc)
  have hunrejected (c : Constraint H) (hc : dag.Upheld c) (hrej : decisionOf dag.state c ≠ some false) :
      decisionOf state c ≠ some false := by
    rcases (hdec c).1 hc with he | ⟨_, he⟩
    · rwa [he]
    · rw [he]
      simp
  have hk : dag.Keeps { dag.recording w start with state := state } := by
    refine ⟨hgrows.inserted, hgrows.conflictSets, hprefers, fun c b hc => ?_,
      fun c hc => ⟨hc.grown hd hgrows.inserted hprefers, hunrejected c hc⟩⟩
    -- the votes accept upheld constraints alone, and reject none of them
    by_cases hUc : dag.Upheld c
    · rcases (hdec c).1 hUc with he | ⟨hcl, he⟩
      · exact he.trans hc
      · rcases hlist c hcl with hnone | rfl
        · rw [hnone] at hc
          cases hc
        · cases b with
          | true => exact he
          | false => exact absurd hc hw.2
    · have hfalse : b = false := by
        cases b with
        | false => rfl
        | true => exact absurd (hL c hc).1 hUc
      subst hfalse
      exact ((hdec c).2 hUc).elim (fun he => he.trans hc) id
  -- what is accepted now was accepted before, or is sustained as part of the ancestry
  refine ⟨hk, .keeps hd hk fun c hc => ?_⟩
  by_cases hUc : dag.Upheld c
  · rcases (hdec c).1 hUc with he | ⟨hcl, _⟩
    · exact hL c (he ▸ hc)
    · rcases hlist c hcl with hnone | rfl
      · refine ⟨hUc, fun hu p hp hf => ?_⟩
        exact hd.decided c (by simpa using hu) p hp hf hnone
      · exact hw.1
  · rcases (hdec c).2 hUc with he | he
    · exact hL c (he ▸ hc)
    · cases hc.symm.trans he

theorem StandsBy.parent_not_rejected {p : H} (hw : dag.StandsBy w)
    (hp : dag.graph.IsParent p w) : dag.decisionOn p ≠ some false :=
  hw.1.2 rfl _ (Graph.child_unity (Graph.unity_mem_commitments hp))

/-- Recording a result for a vertex that the graph stands by does not panic. -/
theorem StandsBy.record_total (hw : dag.StandsBy w) (hd : Sound hash genesis dag) (it : HashOrders H)
    (b : Bool) : dag.recordQueryResult hash it w b ≠ .panic := by
  cases hv : dag.pendingQuery.lookup w with
  | none =>
    simp only [DAG.recordQueryResult, hv]
    split_ifs <;> simp
  | some vx =>
    have hin := (hd.pending_inserted w vx hv).1
    have hnr (p : H) (hp : p ∈ vx.parents) : dag.decisionOn p ≠ some false :=
      hw.parent_not_rejected ⟨vx, hin, hp⟩
    have hg : DAG.Guarded hash (fun _ _ => True) dag ⟨.recordQueryResult w b, it⟩ :=
      fun _ _ => True.intro
    obtain ⟨dag', hok, _⟩ := Stable.trivial.record hd True.intro hv hnr hg
    rw [hok]
    simp

end DAG

end Taurus
