import Taurus.Bookkeeping
import Taurus.Confidence
import Taurus.Stored
import Taurus.Validity

namespace Taurus

variable {H : Type} [LinearOrder H] {hash : Vertex H → H} {it : HashOrders H} {config : Config}
  {genesis vx : Vertex H} {dag dag' dag'' : DAG H} {w : H} {b : Bool}

/-- Rule for runs that go on: what each attempt to insert a vertex relates, and each recorded
result, they relate. -/
theorem leads_induct {R : DAG H → DAG H → Prop} (hrefl : ∀ s, R s s)
    (htrans : ∀ s t u, R s t → R t u → R s u)
    (hattempt : ∀ it vx s t, Sound hash genesis s → Attempt hash it vx s t → R s t)
    (hrecord : ∀ it w b s t, Sound hash genesis s → Sound hash genesis t →
      s.recordQueryResult hash it w b = .ok t → R s t)
    (h : (DAG.system hash config genesis).Reachable dag)
    (hl : (DAG.system hash config genesis).LeadsWhen (fun _ _ => True) dag dag') : R dag dag' := by
  refine (hl.rel hrefl htrans h fun s call t hs _ hstep => ?_).1
  have hd : Sound hash genesis s := sound_of_reachable hs
  have hd' : Sound hash genesis t := sound_of_reachable (.step hs trivial hstep)
  -- a retry is a row of attempts, and a refused result changes nothing
  rcases apply_cases hstep with ⟨vx, _, ha⟩ | ⟨hashes, _, hret⟩ | ⟨w, b, _, ⟨_, rfl⟩ | hok⟩
  · exact hattempt _ vx s t hd ha
  · exact (hret.induct (P := R s) hd (hrefl s) fun r _ vx t hr hP _ ha =>
      htrans s r t hP (hattempt _ vx r t hr ha)).2
  · exact hrefl _
  · exact hrecord _ w b s t hd hd' hok

/-- The second graph has kept what the first one holds: vertices, inserted or waiting, with their
known children; conflict sets with the parents and chits in them, and the fact of a decision. What
was recorded does not become pending again. -/
structure DAG.Grows (dag dag' : DAG H) : Prop where
  inserted : dag.graph.Within dag'.graph
  known : ∀ h ∈ dag.vertex, h ∈ dag'.vertex
  listed : ∀ p s, dag.children.lookup p = some s →
    ∃ s', dag'.children.lookup p = some s' ∧ s ⊆ s'
  conflictSets : ∀ k ∈ dag.state, k ∈ dag'.state
  parents : ∀ c s, parentsOf dag.state c = some s → parentsOf dag'.state c = some s
  chits : ∀ c, chitOf dag.state c = some true → chitOf dag'.state c = some true
  decided : NeverClears dag.state dag'.state
  recorded : ∀ h ∈ dag.graph, h ∉ dag.pendingQuery → h ∉ dag'.pendingQuery

namespace DAG.Grows

theorem refl (dag : DAG H) : dag.Grows dag where
  inserted _ _ h := h
  known _ h := h
  listed _ s h := ⟨s, h, subset_rfl⟩
  conflictSets _ h := h
  parents _ _ h := h
  chits _ h := h
  decided _ h := h
  recorded _ _ h := h

theorem trans (h : dag.Grows dag') (h' : dag'.Grows dag'') : dag.Grows dag'' where
  inserted k v hv := h'.inserted k v (h.inserted k v hv)
  known k hk := h'.known k (h.known k hk)
  listed p s hs := by
    obtain ⟨s', hs', hsub⟩ := h.listed p s hs
    obtain ⟨s'', hs'', hsub'⟩ := h'.listed p s' hs'
    exact ⟨s'', hs'', hsub.trans hsub'⟩
  conflictSets k hk := h'.conflictSets k (h.conflictSets k hk)
  parents c s hs := h'.parents c s (h.parents c s hs)
  chits c hc := h'.chits c (h.chits c hc)
  decided := h.decided.trans h'.decided
  recorded k hk hn := h'.recorded k (h.inserted.mem hk) (h.recorded k hk hn)

/-- Listing a vertex with its parents takes no child from any list. -/
theorem listed_mapChild_of {children : HashMap H (HashSet H)} {vhash : H} {parents : List H} {p : H}
    {s : HashSet H} (hs : children.lookup p = some s) :
    ∃ s', (DAG.mapChild children vhash parents).lookup p = some s' ∧ s ⊆ s' := by
  rw [lookup_mapChild, hs]
  split
  · exact ⟨_, rfl, Finset.subset_insert vhash s⟩
  · exact ⟨s, rfl, subset_rfl⟩

theorem of_attempt (hd : Sound hash genesis dag) (ha : Attempt hash it vx dag dag') :
    dag.Grows dag' := by
  have hg := ha.grown
  have he := Enrolls.of_attempt hd ha
  have hkeep {V : Type} {field : ConflictSet H → HashMap (Constraint H) V}
      (hf : ∀ cs ch, field { cs with children := ch } = field cs) {c : Constraint H} {v : V}
      (hc : entry field dag.state c = some v) : entry field dag'.state c = some v := by
    rw [hg.entry_eq hf (mem_of_entry hc), hc]
  have hlisted (p : H) (s : HashSet H) (hs : dag.children.lookup p = some s) :
      ∃ s', dag'.children.lookup p = some s' ∧ s ⊆ s' := by
    obtain ⟨_, ht⟩ := ha.tried hd
    cases ht with
    | refused hc =>
      rcases hc.park_cases with hp | ⟨_, _, hp⟩
      · rw [hp]
        exact ⟨s, hs, subset_rfl⟩
      · rw [hp]
        exact listed_mapChild_of hs
    | inserted _ hi _ =>
      rw [hi.children]
      -- a list of its own the vertex gets only if it has none yet
      refine listed_mapChild_of ?_
      rw [HashMap.lookup_tryInsert, if_neg, hs]
      rintro ⟨rfl, hn⟩
      exact hn (Finmap.mem_of_lookup_eq_some hs)
  refine ⟨(Continues.of_attempt hd ha).within, fun k hk => ?_, hlisted, fun k hk => ?_, fun c s => hkeep fun _ _ => rfl,
    fun c => hkeep fun _ _ => rfl, fun c hc => ?_, fun k hk hn => ?_⟩
  · rcases ha.vertex_cases hd with hv | hv
    · rwa [hv]
    · rw [hv]
      exact Finmap.mem_insert.mpr (Or.inr hk)
  · obtain ⟨cs, hcs⟩ := Finmap.mem_iff.mp hk
    obtain ⟨ch, hch⟩ := hg.kept k cs hcs
    exact Finmap.mem_of_lookup_eq_some hch
  · obtain ⟨d, hdec⟩ := Option.ne_none_iff_exists'.mp hc
    have hdec' : decisionOf dag'.state c = some d := hkeep (fun _ _ => rfl) hdec
    rw [hdec']
    exact Option.some_ne_none d
  · rw [he.pending_iff]
    rintro (hp | ⟨_, hnot⟩)
    · exact hn hp
    · exact hnot hk

theorem of_record (hd : Sound hash genesis dag) (hd' : Sound hash genesis dag')
    (hok : dag.recordQueryResult hash it w b = .ok dag') : dag.Grows dag' := by
  have hparents := parentsOf_record hok
  obtain ⟨state', rfl⟩ := record_eq_recording hok
  obtain ⟨vx, dag₁, cs, state, _, hb, hf, heq⟩ := recordQueryResult_eq_ok.mp hok
  obtain ⟨state₀, _, haward, rfl, _, _⟩ := beginRecord_eq_some hb
  have hstate : state' = state := congrArg DAG.state heq
  subst hstate
  refine ⟨fun _ _ hv => hv, fun _ hk => hk, fun _ s hs => ⟨s, hs, subset_rfl⟩, fun k hk => ?_,
    fun c s hs => (hparents c).trans hs, fun c hc => ?_,
    (NeverClears.awardIfPreferred haward).trans (NeverClears.loop hf), fun k _ hn hp => ?_⟩
  · exact (hd'.stores.key_mem k).mpr ((hd.stores.key_mem k).mp hk)
  -- the votes on the ancestry leave the chits alone; only the award before them adds one
  · refine (SameChits.loop hf c).mpr ?_
    cases b with
    | true => exact (chitOf_award haward c).mpr (Or.inr hc)
    | false =>
      cases haward
      exact hc
  · exact hn (Finmap.mem_erase.mp hp).2

theorem of_leads (h : (DAG.system hash config genesis).Reachable dag)
    (hl : (DAG.system hash config genesis).LeadsWhen (fun _ _ => True) dag dag') :
    dag.Grows dag' :=
  leads_induct refl (fun _ _ _ => trans) (fun _ _ _ _ hd ha => of_attempt hd ha)
    (fun _ _ _ _ _ hd hd' hok => of_record hd hd' hok) h hl

end DAG.Grows

end Taurus
