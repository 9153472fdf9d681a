import Mathlib.Tactic.Common

namespace Taurus

section

variable {σ α : Type} {f : σ → α → Option σ} {s t : σ}

/-- A loop that succeeds takes its first turn, and then the others. -/
theorem foldlM_cons_eq_some {a : α} {l : List α} : (a :: l).foldlM f s = some t ↔
    ∃ r, f s a = some r ∧ l.foldlM f r = some t := by
  rw [List.foldlM_cons, Option.bind_eq_bind, Option.bind_eq_some_iff]

theorem foldlM_append_eq_some {l l' : List α} : (l ++ l').foldlM f s = some t ↔
    ∃ r, l.foldlM f s = some r ∧ l'.foldlM f r = some t := by
  rw [List.foldlM_append, Option.bind_eq_bind, Option.bind_eq_some_iff]

theorem foldlM_concat_eq_some {l : List α} {a : α} : (l ++ [a]).foldlM f s = some t ↔
    ∃ r, l.foldlM f s = some r ∧ f r a = some t := by
  simp only [foldlM_append_eq_some, foldlM_cons_eq_some, List.foldlM_nil, Option.pure_def,
    Option.some.injEq, exists_eq_right]

/-- The turn of an element lies between the turns before it and those after it. -/
theorem foldlM_turn_eq_some {before after : List α} {a : α} :
    (before ++ a :: after).foldlM f s = some t ↔
      ∃ r u, before.foldlM f s = some r ∧ f r a = some u ∧ after.foldlM f u = some t := by
  simp only [foldlM_append_eq_some, foldlM_cons_eq_some, exists_and_left]

end

/-- Initial states and a step function; `none` where the action cannot be completed. -/
structure System (σ α : Type) where
  init : σ → Prop
  step : σ → α → Option σ

namespace System

variable {σ α : Type} (sys : System σ α) (guard : σ → α → Prop)

/-- States reached by a run all of whose steps meet the guard. -/
inductive ReachableWhen : σ → Prop
  | init {s : σ} : sys.init s → ReachableWhen s
  | step {s s' : σ} {a : α} : ReachableWhen s → guard s a → sys.step s a = some s' → ReachableWhen s'

/-- States reached by any run. -/
abbrev Reachable : σ → Prop := sys.ReachableWhen fun _ _ => True

/-- From the first state the second is reached by steps that meet the guard. -/
inductive LeadsWhen : σ → σ → Prop
  | refl (s : σ) : LeadsWhen s s
  | step {s t t' : σ} {a : α} : LeadsWhen s t → guard t a → sys.step t a = some t' → LeadsWhen s t'

/-- What holds initially and is kept by every guarded step holds in every state of
every guarded run. The step may use that its state is itself reachable. -/
theorem ReachableWhen.invariant {sys : System σ α} {guard : σ → α → Prop} {P : σ → Prop}
    (hinit : ∀ s, sys.init s → P s)
    (hstep : ∀ s a s', sys.ReachableWhen guard s → P s → guard s a → sys.step s a = some s' → P s')
    {s : σ} (h : sys.ReachableWhen guard s) : P s := by
  induction h with
  | init hs => exact hinit _ hs
  | step hr hg hs ih => exact hstep _ _ _ hr ih hg hs

theorem ReachableWhen.mono {sys : System σ α} {guard guard' : σ → α → Prop}
    (hg : ∀ s a, guard s a → guard' s a) {s : σ} (h : sys.ReachableWhen guard s) :
    sys.ReachableWhen guard' s := by
  induction h with
  | init hs => exact .init hs
  | step _ h hs ih => exact .step ih (hg _ _ h) hs

theorem LeadsWhen.mono {sys : System σ α} {guard guard' : σ → α → Prop}
    (hg : ∀ s a, guard s a → guard' s a) {s t : σ} (h : sys.LeadsWhen guard s t) :
    sys.LeadsWhen guard' s t := by
  induction h with
  | refl => exact .refl _
  | step _ h hs ih => exact .step ih (hg _ _ h) hs

theorem ReachableWhen.reachable {sys : System σ α} {guard : σ → α → Prop} {s : σ}
    (h : sys.ReachableWhen guard s) : sys.Reachable s :=
  h.mono fun _ _ _ => trivial

theorem LeadsWhen.trans {sys : System σ α} {guard : σ → α → Prop} {s t u : σ}
    (hst : sys.LeadsWhen guard s t) (htu : sys.LeadsWhen guard t u) : sys.LeadsWhen guard s u := by
  induction htu with
  | refl => exact hst
  | step _ hg hs ih => exact .step ih hg hs

/-- What every guarded step relates, a whole run relates. -/
theorem LeadsWhen.rel {sys : System σ α} {guard : σ → α → Prop} {R : σ → σ → Prop}
    (hrefl : ∀ s, R s s) (htrans : ∀ s t u, R s t → R t u → R s u) {s t : σ}
    (hs : sys.ReachableWhen guard s)
    (hstep : ∀ r a r', sys.ReachableWhen guard r → guard r a → sys.step r a = some r' → R r r')
    (h : sys.LeadsWhen guard s t) : R s t ∧ sys.ReachableWhen guard t := by
  induction h with
  | refl => exact ⟨hrefl _, hs⟩
  | step _ hg hs' ih => exact ⟨htrans _ _ _ ih.1 (hstep _ _ _ ih.2 hg hs'), .step ih.2 hg hs'⟩

/-- A run from a reachable state stays within the reachable states. -/
theorem ReachableWhen.leads {sys : System σ α} {guard : σ → α → Prop} {s t : σ}
    (h : sys.ReachableWhen guard s) (hl : sys.LeadsWhen guard s t) :
    sys.ReachableWhen guard t := by
  induction hl with
  | refl => exact h
  | step _ hg hs ih => exact .step ih hg hs

/-- Simulation: a map that takes initial states to reachable ones, and each step to a run, takes
reachable states to reachable ones. -/
theorem ReachableWhen.simulate {τ β : Type} {sys : System σ α} {sys' : System τ β}
    {guard : σ → α → Prop} {guard' : τ → β → Prop} (view : σ → τ)
    (hinit : ∀ s, sys.init s → sys'.ReachableWhen guard' (view s))
    (hstep : ∀ s a s', sys.ReachableWhen guard s → guard s a → sys.step s a = some s' →
      sys'.LeadsWhen guard' (view s) (view s'))
    {s : σ} (h : sys.ReachableWhen guard s) : sys'.ReachableWhen guard' (view s) := by
  induction h with
  | init hs => exact hinit _ hs
  | step hr hg hs ih => exact ih.leads (hstep _ _ _ hr hg hs)

/-- One guarded step; the state after it comes first. -/
def Next (t s : σ) : Prop := ∃ a, guard s a ∧ sys.step s a = some t

/-- Where no guarded run goes on forever, every state leads to one in which no step is possible. -/
theorem exists_stuck {sys : System σ α} {guard : σ → α → Prop}
    (hwf : WellFounded (sys.Next guard)) (s : σ) :
    ∃ t, sys.LeadsWhen guard s t ∧ ∀ a, guard t a → sys.step t a = none := by
  induction s using hwf.induction with
  | _ s ih =>
    by_cases hnext : ∃ t, sys.Next guard t s
    · obtain ⟨t, a, hg, hs⟩ := hnext
      obtain ⟨u, hl, hu⟩ := ih t ⟨a, hg, hs⟩
      have hfirst : sys.LeadsWhen guard s t := .step (.refl s) hg hs
      exact ⟨u, hfirst.trans hl, hu⟩
    · refine ⟨s, .refl s, fun a hg => ?_⟩
      cases hs : sys.step s a with
      | none => rfl
      | some t => exact (hnext ⟨t, a, hg, hs⟩).elim

/-- Runs with their past: the actions taken, each with the state it was taken in, the last
one first. -/
inductive Run : List (σ × α) → σ → Prop
  | init {s : σ} : sys.init s → Run [] s
  | step {past : List (σ × α)} {s s' : σ} {a : α} :
      Run past s → sys.step s a = some s' → Run ((s, a) :: past) s'

/-- What a run has reached is reached by steps of its past. -/
theorem Run.reachableWhen {sys : System σ α} {past : List (σ × α)} {s : σ} (h : sys.Run past s) :
    sys.ReachableWhen (fun s a => (s, a) ∈ past) s := by
  induction h with
  | init hs => exact .init hs
  | step _ hs ih =>
    exact .step (ih.mono fun _ _ hm => List.mem_cons_of_mem _ hm) List.mem_cons_self hs

theorem Run.reachable {sys : System σ α} {past : List (σ × α)} {s : σ} (h : sys.Run past s) :
    sys.Reachable s := h.reachableWhen.reachable

theorem ReachableWhen.exists_run {sys : System σ α} {guard : σ → α → Prop} {s : σ}
    (h : sys.ReachableWhen guard s) : ∃ past, sys.Run past s := by
  induction h with
  | init hs => exact ⟨[], .init hs⟩
  | step _ _ hs ih =>
    obtain ⟨past, hr⟩ := ih
    exact ⟨_, .step hr hs⟩

/-- A run up to some step of its past is a run. -/
theorem Run.before {sys : System σ α} {later past : List (σ × α)} {s t : σ} {a : α}
    (h : sys.Run (later ++ (t, a) :: past) s) : sys.Run past t ∧ ∃ t', sys.step t a = some t' := by
  induction later generalizing s with
  | nil =>
    cases h with
    | step hr hs => exact ⟨hr, _, hs⟩
  | cons _ later ih =>
    cases h with
    | step hr _ => exact ih hr

/-- What a run has gone through leads on to what it has reached. -/
theorem Run.leads_of_mem {sys : System σ α} {past : List (σ × α)} {s t : σ} {a : α}
    (h : sys.Run past t) (hs : (s, a) ∈ past) :
    sys.Reachable s ∧ sys.LeadsWhen (fun _ _ => True) s t := by
  induction h with
  | init => cases hs
  | step hr hstep ih =>
    rcases List.mem_cons.mp hs with he | hs
    · cases he
      exact ⟨hr.reachable, .step (.refl _) trivial hstep⟩
    · obtain ⟨hreach, hl⟩ := ih hs
      exact ⟨hreach, .step hl trivial hstep⟩

/-- A run goes on with any actions that can be completed. -/
theorem Run.extend {sys : System σ α} {past : List (σ × α)} {s t : σ} (h : sys.Run past s)
    (actions : List α) (hr : actions.foldlM sys.step s = some t) :
    ∃ later, sys.Run (later ++ past) t ∧ later.map Prod.snd = actions.reverse := by
  induction actions generalizing past s with
  | nil =>
    cases hr
    exact ⟨[], h, rfl⟩
  | cons a actions ih =>
    obtain ⟨s', hs, hr⟩ := foldlM_cons_eq_some.mp hr
    obtain ⟨later, hrun, hl⟩ := ih (.step h hs) hr
    refine ⟨later ++ [(s, a)], ?_, ?_⟩
    · rwa [List.append_assoc, List.singleton_append]
    · rw [List.map_append, hl, List.reverse_cons]
      rfl

/-- The state after a list of actions, if each meets the guard and can be completed. -/
def runWhen [∀ s a, Decidable (guard s a)] (s : σ) (actions : List α) : Option σ :=
  actions.foldlM (fun s a => if guard s a then sys.step s a else none) s

theorem ReachableWhen.run {sys : System σ α} {guard : σ → α → Prop}
    [∀ s a, Decidable (guard s a)] {s t : σ} (h : sys.ReachableWhen guard s) (actions : List α)
    (hr : sys.runWhen guard s actions = some t) : sys.ReachableWhen guard t := by
  induction actions generalizing s with
  | nil =>
    cases hr
    exact h
  | cons a actions ih =>
    obtain ⟨s', hs, hr⟩ := foldlM_cons_eq_some.mp hr
    split at hs
    · next hg => exact ih (.step h hg hs) hr
    · cases hs

theorem LeadsWhen.run {sys : System σ α} {guard : σ → α → Prop}
    [∀ s a, Decidable (guard s a)] {s t u : σ} (h : sys.LeadsWhen guard s t) (actions : List α)
    (hr : sys.runWhen guard t actions = some u) : sys.LeadsWhen guard s u := by
  induction actions generalizing t with
  | nil =>
    cases hr
    exact h
  | cons a actions ih =>
    obtain ⟨t', hs, hr⟩ := foldlM_cons_eq_some.mp hr
    split at hs
    · next hg => exact ih (.step h hg hs) hr
    · cases hs

end System

/-- The states in which a fold processes the elements of a list, each with its element. -/
def loopStates {σ α : Type} (f : σ → α → Option σ) : σ → List α → List (σ × α)
  | _, [] => []
  | s, a :: l => (s, a) :: match f s a with
    | some s' => loopStates f s' l
    | none => []

/-- Loop rule: a body that succeeds under the invariant, and keeps it, makes the
loop succeed. -/
theorem foldlM_total {σ α : Type} {f : σ → α → Option σ} {P : σ → Prop} (l : List α) (s : σ)
    (hs : P s) (hbody : ∀ r, ∀ a ∈ l, P r → ∃ r', f r a = some r' ∧ P r') :
    ∃ t, l.foldlM f s = some t ∧ P t := by
  induction l generalizing s with
  | nil => exact ⟨s, rfl, hs⟩
  | cons a l ih =>
    obtain ⟨s', hs', hP⟩ := hbody s a (by simp) hs
    obtain ⟨t, ht, hPt⟩ := ih s' hP fun r a' ha' => hbody r a' (by simp [ha'])
    exact ⟨t, foldlM_cons_eq_some.mpr ⟨s', hs', ht⟩, hPt⟩

/-- A turn of a loop starts in the state that the elements before it have led to. -/
theorem exists_of_mem_loopStates {σ α : Type} {f : σ → α → Option σ} {l : List α} {s : σ}
    {v : σ × α} (h : v ∈ loopStates f s l) :
    ∃ before after, l = before ++ v.2 :: after ∧ before.foldlM f s = some v.1 := by
  induction l generalizing s with
  | nil => cases h
  | cons a l ih =>
    rw [loopStates, List.mem_cons] at h
    rcases h with rfl | h
    · exact ⟨[], l, rfl, rfl⟩
    · cases hs : f s a with
      | none => simp [hs] at h
      | some s' =>
        rw [hs] at h
        obtain ⟨before, after, hl, hb⟩ := ih h
        exact ⟨a :: before, after, by rw [hl, List.cons_append],
          foldlM_cons_eq_some.mpr ⟨s', hs, hb⟩⟩

/-- What each turn of a loop relates, the whole loop relates. A turn may use that its state is
one of the loop. -/
theorem foldlM_rel_of_mem {σ α : Type} {f : σ → α → Option σ} {R : σ → σ → Prop}
    (hrefl : ∀ s, R s s) (htrans : ∀ s t u, R s t → R t u → R s u) (l : List α) {s t : σ}
    (hbody : ∀ v ∈ loopStates f s l, ∀ t, f v.1 v.2 = some t → R v.1 t)
    (h : l.foldlM f s = some t) : R s t := by
  induction l generalizing s with
  | nil =>
    cases h
    exact hrefl _
  | cons a l ih =>
    obtain ⟨r, hr, h⟩ := foldlM_cons_eq_some.mp h
    rw [loopStates, hr] at hbody
    exact htrans s r t (hbody (s, a) List.mem_cons_self r hr)
      (ih (fun v hv => hbody v (List.mem_cons_of_mem _ hv)) h)

theorem foldlM_rel {σ α : Type} {f : σ → α → Option σ} {R : σ → σ → Prop} (hrefl : ∀ s, R s s)
    (htrans : ∀ s t u, R s t → R t u → R s u) (l : List α)
    (hbody : ∀ s, ∀ a ∈ l, ∀ t, f s a = some t → R s t) {s t : σ} (h : l.foldlM f s = some t) :
    R s t := by
  refine foldlM_rel_of_mem hrefl htrans l (fun v hv r hr => ?_) h
  obtain ⟨before, after, hl, _⟩ := exists_of_mem_loopStates hv
  exact hbody v.1 v.2 (by rw [hl]; exact List.mem_append_right _ List.mem_cons_self) r hr

/-- Each turn of a loop that ends is found among its states. -/
theorem mem_loopStates {σ α : Type} {f : σ → α → Option σ} {before after : List α} {a : α} {s t : σ}
    (h : before.foldlM f s = some t) : (t, a) ∈ loopStates f s (before ++ a :: after) := by
  induction before generalizing s with
  | nil =>
    cases h
    exact List.mem_cons_self
  | cons b before ih =>
    obtain ⟨r, hr, h⟩ := foldlM_cons_eq_some.mp h
    rw [List.cons_append, loopStates, hr]
    exact List.mem_cons_of_mem _ (ih h)

end Taurus
