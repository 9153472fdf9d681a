import Mathlib.Logic.Relation
import Mathlib.Tactic.Common

namespace Taurus

open Relation

/-- Propositions ordered by a child relation, some of which come in opposite pairs. -/
structure ConflictGraph (C : Type) where
  child : C → C → Prop
  opposite : C → Option C
  opposite_symm : ∀ c o, opposite c = some o → opposite o = some c

/-- What has been decided about each proposition. -/
abbrev Verdicts (C : Type) := C → Option Bool

namespace ConflictGraph

variable {C : Type} (G : ConflictGraph C) (D : Verdicts C) (S : C → Prop) (c : C)

/-- The proposition has an opposite, so that there is something to agree on. -/
def Contestable (c : C) : Prop := (G.opposite c).isSome

/-- Everything contestable above `c` is accepted. -/
def Settled (c : C) : Prop := ∀ r, TransGen G.child r c → G.Contestable r → D r = some true

/-- Never are both of a pair accepted: the opposite of what is accepted is rejected. -/
def Exclusive : Prop := ∀ c o, G.opposite c = some o → D c = some true → D o = some false

/-- Within `S` only what is settled is accepted. -/
def SettledOn : Prop := ∀ c, S c → D c = some true → G.Settled D c

/-- Within `S` the parents of what is accepted are accepted. -/
def GroundedOn : Prop := ∀ c, S c → D c = some true → ∀ p, G.child p c → D p = some true

/-- Within `S` the children of what is rejected are rejected. -/
def InheritedOn : Prop := ∀ c, S c → ∀ p, G.child p c → D p = some false → D c = some false

/-- Within `S` the children of what is rejected are decided. -/
def DecidedOn : Prop := ∀ c, S c → ∀ p, G.child p c → D p = some false → D c ≠ none

/-- Whatever is rejected is, or is below, something contestable that is rejected. -/
def Rooted : Prop :=
  ∀ c, D c = some false → ∃ r, ReflTransGen G.child r c ∧ G.Contestable r ∧ D r = some false

/-- Whatever is rejected is, or is below, the opposite of some of the propositions `S`. -/
def CausedBy : Prop :=
  ∀ c, D c = some false → ∃ r, ReflTransGen G.child r c ∧ ∃ o, G.opposite r = some o ∧ S o

/-- Is `d` the opposite of `c`, or below it? -/
def Against (c d : C) : Prop := ∃ o, G.opposite c = some o ∧ ReflTransGen G.child o d

open Classical in
/-- The verdicts after `c` is accepted: its opposite is rejected with all its progeny. -/
noncomputable def accepted : Verdicts C := fun d =>
  if G.Against c d then some false else if d = c then some true else D d

variable {G D S c}

theorem accepted_against {d : C} (h : G.Against c d) : G.accepted D c d = some false :=
  if_pos h

theorem accepted_self (h : ¬ G.Against c c) : G.accepted D c c = some true := by
  rw [accepted, if_neg h, if_pos rfl]

theorem accepted_other {d : C} (h : ¬ G.Against c d) (hne : d ≠ c) :
    G.accepted D c d = D d := by
  rw [accepted, if_neg h, if_neg hne]

theorem Against.child {p d : C} (h : G.Against c p) (hc : G.child p d) : G.Against c d := by
  obtain ⟨o, ho, hp⟩ := h
  exact ⟨o, ho, hp.tail hc⟩

theorem Against.below {p d : C} (h : G.Against c p) (hc : TransGen G.child p d) :
    G.Against c d := by
  obtain ⟨o, ho, hp⟩ := h
  exact ⟨o, ho, hp.trans hc.to_reflTransGen⟩

/-- What comes out accepted is not against `c`, and is `c` or was accepted before. -/
theorem of_accepted_eq_true {d : C} (h : G.accepted D c d = some true) :
    ¬ G.Against c d ∧ (d = c ∨ D d = some true) := by
  unfold accepted at h
  split at h
  · cases h
  next hn =>
    split at h
    · next he => exact ⟨hn, Or.inl he⟩
    · exact ⟨hn, Or.inr h⟩

/-- What comes out rejected is against `c`, or was rejected before and is not `c`. -/
theorem of_accepted_eq_false {d : C} (h : G.accepted D c d = some false) :
    G.Against c d ∨ d ≠ c ∧ D d = some false := by
  unfold accepted at h
  split at h
  next ha => exact Or.inl ha
  split at h
  · cases h
  next hne => exact Or.inr ⟨hne, h⟩

/-- A decided verdict is never cleared. -/
theorem accepted_ne_none {d : C} (h : D d ≠ none) : G.accepted D c d ≠ none := by
  unfold accepted
  split
  · simp
  split
  · simp
  · exact h

theorem accepted_of_true {d : C} (h : D d = some true) (ha : ¬ G.Against c d) :
    G.accepted D c d = some true := by
  by_cases he : d = c
  · rw [he] at ha ⊢
    exact accepted_self ha
  · rw [accepted_other ha he, h]

theorem Exclusive.accepted (h : G.Exclusive D) : G.Exclusive (G.accepted D c) := by
  intro d o hdo hd
  obtain ⟨hna, rfl | hd⟩ := of_accepted_eq_true hd
  · exact accepted_against ⟨o, hdo, .refl⟩
  · by_cases ha : G.Against c o
    · exact accepted_against ha
    · have hne : o ≠ c := by
        rintro rfl
        exact hna ⟨d, G.opposite_symm _ _ hdo, .refl⟩
      rw [accepted_other ha hne]
      exact h d o hdo hd

theorem SettledOn.accepted (h : G.SettledOn D S) (hc : S c → G.Settled D c) :
    G.SettledOn (G.accepted D c) S := by
  intro d hS hd r hr hcr
  obtain ⟨hna, hd⟩ := of_accepted_eq_true hd
  -- what lies above `d` is not against `c` either, or `d` would be
  have hnr : ¬ G.Against c r := fun ha => hna (ha.below hr)
  refine accepted_of_true ?_ hnr
  rcases hd with rfl | hd
  · exact hc hS r hr hcr
  · exact h d hS hd r hr hcr

theorem GroundedOn.accepted (h : G.GroundedOn D S)
    (hc : S c → ∀ p, G.child p c → D p = some true) : G.GroundedOn (G.accepted D c) S := by
  intro d hS hd p hp
  obtain ⟨hna, hd⟩ := of_accepted_eq_true hd
  refine accepted_of_true ?_ fun ha => hna (ha.child hp)
  rcases hd with rfl | hd
  · exact hc hS p hp
  · exact h d hS hd p hp

theorem InheritedOn.accepted (h : G.InheritedOn D S)
    (hc : S c → ∀ p, G.child p c → D p ≠ some false) : G.InheritedOn (G.accepted D c) S := by
  intro d hS p hp hf
  by_cases ha : G.Against c d
  · exact accepted_against ha
  · rcases of_accepted_eq_false hf with hap | ⟨_, hpf⟩
    · exact absurd (hap.child hp) ha
    -- `c` itself has no rejected parent
    · have hne : d ≠ c := by
        rintro rfl
        exact hc hS p hp hpf
      rw [accepted_other ha hne]
      exact h d hS p hp hpf

theorem DecidedOn.accepted (h : G.DecidedOn D S) : G.DecidedOn (G.accepted D c) S := by
  intro d hS p hp hf
  rcases of_accepted_eq_false hf with hap | ⟨_, hf⟩
  · rw [accepted_against (hap.child hp)]
    simp
  · exact accepted_ne_none (h d hS p hp hf)

theorem Rooted.accepted (h : G.Rooted D) (hc : D c ≠ some false) : G.Rooted (G.accepted D c) := by
  intro d hf
  rcases of_accepted_eq_false hf with ⟨o, ho, hod⟩ | ⟨_, hf⟩
  -- what `c` rejects is rooted in the opposite of `c`
  · refine ⟨o, hod, ?_, accepted_against ⟨o, ho, .refl⟩⟩
    rw [Contestable, G.opposite_symm _ _ ho]
    rfl
  -- an old root stays rejected: acceptance only turns `c` around
  · obtain ⟨r, hr, hcr, hrf⟩ := h d hf
    refine ⟨r, hr, hcr, ?_⟩
    by_cases ha : G.Against c r
    · exact accepted_against ha
    · rw [accepted_other ha (fun he => hc (he ▸ hrf)), hrf]

theorem CausedBy.accepted (h : G.CausedBy D S) (hc : G.Contestable c → S c) :
    G.CausedBy (G.accepted D c) S := by
  intro d hf
  rcases of_accepted_eq_false hf with ⟨o, ho, hod⟩ | ⟨_, hf⟩
  · exact ⟨o, hod, c, G.opposite_symm _ _ ho, hc (Option.isSome_of_eq_some ho)⟩
  · exact h d hf

/-- Accepting something that is not rejected changes no verdict, if only settled propositions
were accepted before: an accepted proposition below the opposite of `c` would have needed that
opposite to be accepted, and `c` would then be rejected. -/
theorem accepted_extends (hx : G.Exclusive D) (hs : G.SettledOn D fun _ => True)
    (hc : D c ≠ some false) (d : C) (b : Bool) (hd : D d = some b) :
    G.accepted D c d = some b := by
  by_cases ha : G.Against c d
  · rw [accepted_against ha]
    cases b with
    | false => rfl
    | true =>
      obtain ⟨o, ho, hod⟩ := ha
      have hoc := G.opposite_symm _ _ ho
      -- the opposite `o` is accepted: it is `d`, or lies above `d`, which is settled
      have hot : D o = some true := by
        rcases reflTransGen_iff_eq_or_transGen.mp hod with rfl | hod
        · exact hd
        · exact hs d trivial hd o hod (by rw [Contestable, hoc]; rfl)
      exact absurd (hx o c hoc hot) hc
  · by_cases he : d = c
    · subst he
      rw [accepted_self ha]
      cases b with
      | false => exact absurd hd hc
      | true => rfl
    · rw [accepted_other ha he, hd]

end ConflictGraph

end Taurus
