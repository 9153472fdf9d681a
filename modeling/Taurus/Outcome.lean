import Mathlib.Data.List.Forall2
import Mathlib.Tactic.Common

namespace Taurus

/-- How a call ends: with a value, with an error handed to the caller, or in a panic. -/
inductive Outcome (ε α : Type) where
  | ok (a : α)
  | err (e : ε)
  | panic
deriving DecidableEq, Repr

namespace Outcome

variable {ε α β : Type}

def bind (x : Outcome ε α) (f : α → Outcome ε β) : Outcome ε β :=
  match x with
  | ok a => f a
  | err e => err e
  | panic => panic

instance : Monad (Outcome ε) where
  pure := ok
  bind := bind

instance : LawfulMonad (Outcome ε) := LawfulMonad.mk' _
  (fun x => by cases x <;> rfl)
  (fun _ _ => rfl)
  (fun x _ _ => by cases x <;> rfl)

/-- An index, an `unwrap` or an `expect`: panics where there is nothing. -/
def ofOption : Option α → Outcome ε α
  | some a => ok a
  | none => panic

instance : MonadLift Option (Outcome ε) := ⟨ofOption⟩

/-- `Result::unwrap`; `none` is the panic. -/
def unwrap : Outcome ε α → Option α
  | ok a => some a
  | _ => none

@[simp] theorem pure_def (a : α) : (pure a : Outcome ε α) = ok a := rfl
@[simp] theorem ok_bind (a : α) (f : α → Outcome ε β) : (ok a >>= f) = f a := rfl
@[simp] theorem err_bind (e : ε) (f : α → Outcome ε β) : (err e >>= f) = err e := rfl
@[simp] theorem panic_bind (f : α → Outcome ε β) : ((panic : Outcome ε α) >>= f) = panic := rfl
@[simp] theorem lift_some (a : α) : (liftM (some a) : Outcome ε α) = ok a := rfl
@[simp] theorem lift_none : (liftM (none : Option α) : Outcome ε α) = panic := rfl

@[simp] theorem unwrap_eq_some (x : Outcome ε α) (a : α) : x.unwrap = some a ↔ x = ok a := by
  cases x <;> simp [unwrap]

/-- A computation that succeeds ran each of its parts to success. -/
theorem bind_eq_ok (x : Outcome ε α) (f : α → Outcome ε β) (b : β) :
    (x >>= f) = ok b ↔ ∃ a, x = ok a ∧ f a = ok b := by
  cases x <;> simp

theorem lift_eq_ok (o : Option α) (a : α) : (liftM o : Outcome ε α) = ok a ↔ o = some a := by
  cases o <;> simp

theorem mapM_eq_ok (f : α → Outcome ε β) (l : List α) (bs : List β) :
    l.mapM f = ok bs ↔ List.Forall₂ (fun a b => f a = ok b) l bs := by
  induction l generalizing bs with
  | nil => cases bs <;> simp
  | cons a l ih =>
    rw [List.mapM_cons]
    cases ha : f a with
    | ok b => cases bs <;> simp [bind_eq_ok, ih, ha, and_comm, @eq_comm _ b]
    | err e => cases bs <;> simp [ha]
    | panic => cases bs <;> simp [ha]

/-- If every element either succeeds or gives the error `e`, and one of them
gives it, mapping the list gives `e`. -/
theorem mapM_eq_err (f : α → Outcome ε β) (l : List α) (e : ε)
    (h : ∀ a ∈ l, f a = err e ∨ ∃ b, f a = ok b) (he : ∃ a ∈ l, f a = err e) :
    l.mapM f = err e := by
  induction l with
  | nil => simp at he
  | cons a l ih =>
    rw [List.mapM_cons]
    rcases h a (by simp) with ha | ⟨b, ha⟩
    · rw [ha]; rfl
    · have he' : ∃ a' ∈ l, f a' = err e := by
        obtain ⟨a', ha', hf⟩ := he
        rcases List.mem_cons.mp ha' with rfl | ha'
        · rw [ha] at hf; cases hf
        · exact ⟨a', ha', hf⟩
      rw [ha, ok_bind, ih (fun a' ha' => h a' (by simp [ha'])) he']
      rfl

theorem filterM_total (p : α → Outcome ε Bool) (q : α → Bool) (l : List α)
    (h : ∀ a ∈ l, p a = ok (q a)) : l.filterM p = ok (l.filter q) := by
  have haux (acc : List α) : l.filterAuxM p acc = ok ((l.filter q).reverse ++ acc) := by
    induction l generalizing acc with
    | nil => rfl
    | cons a l ih =>
      rw [List.filterAuxM, h a (by simp), ok_bind, ih fun a' ha' => h a' (by simp [ha'])]
      cases hq : q a <;> simp [hq]
  rw [List.filterM, haux, ok_bind]
  simp

theorem allM_total (p : α → Outcome ε Bool) (q : α → Bool) (l : List α)
    (h : ∀ a ∈ l, p a = ok (q a)) : l.allM p = ok (l.all q) := by
  induction l with
  | nil => rfl
  | cons a l ih =>
    rw [List.allM, h a (by simp), List.all_cons, ok_bind]
    cases q a
    · rfl
    · exact ih fun a' ha' => h a' (by simp [ha'])

theorem mapM_of_ok (f : α → Outcome ε β) (g : α → β) (l : List α) (h : ∀ a ∈ l, f a = ok (g a)) :
    l.mapM f = ok (l.map g) := by
  rw [mapM_eq_ok, List.forall₂_map_right_iff, List.forall₂_same]
  exact h

end Outcome

theorem mapM_eq_map {α β : Type} (f : α → Option β) (g : α → β) (l : List α)
    (h : ∀ a ∈ l, f a = some (g a)) : l.mapM f = some (l.map g) := by
  induction l with
  | nil => rfl
  | cons a l ih =>
    rw [List.mapM_cons, h a (by simp), ih fun a' ha' => h a' (by simp [ha'])]
    rfl

/-- A test that never panics may be run over a list as a pure one. -/
theorem anyM_eq_any {α : Type} (f : α → Option Bool) (g : α → Bool) (l : List α)
    (h : ∀ a ∈ l, f a = some (g a)) : l.anyM f = some (l.any g) := by
  induction l with
  | nil => rfl
  | cons a l ih =>
    rw [List.anyM, h a (by simp), List.any_cons]
    cases g a
    · exact ih fun a' ha' => h a' (by simp [ha'])
    · rfl

theorem filterM_eq_filter {α : Type} (f : α → Option Bool) (g : α → Bool) (l : List α)
    (h : ∀ a ∈ l, f a = some (g a)) : l.filterM f = some (l.filter g) := by
  have haux (acc : List α) : l.filterAuxM f acc = some ((l.filter g).reverse ++ acc) := by
    induction l generalizing acc with
    | nil => rfl
    | cons a l ih =>
      rw [List.filterAuxM, h a (by simp), Option.bind_eq_bind, Option.bind_some,
        ih fun a' ha' => h a' (by simp [ha'])]
      cases hg : g a <;> simp [hg]
  rw [List.filterM, haux, Option.bind_eq_bind, Option.bind_some]
  simp

theorem allM_eq_all {α : Type} (f : α → Option Bool) (g : α → Bool) (l : List α)
    (h : ∀ a ∈ l, f a = some (g a)) : l.allM f = some (l.all g) := by
  induction l with
  | nil => rfl
  | cons a l ih =>
    rw [List.allM, h a (by simp), List.all_cons]
    cases g a
    · rfl
    · exact ih fun a' ha' => h a' (by simp [ha'])

end Taurus
