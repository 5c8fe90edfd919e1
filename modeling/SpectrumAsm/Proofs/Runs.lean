/-
What a run of a walk or of a step does to the state.

A relation is kept by a program of the two monads when every run of it leads from a state to a related one,
also if it stops at a fault. For a preorder this is closed under everything programs are put together with.
-/
import Mathlib.Order.Defs.Unbundled
import SpectrumAsm.Assembly

namespace SpectrumAsm

open Step

variable {α β : Type} {R : Assembly → Assembly → Prop}

/-- Every run of a walk leads to a state related to the one it began in. -/
def Walk.Keeps (R : Assembly → Assembly → Prop) (x : Walk α) : Prop := ∀ a, R a (x.run a).2

/-- Every run of a step leads to a state related to the one it began in, also if it stops at a
fault. -/
def Step.Keeps (R : Assembly → Assembly → Prop) (x : Step α) : Prop := ∀ a, R a (x.run.run a).2

/-! ## Single runs -/

theorem Walk.run_bind (x : Walk α) (f : α → Walk β) (a : Assembly) :
    (x >>= f).run a = (f (x.run a).1).run (x.run a).2 := rfl

theorem Step.run_bind (x : Step α) (f : α → Step β) (a : Assembly) :
    (x >>= f).run.run a = match x.run.run a with
      | (.ok v, b) => (f v).run.run b
      | (.error fault, b) => (.error fault, b) := by
  rw [ExceptT.run_bind, StateT.run_bind]
  obtain ⟨outcome | v, b⟩ := x.run.run a <;> rfl

variable {x : Step α} {f : α → Step β}

theorem Step.run_bind_ok {a b : Assembly} {v : α}
    (h : x.run.run a = (.ok v, b)) : (x >>= f).run.run a = (f v).run.run b := by
  rw [run_bind, h]

theorem Step.run_bind_error {a b : Assembly} {fault : Fault}
    (h : x.run.run a = (.error fault, b)) : (x >>= f).run.run a = (.error fault, b) := by
  rw [run_bind, h]

theorem Step.run_bind_inv {a b : Assembly} {w : β}
    (h : (x >>= f).run.run a = (.ok w, b)) : ∃ v c, x.run.run a = (.ok v, c) ∧ (f v).run.run c = (.ok w, b) := by
  rcases hx : x.run.run a with ⟨fault | v, c⟩
  · rw [run_bind_error hx] at h
    cases h
  · exact ⟨v, c, rfl, (run_bind_ok hx).symm.trans h⟩

@[simp] theorem Step.run_get (a : Assembly) : (get : Step Assembly).run.run a = (.ok a, a) := rfl

@[simp] theorem Step.run_modify (f : Assembly → Assembly) (a : Assembly) :
    (modify f : Step Unit).run.run a = (.ok (), f a) := rfl

@[simp] theorem Step.run_of (f : Assembly → Except Fault α × Assembly) (a : Assembly) : (of f).run.run a = f a := rfl

@[simp] theorem Step.run_ofExcept (x : Except Fault α) (a : Assembly) : (ofExcept x : Step α).run.run a = (x, a) := by
  cases x <;> rfl

theorem Step.run_ofExcept_bind (x : Except Fault α) (f : α → Step β) (a : Assembly) :
    (ofExcept x >>= f).run.run a = match x with
      | .ok v => (f v).run.run a
      | .error fault => (.error fault, a) := by
  rw [run_bind, run_ofExcept]
  cases x <;> rfl

@[simp] theorem Step.run_attempt (x : Step α) (a : Assembly) :
    x.attempt.run.run a = (.ok (x.run.run a).1, (x.run.run a).2) := rfl

theorem run_reporting (x : Step Unit) (a : Assembly) :
    (reporting x).run a = match x.run.run a with
      | (.ok (), b) => ((), b)
      | (.error fault, b) => ((), b.report fault) := by
  unfold reporting
  rw [StateT.run_bind]
  obtain ⟨fault | _, b⟩ := x.run.run a <;> rfl

/-! ## Walks -/

namespace Walk.Keeps

section
variable [Std.Refl R]

theorem pure (v : α) : Walk.Keeps R (Pure.pure v) := fun a => Std.Refl.refl a

theorem get : Walk.Keeps R MonadState.get := fun a => Std.Refl.refl a

end

theorem modify {f : Assembly → Assembly} (h : ∀ a, R a (f a)) : Walk.Keeps R (modify f) := h

theorem modifyGet {f : Assembly → α × Assembly} (h : ∀ a, R a (f a).2) : Walk.Keeps R (modifyGet f) := h

theorem bind [IsTrans Assembly R] {x : Walk α} {f : α → Walk β} (hx : x.Keeps R)
    (hf : ∀ v, (f v).Keeps R) : (x >>= f).Keeps R := fun a =>
  IsTrans.trans a _ _ (hx a) (hf _ _)

theorem forM [IsPreorder Assembly R] {f : α → Walk PUnit} (xs : List α)
    (h : ∀ x ∈ xs, (f x).Keeps R) : (xs.forM f).Keeps R := by
  induction xs with
  | nil => exact pure _
  | cons x xs ih =>
    exact (h x (by simp)).bind fun _ => ih fun y hy => h y (by simp [hy])

theorem foldlM [IsPreorder Assembly R] {f : β → α → Walk β} (xs : List α) (b : β)
    (h : ∀ b, ∀ x ∈ xs, (f b x).Keeps R) : (xs.foldlM f b).Keeps R := by
  induction xs generalizing b with
  | nil => exact pure _
  | cons x xs ih =>
    rw [List.foldlM_cons]
    exact (h b x (by simp)).bind fun c => ih c fun d y hy => h d y (by simp [hy])

end Walk.Keeps

/-! ## Steps -/

namespace Step.Keeps

section
variable [Std.Refl R]

theorem pure (v : α) : Keeps R (Pure.pure v) := fun a => Std.Refl.refl a

theorem throw (fault : Fault) : Keeps R (throw fault : Step α) := fun a => Std.Refl.refl a

theorem get : Keeps R MonadState.get := fun a => Std.Refl.refl a

theorem ofExcept (x : Except Fault α) : Keeps R (ofExcept x) := fun a => by
  rw [run_ofExcept]; exact Std.Refl.refl a

end

theorem mono {S : Assembly → Assembly → Prop} (h : x.Keeps R) (hRS : ∀ {a b}, R a b → S a b) :
    x.Keeps S := fun a => hRS (h a)

theorem modify {f : Assembly → Assembly} (h : ∀ a, R a (f a)) : Keeps R (modify f) := h

theorem of {f : Assembly → Except Fault α × Assembly} (h : ∀ a, R a (f a).2) : Keeps R (of f) := h

theorem lift {x : Walk α} (h : x.Keeps R) : Keeps R (liftM x) := h

theorem bind [IsTrans Assembly R] (hx : x.Keeps R) (hf : ∀ v, (f v).Keeps R) : (x >>= f).Keeps R := by
  intro a
  have ha := hx a
  rw [run_bind]
  split
  · next v b h =>
    rw [h] at ha
    exact IsTrans.trans a b _ ha (hf v b)
  · next fault b h =>
    rw [h] at ha
    exact ha

theorem get_bind {f : Assembly → Step β} (h : ∀ a, R a ((f a).run.run a).2) : Keeps R (MonadState.get >>= f) := h

theorem forM [IsPreorder Assembly R] {f : α → Step PUnit} (xs : List α)
    (h : ∀ x ∈ xs, (f x).Keeps R) : (xs.forM f).Keeps R := by
  induction xs with
  | nil => exact pure _
  | cons x xs ih =>
    exact (h x (by simp)).bind fun _ => ih fun y hy => h y (by simp [hy])

theorem mapM [IsPreorder Assembly R] (xs : List α) (h : ∀ x, (f x).Keeps R) : (xs.mapM f).Keeps R := by
  induction xs with
  | nil => exact pure _
  | cons x xs ih =>
    rw [List.mapM_cons]
    exact (h x).bind fun _ => ih.bind fun _ => pure _

theorem run (h : x.Keeps R) : Walk.Keeps R x.run := h

theorem reporting [IsPreorder Assembly R] {x : Step Unit} (h : x.Keeps R)
    (hr : ∀ (a : Assembly) (fault : Fault), R a (a.report fault)) : (reporting x).Keeps R := by
  refine Walk.Keeps.bind h.run fun outcome => ?_
  cases outcome with
  | ok _ => exact .pure _
  | error fault => exact .modify fun a => hr a fault

theorem reportingOr [IsPreorder Assembly R] {default : α} (h : x.Keeps R)
    (hr : ∀ (a : Assembly) (fault : Fault), R a (a.report fault)) : (reportingOr default x).Keeps R := by
  refine Walk.Keeps.bind h.run fun outcome => ?_
  cases outcome with
  | ok _ => exact .pure _
  | error fault => exact Walk.Keeps.bind (.modify fun a => hr a fault) fun _ => .pure _

end Step.Keeps

end SpectrumAsm
