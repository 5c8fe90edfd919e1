/-
Runs of two programs side by side.

By `Step.Sim` both steps stop, at faults of the same code, or their answers and the states they lead to are
related; if nothing has a parameter of a macro in it, the fault is not about one. `Walk.Sim` does the same for
walks.
-/
import Mathlib.Data.List.Forall2
import SpectrumAsm.Proofs.Runs

namespace SpectrumAsm

open List Step

variable {α β : Type} {f g : Fault} {x : Step α} {y : Step β}

theorem exists_of_mem_left {R : α → β → Prop} {xs : List α} {ys : List β} (h : Forall₂ R xs ys) {x : α}
    (hx : x ∈ xs) : ∃ y ∈ ys, R x y := by
  induction h with
  | nil => cases hx
  | @cons x' y xs ys hxy _ ih =>
    rcases mem_cons.1 hx with rfl | hx
    · exact ⟨y, mem_cons_self, hxy⟩
    · obtain ⟨y', hy', hxy'⟩ := ih hx
      exact ⟨y', mem_cons_of_mem _ hy', hxy'⟩

/-- The faults of parameters that were not replaced. -/
@[simp] def Fault.isParam : Fault → Bool
  | .macroParamOutside | .macroParamInArgument => true
  | _ => false

/-- Faults of the same code. -/
structure SameFault (filled : Prop) (f g : Fault) : Prop where
  code : g.code = f.code
  filled : filled → f.isParam = false

theorem SameFault.of {filled : Prop} (hcode : g.code = f.code) (hparam : f.isParam = false) :
    SameFault filled f g := ⟨hcode, fun _ => hparam⟩

/-! ## Runs of two steps -/

/-- Outcomes with related faults or with related answers. -/
inductive OutcomeRel {α β : Type} (filled : Prop) (L : Assembly → Assembly → Prop)
    (R : α → β → Assembly → Assembly → Prop) : Except Fault α × Assembly → Except Fault β × Assembly → Prop where
  | ok {v : α} {w : β} {a b : Assembly} (h : R v w a b) : OutcomeRel filled L R (.ok v, a) (.ok w, b)
  | error {f g : Fault} {a b : Assembly} (hfault : SameFault filled f g) (h : L a b) :
    OutcomeRel filled L R (.error f, a) (.error g, b)

/-- A run of one step and a run of another have related outcomes. -/
def Step.Sim {α β : Type} (filled : Prop) (L : Assembly → Assembly → Prop)
    (R : α → β → Assembly → Assembly → Prop) (x : Step α) (y : Step β) (a b : Assembly) : Prop :=
  OutcomeRel filled L R (x.run.run a) (y.run.run b)

def Agreeing {α : Type} (L : Assembly → Assembly → Prop) (v w : α) (a b : Assembly) : Prop := w = v ∧ L a b

theorem exists_answer {L : Assembly → Assembly → Prop} {x y : α × Assembly}
    (h : y.1 = x.1 ∧ L x.2 y.2) : ∃ v a b, x = (v, a) ∧ y = (v, b) ∧ L a b :=
  ⟨x.1, x.2, y.2, rfl, Prod.ext h.1 rfl, h.2⟩

theorem rel_isSome {R : α → β → Prop} {x : Option α} {y : Option β} (h : Option.Rel R x y) : y.isSome = x.isSome := by
  cases h <;> rfl

variable {P : α → β → Prop} {xs : List α} {ys : List β}

theorem rel_find? {p : α → Bool} {q : β → Bool}
    (h : Forall₂ P xs ys) (hpq : ∀ x y, P x y → q y = p x) : Option.Rel P (xs.find? p) (ys.find? q) := by
  induction h with
  | nil => exact .none
  | @cons x y xs ys hxy _ ih =>
    rw [find?_cons, find?_cons, hpq x y hxy]
    split
    · exact .some hxy
    · exact ih

theorem forall₂_map (f : α → β) (xs : List α) : Forall₂ (fun x y => y = f x) xs (xs.map f) :=
  forall₂_map_right_iff.2 (forall₂_same.2 fun _ _ => rfl)

section
variable {γ δ : Type} {filled : Prop} {L : Assembly → Assembly → Prop}
  {R : α → β → Assembly → Assembly → Prop} {S : γ → δ → Assembly → Assembly → Prop} {a b : Assembly}

namespace Step.Sim

theorem pure {v : α} {w : β} (h : R v w a b) : Sim filled L R (Pure.pure v) (Pure.pure w) a b := .ok h

theorem fail (hfault : SameFault filled f g) (h : L a b) : Sim filled L R (throw f) (throw g) a b := .error hfault h

theorem modify {f g : Assembly → Assembly} (h : L (f a) (g b)) :
    Sim filled L (Agreeing L) (modify f) (modify g) a b := .ok ⟨rfl, h⟩

theorem get_bind {f : Assembly → Step γ} {g : Assembly → Step δ} (h : (f a).Sim filled L S (g b) a b) :
    Sim filled L S (get >>= f) (get >>= g) a b := h

theorem bind {f : α → Step γ} {g : β → Step δ} (hx : x.Sim filled L R y a b)
    (hf : ∀ v w a b, R v w a b → (f v).Sim filled L S (g w) a b) : (x >>= f).Sim filled L S (y >>= g) a b := by
  unfold Sim at hx ⊢
  rw [run_bind, run_bind]
  generalize x.run.run a = outcome at hx
  generalize y.run.run b = outcome' at hx
  cases hx with
  | ok h => exact hf _ _ _ _ h
  | error hfault h => exact .error hfault h

theorem fail_bind (hfault : SameFault filled f g) {k : α → Step γ} {l : β → Step δ} (h : L a b) :
    Sim filled L S (MonadExcept.throw f >>= k) (MonadExcept.throw g >>= l) a b := .error hfault h

theorem agree_bind {y : Step α} {f : α → Step γ} {g : α → Step δ} (hx : x.Sim filled L (Agreeing L) y a b)
    (hf : ∀ v a b, L a b → (f v).Sim filled L S (g v) a b) : (x >>= f).Sim filled L S (y >>= g) a b :=
  hx.bind fun v w a b hvw => by
    obtain ⟨rfl, h⟩ := hvw
    exact hf w a b h

theorem foldlM {f : γ → α → Step γ} {g : δ → β → Step δ}
    (hxs : Forall₂ P xs ys) (hf : ∀ c d x y a b, P x y → S c d a b → (f c x).Sim filled L S (g d y) a b) {c : γ}
    {d : δ} (h : S c d a b) : (xs.foldlM f c).Sim filled L S (ys.foldlM g d) a b := by
  induction hxs generalizing c d a b with
  | nil => exact .pure h
  | @cons x y xs ys hxy _ ih =>
    rw [foldlM_cons, foldlM_cons]
    exact (hf c d x y a b hxy h).bind fun _ _ _ _ h => ih h

theorem forM {f : α → Step PUnit} {g : β → Step PUnit} (hxs : Forall₂ P xs ys)
    (hf : ∀ x y a b, P x y → L a b → (f x).Sim filled L (Agreeing L) (g y) a b) (h : L a b) :
    Sim filled L (Agreeing L) (xs.forM f) (ys.forM g) a b := by
  induction hxs generalizing a b with
  | nil => exact .pure ⟨rfl, h⟩
  | @cons x y xs ys hxy _ ih =>
    exact (hf x y a b hxy h).agree_bind fun _ _ _ h => ih h

theorem mapM {f : α → Step γ} {g : β → Step γ} (hxs : Forall₂ P xs ys)
    (hf : ∀ x y a b, P x y → L a b → (f x).Sim filled L (Agreeing L) (g y) a b) (h : L a b) :
    Sim filled L (Agreeing L) (xs.mapM f) (ys.mapM g) a b := by
  induction hxs generalizing a b with
  | nil => exact .pure ⟨rfl, h⟩
  | @cons x y xs ys hxy _ ih =>
    rw [mapM_cons, mapM_cons]
    exact (hf x y a b hxy h).agree_bind fun _ _ _ h => (ih h).agree_bind fun _ _ _ h => .pure ⟨rfl, h⟩

theorem attempt (h : x.Sim filled L R y a b) :
    x.attempt.Sim filled L (fun v w a b => OutcomeRel filled L R (v, a) (w, b)) y.attempt a b := by
  unfold Sim
  rw [run_attempt, run_attempt]
  exact .ok h

theorem reporting {x y : Step Unit} (h : x.Sim filled L (Agreeing L) y a b)
    (hr : ∀ (a b : Assembly) (f g : Fault), SameFault filled f g → L a b → L (a.report f) (b.report g)) :
    L ((reporting x).run a).2 ((reporting y).run b).2 := by
  rw [run_reporting, run_reporting]
  unfold Sim at h
  generalize x.run.run a = outcome at h
  generalize y.run.run b = outcome' at h
  cases h with
  | ok h => exact h.2
  | error hfault h => exact hr _ _ _ _ hfault h

theorem throw {fault : Fault} (hfault : fault.isParam = false) (h : L a b) :
    Sim filled L R (throw fault) (throw fault) a b :=
  fail ⟨rfl, fun _ => hfault⟩ h

theorem throw_bind {fault : Fault} {f : α → Step γ} {g : β → Step δ} (hfault : fault.isParam = false) (h : L a b) :
    Sim filled L S (MonadExcept.throw fault >>= f) (MonadExcept.throw fault >>= g) a b :=
  fail_bind ⟨rfl, fun _ => hfault⟩ h

theorem of {f : Assembly → Except Fault α × Assembly} {g : Assembly → Except Fault β × Assembly}
    (h : OutcomeRel filled L R (f a) (g b)) : Sim filled L R (of f) (of g) a b := h

theorem ofExcept_bind (x : Except Fault α) {f : α → Step γ} {g : α → Step δ}
    (hx : ∀ fault, x = .error fault → fault.isParam = false) (h : L a b)
    (hf : ∀ v, x = .ok v → (f v).Sim filled L S (g v) a b) :
    Sim filled L S (MonadExcept.ofExcept x >>= f) (MonadExcept.ofExcept x >>= g) a b := by
  unfold Sim
  rw [run_ofExcept_bind, run_ofExcept_bind]
  cases x with
  | ok v => exact hf v rfl
  | error fault => exact .error ⟨rfl, fun _ => hx fault rfl⟩ h

theorem ofExcept (x : Except Fault α) (hx : ∀ fault, x = .error fault → fault.isParam = false) (h : L a b) :
    Sim filled L (Agreeing L) (ofExcept x) (ofExcept x) a b := by
  unfold Sim
  rw [run_ofExcept, run_ofExcept]
  cases x with
  | ok v => exact .ok ⟨rfl, h⟩
  | error fault => exact .error ⟨rfl, fun _ => hx fault rfl⟩ h

end Step.Sim

end

/-! ## Runs of two walks -/

/-- A run of one walk and a run of another have related answers and states. -/
def Walk.Sim {α β : Type} (R : α → β → Assembly → Assembly → Prop) (x : Walk α) (y : Walk β) (a b : Assembly) : Prop :=
  R (x.run a).1 (y.run b).1 (x.run a).2 (y.run b).2

namespace Walk.Sim

variable {γ δ : Type} {filled : Prop} {L : Assembly → Assembly → Prop}
  {R : α → β → Assembly → Assembly → Prop} {S : γ → δ → Assembly → Assembly → Prop} {a b : Assembly}

theorem bind {x : Walk α} {y : Walk β} {f : α → Walk γ} {g : β → Walk δ} (hx : x.Sim R y a b)
    (hf : ∀ v w a b, R v w a b → (f v).Sim S (g w) a b) : (x >>= f).Sim S (y >>= g) a b := hf _ _ _ _ hx

theorem get_bind {f : Assembly → Walk γ} {g : Assembly → Walk δ} (h : (f a).Sim S (g b) a b) :
    Walk.Sim S (get >>= f) (get >>= g) a b := h

theorem modify_bind {f g : Assembly → Assembly} {k : PUnit → Walk γ} {l : PUnit → Walk δ}
    (h : (k ⟨⟩).Sim S (l ⟨⟩) (f a) (g b)) : Walk.Sim S (modify f >>= k) (modify g >>= l) a b := h

theorem agree_bind {x y : Walk α} {f : α → Walk γ} {g : α → Walk δ} (hx : x.Sim (Agreeing L) y a b)
    (hf : ∀ v a b, L a b → (f v).Sim S (g v) a b) : (x >>= f).Sim S (y >>= g) a b :=
  hx.bind fun v w a b hvw => by
    obtain ⟨rfl, h⟩ := hvw
    exact hf w a b h

theorem lift {x : Walk α} {y : Walk β} (h : x.Sim R y a b) : Step.Sim filled L R (liftM x) (liftM y) a b := .ok h

theorem outcome (h : x.Sim filled L R y a b) :
    Walk.Sim (fun v w a b => OutcomeRel filled L R (v, a) (w, b)) x.run y.run a b := h

theorem outcome_bind {y : Step α} {k : Except Fault α → Walk γ} {l : Except Fault α → Walk δ}
    (h : x.Sim filled L (Agreeing L) y a b)
    (herror : ∀ f g a b, SameFault filled f g → L a b → (k (.error f)).Sim S (l (.error g)) a b)
    (hok : ∀ v a b, L a b → (k (.ok v)).Sim S (l (.ok v)) a b) : Walk.Sim S (x.run >>= k) (y.run >>= l) a b :=
  (outcome h).bind fun v w a b hrun => by
    cases hrun with
    | error hfault h => exact herror _ _ a b hfault h
    | ok h =>
      obtain ⟨rfl, h⟩ := h
      exact hok _ a b h

theorem reportingOr (default : α) {y : Step α} (h : x.Sim filled L (Agreeing L) y a b)
    (hr : ∀ (a b : Assembly) (f g : Fault), SameFault filled f g → L a b → L (a.report f) (b.report g)) :
    Walk.Sim (Agreeing L) (reportingOr default x) (reportingOr default y) a b := by
  refine (outcome h).bind fun v w a b hrun => ?_
  cases hrun with
  | ok h => exact h
  | error hfault h => exact ⟨rfl, hr _ _ _ _ hfault h⟩

end Walk.Sim

end SpectrumAsm
