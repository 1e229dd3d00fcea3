import Mathlib.Data.List.Basic
import Mathlib.Logic.Function.Basic

/-! # Allocated arrays

An array has a size, and an access outside of it yields `none`. A run of steps that stay
inside is a run on the cells alone.
-/
namespace ElfIndex

/-- The cells of an array before and behind its contents are no part of it. -/
structure Buffer (α : Type*) where
  size : ℕ
  cell : ℕ → α

namespace Buffer

variable {α β σ : Type*}

def get (b : Buffer α) (i : ℕ) : Option α := if i < b.size then some (b.cell i) else none

def set (b : Buffer α) (i : ℕ) (x : α) : Option (Buffer α) :=
  if i < b.size then some {b with cell := Function.update b.cell i x} else none

theorem get_eq {b : Buffer α} {i : ℕ} (h : i < b.size) : b.get i = some (b.cell i) := if_pos h

theorem set_eq {b : Buffer α} {i : ℕ} (h : i < b.size) (x : α) :
    b.set i x = some ⟨b.size,Function.update b.cell i x⟩ := if_pos h

/-- Steps that stay inside an array of this size. -/
theorem foldlM_cells {size : ℕ} {step : Buffer α → β → Option (Buffer α)}
    {cells : (ℕ → α) → β → ℕ → α} (l : List β)
    (h : ∀ x ∈ l, ∀ c, step ⟨size,c⟩ x = some ⟨size,cells c x⟩) (c : ℕ → α) :
    l.foldlM step ⟨size,c⟩ = some ⟨size,l.foldl cells c⟩ := by
  induction l generalizing c with
  | nil => rfl
  | cons x l ih =>
    rw [List.foldlM_cons,h x List.mem_cons_self]
    exact ih (fun y hy => h y (List.mem_cons_of_mem x hy)) (cells c x)

/-- Steps that stay inside under a condition of their own. -/
theorem foldlM_eq_some_iff {size : ℕ} {step : Buffer α → β → Option (Buffer α)}
    {cells : (ℕ → α) → β → ℕ → α} {inside : β → Prop} [DecidablePred inside] (l : List β)
    (h : ∀ x ∈ l, ∀ c, step ⟨size,c⟩ x = if inside x then some ⟨size,cells c x⟩ else none)
    (c : ℕ → α) (res : Buffer α) :
    l.foldlM step ⟨size,c⟩ = some res ↔ (∀ x ∈ l, inside x) ∧ res = ⟨size,l.foldl cells c⟩ := by
  induction l generalizing c with
  | nil =>
    simp only [List.foldlM_nil,List.foldl_nil,List.not_mem_nil,false_implies,implies_true,true_and]
    exact Option.some_inj.trans eq_comm
  | cons x l ih =>
    rw [List.foldlM_cons,h x List.mem_cons_self,List.forall_mem_cons,List.foldl_cons]
    by_cases hx : inside x
    · rw [if_pos hx,Option.bind_eq_bind,Option.bind_some,
        ih (fun y hy => h y (List.mem_cons_of_mem x hy)),and_iff_right hx]
    · rw [if_neg hx]
      constructor
      · intro hnone
        cases hnone
      · rintro ⟨⟨hinside,-⟩,-⟩
        exact absurd hinside hx

/-- Steps that read inside of an array may read its cells. -/
theorem foldlM_congr {f g : σ → β → Option σ} (l : List β)
    (h : ∀ x ∈ l, ∀ s, f s x = g s x) (s : σ) : l.foldlM f s = l.foldlM g s := by
  induction l generalizing s with
  | nil => rfl
  | cons x l ih =>
    rw [List.foldlM_cons,List.foldlM_cons,h x List.mem_cons_self]
    exact congrArg (Option.bind (g s x)) (funext fun s' =>
      ih (fun y hy => h y (List.mem_cons_of_mem x hy)) s')

/-- What holds after a run held before it, if it does so for every step. -/
theorem foldlM_start {f : σ → β → Option σ} {p : σ → Bool} (l : List β)
    (hf : ∀ x ∈ l, ∀ s s', f s x = some s' → p s' = true → p s = true) {s s' : σ}
    (h : l.foldlM f s = some s') (hp : p s' = true) : p s = true := by
  induction l generalizing s with
  | nil => exact Option.some.inj h ▸ hp
  | cons x l ih =>
    rw [List.foldlM_cons] at h
    obtain ⟨r,hstep,hrun⟩ := Option.bind_eq_some_iff.mp h
    exact hf x List.mem_cons_self s r hstep
      (ih (fun y hy => hf y (List.mem_cons_of_mem x hy)) hrun)

/-- A bound that is tested after every step may be tested at the end, if a state that
misses it leads to no state that meets it. -/
theorem foldlM_filter {f g : σ → β → Option σ} {p : σ → Bool} (l : List β)
    (hg : ∀ x ∈ l, ∀ s, p s = true → g s x = (f s x).filter p)
    (hf : ∀ x ∈ l, ∀ s s', f s x = some s' → p s' = true → p s = true) {s : σ} (hs : p s = true) :
    l.foldlM g s = (l.foldlM f s).filter p := by
  induction l generalizing s with
  | nil => exact (Option.filter_some_pos hs).symm
  | cons x l ih =>
    have hg' := fun y hy => hg y (List.mem_cons_of_mem x hy)
    have hf' := fun y hy => hf y (List.mem_cons_of_mem x hy)
    rw [List.foldlM_cons,List.foldlM_cons,hg x List.mem_cons_self s hs]
    cases f s x with
    | none => rfl
    | some r =>
      rw [Option.bind_eq_bind,Option.bind_some]
      cases hr : p r with
      | true =>
        rw [Option.filter_some_pos hr]
        exact ih hg' hf' hr
      | false =>
        -- no continuation of this run meets the bound again
        rw [Option.filter_some_neg hr]
        refine (Option.filter_eq_none_iff.mpr fun s' hs' hp => ?_).symm
        rw [foldlM_start l hf' hs' hp] at hr
        cases hr

/-- Steps that leave the state alone or stop. -/
theorem foldlM_stops {f : σ → β → Option σ} {stop : β → Bool} (l : List β)
    (h : ∀ x ∈ l, ∀ s, f s x = if stop x then none else some s) (s : σ) :
    l.foldlM f s = if l.any stop then none else some s := by
  induction l with
  | nil => rfl
  | cons x l ih =>
    rw [List.foldlM_cons,h x List.mem_cons_self,List.any_cons]
    cases stop x with
    | true => rfl
    | false => exact ih fun y hy => h y (List.mem_cons_of_mem x hy)

/-- Reads that all stay inside yield the cells. -/
theorem mapM_eq_map {f : β → Option α} {cells : β → α} (l : List β)
    (h : ∀ x ∈ l, f x = some (cells x)) : l.mapM f = some (l.map cells) := by
  induction l with
  | nil => rfl
  | cons x l ih =>
    rw [List.mapM_cons,h x List.mem_cons_self,ih fun y hy => h y (List.mem_cons_of_mem x hy)]
    rfl

/-- A test of cells that are all inside. -/
theorem allM_eq_all {f : β → Option Bool} {test : β → Bool} (l : List β)
    (h : ∀ x ∈ l, f x = some (test x)) : l.allM f = some (l.all test) := by
  induction l with
  | nil => rfl
  | cons x l ih =>
    rw [List.allM_cons,h x List.mem_cons_self,Option.bind_eq_bind,Option.bind_some,List.all_cons]
    cases test x with
    | true => exact ih fun y hy => h y (List.mem_cons_of_mem x hy)
    | false => rfl

end Buffer
end ElfIndex
