import Mathlib.Data.List.Basic
import Mathlib.Data.Nat.Basic
import Mathlib.Order.MinMax

/-! # Runs with fuel

A loop of a program is a function of a step bound that yields `none` when the bound is
too small. It returns a value when every large enough bound yields that value. The loops over
an iterator are runs of this kind.
-/
namespace ElfIndex.Fuel

variable {α β : Type*}

def Returns (run : ℕ → Option α) (result : α) : Prop :=
  ∃ bound, ∀ fuel, bound ≤ fuel → run fuel = some result

theorem Returns.unique {run : ℕ → Option α} {x y : α} (hx : Returns run x) (hy : Returns run y) :
    x = y := by
  obtain ⟨m,hm⟩ := hx
  obtain ⟨n,hn⟩ := hy
  exact Option.some.inj ((hm _ (le_max_left m n)).symm.trans (hn _ (le_max_right m n)))

theorem Returns.bind {run : ℕ → Option α} {next : ℕ → α → Option β} {x : α} {y : β}
    (hx : Returns run x) (hy : Returns (fun fuel => next fuel x) y) :
    Returns (fun fuel => (run fuel).bind (next fuel)) y := by
  obtain ⟨m,hm⟩ := hx
  obtain ⟨n,hn⟩ := hy
  refine ⟨max m n,?_⟩
  intro fuel hfuel
  simp only [hm fuel ((le_max_left m n).trans hfuel),Option.bind_some]
  exact hn fuel ((le_max_right m n).trans hfuel)

/-- The value that a run returns, if it returns one. -/
noncomputable def value (run : ℕ → Option α) (default : α) : α :=
  open Classical in if h : ∃ x, Returns run x then h.choose else default

theorem Returns.value_eq {run : ℕ → Option α} {x : α} (hx : Returns run x) (default : α) :
    value run default = x := by
  have h : ∃ y, Returns run y := ⟨x,hx⟩
  rw [value,dif_pos h]
  exact h.choose_spec.unique hx

/-- A left fold of steps that append the output of each element. -/
theorem Returns.foldlM_append {γ : Type*} {step : ℕ → List β → γ → Option (List β)}
    {out : γ → List β} (l : List γ) (init : List β)
    (h : ∀ c ∈ l, ∃ bound, ∀ fuel, bound ≤ fuel → ∀ acc, step fuel acc c = some (acc ++ out c)) :
    Returns (fun fuel => l.foldlM (step fuel) init) (init ++ l.flatMap out) := by
  induction l generalizing init with
  | nil => exact ⟨0,fun fuel _ => by simp⟩
  | cons c l ih =>
    obtain ⟨m,hm⟩ := h c List.mem_cons_self
    obtain ⟨n,hn⟩ := ih (init ++ out c) (fun d hd => h d (List.mem_cons_of_mem _ hd))
    refine ⟨max m n,?_⟩
    intro fuel hfuel
    change (c :: l).foldlM (step fuel) init = _
    have hrest := hn fuel ((le_max_right m n).trans hfuel)
    rw [List.foldlM_cons,hm fuel ((le_max_left m n).trans hfuel),Option.bind_eq_bind,
      Option.bind_some,List.flatMap_cons,← List.append_assoc]
    exact hrest

end ElfIndex.Fuel

/-! ## Iterators

An iterator moves its state to the next member and shows it there, or reports the end; a step
may also fail an assertion. `Shows` lists what the steps from a state show. A loop over the
iterator is then one over that list.
-/
namespace ElfIndex.Iteration

universe u

variable {σ α : Type u} (next : σ → Option (Bool × σ)) (value : σ → α)

/-- The steps from a state show the members of a list and then report the end. -/
inductive Shows : σ → List α → Prop
  | done {s s' : σ} (h : next s = some (false,s')) : Shows s []
  | more {s s' : σ} {l : List α} (h : next s = some (true,s')) (hrest : Shows s' l) :
      Shows s (value s'::l)

/-- The members that are left. -/
def collect : ℕ → σ → Option (List α)
  | 0, _ => none
  | fuel+1, s => do
    let (more,s) ← next s
    if more then (collect fuel s).map (value s::·) else some []

/-- `while (next()) if (p(value())) return value()` -/
def find (p : α → Bool) : ℕ → σ → Option (Option α)
  | 0, _ => none
  | fuel+1, s => do
    let (more,s) ← next s
    if more then if p (value s) then some (some (value s)) else find p fuel s
    else some none

variable {next value} {s : σ} {l : List α}

theorem Shows.collect (h : Shows next value s l) :
    Fuel.Returns (fun fuel => Iteration.collect next value fuel s) l := by
  induction h with
  | done h =>
    refine ⟨1,fun fuel hfuel => ?_⟩
    obtain ⟨fuel,rfl⟩ := Nat.exists_eq_add_of_le' hfuel
    simp [Iteration.collect,h]
  | more h _ ih =>
    obtain ⟨bound,hbound⟩ := ih
    refine ⟨bound+1,fun fuel hfuel => ?_⟩
    obtain ⟨fuel,rfl⟩ := Nat.exists_eq_add_of_le' ((Nat.le_add_left 1 bound).trans hfuel)
    simp [Iteration.collect,h,hbound fuel (by omega)]

/-- The loop returns the first member that passes. -/
theorem Shows.find (h : Shows next value s l) (p : α → Bool) :
    Fuel.Returns (fun fuel => Iteration.find next value p fuel s) (l.find? p) := by
  induction h with
  | done h =>
    refine ⟨1,fun fuel hfuel => ?_⟩
    obtain ⟨fuel,rfl⟩ := Nat.exists_eq_add_of_le' hfuel
    simp [Iteration.find,h]
  | @more s s' l h _ ih =>
    obtain ⟨bound,hbound⟩ := ih
    refine ⟨bound+1,fun fuel hfuel => ?_⟩
    obtain ⟨fuel,rfl⟩ := Nat.exists_eq_add_of_le' ((Nat.le_add_left 1 bound).trans hfuel)
    simp only [Iteration.find,h,Option.bind_eq_bind,Option.bind_some,if_true,List.find?_cons]
    cases p (value s') with
    | true => rfl
    | false =>
      rw [if_neg Bool.false_ne_true]
      exact hbound fuel (by omega)

/-- A state shows only one list. -/
theorem Shows.unique {l' : List α} (h : Shows next value s l) (h' : Shows next value s l') :
    l = l' :=
  h.collect.unique h'.collect

end ElfIndex.Iteration
