import Mathlib.Data.List.Forall2

/-! # Related runs

Two runs that may stop are related if both stop, or both end with related results. The
relation passes through sequencing, through loops with the same turns and through reads
and writes of lists that are related entry by entry.
-/
namespace ElfIndex.Related

variable {α β γ δ : Type*} {r : α → β → Prop} {s : γ → δ → Prop}

theorem bind {x : Option α} {y : Option β} {f : α → Option γ} {g : β → Option δ}
    (h : Option.Rel r x y) (hfg : ∀ a b, r a b → Option.Rel s (f a) (g b)) :
    Option.Rel s (x.bind f) (y.bind g) := by
  cases h with
  | none => exact .none
  | some hab => exact hfg _ _ hab

/-- Both runs use the result of the same step. -/
theorem bind_same (x : Option α) {f : α → Option γ} {g : α → Option δ}
    (hfg : ∀ a, Option.Rel s (f a) (g a)) : Option.Rel s (x.bind f) (x.bind g) := by
  cases x with
  | none => exact .none
  | some a => exact hfg a

theorem map {x : Option α} {y : Option β} {f : α → γ} {g : β → δ} (h : Option.Rel r x y)
    (hfg : ∀ a b, r a b → s (f a) (g b)) : Option.Rel s (x.map f) (y.map g) := by
  cases h with
  | none => exact .none
  | some hab => exact .some (hfg _ _ hab)

theorem foldlM {f : α → γ → Option α} {g : β → γ → Option β} (l : List γ)
    (hfg : ∀ c ∈ l, ∀ a b, r a b → Option.Rel r (f a c) (g b c)) {a : α} {b : β} (h : r a b) :
    Option.Rel r (l.foldlM f a) (l.foldlM g b) := by
  induction l generalizing a b with
  | nil => exact .some h
  | cons c l ih =>
    rw [List.foldlM_cons,List.foldlM_cons]
    exact bind (hfg c List.mem_cons_self a b h) fun _ _ hab =>
      ih (fun c hc => hfg c (List.mem_cons_of_mem _ hc)) hab

theorem getElem? {l : List α} {l' : List β} (h : List.Forall₂ r l l') (i : ℕ) :
    Option.Rel r l[i]? l'[i]? := by
  induction h generalizing i with
  | nil => exact .none
  | cons hab _ ih =>
    cases i with
    | zero => exact .some hab
    | succ i => exact ih i

theorem set {l : List α} {l' : List β} (h : List.Forall₂ r l l') {a : α} {b : β} (hab : r a b)
    (i : ℕ) : List.Forall₂ r (l.set i a) (l'.set i b) := by
  induction h generalizing i with
  | nil => exact .nil
  | cons hcd htail ih =>
    cases i with
    | zero => exact .cons hab htail
    | succ i => exact .cons hcd (ih i)

/-- A loop whose turns all end relates its entries to the results. -/
theorem mapM {f : α → Option β} {l : List α} (h : ∀ x ∈ l, ∃ y, f x = some y ∧ r x y) :
    ∃ ys, l.mapM f = some ys ∧ List.Forall₂ r l ys := by
  induction l with
  | nil => exact ⟨[],rfl,.nil⟩
  | cons x l ih =>
    obtain ⟨y,hy,hxy⟩ := h x List.mem_cons_self
    obtain ⟨ys,hrun,hys⟩ := ih fun z hz => h z (List.mem_cons_of_mem x hz)
    exact ⟨y::ys,by rw [List.mapM_cons,hy,hrun]; rfl,.cons hxy hys⟩

/-- The results of a loop are those of its turns. -/
theorem forall₂_of_mapM {f : α → Option β} {l : List α} {ys : List β} (h : l.mapM f = some ys)
    (hf : ∀ x y, f x = some y → r x y) : List.Forall₂ r l ys := by
  induction l generalizing ys with
  | nil =>
    obtain rfl := Option.some.inj h
    exact .nil
  | cons x l ih =>
    rw [List.mapM_cons] at h
    obtain ⟨y,hy,h⟩ := Option.bind_eq_some_iff.mp h
    obtain ⟨zs,hzs,h⟩ := Option.bind_eq_some_iff.mp h
    obtain rfl := Option.some.inj h
    exact .cons (hf x y hy) (ih hzs)

theorem eq_none_iff {x : Option α} {y : Option β} (h : Option.Rel r x y) :
    x = none ↔ y = none := by
  cases h with
  | none => exact ⟨fun _ => rfl,fun _ => rfl⟩
  | some _ => exact ⟨fun hx => absurd hx (Option.some_ne_none _),
      fun hy => absurd hy (Option.some_ne_none _)⟩

theorem exists_eq_some {x : Option α} {y : Option β} (h : Option.Rel r x y) {b : β}
    (hy : y = some b) : ∃ a, x = some a ∧ r a b := by
  subst hy
  cases h with
  | some hab => exact ⟨_,rfl,hab⟩

theorem exists_related {x : Option α} {y : Option β} (h : Option.Rel r x y) {a : α}
    (hx : x = some a) : ∃ b, y = some b ∧ r a b := by
  subst hx
  cases h with
  | some hab => exact ⟨_,rfl,hab⟩

end ElfIndex.Related
