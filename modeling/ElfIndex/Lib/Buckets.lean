import Mathlib.Data.List.Perm.Basic
import Mathlib.Order.Lattice

/-! # Concatenated buckets

A list is cut into buckets by a number for each of its elements. The concatenation of
rearranged buckets is sorted exactly when each bucket is, and the buckets are ordered
among themselves.
-/
namespace ElfIndex.Buckets

variable {α : Type*} {g : α → ℕ} {l : List α} {out : ℕ → List α} {r : α → α → Prop} {n : ℕ}

/-- Each bucket holds the elements of its number. -/
def Holds (g : α → ℕ) (l : List α) (out : ℕ → List α) (n : ℕ) : Prop :=
  ∀ i < n, (out i).Perm (l.filter fun a => decide (g a = i))

theorem Holds.mem {i : ℕ} (h : Holds g l out n) (hi : i < n) {a : α} :
    a ∈ out i ↔ a ∈ l ∧ g a = i := by
  rw [(h i hi).mem_iff,List.mem_filter,decide_eq_true_eq]

theorem Holds.pairwise_iff (h : Holds g l out n) (hg : ∀ a ∈ l, g a < n) :
    ((List.range n).flatMap out).Pairwise r ↔ (∀ i < n, (out i).Pairwise r) ∧
      ∀ a ∈ l, ∀ b ∈ l, g a < g b → r a b := by
  rw [List.pairwise_flatMap]
  constructor
  · rintro ⟨heach,hbetween⟩
    refine ⟨fun i hi => heach i (List.mem_range.mpr hi),?_⟩
    intro a ha b hb hlt
    rw [List.pairwise_iff_getElem] at hbetween
    have hgb := hg b hb
    have hij := hbetween (g a) (g b) (by rw [List.length_range]; omega)
      (by rwa [List.length_range]) hlt
    simp only [List.getElem_range] at hij
    exact hij a ((h.mem (by omega)).mpr ⟨ha,rfl⟩) b ((h.mem hgb).mpr ⟨hb,rfl⟩)
  · rintro ⟨heach,hbetween⟩
    refine ⟨fun i hi => heach i (List.mem_range.mp hi),?_⟩
    rw [List.pairwise_iff_getElem]
    intro i j hi hj hij a ha b hb
    rw [List.length_range] at hi hj
    rw [List.getElem_range,h.mem hi] at ha
    rw [List.getElem_range,h.mem hj] at hb
    obtain ⟨ha,rfl⟩ := ha
    obtain ⟨hb,rfl⟩ := hb
    exact hbetween a ha b hb hij

/-- The buckets of all occurring keys hold all elements. -/
theorem flatMap_filter_perm {β : Type*} [DecidableEq β] {f : α → β} {keys : List β}
    (hkeys : keys.Nodup) (l : List α) (hall : ∀ a ∈ l, f a ∈ keys) :
    (keys.flatMap fun key => l.filter fun a => decide (f a = key)).Perm l := by
  induction keys generalizing l with
  | nil =>
    cases l with
    | nil => exact List.Perm.refl _
    | cons a l => exact absurd (hall a List.mem_cons_self) List.not_mem_nil
  | cons key keys ih =>
    obtain ⟨hkey,hkeys⟩ := List.nodup_cons.mp hkeys
    have hrest := ih hkeys (l.filter fun a => !decide (f a = key)) (by
      intro a ha
      obtain ⟨hal,hne⟩ := List.mem_filter.mp ha
      rw [Bool.not_eq_true',decide_eq_false_iff_not] at hne
      exact (List.mem_cons.mp (hall a hal)).resolve_left hne)
    have hsame : (keys.flatMap fun key' => (l.filter fun a => !decide (f a = key)).filter
        fun a => decide (f a = key')) = keys.flatMap fun key' => l.filter
          fun a => decide (f a = key') := by
      refine List.flatMap_congr ?_
      intro key' hkey'
      rw [List.filter_filter]
      refine List.filter_congr ?_
      intro a _
      by_cases ha : f a = key'
      · have hne : ¬ f a = key := by
          intro he
          rw [← he,ha] at hkey
          exact hkey hkey'
        rw [decide_eq_true ha,decide_eq_false hne]
        rfl
      · rw [decide_eq_false ha,Bool.false_and]
    rw [hsame] at hrest
    rw [List.flatMap_cons]
    exact (hrest.append_left _).trans (List.filter_append_perm _ l)

end ElfIndex.Buckets
