import ElfIndex.Elf.ExactMatch

/-! # Selecting all columns, or fewer

A window query is the partial match that selects every column, at every step bound and
on every memory. On an image a partial match with more selected columns keeps a sub-list
of the answer with fewer.
-/
namespace ElfIndex
open Fuel Elf

/-- The query lets more rows pass when it tests fewer columns. -/
theorem Query.selects_fewer {lowerBound upperBound : ℕ → ℕ} {columns columns' : ℕ → Bool}
    {dim : ℕ} {vs : List ℕ}
    (hsub : ∀ d < dim+vs.length, columns d = true → columns' d = true)
    (h : (Query.mk lowerBound upperBound columns').selects dim vs = true) :
    (Query.mk lowerBound upperBound columns).selects dim vs = true := by
  rw [Query.selects_iff] at h ⊢
  intro i hi
  have hin := h i hi
  simp only [Query.admits] at hin ⊢
  rcases hc : columns (dim+i) with _ | _
  · rfl
  · rwa [hsub (dim+i) (by omega) hc] at hin

namespace Image

variable (im : Image)

theorem rows_length {r : List ℕ × ℕ} (hr : r ∈ im.rows) : r.1.length = im.numDim := by
  obtain ⟨v,hv,r',hr',rfl⟩ := im.mem_rows.mp hr
  obtain ⟨off,_,_,hstored⟩ := im.stored v hv
  have := hstored.rows_length r' hr'
  rw [List.length_cons]
  omega

/-- The rows selected by more columns are a sub-list of those selected by fewer. -/
theorem search_sublist (lowerBound upperBound : ℕ → ℕ) {columns columns' : ℕ → Bool}
    (hsub : ∀ d < im.numDim, columns d = true → columns' d = true) :
    (im.search ⟨lowerBound,upperBound,columns'⟩).Sublist
      (im.search ⟨lowerBound,upperBound,columns⟩) := by
  have hfilter : (im.rows.filter fun r => (Query.mk lowerBound upperBound columns').selects 0 r.1) =
      (im.rows.filter fun r => (Query.mk lowerBound upperBound columns).selects 0 r.1).filter
        fun r => (Query.mk lowerBound upperBound columns').selects 0 r.1 := by
    rw [List.filter_filter]
    refine List.filter_congr ?_
    intro r hr
    rw [Bool.eq_iff_iff,Bool.and_eq_true]
    constructor
    · intro h
      refine ⟨h,Query.selects_fewer ?_ h⟩
      rwa [im.rows_length hr,Nat.zero_add]
    · exact fun h => h.1
  rw [search,search,hfilter]
  exact List.filter_sublist.map Prod.snd

/-- Inside the directory a partial match answers the selected rows, if it answers. -/
theorem partialMatch_eq_search (q : Query) (hle : q.lowerBound 0 ≤ q.upperBound 0)
    (hmax : q.upperBound 0 ≤ im.maxFirstDim) {tids : List ℕ}
    (h : Returns (im.partialMatch q) tids) : tids = im.search q := by
  have hlast : im.lastSlot q < 2^31-1 := by
    obtain ⟨bound,hbound⟩ := h
    have hrun := hbound bound le_rfl
    rw [partialMatch,Option.bind_eq_bind,Option.bind_eq_some_iff] at hrun
    obtain ⟨offsets,hroot,_⟩ := hrun
    exact im.rootOffsets_ends q hroot
  exact h.unique (im.partialMatch_search q (fun _ => ⟨hle,hmax⟩) hlast)

/-- A window query is the partial match with all columns selected, each answer is the
selected rows, and selecting more columns keeps a sub-list. A reader returns unless its
last root slot holds the last even word that 32 bits address. -/
theorem windowQuery_allSelected (lowerBound upperBound : ℕ → ℕ)
    (hle : lowerBound 0 ≤ upperBound 0) (hmax : upperBound 0 ≤ im.maxFirstDim) :
    (∀ fuel, im.windowQuery lowerBound upperBound fuel =
      im.partialMatch ⟨lowerBound,upperBound,fun _ => true⟩ fuel) ∧
    (∀ columns, im.lastSlot ⟨lowerBound,upperBound,columns⟩ < 2^31-1 →
      Returns (im.partialMatch ⟨lowerBound,upperBound,columns⟩)
        (im.search ⟨lowerBound,upperBound,columns⟩)) ∧
    ∀ columns columns' : ℕ → Bool, (∀ d < im.numDim, columns d = true → columns' d = true) →
      ∀ tids tids', Returns (im.partialMatch ⟨lowerBound,upperBound,columns⟩) tids →
        Returns (im.partialMatch ⟨lowerBound,upperBound,columns'⟩) tids' →
          tids'.Sublist tids := by
  refine ⟨windowQuery_eq_partialMatch lowerBound upperBound,?_,?_⟩
  · intro columns hlast
    exact im.partialMatch_search ⟨lowerBound,upperBound,columns⟩ (fun _ => ⟨hle,hmax⟩) hlast
  · intro columns columns' hsub tids tids' h h'
    rw [im.partialMatch_eq_search _ hle hmax h,im.partialMatch_eq_search _ hle hmax h']
    exact im.search_sublist lowerBound upperBound hsub

theorem windowQuery_allSelected_pairImage :
    (∀ fuel, pairImage.windowQuery (fun _ => 0) (fun _ => 2) fuel =
      pairImage.partialMatch ⟨fun _ => 0,fun _ => 2,fun _ => true⟩ fuel) ∧
    (∀ columns, pairImage.lastSlot ⟨fun _ => 0,fun _ => 2,columns⟩ < 2^31-1 →
      Returns (pairImage.partialMatch ⟨fun _ => 0,fun _ => 2,columns⟩)
        (pairImage.search ⟨fun _ => 0,fun _ => 2,columns⟩)) ∧
    ∀ columns columns' : ℕ → Bool, (∀ d < 2, columns d = true → columns' d = true) →
      ∀ tids tids', Returns (pairImage.partialMatch ⟨fun _ => 0,fun _ => 2,columns⟩) tids →
        Returns (pairImage.partialMatch ⟨fun _ => 0,fun _ => 2,columns'⟩) tids' →
          tids'.Sublist tids :=
  windowQuery_allSelected pairImage (fun _ => 0) (fun _ => 2) (by decide) (by decide)

/-- The second column selects one of the two points behind each root slot. -/
example : pairImage.search ⟨fun _ => 0,fun _ => 2,fun _ => true⟩ = [1,1,1] ∧
    pairImage.search ⟨fun _ => 0,fun _ => 2,fun dim => dim == 0⟩ = [1,0,1,0,1,0] := by decide

end Image
end ElfIndex
