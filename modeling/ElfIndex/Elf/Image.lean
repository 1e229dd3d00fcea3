import ElfIndex.Elf.Search

/-! # What the readers answer on an image

An image is an array of words in which every root slot points to a stored tree. A query
whose first column stays inside the root directory is answered with exactly the selected
rows of the image.
-/
namespace ElfIndex
open WordMemory Fuel

/-- An array of words with a stored tree behind every root slot. -/
structure Image extends Elf where
  tree : ℕ → DimTree
  stop : ℕ
  maxFirstDim_lt : maxFirstDim < 2^31
  ordered : ∀ v ≤ maxFirstDim, (tree v).Ordered
  stored : ∀ v ≤ maxFirstDim, ∃ off < 2^62, get64 elf (2*v) = (tree v).pointer off ∧
    (tree v).StoredIn elf numDim (2*(maxFirstDim+1)) stop 1 off

namespace Image
open Elf DimTree

variable (im : Image)

/-- The rows of an image with all their columns. -/
def rows : List (List ℕ × ℕ) :=
  (List.range (im.maxFirstDim+1)).flatMap fun v => (im.tree v).rows.map fun r => (v :: r.1,r.2)

theorem mem_rows {r : List ℕ × ℕ} :
    r ∈ im.rows ↔ ∃ v ≤ im.maxFirstDim, ∃ r' ∈ (im.tree v).rows, r = (v :: r'.1,r'.2) := by
  rw [rows,List.mem_flatMap]
  constructor
  · rintro ⟨v,hv,hm⟩
    obtain ⟨r',hr',rfl⟩ := List.mem_map.mp hm
    exact ⟨v,Nat.lt_succ_iff.mp (List.mem_range.mp hv),r',hr',rfl⟩
  · rintro ⟨v,hv,r',hr',rfl⟩
    exact ⟨v,List.mem_range.mpr (Nat.lt_succ_of_le hv),List.mem_map.mpr ⟨r',hr',rfl⟩⟩

/-- The selected rows behind the root slots `l, .., u`. -/
def searchSlots (q : Query) (l u : ℕ) : List ℕ :=
  (List.range' l (u+1-l)).flatMap fun v => (im.tree v).search q 1

/-- The readers of one root slot list the selected rows of its tree. -/
theorem followPointer_root (q : Query) {v : ℕ} (hv : v ≤ im.maxFirstDim) (fuel : ℕ)
    (hfuel : (im.tree v).size ≤ fuel) (results : List ℕ) :
    im.followPointer (im.partialMatchList q fuel) q 0 (get64 im.elf (2*v)) results =
      some (results ++ (im.tree v).search q 1) := by
  obtain ⟨off,hoff,hptr,hst⟩ := im.stored v hv
  rw [hptr]
  exact followPointer_spec q hoff hst results fun hl =>
    partialMatchList_spec q (im.ordered v hv) hst hl fuel hfuel results

/-- The loop over root slots inside the directory. -/
theorem slots_run (q : Query) {l u : ℕ} (hu : l ≤ u → u ≤ im.maxFirstDim) :
    Returns (fun fuel => ((List.range' l (u+1-l)).map fun v => 2*v).foldlM
      (fun results offset => im.followPointer (im.partialMatchList q fuel) q 0
        (get64 im.elf offset) results) []) (im.searchSlots q l u) := by
  have h : Returns (fun fuel => (List.range' l (u+1-l)).foldlM (fun results v =>
      im.followPointer (im.partialMatchList q fuel) q 0 (get64 im.elf (2*v)) results) [])
      ([] ++ im.searchSlots q l u) := by
    apply Returns.foldlM_append _ _
    intro v hv
    have hle : v ≤ im.maxFirstDim := by
      have := List.mem_range'_1.mp hv
      have := hu (by omega)
      omega
    exact ⟨(im.tree v).size,fun fuel hfuel acc => im.followPointer_root q hle fuel hfuel acc⟩
  simpa only [List.foldlM_map,List.nil_append] using h

/-! ## The whole image -/

/-- The rows that a query selects, in the order of the image. -/
def search (q : Query) : List ℕ := (im.rows.filter fun r => q.selects 0 r.1).map Prod.snd

theorem filter_range (l u n : ℕ) (hu : l ≤ u → u < n) :
    (List.range n).filter (fun v => decide (l ≤ v ∧ v ≤ u)) = List.range' l (u+1-l) := by
  rcases Nat.lt_or_ge u l with h | h
  · have hz : u+1-l = 0 := by omega
    rw [hz,List.range'_zero,List.filter_eq_nil_iff]
    intro v _ hv
    have := of_decide_eq_true hv
    omega
  · have hun := hu h
    have hsplit : List.range n =
        List.range' 0 l ++ (List.range' l (u+1-l) ++ List.range' (u+1) (n-(u+1))) := by
      have h1 : u+1 = l+(u+1-l) := by omega
      have h2 : n = l+((u+1-l)+(n-(u+1))) := by omega
      rw [List.range_eq_range',h2,← List.range'_append_1,← List.range'_append_1,Nat.zero_add]
      congr 3 <;> omega
    rw [hsplit,List.filter_append,List.filter_append]
    have h1 : (List.range' 0 l).filter (fun v => decide (l ≤ v ∧ v ≤ u)) = [] := by
      rw [List.filter_eq_nil_iff]
      intro v hv hd
      have := List.mem_range'_1.mp hv
      have := of_decide_eq_true hd
      omega
    have h2 : (List.range' l (u+1-l)).filter (fun v => decide (l ≤ v ∧ v ≤ u)) =
        List.range' l (u+1-l) := by
      rw [List.filter_eq_self]
      intro v hv
      have := List.mem_range'_1.mp hv
      exact decide_eq_true (by omega)
    have h3 : (List.range' (u+1) (n-(u+1))).filter (fun v => decide (l ≤ v ∧ v ≤ u)) = [] := by
      rw [List.filter_eq_nil_iff]
      intro v hv hd
      have := List.mem_range'_1.mp hv
      have := of_decide_eq_true hd
      omega
    rw [h1,h2,h3,List.nil_append,List.append_nil]

/-- The slots between two bounds hold the rows with a first value between them. -/
theorem searchSlots_eq (q : Query) {l u : ℕ} (hu : l ≤ u → u ≤ im.maxFirstDim) :
    im.searchSlots q l u = (im.rows.filter fun r =>
      decide (l ≤ r.1.headD 0 ∧ r.1.headD 0 ≤ u) && q.selects 1 r.1.tail).map Prod.snd := by
  have hslot : ∀ v, (((im.tree v).rows.map fun r => (v :: r.1,r.2)).filter fun r =>
      decide (l ≤ r.1.headD 0 ∧ r.1.headD 0 ≤ u) && q.selects 1 r.1.tail).map Prod.snd =
      if l ≤ v ∧ v ≤ u then (im.tree v).search q 1 else [] := by
    intro v
    rw [List.filter_map,List.map_map]
    by_cases h : l ≤ v ∧ v ≤ u
    · simp only [Function.comp_def,List.headD_cons,List.tail_cons,h,and_self,decide_true,
        Bool.true_and,if_true,DimTree.search]
    · simp [Function.comp_def,h,-Bool.decide_and]
  rw [searchSlots,← filter_range l u (im.maxFirstDim+1) (fun h => Nat.lt_succ_of_le (hu h)),rows,List.filter_flatMap,
    List.map_flatMap]
  simp only [hslot]
  generalize List.range (im.maxFirstDim+1) = vs
  induction vs with
  | nil => rfl
  | cons v vs ih =>
    rw [List.flatMap_cons,← ih,List.filter_cons]
    by_cases h : l ≤ v ∧ v ≤ u
    · simp [h]
    · simp [h]

theorem rows_head {r : List ℕ × ℕ} (hr : r ∈ im.rows) :
    ∃ v vs, r.1 = v :: vs ∧ v ≤ im.maxFirstDim := by
  obtain ⟨v,hv,hm⟩ := List.mem_flatMap.mp hr
  obtain ⟨r',_,rfl⟩ := List.mem_map.mp hm
  exact ⟨v,r'.1,rfl,Nat.lt_succ_iff.mp (List.mem_range.mp hv)⟩

/-- The slots that the first column admits hold all selected rows. -/
theorem searchSlots_eq_search (q : Query) {l u : ℕ} (hu : l ≤ u → u ≤ im.maxFirstDim)
    (hin : ∀ v ≤ im.maxFirstDim, q.admits 0 v = true ↔ l ≤ v ∧ v ≤ u) :
    im.searchSlots q l u = im.search q := by
  rw [searchSlots_eq im q hu,search]
  refine congrArg (List.map Prod.snd) (List.filter_congr ?_)
  intro r hr
  obtain ⟨v,vs,he,hv⟩ := im.rows_head hr
  rw [he,Query.selects,List.headD_cons,List.tail_cons]
  apply congrArg (· && q.selects 1 vs)
  rw [Bool.eq_iff_iff,decide_eq_true_eq]
  exact (hin v hv).symm

/-- The first root slot that a query visits: doubling a bound drops its top bit. -/
def firstSlot (q : Query) : ℕ := if q.columnsForSelect 0 then q.lowerBound 0%2^31 else 0

def lastSlot (q : Query) : ℕ :=
  if q.columnsForSelect 0 then q.upperBound 0%2^31 else im.maxFirstDim

theorem rootLower_eq (q : Query) : rootLower q = 2*firstSlot q := by
  unfold rootLower firstSlot
  split <;> omega

theorem rootUpper_eq (q : Query) : im.rootUpper q = 2*im.lastSlot q := by
  have hmax := im.maxFirstDim_lt
  unfold rootUpper lastSlot
  split <;> omega

theorem rootOffsets_returns (q : Query) (hlast : im.lastSlot q < 2^31-1) :
    Returns (fun fuel => rootOffsets fuel (rootLower q) (im.rootUpper q))
      ((List.range' (firstSlot q) (im.lastSlot q+1-firstSlot q)).map fun v => 2*v) := by
  refine ⟨im.lastSlot q+1-firstSlot q+1,?_⟩
  intro fuel hfuel
  simp only [rootLower_eq,rootUpper_eq]
  exact rootOffsets_spec hlast (by omega)

/-- The root loop only ends before the last even word. -/
theorem rootOffsets_ends (q : Query) {fuel : ℕ} {offsets : List ℕ}
    (h : rootOffsets fuel (rootLower q) (im.rootUpper q) = some offsets) :
    im.lastSlot q < 2^31-1 := by
  by_contra hge
  have hlast : im.lastSlot q = 2^31-1 := by
    have hmax := im.maxFirstDim_lt
    unfold lastSlot at hge ⊢
    split at hge
    · rename_i hs
      rw [if_pos hs]
      omega
    · rename_i hs
      rw [if_neg hs]
      omega
  have hfirst : 2*firstSlot q = 2*firstSlot q%2^32 := by
    unfold firstSlot
    split <;> omega
  rw [rootLower_eq,rootUpper_eq,hlast,hfirst,rootOffsets_diverges] at h
  cases h

/-- Bounds inside the directory: the reader returns the rows of the slots in between. -/
theorem partialMatch_returns (q : Query) (hlast : im.lastSlot q < 2^31-1)
    (hin : firstSlot q ≤ im.lastSlot q → im.lastSlot q ≤ im.maxFirstDim) :
    Returns (im.partialMatch q) (im.searchSlots q (firstSlot q) (im.lastSlot q)) :=
  (im.rootOffsets_returns q hlast).bind (im.slots_run q hin)

/-- A query inside the directory is answered with all selected rows. -/
theorem partialMatch_search (q : Query) (hin : q.columnsForSelect 0 = true →
    q.lowerBound 0 ≤ q.upperBound 0 ∧ q.upperBound 0 ≤ im.maxFirstDim)
    (hlast : im.lastSlot q < 2^31-1) : Returns (im.partialMatch q) (im.search q) := by
  have hmax := im.maxFirstDim_lt
  have hup : im.lastSlot q ≤ im.maxFirstDim := by
    unfold lastSlot
    split
    · rename_i hs
      have := hin hs
      omega
    · exact le_rfl
  have hadmits : ∀ v ≤ im.maxFirstDim,
      q.admits 0 v = true ↔ firstSlot q ≤ v ∧ v ≤ im.lastSlot q := by
    intro v hv
    by_cases hs : q.columnsForSelect 0 = true
    · obtain ⟨h1,h2⟩ := hin hs
      simp only [Query.admits,firstSlot,lastSlot,hs,Bool.not_true,Bool.false_or,isIn_iff,if_true,
        Nat.mod_eq_of_lt (show q.lowerBound 0 < 2^31 by omega),
        Nat.mod_eq_of_lt (show q.upperBound 0 < 2^31 by omega)]
    · simp [Query.admits,firstSlot,lastSlot,hs,hv]
  rw [← im.searchSlots_eq_search q (fun _ => hup) hadmits]
  exact im.partialMatch_returns q hlast fun _ => hup

end Image
end ElfIndex
