import ElfIndex.Elf.DimTree
import ElfIndex.Lib.Fuel

/-! # What the readers answer on a stored tree

On a stored tree each reader terminates and lists exactly the selected rows, in tree
order; the early return on a too large value never skips a selected row. The root loop
visits every second word between its bounds.
-/
namespace ElfIndex
open WordMemory Fuel

namespace Elf
open DimTree

variable {e : Elf} {lo hi : ℕ}

theorem partialMatchMonoList_spec (q : Query) {values : List ℕ} {tid dim pos : ℕ}
    (h : (DimTree.mono values tid).StoredIn e.elf e.numDim lo hi dim pos) (results : List ℕ) :
    e.partialMatchMonoList q dim pos results =
      results ++ (DimTree.mono values tid).search q dim := by
  obtain ⟨hlen,_,_,hvals,htid⟩ := h
  have hn : e.numDim-dim = values.length := by omega
  have hall : ((List.range values.length).all fun i =>
      if q.columnsForSelect (dim+i) then
        isIn (q.lowerBound (dim+i)) (q.upperBound (dim+i)) (e.elf (pos+i))
      else true) = q.selects dim values := by
    rw [Bool.eq_iff_iff,Query.selects_iff,List.all_eq_true]
    constructor
    · intro h i hi
      have h' := h i (List.mem_range.mpr hi)
      rw [hvals i hi] at h'
      by_cases hc : q.columnsForSelect (dim+i) = true
      · simpa [Query.admits,hc] using h'
      · simp [Query.admits,hc]
    · intro h i hi
      have hi' := List.mem_range.mp hi
      have h' := h i hi'
      rw [hvals i hi']
      by_cases hc : q.columnsForSelect (dim+i) = true
      · simpa [Query.admits,hc] using h'
      · simp [hc]
  rw [partialMatchMonoList,hn,hall,htid,search_mono]
  split <;> simp

/-- Following the pointer to a stored tree lists its selected rows, given that the list
reader does so. -/
theorem followPointer_spec (q : Query) {rec : ℕ → ℕ → List ℕ → Option (List ℕ)} {t : DimTree}
    {dim off : ℕ} (hoff : off < 2^62) (h : t.StoredIn e.elf e.numDim lo hi (dim+1) off)
    (results : List ℕ) (hrec : t.isList = true →
      rec (dim+1) off results = some (results ++ t.search q (dim+1))) :
    e.followPointer rec q dim (t.pointer off) results =
      some (results ++ t.search q (dim+1)) := by
  have hmask : lastEntryMask64 = 2^62 := rfl
  rcases hl : t.isList with _ | _
  · cases t with
    | mono values tid =>
      rw [followPointer,pointer_mono hl hoff,if_neg (by omega),and_recoverMask64,
        Nat.add_mod_right,Nat.mod_eq_of_lt hoff,partialMatchMonoList_spec q h]
    | last v child => cases hl
    | entry v child rest => cases hl
  · rw [followPointer,pointer_list hl,if_pos (by omega)]
    exact hrec hl

/-- The recursive reader on a stored dimension list. -/
theorem partialMatchList_spec (q : Query) {t : DimTree} {dim pos : ℕ} (ho : t.Ordered)
    (h : t.StoredIn e.elf e.numDim lo hi dim pos) (hl : t.isList = true) (fuel : ℕ)
    (hfuel : t.size ≤ fuel) (results : List ℕ) :
    e.partialMatchList q fuel dim pos results = some (results ++ t.search q dim) := by
  have hmask : lastEntryMask = 2^31 := rfl
  induction t generalizing dim pos fuel results with
  | mono values tid => cases hl
  | last v child ih =>
    obtain ⟨_,_,_,hval,off,hoff,hptr,hc⟩ := h
    obtain ⟨hv,hoc⟩ := ho
    simp only [DimTree.size] at hfuel
    obtain ⟨fuel,rfl⟩ : ∃ k, fuel = k+1 := ⟨fuel-1,by omega⟩
    have hword : e.elf pos = v+2^31 := by rw [hval,value_flagged hv]
    have hfollow : e.followPointer (e.partialMatchList q fuel) q dim (child.pointer off) results =
        some (results ++ child.search q (dim+1)) :=
      followPointer_spec q hoff hc results fun hcl => ih hoc hc hcl fuel (by omega) results
    have hge : ¬ v+2^31 < lastEntryMask := by omega
    have hmod : (v+2^31)%2^31 = v := by omega
    simp only [partialMatchList,hword,hge,if_false,and_recoverMask,hmod,hptr,hfollow,search_last,
      Query.admits]
    by_cases hs : q.columnsForSelect dim = true
    · by_cases hin : isIn (q.lowerBound dim) (q.upperBound dim) v = true
      · simp [hs,hin]
      · simp [hs,hin]
    · simp [hs]
  | entry v child rest ihc ihr =>
    obtain ⟨_,_,_,hval,⟨off,hoff,hptr,hc⟩,hr⟩ := h
    obtain ⟨hv,hoc,hor,hrl,hvr⟩ := ho
    simp only [DimTree.size] at hfuel
    obtain ⟨fuel,rfl⟩ : ∃ k, fuel = k+1 := ⟨fuel-1,by omega⟩
    have hfollow : e.followPointer (e.partialMatchList q fuel) q dim (child.pointer off) results =
        some (results ++ child.search q (dim+1)) :=
      followPointer_spec q hoff hc results fun hcl => ihc hoc hc hcl fuel (by omega) results
    have hnext : ∀ acc, e.partialMatchList q fuel dim (pos+3) acc =
        some (acc ++ rest.search q dim) := fun acc => ihr hor hr hrl fuel (by omega) acc
    have hlt : v < lastEntryMask := by omega
    simp only [partialMatchList,hval,hlt,if_true,hptr,hfollow,hnext,search_entry,Query.admits,
      Option.bind_eq_bind,Option.bind_some]
    by_cases hs : q.columnsForSelect dim = true
    · by_cases hin : isIn (q.lowerBound dim) (q.upperBound dim) v = true
      · simp [hs,hin]
      · by_cases hup : q.upperBound dim < v
        · simp [hs,hin,hup,search_above q hs hor hrl (hup.trans hvr)]
        · simp [hs,hin,hup]
    · simp [hs]

/-! ## The window reader -/

theorem evluateWindowOnMonoList_eq (lowerBound upperBound : ℕ → ℕ) (dim start : ℕ)
    (results : List ℕ) :
    e.evluateWindowOnMonoList lowerBound upperBound dim start results =
      e.partialMatchMonoList (Query.window lowerBound upperBound) dim start results := by
  simp only [evluateWindowOnMonoList,partialMatchMonoList,Query.window,if_true]

/-- The window reader is the partial-match reader with every column selected. -/
theorem evluateWindowOnList_eq (lowerBound upperBound : ℕ → ℕ) (fuel : ℕ) :
    e.evluateWindowOnList lowerBound upperBound fuel =
      e.partialMatchList (Query.window lowerBound upperBound) fuel := by
  induction fuel with
  | zero => rfl
  | succ fuel ih =>
    funext dim pos results
    simp only [evluateWindowOnList,partialMatchList,ih,evluateWindowPointer,followPointer,
      evluateWindowOnMonoList_eq]
    rfl

theorem windowQuery_eq_partialMatch (lowerBound upperBound : ℕ → ℕ) (fuel : ℕ) :
    e.windowQuery lowerBound upperBound fuel =
      e.partialMatch (Query.window lowerBound upperBound) fuel := by
  simp only [windowQuery,partialMatch,evluateWindowOnList_eq,evluateWindowPointer,followPointer,
    evluateWindowOnMonoList_eq]
  rfl

/-! ## The root directory -/

theorem rootOffsets_run (upper n offset fuel : ℕ) (hoff : offset+2*n < 2^32)
    (hlast : ∀ k ≤ n, offset+2*k ≤ upper ↔ k < n) (hfuel : n < fuel) :
    rootOffsets fuel offset upper = some ((List.range n).map fun k => offset+2*k) := by
  induction n generalizing offset fuel with
  | zero =>
    obtain ⟨fuel,rfl⟩ : ∃ k, fuel = k+1 := ⟨fuel-1,by omega⟩
    have h0 := hlast 0 le_rfl
    rw [rootOffsets,if_neg (by omega)]
    rfl
  | succ n ih =>
    obtain ⟨fuel,rfl⟩ : ∃ k, fuel = k+1 := ⟨fuel-1,by omega⟩
    have h0 := hlast 0 (Nat.zero_le _)
    have hmod : (offset+2)%2^32 = offset+2 := Nat.mod_eq_of_lt (by omega)
    rw [rootOffsets,if_pos (by omega),hmod,ih (offset+2) fuel (by omega) ?_ (by omega),
      List.range_succ_eq_map,List.map_cons,List.map_map]
    · simp only [Option.map_some,Nat.mul_zero,Nat.add_zero,Function.comp_def,Option.some.injEq,
        List.cons.injEq,true_and]
      apply List.map_congr_left
      intro k _
      omega
    · intro k hk
      have := hlast (k+1) (by omega)
      omega

/-- Below the last even word the loop visits the slots `l, .., u`. -/
theorem rootOffsets_spec {l u fuel : ℕ} (hu : u < 2^31-1) (hfuel : u+1-l < fuel) :
    rootOffsets fuel (2*l) (2*u) = some ((List.range' l (u+1-l)).map fun v => 2*v) := by
  rcases Nat.lt_or_ge u l with h | h
  · have hz : u+1-l = 0 := by omega
    obtain ⟨fuel,rfl⟩ : ∃ k, fuel = k+1 := ⟨fuel-1,by omega⟩
    rw [rootOffsets,if_neg (by omega),hz]
    rfl
  · rw [rootOffsets_run (2*u) (u+1-l) (2*l) fuel (by omega) (fun k _ => by omega) hfuel,
      List.range'_eq_map_range,List.map_map]
    refine congrArg some (List.map_congr_left ?_)
    intro k _
    simp only [Function.comp_apply]
    omega

/-- Up to the last even word the loop never ends. -/
theorem rootOffsets_diverges (l fuel : ℕ) : rootOffsets fuel (2*l%2^32) (2*(2^31-1)) = none := by
  induction fuel generalizing l with
  | zero => rfl
  | succ fuel ih =>
    have hnext : (2*l%2^32+2)%2^32 = 2*(l+1)%2^32 := by omega
    rw [rootOffsets,if_pos (by omega),hnext,ih (l+1)]
    rfl

end Elf

end ElfIndex
