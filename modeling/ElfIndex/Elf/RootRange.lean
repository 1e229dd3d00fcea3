import ElfIndex.Elf.ExactMatch

/-! # Queries that leave the root directory

The readers take the bounds of the first column as slot numbers without comparing them
with the largest first value. The results say for which queries this is harmless: the
visited slots must lie in the directory, and the dropped top bit must not change which
rows are admitted.
-/
namespace ElfIndex
open WordMemory Fuel Elf

namespace Image

variable (im : Image)

/-- The visited slots lie in the directory and admit the rows that the query admits. -/
structure InDirectory (q : Query) : Prop where
  ends : im.lastSlot q < 2^31-1
  inside : firstSlot q ≤ im.lastSlot q → im.lastSlot q ≤ im.maxFirstDim
  same : ∀ r ∈ im.rows, q.selects 1 r.1.tail = true →
    ((firstSlot q ≤ r.1.headD 0 ∧ r.1.headD 0 ≤ im.lastSlot q) ↔ q.admits 0 (r.1.headD 0) = true)

/-- The read slot lies in the directory and holds no row for a larger first value. -/
structure PointInDirectory (query : ℕ → ℕ) : Prop where
  inside : query 0%2^31 ≤ im.maxFirstDim
  same : 2^31 ≤ query 0 → ∀ r ∈ im.rows, r.1.headD 0 = query 0%2^31 →
    (Query.point query).selects 1 r.1.tail = false

/-- Two selections of rows with different identifiers answer alike exactly when they
select the same rows. -/
theorem filter_perm_iff {α : Type*} {rows : List (α × ℕ)} (h : (rows.map Prod.snd).Nodup)
    (p p' : α × ℕ → Bool) :
    ((rows.filter p).map Prod.snd).Perm ((rows.filter p').map Prod.snd) ↔
      ∀ r ∈ rows, p r = true ↔ p' r = true := by
  have hmem : ∀ (f : α × ℕ → Bool) (r : α × ℕ), r ∈ rows →
      (r.2 ∈ (rows.filter f).map Prod.snd ↔ f r = true) := by
    intro f r hr
    constructor
    · intro hm
      obtain ⟨r',hr',he⟩ := List.mem_map.mp hm
      obtain ⟨hr'',hf⟩ := List.mem_filter.mp hr'
      rwa [← List.inj_on_of_nodup_map h hr'' hr he]
    · intro hf
      exact List.mem_map_of_mem (List.mem_filter.mpr ⟨hr,hf⟩)
  constructor
  · intro hp r hr
    rw [← hmem p r hr,← hmem p' r hr]
    exact hp.mem_iff
  · intro hp
    rw [List.filter_congr fun r hr => Bool.eq_iff_iff.mpr (hp r hr)]

/-- The rows of the visited slots are the selected ones exactly when the bounds admit
the same rows with and without the top bit. -/
theorem searchSlots_perm_iff (htids : (im.rows.map Prod.snd).Nodup) (q : Query)
    (hin : firstSlot q ≤ im.lastSlot q → im.lastSlot q ≤ im.maxFirstDim) :
    (im.searchSlots q (firstSlot q) (im.lastSlot q)).Perm (im.search q) ↔
      ∀ r ∈ im.rows, q.selects 1 r.1.tail = true →
        ((firstSlot q ≤ r.1.headD 0 ∧ r.1.headD 0 ≤ im.lastSlot q) ↔
          q.admits 0 (r.1.headD 0) = true) := by
  rw [searchSlots_eq im q hin,search,filter_perm_iff htids]
  refine forall_congr' fun r => forall_congr' fun hr => ?_
  obtain ⟨v,vs,he,_⟩ := im.rows_head hr
  rw [he,Query.selects,List.headD_cons,List.tail_cons,Bool.and_eq_true,Bool.and_eq_true,
    decide_eq_true_eq]
  constructor
  · intro h hsel
    simpa only [hsel,and_true] using h
  · intro h
    exact and_congr_left h

/-- A partial match reads the directory only at its slots and answers all selected rows
exactly when it is in the directory. -/
theorem partialMatch_inDirectory_iff (htids : (im.rows.map Prod.snd).Nodup) (q : Query) :
    (∃ offsets found, Returns (fun fuel => rootOffsets fuel (rootLower q) (im.rootUpper q)) offsets ∧
      (∀ offset ∈ offsets, offset ≤ 2*im.maxFirstDim) ∧ Returns (im.partialMatch q) found ∧
        found.Perm (im.search q)) ↔ im.InDirectory q := by
  constructor
  · rintro ⟨offsets,found,hroot,hread,hfound,hperm⟩
    have hends : im.lastSlot q < 2^31-1 := by
      obtain ⟨bound,hbound⟩ := hroot
      exact im.rootOffsets_ends q (hbound bound le_rfl)
    have hoffsets := hroot.unique (im.rootOffsets_returns q hends)
    have hin : firstSlot q ≤ im.lastSlot q → im.lastSlot q ≤ im.maxFirstDim := by
      intro hle
      have hmem : 2*im.lastSlot q ∈ offsets := by
        rw [hoffsets]
        exact List.mem_map.mpr ⟨_,List.mem_range'_1.mpr ⟨hle,by omega⟩,rfl⟩
      have := hread _ hmem
      omega
    rw [hfound.unique (im.partialMatch_returns q hends hin)] at hperm
    exact ⟨hends,hin,(im.searchSlots_perm_iff htids q hin).mp hperm⟩
  · rintro ⟨hends,hin,hsame⟩
    refine ⟨_,_,im.rootOffsets_returns q hends,?_,im.partialMatch_returns q hends hin,
      (im.searchSlots_perm_iff htids q hin).mpr hsame⟩
    intro offset hoffset
    obtain ⟨v,hv,rfl⟩ := List.mem_map.mp hoffset
    have := List.mem_range'_1.mp hv
    have := hin (by omega)
    omega

/-- No row has a first value with the top bit. -/
theorem search_point_large {query : ℕ → ℕ} (h : 2^31 ≤ query 0) :
    im.search (Query.point query) = [] := by
  rw [search,List.map_eq_nil_iff,List.filter_eq_nil_iff]
  intro r hr hsel
  obtain ⟨v,vs,he,hv⟩ := im.rows_head hr
  have hmax := im.maxFirstDim_lt
  rw [he,Query.selects,Bool.and_eq_true,Query.admits_point] at hsel
  omega

theorem search_point_small {query : ℕ → ℕ} (h : query 0 ≤ im.maxFirstDim) :
    im.search (Query.point query) = (im.tree (query 0)).search (Query.point query) 1 := by
  have hadmits : ∀ v ≤ im.maxFirstDim,
      (Query.point query).admits 0 v = true ↔ query 0 ≤ v ∧ v ≤ query 0 := by
    intro v _
    rw [Query.admits_point]
    omega
  have hone : query 0+1-query 0 = 1 := by omega
  rw [← im.searchSlots_eq_search (Query.point query) (fun _ => h) hadmits,searchSlots,hone]
  exact List.append_nil _

/-- An exact match reads the directory only at its slots and answers the equal row, if
any, exactly when its point is in the directory. -/
theorem exactMatch_inDirectory_iff (query : ℕ → ℕ) :
    (exactMatchOffset query ≤ 2*im.maxFirstDim ∧
      Returns (im.exactMatch query)
        ((im.search (Query.point query)).head?.getD notFound)) ↔ im.PointInDirectory query := by
  have hmax := im.maxFirstDim_lt
  have hoff := exactMatchOffset_eq query
  constructor
  · rintro ⟨hread,hret⟩
    have hin : query 0%2^31 ≤ im.maxFirstDim := by omega
    refine ⟨hin,?_⟩
    intro hlarge r hr hhead
    have hanswer := hret.unique (im.exactMatch_returns query hin hoff)
    rw [im.search_point_large hlarge] at hanswer
    obtain ⟨v,hv,r',hr',rfl⟩ := im.mem_rows.mp hr
    rw [List.headD_cons] at hhead
    subst hhead
    by_contra hsel
    rw [Bool.not_eq_false] at hsel
    obtain ⟨off,_,_,hst⟩ := im.stored _ hv
    -- a found identifier is no missing answer
    cases hs : (im.tree (query 0%2^31)).search (Query.point query) 1 with
    | nil =>
      rw [DimTree.search,List.map_eq_nil_iff,List.filter_eq_nil_iff] at hs
      exact hs r' hr' hsel
    | cons tid tids =>
      have hmem : tid ∈ (im.tree (query 0%2^31)).search (Query.point query) 1 := by
        rw [hs]
        exact List.mem_cons_self
      obtain ⟨r'',hr'',rfl⟩ := List.mem_map.mp hmem
      have hlt := hst.tid_lt r'' (List.mem_filter.mp hr'').1
      rw [hs] at hanswer
      change notFound = r''.2 at hanswer
      have hnf : notFound = 2^32-1 := rfl
      omega
  · rintro ⟨hin,hsame⟩
    refine ⟨by omega,?_⟩
    have hret := im.exactMatch_returns query hin hoff
    rcases Nat.lt_or_ge (query 0) (2^31) with hsmall | hlarge
    · rw [Nat.mod_eq_of_lt hsmall] at hin hret
      rwa [im.search_point_small hin]
    · have hnil : (im.tree (query 0%2^31)).search (Query.point query) 1 = [] := by
        rw [DimTree.search,List.map_eq_nil_iff,List.filter_eq_nil_iff]
        intro r' hr' hsel
        have hno := hsame hlarge _ (im.mem_rows.mpr ⟨_,hin,r',hr',rfl⟩) rfl
        rw [List.tail_cons] at hno
        rw [hno] at hsel
        cases hsel
      rw [hnil] at hret
      rwa [im.search_point_large hlarge]

/-- The three readers stay in the root directory and answer the matching rows exactly
for the queries whose slots are in the directory. -/
theorem readers_inDirectory_iff (htids : (im.rows.map Prod.snd).Nodup) :
    (∀ q : Query, (∃ offsets found,
      Returns (fun fuel => rootOffsets fuel (rootLower q) (im.rootUpper q)) offsets ∧
        (∀ offset ∈ offsets, offset ≤ 2*im.maxFirstDim) ∧ Returns (im.partialMatch q) found ∧
          found.Perm (im.search q)) ↔ im.InDirectory q) ∧
    (∀ lowerBound upperBound : ℕ → ℕ, (∃ offsets found,
      Returns (fun fuel => rootOffsets fuel (lowerBound 0*2%2^32) (upperBound 0*2%2^32)) offsets ∧
        (∀ offset ∈ offsets, offset ≤ 2*im.maxFirstDim) ∧
          Returns (im.windowQuery lowerBound upperBound) found ∧
            found.Perm (im.search (Query.window lowerBound upperBound))) ↔
              im.InDirectory (Query.window lowerBound upperBound)) ∧
    ∀ query : ℕ → ℕ, (exactMatchOffset query ≤ 2*im.maxFirstDim ∧
      Returns (im.exactMatch query)
        ((im.search (Query.point query)).head?.getD notFound)) ↔ im.PointInDirectory query := by
  refine ⟨im.partialMatch_inDirectory_iff htids,?_,im.exactMatch_inDirectory_iff⟩
  intro lowerBound upperBound
  rw [← im.partialMatch_inDirectory_iff htids]
  have hwindow : im.windowQuery lowerBound upperBound =
      im.partialMatch (Query.window lowerBound upperBound) :=
    funext fun fuel => windowQuery_eq_partialMatch lowerBound upperBound fuel
  rw [hwindow]
  rfl

/-- The image of the single point `(0,2,2^30)`. -/
def pointImage : Image where
  elf := fun p => [2,2^30,2,2^30,0].getD p 0
  numDim := 3
  maxFirstDim := 0
  tree := fun _ => .mono [2,2^30] 0
  stop := 5
  maxFirstDim_lt := by decide
  ordered := fun _ _ => trivial
  stored := by
    intro v hv
    obtain rfl : v = 0 := by omega
    refine ⟨2,by decide,by decide,rfl,by decide,by decide,?_,by decide⟩
    decide

theorem readers_inDirectory_iff_point :
    (∀ q : Query, (∃ offsets found,
      Returns (fun fuel => rootOffsets fuel (rootLower q) (pointImage.rootUpper q)) offsets ∧
        (∀ offset ∈ offsets, offset ≤ 2*0) ∧ Returns (pointImage.partialMatch q) found ∧
          found.Perm (pointImage.search q)) ↔ pointImage.InDirectory q) ∧
    (∀ lowerBound upperBound : ℕ → ℕ, (∃ offsets found,
      Returns (fun fuel => rootOffsets fuel (lowerBound 0*2%2^32) (upperBound 0*2%2^32)) offsets ∧
        (∀ offset ∈ offsets, offset ≤ 2*0) ∧
          Returns (pointImage.windowQuery lowerBound upperBound) found ∧
            found.Perm (pointImage.search (Query.window lowerBound upperBound))) ↔
              pointImage.InDirectory (Query.window lowerBound upperBound)) ∧
    ∀ query : ℕ → ℕ, (exactMatchOffset query ≤ 2*0 ∧
      Returns (pointImage.exactMatch query)
        ((pointImage.search (Query.point query)).head?.getD notFound)) ↔
          pointImage.PointInDirectory query :=
  readers_inDirectory_iff pointImage (by decide)

/-- The point `(1,2,2^30)`. -/
def strayPoint (dim : ℕ) : ℕ := [1,2,2^30].getD dim 0

/-- A query behind the largest first value reads the words of the stored row as a root
slot, and answers the row, whose first value is another one. -/
theorem readers_stray :
    Returns (fun fuel => rootOffsets fuel (strayPoint 0*2%2^32) (strayPoint 0*2%2^32)) [2] ∧
      ¬ 2 ≤ 2*pointImage.maxFirstDim ∧
      Returns (pointImage.windowQuery strayPoint strayPoint) [0] ∧
      Returns (pointImage.exactMatch strayPoint) 0 ∧
      pointImage.search (Query.point strayPoint) = [] := by
  refine ⟨⟨2,?_⟩,by decide,⟨2,?_⟩,⟨1,?_⟩,by decide⟩
  · intro fuel hfuel
    obtain ⟨fuel,rfl⟩ : ∃ k, fuel = k+2 := ⟨fuel-2,by omega⟩
    rfl
  · intro fuel hfuel
    obtain ⟨fuel,rfl⟩ : ∃ k, fuel = k+2 := ⟨fuel-2,by omega⟩
    rfl
  · intro fuel hfuel
    obtain ⟨fuel,rfl⟩ : ∃ k, fuel = k+1 := ⟨fuel-1,by omega⟩
    rfl

end Image
end ElfIndex
