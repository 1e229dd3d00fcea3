import ElfIndex.Elf.Image

/-! # Exact match on an image

An exact match is a window of one point. Each step of the reader goes to the subtree of
the query's next value, or ends with the missing pointer; the mono list at the end
decides about the remaining columns.
-/
namespace ElfIndex
open WordMemory Fuel

/-- The window query of a single point. -/
def Query.point (query : ℕ → ℕ) : Query := Query.window query query

theorem Query.admits_point (query : ℕ → ℕ) (dim v : ℕ) :
    (Query.point query).admits dim v = true ↔ query dim = v := by
  rw [Query.point,Query.admits_window,isIn_iff]
  omega

/-- The row of a point from column `dim` on is the one that its query selects. -/
theorem Query.selects_point (query : ℕ → ℕ) (dim : ℕ) (vs : List ℕ) :
    (Query.point query).selects dim vs = true ↔ (List.range' dim vs.length).map query = vs := by
  induction vs generalizing dim with
  | nil => simp [Query.selects]
  | cons v vs ih =>
    rw [Query.selects,Bool.and_eq_true,Query.admits_point,ih,List.length_cons,List.range'_succ,
      List.map_cons,List.cons.injEq]

namespace DimTree

/-- The subtree of one value of a dimension list. -/
def childOf (value : ℕ) : DimTree → Option DimTree
  | mono _ _ => none
  | last v child => if value = v then some child else none
  | entry v child rest => if value = v then some child else rest.childOf value

/-- No subtree of a list has a value below the first one. -/
theorem childOf_below {value : ℕ} {t : DimTree} (ho : t.Ordered) (hl : t.isList = true)
    (h : value < t.firstValue) : t.childOf value = none := by
  induction t with
  | mono values tid => cases hl
  | last v child =>
    have hne : value ≠ v := Nat.ne_of_lt h
    rw [childOf,if_neg hne]
  | entry v child rest _ ihr =>
    obtain ⟨_,_,hor,hrl,hvr⟩ := ho
    have hne : value ≠ v := Nat.ne_of_lt h
    rw [childOf,if_neg hne,ihr hor hrl (Nat.lt_trans h hvr)]

theorem search_point {query : ℕ → ℕ} {dim : ℕ} {t : DimTree} (ho : t.Ordered)
    (hl : t.isList = true) : t.search (Query.point query) dim =
      ((t.childOf (query dim)).map fun c => c.search (Query.point query) (dim+1)).getD [] := by
  induction t with
  | mono values tid => cases hl
  | last v child =>
    rw [search_last,childOf]
    by_cases h : query dim = v
    · rw [if_pos ((Query.admits_point query dim v).mpr h),if_pos h]
      rfl
    · rw [if_neg (fun ha => h ((Query.admits_point query dim v).mp ha)),if_neg h]
      rfl
  | entry v child rest _ ihr =>
    obtain ⟨_,_,hor,hrl,hvr⟩ := ho
    rw [search_entry,childOf,ihr hor hrl]
    by_cases h : query dim = v
    · rw [if_pos ((Query.admits_point query dim v).mpr h),if_pos h,
        childOf_below hor hrl (h ▸ hvr)]
      exact List.append_nil _
    · rw [if_neg (fun ha => h ((Query.admits_point query dim v).mp ha)),if_neg h,List.nil_append]

end DimTree

namespace Elf
open DimTree

variable {e : Elf} {lo hi : ℕ}

/-- The list walk ends at the pointer of the subtree, or with the missing pointer. -/
theorem listContains_spec (value : ℕ) {t : DimTree} {dim pos : ℕ} (ho : t.Ordered)
    (h : t.StoredIn e.elf e.numDim lo hi dim pos) (hl : t.isList = true) (fuel : ℕ)
    (hfuel : t.size ≤ fuel) :
    (∃ child off, t.childOf value = some child ∧ off < 2^62 ∧ child.Ordered ∧
      child.size < t.size ∧ child.StoredIn e.elf e.numDim lo hi (dim+1) off ∧
      e.listContains value fuel pos = some (child.pointer off)) ∨
    t.childOf value = none ∧ e.listContains value fuel pos = some notFound64 := by
  have hmask : lastEntryMask = 2^31 := rfl
  induction t generalizing pos fuel with
  | mono values tid => cases hl
  | last v child =>
    obtain ⟨_,_,_,hval,off,hoff,hptr,hc⟩ := h
    obtain ⟨hv,hoc⟩ := ho
    simp only [DimTree.size] at hfuel
    obtain ⟨fuel,rfl⟩ : ∃ k, fuel = k+1 := ⟨fuel-1,by omega⟩
    have hword : e.elf pos = v+2^31 := by rw [hval,value_flagged hv]
    have hmod : (v+2^31) &&& recoverMask = v := by
      rw [and_recoverMask]
      omega
    rw [listContains,hword,if_neg (by omega),hmod,hptr,childOf]
    by_cases hvalue : value = v
    · simp only [if_pos hvalue]
      exact Or.inl ⟨child,off,rfl,hoff,hoc,Nat.lt_succ_self _,hc,rfl⟩
    · simp only [if_neg hvalue]
      exact Or.inr ⟨trivial,trivial⟩
  | entry v child rest _ ihr =>
    obtain ⟨_,_,_,hval,⟨off,hoff,hptr,hc⟩,hr⟩ := h
    obtain ⟨hv,hoc,hor,hrl,hvr⟩ := ho
    simp only [DimTree.size] at hfuel
    obtain ⟨fuel,rfl⟩ : ∃ k, fuel = k+1 := ⟨fuel-1,by omega⟩
    rw [listContains,hval,if_pos (by omega),hptr,childOf]
    by_cases hvalue : value = v
    · rw [if_pos hvalue,if_pos hvalue]
      refine Or.inl ⟨child,off,rfl,hoff,hoc,?_,hc,rfl⟩
      simp only [DimTree.size]
      omega
    · rw [if_neg hvalue,if_neg hvalue]
      by_cases hlt : value < v
      · rw [if_pos hlt]
        exact Or.inr ⟨childOf_below hor hrl (hlt.trans hvr),rfl⟩
      · rw [if_neg hlt]
        rcases ihr hor hr hrl fuel (by omega) with ⟨c,off',hco,hoff',hoc',hsize,hst,hrun⟩ | hnone
        · refine Or.inl ⟨c,off',hco,hoff',hoc',?_,hst,hrun⟩
          simp only [DimTree.size]
          omega
        · exact Or.inr hnone

theorem exactMatchMonoList_spec (query : ℕ → ℕ) {values : List ℕ} {tid dim pos : ℕ}
    (h : (DimTree.mono values tid).StoredIn e.elf e.numDim lo hi dim pos) :
    e.exactMatchMonoList query dim pos =
      ((DimTree.mono values tid).search (Query.point query) dim).head?.getD notFound := by
  obtain ⟨hlen,_,_,hvals,htid⟩ := h
  have hn : e.numDim-dim = values.length := by omega
  have hall : ((List.range values.length).all fun i => query (dim+i) == e.elf (pos+i)) =
      (Query.point query).selects dim values := by
    rw [Bool.eq_iff_iff,Query.selects_iff,List.all_eq_true]
    constructor
    · intro h i hi
      have h' := h i (List.mem_range.mpr hi)
      rw [beq_iff_eq,hvals i hi] at h'
      exact (Query.admits_point query _ _).mpr h'
    · intro h i hi
      have hi' := List.mem_range.mp hi
      rw [beq_iff_eq,hvals i hi']
      exact (Query.admits_point query _ _).mp (h i hi')
  rw [exactMatchMonoList,hn,hall,htid,search_mono]
  split <;> rfl

/-- The descent from the pointer to a stored tree. -/
theorem exactMatchLists_spec (query : ℕ → ℕ) (fuel : ℕ) {t : DimTree} {dim off : ℕ}
    (hoff : off < 2^62) (ho : t.Ordered) (h : t.StoredIn e.elf e.numDim lo hi dim off)
    (hfuel : t.size+1 < fuel) :
    ∃ dim' pointer, e.exactMatchLists query fuel dim (t.pointer off) = some (dim',pointer) ∧
      (if pointer = notFound64 then notFound
        else e.exactMatchMonoList query dim' (pointer &&& recoverMask64)) =
      (t.search (Query.point query) dim).head?.getD notFound := by
  have hmask : lastEntryMask64 = 2^62 := rfl
  have hmissing : notFound64 = 2^64-1 := rfl
  induction fuel generalizing t dim off with
  | zero => omega
  | succ fuel ih =>
    cases hl : t.isList with
    | false =>
      cases t with
      | mono values tid =>
        have hptr := pointer_mono (t:=.mono values tid) hl hoff
        refine ⟨dim,off+2^62,?_,?_⟩
        · rw [exactMatchLists,hptr,if_neg (by omega)]
        · rw [if_neg (by omega),and_recoverMask64,Nat.add_mod_right,Nat.mod_eq_of_lt hoff]
          exact exactMatchMonoList_spec query h
      | last v child => cases hl
      | entry v child rest => cases hl
    | true =>
      rw [exactMatchLists,pointer_list hl,if_pos (by omega),search_point ho hl]
      rcases listContains_spec (query dim) ho h hl fuel (by omega) with
        ⟨child,off',hchild,hoff',hoc,hsize,hst,hrun⟩ | ⟨hchild,hrun⟩
      · obtain ⟨dim',pointer,hgo,hres⟩ := ih hoff' hoc hst (by omega)
        refine ⟨dim',pointer,?_,?_⟩
        · rw [hrun]
          exact hgo
        · rw [hres,hchild]
          rfl
      · obtain ⟨fuel,rfl⟩ : ∃ k, fuel = k+1 := ⟨fuel-1,by omega⟩
        refine ⟨dim+1,notFound64,?_,?_⟩
        · rw [hrun,Option.bind_eq_bind,Option.bind_some,exactMatchLists,if_neg (by omega)]
        · rw [if_pos rfl,hchild]
          rfl

end Elf

namespace Image
open Elf DimTree

variable (im : Image)

/-- The exact match inside the directory answers the row of the read root slot, if any. -/
theorem exactMatch_returns (query : ℕ → ℕ) {v : ℕ} (hv : v ≤ im.maxFirstDim)
    (hslot : exactMatchOffset query = 2*v) :
    Returns (im.exactMatch query)
      (((im.tree v).search (Query.point query) 1).head?.getD notFound) := by
  obtain ⟨off,hoff,hptr,hst⟩ := im.stored v hv
  refine ⟨(im.tree v).size+2,?_⟩
  intro fuel hfuel
  obtain ⟨dim',pointer,hrun,hres⟩ :=
    exactMatchLists_spec query fuel hoff (im.ordered v hv) hst (by omega)
  rw [exactMatch,hslot,hptr,hrun,← hres]
  rfl

theorem exactMatchOffset_eq (query : ℕ → ℕ) : exactMatchOffset query = 2*(query 0%2^31) := by
  unfold exactMatchOffset
  omega

theorem point_eq_cons (query : ℕ → ℕ) {n v : ℕ} {vs : List ℕ} (hn : 1+vs.length = n) :
    v :: vs = (List.range n).map query ↔
      v = query 0 ∧ (Query.point query).selects 1 vs = true := by
  rw [Query.selects_point,← hn,List.range_eq_range',Nat.add_comm,List.range'_succ,List.map_cons,
    List.cons.injEq,eq_comm (a:=vs)]

/-- The exact match of a point inside the directory returns the tuple identifier of the row
of the point, and the missing answer if there is no such row. -/
theorem exactMatch_exact (query : ℕ → ℕ) (hq : query 0 ≤ im.maxFirstDim) :
    ∃ answer, Returns (im.exactMatch query) answer ∧
      (∀ r ∈ im.rows, r.1 = (List.range im.numDim).map query → answer = r.2 ∧ r.2 < 2^31) ∧
      ((∀ r ∈ im.rows, r.1 ≠ (List.range im.numDim).map query) → answer = notFound) := by
  have hmax := im.maxFirstDim_lt
  have hslot : exactMatchOffset query = 2*query 0 := by
    rw [exactMatchOffset_eq,Nat.mod_eq_of_lt (by omega)]
  obtain ⟨off,_,_,hst⟩ := im.stored (query 0) hq
  have hpoint : ∀ r' ∈ (im.tree (query 0)).rows,
      query 0 :: r'.1 = (List.range im.numDim).map query ↔
        (Query.point query).selects 1 r'.1 = true := by
    intro r' hr'
    rw [point_eq_cons query (hst.rows_length r' hr')]
    exact and_iff_right rfl
  refine ⟨_,im.exactMatch_returns query hq hslot,?_,?_⟩
  · intro r hr hrow
    obtain ⟨v,hv,r',hr',rfl⟩ := im.mem_rows.mp hr
    have hlen : 1+r'.1.length = im.numDim := by
      have := congrArg List.length hrow
      simp only [List.length_cons,List.length_map,List.length_range] at this
      omega
    obtain ⟨rfl,hsel⟩ := (point_eq_cons query hlen).mp hrow
    -- only this row of the tree is selected
    have hall : ∀ s ∈ (im.tree (query 0)).rows,
        (Query.point query).selects 1 s.1 = true → s = r' := by
      intro s hs hselected
      have hsame := ((hpoint s hs).mpr hselected).trans hrow.symm
      exact rows_inj (im.ordered _ hq) hs hr' (List.cons.inj hsame).2
    have hfound : r' ∈ (im.tree (query 0)).rows.filter
        fun s => (Query.point query).selects 1 s.1 := List.mem_filter.mpr ⟨hr',hsel⟩
    refine ⟨?_,hst.tid_lt r' hr'⟩
    rw [DimTree.search]
    cases hlist : (im.tree (query 0)).rows.filter fun s => (Query.point query).selects 1 s.1 with
    | nil =>
      rw [hlist] at hfound
      cases hfound
    | cons s rest =>
      have hs : s ∈ (im.tree (query 0)).rows.filter
          fun s => (Query.point query).selects 1 s.1 := by
        rw [hlist]
        exact List.mem_cons_self
      rw [hall s (List.mem_filter.mp hs).1 (List.mem_filter.mp hs).2]
      rfl
  · intro hnone
    have hnil : (im.tree (query 0)).search (Query.point query) 1 = [] := by
      rw [DimTree.search,List.map_eq_nil_iff,List.filter_eq_nil_iff]
      intro r' hr' hsel
      exact hnone _ (im.mem_rows.mpr ⟨query 0,hq,r',hr',rfl⟩) ((hpoint r' hr').mpr hsel)
    rw [hnil]
    rfl

/-- All three root slots point to one list of the values 2 and 3; the first tuple identifier has
its top bit set. -/
def pairImage : Image where
  elf := fun p => [6,0,6,0,6,0,2,12,2^30,2^31+3,13,2^30,2^31+1,0].getD p 0
  numDim := 2
  maxFirstDim := 2
  tree := fun _ => .entry 2 (.mono [] 1) (.last 3 (.mono [] 0))
  stop := 14
  maxFirstDim_lt := by decide
  ordered := fun _ _ => ⟨by decide,trivial,⟨by decide,trivial⟩,rfl,by decide⟩
  stored := by
    intro v hv
    refine ⟨6,by decide,?_,by decide,by decide,by decide,by decide,
      ⟨12,by decide,by decide,by decide,by decide,by decide,?_,by decide⟩,
      by decide,by decide,by decide,by decide,
      13,by decide,by decide,by decide,by decide,by decide,?_,by decide⟩
    · obtain rfl | rfl | rfl : v = 0 ∨ v = 1 ∨ v = 2 := by omega
      all_goals decide
    · intro i hi
      exact absurd hi (Nat.not_lt_zero i)
    · intro i hi
      exact absurd hi (Nat.not_lt_zero i)

theorem exactMatch_exact_pair :
    ∃ answer, Returns (pairImage.exactMatch fun dim => 3*dim) answer ∧ answer = 0 := by
  obtain ⟨answer,hrun,hrow,-⟩ := exactMatch_exact pairImage (fun dim => 3*dim) (by decide)
  exact ⟨answer,hrun,(hrow ([0,3],0) (by decide) (by decide)).1⟩

end Image
end ElfIndex
