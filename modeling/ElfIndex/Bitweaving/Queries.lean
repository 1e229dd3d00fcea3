import ElfIndex.Bitweaving.Library

/-! # The bit-weaving index

The index scans the columns of a query with the library and turns the bit vector into tids
with `toTids`. The scans of the library are a parameter: they combine the old bit of a tuple
with the answer for its code. The tids are those of the row scan up to the number of their
block, so the index answers like the row scan as long as no tuple behind the first block
is selected.
-/
namespace ElfIndex
open Bitmap Bitweaving

namespace BitWeaving

/-- The columns of the table. -/
def buildIndex (s : Store) (codeSizes : ℕ → ℕ) (dim : ℕ) : Column where
  codeSize := codeSizes dim
  codes := (List.range s.numPoints).map fun tid => s.value tid dim

/-- The branch of the column loops; `twoPass` is the macro `BW_TWO_PASS`. -/
def scanColumn (lib : Library) (twoPass : Bool) (column : Column) (lower upper : ℕ)
    (bitvector : BitVector) : BitVector :=
  if lower = upper then lib.scan column lower .kEqual .kAnd bitvector
  else if twoPass then
    lib.scan column upper .kLessEqual .kAnd (lib.scan column lower .kGreaterEqual .kAnd bitvector)
  else lib.scanBetween column lower upper .kAnd bitvector

/-- There is no answer if the search for the first selected column runs out of the array. -/
def partialMatch (lib : Library) (twoPass : Bool) (s : Store) (table : ℕ → Column)
    (words : ℕ → ℕ → WordUnit) (q : Query) : Option (List ℕ) := do
  let bitvector := BitVector.ofTable s.numPoints words
  let dim ← (List.range s.numDim).find? q.columnsForSelect
  let bitvector := lib.scanBetween (table dim) (q.lowerBound dim) (q.upperBound dim) .kSet bitvector
  let bitvector := (List.range' dim (s.numDim-dim)).foldl (fun bitvector dim =>
    if q.columnsForSelect dim then
      scanColumn lib twoPass (table dim) (q.lowerBound dim) (q.upperBound dim) bitvector
    else bitvector) bitvector
  bitvector.toTids s.numPoints

/-- There is no answer if the table has no column `0`. -/
def windowQuery (lib : Library) (twoPass : Bool) (s : Store) (table : ℕ → Column)
    (words : ℕ → ℕ → WordUnit) (lowerBound upperBound : ℕ → ℕ) : Option (List ℕ) :=
  if s.numDim = 0 then none
  else
    let bitvector := BitVector.ofTable s.numPoints words
    let bitvector := lib.scanBetween (table 0) (lowerBound 0) (upperBound 0) .kAnd bitvector
    let bitvector := (List.range' 1 (s.numDim-1)).foldl (fun bitvector dim =>
      scanColumn lib twoPass (table dim) (lowerBound dim) (upperBound dim) bitvector) bitvector
    bitvector.toTids s.numPoints

/-! ## Scans -/

open BitVector (Selected)

theorem selected_congr {bv : BitVector} {n : ℕ} {p p' : ℕ → Bool} (h : Selected bv n p)
    (hp : ∀ tid < n, p tid = p' tid) : Selected bv n p' := by
  refine ⟨h.nums,?_⟩
  intro blockId k hk hlt
  rw [h.bit blockId k hk hlt,hp _ hlt]

variable {s : Store} {codeSizes : ℕ → ℕ} {dim : ℕ} {bv bv' : BitVector} {p : ℕ → Bool}

theorem length_codes : (buildIndex s codeSizes dim).codes.length = s.numPoints := by
  rw [buildIndex,List.length_map,List.length_range]

/-- A scan combines the selection with the answers for the values of the column. -/
theorem selected_scanned {opt : BitVectorOpt} {test : ℕ → Bool} (h : Selected bv s.numPoints p)
    (hs : Scanned (buildIndex s codeSizes dim) opt test bv bv') :
    Selected bv' s.numPoints fun tid => opt.combine (p tid) (test (s.value tid dim)) := by
  refine ⟨hs.nums.trans h.nums,?_⟩
  intro blockId k hk hlt
  have hcode : (buildIndex s codeSizes dim).codes.getD (blockId*kNumCodesPerBlock+k) 0 =
      s.value (blockId*kNumCodesPerBlock+k) dim := by
    rw [buildIndex,List.getD_eq_getElem?_getD,List.getElem?_map,List.getElem?_range hlt]
    rfl
  rw [hs.bit blockId k hk (hlt.trans_eq length_codes.symm),h.bit blockId k hk hlt,hcode]

section
variable {lib : Library} (hlib : lib.Exact) {lower upper : ℕ} (hlu : lower ≤ upper)
  (hupper : upper < 2^codeSizes dim)

include hlib hlu hupper

theorem selected_scanBetween (opt : BitVectorOpt) (h : Selected bv s.numPoints p) :
    Selected (lib.scanBetween (buildIndex s codeSizes dim) lower upper opt bv) s.numPoints
      fun tid => opt.combine (p tid) (isIn lower upper (s.value tid dim)) :=
  selected_scanned h (hlib.scanBetween _ lower upper opt bv hlu hupper
    (h.nums.trans (congrArg _ length_codes.symm)))

theorem selected_scanColumn (twoPass : Bool) (h : Selected bv s.numPoints p) :
    Selected (scanColumn lib twoPass (buildIndex s codeSizes dim) lower upper bv) s.numPoints
      fun tid => p tid && isIn lower upper (s.value tid dim) := by
  have hscan : ∀ literal comparator, literal ≤ upper → ∀ bv p, Selected bv s.numPoints p →
      Selected (lib.scan (buildIndex s codeSizes dim) literal comparator .kAnd bv) s.numPoints
        fun tid => p tid && comparator.test literal (s.value tid dim) := by
    intro literal comparator hliteral bv p h
    exact selected_scanned h (hlib.scan _ literal comparator .kAnd bv (hliteral.trans_lt hupper)
      (h.nums.trans (congrArg _ length_codes.symm)))
  unfold scanColumn
  by_cases heq : lower = upper
  · rw [if_pos heq]
    refine selected_congr (hscan lower .kEqual hlu bv p h) ?_
    intro tid _
    congr 1
    rw [Bool.eq_iff_iff,isIn_iff]
    simp only [Comparator.test,beq_iff_eq]
    omega
  · rw [if_neg heq]
    cases twoPass with
    | false => exact selected_scanBetween hlib hlu hupper .kAnd h
    | true =>
      have hboth := hscan upper .kLessEqual le_rfl _ _ (hscan lower .kGreaterEqual hlu bv p h)
      refine selected_congr hboth ?_
      intro tid _
      rw [Bool.and_assoc]
      rfl

end

/-- A loop over columns of the query. -/
theorem selected_foldColumns (step : BitVector → ℕ → BitVector) {q : Query} (dims : List ℕ)
    (hstep : ∀ dim ∈ dims, ∀ bv p, Selected bv s.numPoints p →
      Selected (step bv dim) s.numPoints fun tid => p tid && q.admits dim (s.value tid dim))
    (h : Selected bv s.numPoints p) :
    Selected (dims.foldl step bv) s.numPoints
      fun tid => p tid && dims.all fun dim => q.admits dim (s.value tid dim) := by
  induction dims generalizing bv p with
  | nil => exact selected_congr h fun tid _ => by simp
  | cons dim dims ih =>
    have htail := ih (fun d hd => hstep d (List.mem_cons_of_mem dim hd))
      (hstep dim List.mem_cons_self bv p h)
    refine selected_congr htail ?_
    intro tid _
    rw [List.all_cons,Bool.and_assoc]

/-! ## Queries -/

section
variable {lib : Library} (hlib : lib.Exact) (twoPass : Bool) (words : ℕ → ℕ → WordUnit)

include hlib

/-- The answer is the one of the row scan with the tids taken modulo the block size. -/
theorem partialMatch_eq {q : Query} (hsel : ∃ dim < s.numDim, q.columnsForSelect dim = true)
    (hq : ∀ dim < s.numDim, q.columnsForSelect dim = true →
      q.lowerBound dim ≤ q.upperBound dim ∧ q.upperBound dim < 2^codeSizes dim) :
    partialMatch lib twoPass s (buildIndex s codeSizes) words q =
      some ((SeqScan.partialMatch s q).map (·%kNumCodesPerBlock)) := by
  obtain ⟨dim,hdim,hfind,hselected,hbefore⟩ := Query.exists_first hsel
  have hbounds := hq dim hdim hselected
  have hfirst := selected_scanBetween hlib hbounds.1 hbounds.2 .kSet
    (Selected.ofTable s.numPoints words)
  have hloop := selected_foldColumns (q:=q) (fun bitvector dim =>
      if q.columnsForSelect dim then
        scanColumn lib twoPass (buildIndex s codeSizes dim) (q.lowerBound dim) (q.upperBound dim)
          bitvector
      else bitvector) (List.range' dim (s.numDim-dim)) (by
    intro d hd bv p h
    have hlt := List.mem_range'_1.mp hd
    by_cases hs : q.columnsForSelect d = true
    · have hb := hq d (by omega) hs
      rw [if_pos hs]
      refine selected_congr (selected_scanColumn hlib hb.1 hb.2 twoPass h) ?_
      intro tid _
      simp only [Query.admits,hs,Bool.not_true,Bool.false_or]
    · rw [if_neg hs]
      refine selected_congr h ?_
      intro tid _
      simp [Query.admits,hs]) hfirst
  have hrow : ∀ tid < s.numPoints, (BitVectorOpt.kSet.combine true
      (isIn (q.lowerBound dim) (q.upperBound dim) (s.value tid dim)) &&
      (List.range' dim (s.numDim-dim)).all fun dim => q.admits dim (s.value tid dim)) =
      isPartiallyIn (s.value tid) q s.numDim := by
    intro tid _
    have hrange : List.range' dim (s.numDim-dim) =
        dim :: List.range' (dim+1) (s.numDim-dim-1) := by
      rw [← List.range'_succ]
      congr 1
      omega
    -- the first column is scanned twice
    rw [isPartiallyIn_eq_first hdim hselected hbefore,hrange,List.all_cons,Query.admits,hselected,
      Bool.not_true,Bool.false_or]
    exact Bool.and_self_left _ _
  simp only [partialMatch,hfind,Option.bind_eq_bind,Option.bind_some]
  exact (selected_congr hloop hrow).toTids

theorem windowQuery_eq {lowerBound upperBound : ℕ → ℕ} (hdim : 1 ≤ s.numDim)
    (hq : ∀ dim < s.numDim,
      lowerBound dim ≤ upperBound dim ∧ upperBound dim < 2^codeSizes dim) :
    windowQuery lib twoPass s (buildIndex s codeSizes) words lowerBound upperBound =
      some ((SeqScan.windowQuery s lowerBound upperBound).map (·%kNumCodesPerBlock)) := by
  have hfirst := selected_scanBetween hlib (hq 0 hdim).1 (hq 0 hdim).2 .kAnd
    (Selected.ofTable s.numPoints words)
  have hloop := selected_foldColumns (q:=.window lowerBound upperBound) (fun bitvector dim =>
      scanColumn lib twoPass (buildIndex s codeSizes dim) (lowerBound dim) (upperBound dim)
        bitvector) (List.range' 1 (s.numDim-1)) (by
    intro d hd bv p h
    have hlt := List.mem_range'_1.mp hd
    have hb := hq d (by omega)
    simp only [Query.admits_window]
    exact selected_scanColumn hlib hb.1 hb.2 twoPass h) hfirst
  have hrow : ∀ tid < s.numPoints, (BitVectorOpt.kAnd.combine true
      (isIn (lowerBound 0) (upperBound 0) (s.value tid 0)) &&
      (List.range' 1 (s.numDim-1)).all fun dim =>
        (Query.window lowerBound upperBound).admits dim (s.value tid dim)) =
      isInPoint (s.value tid) lowerBound upperBound s.numDim := by
    intro tid _
    exact (isPartiallyIn_eq_first (q:=Query.window lowerBound upperBound) hdim rfl
      fun dim hlt => absurd hlt (Nat.not_lt_zero dim)).symm
  simp only [windowQuery,if_neg (Nat.one_le_iff_ne_zero.mp hdim)]
  exact (selected_congr hloop hrow).toTids

end

theorem map_mod_eq_iff (p : ℕ → Bool) (n B : ℕ) :
    ((List.range n).filter p).map (·%B) = (List.range n).filter p ↔
      ∀ tid < n, p tid = true → tid%B = tid := by
  conv_lhs => rhs; rw [← List.map_id ((List.range n).filter p)]
  rw [List.map_inj_left]
  simp only [List.mem_filter,List.mem_range,and_imp,id_eq]

/-- Partial-match and window queries on the bit-weaving index answer like the row scan if and
only if no tuple behind the first block is in the answer. -/
theorem bitWeaving_exact_iff (lib : Library) (hlib : lib.Exact) (twoPass : Bool) (s : Store)
    (codeSizes : ℕ → ℕ) (words : ℕ → ℕ → WordUnit) :
    (∀ q : Query, (∃ dim < s.numDim, q.columnsForSelect dim = true) →
      (∀ dim < s.numDim, q.columnsForSelect dim = true →
        q.lowerBound dim ≤ q.upperBound dim ∧ q.upperBound dim < 2^codeSizes dim) →
      (partialMatch lib twoPass s (buildIndex s codeSizes) words q =
          some (SeqScan.partialMatch s q) ↔
        ∀ tid < s.numPoints, isPartiallyIn (s.value tid) q s.numDim = true →
          tid < kNumCodesPerBlock)) ∧
    ∀ lowerBound upperBound : ℕ → ℕ, 1 ≤ s.numDim →
      (∀ dim < s.numDim, lowerBound dim ≤ upperBound dim ∧ upperBound dim < 2^codeSizes dim) →
      (windowQuery lib twoPass s (buildIndex s codeSizes) words lowerBound upperBound =
          some (SeqScan.windowQuery s lowerBound upperBound) ↔
        ∀ tid < s.numPoints, isInPoint (s.value tid) lowerBound upperBound s.numDim = true →
          tid < kNumCodesPerBlock) := by
  have hmod : ∀ tid, tid%kNumCodesPerBlock = tid ↔ tid < kNumCodesPerBlock := fun tid =>
    Nat.mod_eq_iff_lt kNumCodesPerBlock_pos.ne'
  refine ⟨?_,?_⟩
  · intro q hsel hq
    rw [partialMatch_eq hlib twoPass words hsel hq,Option.some_inj,SeqScan.partialMatch,
      map_mod_eq_iff]
    simp only [hmod]
  · intro lowerBound upperBound hdim hq
    rw [windowQuery_eq hlib twoPass words hdim hq,Option.some_inj,SeqScan.windowQuery,
      map_mod_eq_iff]
    simp only [hmod]

theorem bitWeaving_exact_grid :
    partialMatch naiveLibrary true gridStore (buildIndex gridStore fun _ => 3) (fun _ _ => 7#64)
        (Query.window (fun _ => 1) fun _ => 3) =
          some (SeqScan.partialMatch gridStore (Query.window (fun _ => 1) fun _ => 3)) ∧
      windowQuery naiveLibrary false gridStore (buildIndex gridStore fun _ => 3) (fun _ _ => 7#64)
        (fun _ => 1) (fun _ => 3) = some (SeqScan.windowQuery gridStore (fun _ => 1) fun _ => 3) := by
  have hlt : ∀ tid < gridStore.numPoints, tid < kNumCodesPerBlock := fun tid htid =>
    htid.trans (by decide)
  have hmatch := bitWeaving_exact_iff naiveLibrary naiveLibrary_exact true gridStore (fun _ => 3)
    fun _ _ => 7#64
  have hwindow := bitWeaving_exact_iff naiveLibrary naiveLibrary_exact false gridStore
    (fun _ => 3) fun _ _ => 7#64
  refine ⟨?_,?_⟩
  · exact (hmatch.1 (Query.window (fun _ => 1) fun _ => 3) ⟨0,by decide,rfl⟩
      fun _ _ _ => (by decide : 1 ≤ 3 ∧ 3 < 2^3)).mpr fun tid htid _ => hlt tid htid
  · exact (hwindow.2 _ _ (by decide) fun _ _ => (by decide : 1 ≤ 3 ∧ 3 < 2^3)).mpr
      fun tid htid _ => hlt tid htid

/-- One row more than a block has, all of them equal. -/
def longStore : Store := .ofRows 1 0 0 (List.replicate (kNumCodesPerBlock+1) [0]) (by
  refine ⟨?_,?_,?_,by decide⟩
  · intro p hp
    obtain rfl := List.eq_of_mem_replicate hp
    decide
  · rw [List.length_replicate]
    decide
  · rw [List.length_replicate]
    decide)

def zeroQuery : Query := Query.window (fun _ => 0) fun _ => 0

/-- The last of the rows is returned as tuple 0. -/
theorem longStore_wraps :
    naiveLibrary.Exact ∧ (∃ dim < longStore.numDim, zeroQuery.columnsForSelect dim = true) ∧
      (∀ dim < longStore.numDim, zeroQuery.columnsForSelect dim = true →
        zeroQuery.lowerBound dim ≤ zeroQuery.upperBound dim ∧ zeroQuery.upperBound dim < 2^1) ∧
      partialMatch naiveLibrary false longStore (buildIndex longStore fun _ => 1) (fun _ _ => 0#64)
        zeroQuery ≠ some (SeqScan.partialMatch longStore zeroQuery) := by
  have hbounds : ∀ dim < longStore.numDim, zeroQuery.columnsForSelect dim = true →
      zeroQuery.lowerBound dim ≤ zeroQuery.upperBound dim ∧ zeroQuery.upperBound dim < 2^1 :=
    fun _ _ _ => (by decide : 0 ≤ 0 ∧ 0 < 2^1)
  have hselected : ∀ tid, isPartiallyIn (longStore.value tid) zeroQuery longStore.numDim = true := by
    intro tid
    have hvalue : longStore.value tid 0 = 0 := by
      simp only [Store.value,longStore,Store.ofRows,List.getD_eq_getElem?_getD,
        List.getElem?_replicate]
      split <;> rfl
    rw [isPartiallyIn_iff]
    intro dim hdim
    obtain rfl := Nat.lt_one_iff.mp hdim
    rw [zeroQuery,Query.admits_window,hvalue]
    rfl
  refine ⟨naiveLibrary_exact,⟨0,by decide,rfl⟩,hbounds,?_⟩
  rw [partialMatch_eq naiveLibrary_exact false _ ⟨0,by decide,rfl⟩ hbounds,ne_eq,
    Option.some_inj,SeqScan.partialMatch,map_mod_eq_iff]
  intro hall
  have hlt : kNumCodesPerBlock < longStore.numPoints := by
    simp [Store.numPoints,longStore,Store.ofRows]
  have hmod := hall kNumCodesPerBlock hlt (hselected _)
  rw [Nat.mod_self] at hmod
  exact absurd hmod kNumCodesPerBlock_pos.ne

end BitWeaving
end ElfIndex
