import ElfIndex.Imprint.Lines
import ElfIndex.Scan.SimdKernels

/-! # The SIMD scan

Every selected column is tested in blocks of 32 tuples and then in blocks of 16, as long as
a block starts at least nine tuples before the end of the table. The tuples behind the last
block keep their bits, so the scan is only right when they are all in the query.
-/
namespace ElfIndex
open WordMemory Bitmap

/-- The members of the scan; the result bitmap keeps what the last query left. -/
structure SIMDSeqScan where
  cols : ℕ → Memory
  result : Bitmap

namespace SIMDSeqScan

def buildIndex (s : Store) (padding : ℕ → ℕ → ℕ) (result : Bitmap) : SIMDSeqScan where
  cols := column s padding
  result := result

/-- The values of `for (; tid+last < bound; tid += last+1)` and the value behind the loop. -/
def loopTids (last bound tid : ℕ) : List ℕ × ℕ :=
  if tid+last < bound then
    let rest := loopTids last bound (tid+(last+1))
    (tid :: rest.1,rest.2)
  else ([],tid)
termination_by bound-tid

/-- The two loops over the tuples of a column. -/
def selectColumn (col : Memory) (lower upper numPoints : ℕ) (result : Bitmap) : Bitmap :=
  let (tids,tid) := loopTids 31 (numPoints+7) 0
  let result := tids.foldl (fun result tid =>
    simdCheck32TidsAnd col (tid/4) tid result (lowerSIMD lower) (upperSIMD upper)) result
  let (tids,_) := loopTids 15 (numPoints+7) tid
  tids.foldl (fun result tid =>
    simdCheckTidsAnd col (tid/4) tid result (lowerSIMD lower) (upperSIMD upper)) result

def partialMatch (s : Store) (ix : SIMDSeqScan) (q : Query) : Option (List ℕ) :=
  let result := (List.range s.numDim).foldl (fun result dim =>
    if q.columnsForSelect dim then
      selectColumn (ix.cols dim) (q.lowerBound dim) (q.upperBound dim) s.numPoints result
    else result) (memset ix.result 255#8 ((s.numPoints+7)/8))
  returnTids result s.numPoints

def windowQuery (s : Store) (ix : SIMDSeqScan) (lowerBound upperBound : ℕ → ℕ) :
    Option (List ℕ) :=
  let result := (List.range s.numDim).foldl (fun result dim =>
    selectColumn (ix.cols dim) (lowerBound dim) (upperBound dim) s.numPoints result)
    (memset ix.result 255#8 ((s.numPoints+7)/8))
  returnTids result s.numPoints

/-! ## The tested blocks -/

/-- From a block border on the loop visits the blocks that end before the bound. -/
theorem loopTids_eq {w last : ℕ} (hw : w = last+1) (bound lo : ℕ) :
    loopTids last bound (w*lo) =
      ((List.range' lo (bound/w-lo)).map (w*·),w*max lo (bound/w)) := by
  have hpos : 0 < w := by omega
  have hblock : ∀ k, w*k+last < bound ↔ k < bound/w := by
    intro k
    have h := Nat.le_div_iff_mul_le (x:=k+1) (y:=bound) hpos
    rw [Nat.add_mul,Nat.one_mul,Nat.mul_comm k] at h
    omega
  induction hn : bound/w-lo generalizing lo with
  | zero =>
    rw [loopTids,if_neg (by rw [hblock]; omega),Nat.max_eq_left (by omega)]
    rfl
  | succ n ih =>
    have hnext : w*lo+(last+1) = w*(lo+1) := by rw [Nat.mul_add,hw,Nat.mul_one]
    rw [loopTids,if_pos (by rw [hblock]; omega),hnext,ih (lo+1) (by omega),
      List.range'_succ,Nat.max_eq_right (show lo ≤ bound/w by omega),
      Nat.max_eq_right (show lo+1 ≤ bound/w by omega)]
    rfl

/-- The two loops test the tuples of the whole blocks below `numPoints+7`. -/
theorem bit_selectColumn (col : Memory) (lower upper numPoints : ℕ) (result : Bitmap) (tid : ℕ) :
    bit (selectColumn col lower upper numPoints result) tid =
      (bit result tid && if tid < 16*((numPoints+7)/16) then
        laneIn (lowerSIMD lower) (upperSIMD upper) (col tid) else true) := by
  have h32 := loopTids_eq (w:=32) rfl (numPoints+7) 0
  have h16 := loopTids_eq (w:=16) rfl (numPoints+7) (2*((numPoints+7)/32))
  have hstart : 32*max 0 ((numPoints+7)/32) = 16*(2*((numPoints+7)/32)) := by omega
  rw [Nat.mul_zero] at h32
  simp only [selectColumn,h32,hstart,h16,List.foldl_map]
  rw [bit_foldBlocks (fun res block => bit_simdCheckTidsAnd col block res _ _ tid),
    bit_foldBlocks (fun res block => bit_simdCheck32TidsAnd col block res _ _ tid),Bool.and_assoc]
  by_cases hfirst : tid/32 < (numPoints+7)/32
  · rw [if_pos (by omega),if_neg (by omega),if_pos (by omega),Bool.and_true]
  · by_cases hsecond : tid/16 < (numPoints+7)/16
    · rw [if_neg (by omega),if_pos (by omega),if_pos (by omega),Bool.true_and]
    · rw [if_neg (by omega),if_neg (by omega),if_neg (by omega),Bool.true_and]

variable {s : Store} {q : Query}

/-- The answer has the tuples of the tested blocks that are in the query, and all others. -/
theorem partialMatch_filter
    (hv : ∀ tid < s.numPoints, ∀ dim < s.numDim, s.value tid dim < 2^31)
    (hq : ∀ dim < s.numDim, q.columnsForSelect dim = true →
      q.lowerBound dim ≤ q.upperBound dim ∧ q.upperBound dim < 2^31-1)
    (padding : ℕ → ℕ → ℕ) (result : Bitmap) :
    partialMatch s (buildIndex s padding result) q =
      some ((List.range s.numPoints).filter fun tid =>
        decide (16*((s.numPoints+7)/16) ≤ tid) || isPartiallyIn (s.value tid) q s.numDim) := by
  rw [partialMatch,returnTids_spec]
  refine congrArg some (List.filter_congr ?_)
  intro tid hmem
  have htid := List.mem_range.mp hmem
  have hcol : ∀ dim, column s padding dim tid = s.value tid dim := fun dim => if_pos htid
  have hstart : bit (memset result 255#8 ((s.numPoints+7)/8)) tid = true :=
    bit_memset_ones result (by omega)
  by_cases htail : 16*((s.numPoints+7)/16) ≤ tid
  · -- no column touches the bit
    rw [decide_eq_true htail,Bool.true_or]
    refine (bit_foldl_of_untouched _ ?_ _).trans hstart
    intro dim res
    split
    · simp only [buildIndex,bit_selectColumn,if_neg (show ¬ tid < 16*((s.numPoints+7)/16) by omega),
        Bool.and_true]
    · rfl
  · rw [decide_eq_false htail,Bool.false_or]
    refine (bit_foldColumns q (s.value tid) s.numDim ?_ _).trans ?_
    · intro dim hdim res
      by_cases hs : q.columnsForSelect dim = true
      · obtain ⟨hlu,hu⟩ := hq dim hdim hs
        rw [if_pos hs,bit_selectColumn,if_pos (by omega)]
        simp only [buildIndex,hcol,laneIn_eq_isIn hlu hu (hv tid htid dim hdim),Query.admits,hs,
          Bool.not_true,Bool.false_or]
      · rw [if_neg hs]
        simp [Query.admits,hs]
    · change (bit (memset result 255#8 _) tid && _) = _
      rw [hstart,Bool.true_and]

theorem windowQuery_eq_partialMatch (ix : SIMDSeqScan) (lowerBound upperBound : ℕ → ℕ) :
    windowQuery s ix lowerBound upperBound =
      partialMatch s ix (Query.window lowerBound upperBound) := by
  simp only [windowQuery,partialMatch,Query.window,if_true]

/-- The tuples behind the last tested block are all in the query. -/
def TailSelected (s : Store) (q : Query) : Prop :=
  1 ≤ s.numPoints%16 → s.numPoints%16 ≤ 8 → ∀ tid < s.numPoints, 16*(s.numPoints/16) ≤ tid →
    isPartiallyIn (s.value tid) q s.numDim = true

/-- A partial match answers like the row scan exactly when the untested tail is selected. -/
theorem partialMatch_eq_iff
    (hv : ∀ tid < s.numPoints, ∀ dim < s.numDim, s.value tid dim < 2^31)
    (hq : ∀ dim < s.numDim, q.columnsForSelect dim = true →
      q.lowerBound dim ≤ q.upperBound dim ∧ q.upperBound dim < 2^31-1)
    (padding : ℕ → ℕ → ℕ) (result : Bitmap) :
    partialMatch s (buildIndex s padding result) q = some (SeqScan.partialMatch s q) ↔
      TailSelected s q := by
  rw [partialMatch_filter hv hq,Option.some.injEq,SeqScan.partialMatch]
  constructor
  · intro h h1 h8 tid htid htail
    have hmem : tid ∈ (List.range s.numPoints).filter fun tid =>
        decide (16*((s.numPoints+7)/16) ≤ tid) || isPartiallyIn (s.value tid) q s.numDim := by
      rw [List.mem_filter,Bool.or_eq_true,decide_eq_true_eq]
      exact ⟨List.mem_range.mpr htid,Or.inl (by omega)⟩
    rw [h] at hmem
    exact (List.mem_filter.mp hmem).2
  · intro h
    refine List.filter_congr ?_
    intro tid hmem
    have htid := List.mem_range.mp hmem
    by_cases htail : 16*((s.numPoints+7)/16) ≤ tid
    · rw [h (by omega) (by omega) tid htid (by omega),Bool.or_true]
    · rw [decide_eq_false htail,Bool.false_or]

/-- Both queries of the SIMD scan answer like the row scan exactly when the tuples behind the
last tested block are all in the query. -/
theorem simdSeqScan_exact_iff (s : Store)
    (hv : ∀ tid < s.numPoints, ∀ dim < s.numDim, s.value tid dim < 2^31)
    (padding : ℕ → ℕ → ℕ) (result : Bitmap) :
    (∀ q : Query, (∀ dim < s.numDim, q.columnsForSelect dim = true →
        q.lowerBound dim ≤ q.upperBound dim ∧ q.upperBound dim < 2^31-1) →
      (partialMatch s (buildIndex s padding result) q = some (SeqScan.partialMatch s q) ↔
        TailSelected s q)) ∧
    ∀ lowerBound upperBound : ℕ → ℕ, (∀ dim < s.numDim,
        lowerBound dim ≤ upperBound dim ∧ upperBound dim < 2^31-1) →
      (windowQuery s (buildIndex s padding result) lowerBound upperBound =
          some (SeqScan.windowQuery s lowerBound upperBound) ↔
        TailSelected s (Query.window lowerBound upperBound)) := by
  refine ⟨fun q hq => partialMatch_eq_iff hv hq padding result,?_⟩
  intro lowerBound upperBound hq
  rw [windowQuery_eq_partialMatch]
  exact partialMatch_eq_iff hv (fun dim hdim _ => hq dim hdim) padding result

/-- The window of one point. -/
def cornerQuery : Query := Query.window (fun dim => if dim = 0 then 3 else 1)
  fun dim => if dim = 0 then 3 else 1

theorem simdSeqScan_exact_grid :
    (partialMatch gridStore (buildIndex gridStore (fun _ _ => 9) fun _ => 7#8) cornerQuery =
        some (SeqScan.partialMatch gridStore cornerQuery) ↔ TailSelected gridStore cornerQuery) ∧
      (windowQuery gridStore (buildIndex gridStore (fun _ _ => 9) fun _ => 7#8) (fun _ => 0)
          (fun _ => 7) = some (SeqScan.windowQuery gridStore (fun _ => 0) fun _ => 7) ↔
        TailSelected gridStore (Query.window (fun _ => 0) fun _ => 7)) := by
  have h := simdSeqScan_exact_iff gridStore (by decide) (fun _ _ => 9) fun _ => 7#8
  exact ⟨h.1 cornerQuery (by decide),h.2 _ _ (by decide)⟩

/-- Four tuples are too few for a block, so the scan returns all of them. -/
theorem partialMatch_grid_untested :
    1 ≤ gridStore.numPoints ∧
      (∀ tid < gridStore.numPoints, ∀ dim < gridStore.numDim, gridStore.value tid dim < 2^31) ∧
      (∀ dim < gridStore.numDim, cornerQuery.columnsForSelect dim = true →
        cornerQuery.lowerBound dim ≤ cornerQuery.upperBound dim ∧
          cornerQuery.upperBound dim < 2^31-1) ∧
      ∀ padding result, partialMatch gridStore (buildIndex gridStore padding result) cornerQuery ≠
        some (SeqScan.partialMatch gridStore cornerQuery) := by
  refine ⟨by decide,by decide,by decide,?_⟩
  intro padding result
  rw [partialMatch_filter (by decide) (by decide)]
  decide

end SIMDSeqScan
end ElfIndex
