import ElfIndex.Imprint.Uncompressed
import ElfIndex.Scan.SimdKernels

/-! # SIMD imprints without compression

Two indexes with the imprints of the scalar one. The first tests the tuples of a line with
SIMD instructions; the second also tests the imprints of two lines at once. A pair is left
alone when neither of its imprints has a bin outside of the inner mask, and then both of
its lines only have values between the bounds.
-/
namespace ElfIndex
open WordMemory Bitmap

namespace ImprintSIMDIndexWithoutCompression
open ImprintIndexWithoutCompression (setAll)

/-- The index is built as the scalar one. -/
def buildIndex (s : Store) (bins : ℕ → Bins) (padding : ℕ → ℕ → ℕ) (result : Bitmap) :
    ImprintIndexWithoutCompression :=
  ImprintIndexWithoutCompression.buildIndex s bins padding result

/-- One line of the loop of `range_select_column`. -/
def selectLine (imps : List Mask) (mask innermask : Mask) (col : Memory)
    (lowerSIMD upperSIMD : BitVec 32) (result : Bitmap) (curCacheLine : ℕ) : Bitmap :=
  let curImprint := imps.getD curCacheLine 0#64
  let tid := 16*curCacheLine
  if curImprint &&& mask ≠ 0#64 then
    if curImprint &&& innermask ≠ 0#64 then
      simdCheckTidsAnd col (tid/4) tid result lowerSIMD upperSIMD
    else result
  else setByte (setByte result (tid/8) 0#8) (tid/8+1) 0#8

def rangeSelectColumn (s : Store) (ix : ImprintIndexWithoutCompression) (curDim lower upper : ℕ)
    (result : Bitmap) : Bitmap :=
  let imprints := ix.columnImprints curDim
  let (mask,tempInnermask) := makeMask s imprints.bins lower upper
  (List.range ((s.numPoints+15)/16)).foldl (selectLine imprints.imps mask (~~~tempInnermask)
    (ix.cols curDim) (lowerSIMD lower) (upperSIMD upper)) result

def partialMatch (s : Store) (ix : ImprintIndexWithoutCompression) (q : Query) :
    Option (List ℕ) :=
  let result := (List.range s.numDim).foldl (fun result dim =>
    if q.columnsForSelect dim then
      rangeSelectColumn s ix dim (q.lowerBound dim) (q.upperBound dim) result
    else result) (setAll s ix.result)
  returnTids result s.numPoints

end ImprintSIMDIndexWithoutCompression

namespace ImprintSIMD64IndexWithoutCompression
open ImprintIndexWithoutCompression (setAll)

/-- The index is built as the scalar one. -/
def buildIndex (s : Store) (bins : ℕ → Bins) (padding : ℕ → ℕ → ℕ) (result : Bitmap) :
    ImprintIndexWithoutCompression :=
  ImprintIndexWithoutCompression.buildIndex s bins padding result

/-- One pair of lines; `_mm_test_all_zeros` asks for a common bit of two 128-bit words. -/
def selectPair (imps : List Mask) (mask innermask : Mask) (col : Memory)
    (lowerSIMD upperSIMD : BitVec 32) (result : Bitmap) (curCacheLine : ℕ) : Bitmap :=
  let curSIMDImprint := imps.getD (2*curCacheLine+1) 0#64 ++ imps.getD (2*curCacheLine) 0#64
  let tid := 32*curCacheLine
  if curSIMDImprint &&& (mask ++ mask) ≠ 0#128 then
    if curSIMDImprint &&& (innermask ++ innermask) ≠ 0#128 then
      simdCheck32TidsAnd col (tid/4) tid result lowerSIMD upperSIMD
    else result
  else
    setByte (setByte (setByte (setByte result (tid/8) 0#8) (tid/8+1) 0#8) (tid/8+2) 0#8)
      (tid/8+3) 0#8

/-- The loop over the pairs and the loop over the line that is left. -/
def rangeSelectColumn (s : Store) (ix : ImprintIndexWithoutCompression) (curDim lower upper : ℕ)
    (result : Bitmap) : Bitmap :=
  let imprints := ix.columnImprints curDim
  let (mask,tempInnermask) := makeMask s imprints.bins lower upper
  let numCacheLines := (s.numPoints+15)/16
  let curCacheLine := numCacheLines/2
  let result := (List.range curCacheLine).foldl (selectPair imprints.imps mask (~~~tempInnermask)
    (ix.cols curDim) (lowerSIMD lower) (upperSIMD upper)) result
  let curCacheLine := curCacheLine*2
  (List.range' curCacheLine (numCacheLines-curCacheLine)).foldl
    (ImprintSIMDIndexWithoutCompression.selectLine imprints.imps mask (~~~tempInnermask)
      (ix.cols curDim) (lowerSIMD lower) (upperSIMD upper)) result

def partialMatch (s : Store) (ix : ImprintIndexWithoutCompression) (q : Query) :
    Option (List ℕ) :=
  let result := (List.range s.numDim).foldl (fun result dim =>
    if q.columnsForSelect dim then
      rangeSelectColumn s ix dim (q.lowerBound dim) (q.upperBound dim) result
    else result) (setAll s ix.result)
  returnTids result s.numPoints

end ImprintSIMD64IndexWithoutCompression

/-! ## Lines and pairs -/

/-- Two words side by side have no common bit with two copies of a mask. -/
theorem append_and_eq_zero (hi lo mask : Mask) :
    (hi ++ lo) &&& (mask ++ mask) = 0#128 ↔ hi &&& mask = 0#64 ∧ lo &&& mask = 0#64 := by
  rw [BitVec.and_append]
  constructor
  · intro h
    have hhi := congrArg (BitVec.extractLsb' 64 64) h
    have hlo := congrArg (BitVec.extractLsb' 0 64) h
    rw [BitVec.extractLsb'_append_eq_left] at hhi
    rw [BitVec.extractLsb'_append_eq_right] at hlo
    exact ⟨hhi,hlo⟩
  · rintro ⟨h1,h2⟩
    rw [h1,h2]
    exact BitVec.zero_append_zero

section
variable {s : Store} {bins : Bins} {col : Memory} {lower upper tid : ℕ}

/-- What a line or a pair relies on. -/
structure SimdReady (s : Store) (bins : Bins) (col : Memory) (lower upper : ℕ) : Prop where
  numPoints : 1 ≤ s.numPoints
  bins : Monotone bins
  bounds : lower ≤ upper
  upper_lt : upper < 2^31-1
  range : ∀ tid < s.numPoints, s.dimMin ≤ col tid ∧ col tid ≤ s.dimMax
  value_lt : ∀ tid < s.numPoints, col tid < 2^31

theorem SimdReady.laneIn_eq (h : SimdReady s bins col lower upper) (htid : tid < s.numPoints) :
    laneIn (lowerSIMD lower) (upperSIMD upper) (col tid) = isIn lower upper (col tid) :=
  laneIn_eq_isIn h.bounds h.upper_lt (h.value_lt tid htid)

theorem SimdReady.bit_selectLine (h : SimdReady s bins col lower upper)
    (htid : tid < s.numPoints) (result : Bitmap) (line : ℕ) :
    bit (ImprintSIMDIndexWithoutCompression.selectLine (lineMasks bins col s.numPoints)
      (makeMask s bins lower upper).1 (~~~(makeMask s bins lower upper).2) col (lowerSIMD lower)
      (upperSIMD upper) result line) tid =
      (bit result tid && if tid/16 = line then isIn lower upper (col tid) else true) := by
  rw [← ImprintIndexWithoutCompression.bit_selectLine h.bins h.bounds h.range result line htid]
  simp only [ImprintSIMDIndexWithoutCompression.selectLine,ImprintIndexWithoutCompression.selectLine]
  split
  · split
    · rw [bit_simdCheckTidsAnd,bit_checkTidsAnd,h.laneIn_eq htid]
    · rfl
  · rfl

theorem bit_clearPair (result : Bitmap) (pair tid : ℕ) :
    bit (setByte (setByte (setByte (setByte result (32*pair/8) 0#8) (32*pair/8+1) 0#8)
      (32*pair/8+2) 0#8) (32*pair/8+3) 0#8) tid =
      if tid/32 = pair then false else bit result tid := by
  rw [bit_setByte,bit_setByte,bit_setByte,bit_setByte,BitVec.getLsbD_zero]
  by_cases hpair : tid/32 = pair
  · rw [if_pos hpair]
    have hbyte : tid/8 = 32*pair/8+3 ∨ tid/8 = 32*pair/8+2 ∨ tid/8 = 32*pair/8+1 ∨
        tid/8 = 32*pair/8 := by omega
    rcases hbyte with hbyte | hbyte | hbyte | hbyte <;> simp [hbyte]
  · rw [if_neg hpair,if_neg (by omega),if_neg (by omega),if_neg (by omega),if_neg (by omega)]

/-- One pair clears the bits of its tuples that are not between the bounds. -/
theorem SimdReady.bit_selectPair (h : SimdReady s bins col lower upper)
    (htid : tid < s.numPoints) (result : Bitmap) (pair : ℕ) :
    bit (ImprintSIMD64IndexWithoutCompression.selectPair (lineMasks bins col s.numPoints)
      (makeMask s bins lower upper).1 (~~~(makeMask s bins lower upper).2) col (lowerSIMD lower)
      (upperSIMD upper) result pair) tid =
      (bit result tid && if tid/32 = pair then isIn lower upper (col tid) else true) := by
  simp only [ImprintSIMD64IndexWithoutCompression.selectPair,ne_eq,ite_not,append_and_eq_zero]
  have hline : tid/32 = pair → tid/16 = 2*pair ∨ tid/16 = 2*pair+1 := by omega
  by_cases hmiss : (lineMasks bins col s.numPoints).getD (2*pair+1) 0#64 &&&
      (makeMask s bins lower upper).1 = 0#64 ∧
      (lineMasks bins col s.numPoints).getD (2*pair) 0#64 &&& (makeMask s bins lower upper).1 = 0#64
  · rw [if_pos hmiss,bit_clearPair]
    by_cases hpair : tid/32 = pair
    · have hin : isIn lower upper (col tid) = false := by
        rcases hline hpair with hl | hl
        · exact lineMasks_miss h.bins htid (by rw [hl]; exact hmiss.2)
        · exact lineMasks_miss h.bins htid (by rw [hl]; exact hmiss.1)
      rw [if_pos hpair,if_pos hpair,hin,Bool.and_false]
    · rw [if_neg hpair,if_neg hpair,Bool.and_true]
  · rw [if_neg hmiss]
    by_cases hinner : (lineMasks bins col s.numPoints).getD (2*pair+1) 0#64 &&&
        ~~~(makeMask s bins lower upper).2 = 0#64 ∧
        (lineMasks bins col s.numPoints).getD (2*pair) 0#64 &&&
          ~~~(makeMask s bins lower upper).2 = 0#64
    · rw [if_pos hinner]
      by_cases hpair : tid/32 = pair
      · -- whichever line of the pair misses the outer mask, both are inside of the inner one
        have hin : isIn lower upper (col tid) = true := by
          rcases hline hpair with hl | hl
          · exact lineMasks_inner h.bins h.bounds (h.range tid htid) htid
              (by rw [hl]; exact hinner.2)
          · exact lineMasks_inner h.bins h.bounds (h.range tid htid) htid
              (by rw [hl]; exact hinner.1)
        rw [if_pos hpair,hin,Bool.and_true]
      · rw [if_neg hpair,Bool.and_true]
    · rw [if_neg hinner,bit_simdCheck32TidsAnd,h.laneIn_eq htid]

end

/-! ## Queries -/

section
variable {s : Store} {bins : ℕ → Bins} {padding : ℕ → ℕ → ℕ} {dim lower upper tid : ℕ}
  (h : SimdReady s (bins dim) (column s padding dim) lower upper)

include h

theorem SimdReady.bit_simdSelectColumn (old result : Bitmap) (htid : tid < s.numPoints) :
    bit (ImprintSIMDIndexWithoutCompression.rangeSelectColumn s
      (ImprintSIMDIndexWithoutCompression.buildIndex s bins padding old) dim lower upper result)
      tid = (bit result tid && isIn lower upper (s.value tid dim)) := by
  have hcol : column s padding dim tid = s.value tid dim := if_pos htid
  simp only [ImprintSIMDIndexWithoutCompression.rangeSelectColumn,
    ImprintSIMDIndexWithoutCompression.buildIndex,ImprintIndexWithoutCompression.buildIndex,
    ImprintIndexWithoutCompression.createColumnImprint_eq _ _ (show 1 ≤ s.numPoints by omega),
    List.range_eq_range']
  rw [bit_foldBlocks (h.bit_selectLine htid),if_pos (by omega),hcol]

theorem SimdReady.bit_simd64SelectColumn (old result : Bitmap) (htid : tid < s.numPoints) :
    bit (ImprintSIMD64IndexWithoutCompression.rangeSelectColumn s
      (ImprintSIMD64IndexWithoutCompression.buildIndex s bins padding old) dim lower upper result)
      tid = (bit result tid && isIn lower upper (s.value tid dim)) := by
  have hcol : column s padding dim tid = s.value tid dim := if_pos htid
  simp only [ImprintSIMD64IndexWithoutCompression.rangeSelectColumn,
    ImprintSIMD64IndexWithoutCompression.buildIndex,ImprintIndexWithoutCompression.buildIndex,
    ImprintIndexWithoutCompression.createColumnImprint_eq _ _ (show 1 ≤ s.numPoints by omega),
    List.range_eq_range']
  rw [bit_foldBlocks (h.bit_selectLine htid),bit_foldBlocks (h.bit_selectPair htid),hcol]
  by_cases hpair : tid/32 < (s.numPoints+15)/16/2
  · rw [if_pos (by omega),if_neg (by omega),Bool.and_true]
  · rw [if_neg (by omega),if_pos (by omega),Bool.and_true]

end

/-- What the indexes of a store rely on. -/
theorem simdReady_column {s : Store} (hn : 1 ≤ s.numPoints) {bins : Bins} (hbins : Monotone bins)
    (padding : ℕ → ℕ → ℕ) {dim lower upper : ℕ} (hbounds : lower ≤ upper ∧ upper < 2^31-1)
    (hvalues : ∀ tid < s.numPoints, (s.dimMin ≤ s.value tid dim ∧ s.value tid dim ≤ s.dimMax) ∧
      s.value tid dim < 2^31) :
    SimdReady s bins (column s padding dim) lower upper := by
  have hcol : ∀ tid < s.numPoints, column s padding dim tid = s.value tid dim :=
    fun tid htid => if_pos htid
  refine ⟨hn,hbins,hbounds.1,hbounds.2,?_,?_⟩
  · intro tid htid
    rw [hcol tid htid]
    exact (hvalues tid htid).1
  · intro tid htid
    rw [hcol tid htid]
    exact (hvalues tid htid).2

section
variable {s : Store} {bins : ℕ → Bins} {q : Query}
  (hvalues : ∀ tid < s.numPoints, ∀ dim < s.numDim,
    (s.dimMin ≤ s.value tid dim ∧ s.value tid dim ≤ s.dimMax) ∧ s.value tid dim < 2^31)
  (hbins : ∀ dim < s.numDim, Monotone (bins dim))
  (hq : ∀ dim < s.numDim, q.columnsForSelect dim = true →
    q.lowerBound dim ≤ q.upperBound dim ∧ q.upperBound dim < 2^31-1)

include hvalues hbins hq

theorem ImprintSIMDIndexWithoutCompression.partialMatch_eq (padding : ℕ → ℕ → ℕ)
    (result : Bitmap) :
    ImprintSIMDIndexWithoutCompression.partialMatch s
      (ImprintSIMDIndexWithoutCompression.buildIndex s bins padding result) q =
      some (SeqScan.partialMatch s q) := by
  refine returnTids_foldColumns ?_ fun tid htid =>
    ImprintIndexWithoutCompression.bit_setAll result htid
  intro dim hdim hs res tid htid
  have hready := simdReady_column (by omega) (hbins dim hdim) padding (hq dim hdim hs)
    fun t ht => hvalues t ht dim hdim
  exact hready.bit_simdSelectColumn result res htid

theorem ImprintSIMD64IndexWithoutCompression.partialMatch_eq (padding : ℕ → ℕ → ℕ)
    (result : Bitmap) :
    ImprintSIMD64IndexWithoutCompression.partialMatch s
      (ImprintSIMD64IndexWithoutCompression.buildIndex s bins padding result) q =
      some (SeqScan.partialMatch s q) := by
  refine returnTids_foldColumns ?_ fun tid htid =>
    ImprintIndexWithoutCompression.bit_setAll result htid
  intro dim hdim hs res tid htid
  have hready := simdReady_column (by omega) (hbins dim hdim) padding (hq dim hdim hs)
    fun t ht => hvalues t ht dim hdim
  exact hready.bit_simd64SelectColumn result res htid

end

/-- The pairwise index and the SIMD index return the tids of the scalar index, whatever the
padding words and the old result bitmaps of the three hold. -/
theorem simd_pruning_exact (s : Store) (hvalues : ∀ tid < s.numPoints, ∀ dim < s.numDim,
      (s.dimMin ≤ s.value tid dim ∧ s.value tid dim ≤ s.dimMax) ∧ s.value tid dim < 2^31)
    (bins : ℕ → Bins) (hbins : ∀ dim < s.numDim, Monotone (bins dim))
    (padding padding' padding'' : ℕ → ℕ → ℕ) (result result' result'' : Bitmap) (q : Query)
    (hq : ∀ dim < s.numDim, q.columnsForSelect dim = true →
      q.lowerBound dim ≤ q.upperBound dim ∧ q.upperBound dim < 2^31-1) :
    ∃ tids,
      ImprintIndexWithoutCompression.partialMatch s
        (ImprintIndexWithoutCompression.buildIndex s bins padding result) q = some tids ∧
      ImprintSIMDIndexWithoutCompression.partialMatch s
        (ImprintSIMDIndexWithoutCompression.buildIndex s bins padding' result') q = some tids ∧
      ImprintSIMD64IndexWithoutCompression.partialMatch s
        (ImprintSIMD64IndexWithoutCompression.buildIndex s bins padding'' result'') q =
          some tids := by
  refine ⟨SeqScan.partialMatch s q,?_,?_,?_⟩
  · exact ImprintIndexWithoutCompression.partialMatch_eq
      (fun tid htid dim hdim => (hvalues tid htid dim hdim).1) hbins padding result
      fun dim hdim hs => (hq dim hdim hs).1
  · exact ImprintSIMDIndexWithoutCompression.partialMatch_eq hvalues hbins hq padding' result'
  · exact ImprintSIMD64IndexWithoutCompression.partialMatch_eq hvalues hbins hq padding'' result''

/-- Three lines in two columns, the last one of them half full. -/
def lineStore : Store := .ofRows 2 0 39 ((List.range 40).map fun i => [i,39-i]) (by decide)

theorem simd_pruning_exact_lines :
    ∃ tids,
      ImprintIndexWithoutCompression.partialMatch lineStore
        (ImprintIndexWithoutCompression.buildIndex lineStore (fun _ w => w) (fun _ _ => 9)
          fun _ => 7#8) (Query.window (fun _ => 12) fun _ => 35) = some tids ∧
      ImprintSIMDIndexWithoutCompression.partialMatch lineStore
        (ImprintSIMDIndexWithoutCompression.buildIndex lineStore (fun _ w => w) (fun _ _ => 5)
          fun _ => 0#8) (Query.window (fun _ => 12) fun _ => 35) = some tids ∧
      ImprintSIMD64IndexWithoutCompression.partialMatch lineStore
        (ImprintSIMD64IndexWithoutCompression.buildIndex lineStore (fun _ w => w) (fun _ _ => 0)
          fun _ => 1#8) (Query.window (fun _ => 12) fun _ => 35) = some tids :=
  simd_pruning_exact lineStore (by decide) (fun _ w => w) (fun _ _ _ _ h => h) _ _ _ _ _ _ _
    fun _ _ _ => by simp only [Query.window]; omega

end ElfIndex
