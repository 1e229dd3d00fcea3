import ElfIndex.Imprint.SIMD
import ElfIndex.Scan.Colseqscan

/-! # The result bitmap of the uncompressed imprints

The constructors allocate a byte for eight tuples, and the selection of a column touches the
bytes of whole lines. Here every access to the bitmap is checked against the allocation.
-/
namespace ElfIndex
open WordMemory Bitmap

namespace Checked

/-- `res[first] = 0`, .., `res[first+count-1] = 0` -/
def clearBytes (res : Buffer (BitVec 8)) (first count : ℕ) : Option (Buffer (BitVec 8)) :=
  (List.range' first count).foldlM (fun res i => res.set i 0#8) res

/-- `res[offset] &= a` and then `res[offset+1] &= a'` -/
def andBytes (res : Buffer (BitVec 8)) (offset : ℕ) (a a' : BitVec 8) :
    Option (Buffer (BitVec 8)) := do
  let old ← res.get offset
  let res ← res.set offset (old &&& a)
  let old ← res.get (offset+1)
  res.set (offset+1) (old &&& a')

def simdCheckTidsAnd (col : Memory) (line begin : ℕ) (res : Buffer (BitVec 8))
    (lower upper : BitVec 32) : Option (Buffer (BitVec 8)) :=
  andBytes res (begin/8)
    (moveMask 8 col line lower upper ||| (moveMask 8 col (line+1) lower upper <<< 4))
    (moveMask 8 col (line+2) lower upper ||| (moveMask 8 col (line+3) lower upper <<< 4))

/-- The access to a word is an access to its four bytes. -/
def simdCheck32TidsAnd (col : Memory) (line beginTID : ℕ) (res : Buffer (BitVec 8))
    (lower upper : BitVec 32) : Option (Buffer (BitVec 8)) :=
  if 4*(beginTID/32)+3 < res.size then
    some {res with cell := ElfIndex.simdCheck32TidsAnd col line beginTID res.cell lower upper}
  else none

/-- One line of the loop of `range_select_column`, with the test of the index for its tuples. -/
def selectLine (test : Buffer (BitVec 8) → ℕ → Option (Buffer (BitVec 8))) (imps : List Mask)
    (mask innermask : Mask) (result : Buffer (BitVec 8)) (curCacheLine : ℕ) :
    Option (Buffer (BitVec 8)) :=
  let curImprint := imps.getD curCacheLine 0#64
  let tid := 16*curCacheLine
  if curImprint &&& mask ≠ 0#64 then
    if curImprint &&& innermask ≠ 0#64 then test result tid else some result
  else clearBytes result (tid/8) 2

/-- One pair of lines. -/
def selectPair (imps : List Mask) (mask innermask : Mask) (col : Memory)
    (lowerSIMD upperSIMD : BitVec 32) (result : Buffer (BitVec 8)) (curCacheLine : ℕ) :
    Option (Buffer (BitVec 8)) :=
  let curSIMDImprint := imps.getD (2*curCacheLine+1) 0#64 ++ imps.getD (2*curCacheLine) 0#64
  let tid := 32*curCacheLine
  if curSIMDImprint &&& (mask ++ mask) ≠ 0#128 then
    if curSIMDImprint &&& (innermask ++ innermask) ≠ 0#128 then
      simdCheck32TidsAnd col (tid/4) tid result lowerSIMD upperSIMD
    else some result
  else clearBytes result (tid/8) 4

end Checked

/-- `new uint8_t[(s->NUM_POINTS+7)/8]` -/
def allocateResult (s : Store) (result : Bitmap) : Buffer (BitVec 8) := ⟨(s.numPoints+7)/8,result⟩

/-- The columns of the scalar index are read as they are allocated, with 16 words of padding. -/
def ImprintIndexWithoutCompression.checkedSelectColumn (s : Store)
    (ix : ImprintIndexWithoutCompression) (curDim lower upper : ℕ) (result : Buffer (BitVec 8)) :
    Option (Buffer (BitVec 8)) :=
  let imprints := ix.columnImprints curDim
  let (mask,tempInnermask) := makeMask s imprints.bins lower upper
  (List.range ((s.numPoints+15)/16)).foldlM (Checked.selectLine
    (fun result tid => Checked.checkTidsAnd ⟨s.numPoints+16,ix.cols curDim⟩ tid result lower upper)
    imprints.imps mask (~~~tempInnermask)) result

def ImprintSIMDIndexWithoutCompression.checkedSelectColumn (s : Store)
    (ix : ImprintIndexWithoutCompression) (curDim lower upper : ℕ) (result : Buffer (BitVec 8)) :
    Option (Buffer (BitVec 8)) :=
  let imprints := ix.columnImprints curDim
  let (mask,tempInnermask) := makeMask s imprints.bins lower upper
  (List.range ((s.numPoints+15)/16)).foldlM (Checked.selectLine
    (fun result tid => Checked.simdCheckTidsAnd (ix.cols curDim) (tid/4) tid result
      (lowerSIMD lower) (upperSIMD upper))
    imprints.imps mask (~~~tempInnermask)) result

def ImprintSIMD64IndexWithoutCompression.checkedSelectColumn (s : Store)
    (ix : ImprintIndexWithoutCompression) (curDim lower upper : ℕ) (result : Buffer (BitVec 8)) :
    Option (Buffer (BitVec 8)) := do
  let imprints := ix.columnImprints curDim
  let (mask,tempInnermask) := makeMask s imprints.bins lower upper
  let numCacheLines := (s.numPoints+15)/16
  let curCacheLine := numCacheLines/2
  let result ← (List.range curCacheLine).foldlM (Checked.selectPair imprints.imps mask
    (~~~tempInnermask) (ix.cols curDim) (lowerSIMD lower) (upperSIMD upper)) result
  let curCacheLine := curCacheLine*2
  (List.range' curCacheLine (numCacheLines-curCacheLine)).foldlM (Checked.selectLine
    (fun result tid => Checked.simdCheckTidsAnd (ix.cols curDim) (tid/4) tid result
      (lowerSIMD lower) (upperSIMD upper))
    imprints.imps mask (~~~tempInnermask)) result

/-! ## Accesses of one line -/

namespace Checked

theorem clearBytes_eq (size : ℕ) (cell : Bitmap) (first : ℕ) {count : ℕ} (hcount : 0 < count) :
    clearBytes ⟨size,cell⟩ first count = if first+count ≤ size then
      some ⟨size,(List.range' first count).foldl (fun c i => setByte c i 0#8) cell⟩ else none := by
  have hrun : ∀ res, clearBytes ⟨size,cell⟩ first count = some res ↔
      (∀ i ∈ List.range' first count, i < size) ∧
        res = ⟨size,(List.range' first count).foldl (fun c i => setByte c i 0#8) cell⟩ :=
    Buffer.foldlM_eq_some_iff _ (fun i _ c => rfl) cell
  split
  · refine (hrun _).mpr ⟨fun i hi => ?_,rfl⟩
    have := List.mem_range'_1.mp hi
    omega
  · rw [Option.eq_none_iff_forall_ne_some]
    intro res hres
    have := ((hrun res).mp hres).1 (first+count-1) (List.mem_range'_1.mpr (by omega))
    omega

theorem andBytes_eq (size : ℕ) (cell : Bitmap) (offset : ℕ) (a a' : BitVec 8) :
    andBytes ⟨size,cell⟩ offset a a' = if offset+1 < size then
      some ⟨size,setByte (setByte cell offset (cell offset &&& a)) (offset+1)
        ((setByte cell offset (cell offset &&& a)) (offset+1) &&& a')⟩ else none := by
  unfold andBytes
  simp only [Option.bind_eq_bind]
  by_cases hfirst : offset < size
  · rw [Buffer.get_eq hfirst,Option.bind_some,Buffer.set_eq hfirst,Option.bind_some]
    by_cases hsecond : offset+1 < size
    · rw [if_pos hsecond,Buffer.get_eq hsecond,Option.bind_some,Buffer.set_eq hsecond]
      rfl
    · rw [if_neg hsecond,Buffer.get,if_neg hsecond]
      rfl
  · rw [if_neg (by omega),Buffer.get,if_neg hfirst]
    rfl

theorem simdCheckTidsAnd_eq (col : Memory) (line begin size : ℕ) (cell : Bitmap)
    (lower upper : BitVec 32) :
    simdCheckTidsAnd col line begin ⟨size,cell⟩ lower upper = if begin/8+1 < size then
      some ⟨size,ElfIndex.simdCheckTidsAnd col line begin cell lower upper⟩ else none :=
  andBytes_eq size cell (begin/8) _ _

/-- With the words of the line in the column only the bytes of the bitmap matter. -/
theorem checkTidsAnd_eq_ite {col : Buffer ℕ} {begin : ℕ} (hcol : begin+16 ≤ col.size) (size : ℕ)
    (cell : Bitmap) (lower upper : ℕ) :
    checkTidsAnd col begin ⟨size,cell⟩ lower upper = if begin/8+1 < size then
      some ⟨size,ElfIndex.checkTidsAnd col.cell begin cell lower upper⟩ else none := by
  unfold checkTidsAnd
  rw [checkByte_eq (by omega),checkByte_eq (by omega)]
  exact andBytes_eq size cell (begin/8) _ _

/-- A line whose imprint hits the outer mask and has no bin outside of the inner mask is not
touched, and another one has its two bytes touched. -/
theorem selectLine_eq {test : Buffer (BitVec 8) → ℕ → Option (Buffer (BitVec 8))} {imps : List Mask}
    {mask innermask : Mask} {size line : ℕ} {kernel : Bitmap → Bitmap}
    (htest : ∀ c, test ⟨size,c⟩ (16*line) =
      if 16*line/8+1 < size then some ⟨size,kernel c⟩ else none) (c : Bitmap) :
    selectLine test imps mask innermask ⟨size,c⟩ line =
      if (imps.getD line 0#64 &&& mask ≠ 0#64 ∧ imps.getD line 0#64 &&& innermask = 0#64) ∨
        2*line+1 < size then some ⟨size,if imps.getD line 0#64 &&& mask ≠ 0#64 then
          if imps.getD line 0#64 &&& innermask ≠ 0#64 then kernel c else c
          else setByte (setByte c (16*line/8) 0#8) (16*line/8+1) 0#8⟩
      else none := by
  have hbyte : 16*line/8+1 < size ↔ 2*line+1 < size := by omega
  have hclear : 16*line/8+2 ≤ size ↔ 2*line+1 < size := by omega
  simp only [selectLine]
  by_cases hmask : imps.getD line 0#64 &&& mask ≠ 0#64
  · by_cases hinner : imps.getD line 0#64 &&& innermask = 0#64
    · simp only [hmask,hinner,ne_eq,not_true_eq_false,not_false_eq_true,and_self,true_or,if_true,
        if_false]
    · simp only [hmask,hinner,ne_eq,not_false_eq_true,and_false,false_or,if_true,htest,hbyte]
  · rw [if_neg hmask,if_neg hmask,clearBytes_eq size c (16*line/8) (show 0 < 2 by decide)]
    exact if_congr (by rw [hclear]; simp only [hmask,false_and,false_or]) rfl rfl

theorem selectPair_eq {imps : List Mask} {mask innermask : Mask} {col : Memory}
    {lowerSIMD upperSIMD : BitVec 32} {size pair : ℕ} (c : Bitmap) :
    selectPair imps mask innermask col lowerSIMD upperSIMD ⟨size,c⟩ pair =
      if ((imps.getD (2*pair+1) 0#64 ++ imps.getD (2*pair) 0#64) &&& (mask ++ mask) ≠ 0#128 ∧
          (imps.getD (2*pair+1) 0#64 ++ imps.getD (2*pair) 0#64) &&& (innermask ++ innermask) =
            0#128) ∨ 4*pair+3 < size then
        some ⟨size,ImprintSIMD64IndexWithoutCompression.selectPair imps mask innermask col lowerSIMD
          upperSIMD c pair⟩
      else none := by
  have hclear : 32*pair/8+4 ≤ size ↔ 4*pair+3 < size := by omega
  have hword : 4*(32*pair/32)+3 < size ↔ 4*pair+3 < size := by omega
  simp only [selectPair,ImprintSIMD64IndexWithoutCompression.selectPair]
  by_cases hmask : (imps.getD (2*pair+1) 0#64 ++ imps.getD (2*pair) 0#64) &&& (mask ++ mask) ≠ 0#128
  · by_cases hinner : (imps.getD (2*pair+1) 0#64 ++ imps.getD (2*pair) 0#64) &&&
        (innermask ++ innermask) = 0#128
    · simp only [hmask,hinner,ne_eq,not_true_eq_false,not_false_eq_true,and_self,true_or,if_true,
        if_false]
    · simp only [hmask,hinner,ne_eq,not_false_eq_true,and_false,false_or,if_true,
        simdCheck32TidsAnd,hword]
  · rw [if_neg hmask,if_neg hmask,clearBytes_eq size c (32*pair/8) (show 0 < 4 by decide)]
    exact if_congr (by rw [hclear]; simp only [hmask,false_and,false_or]) rfl rfl

end Checked

/-! ## Lines inside of the inner mask -/

/-- All values of the unit of `w` tuples have bins of the inner mask. -/
def InnerUnit (s : Store) (bins : Bins) (dim lower upper w unit : ℕ) : Prop :=
  ∀ tid < s.numPoints, tid/w = unit →
    (makeMask s bins lower upper).2.getLsbD (getBin64 (s.value tid dim) bins) = true

section
variable {s : Store} {bins : Bins} {padding : ℕ → ℕ → ℕ} {dim lower upper : ℕ}

/-- The inner mask is a part of the outer one, whatever the bounds are. -/
theorem makeMask_inner_le {i : ℕ} (h : (makeMask s bins lower upper).2.getLsbD i = true) :
    (makeMask s bins lower upper).1.getLsbD i = true := by
  have hunset : ∀ (mask : Mask) (bit : ℕ), (impsUnsetBit mask bit).getLsbD i = true →
      mask.getLsbD i = true := by
    intro mask bit hbit
    rw [impsUnsetBit,BitVec.getLsbD_and,Bool.and_eq_true] at hbit
    exact hbit.1
  simp only [makeMask] at h ⊢
  split at h <;> split at h
  all_goals first
    | exact h
    | exact hunset _ _ h
    | exact hunset _ _ (hunset _ _ h)

/-- The values of a line decide whether the line is touched. -/
theorem line_inner_iff {line : ℕ} (hline : line < (s.numPoints+15)/16) :
    (lineMasks bins (column s padding dim) s.numPoints).getD line 0#64 &&&
      ~~~(makeMask s bins lower upper).2 = 0#64 ↔ InnerUnit s bins dim lower upper 16 line := by
  have hlt : line < (lineMasks bins (column s padding dim) s.numPoints).length := by
    rwa [length_lineMasks]
  have hbit : ∀ i, ((lineMasks bins (column s padding dim) s.numPoints).getD line 0#64).getLsbD i =
      true ↔ ∃ tid < s.numPoints, tid/16 = line ∧ getBin64 (s.value tid dim) bins = i := by
    intro i
    rw [List.getD_eq_getElem _ _ hlt]
    simp only [lineMasks,List.getElem_map,List.getElem_range,getLsbD_lineMask]
    constructor
    · rintro ⟨tid,hlo,hhi,hbin⟩
      have htid : tid < s.numPoints := by omega
      rw [column,if_pos htid] at hbin
      exact ⟨tid,htid,by omega,hbin⟩
    · rintro ⟨tid,htid,hdiv,hbin⟩
      refine ⟨tid,by omega,by omega,?_⟩
      rwa [column,if_pos htid]
  rw [← not_iff_not]
  change _ &&& ~~~(makeMask s bins lower upper).2 ≠ 0#64 ↔ _
  rw [and_ne_zero_iff,InnerUnit]
  push Not
  constructor
  · rintro ⟨i,hi,himprint,hout⟩
    obtain ⟨tid,htid,hdiv,hbin⟩ := (hbit i).mp himprint
    rw [BitVec.getLsbD_not,Bool.and_eq_true,Bool.not_eq_true'] at hout
    exact ⟨tid,htid,hdiv,by rw [hbin,hout.2]; decide⟩
  · rintro ⟨tid,htid,hdiv,hout⟩
    refine ⟨_,getBin64_lt bins _,(hbit _).mpr ⟨tid,htid,hdiv,rfl⟩,?_⟩
    rw [BitVec.getLsbD_not,Bool.and_eq_true,decide_eq_true_eq,Bool.not_eq_true']
    exact ⟨getBin64_lt bins _,by simpa using hout⟩

/-- A line inside of the inner mask hits the outer one. -/
theorem line_hit_of_inner {line : ℕ} (hline : line < (s.numPoints+15)/16)
    (h : InnerUnit s bins dim lower upper 16 line) :
    (lineMasks bins (column s padding dim) s.numPoints).getD line 0#64 &&&
      (makeMask s bins lower upper).1 ≠ 0#64 := by
  have htid : 16*line < s.numPoints := by omega
  have hdiv : 16*line/16 = line := by omega
  have hbin : ((lineMasks bins (column s padding dim) s.numPoints).getD (16*line/16)
      0#64).getLsbD (getBin64 (column s padding dim (16*line)) bins) = true := lineMasks_bin htid
  rw [hdiv,column,if_pos htid] at hbin
  exact and_ne_zero_iff.mpr ⟨_,getBin64_lt bins _,hbin,
    makeMask_inner_le (h (16*line) htid hdiv)⟩

/-- A pair of lines is left alone exactly when all of its values are in the inner mask. -/
theorem pair_inner_iff {pair : ℕ} (hpair : pair < (s.numPoints+15)/16/2) :
    (((lineMasks bins (column s padding dim) s.numPoints).getD (2*pair+1) 0#64 ++
        (lineMasks bins (column s padding dim) s.numPoints).getD (2*pair) 0#64) &&&
        ((makeMask s bins lower upper).1 ++ (makeMask s bins lower upper).1) ≠ 0#128 ∧
      ((lineMasks bins (column s padding dim) s.numPoints).getD (2*pair+1) 0#64 ++
        (lineMasks bins (column s padding dim) s.numPoints).getD (2*pair) 0#64) &&&
        (~~~(makeMask s bins lower upper).2 ++ ~~~(makeMask s bins lower upper).2) = 0#128) ↔
      InnerUnit s bins dim lower upper 32 pair := by
  rw [Ne,append_and_eq_zero,append_and_eq_zero,line_inner_iff (by omega),
    line_inner_iff (by omega)]
  constructor
  · rintro ⟨-,hsecond,hfirst⟩ tid htid hdiv
    have hline : tid/16 = 2*pair+1 ∨ tid/16 = 2*pair := by omega
    rcases hline with hline | hline
    · exact hsecond tid htid hline
    · exact hfirst tid htid hline
  · intro h
    have hfirst : InnerUnit s bins dim lower upper 16 (2*pair) :=
      fun tid htid hdiv => h tid htid (by omega)
    refine ⟨fun hmiss => ?_,fun tid htid hdiv => h tid htid (by omega),hfirst⟩
    exact line_hit_of_inner (by omega) hfirst hmiss.2

theorem line_untouched_iff {line : ℕ} (hline : line < (s.numPoints+15)/16) :
    ((lineMasks bins (column s padding dim) s.numPoints).getD line 0#64 &&&
        (makeMask s bins lower upper).1 ≠ 0#64 ∧
      (lineMasks bins (column s padding dim) s.numPoints).getD line 0#64 &&&
        ~~~(makeMask s bins lower upper).2 = 0#64) ↔ InnerUnit s bins dim lower upper 16 line := by
  rw [line_inner_iff hline]
  exact ⟨And.right,fun h => ⟨line_hit_of_inner hline h,h⟩⟩

end

/-! ## The selection of a column -/

/-- The bytes of the last unit of `w` tuples are allocated, or its values keep the selection away
from them. -/
def ResultFits (s : Store) (bins : Bins) (dim lower upper w : ℕ) : Prop :=
  s.numPoints%16 = 0 ∨ 9 ≤ s.numPoints%16 ∨
    InnerUnit s bins dim lower upper w ((s.numPoints-1)/w)

section
variable {s : Store} (hn : 1 ≤ s.numPoints) (bins : ℕ → Bins) (padding : ℕ → ℕ → ℕ)
  (old result : Bitmap) (dim lower upper : ℕ)
include hn

/-- Only the last line can reach behind the bitmap. -/
theorem lines_inside_iff :
    (∀ line ∈ List.range ((s.numPoints+15)/16),
      InnerUnit s (bins dim) dim lower upper 16 line ∨ 2*line+1 < (s.numPoints+7)/8) ↔
      ResultFits s (bins dim) dim lower upper 16 := by
  constructor
  · intro h
    rcases h ((s.numPoints-1)/16) (List.mem_range.mpr (by omega)) with hinner | hlt
    · exact Or.inr (Or.inr hinner)
    · have hfit : s.numPoints%16 = 0 ∨ 9 ≤ s.numPoints%16 := by omega
      exact hfit.imp_right Or.inl
  · intro h line hline
    have hlt := List.mem_range.mp hline
    by_cases hlast : line = (s.numPoints-1)/16
    · rcases h with hzero | hlarge | hinner
      · exact Or.inr (by omega)
      · exact Or.inr (by omega)
      · exact Or.inl (hlast ▸ hinner)
    · exact Or.inr (by omega)

/-- The selection stays inside exactly when the last line fits or is not touched, and then it is
the selection on all addresses. -/
theorem ImprintIndexWithoutCompression.checkedSelectColumn_iff (res : Buffer (BitVec 8)) :
    checkedSelectColumn s (buildIndex s bins padding old) dim lower upper
        (allocateResult s result) = some res ↔
      ResultFits s (bins dim) dim lower upper 16 ∧ res = allocateResult s
        (rangeSelectColumn s (buildIndex s bins padding old) dim lower upper result) := by
  rw [← lines_inside_iff hn]
  simp only [checkedSelectColumn,rangeSelectColumn,buildIndex,createColumnImprint_eq _ _ hn,
    allocateResult]
  rw [Buffer.foldlM_eq_some_iff _ (fun line hline c => Checked.selectLine_eq (fun c =>
    Checked.checkTidsAnd_eq_ite
      (by have := List.mem_range.mp hline; simp only; omega) _ c _ _) c)]
  refine and_congr_left fun _ => forall₂_congr fun line hline => or_congr_left ?_
  exact line_untouched_iff (List.mem_range.mp hline)

theorem ImprintSIMDIndexWithoutCompression.checkedSelectColumn_iff (res : Buffer (BitVec 8)) :
    checkedSelectColumn s (buildIndex s bins padding old) dim lower upper
        (allocateResult s result) = some res ↔
      ResultFits s (bins dim) dim lower upper 16 ∧ res = allocateResult s
        (rangeSelectColumn s (buildIndex s bins padding old) dim lower upper result) := by
  rw [← lines_inside_iff hn]
  simp only [checkedSelectColumn,rangeSelectColumn,buildIndex,
    ImprintIndexWithoutCompression.buildIndex,
    ImprintIndexWithoutCompression.createColumnImprint_eq _ _ hn,allocateResult]
  rw [Buffer.foldlM_eq_some_iff _ (fun line hline c =>
    Checked.selectLine_eq (fun c => Checked.simdCheckTidsAnd_eq _ _ _ _ c _ _) c)]
  refine and_congr_left fun _ => forall₂_congr fun line hline => or_congr_left ?_
  exact line_untouched_iff (List.mem_range.mp hline)

/-- Only the last pair or the line that is left can reach behind the bitmap. -/
theorem pairs_inside_iff :
    ((∀ pair ∈ List.range ((s.numPoints+15)/16/2),
        InnerUnit s (bins dim) dim lower upper 32 pair ∨ 4*pair+3 < (s.numPoints+7)/8) ∧
      ∀ line ∈ List.range' ((s.numPoints+15)/16/2*2)
          ((s.numPoints+15)/16-(s.numPoints+15)/16/2*2),
        InnerUnit s (bins dim) dim lower upper 16 line ∨ 2*line+1 < (s.numPoints+7)/8) ↔
      ResultFits s (bins dim) dim lower upper (if (s.numPoints+15)/16%2 = 0 then 32 else 16) := by
  constructor
  · rintro ⟨hpairs,hlines⟩
    split
    · rcases hpairs ((s.numPoints-1)/32) (List.mem_range.mpr (by omega)) with hinner | hlt
      · exact Or.inr (Or.inr hinner)
      · have hfit : s.numPoints%16 = 0 ∨ 9 ≤ s.numPoints%16 := by omega
        exact hfit.imp_right Or.inl
    · rcases hlines ((s.numPoints-1)/16) (List.mem_range'_1.mpr (by omega)) with hinner | hlt
      · exact Or.inr (Or.inr hinner)
      · have hfit : s.numPoints%16 = 0 ∨ 9 ≤ s.numPoints%16 := by omega
        exact hfit.imp_right Or.inl
  · intro h
    constructor
    · intro pair hpair
      have hlt := List.mem_range.mp hpair
      split at h
      · by_cases hlast : pair = (s.numPoints-1)/32
        · rcases h with hzero | hlarge | hinner
          · exact Or.inr (by omega)
          · exact Or.inr (by omega)
          · exact Or.inl (hlast ▸ hinner)
        · exact Or.inr (by omega)
      · exact Or.inr (by omega)
    · intro line hline
      have hlt := List.mem_range'_1.mp hline
      split at h
      · omega
      · have hlast : line = (s.numPoints-1)/16 := by omega
        rcases h with hzero | hlarge | hinner
        · exact Or.inr (by omega)
        · exact Or.inr (by omega)
        · exact Or.inl (hlast ▸ hinner)

theorem ImprintSIMD64IndexWithoutCompression.checkedSelectColumn_iff (res : Buffer (BitVec 8)) :
    checkedSelectColumn s (buildIndex s bins padding old) dim lower upper
        (allocateResult s result) = some res ↔
      ResultFits s (bins dim) dim lower upper (if (s.numPoints+15)/16%2 = 0 then 32 else 16) ∧
        res = allocateResult s
          (rangeSelectColumn s (buildIndex s bins padding old) dim lower upper result) := by
  rw [← pairs_inside_iff hn]
  simp only [checkedSelectColumn,rangeSelectColumn,buildIndex,
    ImprintIndexWithoutCompression.buildIndex,
    ImprintIndexWithoutCompression.createColumnImprint_eq _ _ hn,allocateResult,
    Option.bind_eq_bind,Option.bind_eq_some_iff]
  have hline : ∀ line ∈ List.range' ((s.numPoints+15)/16/2*2)
      ((s.numPoints+15)/16-(s.numPoints+15)/16/2*2), line < (s.numPoints+15)/16 := by
    intro line hline
    have := List.mem_range'_1.mp hline
    omega
  constructor
  · rintro ⟨mid,hpairs,hlines⟩
    rw [Buffer.foldlM_eq_some_iff _ fun pair _ c => Checked.selectPair_eq c] at hpairs
    obtain ⟨hpairs,rfl⟩ := hpairs
    rw [Buffer.foldlM_eq_some_iff _ fun line _ c => Checked.selectLine_eq
      (fun c => Checked.simdCheckTidsAnd_eq _ _ _ _ c _ _) c] at hlines
    exact ⟨⟨fun pair hpair => (hpairs pair hpair).imp_left
        (pair_inner_iff (List.mem_range.mp hpair)).mp,
      fun line hl => (hlines.1 line hl).imp_left (line_untouched_iff (hline line hl)).mp⟩,hlines.2⟩
  · rintro ⟨⟨hpairs,hlines⟩,rfl⟩
    refine ⟨_,(Buffer.foldlM_eq_some_iff _ (fun pair _ c => Checked.selectPair_eq c) _ _).mpr
      ⟨fun pair hpair => (hpairs pair hpair).imp_left
        (pair_inner_iff (List.mem_range.mp hpair)).mpr,rfl⟩,?_⟩
    refine (Buffer.foldlM_eq_some_iff _ (fun line _ c => Checked.selectLine_eq
      (fun c => Checked.simdCheckTidsAnd_eq _ _ _ _ c _ _) c) _ _).mpr ⟨?_,rfl⟩
    exact fun line hl => (hlines line hl).imp_left (line_untouched_iff (hline line hl)).mpr

end

/-- The selections of a column stay inside of the allocated bytes exactly when the last line has
nine tuples or more, or when all values of the last line, for the pairwise index of the last
unit, have bins of the inner mask. Then they are the selections on all addresses. -/
theorem resultBounds_iff (s : Store) (hn : 1 ≤ s.numPoints) (bins : ℕ → Bins)
    (padding : ℕ → ℕ → ℕ) (old result : Bitmap) (dim lower upper : ℕ) (res : Buffer (BitVec 8)) :
    (ImprintIndexWithoutCompression.checkedSelectColumn s
        (ImprintIndexWithoutCompression.buildIndex s bins padding old) dim lower upper
        (allocateResult s result) = some res ↔
      ResultFits s (bins dim) dim lower upper 16 ∧ res = allocateResult s
        (ImprintIndexWithoutCompression.rangeSelectColumn s
          (ImprintIndexWithoutCompression.buildIndex s bins padding old) dim lower upper result)) ∧
    (ImprintSIMDIndexWithoutCompression.checkedSelectColumn s
        (ImprintSIMDIndexWithoutCompression.buildIndex s bins padding old) dim lower upper
        (allocateResult s result) = some res ↔
      ResultFits s (bins dim) dim lower upper 16 ∧ res = allocateResult s
        (ImprintSIMDIndexWithoutCompression.rangeSelectColumn s
          (ImprintSIMDIndexWithoutCompression.buildIndex s bins padding old) dim lower upper
            result)) ∧
    (ImprintSIMD64IndexWithoutCompression.checkedSelectColumn s
        (ImprintSIMD64IndexWithoutCompression.buildIndex s bins padding old) dim lower upper
        (allocateResult s result) = some res ↔
      ResultFits s (bins dim) dim lower upper (if (s.numPoints+15)/16%2 = 0 then 32 else 16) ∧
        res = allocateResult s (ImprintSIMD64IndexWithoutCompression.rangeSelectColumn s
          (ImprintSIMD64IndexWithoutCompression.buildIndex s bins padding old) dim lower upper
            result)) :=
  ⟨ImprintIndexWithoutCompression.checkedSelectColumn_iff hn bins padding old result dim lower
      upper res,
    ImprintSIMDIndexWithoutCompression.checkedSelectColumn_iff hn bins padding old result dim lower
      upper res,
    ImprintSIMD64IndexWithoutCompression.checkedSelectColumn_iff hn bins padding old result dim
      lower upper res⟩

theorem resultBounds_grid :
    ImprintSIMDIndexWithoutCompression.checkedSelectColumn gridStore
        (ImprintSIMDIndexWithoutCompression.buildIndex gridStore (fun _ _ => 0) (fun _ _ => 9)
          fun _ => 0#8) 0 0 7 (allocateResult gridStore fun _ => 255#8) =
      some (allocateResult gridStore (ImprintSIMDIndexWithoutCompression.rangeSelectColumn gridStore
        (ImprintSIMDIndexWithoutCompression.buildIndex gridStore (fun _ _ => 0) (fun _ _ => 9)
          fun _ => 0#8) 0 0 7 fun _ => 255#8)) := by
  refine (resultBounds_iff gridStore (by decide) (fun _ _ => 0) (fun _ _ => 9) (fun _ => 0#8)
    (fun _ => 255#8) 0 0 7 _).2.1.mpr ⟨Or.inr (Or.inr ?_),rfl⟩
  intro tid htid _
  revert tid
  decide

/-- One byte is allocated for four tuples, and the line of the tuples has two. -/
theorem resultBounds_short :
    (ImprintIndexWithoutCompression.checkedSelectColumn gridStore
        (ImprintIndexWithoutCompression.buildIndex gridStore (fun _ _ => 0) (fun _ _ => 9)
          fun _ => 0#8) 0 3 5 (allocateResult gridStore fun _ => 255#8)).isSome = false ∧
      (ImprintSIMDIndexWithoutCompression.checkedSelectColumn gridStore
        (ImprintSIMDIndexWithoutCompression.buildIndex gridStore (fun _ _ => 0) (fun _ _ => 9)
          fun _ => 0#8) 0 3 5 (allocateResult gridStore fun _ => 255#8)).isSome = false ∧
      (ImprintSIMD64IndexWithoutCompression.checkedSelectColumn gridStore
        (ImprintSIMD64IndexWithoutCompression.buildIndex gridStore (fun _ _ => 0) (fun _ _ => 9)
          fun _ => 0#8) 0 3 5 (allocateResult gridStore fun _ => 255#8)).isSome = false := by
  decide

end ElfIndex
