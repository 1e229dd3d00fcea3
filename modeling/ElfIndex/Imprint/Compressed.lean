import ElfIndex.Imprint.Encoder
import ElfIndex.Imprint.Kernels

/-! # Queries on the compressed imprints

The reader walks over the dictionary with one counter for the imprints and one for the
cache lines. Every column of the index has one result bitmap, which each selection of the
column clears and fills again.
-/
namespace ElfIndex
open WordMemory Bitmap

/-- The members of the index; the result bitmaps keep what the last query left. -/
structure ImprintIndex where
  cols : ℕ → Memory
  imps : List ImprintPerColumn
  results : ℕ → Bitmap

namespace ImprintIndex

/-- The index of a store, for any borders of the columns. -/
def buildIndex (s : Store) (bins : ℕ → Bins) (padding : ℕ → ℕ → ℕ) (results : ℕ → Bitmap) :
    Option ImprintIndex := do
  let imps ← (List.range s.numDim).mapM fun dim =>
    imprintsCreate (bins dim) (column s padding dim) s.numPoints
  some ⟨column s padding,imps,results⟩

/-- The values of `for (j = first; j <= last; j++)`, if the loop ends. -/
def loopTo (first last : ℕ) : Option (List ℕ) :=
  if last < 2^32-1 then some (List.range' first (last+1-first)) else none

/-- The values of `for (tid = first; tid < bound; tid += 16)`, if the loop ends. -/
def loopLines (first bound : ℕ) : Option (List ℕ) :=
  if bound ≤ 2^32-16 then some ((List.range ((bound-first+15)/16)).map fun k => first+16*k)
  else none

section Select
variable (imps : List Mask) (mask innermask : Mask) (col : Memory) (lower upper : ℕ)

/-- The tuples of one cache line that starts at `begin`. -/
def selectLine (imprint : Mask) (begin : ℕ) (res : Bitmap) : Bitmap :=
  if imprint &&& mask ≠ 0#64 then
    if imprint &&& ~~~innermask ≠ 0#64 then checkTidsOr col begin res lower upper
    else addTidsToResult begin res
  else res

/-- The cache lines of a repeat line, which share one imprint. -/
def selectRepeated (imprint : Mask) (first bound : ℕ) (res : Bitmap) : Option Bitmap :=
  if imprint &&& mask ≠ 0#64 then
    if imprint &&& ~~~innermask ≠ 0#64 then
      (loopLines first bound).map fun tids =>
        tids.foldl (fun res tid => checkTidsOr col tid res lower upper) res
    else (loopLines first bound).map fun tids =>
      tids.foldl (fun res tid => addTidsToResult tid res) res
  else some res

/-- One imprint of a line without repeats: the cache line counter and the bitmap. -/
def selectImprint (st : ℕ × Bitmap) (j : ℕ) : Option (ℕ × Bitmap) := do
  let imprint ← imps[j]?
  some (st.1+1,selectLine mask innermask col lower upper imprint (16*st.1) st.2)

/-- One line of the dictionary: the imprint counter, the cache line counter, the bitmap. -/
def selectDictLine (st : ℕ × ℕ × Bitmap) (line : DictLine) : Option (ℕ × ℕ × Bitmap) :=
  let (iCnt,cacheCnt,res) := st
  if line.isRepeat = false then do
    let offsets ← loopTo iCnt ((iCnt+line.cnt+(2^32-1))%2^32)
    let (cacheCnt,res) ← offsets.foldlM (selectImprint imps mask innermask col lower upper)
      (cacheCnt,res)
    some (iCnt+line.cnt,cacheCnt,res)
  else do
    let imprint ← imps[iCnt]?
    let res ← selectRepeated mask innermask col lower upper imprint (16*cacheCnt)
      ((cacheCnt*16+(16*line.cnt+(2^32-1)))%2^32) res
    some (iCnt+1,cacheCnt+line.cnt,res)

end Select

/-- `memset(res,0,(STORE->NUM_POINTS+7)/8)` -/
def clearAll (s : Store) (res : Bitmap) : Bitmap := fun i =>
  if i < (s.numPoints+7)/8 then 0#8 else res i

/-- The selection of a column fills the result bitmap of the column. -/
def rangeSelectColumn (s : Store) (ix : ImprintIndex) (curDim lower upper : ℕ)
    (results : ℕ → Bitmap) : Option (ℕ → Bitmap) := do
  let imprints ← ix.imps[curDim]?
  let (mask,innermask) := makeMask s imprints.bins lower upper
  let (_,_,res) ← imprints.dict.foldlM
    (selectDictLine imprints.imps mask innermask (ix.cols curDim) lower upper)
    (0,0,clearAll s (results curDim))
  some (Function.update results curDim res)

/-- Select column `dim` and intersect the bitmap of column `first` with its bitmap, which
may be the same one. -/
def intersectColumn (s : Store) (ix : ImprintIndex) (first dim lower upper : ℕ)
    (results : ℕ → Bitmap) : Option (ℕ → Bitmap) := do
  let results ← rangeSelectColumn s ix dim lower upper results
  some (Function.update results first
    (andBitvectors (results first) (results dim) s.numPoints))

/-- The first loop runs past the array of selected columns if there is none. -/
def partialMatch (s : Store) (ix : ImprintIndex) (q : Query) : Option (List ℕ) := do
  let dim ← (List.range s.numDim).find? q.columnsForSelect
  let results ← rangeSelectColumn s ix dim (q.lowerBound dim) (q.upperBound dim) ix.results
  let results ← (List.range' dim (s.numDim-dim)).foldlM (fun results d =>
    if q.columnsForSelect d then
      intersectColumn s ix dim d (q.lowerBound d) (q.upperBound d) results
    else some results) results
  returnTids (results dim) s.numPoints

def windowQuery (s : Store) (ix : ImprintIndex) (lowerBound upperBound : ℕ → ℕ) :
    Option (List ℕ) := do
  let results ← rangeSelectColumn s ix 0 (lowerBound 0) (upperBound 0) ix.results
  let results ← (List.range' 1 (s.numDim-1)).foldlM (fun results d =>
    intersectColumn s ix 0 d (lowerBound d) (upperBound d) results) results
  returnTids (results 0) s.numPoints

/-! ## The walk over the dictionary -/

section Walk
variable (mask innermask : Mask) (col : Memory) (lower upper : ℕ)

/-- The selection of consecutive cache lines, one imprint for each. -/
def selectLines : ℕ → List Mask → Bitmap → Bitmap
  | _, [], res => res
  | line, imprint :: imps, res =>
    selectLines (line+1) imps (selectLine mask innermask col lower upper imprint (16*line) res)

theorem selectLines_append (line : ℕ) (imps imps' : List Mask) (res : Bitmap) :
    selectLines mask innermask col lower upper line (imps ++ imps') res =
      selectLines mask innermask col lower upper (line+imps.length) imps'
        (selectLines mask innermask col lower upper line imps res) := by
  induction imps generalizing line res with
  | nil => rfl
  | cons imprint imps ih =>
    have hline : line+(imps.length+1) = line+1+imps.length := by omega
    rw [List.cons_append,selectLines,ih,selectLines,List.length_cons,hline]

theorem selectImprint_run (old new rest : List Mask) (line : ℕ) (res : Bitmap) :
    (List.range' old.length new.length).foldlM
      (selectImprint (old ++ new ++ rest) mask innermask col lower upper) (line,res) =
      some (line+new.length,selectLines mask innermask col lower upper line new res) := by
  induction new generalizing old line res with
  | nil => rfl
  | cons imprint new ih =>
    have hget : (old ++ imprint :: new ++ rest)[old.length]? = some imprint := by
      rw [List.append_assoc,List.getElem?_append_right le_rfl,Nat.sub_self]
      rfl
    have hnext := ih (old ++ [imprint]) (line+1)
      (selectLine mask innermask col lower upper imprint (16*line) res)
    rw [List.length_append,List.length_singleton,List.append_assoc old,List.singleton_append]
      at hnext
    have hcount : line+1+new.length = line+(new.length+1) := by omega
    rw [List.length_cons,List.range'_succ,List.foldlM_cons,selectImprint,hget,selectLines,
      ← hcount,← hnext]
    rfl

/-- Lines with one imprint, as the loop over their first tuples selects them. -/
theorem selectLines_replicate (imprint : Mask) (n line : ℕ) (res : Bitmap) :
    selectLines mask innermask col lower upper line (List.replicate n imprint) res =
      ((List.range' line n).map fun l => 16*l).foldl
        (fun r tid => selectLine mask innermask col lower upper imprint tid r) res := by
  induction n generalizing line res with
  | zero => rfl
  | succ n ih =>
    rw [List.replicate_succ,selectLines,ih,List.range'_succ,List.map_cons,List.foldl_cons]

theorem selectRepeated_run (imprint : Mask) {line cnt : ℕ} (hcnt : 1 ≤ cnt)
    (hlines : line+cnt ≤ 2^24) (res : Bitmap) :
    selectRepeated mask innermask col lower upper imprint (16*line)
      ((line*16+(16*cnt+(2^32-1)))%2^32) res =
      some (selectLines mask innermask col lower upper line (List.replicate cnt imprint) res) := by
  have hbound : (line*16+(16*cnt+(2^32-1)))%2^32 = 16*line+(16*cnt-1) := by omega
  have hcount : (16*line+(16*cnt-1)-16*line+15)/16 = cnt := by omega
  have hloop : loopLines (16*line) (16*line+(16*cnt-1)) =
      some ((List.range' line cnt).map fun l => 16*l) := by
    rw [loopLines,if_pos (by omega),hcount,List.range'_eq_map_range,List.map_map]
    refine congrArg some (List.map_congr_left ?_)
    intro k _
    rw [Function.comp_apply,Nat.mul_add]
  rw [hbound,selectLines_replicate,selectRepeated,hloop]
  by_cases hmask : imprint &&& mask ≠ 0#64
  · by_cases hinner : imprint &&& ~~~innermask ≠ 0#64
    · simp only [selectLine,if_pos hmask,if_pos hinner,Option.map_some]
    · simp only [selectLine,if_pos hmask,if_neg hinner,Option.map_some]
  · simp only [selectLine,if_neg hmask,List.foldl_fixed]

theorem selectDictLine_literal (old new rest : List Mask) (hnew : new ≠ [])
    (hlen : old.length+new.length ≤ 2^24) (line : ℕ) (res : Bitmap) :
    selectDictLine (old ++ new ++ rest) mask innermask col lower upper (old.length,line,res)
      ⟨new.length,false⟩ = some (old.length+new.length,line+new.length,
        selectLines mask innermask col lower upper line new res) := by
  have hpos := List.length_pos_iff.mpr hnew
  have hstop : (old.length+new.length+(2^32-1))%2^32 = old.length+new.length-1 := by omega
  have hcount : old.length+new.length-1+1-old.length = new.length := by omega
  have hloop : loopTo old.length (old.length+new.length-1) =
      some (List.range' old.length new.length) := by
    rw [loopTo,if_pos (by omega),hcount]
  simp only [selectDictLine,if_true,hstop,hloop,Option.bind_eq_bind,Option.bind_some,
    selectImprint_run]

theorem selectDictLine_repeated {imps : List Mask} {iCnt : ℕ} {imprint : Mask}
    (hget : imps[iCnt]? = some imprint) {line cnt : ℕ} (hcnt : 1 ≤ cnt)
    (hlines : line+cnt ≤ 2^24) (res : Bitmap) :
    selectDictLine imps mask innermask col lower upper (iCnt,line,res) ⟨cnt,true⟩ =
      some (iCnt+1,line+cnt,
        selectLines mask innermask col lower upper line (List.replicate cnt imprint) res) := by
  simp only [selectDictLine,Bool.true_eq_false,if_false,hget,Option.bind_eq_bind,
    Option.bind_some,selectRepeated_run mask innermask col lower upper imprint hcnt hlines]

/-- The walk over a dictionary selects the cache lines that it stands for. -/
theorem selectDict_run {dict : List DictLine} {imps masks : List Mask}
    (h : Expands dict imps masks) (hlines : masks.length ≤ 2^24) (rest : List Mask)
    (res : Bitmap) :
    dict.foldlM (selectDictLine (imps ++ rest) mask innermask col lower upper) (0,0,res) =
      some (imps.length,masks.length,selectLines mask innermask col lower upper 0 masks res) := by
  induction h generalizing rest with
  | nil => rfl
  | @literal dict imps masks h new hnew ih =>
    rw [List.length_append] at hlines
    have hle := h.imps_le
    have hfront := ih (by omega) (new ++ rest)
    rw [← List.append_assoc] at hfront
    rw [List.foldlM_append,hfront,Option.bind_eq_bind,Option.bind_some,List.foldlM_cons,
      selectDictLine_literal mask innermask col lower upper imps new rest hnew (by omega),
      selectLines_append,List.length_append,List.length_append,Nat.zero_add]
    rfl
  | @repeated dict imps masks h imprint cnt hcnt ih =>
    rw [List.length_append,List.length_replicate] at hlines
    have hget : (imps ++ [imprint] ++ rest)[imps.length]? = some imprint := by
      rw [List.append_assoc,List.getElem?_append_right le_rfl,Nat.sub_self]
      rfl
    have hfront := ih (by omega) ([imprint] ++ rest)
    rw [← List.append_assoc] at hfront
    rw [List.foldlM_append,hfront,Option.bind_eq_bind,Option.bind_some,List.foldlM_cons,
      selectDictLine_repeated mask innermask col lower upper hget hcnt hlines,
      selectLines_append,List.length_append,List.length_append,List.length_replicate,
      List.length_singleton,Nat.zero_add]
    rfl

end Walk

/-! ## What a selection does -/

section Bits
variable {mask innermask : Mask} {col : Memory} {lower upper : ℕ}

theorem bit_selectLine (imprint : Mask) (line : ℕ) (res : Bitmap) (tid : ℕ) :
    bit (selectLine mask innermask col lower upper imprint (16*line) res) tid =
      if tid/16 = line ∧ imprint &&& mask ≠ 0#64 then
        if imprint &&& ~~~innermask ≠ 0#64 then isIn lower upper (col tid) else true
      else bit res tid := by
  unfold selectLine
  by_cases hmask : imprint &&& mask ≠ 0#64
  · rw [if_pos hmask]
    by_cases hline : tid/16 = line
    · rw [if_pos (And.intro hline hmask)]
      by_cases hinner : imprint &&& ~~~innermask ≠ 0#64
      · rw [if_pos hinner,if_pos hinner,bit_checkTidsOr,if_pos hline]
      · rw [if_neg hinner,if_neg hinner,bit_addTidsToResult,if_pos hline]
    · rw [if_neg (mt And.left hline)]
      by_cases hinner : imprint &&& ~~~innermask ≠ 0#64
      · rw [if_pos hinner,bit_checkTidsOr,if_neg hline]
      · rw [if_neg hinner,bit_addTidsToResult,if_neg hline]
  · rw [if_neg hmask,if_neg (mt And.right hmask)]

/-- Only the line of a tuple decides on its bit. -/
theorem bit_selectLines (line : ℕ) (masks : List Mask) (res : Bitmap) (tid : ℕ) :
    bit (selectLines mask innermask col lower upper line masks res) tid =
      if line ≤ tid/16 ∧ tid/16 < line+masks.length then
        bit (selectLine mask innermask col lower upper (masks.getD (tid/16-line) 0#64)
          (16*(tid/16)) res) tid
      else bit res tid := by
  induction masks generalizing line res with
  | nil =>
    rw [List.length_nil,if_neg (by omega)]
    rfl
  | cons imprint masks ih =>
    rw [selectLines,ih,List.length_cons]
    by_cases hline : tid/16 = line
    · rw [if_neg (by omega),if_pos (by omega),hline,Nat.sub_self]
      rfl
    · have hskip : bit (selectLine mask innermask col lower upper imprint (16*line) res) tid =
          bit res tid := by
        rw [bit_selectLine,if_neg (mt And.left hline)]
      by_cases hin : line+1 ≤ tid/16 ∧ tid/16 < line+1+masks.length
      · have hnext : tid/16-line = tid/16-(line+1)+1 := by omega
        rw [if_pos hin,if_pos (by omega),hnext,List.getD_cons_succ,bit_selectLine _ _ res,
          bit_selectLine,hskip]
      · rw [if_neg hin,if_neg (by omega),hskip]

/-- The lines of a column set the bits of the tuples between the bounds. -/
theorem bit_selectLines_lineMasks {s : Store} {bins : Bins} (hbins : Monotone bins)
    (hlu : lower ≤ upper) (hv : ∀ tid < s.numPoints, s.dimMin ≤ col tid ∧ col tid ≤ s.dimMax)
    {res : Bitmap} {tid : ℕ} (htid : tid < s.numPoints) (hres : bit res tid = false) :
    bit (selectLines (makeMask s bins lower upper).1 (makeMask s bins lower upper).2 col lower
      upper 0 (lineMasks bins col s.numPoints) res) tid = isIn lower upper (col tid) := by
  rw [bit_selectLines,length_lineMasks,if_pos (by omega),bit_selectLine,hres,Nat.sub_zero]
  by_cases hmiss : (lineMasks bins col s.numPoints).getD (tid/16) 0#64 &&&
      (makeMask s bins lower upper).1 = 0#64
  · rw [if_neg fun h => h.2 hmiss,lineMasks_miss hbins htid hmiss]
  · rw [if_pos ⟨rfl,hmiss⟩]
    by_cases hinner : (lineMasks bins col s.numPoints).getD (tid/16) 0#64 &&&
        ~~~(makeMask s bins lower upper).2 = 0#64
    · rw [if_neg (not_not_intro hinner),lineMasks_inner hbins hlu (hv tid htid) htid hinner]
    · rw [if_pos hinner]

end Bits

theorem bit_clearAll {s : Store} (res : Bitmap) {tid : ℕ} (htid : tid < s.numPoints) :
    bit (clearAll s res) tid = false := by
  rw [bit,clearAll,if_pos (by omega)]
  exact BitVec.getLsbD_zero

/-! ## Queries -/

/-- The index holds the columns of the store and a dictionary of the imprints of each. -/
structure Built (s : Store) (bins : ℕ → Bins) (padding : ℕ → ℕ → ℕ) (ix : ImprintIndex) :
    Prop where
  cols : ix.cols = column s padding
  imps : ∀ dim < s.numDim, ∃ imprints, ix.imps[dim]? = some imprints ∧ imprints.bins = bins dim ∧
    Expands imprints.dict imprints.imps (lineMasks (bins dim) (column s padding dim) s.numPoints)

/-- What the queries need of the store and of the borders of its columns. -/
structure Indexable (s : Store) (bins : ℕ → Bins) : Prop where
  numPoints_pos : 1 ≤ s.numPoints
  lines_le : (s.numPoints+15)/16 ≤ 2^24-2
  values : ∀ tid < s.numPoints, ∀ dim < s.numDim,
    s.dimMin ≤ s.value tid dim ∧ s.value tid dim ≤ s.dimMax
  bins_mono : ∀ dim < s.numDim, Monotone (bins dim)

variable {s : Store} {bins : ℕ → Bins} {padding : ℕ → ℕ → ℕ} {ix : ImprintIndex}

theorem buildIndex_built (h : Indexable s bins) (padding : ℕ → ℕ → ℕ) (results : ℕ → Bitmap) :
    ∃ ix, buildIndex s bins padding results = some ix ∧ ix.Built s bins padding := by
  have hcolumns : ∀ k ≤ s.numDim, ∃ imps, (List.range k).mapM (fun dim =>
      imprintsCreate (bins dim) (column s padding dim) s.numPoints) = some imps ∧
      imps.length = k ∧ ∀ dim < k, ∃ imprints, imps[dim]? = some imprints ∧
        imprints.bins = bins dim ∧ Expands imprints.dict imprints.imps
          (lineMasks (bins dim) (column s padding dim) s.numPoints) := by
    intro k hk
    induction k with
    | zero => exact ⟨[],rfl,rfl,fun dim hdim => absurd hdim (Nat.not_lt_zero dim)⟩
    | succ k ih =>
      obtain ⟨imps,hrun,hlen,himps⟩ := ih (by omega)
      obtain ⟨imprints,hcreate,hspec⟩ := imprintsCreate_expands (bins k)
        (column s padding k) h.numPoints_pos h.lines_le
      refine ⟨imps ++ [imprints],?_,by rw [List.length_append,hlen]; rfl,?_⟩
      · rw [List.range_succ,List.mapM_append,hrun,List.mapM_cons,hcreate]
        rfl
      · intro dim hdim
        rcases Nat.lt_succ_iff_lt_or_eq.mp hdim with hlt | rfl
        · rw [List.getElem?_append_left (by omega)]
          exact himps dim hlt
        · refine ⟨imprints,?_,hspec⟩
          rw [← hlen,List.getElem?_concat_length]
  obtain ⟨imps,hrun,_,himps⟩ := hcolumns s.numDim le_rfl
  refine ⟨⟨column s padding,imps,results⟩,?_,rfl,himps⟩
  rw [buildIndex,hrun]
  rfl

section Queries
variable (h : Indexable s bins) (hix : ix.Built s bins padding)
include h hix

theorem rangeSelectColumn_spec {dim lower upper : ℕ} (hdim : dim < s.numDim) (hlu : lower ≤ upper)
    (results : ℕ → Bitmap) :
    ∃ res, rangeSelectColumn s ix dim lower upper results =
        some (Function.update results dim res) ∧
      ∀ tid < s.numPoints, bit res tid = isIn lower upper (s.value tid dim) := by
  have hcol : ∀ tid < s.numPoints, column s padding dim tid = s.value tid dim :=
    fun tid htid => if_pos htid
  obtain ⟨imprints,hget,hbins,hexp⟩ := hix.imps dim hdim
  have hlines : (lineMasks (bins dim) (column s padding dim) s.numPoints).length ≤ 2^24 := by
    rw [length_lineMasks]
    exact h.lines_le.trans (by decide)
  have hwalk := selectDict_run (makeMask s (bins dim) lower upper).1
    (makeMask s (bins dim) lower upper).2 (column s padding dim) lower upper hexp hlines []
    (clearAll s (results dim))
  rw [List.append_nil] at hwalk
  refine ⟨selectLines (makeMask s (bins dim) lower upper).1 (makeMask s (bins dim) lower upper).2
    (column s padding dim) lower upper 0 (lineMasks (bins dim) (column s padding dim) s.numPoints)
    (clearAll s (results dim)),?_,?_⟩
  · simp only [rangeSelectColumn,hget,hbins,hix.cols,Option.bind_eq_bind,Option.bind_some,hwalk]
  · intro tid htid
    rw [bit_selectLines_lineMasks (h.bins_mono dim hdim) hlu
      (fun t ht => by rw [hcol t ht]; exact h.values t ht dim hdim) htid (bit_clearAll _ htid),
      hcol tid htid]

/-- Another column keeps the members of the first column that it admits. -/
theorem intersectColumn_spec {first dim lower upper : ℕ} (hdim : dim < s.numDim)
    (hne : dim ≠ first) (hlu : lower ≤ upper) (results : ℕ → Bitmap) :
    ∃ results', intersectColumn s ix first dim lower upper results = some results' ∧
      ∀ tid < s.numPoints, bit (results' first) tid =
        (bit (results first) tid && isIn lower upper (s.value tid dim)) := by
  obtain ⟨res,hselect,hres⟩ := rangeSelectColumn_spec h hix hdim hlu results
  refine ⟨_,by rw [intersectColumn,hselect]; rfl,?_⟩
  intro tid htid
  rw [Function.update_self,bit_andBitvectors _ _ htid,Function.update_self,
    Function.update_of_ne hne.symm,hres tid htid]

/-- The first column is selected once more, into the bitmap it is then intersected with. -/
theorem intersectColumn_self {dim lower upper : ℕ} (hdim : dim < s.numDim) (hlu : lower ≤ upper)
    (results : ℕ → Bitmap) :
    ∃ results', intersectColumn s ix dim dim lower upper results = some results' ∧
      ∀ tid < s.numPoints, bit (results' dim) tid = isIn lower upper (s.value tid dim) := by
  obtain ⟨res,hselect,hres⟩ := rangeSelectColumn_spec h hix hdim hlu results
  refine ⟨_,by rw [intersectColumn,hselect]; rfl,?_⟩
  intro tid htid
  rw [Function.update_self,bit_andBitvectors _ _ htid,Function.update_self,hres tid htid,
    Bool.and_self]

/-- The columns after the first one keep the members that all of them admit. -/
theorem intersectColumns_run (q : Query) (first : ℕ) (dims : List ℕ)
    (hdims : ∀ d ∈ dims, d < s.numDim ∧ d ≠ first ∧
      (q.columnsForSelect d = true → q.lowerBound d ≤ q.upperBound d)) (results : ℕ → Bitmap) :
    ∃ results', dims.foldlM (fun results d => if q.columnsForSelect d then
        intersectColumn s ix first d (q.lowerBound d) (q.upperBound d) results
        else some results) results = some results' ∧
      ∀ tid < s.numPoints, bit (results' first) tid =
        (bit (results first) tid && dims.all fun d => q.admits d (s.value tid d)) := by
  induction dims generalizing results with
  | nil => exact ⟨results,rfl,fun tid _ => (Bool.and_true _).symm⟩
  | cons d dims ih =>
    obtain ⟨hd,hne,hlu⟩ := hdims d List.mem_cons_self
    have hrest := fun d' hd' => hdims d' (List.mem_cons_of_mem _ hd')
    by_cases hsel : q.columnsForSelect d = true
    · obtain ⟨results1,hstep,hbits⟩ := intersectColumn_spec h hix hd hne (hlu hsel) results
      obtain ⟨results2,hrun,hbits2⟩ := ih hrest results1
      refine ⟨results2,?_,?_⟩
      · rw [List.foldlM_cons,if_pos hsel,hstep]
        exact hrun
      · intro tid htid
        rw [hbits2 tid htid,hbits tid htid,List.all_cons,Query.admits,hsel,Bool.not_true,
          Bool.false_or,Bool.and_assoc]
    · obtain ⟨results2,hrun,hbits2⟩ := ih hrest results
      refine ⟨results2,?_,?_⟩
      · rw [List.foldlM_cons,if_neg hsel]
        exact hrun
      · intro tid htid
        rw [Bool.not_eq_true] at hsel
        rw [hbits2 tid htid,List.all_cons,Query.admits,hsel,Bool.not_false,Bool.true_or,
          Bool.true_and]

theorem partialMatch_eq (q : Query) (hsome : ∃ dim < s.numDim, q.columnsForSelect dim = true)
    (hq : ∀ dim < s.numDim, q.columnsForSelect dim = true →
      q.lowerBound dim ≤ q.upperBound dim) :
    partialMatch s ix q = some (SeqScan.partialMatch s q) := by
  obtain ⟨first,hlt,hfirst,hsel,hbefore⟩ := Query.exists_first hsome
  have hlu := hq first hlt hsel
  obtain ⟨res,hselect,_⟩ := rangeSelectColumn_spec h hix hlt hlu ix.results
  obtain ⟨results1,hself,hbits1⟩ :=
    intersectColumn_self h hix hlt hlu (Function.update ix.results first res)
  obtain ⟨results2,hrun,hbits2⟩ := intersectColumns_run h hix q first
    (List.range' (first+1) (s.numDim-first-1)) (fun d hd => by
      have := List.mem_range'_1.mp hd
      exact ⟨by omega,by omega,hq d (by omega)⟩) results1
  have hsplit : List.range' first (s.numDim-first) =
      first :: List.range' (first+1) (s.numDim-first-1) := by
    rw [← List.range'_succ]
    congr 1
    omega
  have hfold : (List.range' first (s.numDim-first)).foldlM (fun results d =>
      if q.columnsForSelect d then
        intersectColumn s ix first d (q.lowerBound d) (q.upperBound d) results
      else some results) (Function.update ix.results first res) = some results2 := by
    rw [hsplit,List.foldlM_cons,if_pos hsel,hself]
    exact hrun
  simp only [partialMatch,hfirst,hselect,hfold,Option.bind_eq_bind,Option.bind_some,
    returnTids_spec,SeqScan.partialMatch]
  refine congrArg some (List.filter_congr ?_)
  intro tid htid
  rw [hbits2 tid (List.mem_range.mp htid),hbits1 tid (List.mem_range.mp htid),
    isPartiallyIn_eq_first hlt hsel hbefore]

theorem windowQuery_eq (hdim : 1 ≤ s.numDim) (lowerBound upperBound : ℕ → ℕ)
    (hlu : ∀ dim < s.numDim, lowerBound dim ≤ upperBound dim) :
    windowQuery s ix lowerBound upperBound =
      some (SeqScan.windowQuery s lowerBound upperBound) := by
  obtain ⟨res,hselect,hbits⟩ := rangeSelectColumn_spec h hix hdim (hlu 0 hdim) ix.results
  obtain ⟨results,hrun,hbits'⟩ := intersectColumns_run h hix (Query.window lowerBound upperBound)
    0 (List.range' 1 (s.numDim-1)) (fun d hd => by
      have := List.mem_range'_1.mp hd
      exact ⟨by omega,by omega,fun _ => hlu d (by omega)⟩) (Function.update ix.results 0 res)
  have hfold : (List.range' 1 (s.numDim-1)).foldlM (fun results d =>
      intersectColumn s ix 0 d (lowerBound d) (upperBound d) results)
      (Function.update ix.results 0 res) = some results := hrun
  simp only [windowQuery,hselect,hfold,Option.bind_eq_bind,Option.bind_some,returnTids_spec,
    SeqScan.windowQuery]
  refine congrArg some (List.filter_congr ?_)
  intro tid htid
  have htid' := List.mem_range.mp htid
  rw [hbits' tid htid',Function.update_self,hbits tid htid']
  exact (isPartiallyIn_eq_first (q:=Query.window lowerBound upperBound) hdim rfl
    fun dim hlt => absurd hlt (Nat.not_lt_zero dim)).symm

end Queries

/-- The build of the compressed imprints returns, and partial-match and window queries on them
answer like the row scan, whatever the padding words and the old result bitmaps hold. -/
theorem compressed_exact (s : Store) (hn : 1 ≤ s.numPoints) (hlines : (s.numPoints+15)/16 ≤ 2^24-2)
    (hvalues : ∀ tid < s.numPoints, ∀ dim < s.numDim,
      s.dimMin ≤ s.value tid dim ∧ s.value tid dim ≤ s.dimMax)
    (bins : ℕ → Bins) (hbins : ∀ dim < s.numDim, Monotone (bins dim)) (padding : ℕ → ℕ → ℕ)
    (results : ℕ → Bitmap) :
    ∃ ix, buildIndex s bins padding results = some ix ∧
      (∀ q : Query, (∃ dim < s.numDim, q.columnsForSelect dim = true) →
        (∀ dim < s.numDim, q.columnsForSelect dim = true →
          q.lowerBound dim ≤ q.upperBound dim) →
        partialMatch s ix q = some (SeqScan.partialMatch s q)) ∧
      ∀ lowerBound upperBound : ℕ → ℕ, 1 ≤ s.numDim →
        (∀ dim < s.numDim, lowerBound dim ≤ upperBound dim) →
        windowQuery s ix lowerBound upperBound =
          some (SeqScan.windowQuery s lowerBound upperBound) := by
  have hs : Indexable s bins := ⟨hn,hlines,hvalues,hbins⟩
  obtain ⟨ix,hbuild,hix⟩ := buildIndex_built hs padding results
  refine ⟨ix,hbuild,?_,?_⟩
  · exact fun q hsome hq => partialMatch_eq hs hix q hsome hq
  · exact fun lowerBound upperBound hdim hlu => windowQuery_eq hs hix hdim lowerBound upperBound hlu

theorem compressed_exact_grid :
    ∃ ix, buildIndex gridStore (fun _ w => w/9) (fun _ _ => 9) (fun _ _ => 7#8) = some ix ∧
      (∀ q : Query, (∃ dim < 2, q.columnsForSelect dim = true) →
        (∀ dim < 2, q.columnsForSelect dim = true → q.lowerBound dim ≤ q.upperBound dim) →
        partialMatch gridStore ix q = some (SeqScan.partialMatch gridStore q)) ∧
      ∀ lowerBound upperBound : ℕ → ℕ, 1 ≤ gridStore.numDim →
        (∀ dim < 2, lowerBound dim ≤ upperBound dim) →
        windowQuery gridStore ix lowerBound upperBound =
          some (SeqScan.windowQuery gridStore lowerBound upperBound) :=
  compressed_exact gridStore (by decide) (by decide) (by decide) (fun _ w => w/9)
    (fun _ _ v w h => Nat.div_le_div_right h) (fun _ _ => 9) fun _ _ => 7#8

end ImprintIndex
end ElfIndex
