import ElfIndex.Imprint.Bins
import ElfIndex.Lib.Bitmap
import ElfIndex.Lib.WordMemory

/-! # Bitmap kernels

The functions of `Util.h` that the imprint indexes use on a result bitmap: the test of the
16 tuples of a cache line, the intersection of two bitmaps, and the list of the set bits.
An index that clears the bits of the tuples column by column ends with the row scan's answer.
-/
namespace ElfIndex
open WordMemory Bitmap

/-- The byte of eight tuples, one `isIn` test for each. -/
def checkByte (col : Memory) (begin lower upper : ℕ) : BitVec 8 :=
  packByte fun j => isIn lower upper (col (begin+j))

/-- The two result bytes are assigned, whatever they hold. -/
def checkTidsOr (col : Memory) (begin : ℕ) (res : Bitmap) (lower upper : ℕ) : Bitmap :=
  let offset := begin/8
  let res := setByte res offset (checkByte col begin lower upper)
  setByte res (offset+1) (checkByte col (begin+8) lower upper)

def checkTidsAnd (col : Memory) (begin : ℕ) (res : Bitmap) (lower upper : ℕ) : Bitmap :=
  let offset := begin/8
  let res := setByte res offset (res offset &&& checkByte col begin lower upper)
  setByte res (offset+1) (res (offset+1) &&& checkByte col (begin+8) lower upper)

def addTidsToResult (begin : ℕ) (res : Bitmap) : Bitmap :=
  let offset := begin/8
  setByte (setByte res offset 255#8) (offset+1) 255#8

/-- One 128-bit operation on the bytes `16*pos, .., 16*pos+15`. -/
def andChunk (res2 res1 : Bitmap) (pos : ℕ) : Bitmap := fun i =>
  if 16*pos ≤ i ∧ i < 16*pos+16 then res1 i &&& res2 i else res1 i

/-- Whole chunks, then the remaining bytes one by one. Two equal pointers are two equal
bitmaps, since no byte is read after it was written. -/
def andBitvectors (res1 res2 : Bitmap) (numberOfBits : ℕ) : Bitmap :=
  let size := (numberOfBits+7)/8
  let res1 := (List.range (size/16)).foldl (andChunk res2) res1
  (List.range' (size/16*16) (size-size/16*16)).foldl
    (fun res1 pos => setByte res1 pos (res1 pos &&& res2 pos)) res1

/-- The array of `maxSize` entries is cut to the number of set bits. -/
def returnTids (res : Bitmap) (maxSize : ℕ) : Option (List ℕ) := do
  let s ← (List.range (maxSize/8)).foldlM (fun s i =>
    if res i ≠ 0#8 then (List.range 8).foldlM (fun s j => put s (i*8+j) ((res i).getLsbD j)) s
    else some s) (List.replicate maxSize 0,0)
  let s ← (List.range' (maxSize/8) ((maxSize+7)/8-maxSize/8)).foldlM (fun s i =>
    (List.range (maxSize%8)).foldlM (fun s j => put s (i*8+j) ((res i).getLsbD j)) s) s
  some (s.1.take s.2)

/-! ## Lines -/

/-- The bits of the cache line that starts at `begin` are replaced. -/
theorem bit_setLine {res : Bitmap} {line tid : ℕ} (b b' : BitVec 8) :
    bit (setByte (setByte res (16*line/8) b) (16*line/8+1) b') tid =
      if tid/16 = line then (if tid%16 < 8 then b.getLsbD (tid%8) else b'.getLsbD (tid%8))
      else bit res tid := by
  rw [bit_setByte,bit_setByte]
  by_cases hline : tid/16 = line
  · rw [if_pos hline]
    by_cases hlow : tid%16 < 8
    · rw [if_neg (by omega),if_pos (by omega),if_pos hlow]
    · rw [if_pos (by omega),if_neg hlow]
  · rw [if_neg (by omega),if_neg (by omega),if_neg hline]

theorem bit_checkTidsOr (col : Memory) (line : ℕ) (res : Bitmap) (lower upper tid : ℕ) :
    bit (checkTidsOr col (16*line) res lower upper) tid =
      if tid/16 = line then isIn lower upper (col tid) else bit res tid := by
  rw [checkTidsOr,bit_setLine]
  have hj : tid%8 < 8 := Nat.mod_lt _ (by decide)
  by_cases hline : tid/16 = line
  · rw [if_pos hline,if_pos hline]
    by_cases hlow : tid%16 < 8
    · have htid : 16*line+tid%8 = tid := by omega
      rw [if_pos hlow,checkByte,getLsbD_packByte _ hj,htid]
    · have htid : 16*line+8+tid%8 = tid := by omega
      rw [if_neg hlow,checkByte,getLsbD_packByte _ hj,htid]
  · rw [if_neg hline,if_neg hline]

/-- The test clears bits of the 16 tuples from `begin` on, counted from the first byte. -/
theorem checkTidsAnd_masked (col : Memory) (begin : ℕ) (res : Bitmap) (lower upper : ℕ) :
    Masked (checkTidsAnd col begin res lower upper) res (8*(begin/8)) 16
      fun j => isIn lower upper (col (begin+j)) := by
  intro k
  refine (bit_andBytes res (begin/8) _ _ k).trans ?_
  by_cases hin : 8*(begin/8) ≤ k ∧ k < 8*(begin/8)+16
  · rw [if_pos hin,if_pos hin]
    by_cases hlow : k-8*(begin/8) < 8
    · rw [if_pos hlow,checkByte,getLsbD_packByte _ hlow]
    · have hpos : begin+8+(k-8*(begin/8)-8) = begin+(k-8*(begin/8)) := by omega
      rw [if_neg hlow,checkByte,getLsbD_packByte _ (by omega),hpos]
  · rw [if_neg hin,if_neg hin]

theorem bit_checkTidsAnd (col : Memory) (line : ℕ) (res : Bitmap) (lower upper tid : ℕ) :
    bit (checkTidsAnd col (16*line) res lower upper) tid =
      (bit res tid && if tid/16 = line then isIn lower upper (col tid) else true) := by
  rw [checkTidsAnd_masked]
  by_cases hline : tid/16 = line
  · have hpos : 16*line+(tid-8*(16*line/8)) = tid := by omega
    rw [if_pos hline,if_pos (by omega)]
    simp only [hpos]
  · rw [if_neg hline,if_neg (by omega)]

theorem bit_addTidsToResult (line : ℕ) (res : Bitmap) (tid : ℕ) :
    bit (addTidsToResult (16*line) res) tid = if tid/16 = line then true else bit res tid := by
  have hbits : ∀ j < 8, (255#8).getLsbD j = true := by decide
  have hj : tid%8 < 8 := Nat.mod_lt _ (by decide)
  rw [addTidsToResult,bit_setLine,hbits _ hj,ite_self]

/-! ## Whole bitmaps -/

theorem andBitvectors_byte (res1 res2 : Bitmap) (numberOfBits : ℕ) {i : ℕ}
    (hi : i < (numberOfBits+7)/8) : andBitvectors res1 res2 numberOfBits i = res1 i &&& res2 i := by
  have hchunks : ∀ k, (List.range k).foldl (andChunk res2) res1 i =
      if i < 16*k then res1 i &&& res2 i else res1 i := by
    intro k
    induction k with
    | zero => rfl
    | succ k ih =>
      rw [List.range_succ,List.foldl_append,List.foldl_cons,List.foldl_nil,andChunk,ih]
      by_cases hlow : i < 16*k
      · rw [if_neg (by omega),if_pos hlow,if_pos (by omega)]
      · by_cases hhigh : i < 16*k+16
        · rw [if_pos (by omega),if_neg hlow,if_pos (by omega)]
        · rw [if_neg (by omega),if_neg hlow,if_neg (by omega)]
  have hbytes : ∀ (m lo : ℕ) (r : Bitmap), (List.range' lo m).foldl
      (fun res1 pos => setByte res1 pos (res1 pos &&& res2 pos)) r i =
      if lo ≤ i ∧ i < lo+m then r i &&& res2 i else r i := by
    intro m
    induction m with
    | zero =>
      intro lo r
      rw [if_neg (by omega)]
      rfl
    | succ m ih =>
      intro lo r
      rw [List.range'_succ,List.foldl_cons,ih,setByte,Function.update_apply]
      by_cases hlo : i = lo
      · rw [if_neg (by omega),if_pos hlo,if_pos (by omega),hlo]
      · rw [if_neg hlo]
        by_cases hin : lo+1 ≤ i ∧ i < lo+1+m
        · rw [if_pos hin,if_pos (by omega)]
        · rw [if_neg hin,if_neg (by omega)]
  simp only [andBitvectors]
  rw [hbytes,hchunks]
  by_cases hlow : i < 16*((numberOfBits+7)/8/16)
  · rw [if_neg (by omega),if_pos hlow]
  · rw [if_pos (by omega),if_neg hlow]

theorem bit_andBitvectors (res1 res2 : Bitmap) {numberOfBits tid : ℕ} (h : tid < numberOfBits) :
    bit (andBitvectors res1 res2 numberOfBits) tid = (bit res1 tid && bit res2 tid) := by
  rw [bit,andBitvectors_byte res1 res2 numberOfBits (by omega),BitVec.getLsbD_and,bit,bit]

/-- The whole bytes; a zero byte is skipped. -/
theorem collect_whole (res : Bitmap) (maxSize : ℕ) :
    ∃ s, (List.range (maxSize/8)).foldlM (fun s i =>
      if res i ≠ 0#8 then (List.range 8).foldlM (fun s j => put s (i*8+j) ((res i).getLsbD j)) s
      else some s) (List.replicate maxSize 0,0) = some s ∧
      Collected res maxSize (maxSize/8*8) s := by
  suffices hwhole : ∀ k ≤ maxSize/8, ∃ s, (List.range k).foldlM (fun s i =>
      if res i ≠ 0#8 then (List.range 8).foldlM (fun s j => put s (i*8+j) ((res i).getLsbD j)) s
      else some s) (List.replicate maxSize 0,0) = some s ∧ Collected res maxSize (k*8) s from
    hwhole _ le_rfl
  intro k hk
  induction k with
  | zero => exact ⟨_,rfl,Collected.initial res maxSize⟩
  | succ k ih =>
    obtain ⟨s,hrun,hs⟩ := ih (by omega)
    have hnext : (k+1)*8 = k*8+8 := by omega
    rw [List.range_succ (n:=k),List.foldlM_append,hrun,hnext]
    by_cases hzero : res k = 0#8
    · refine ⟨s,by simp [hzero],hs.skip 8 fun j hj => ?_⟩
      rw [← getLsbD_eq_bit k hj,hzero]
      exact BitVec.getLsbD_zero
    · obtain ⟨s',hrun',hs'⟩ := hs.puts (m:=8) (by omega) fun j hj => getLsbD_eq_bit k hj
      refine ⟨s',?_,hs'⟩
      simp only [Option.bind_eq_bind,Option.bind_some,List.foldlM_cons,List.foldlM_nil,ne_eq,
        hzero,not_false_eq_true,if_true,hrun']
      rfl

/-- The byte that is cut by the end, if there is one. -/
theorem collect_rest {res : Bitmap} {maxSize : ℕ} {s : List ℕ × ℕ}
    (hs : Collected res maxSize (maxSize/8*8) s) :
    ∃ s', (List.range' (maxSize/8) ((maxSize+7)/8-maxSize/8)).foldlM
      (fun s i => (List.range (maxSize%8)).foldlM
        (fun s j => put s (i*8+j) ((res i).getLsbD j)) s) s = some s' ∧
      Collected res maxSize maxSize s' := by
  rcases Nat.eq_zero_or_pos (maxSize%8) with hrest | hrest
  · have hcount : (maxSize+7)/8-maxSize/8 = 0 := by omega
    have hend : maxSize/8*8 = maxSize := by omega
    rw [hcount]
    rw [hend] at hs
    exact ⟨s,rfl,hs⟩
  · have hcount : (maxSize+7)/8-maxSize/8 = 1 := by omega
    have hend : maxSize/8*8+maxSize%8 = maxSize := by omega
    obtain ⟨s',hrun',hs'⟩ := hs.puts hend.le
      fun j hj => getLsbD_eq_bit (maxSize/8) (hj.trans (Nat.mod_lt _ (by decide)))
    rw [hend] at hs'
    refine ⟨s',?_,hs'⟩
    rw [hcount,List.range'_one,List.foldlM_cons,hrun']
    rfl

/-- The set bits below `maxSize`, in ascending order. -/
theorem returnTids_spec (res : Bitmap) (maxSize : ℕ) :
    returnTids res maxSize = some ((List.range maxSize).filter (bit res)) := by
  obtain ⟨s,hrun,hs⟩ := collect_whole res maxSize
  obtain ⟨s',hrun',hs'⟩ := collect_rest hs
  simp only [returnTids,Option.bind_eq_bind,hrun,Option.bind_some,hrun',hs'.members]

/-! ## Selection column by column

The column-wise indexes start with all tuples and let each column of the query clear the
bits of the tuples that it does not admit. What is left is the answer of the row scan.
-/
theorem isPartiallyIn_succ (point : ℕ → ℕ) (q : Query) (k : ℕ) :
    isPartiallyIn point q (k+1) = (isPartiallyIn point q k && q.admits k (point k)) := by
  rw [isPartiallyIn_eq_all,isPartiallyIn_eq_all,List.range_succ,List.all_append]
  simp

theorem bit_foldl_of_untouched {step : Bitmap → ℕ → Bitmap} {tid : ℕ} (dims : List ℕ)
    (h : ∀ dim res, bit (step res dim) tid = bit res tid) (res : Bitmap) :
    bit (dims.foldl step res) tid = bit res tid := by
  induction dims generalizing res with
  | nil => rfl
  | cons dim dims ih => rw [List.foldl_cons,ih,h]

/-- A loop over the columns in which each column only clears the bit of a tuple that it does
not admit. -/
theorem bit_foldColumns {step : Bitmap → ℕ → Bitmap} (q : Query) (point : ℕ → ℕ) {tid : ℕ} (k : ℕ)
    (h : ∀ dim < k, ∀ res, bit (step res dim) tid = (bit res tid && q.admits dim (point dim)))
    (res : Bitmap) :
    bit ((List.range k).foldl step res) tid = (bit res tid && isPartiallyIn point q k) := by
  induction k with
  | zero => simp [isPartiallyIn]
  | succ k ih =>
    rw [List.range_succ,List.foldl_append,List.foldl_cons,List.foldl_nil,h k (Nat.lt_succ_self k),
      ih fun dim hdim => h dim (by omega),isPartiallyIn_succ,Bool.and_assoc]

/-- The members of a bitmap are the answer of the row scan if its bits are the row tests. -/
theorem returnTids_eq_partialMatch {s : Store} {q : Query} {res : Bitmap}
    (h : ∀ tid < s.numPoints, bit res tid = isPartiallyIn (s.value tid) q s.numDim) :
    returnTids res s.numPoints = some (SeqScan.partialMatch s q) := by
  rw [returnTids_spec,SeqScan.partialMatch]
  refine congrArg some (List.filter_congr ?_)
  intro tid htid
  exact h tid (List.mem_range.mp htid)

/-- The answer of an index that clears, for every column of the query, the bits of the tuples
out of its bounds. -/
theorem returnTids_foldColumns {s : Store} {q : Query} {select : ℕ → Bitmap → Bitmap}
    (h : ∀ dim < s.numDim, q.columnsForSelect dim = true → ∀ res, ∀ tid < s.numPoints,
      bit (select dim res) tid =
        (bit res tid && isIn (q.lowerBound dim) (q.upperBound dim) (s.value tid dim)))
    {res : Bitmap} (hres : ∀ tid < s.numPoints, bit res tid = true) :
    returnTids ((List.range s.numDim).foldl (fun result dim =>
      if q.columnsForSelect dim then select dim result else result) res) s.numPoints =
        some (SeqScan.partialMatch s q) := by
  apply returnTids_eq_partialMatch
  intro tid htid
  rw [bit_foldColumns q (s.value tid),hres tid htid,Bool.true_and]
  intro dim hdim res
  by_cases hs : q.columnsForSelect dim = true
  · rw [if_pos hs,h dim hdim hs res tid htid]
    simp only [Query.admits,hs,Bool.not_true,Bool.false_or]
  · rw [if_neg hs]
    simp [Query.admits,hs]

end ElfIndex
