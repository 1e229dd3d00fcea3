import ElfIndex.Lib.Blocks

/-! # Bit vectors of the scan library

A bit vector is a list of blocks of at most `kNumCodesPerBlock` bits. The bits of a word
are numbered from its most significant one. `toTids` writes the numbers of the set bits of
every block; they are counted from the start of the block, not of the table.
-/
namespace ElfIndex.Bitweaving
open Bitmap

abbrev WordUnit := BitVec 64

def kNumBitsPerWord : ℕ := 64

def kNumCodesPerBlock : ℕ := 1048576

structure BitVectorBlock where
  num : ℕ
  data : ℕ → WordUnit

/-- Bit `bitId` of a word. -/
def wordBit (word : WordUnit) (bitId : ℕ) : Bool :=
  (word >>> (kNumBitsPerWord-1-bitId)) &&& 1#64 == 1#64

namespace BitVectorBlock

def numWordUnits (block : BitVectorBlock) : ℕ := (block.num+kNumBitsPerWord-1)/kNumBitsPerWord

def bit (block : BitVectorBlock) (k : ℕ) : Bool :=
  wordBit (block.data (k/kNumBitsPerWord)) (k%kNumBitsPerWord)

def finalize (block : BitVectorBlock) : BitVectorBlock :=
  let word := block.num/kNumBitsPerWord
  let offset := kNumBitsPerWord-block.num%kNumBitsPerWord
  if offset ≠ kNumBitsPerWord then
    ⟨block.num,Function.update block.data word (block.data word &&& (BitVec.allOnes 64 <<< offset))⟩
  else block

def setOnes (block : BitVectorBlock) : BitVectorBlock :=
  finalize ⟨block.num,fun i =>
    if i < block.numWordUnits then BitVec.allOnes 64 else block.data i⟩

/-- The body of the block loop of `toTids`. The last word is `maxWord-1`, so a block without
words would run the word loop over the whole range of `uint32_t`. -/
def toTids (block : BitVectorBlock) (s : List ℕ × ℕ) : Option (List ℕ × ℕ) :=
  match block.numWordUnits with
  | 0 => none
  | lastWord+1 => do
    let s ← (List.range lastWord).foldlM (fun s wordId =>
      if block.data wordId ≠ 0#64 then
        (List.range kNumBitsPerWord).foldlM (fun s bitId =>
          put s (wordId*kNumBitsPerWord+bitId) (wordBit (block.data wordId) bitId)) s
      else some s) s
    if block.data lastWord ≠ 0#64 then
      (List.range (block.num-lastWord*kNumBitsPerWord)).foldlM (fun s bitId =>
        put s (lastWord*kNumBitsPerWord+bitId) (wordBit (block.data lastWord) bitId)) s
    else some s

/-- The numbers of the set bits. -/
def tids (block : BitVectorBlock) : List ℕ := (List.range block.num).filter block.bit

end BitVectorBlock

abbrev BitVector := List BitVectorBlock

namespace BitVector

/-- The sizes of the blocks of a vector of `numBits`. -/
def blockNums (numBits : ℕ) : List ℕ :=
  (List.range (Blocks.numBlocks numBits kNumCodesPerBlock)).map
    (Blocks.blockSize numBits kNumCodesPerBlock)

/-- The constructor; the words of a new block hold anything. -/
def ofTable (numBits : ℕ) (words : ℕ → ℕ → WordUnit) : BitVector :=
  (List.range (Blocks.numBlocks numBits kNumCodesPerBlock)).map fun blockId =>
    BitVectorBlock.setOnes ⟨Blocks.blockSize numBits kNumCodesPerBlock blockId,words blockId⟩

def toTids (bv : BitVector) (maxSize : ℕ) : Option (List ℕ) := do
  let s ← bv.foldlM (fun s block => block.toTids s) (List.replicate maxSize 0,0)
  some (s.1.take s.2)

/-- Bit `k` of block `blockId`. -/
def bit (bv : BitVector) (blockId k : ℕ) : Bool :=
  match bv[blockId]? with
  | some block => block.bit k
  | none => false

end BitVector

theorem kNumCodesPerBlock_pos : 0 < kNumCodesPerBlock := by decide

/-! ## Words -/

theorem wordBit_eq (word : WordUnit) (bitId : ℕ) :
    wordBit word bitId = word.getLsbD (63-bitId) := by
  have hlsb : (word >>> (63-bitId)).getLsbD 0 = word.getLsbD (63-bitId) := by
    rw [BitVec.getLsbD_ushiftRight,Nat.add_zero]
  rw [wordBit,BitVec.and_one_eq_setWidth_ofBool_getLsbD,← hlsb]
  unfold kNumBitsPerWord
  cases (word >>> (63-bitId)).getLsbD 0 <;> rfl

theorem wordBit_zero (bitId : ℕ) : wordBit 0#64 bitId = false := by
  simp [wordBit]

namespace BitVectorBlock
variable {block : BitVectorBlock} {n : ℕ} {l : List ℕ} {s : List ℕ × ℕ}

theorem bit_word (block : BitVectorBlock) (wordId : ℕ) {bitId : ℕ} (h : bitId < kNumBitsPerWord) :
    block.bit (wordId*kNumBitsPerWord+bitId) = wordBit (block.data wordId) bitId := by
  unfold kNumBitsPerWord at h
  have hdiv : (wordId*64+bitId)/64 = wordId := by omega
  have hmod : (wordId*64+bitId)%64 = bitId := by omega
  rw [bit,kNumBitsPerWord,hdiv,hmod]

/-- One word, which is skipped if it is zero. -/
theorem putWord (block : BitVectorBlock) (h : Filled n l s) (wordId : ℕ) {m : ℕ} (hm : m ≤ kNumBitsPerWord)
    (hl : l.length+m ≤ n) :
    ∃ s', (if block.data wordId ≠ 0#64 then
        (List.range m).foldlM (fun s bitId =>
          put s (wordId*kNumBitsPerWord+bitId) (wordBit (block.data wordId) bitId)) s
      else some s) = some s' ∧
      Filled n (l ++ ((List.range m).filter fun j => block.bit (wordId*kNumBitsPerWord+j)).map
        (wordId*kNumBitsPerWord+·)) s' := by
  have hfilter : (List.range m).filter (fun j => block.bit (wordId*kNumBitsPerWord+j)) =
      (List.range m).filter (wordBit (block.data wordId)) :=
    List.filter_congr fun j hj => bit_word block wordId ((List.mem_range.mp hj).trans_le hm)
  rw [hfilter]
  by_cases hzero : block.data wordId = 0#64
  · refine ⟨s,if_neg (not_not.mpr hzero),?_⟩
    have hnil : (List.range m).filter (wordBit (block.data wordId)) = [] :=
      List.filter_eq_nil_iff.mpr fun j _ => by simp [hzero,wordBit_zero]
    rw [hnil,List.map_nil,List.append_nil]
    exact h
  · rw [if_pos hzero]
    exact h.puts hl _ _

theorem putWords (block : BitVectorBlock) (h : Filled n l s) (lastWord : ℕ)
    (hl : l.length+lastWord*kNumBitsPerWord ≤ n) :
    ∃ s', (List.range lastWord).foldlM (fun s wordId =>
        if block.data wordId ≠ 0#64 then
          (List.range kNumBitsPerWord).foldlM (fun s bitId =>
            put s (wordId*kNumBitsPerWord+bitId) (wordBit (block.data wordId) bitId)) s
        else some s) s = some s' ∧
      Filled n (l ++ (List.range (lastWord*kNumBitsPerWord)).filter block.bit) s' := by
  induction lastWord with
  | zero => exact ⟨s,rfl,by simpa using h⟩
  | succ w ih =>
    rw [Nat.succ_mul] at hl
    obtain ⟨s1,hrun,h1⟩ := ih (by omega)
    have hlen := List.length_filter_le block.bit (List.range (w*kNumBitsPerWord))
    rw [List.length_range] at hlen
    obtain ⟨s2,hword,h2⟩ := putWord block h1 w le_rfl
      (by rw [List.length_append]; omega)
    refine ⟨s2,?_,?_⟩
    · rw [List.range_succ,List.foldlM_append,hrun]
      simpa using hword
    · rw [Nat.succ_mul,range_add_filter,← List.append_assoc]
      exact h2

/-- A block adds the numbers of its set bits. -/
theorem toTids_filled (h : Filled n l s) (hnum : 0 < block.num) (hl : l.length+block.num ≤ n) :
    ∃ s', block.toTids s = some s' ∧ Filled n (l ++ block.tids) s' := by
  have hwords : block.numWordUnits = (block.num-1)/kNumBitsPerWord+1 := by
    unfold numWordUnits kNumBitsPerWord
    omega
  have hlast : (block.num-1)/kNumBitsPerWord*kNumBitsPerWord ≤ block.num := by
    unfold kNumBitsPerWord
    omega
  have hrest : block.num-(block.num-1)/kNumBitsPerWord*kNumBitsPerWord ≤ kNumBitsPerWord := by
    unfold kNumBitsPerWord
    omega
  unfold toTids
  rw [hwords]
  obtain ⟨s1,hrun,h1⟩ := putWords block h ((block.num-1)/kNumBitsPerWord) (by omega)
  have hlen := List.length_filter_le block.bit
    (List.range ((block.num-1)/kNumBitsPerWord*kNumBitsPerWord))
  rw [List.length_range] at hlen
  obtain ⟨s2,hword,h2⟩ := putWord block h1 ((block.num-1)/kNumBitsPerWord) hrest
    (by rw [List.length_append]; omega)
  refine ⟨s2,?_,?_⟩
  · simp only [hrun,Option.bind_eq_bind,Option.bind_some]
    exact hword
  · rw [List.append_assoc,← range_add_filter,Nat.add_sub_cancel' hlast] at h2
    exact h2

/-- Only bits behind the end of the block are cleared. -/
theorem bit_finalize (block : BitVectorBlock) {k : ℕ} (hk : k < block.num) :
    block.finalize.bit k = block.bit k := by
  simp only [finalize]
  split
  · simp only [bit,wordBit_eq,kNumBitsPerWord,Function.update_apply]
    by_cases hlast : k/64 = block.num/64
    · have hmask : (BitVec.allOnes 64 <<< (64-block.num%64)).getLsbD (63-k%64) = true := by
        rw [BitVec.getLsbD_shiftLeft,BitVec.getLsbD_allOnes]
        simp
        omega
      rw [if_pos hlast,hlast,BitVec.getLsbD_and,hmask,Bool.and_true]
    · rw [if_neg hlast]
  · rfl

/-- The bits of a new block are set, whatever its words held. -/
theorem bit_setOnes {num k : ℕ} (words : ℕ → WordUnit) (hk : k < num) :
    (setOnes ⟨num,words⟩).bit k = true := by
  have hword : k/kNumBitsPerWord < numWordUnits ⟨num,words⟩ := by
    simp only [numWordUnits,kNumBitsPerWord]
    omega
  have hfinal := bit_finalize ⟨num,fun i =>
    if i < numWordUnits ⟨num,words⟩ then BitVec.allOnes 64 else words i⟩ hk
  refine hfinal.trans ?_
  simp only [bit,if_pos hword,wordBit_eq,BitVec.getLsbD_allOnes]
  simp
  omega

theorem num_setOnes (num : ℕ) (words : ℕ → WordUnit) : (setOnes ⟨num,words⟩).num = num := by
  simp only [setOnes,finalize]
  split <;> rfl

theorem map_num_setOnes (l : List ℕ) (nums : ℕ → ℕ) (words : ℕ → ℕ → WordUnit) :
    (l.map fun b => setOnes ⟨nums b,words b⟩).map (·.num) = l.map nums := by
  rw [List.map_map]
  exact List.map_congr_left fun b _ => num_setOnes _ _

end BitVectorBlock

namespace BitVector
variable {bv : BitVector} {n numBits : ℕ} {l : List ℕ} {s : List ℕ × ℕ}

theorem foldlM_toTids (h : Filled n l s) (hpos : ∀ block ∈ bv, 0 < block.num)
    (hl : l.length+(bv.map (·.num)).sum ≤ n) :
    ∃ s', bv.foldlM (fun s block => block.toTids s) s = some s' ∧
      Filled n (l ++ bv.flatMap (·.tids)) s' := by
  induction bv generalizing l s with
  | nil => exact ⟨s,rfl,by simpa using h⟩
  | cons block bv ih =>
    rw [List.map_cons,List.sum_cons] at hl
    have hlen : block.tids.length ≤ block.num :=
      (List.length_filter_le _ _).trans (List.length_range).le
    obtain ⟨s1,hblock,h1⟩ := block.toTids_filled h (hpos block List.mem_cons_self) (by omega)
    obtain ⟨s2,hrun,h2⟩ := ih h1 (fun b hb => hpos b (List.mem_cons_of_mem block hb))
      (by rw [List.length_append]; omega)
    refine ⟨s2,?_,?_⟩
    · rw [List.foldlM_cons,hblock]
      exact hrun
    · rw [List.flatMap_cons,← List.append_assoc]
      exact h2

theorem toTids_eq (hpos : ∀ block ∈ bv, 0 < block.num) {maxSize : ℕ}
    (hsize : (bv.map (·.num)).sum ≤ maxSize) :
    toTids bv maxSize = some (bv.flatMap (·.tids)) := by
  obtain ⟨s,hrun,hs⟩ := foldlM_toTids (Filled.initial maxSize) hpos
    (by rw [List.length_nil,Nat.zero_add]; exact hsize)
  rw [toTids,hrun]
  exact congrArg some hs.members

/-! ## Vectors over a table -/

/-- The vector has the blocks of a table and its bits are the answers of `p`. -/
structure Selected (bv : BitVector) (numBits : ℕ) (p : ℕ → Bool) : Prop where
  nums : bv.map (·.num) = blockNums numBits
  bit : ∀ blockId k, k < kNumCodesPerBlock → blockId*kNumCodesPerBlock+k < numBits →
    bv.bit blockId k = p (blockId*kNumCodesPerBlock+k)

theorem Selected.ofTable (numBits : ℕ) (words : ℕ → ℕ → WordUnit) :
    Selected (ofTable numBits words) numBits fun _ => true := by
  refine ⟨?_,?_⟩
  · exact BitVectorBlock.map_num_setOnes _ _ words
  · intro blockId k hk hlt
    have hblock := (Blocks.lt_numBlocks kNumCodesPerBlock_pos).mpr
      ((Nat.le_add_right _ k).trans_lt hlt)
    rw [BitVector.bit,BitVector.ofTable,List.getElem?_map,List.getElem?_range hblock,
      Option.map_some]
    exact BitVectorBlock.bit_setOnes _ (Blocks.lt_blockSize.mpr ⟨hk,hlt⟩)

variable {p : ℕ → Bool}

theorem Selected.length (h : Selected bv numBits p) :
    bv.length = Blocks.numBlocks numBits kNumCodesPerBlock := by
  have hlen := congrArg List.length h.nums
  rwa [List.length_map,blockNums,List.length_map,List.length_range] at hlen

theorem Selected.getElem_num (h : Selected bv numBits p) {m : ℕ} (hm : m < bv.length) :
    bv[m].num = Blocks.blockSize numBits kNumCodesPerBlock m := by
  have hget := congrArg (·[m]?) h.nums
  simpa [blockNums,List.getElem?_eq_getElem hm,h.length ▸ hm] using hget

theorem Selected.map_tids (h : Selected bv numBits p) :
    bv.map (·.tids) = (List.range (Blocks.numBlocks numBits kNumCodesPerBlock)).map fun m =>
      (List.range (Blocks.blockSize numBits kNumCodesPerBlock m)).filter
        fun k => p (m*kNumCodesPerBlock+k) := by
  refine List.ext_getElem (by simp [h.length]) ?_
  intro m hm _
  rw [List.length_map] at hm
  simp only [List.getElem_map,List.getElem_range,BitVectorBlock.tids,h.getElem_num hm]
  refine List.filter_congr ?_
  intro k hk
  obtain ⟨hk,hlt⟩ := Blocks.lt_blockSize.mp (List.mem_range.mp hk)
  have hbit := h.bit m k hk hlt
  rwa [BitVector.bit,List.getElem?_eq_getElem hm] at hbit

/-- `toTids` returns the selected tids without the number of their block. -/
theorem Selected.toTids (h : Selected bv numBits p) :
    bv.toTids numBits = some (((List.range numBits).filter p).map (·%kNumCodesPerBlock)) := by
  have hsum : (bv.map (·.num)).sum ≤ numBits := by
    rw [h.nums,blockNums,Blocks.sum_blockSize kNumCodesPerBlock_pos le_rfl]
    exact min_le_left _ _
  have hpos : ∀ block ∈ bv, 0 < block.num := by
    intro block hblock
    obtain ⟨m,hm,rfl⟩ := List.mem_iff_getElem.mp hblock
    rw [h.getElem_num hm]
    exact Blocks.blockSize_pos ((Blocks.lt_numBlocks kNumCodesPerBlock_pos).mp (h.length ▸ hm))
      kNumCodesPerBlock_pos
  rw [toTids_eq hpos hsum,List.flatMap_def,h.map_tids,← List.flatMap_def,
    Blocks.flatMap_filter p kNumCodesPerBlock_pos le_rfl,
    Blocks.min_numBlocks kNumCodesPerBlock_pos]

end BitVector

end ElfIndex.Bitweaving
