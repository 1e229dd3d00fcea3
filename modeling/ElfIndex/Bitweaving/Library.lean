import ElfIndex.Store
import ElfIndex.Bitweaving.BitVector

/-! # Scans of the library

A scan combines the old bits of a bit vector with the answers for the codes of their tuples.
The index takes this from the library, whatever the storage method of its columns is; the
columns that store one code in a word meet it.
-/
namespace ElfIndex.Bitweaving
open Bitmap

inductive Comparator
  | kEqual
  | kInequal
  | kGreater
  | kLess
  | kGreaterEqual
  | kLessEqual

/-- The answer for a code. -/
def Comparator.test : Comparator → ℕ → ℕ → Bool
  | .kEqual, literal, code => code == literal
  | .kInequal, literal, code => code != literal
  | .kGreater, literal, code => decide (code > literal)
  | .kLess, literal, code => decide (code < literal)
  | .kGreaterEqual, literal, code => decide (code ≥ literal)
  | .kLessEqual, literal, code => decide (code ≤ literal)

inductive BitVectorOpt
  | kSet
  | kAnd
  | kOr

/-- The new bit from the old one and the answer for the code. -/
def BitVectorOpt.combine : BitVectorOpt → Bool → Bool → Bool
  | .kSet, _, answer => answer
  | .kAnd, old, answer => old && answer
  | .kOr, old, answer => old || answer

/-- A bulk-loaded column. -/
structure Column where
  codeSize : ℕ
  codes : List ℕ

/-- The scans of a column. -/
structure Library where
  scan : Column → ℕ → Comparator → BitVectorOpt → BitVector → BitVector
  scanBetween : Column → ℕ → ℕ → BitVectorOpt → BitVector → BitVector

/-- `bv'` combines the bits of `bv` with the answers for the codes of their tuples. -/
structure Scanned (column : Column) (opt : BitVectorOpt) (test : ℕ → Bool) (bv bv' : BitVector) :
    Prop where
  nums : bv'.map (·.num) = bv.map (·.num)
  bit : ∀ blockId k, k < kNumCodesPerBlock →
    blockId*kNumCodesPerBlock+k < column.codes.length →
    bv'.bit blockId k = opt.combine (bv.bit blockId k)
      (test (column.codes.getD (blockId*kNumCodesPerBlock+k) 0))

/-- What the index takes from the library: a scan of a bit vector over the table of the column
with literals that fit the codes. -/
structure Library.Exact (lib : Library) : Prop where
  scan : ∀ (column : Column) literal comparator opt (bv : BitVector),
    literal < 2^column.codeSize → bv.map (·.num) = BitVector.blockNums column.codes.length →
    Scanned column opt (comparator.test literal) bv (lib.scan column literal comparator opt bv)
  scanBetween : ∀ (column : Column) literal1 literal2 opt (bv : BitVector),
    literal1 ≤ literal2 → literal2 < 2^column.codeSize →
    bv.map (·.num) = BitVector.blockNums column.codes.length →
    Scanned column opt (isIn literal1 literal2) bv (lib.scanBetween column literal1 literal2 opt bv)

/-! ## Columns of whole words -/

/-- One word of the answer for the codes `code 0, .., code (num-1)` of a block. -/
def naiveWord (num : ℕ) (code : ℕ → ℕ) (test : ℕ → Bool) (opt : BitVectorOpt) (wordUnitId : ℕ)
    (old : WordUnit) : WordUnit :=
  packBits 64 kNumBitsPerWord fun i =>
    let id := wordUnitId*kNumBitsPerWord+(kNumBitsPerWord-1-i)
    opt.combine (old.getLsbD i) (decide (id < num) && test (code id))

/-- The words of a block that have codes are answered, the others of the bit vector cleared. -/
def naiveScanBlock (num : ℕ) (code : ℕ → ℕ) (test : ℕ → Bool) (opt : BitVectorOpt)
    (block : BitVectorBlock) : BitVectorBlock where
  num := block.num
  data := fun wordUnitId =>
    if wordUnitId < (num+kNumBitsPerWord-1)/kNumBitsPerWord then
      naiveWord num code test opt wordUnitId (block.data wordUnitId)
    else if wordUnitId < block.numWordUnits then 0#64
    else block.data wordUnitId

def naiveScan (column : Column) (test : ℕ → Bool) (opt : BitVectorOpt) (bv : BitVector) :
    BitVector :=
  bv.mapIdx fun blockId block =>
    naiveScanBlock (Blocks.blockSize column.codes.length kNumCodesPerBlock blockId)
      (fun k => column.codes.getD (blockId*kNumCodesPerBlock+k) 0) test opt block

/-- The library with columns of type `kNaive`, as far as they are loaded: for a positive multiple of
`kNumCodesPerBlock` tuples `Column::Bulkload` fails its assertion, and there is no table to scan. -/
def naiveLibrary : Library where
  scan := fun column literal comparator opt bv =>
    naiveScan column (comparator.test literal) opt bv
  scanBetween := fun column literal1 literal2 opt bv =>
    naiveScan column (isIn literal1 literal2) opt bv

theorem bit_naiveScanBlock {num k : ℕ} (code : ℕ → ℕ) (test : ℕ → Bool) (opt : BitVectorOpt)
    (block : BitVectorBlock) (hk : k < num) :
    (naiveScanBlock num code test opt block).bit k = opt.combine (block.bit k) (test (code k)) := by
  have hword : k/kNumBitsPerWord < (num+kNumBitsPerWord-1)/kNumBitsPerWord := by
    simp only [kNumBitsPerWord]
    omega
  have hlsb : 63-k%kNumBitsPerWord < kNumBitsPerWord := by
    simp only [kNumBitsPerWord]
    omega
  have hid : k/kNumBitsPerWord*kNumBitsPerWord+
      (kNumBitsPerWord-1-(63-k%kNumBitsPerWord)) = k := by
    simp only [kNumBitsPerWord]
    omega
  simp only [BitVectorBlock.bit,naiveScanBlock]
  rw [if_pos hword]
  simp only [naiveWord,wordBit_eq]
  rw [getLsbD_packBits 64 _ _ hlsb,hid,decide_eq_true hlsb,decide_eq_true hk,Bool.true_and,
    Bool.true_and]

theorem scanned_naiveScan (column : Column) (test : ℕ → Bool) (opt : BitVectorOpt)
    {bv : BitVector} (hbv : bv.map (·.num) = BitVector.blockNums column.codes.length) :
    Scanned column opt test bv (naiveScan column test opt bv) := by
  refine ⟨?_,?_⟩
  · exact List.ext_getElem (by simp [naiveScan]) (by simp [naiveScan,naiveScanBlock])
  · intro blockId k hk hlt
    have hlen : bv.length = Blocks.numBlocks column.codes.length kNumCodesPerBlock := by
      have := congrArg List.length hbv
      rwa [List.length_map,BitVector.blockNums,List.length_map,List.length_range] at this
    have hblock : blockId < bv.length := by
      rw [hlen]
      exact (Blocks.lt_numBlocks kNumCodesPerBlock_pos).mpr ((Nat.le_add_right _ k).trans_lt hlt)
    rw [BitVector.bit,BitVector.bit,naiveScan,List.getElem?_mapIdx,
      List.getElem?_eq_getElem hblock,Option.map_some]
    exact bit_naiveScanBlock _ test opt _ (Blocks.lt_blockSize.mpr ⟨hk,hlt⟩)

theorem naiveLibrary_exact : naiveLibrary.Exact where
  scan := fun column literal comparator opt _ _ hbv =>
    scanned_naiveScan column (comparator.test literal) opt hbv
  scanBetween := fun column literal1 literal2 opt _ _ _ hbv =>
    scanned_naiveScan column (isIn literal1 literal2) opt hbv

end ElfIndex.Bitweaving
