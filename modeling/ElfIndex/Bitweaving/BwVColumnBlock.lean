import ElfIndex.Bitweaving.ColumnBlock
import ElfIndex.Lib.BitSlices

/-! # Blocks of a BitWeaving/V column

A segment of 64 codes stores the bits of its codes in slices, one word for each bit, and
the slices are kept in groups of four. A scan compares the slices with those of a literal
or of another block and stops early when no code of the segment is left.
-/
namespace ElfIndex.Bitweaving
open Bitmap BitSlices

def kNumBitsPerGroup : ℕ := 4

/-- `data` has a word for every group and position. -/
structure BwVColumnBlock (codeSize : ℕ) where
  num : ℕ
  numUsedWords : ℕ
  data : ℕ → ℕ → WordUnit

namespace BwVColumnBlock

variable {n : ℕ}

def kNumFullGroups (n : ℕ) : ℕ := n/kNumBitsPerGroup

def kNumBitsLastGroup (n : ℕ) : ℕ := n-kNumBitsPerGroup*kNumFullGroups n

def kNumWordsPerSegment : ℕ := kNumBitsPerGroup

def kNumCodesPerSegment : ℕ := kNumBitsPerWord

/-- The constructor. -/
def create (n : ℕ) : BwVColumnBlock n := ⟨0,0,fun _ _ => 0#64⟩

def resize (b : BwVColumnBlock n) (num : ℕ) : Option (BwVColumnBlock n) :=
  if num ≤ kNumCodesPerBlock then
    some {b with
      num := num
      numUsedWords := (num+kNumCodesPerSegment-1)/kNumCodesPerSegment*kNumWordsPerSegment}
  else none

/-- The loops over the bits of a code: all full groups, then the last one. The step gets
the group, the word and the number of the bit. -/
def forBits {σ : Type*} (n segmentId : ℕ) (step : σ → ℕ → ℕ → ℕ → σ) (s : σ) : σ :=
  let s := (List.range (kNumFullGroups n)).foldl (fun s groupId =>
    (List.range kNumBitsPerGroup).foldl (fun s bitIdInGroup =>
      step s groupId (segmentId*kNumWordsPerSegment+bitIdInGroup)
        (groupId*kNumBitsPerGroup+bitIdInGroup)) s) s
  (List.range (kNumBitsLastGroup n)).foldl (fun s bitIdInGroup =>
    step s (kNumFullGroups n) (segmentId*kNumBitsLastGroup n+bitIdInGroup)
      (kNumFullGroups n*kNumBitsPerGroup+bitIdInGroup)) s

def getCode (b : BwVColumnBlock n) (pos : ℕ) : Except String ℕ :=
  if pos ≥ b.num then .error "GetCode: position overflow"
  else
    let offsetInSegment := kNumCodesPerSegment-1-pos%kNumCodesPerSegment
    let mask := 1#64 <<< offsetInSegment
    let codeWord := forBits n (pos/kNumCodesPerSegment) (fun codeWord groupId wordId bitId =>
      codeWord ||| (((b.data groupId wordId &&& mask) >>> offsetInSegment) <<< (n-1-bitId))) 0#64
    .ok (codeWord.setWidth 32).toNat

def setCode (b : BwVColumnBlock n) (pos code : ℕ) : Status × BwVColumnBlock n :=
  if pos ≥ b.num then (.invalidArgument "GetCode: position overflow",b)
  else
    let offsetInSegment := kNumCodesPerSegment-1-pos%kNumCodesPerSegment
    let mask := 1#64 <<< offsetInSegment
    let codeWord := BitVec.ofNat 64 code
    (.ok,{b with data := forBits n (pos/kNumCodesPerSegment) (fun data groupId wordId bitId =>
      Function.update data groupId (Function.update (data groupId) wordId
        ((data groupId wordId &&& ~~~mask) |||
          (((codeWord >>> (n-1-bitId)) <<< offsetInSegment) &&& mask)))) b.data})

/-- The loop that copies the codes; the statuses are dropped. -/
def bulkload (b : BwVColumnBlock n) (codes : List ℕ) (startTupleId : ℕ) :
    Option (BwVColumnBlock n) :=
  if startTupleId+codes.length ≤ b.num then
    some (codes.zipIdx.foldl (fun b c => (b.setCode (startTupleId+c.2) c.1).2) b)
  else none

/-! ## Scans -/

/-- `ScanIteration` of a group, with the pointer to the next bit of the literals. -/
def iteration {σ : Type*} (n : ℕ) (bit : ℕ → ℕ → ℕ → σ → σ) (groupId segmentOffset : ℕ)
    (s : σ × ℕ) : σ × ℕ :=
  let numBits := if groupId = kNumFullGroups n then kNumBitsLastGroup n else kNumBitsPerGroup
  (List.range numBits).foldl (fun s bitId =>
    (bit groupId (segmentOffset+bitId) s.2 s.1,s.2+1)) s

/-- The nested tests of the first groups. -/
def scanGroups {σ : Type*} (n : ℕ) (live : σ → Bool) (bit : ℕ → ℕ → ℕ → σ → σ)
    (segmentOffset : ℕ) : ℕ → ℕ → σ × ℕ → σ × ℕ
  | 0, _, s => s
  | levels+1, groupId, s =>
    if n ≥ kNumBitsPerGroup*(groupId+1) ∧ live s.1 = true then
      scanGroups n live bit segmentOffset levels (groupId+1) (iteration n bit groupId segmentOffset s)
    else s

/-- The body of the loop over the segments. -/
def scanSegment {σ : Type*} (n : ℕ) (live : σ → Bool) (bit : ℕ → ℕ → ℕ → σ → σ)
    (segmentOffset : ℕ) (s : σ) : σ :=
  let s := scanGroups n live bit segmentOffset 8 0 (s,0)
  if kNumBitsLastGroup n ≠ 0 ∧ live s.1 = true then
    (iteration n bit (kNumFullGroups n)
      (segmentOffset/kNumWordsPerSegment*kNumBitsLastGroup n) s).1
  else s.1

/-- One bit of `ScanIteration`, for the word of the block and the one it is compared with. -/
def scanBit (comparator : Comparator) (word other : WordUnit) (m : Masks 64) : Masks 64 :=
  match comparator with
  | .kEqual | .kInequal => {m with equal := m.equal &&& ~~~(word ^^^ other)}
  | .kLess | .kLessEqual => {m with
      less := m.less ||| (m.equal &&& ~~~word &&& other)
      equal := m.equal &&& ~~~(word ^^^ other)}
  | .kGreater | .kGreaterEqual => {m with
      greater := m.greater ||| (m.equal &&& word &&& ~~~other)
      equal := m.equal &&& ~~~(word ^^^ other)}

def scanMask (comparator : Comparator) (m : Masks 64) : WordUnit :=
  match comparator with
  | .kEqual => m.equal
  | .kInequal => ~~~m.equal
  | .kGreater => m.greater
  | .kLess => m.less
  | .kGreaterEqual => m.greater ||| m.equal
  | .kLessEqual => m.less ||| m.equal

end BwVColumnBlock

/-- The codes that a scan looks at, given the word of the bit vector. -/
def BitVectorOpt.lanes : BitVectorOpt → WordUnit → WordUnit
  | .kSet, _ => BitVec.allOnes 64
  | .kAnd, maskBitvector => maskBitvector
  | .kOr, maskBitvector => ~~~maskBitvector

namespace BwVColumnBlock

variable {n : ℕ}

/-- The loop over the segments, with the mask that a segment makes of the lanes. -/
def forSegments (b : BwVColumnBlock n) (opt : BitVectorOpt) (segment : ℕ → WordUnit → WordUnit)
    (bitvector : BitVectorBlock) : Option BitVectorBlock := do
  let bitvector ← (List.range ((b.numUsedWords+kNumWordsPerSegment-1)/kNumWordsPerSegment)).foldlM
    (fun bitvector i => do
      let segmentOffset := i*kNumWordsPerSegment
      let segmentId := segmentOffset/kNumWordsPerSegment
      let maskBitvector ← bitvector.getWordUnit segmentId
      bitvector.setWordUnit segmentId
        (opt.output (segment segmentOffset (opt.lanes maskBitvector)) maskBitvector)) bitvector
  some bitvector.finalize

/-- The bits of a literal, each in all lanes. -/
def literalBits (n literal bitId : ℕ) : WordUnit :=
  0#64-((BitVec.ofNat 64 literal >>> (n-1-bitId)) &&& 1#64)

/-- The mask for the codes of a segment. `other` is the word that is compared, in terms of
its group, its position and the pointer to the literal. -/
def segmentMask (b : BwVColumnBlock n) (comparator : Comparator) (other : ℕ → ℕ → ℕ → WordUnit)
    (segmentOffset : ℕ) (maskEqual : WordUnit) : WordUnit :=
  scanMask comparator (scanSegment n (fun m : Masks 64 => m.equal != 0#64)
    (fun groupId wordId ptr => scanBit comparator (b.data groupId wordId) (other groupId wordId ptr))
    segmentOffset (Masks.start maskEqual))

def scan (b : BwVColumnBlock n) (comparator : Comparator) (literal : ℕ)
    (bitvector : BitVectorBlock) (opt : BitVectorOpt) : Option (Status × BitVectorBlock) :=
  if bitvector.num ≠ b.num then
    some (.invalidArgument "Bit vector length does not match column length.",bitvector)
  else if literal ≥ 2^n then
    some (.invalidArgument "The code in predicate overflows.",bitvector)
  else
    (b.forSegments opt (b.segmentMask comparator fun _ _ ptr => literalBits n literal ptr)
      bitvector).map fun out => (.ok,out)

/-- The masks of `ScanIteration_between`. -/
@[ext] structure BetweenMasks where
  equal1 : WordUnit
  equal2 : WordUnit
  less : WordUnit
  greater : WordUnit

def betweenBit (word literal1 literal2 : WordUnit) (m : BetweenMasks) : BetweenMasks where
  less := m.less ||| (m.equal2 &&& ~~~word &&& literal2)
  greater := m.greater ||| (m.equal1 &&& word &&& ~~~literal1)
  equal1 := m.equal1 &&& ~~~(word ^^^ literal1)
  equal2 := m.equal2 &&& ~~~(word ^^^ literal2)

def betweenMask (b : BwVColumnBlock n) (literal1 literal2 segmentOffset : ℕ)
    (maskEqual : WordUnit) : WordUnit :=
  let m := scanSegment n (fun m : BetweenMasks => m.equal1 != 0#64 || m.equal2 != 0#64)
    (fun groupId wordId ptr => betweenBit (b.data groupId wordId) (literalBits n literal1 ptr)
      (literalBits n literal2 ptr)) segmentOffset ⟨maskEqual,maskEqual,0#64,0#64⟩
  (m.less ||| m.equal2) &&& (m.equal1 ||| m.greater)

def scanBetween (b : BwVColumnBlock n) (literal1 literal2 : ℕ) (bitvector : BitVectorBlock)
    (opt : BitVectorOpt) : Option (Status × BitVectorBlock) :=
  if bitvector.num ≠ b.num then
    some (.invalidArgument "Bit vector length does not match column length.",bitvector)
  else if literal1 ≥ 2^n then
    some (.invalidArgument "The code in predicate 1 overflows.",bitvector)
  else if literal2 ≥ 2^n then
    some (.invalidArgument "The code in predicate 2 overflows.",bitvector)
  else
    (b.forSegments opt (b.betweenMask literal1 literal2) bitvector).map fun out => (.ok,out)

/-- The scan against another block of the same type and code size. -/
def scanColumn (b : BwVColumnBlock n) (comparator : Comparator) (columnBlock : BwVColumnBlock n)
    (bitvector : BitVectorBlock) (opt : BitVectorOpt) : Option (Status × BitVectorBlock) :=
  if bitvector.num ≠ b.num then
    some (.invalidArgument "Bit vector length does not match column length.",bitvector)
  else if columnBlock.num ≠ b.num then
    some (.invalidArgument "Column length does not match.",bitvector)
  else
    (b.forSegments opt (b.segmentMask comparator fun groupId wordId _ =>
      columnBlock.data groupId wordId) bitvector).map fun out => (.ok,out)

end BwVColumnBlock
end ElfIndex.Bitweaving
