import ElfIndex.Bitweaving.ColumnBlock

/-! # Blocks of a BitWeaving/H column

A word stores as many codes as fit with one spare bit each. The codes of a segment go through
its words from the first to the last and then through the next place in each of them, so that
the answers in the spare bits, shifted by the number of their word, are the answers of the
segment in order. A scan compares all codes of a word by one addition and appends the answers
of the segments to a stream of words.
-/
namespace ElfIndex.Bitweaving
open Bitmap

structure BwHColumnBlock (codeSize : ℕ) where
  num : ℕ
  numUsedWords : ℕ
  data : ℕ → WordUnit

namespace BwHColumnBlock

variable {n : ℕ}

def kNumBitsPerCode (n : ℕ) : ℕ := n+1

def kNumWordsPerSegment (n : ℕ) : ℕ := n+1

def kNumCodesPerWord (n : ℕ) : ℕ := kNumBitsPerWord/kNumBitsPerCode n

def kNumEmptyBits (n : ℕ) : ℕ := kNumBitsPerWord-kNumCodesPerWord n*kNumBitsPerCode n

def kNumCodesPerSegment (n : ℕ) : ℕ := kNumWordsPerSegment n*kNumCodesPerWord n

def kNumWordsPerWordGroup : ℕ := 7

def kNumWordGroups (n : ℕ) : ℕ := kNumWordsPerSegment n/kNumWordsPerWordGroup

def kNumUngroupedWords (n : ℕ) : ℕ := kNumWordsPerSegment n-kNumWordsPerWordGroup*kNumWordGroups n

/-- The constructor. -/
def create (n : ℕ) : BwHColumnBlock n := ⟨0,0,fun _ => 0#64⟩

def resize (b : BwHColumnBlock n) (num : ℕ) : Option (BwHColumnBlock n) :=
  if num ≤ kNumCodesPerBlock then
    some {b with
      num := num
      numUsedWords := (num+kNumCodesPerSegment n-1)/kNumCodesPerSegment n*kNumWordsPerSegment n}
  else none

/-- The word of a code. -/
def wordId (n pos : ℕ) : ℕ :=
  pos/kNumCodesPerSegment n*kNumWordsPerSegment n+
    pos%kNumCodesPerSegment n%kNumWordsPerSegment n

/-- The lowest bit of a code in its word. -/
def shift (n pos : ℕ) : ℕ :=
  (kNumCodesPerWord n-1-pos%kNumCodesPerSegment n/kNumWordsPerSegment n)*kNumBitsPerCode n

def getCode (b : BwHColumnBlock n) (pos : ℕ) : Except String ℕ :=
  if pos ≥ b.num then .error "GetCode: position overflow"
  else
    let mask := (1#64 <<< n)-1#64
    .ok (((b.data (wordId n pos) >>> shift n pos) &&& mask).setWidth 32).toNat

/-- The bits of the code are added to what the word holds. -/
def setCode (b : BwHColumnBlock n) (pos code : ℕ) : Status × BwHColumnBlock n :=
  if pos ≥ b.num then (.invalidArgument "GetCode: position overflow",b)
  else
    let word := b.data (wordId n pos) ||| (BitVec.ofNat 64 code <<< shift n pos)
    (.ok,{b with data := Function.update b.data (wordId n pos) word})

/-- The loop that copies the codes; the statuses are dropped. -/
def bulkload (b : BwHColumnBlock n) (codes : List ℕ) (startTupleId : ℕ) :
    Option (BwHColumnBlock n) :=
  if startTupleId+codes.length ≤ b.num then
    some (codes.zipIdx.foldl (fun b c => (b.setCode (startTupleId+c.2) c.1).2) b)
  else none

/-! ## Words of answers -/

/-- `0^k 1 0^k 1 .. 0^k 1` -/
def baseMask (n : ℕ) : WordUnit :=
  (List.range (kNumCodesPerWord n)).foldl (fun mask _ => (mask <<< kNumBitsPerCode n) ||| 1#64) 0#64

/-- `0 1^k 0 1^k .. 0 1^k` -/
def complementMask (n : ℕ) : WordUnit := baseMask n*((1#64 <<< n)-1#64)

/-- `1 0^k 1 0^k .. 1 0^k` -/
def resultMask (n : ℕ) : WordUnit := baseMask n <<< n

/-- The answers for a word of codes and a literal. -/
def literalWord (n : ℕ) (comparator : Comparator) (literal : ℕ) (data : WordUnit) : WordUnit :=
  let lessThanMask := baseMask n*BitVec.ofNat 64 literal
  let greaterThanMask := (baseMask n*BitVec.ofNat 64 literal) ^^^ complementMask n
  let equalMask := baseMask n*((~~~BitVec.ofNat 32 literal).setWidth 64 &&&
    (BitVec.allOnes 64 >>> (kNumBitsPerWord-n)))
  let inequalMask := baseMask n*BitVec.ofNat 64 literal
  match comparator with
  | .kEqual => ((data ^^^ equalMask)+baseMask n) &&& resultMask n
  | .kInequal => ((data ^^^ inequalMask)+complementMask n) &&& resultMask n
  | .kGreater => (data+greaterThanMask) &&& resultMask n
  | .kLess => (lessThanMask+(data ^^^ complementMask n)) &&& resultMask n
  | .kGreaterEqual => ~~~(lessThanMask+(data ^^^ complementMask n)) &&& resultMask n
  | .kLessEqual => ~~~(data+greaterThanMask) &&& resultMask n

def betweenWord (n literal1 literal2 : ℕ) (data : WordUnit) : WordUnit :=
  let lessThanMask := baseMask n*BitVec.ofNat 64 literal1
  let greaterThanMask := (baseMask n*BitVec.ofNat 64 literal2) ^^^ complementMask n
  ~~~(lessThanMask+(data ^^^ complementMask n)) &&& resultMask n &&& ~~~(data+greaterThanMask)

/-- The answers for the words of two columns. -/
def columnWord (n : ℕ) (comparator : Comparator) (other data : WordUnit) : WordUnit :=
  match comparator with
  | .kEqual => ~~~((data ^^^ other)+complementMask n) &&& resultMask n
  | .kInequal => ((data ^^^ other)+complementMask n) &&& resultMask n
  | .kGreater => (data+(other ^^^ complementMask n)) &&& resultMask n
  | .kLess => (other+(data ^^^ complementMask n)) &&& resultMask n
  | .kGreaterEqual => ~~~(other+(data ^^^ complementMask n)) &&& resultMask n
  | .kLessEqual => ~~~(data+(other ^^^ complementMask n)) &&& resultMask n

/-! ## Scans -/

/-- The loops over the words of a segment: word groups, then the rest, with one counter. -/
def segmentBitvector (n : ℕ) (word : ℕ → WordUnit) (segmentOffset : ℕ) : WordUnit :=
  let step := fun s : WordUnit × ℕ => (s.1 ||| (word (segmentOffset+s.2) >>> s.2),s.2+1)
  let s := (List.range (kNumWordGroups n)).foldl (fun s _ =>
    (List.range kNumWordsPerWordGroup).foldl (fun s _ => step s) s) (0#64,0)
  ((List.range (kNumUngroupedWords n)).foldl (fun s _ => step s) s).1

/-- The bit vector and the word that is filled, with `outputOffset` bits in it. -/
structure Output where
  bitvector : BitVectorBlock
  outputBitvector : WordUnit
  outputOffset : ℕ
  outputWordId : ℕ

/-- The answers of one segment. A shift by the whole width, which the language leaves open, is
taken modulo the width; what it gives is masked. -/
def outputSegment (n : ℕ) (opt : BitVectorOpt) (segment : WordUnit) (s : Output) : Option Output :=
  let outputBitvector := s.outputBitvector ||| ((segment <<< kNumEmptyBits n) >>> s.outputOffset)
  let outputOffset := s.outputOffset+kNumCodesPerSegment n
  if outputOffset ≥ kNumBitsPerWord then do
    let bitvector ← s.bitvector.store opt s.outputWordId outputBitvector
    let outputOffset := outputOffset-kNumBitsPerWord
    let outputShift := kNumBitsPerWord-outputOffset
    let outputBitvector := (segment <<< (outputShift%kNumBitsPerWord)) &&&
      (0#64-if outputShift ≠ kNumBitsPerWord then 1#64 else 0#64)
    some ⟨bitvector,outputBitvector,outputOffset,s.outputWordId+1⟩
  else some ⟨s.bitvector,outputBitvector,outputOffset,s.outputWordId⟩

/-- The last word, if codes of the block are in it. -/
def storeLast (b : BwHColumnBlock n) (opt : BitVectorOpt) (s : Output) : Option BitVectorBlock :=
  let outputOffset : ℤ := s.outputOffset-((b.numUsedWords*kNumCodesPerWord n : ℕ)-b.num)
  if outputOffset > 0 then s.bitvector.store opt s.outputWordId s.outputBitvector
  else some s.bitvector

/-- The loop over the segments of `usedWords`, the last word and the cut. -/
def scanWords (b : BwHColumnBlock n) (opt : BitVectorOpt) (word : ℕ → WordUnit) (usedWords : ℕ)
    (bitvector : BitVectorBlock) : Option BitVectorBlock := do
  let s ← (List.range ((usedWords+kNumWordsPerSegment n-1)/kNumWordsPerSegment n)).foldlM
    (fun s i => outputSegment n opt (segmentBitvector n word (i*kNumWordsPerSegment n)) s)
    ⟨bitvector,0#64,0,0⟩
  let bitvector ← b.storeLast opt s
  some bitvector.finalize

def scan (b : BwHColumnBlock n) (comparator : Comparator) (literal : ℕ)
    (bitvector : BitVectorBlock) (opt : BitVectorOpt) : Option (Status × BitVectorBlock) :=
  if bitvector.num ≠ b.num then
    some (.invalidArgument "Bit vector length does not match column length.",bitvector)
  else if literal ≥ 2^n then
    some (.invalidArgument "The code in predicate overflows.",bitvector)
  else
    (b.scanWords opt (fun id => literalWord n comparator literal (b.data id)) b.numUsedWords
      bitvector).map fun out => (.ok,out)

def scanBetween (b : BwHColumnBlock n) (literal1 literal2 : ℕ) (bitvector : BitVectorBlock)
    (opt : BitVectorOpt) : Option (Status × BitVectorBlock) :=
  if bitvector.num ≠ b.num then
    some (.invalidArgument "Bit vector length does not match column length.",bitvector)
  else if literal1 ≥ 2^n then
    some (.invalidArgument "The code in predicate 1 overflows.",bitvector)
  else if literal2 ≥ 2^n then
    some (.invalidArgument "The code in predicate 2 overflows.",bitvector)
  else
    (b.scanWords opt (fun id => betweenWord n literal1 literal2 (b.data id)) b.numUsedWords
      bitvector).map fun out => (.ok,out)

/-- The scan against another block of the same type and code size. -/
def scanColumn (b : BwHColumnBlock n) (comparator : Comparator) (columnBlock : BwHColumnBlock n)
    (bitvector : BitVectorBlock) (opt : BitVectorOpt) : Option (Status × BitVectorBlock) :=
  if bitvector.num ≠ b.num then
    some (.invalidArgument "Bit vector length does not match column length.",bitvector)
  else if columnBlock.num ≠ b.num then
    some (.invalidArgument "Column length does not match.",bitvector)
  else
    (b.scanWords opt (fun id => columnWord n comparator (columnBlock.data id) (b.data id))
      (min b.numUsedWords columnBlock.numUsedWords) bitvector).map fun out => (.ok,out)

end BwHColumnBlock
end ElfIndex.Bitweaving
