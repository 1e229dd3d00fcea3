import ElfIndex.SortingEngine.Insertion

/-! # The in-place radix sort

One pass counts the digits, permutes the slots into their bins by chains of swaps
and recurses into the bins. A read behind one of the three bin tables yields the
parameter `pastEnd`: `none` stops the run there, and `some w` is an arbitrary word
of the stack.
-/
namespace ElfIndex.SortingEngine

def numberOfBins : ℕ := 256
def log2OfNumberOfBins : ℕ := 8
def introsortSwitch : ℕ := 100

/-- A bin table: only the indices below `numberOfBins` are allocated. -/
abbrev Bins := ℕ → ℕ

def readBin (pastEnd : Option ℕ) (bins : Bins) (i : ℕ) : Option ℕ :=
  if i < numberOfBins then some (bins i) else pastEnd

def incBin (bins : Bins) (i : ℕ) : Option Bins :=
  if i < numberOfBins then some (Function.update bins i (bins i+1)) else none

def digitOf (dim mask shifter : ℕ) (t : TID) : ℕ := (t.key dim &&& mask) >>> shifter

def countDigits (dim mask shifter : ℕ) (data : List TID) : Option Bins :=
  data.foldlM (fun count t => incBin count (digitOf dim mask shifter t)) (fun _ => 0)

def startOfBin (count : Bins) : Bins
  | 0 => 0
  | i+1 => startOfBin count i+count i

/-- `_swap(a, b, save, dim, size)`. -/
def swap (dim size : ℕ) (a b : TID) : TID × TID :=
  (a.store dim size (b.load dim size),b.store dim size (a.load dim size))

/-- The chain of swaps that starts at slot `current`. The local copy of the slot has
its own identifier, but its value pointer is the row buffer of the slot itself. -/
def permuteCycle (dim size mask shifter current : ℕ) :
    ℕ → List TID → Bins → ℕ → Option (List TID × Bins × ℕ × ℕ)
  | 0, _, _, _ => none
  | fuel+1, data, endOfBin, tid => do
    let slot ← data[current]?
    let a : TID := ⟨tid,slot.value⟩
    let digit := digitOf dim mask shifter a
    let e ← readBin none endOfBin digit
    if e = current then some (data,endOfBin,tid,digit)
    else
      let b ← data[e]?
      let swapped := swap dim size a b
      let endOfBin ← incBin endOfBin digit
      permuteCycle dim size mask shifter current fuel
        ((data.set current ⟨slot.tid,swapped.1.value⟩).set e swapped.2) endOfBin swapped.1.tid

/-- `while (_current >= startOfBin[nextBin] && nextBin < NumberOfBins) nextBin++;` -/
def advanceStart (pastEnd : Option ℕ) (start : Bins) (current : ℕ) : ℕ → ℕ → Option ℕ
  | 0, _ => none
  | fuel+1, nextBin => do
    let s ← readBin pastEnd start nextBin
    if current ≥ s ∧ nextBin < numberOfBins then
      advanceStart pastEnd start current fuel (nextBin+1)
    else some nextBin

/-- `nextBin - 1` in unsigned arithmetic. -/
def predBin (nextBin : ℕ) : ℕ := (nextBin+(2^64-1))%2^64

/-- `while (endOfBin[nextBin - 1] == startOfBin[nextBin] && nextBin < NumberOfBins) nextBin++;` -/
def advanceFull (pastEnd : Option ℕ) (start endOfBin : Bins) : ℕ → ℕ → Option ℕ
  | 0, _ => none
  | fuel+1, nextBin => do
    let e ← readBin none endOfBin (predBin nextBin)
    let s ← readBin pastEnd start nextBin
    if e = s ∧ nextBin < numberOfBins then
      advanceFull pastEnd start endOfBin fuel (nextBin+1)
    else some nextBin

/-- The loop that moves the slots `0..last` into their bins. -/
def permute (pastEnd : Option ℕ) (dim size mask shifter last : ℕ) (start : Bins) :
    ℕ → List TID → Bins → ℕ → ℕ → Option (List TID × Bins)
  | 0, _, _, _, _ => none
  | fuel+1, data, endOfBin, current, nextBin =>
    if current ≤ last then do
      let slot ← data[current]?
      let (data,endOfBin,tid,digit) ←
        permuteCycle dim size mask shifter current (last+2) data endOfBin slot.tid
      let slot ← data[current]?
      let data := data.set current ⟨tid,slot.value⟩
      let endOfBin ← incBin endOfBin digit
      let current := current+1
      let nextBin ← advanceStart pastEnd start current (numberOfBins+1) nextBin
      let nextBin ← advanceFull pastEnd start endOfBin (numberOfBins+1) nextBin
      let e ← readBin none endOfBin (predBin nextBin)
      permute pastEnd dim size mask shifter last start fuel data endOfBin
        (if current < e then e else current) nextBin
    else some (data,endOfBin)

/-- The recursion for each bin hands the sub-array of the bin to the callee. -/
def sortBin (rec : List TID → Option (List TID)) (dim size : ℕ) (start endOfBin : Bins)
    (data : List TID) (i : ℕ) : Option (List TID) :=
  let numberOfElements := endOfBin i-start i
  let bin := (data.drop (start i)).take numberOfElements
  let back (sorted : List TID) : List TID :=
    data.take (start i) ++ sorted ++ data.drop (start i+numberOfElements)
  if numberOfElements ≥ introsortSwitch then (rec bin).map back
  else if numberOfElements ≥ 2 then (introsort dim size numberOfElements bin).map back
  else some data

def radixSort (pastEnd : Option ℕ) (dim size : ℕ) : ℕ → ℕ → ℕ → List TID → Option (List TID)
  | 0, _, _, _ => none
  | fuel+1, mask, shifter, data => do
    let count ← countDigits dim mask shifter data
    let start := startOfBin count
    let (data,endOfBin) ← permute pastEnd dim size mask shifter (data.length-1) start
      (data.length+1) data start 0 0
    let mask := mask >>> log2OfNumberOfBins
    if mask ≠ 0 then
      let shifter := if shifter ≥ log2OfNumberOfBins then shifter-log2OfNumberOfBins else 0
      (List.range numberOfBins).foldlM
        (sortBin (radixSort pastEnd dim size fuel mask shifter) dim size start endOfBin) data
    else some data

/-- `while (limit >>= 1) r++;` on a 64-bit word. -/
def countBits : ℕ → ℕ → ℕ → ℕ
  | 0, _, r => r
  | fuel+1, limit, r => if limit >>> 1 ≠ 0 then countBits fuel (limit >>> 1) (r+1) else r

/-- The start shift of `SMART_SHIFTER`. -/
def smartShifter (limit : ℕ) : ℕ :=
  countBits 64 limit 1/log2OfNumberOfBins*log2OfNumberOfBins

/-- `sort(data_array, dim, value_ranges, size)`. A 32-bit mask is shifted out after
four passes, and a shift of a 32-bit word by 32 or more is undefined. -/
def sort (pastEnd : Option ℕ) (dim size : ℕ) (valueRanges : ℕ → ℕ) (data : List TID) :
    Option (List TID) :=
  if data.length < 2 then some data
  else if data.length ≥ introsortSwitch then
    let shifter := smartShifter (valueRanges dim)
    if shifter < 32 then
      radixSort pastEnd dim size 4 ((numberOfBins-1) <<< shifter%2^32) shifter data
    else none
  else introsort dim size data.length data

end ElfIndex.SortingEngine
