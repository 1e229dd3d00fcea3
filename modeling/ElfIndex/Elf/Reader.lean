import ElfIndex.Store
import ElfIndex.Lib.WordMemory

/-! # The readers of an Elf

The image is one array of 32-bit words. Pointers are double words, and bit 62 of a
pointer marks a mono list. The top bit of a value marks the last entry of a dimension
list. List walks and recursion share one step bound.
-/
namespace ElfIndex
open WordMemory

def lastEntryMask : ℕ := 2147483648
def recoverMask : ℕ := 2147483647
def lastEntryMask64 : ℕ := 4611686018427387904
def recoverMask64 : ℕ := 4611686018427387903

/-- The `uint64_t` value of the macro `NOT_FOUND`. -/
def notFound64 : ℕ := 2^64-1

/-- The members of `Elf_final64` that the queries read. -/
structure Elf where
  elf : Memory
  numDim : ℕ
  maxFirstDim : ℕ

namespace Elf

variable (e : Elf)

/-- The offsets of `for (offset = LOWER; offset <= UPPER; offset += 2)`. -/
def rootOffsets : ℕ → ℕ → ℕ → Option (List ℕ)
  | 0, _, _ => none
  | fuel+1, offset, upper =>
    if offset ≤ upper then (rootOffsets fuel ((offset+2)%2^32) upper).map (offset :: ·)
    else some []

/-! ## Partial match -/

def partialMatchMonoList (q : Query) (dimension start : ℕ) (results : List ℕ) : List ℕ :=
  if (List.range (e.numDim-dimension)).all fun i =>
      if q.columnsForSelect (dimension+i) then
        isIn (q.lowerBound (dimension+i)) (q.upperBound (dimension+i)) (e.elf (start+i))
      else true
  then results ++ [e.elf (start+(e.numDim-dimension)) &&& recoverMask]
  else results

/-- The two branches on a pointer found in dimension `dimension`. -/
def followPointer (rec : ℕ → ℕ → List ℕ → Option (List ℕ)) (q : Query)
    (dimension pointer : ℕ) (results : List ℕ) : Option (List ℕ) :=
  if pointer < lastEntryMask64 then rec (dimension+1) pointer results
  else some (e.partialMatchMonoList q (dimension+1) (pointer &&& recoverMask64) results)

/-- The recursive `partialMatch(DIMENSION, START_LIST, ..)`, at one list position. -/
def partialMatchList (q : Query) : ℕ → ℕ → ℕ → List ℕ → Option (List ℕ)
  | 0, _, _, _ => none
  | fuel+1, dimension, position, results =>
    let toCompare := e.elf position
    let pointer := get64 e.elf (position+1)
    if q.columnsForSelect dimension then
      if toCompare < lastEntryMask then
        if isIn (q.lowerBound dimension) (q.upperBound dimension) toCompare then do
          let results ← e.followPointer (partialMatchList q fuel) q dimension pointer results
          partialMatchList q fuel dimension (position+3) results
        else if q.upperBound dimension < toCompare then some results
        else partialMatchList q fuel dimension (position+3) results
      else
        let toCompare := toCompare &&& recoverMask
        if isIn (q.lowerBound dimension) (q.upperBound dimension) toCompare then
          e.followPointer (partialMatchList q fuel) q dimension pointer results
        else some results
    else
      if toCompare < lastEntryMask then do
        let results ← e.followPointer (partialMatchList q fuel) q dimension pointer results
        partialMatchList q fuel dimension (position+3) results
      else e.followPointer (partialMatchList q fuel) q dimension pointer results

/-- The first root offset, in 32-bit arithmetic. -/
def rootLower (q : Query) : ℕ :=
  if q.columnsForSelect 0 then q.lowerBound 0*2%2^32 else 0

/-- The last root offset, in 32-bit arithmetic. -/
def rootUpper (q : Query) : ℕ :=
  if q.columnsForSelect 0 then q.upperBound 0*2%2^32 else e.maxFirstDim*2%2^32

def partialMatch (q : Query) (fuel : ℕ) : Option (List ℕ) := do
  let offsets ← rootOffsets fuel (rootLower q) (e.rootUpper q)
  offsets.foldlM (fun results offset =>
    e.followPointer (e.partialMatchList q fuel) q 0 (get64 e.elf offset) results) []

/-! ## Window query -/

def evluateWindowOnMonoList (lowerBound upperBound : ℕ → ℕ) (dimension start : ℕ)
    (results : List ℕ) : List ℕ :=
  if (List.range (e.numDim-dimension)).all fun i =>
      isIn (lowerBound (dimension+i)) (upperBound (dimension+i)) (e.elf (start+i))
  then results ++ [e.elf (start+(e.numDim-dimension)) &&& recoverMask]
  else results

def evluateWindowPointer (rec : ℕ → ℕ → List ℕ → Option (List ℕ)) (lowerBound upperBound : ℕ → ℕ)
    (dimension pointer : ℕ) (results : List ℕ) : Option (List ℕ) :=
  if pointer < lastEntryMask64 then rec (dimension+1) pointer results
  else some (e.evluateWindowOnMonoList lowerBound upperBound (dimension+1)
    (pointer &&& recoverMask64) results)

def evluateWindowOnList (lowerBound upperBound : ℕ → ℕ) :
    ℕ → ℕ → ℕ → List ℕ → Option (List ℕ)
  | 0, _, _, _ => none
  | fuel+1, dimension, position, results =>
    let rec' := evluateWindowOnList lowerBound upperBound fuel
    let toCompare := e.elf position
    let pointer := get64 e.elf (position+1)
    if toCompare < lastEntryMask then
      if isIn (lowerBound dimension) (upperBound dimension) toCompare then do
        let results ← e.evluateWindowPointer rec' lowerBound upperBound dimension pointer results
        rec' dimension (position+3) results
      else if upperBound dimension < toCompare then some results
      else rec' dimension (position+3) results
    else
      let toCompare := toCompare &&& recoverMask
      if isIn (lowerBound dimension) (upperBound dimension) toCompare then
        e.evluateWindowPointer rec' lowerBound upperBound dimension pointer results
      else some results

def windowQuery (lowerBound upperBound : ℕ → ℕ) (fuel : ℕ) : Option (List ℕ) := do
  let offsets ← rootOffsets fuel (lowerBound 0*2%2^32) (upperBound 0*2%2^32)
  offsets.foldlM (fun results offset =>
    e.evluateWindowPointer (e.evluateWindowOnList lowerBound upperBound fuel) lowerBound upperBound
      0 (get64 e.elf offset) results) []

/-! ## Exact match -/

def listContains (value : ℕ) : ℕ → ℕ → Option ℕ
  | 0, _ => none
  | fuel+1, position =>
    let toCompare := e.elf position
    if toCompare < lastEntryMask then
      if value = toCompare then some (get64 e.elf (position+1))
      else if value < toCompare then some notFound64
      else listContains value fuel (position+3)
    else
      let toCompare := toCompare &&& recoverMask
      some (if value = toCompare then get64 e.elf (position+1) else notFound64)

/-- The loop of `exactMatch` down to a mono list, a miss included. -/
def exactMatchLists (query : ℕ → ℕ) : ℕ → ℕ → ℕ → Option (ℕ × ℕ)
  | 0, _, _ => none
  | fuel+1, dim, pointer =>
    if pointer < lastEntryMask64 then do
      let pointer ← e.listContains (query dim) fuel pointer
      exactMatchLists query fuel (dim+1) pointer
    else some (dim,pointer)

def exactMatchMonoList (query : ℕ → ℕ) (dim pointer : ℕ) : ℕ :=
  if (List.range (e.numDim-dim)).all fun i => query (dim+i) == e.elf (pointer+i)
  then e.elf (pointer+(e.numDim-dim)) &&& recoverMask
  else notFound

/-- The root slot that `exactMatch` reads, in 32-bit arithmetic. -/
def exactMatchOffset (query : ℕ → ℕ) : ℕ := query 0*2%2^32

def exactMatch (query : ℕ → ℕ) (fuel : ℕ) : Option ℕ := do
  let (dim,pointer) ← e.exactMatchLists query fuel 1 (get64 e.elf (exactMatchOffset query))
  some (if pointer = notFound64 then notFound
    else e.exactMatchMonoList query dim (pointer &&& recoverMask64))

end Elf
end ElfIndex
