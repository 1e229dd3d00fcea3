import ElfIndex.Elf.Reader
import ElfIndex.SortingEngine.Radix

/-! # The sorting builder

Lists are written depth first behind a 64-bit write pointer, and the pointers of a
dimension list are filled in when the sub-lists are written. A step that reads a slot,
a row or a word that does not exist yields `none`.
-/
namespace ElfIndex
open WordMemory SortingEngine

/-- What the builder reads besides its slots. The word behind `startOfBin` is only read
by the sorting engine. -/
structure Builder where
  store : Store
  maxDims : ℕ → ℕ
  pastEnd : Option ℕ

/-- One entry of `nextListPositions`, `dimlist.begin` and `dimlist.length`. -/
structure ListEntry where
  nextListPosition : ℕ
  begin : ℕ
  length : ℕ

/-- The variables of the loop that writes the values of a dimension list. -/
structure ListScan where
  elf : Memory
  writePointer : ℕ
  begin : ℕ
  cur : ℕ
  lists : List ListEntry

/-- Write `cur` and leave room for its pointer. -/
def ListScan.close (st : ListScan) (i : ℕ) : ListScan :=
  {st with
    elf := write st.elf st.writePointer st.cur
    writePointer := st.writePointer+3
    lists := st.lists ++ [⟨st.writePointer+1,st.begin,i-st.begin⟩]}

/-- `ELF[position] |= LAST_ENTRY_MASK` -/
def flagWord (elf : Memory) (position : ℕ) : Memory :=
  write elf position (elf position ||| lastEntryMask)

/-- The loop over `data_array[i..]` with the step behind it. -/
def scanLists (dim : ℕ) : List TID → ℕ → ListScan → ListScan
  | [], i, st =>
    let st := st.close i
    {st with elf := flagWord st.elf (st.writePointer-3)}
  | t :: ts, i, st =>
    if st.cur ≠ t.key dim then
      scanLists dim ts (i+1) {st.close i with begin := i, cur := t.key dim}
    else scanLists dim ts (i+1) st

/-- `for (j = 0; j < freqListSize; j++)` -/
def forLists (body : ListEntry → Memory → ℕ → Option (Memory × ℕ)) :
    List ListEntry → Memory → ℕ → Option (Memory × ℕ)
  | [], elf, writePointer => some (elf,writePointer)
  | l :: ls, elf, writePointer => do
    let (elf,writePointer) ← body l elf writePointer
    forLists body ls elf writePointer

namespace Builder

variable (b : Builder)

def linearizeElfMono (elf : Memory) (writePointer tid dimension : ℕ) : Option (Memory × ℕ) := do
  let point ← b.store.getPoint tid
  let elf := writeAll elf writePointer ((point.drop dimension).take (b.store.numDim-dimension))
  let writePointer := writePointer+(b.store.numDim-dimension)
  some (write elf writePointer tid,writePointer+1)

/-- One list of a dimension before the last one. -/
def writeList (create : List TID → Memory → ℕ → Option (Memory × ℕ)) (dim : ℕ)
    (data : List TID) (l : ListEntry) (elf : Memory) (writePointer : ℕ) :
    Option (Memory × ℕ) := do
  let temp := (data.drop l.begin).take l.length
  if l.length > 1 then create temp (set64 elf l.nextListPosition writePointer) writePointer
  else
    let elf := set64 elf l.nextListPosition (writePointer ||| lastEntryMask64)
    let first ← temp[0]?
    let (elf,writePointer) ← b.linearizeElfMono elf writePointer first.tid (dim+1)
    some (flagWord elf (writePointer-1),writePointer)

/-- The loop over the points of one list of the last dimension. -/
def writePoints (dim position : ℕ) : List TID → Memory → ℕ → Option (Memory × ℕ)
  | [], elf, writePointer => some (elf,writePointer)
  | t :: ts, elf, writePointer => do
    let elf := set64 elf position (writePointer ||| lastEntryMask64)
    let (elf,writePointer) ← b.linearizeElfMono elf writePointer t.tid (dim+1)
    writePoints dim position ts elf writePointer

/-- One list of the last dimension. -/
def writeLastList (dim : ℕ) (data : List TID) (l : ListEntry) (elf : Memory)
    (writePointer : ℕ) : Option (Memory × ℕ) := do
  let points := (data.drop l.begin).take l.length
  let (elf,writePointer) ← b.writePoints dim l.nextListPosition points elf writePointer
  some (flagWord elf (writePointer-1),writePointer)

def createDimListSorting (data : List TID) (dim : ℕ) (elf : Memory) (writePointer : ℕ) :
    Option (Memory × ℕ) := do
  let data ← sort b.pastEnd dim b.store.numDim b.maxDims data
  let first ← data[0]?
  let st := scanLists dim (data.drop 1) 1 ⟨elf,writePointer,0,first.key dim,[]⟩
  if dim+1 < b.store.numDim then
    forLists (b.writeList
      (fun temp elf writePointer => createDimListSorting temp (dim+1) elf writePointer) dim data)
      st.lists st.elf st.writePointer
  else forLists (b.writeLastList dim data) st.lists st.elf st.writePointer
termination_by b.store.numDim-dim

/-! ## The root directory -/

/-- The slots in the order of the store. -/
def dataArray : List TID :=
  (List.range b.store.numPoints).map fun i => ⟨i,b.store.store.getD i []⟩

/-- The list of one root slot. A list of one point takes the tuple identifier at index
`first` of its slots, which are not bounded by `size`. -/
def writeRoot (data : List TID) (begin size first : ℕ) (elf : Memory) (pos writePointer : ℕ) :
    Option (Memory × ℕ) := do
  let temp := (data.drop begin).take size
  if size > 1 then
    b.createDimListSorting temp 1 (set64 elf (pos*2) writePointer) writePointer
  else
    let slot ← data[begin+first]?
    b.linearizeElfMono (set64 elf (pos*2) (writePointer ||| lastEntryMask64)) writePointer slot.tid 1

/-- The loop over `data_array[i..]` with the step behind it, which reads the single
point of the last list as `temp.ary[begin]`. -/
def scanRoot (data : List TID) : List TID → (i begin cur pos : ℕ) → Memory → ℕ →
    Option (Memory × ℕ)
  | [], i, begin, _, pos, elf, writePointer =>
    b.writeRoot data begin (i-begin) begin elf pos writePointer
  | t :: ts, i, begin, cur, pos, elf, writePointer =>
    if cur ≠ t.key 0 then do
      let (elf,writePointer) ← b.writeRoot data begin (i-begin) 0 elf pos writePointer
      scanRoot data ts (i+1) i (t.key 0) (pos+1) elf writePointer
    else scanRoot data ts (i+1) begin cur pos elf writePointer

/-- `buildFromDataSorting` on an array with any contents. -/
def buildFromDataSorting (elf : Memory) : Option (Elf × ℕ) := do
  let data ← sort b.pastEnd 0 b.store.numDim b.maxDims b.dataArray
  let last ← data[b.store.numPoints-1]?
  let first ← data[0]?
  let maxFirstDim := last.key 0
  let (elf,writePointer) ← b.scanRoot data (data.drop 1) 1 0 (first.key 0) 0 elf
    ((maxFirstDim+1)*2%2^32)
  some (⟨elf,b.store.numDim,maxFirstDim⟩,writePointer)

end Builder
end ElfIndex
