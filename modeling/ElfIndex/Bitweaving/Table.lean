import ElfIndex.Bitweaving.BlockTypes

/-! # Columns and tables

A column is a list of blocks and a table keeps its columns at one number of tuples. A bulk load
behind the end resizes all columns of the table first. `Resize` gives the last block the rest of
the tuples, which is none if the number is a multiple of the block size.
-/
namespace ElfIndex.Bitweaving

/-! ## Blocks of a column -/

def numColumnBlocks (num : ℕ) : ℕ := (num+kNumCodesPerBlock-1)/kNumCodesPerBlock

section Blocks

variable {n : ℕ}

/-- `CreateColumnBlock` of a new block; there are no packed blocks for more than 32 bits. -/
def createColumnBlock (n : ℕ) (type : ColumnType) (words : ℕ → WordUnit) : Option (ColumnBlock n) :=
  if n = 0 then none
  else if type ≠ .kNaive ∧ n > 32 then none
  else some (ColumnBlock.create n type words)

/-- `blocks[blockId]->Resize(num)` -/
def resizeBlock (blocks : List (ColumnBlock n)) (blockId num : ℕ) : Option (List (ColumnBlock n)) :=
  match blocks[blockId]? with
  | some b => (b.resize num).map (blocks.set blockId ·)
  | none => none

/-- The last block is filled up before others are added. -/
def fillLast (blocks : List (ColumnBlock n)) : Option (List (ColumnBlock n)) :=
  if blocks.length > 0 then resizeBlock blocks (blocks.length-1) kNumCodesPerBlock else some blocks

/-- The branches of `Column::Resize` that add and remove blocks; `words` is what the memory of new
naive blocks holds. -/
def fitBlocks (type : ColumnType) (words : ℕ → ℕ → WordUnit) (blocks : List (ColumnBlock n))
    (numBlocks : ℕ) : Option (List (ColumnBlock n)) :=
  let numExistBlocks := blocks.length
  if numBlocks > numExistBlocks then do
    let blocks ← fillLast blocks
    let added ← (List.range' numExistBlocks (numBlocks-numExistBlocks)).mapM fun blockId => do
      let columnBlock ← createColumnBlock n type (words blockId)
      columnBlock.resize kNumCodesPerBlock
    some (blocks ++ added)
  else some (blocks.take numBlocks)

/-- The last block gets the rest of the codes. -/
def resizeLast (blocks : List (ColumnBlock n)) (num : ℕ) : Option (List (ColumnBlock n)) :=
  if numColumnBlocks num > 0 then
    resizeBlock blocks (numColumnBlocks num-1) (num%kNumCodesPerBlock)
  else some blocks

/-- `Column::Resize` -/
def resizeBlocks (type : ColumnType) (words : ℕ → ℕ → WordUnit) (blocks : List (ColumnBlock n))
    (num : ℕ) : Option (List (ColumnBlock n)) := do
  let blocks ← fitBlocks type words blocks (numColumnBlocks num)
  resizeLast blocks num

/-- The loop of `Column::Bulkload` over the blocks from the first one it writes. The size of a
part is a difference of unsigned numbers. -/
def bulkloadBlocks : List (ColumnBlock n) → List ℕ → ℕ → Option (List (ColumnBlock n))
  | blocks, [], _ => some blocks
  | [], _, _ => none
  | b::blocks, codes, codeIdInBlock => do
    let size := min codes.length ((b.num+2^64-codeIdInBlock)%2^64)
    let b ← b.bulkload (codes.take size) codeIdInBlock
    let blocks ← bulkloadBlocks blocks (codes.drop size) 0
    some (b::blocks)

/-- The loop of the scans over the blocks of the bit vector, with the scan of a block. It ends at
the first block whose scan is refused. Behind the blocks of the column all codes are missing. -/
def scanBlocks {β : Type} (scan : β → BitVectorBlock → Option (Status × BitVectorBlock))
    (opt : BitVectorOpt) : List β → BitVector → Option (Status × BitVector)
  | _, [] => some (.ok,[])
  | [], block::bitvector => do
    let block := match opt with
      | .kSet | .kAnd => block.setZeros
      | .kOr => block
    let (status,bitvector) ← scanBlocks scan opt [] bitvector
    some (status,block::bitvector)
  | b::blocks, block::bitvector => do
    let (status,block) ← scan b block
    if status ≠ .ok then some (status,block::bitvector)
    else
      let (status,bitvector) ← scanBlocks scan opt blocks bitvector
      some (status,block::bitvector)

/-- The loop of the scan against another column over the blocks of this one; the number of the
first block comes first. -/
def scanColumnBlocks {n' : ℕ}
    (scan : ℕ → ColumnBlock n → ColumnBlock n' → BitVectorBlock → Option (Status × BitVectorBlock))
    (opt : BitVectorOpt) : ℕ → List (ColumnBlock n) → List (ColumnBlock n') → BitVector →
      Option (Status × BitVector)
  | _, [], _, bitvector => some (.ok,bitvector)
  | _, _::_, _::_, [] => none
  | blockId, _::blocks, [], [] => match opt with
    | .kSet | .kAnd => none
    | .kOr => scanColumnBlocks scan opt (blockId+1) blocks [] []
  | blockId, _::blocks, [], block::bitvector => do
    let block := match opt with
      | .kSet | .kAnd => block.setZeros
      | .kOr => block
    let (status,bitvector) ← scanColumnBlocks scan opt (blockId+1) blocks [] bitvector
    some (status,block::bitvector)
  | blockId, b::blocks, b'::blocks', block::bitvector => do
    let (status,block) ← scan blockId b b' block
    if status ≠ .ok then some (status,block::bitvector)
    else
      let (status,bitvector) ← scanColumnBlocks scan opt (blockId+1) blocks blocks' bitvector
      some (status,block::bitvector)

/-- The code at a position of a column. -/
def codeAt (blocks : List (ColumnBlock n)) (pos : ℕ) : ℕ :=
  match blocks[pos/kNumCodesPerBlock]? with
  | some b => b.code (pos%kNumCodesPerBlock)
  | none => 0

end Blocks

/-! ## Columns -/

structure ColumnRep where
  id : ℕ
  type : ColumnType
  codeSize : ℕ
  blocks : List (ColumnBlock codeSize)

namespace ColumnRep

def resize (c : ColumnRep) (words : ℕ → ℕ → WordUnit) (num : ℕ) : Option ColumnRep :=
  (resizeBlocks c.type words c.blocks num).map fun blocks => {c with blocks := blocks}

def getCode (c : ColumnRep) (pos : ℕ) : Option (Except String ℕ) :=
  (c.blocks[pos/kNumCodesPerBlock]?).map fun b => b.getCode (pos%kNumCodesPerBlock)

def setCode (c : ColumnRep) (pos code : ℕ) : Option (Status × ColumnRep) :=
  (c.blocks[pos/kNumCodesPerBlock]?).map fun b =>
    let r := b.setCode (pos%kNumCodesPerBlock) code
    (r.1,{c with blocks := c.blocks.set (pos/kNumCodesPerBlock) r.2})

def scan (c : ColumnRep) (literal : ℕ) (comparator : Comparator) (opt : BitVectorOpt)
    (bitvector : BitVector) : Option (Status × BitVector) :=
  scanBlocks (fun b block => b.scan comparator literal block opt) opt c.blocks bitvector

def scanBetween (c : ColumnRep) (literal1 literal2 : ℕ) (opt : BitVectorOpt)
    (bitvector : BitVector) : Option (Status × BitVector) :=
  scanBlocks (fun b block => b.scanBetween literal1 literal2 block opt) opt c.blocks bitvector

/-- The scan against another column. Behind the end of a block of that column the variable for
the code holds `stale`. -/
def scanColumn (c column : ColumnRep) (comparator : Comparator) (stale : ℕ → ℕ → ℕ)
    (opt : BitVectorOpt) (bitvector : BitVector) : Option (Status × BitVector) :=
  scanColumnBlocks (fun blockId b columnBlock block =>
    b.scanColumn comparator columnBlock (stale blockId) block opt) opt 0 c.blocks column.blocks
    bitvector

end ColumnRep

/-! ## Tables -/

/-- What the memory of new naive blocks holds, by the id of the column. -/
abbrev Memory := ℕ → ℕ → ℕ → WordUnit

/-- The columns in the order of their names. -/
structure TableRep where
  num : ℕ
  map : List (String × ColumnRep)
  freeColumnIds : List ℕ

namespace TableRep

/-- The constructor. -/
def create : TableRep := ⟨0,[],[]⟩

def getColumn (t : TableRep) (name : String) : Option ColumnRep :=
  (t.map.find? (·.1 == name)).map (·.2)

def getMaxColumnId (t : TableRep) : ℕ := t.map.length+t.freeColumnIds.length

/-- The column of a number, or none. -/
def getColumnOfId (t : TableRep) (columnId : ℕ) : Option ColumnRep :=
  if columnId < t.getMaxColumnId then (t.map.find? (·.2.id == columnId)).map (·.2) else none

def resize (t : TableRep) (words : Memory) (numTuples : ℕ) : Option TableRep :=
  if t.num ≠ numTuples then do
    let map ← t.map.mapM fun e => (e.2.resize (words e.2.id) numTuples).map fun c => (e.1,c)
    some {t with num := numTuples, map := map}
  else some t

/-- The place of a name among the others. -/
def insert (map : List (String × ColumnRep)) (name : String) (column : ColumnRep) :
    List (String × ColumnRep) :=
  map.takeWhile (·.1 < name) ++ (name,column) :: map.dropWhile (·.1 < name)

/-- The number of the new column is gone if the name exists. -/
def addColumn (t : TableRep) (words : Memory) (name : String) (type : ColumnType)
    (codeSize : ℕ) : Option (Status × TableRep) :=
  let columnId := t.freeColumnIds.headD t.map.length
  let t := {t with freeColumnIds := t.freeColumnIds.tail}
  if (t.getColumn name).isSome then
    some (.usageError "The column name exists in the table.",t)
  else do
    let column ← ColumnRep.resize ⟨columnId,type,codeSize,[]⟩ (words columnId) t.num
    some (.ok,{t with map := insert t.map name column})

def removeColumn (t : TableRep) (name : String) : Status × TableRep :=
  match t.getColumn name with
  | some column => (.ok,{t with
      map := t.map.filter (·.1 != name)
      freeColumnIds := t.freeColumnIds ++ [column.id]})
  | none => (.usageError "The column name doesn't exist.",t)

/-- A column with other blocks. -/
def setColumn (t : TableRep) (name : String) (column : ColumnRep) : TableRep :=
  {t with map := t.map.map fun e => if e.1 == name then (name,column) else e}

/-- `Column::Bulkload` for the column of a name. -/
def bulkload (t : TableRep) (words : Memory) (name : String) (codes : List ℕ) (pos : ℕ) :
    Option TableRep := do
  let column ← t.getColumn name
  if numColumnBlocks t.num ≠ column.blocks.length then none
  else
    let t ← (if pos+codes.length > t.num then t.resize words (pos+codes.length)
      else some t : Option TableRep)
    let column ← t.getColumn name
    let blockId := pos/kNumCodesPerBlock
    let rest ← bulkloadBlocks (column.blocks.drop blockId) codes (pos%kNumCodesPerBlock)
    some (t.setColumn name {column with blocks := column.blocks.take blockId ++ rest})

end TableRep

/-- The operations of a table and its columns. -/
inductive TableOp
  | addColumn (name : String) (type : ColumnType) (codeSize : ℕ)
  | removeColumn (name : String)
  | resize (numTuples : ℕ)
  | bulkload (name : String) (codes : List ℕ) (pos : ℕ)
  | setCode (name : String) (pos code : ℕ)

/-- One operation; the statuses are dropped. -/
def TableRep.step (t : TableRep) (words : Memory) : TableOp → Option TableRep
  | .addColumn name type codeSize => (t.addColumn words name type codeSize).map (·.2)
  | .removeColumn name => some (t.removeColumn name).2
  | .resize numTuples => t.resize words numTuples
  | .bulkload name codes pos => t.bulkload words name codes pos
  | .setCode name pos code => do
    let column ← t.getColumn name
    let r ← column.setCode pos code
    some (t.setColumn name r.2)

end ElfIndex.Bitweaving
