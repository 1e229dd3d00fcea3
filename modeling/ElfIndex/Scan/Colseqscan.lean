import ElfIndex.Imprint.Kernels
import ElfIndex.Imprint.Lines
import ElfIndex.Lib.Buffer

/-! # The column scan

The scan tests 16 tuples at a time, also behind the last tuple, and the columns and the
bitmap are allocated a little longer than the table. Here every access is checked against
the allocation, so an answer also says that no access was outside.
-/
namespace ElfIndex
open WordMemory Bitmap

/-! ## Kernels on allocated arrays -/

namespace Checked

/-- One byte of `checkTids_AND`, one column word after the other. -/
def checkByte (col : Buffer ℕ) (begin lower upper : ℕ) : Option (BitVec 8) :=
  (List.range 8).foldlM (fun toadd j => do
    let value ← col.get (begin+j)
    some (if isIn lower upper value then toadd ||| (1#8 <<< j) else toadd)) 0#8

def checkTidsAnd (col : Buffer ℕ) (begin : ℕ) (res : Buffer (BitVec 8)) (lower upper : ℕ) :
    Option (Buffer (BitVec 8)) := do
  let offset := begin/8
  let toadd ← checkByte col begin lower upper
  let old ← res.get offset
  let res ← res.set offset (old &&& toadd)
  let toadd ← checkByte col (begin+8) lower upper
  let old ← res.get (offset+1)
  res.set (offset+1) (old &&& toadd)

def memset (res : Buffer (BitVec 8)) (value : BitVec 8) (bytes : ℕ) :
    Option (Buffer (BitVec 8)) :=
  if bytes ≤ res.size then some {res with cell := Bitmap.memset res.cell value bytes} else none

/-- The remaining byte is read again for each of its bits. -/
def returnTids (res : Buffer (BitVec 8)) (maxSize : ℕ) : Option (List ℕ) := do
  let s ← (List.range (maxSize/8)).foldlM (fun s i => do
    let byte ← res.get i
    if byte ≠ 0#8 then (List.range 8).foldlM (fun s j => put s (i*8+j) (byte.getLsbD j)) s
    else some s) (List.replicate maxSize 0,0)
  let s ← (List.range' (maxSize/8) ((maxSize+7)/8-maxSize/8)).foldlM (fun s i =>
    (List.range (maxSize%8)).foldlM (fun s j => do
      let byte ← res.get i
      put s (i*8+j) (byte.getLsbD j)) s) s
  some (s.1.take s.2)

theorem checkByte_eq {col : Buffer ℕ} {begin : ℕ} (h : begin+8 ≤ col.size) (lower upper : ℕ) :
    checkByte col begin lower upper = some (ElfIndex.checkByte col.cell begin lower upper) := by
  have hrun : ∀ n ≤ 8, (List.range n).foldlM (fun toadd j => do
      let value ← col.get (begin+j)
      some (if isIn lower upper value then toadd ||| (1#8 <<< j) else toadd)) 0#8 =
      some ((List.range n).foldl (fun b j =>
        if isIn lower upper (col.cell (begin+j)) then b ||| (1#8 <<< j) else b) 0#8) := by
    intro n hn
    induction n with
    | zero => rfl
    | succ n ih =>
      rw [List.range_succ,List.foldlM_append,ih (by omega),List.foldl_append]
      simp only [Option.bind_eq_bind,Option.bind_some,List.foldlM_cons,List.foldlM_nil,
        List.foldl_cons,List.foldl_nil,Buffer.get_eq (show begin+n < col.size by omega)]
      rfl
  exact hrun 8 le_rfl

/-- Inside of both arrays the kernel is the one on all addresses. -/
theorem checkTidsAnd_eq {col : Buffer ℕ} {begin size : ℕ} (hcol : begin+16 ≤ col.size)
    (hres : begin/8+2 ≤ size) (cell : Bitmap) (lower upper : ℕ) :
    checkTidsAnd col begin ⟨size,cell⟩ lower upper =
      some ⟨size,ElfIndex.checkTidsAnd col.cell begin cell lower upper⟩ := by
  unfold checkTidsAnd
  rw [checkByte_eq (by omega),checkByte_eq (by omega)]
  simp only [Option.bind_eq_bind,Option.bind_some]
  rw [Buffer.get_eq (show begin/8 < size by omega),Option.bind_some,
    Buffer.set_eq (show begin/8 < size by omega),Option.bind_some,
    Buffer.get_eq (show begin/8+1 < size by omega),Option.bind_some,
    Buffer.set_eq (show begin/8+1 < size by omega)]
  rfl

theorem memset_eq {size bytes : ℕ} (h : bytes ≤ size) (cell : Bitmap) (value : BitVec 8) :
    memset ⟨size,cell⟩ value bytes = some ⟨size,Bitmap.memset cell value bytes⟩ := if_pos h

theorem returnTids_eq {size maxSize : ℕ} (h : (maxSize+7)/8 ≤ size) (cell : Bitmap) :
    returnTids ⟨size,cell⟩ maxSize = ElfIndex.returnTids cell maxSize := by
  have hwhole : ∀ s, (List.range (maxSize/8)).foldlM (fun s i => do
      let byte ← (Buffer.mk size cell).get i
      if byte ≠ 0#8 then (List.range 8).foldlM (fun s j => put s (i*8+j) (byte.getLsbD j)) s
      else some s) s = (List.range (maxSize/8)).foldlM (fun s i =>
        if cell i ≠ 0#8 then
          (List.range 8).foldlM (fun s j => put s (i*8+j) ((cell i).getLsbD j)) s
        else some s) s := by
    apply Buffer.foldlM_congr
    intro i hi s
    have hlt := List.mem_range.mp hi
    rw [Buffer.get_eq (show i < size by omega)]
    rfl
  have hrest : ∀ s, (List.range' (maxSize/8) ((maxSize+7)/8-maxSize/8)).foldlM (fun s i =>
      (List.range (maxSize%8)).foldlM (fun s j => do
        let byte ← (Buffer.mk size cell).get i
        put s (i*8+j) (byte.getLsbD j)) s) s =
      (List.range' (maxSize/8) ((maxSize+7)/8-maxSize/8)).foldlM (fun s i =>
        (List.range (maxSize%8)).foldlM
          (fun s j => put s (i*8+j) ((cell i).getLsbD j)) s) s := by
    apply Buffer.foldlM_congr
    intro i hi s
    have hlt := List.mem_range'_1.mp hi
    rw [Buffer.get_eq (show i < size by omega)]
    rfl
  simp only [returnTids,ElfIndex.returnTids,hwhole,hrest]

end Checked

/-! ## The scan -/

/-- The members of the scan; the result bitmap keeps what the last query left. -/
structure Colseqscan where
  cols : ℕ → Buffer ℕ
  result : Buffer (BitVec 8)

namespace Colseqscan

/-- The index of a store, with any contents of the padding words and of the bitmap. -/
def buildIndex (s : Store) (padding : ℕ → ℕ → ℕ) (result : Bitmap) : Colseqscan where
  cols := fun dim => ⟨s.numPoints+16,column s padding dim⟩
  result := ⟨(s.numPoints+15)/8,result⟩

/-- The values of `for (tid = 0; tid < bound; tid += 16)`. -/
def loopTids (bound tid : ℕ) : List ℕ :=
  if tid < bound then tid :: loopTids bound (tid+16) else []
termination_by bound-tid

def selectColumn (col : Buffer ℕ) (lower upper numPoints : ℕ) (result : Buffer (BitVec 8)) :
    Option (Buffer (BitVec 8)) :=
  (loopTids numPoints 0).foldlM
    (fun result tid => Checked.checkTidsAnd col tid result lower upper) result

def partialMatch (s : Store) (ix : Colseqscan) (q : Query) : Option (List ℕ) := do
  let result ← Checked.memset ix.result 255#8 ((s.numPoints+7)/8)
  let result ← (List.range s.numDim).foldlM (fun result dim =>
    if q.columnsForSelect dim then
      selectColumn (ix.cols dim) (q.lowerBound dim) (q.upperBound dim) s.numPoints result
    else some result) result
  Checked.returnTids result s.numPoints

def windowQuery (s : Store) (ix : Colseqscan) (lowerBound upperBound : ℕ → ℕ) :
    Option (List ℕ) := do
  let result ← Checked.memset ix.result 255#8 ((s.numPoints+7)/8)
  let result ← (List.range s.numDim).foldlM (fun result dim =>
    selectColumn (ix.cols dim) (lowerBound dim) (upperBound dim) s.numPoints result) result
  Checked.returnTids result s.numPoints

theorem loopTids_eq (bound line : ℕ) :
    loopTids bound (16*line) = (List.range' line ((bound+15)/16-line)).map (16*·) := by
  induction hn : (bound+15)/16-line generalizing line with
  | zero =>
    rw [loopTids,if_neg (by omega)]
    rfl
  | succ n ih =>
    have hnext : 16*line+16 = 16*(line+1) := by omega
    rw [loopTids,if_pos (by omega),hnext,ih (line+1) (by omega),List.range'_succ,List.map_cons]

/-- The lines of the table, the last one perhaps behind its end, are inside of the arrays. -/
theorem selectColumn_eq {col : Buffer ℕ} {numPoints size : ℕ} (hcol : col.size = numPoints+16)
    (hsize : size = (numPoints+15)/8) (lower upper : ℕ) (cell : Bitmap) :
    selectColumn col lower upper numPoints ⟨size,cell⟩ =
      some ⟨size,(List.range' 0 ((numPoints+15)/16)).foldl
        (fun res line => checkTidsAnd col.cell (16*line) res lower upper) cell⟩ := by
  have hloop := loopTids_eq numPoints 0
  rw [Nat.mul_zero,Nat.sub_zero] at hloop
  rw [selectColumn,hloop,List.foldlM_map]
  apply Buffer.foldlM_cells
  intro line hline c
  have hlt := List.mem_range'_1.mp hline
  exact Checked.checkTidsAnd_eq (by omega) (by omega) c lower upper

/-- Partial-match and window queries of the column scan answer like the row scan without an
access outside of the columns and the bitmap, whatever these hold behind the table. -/
theorem colseqscan_exact (s : Store) (padding : ℕ → ℕ → ℕ) (result : Bitmap) :
    (∀ q : Query, partialMatch s (buildIndex s padding result) q =
      some (SeqScan.partialMatch s q)) ∧
    ∀ lowerBound upperBound : ℕ → ℕ,
      windowQuery s (buildIndex s padding result) lowerBound upperBound =
        some (SeqScan.windowQuery s lowerBound upperBound) := by
  have hmatch : ∀ q : Query, partialMatch s (buildIndex s padding result) q =
      some (SeqScan.partialMatch s q) := by
    intro q
    have hcolumns : ∀ cell, (List.range s.numDim).foldlM (fun result dim =>
        if q.columnsForSelect dim then
          selectColumn ⟨s.numPoints+16,column s padding dim⟩ (q.lowerBound dim)
            (q.upperBound dim) s.numPoints result
        else some result) (Buffer.mk ((s.numPoints+15)/8) cell) =
        some ⟨(s.numPoints+15)/8,(List.range s.numDim).foldl (fun cell dim =>
          if q.columnsForSelect dim then (List.range' 0 ((s.numPoints+15)/16)).foldl
            (fun res line => checkTidsAnd (column s padding dim) (16*line) res
              (q.lowerBound dim) (q.upperBound dim)) cell
          else cell) cell⟩ := by
      apply Buffer.foldlM_cells
      intro dim _ cell
      split
      · exact selectColumn_eq rfl rfl _ _ cell
      · rfl
    simp only [partialMatch,buildIndex,Option.bind_eq_bind]
    rw [Checked.memset_eq (by omega),Option.bind_some,hcolumns,Option.bind_some,
      Checked.returnTids_eq (by omega)]
    refine returnTids_foldColumns ?_ fun tid htid => bit_memset_ones result (by omega)
    intro dim _ _ res tid htid
    rw [bit_foldBlocks fun res line => bit_checkTidsAnd (column s padding dim) line res _ _ tid,
      if_pos (by omega),column,if_pos htid]
  refine ⟨hmatch,?_⟩
  intro lowerBound upperBound
  have hwindow : windowQuery s (buildIndex s padding result) lowerBound upperBound =
      partialMatch s (buildIndex s padding result) (Query.window lowerBound upperBound) := by
    simp only [windowQuery,partialMatch,Query.window,if_true]
  rw [hwindow]
  exact hmatch _

end Colseqscan
end ElfIndex
