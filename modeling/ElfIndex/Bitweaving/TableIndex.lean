import Mathlib
import ElfIndex.Bitweaving.BitVectorIterator
import ElfIndex.Bitweaving.ColumnIds
import ElfIndex.Bitweaving.Queries

/-! # The bit-weaving index on a table

The index over the tables of the library, with columns of any storage type. It drops the statuses
of the scans, so a predicate whose literals do not fit the codes of a packed column is not
checked at all.
-/
namespace ElfIndex
open Bitmap Bitweaving

namespace BitWeavingTable

/-- `words` is what the memory of new naive blocks holds. -/
def buildIndex (s : Store) (ctype : ColumnType) (codeSizes : ℕ → ℕ) (words : Memory) :
    Option TableRep := do
  let table ← (List.range s.numDim).foldlM (fun (table : TableRep) i =>
    (table.addColumn words (toString i) ctype (codeSizes i)).map (·.2)) TableRep.create
  (List.range s.numDim).foldlM (fun (table : TableRep) i =>
    table.bulkload words (toString i) ((List.range s.numPoints).map fun j => s.value j i) 0) table

/-- The branch of the column loops; `twoPass` is the macro `BW_TWO_PASS`. -/
def scanColumn (twoPass : Bool) (column : ColumnRep) (lower upper : ℕ) (bitvector : BitVector) :
    Option BitVector :=
  if lower = upper then (column.scan lower .kEqual .kAnd bitvector).map (·.2)
  else if twoPass then do
    let r ← column.scan lower .kGreaterEqual .kAnd bitvector
    (column.scan upper .kLessEqual .kAnd r.2).map (·.2)
  else (column.scanBetween lower upper .kAnd bitvector).map (·.2)

def partialMatch (twoPass : Bool) (s : Store) (table : TableRep) (words : ℕ → ℕ → WordUnit)
    (q : Query) : Option (List ℕ) := do
  let bitvector := BitVector.ofTable table.num words
  let dim ← (List.range s.numDim).find? q.columnsForSelect
  let column ← table.getColumn (toString dim)
  let r ← column.scanBetween (q.lowerBound dim) (q.upperBound dim) .kSet bitvector
  let bitvector ← (List.range' dim (s.numDim-dim)).foldlM (fun (bitvector : BitVector) dim =>
    if q.columnsForSelect dim then do
      let column ← table.getColumn (toString dim)
      scanColumn twoPass column (q.lowerBound dim) (q.upperBound dim) bitvector
    else some bitvector) r.2
  bitvector.toTids s.numPoints

def windowQuery (twoPass : Bool) (s : Store) (table : TableRep) (words : ℕ → ℕ → WordUnit)
    (lowerBound upperBound : ℕ → ℕ) : Option (List ℕ) := do
  let bitvector := BitVector.ofTable table.num words
  let column ← table.getColumn (toString 0)
  let r ← column.scanBetween (lowerBound 0) (upperBound 0) .kAnd bitvector
  let bitvector ← (List.range' 1 (s.numDim-1)).foldlM (fun (bitvector : BitVector) dim => do
    let column ← table.getColumn (toString dim)
    scanColumn twoPass column (lowerBound dim) (upperBound dim) bitvector) r.2
  bitvector.toTids s.numPoints

/-- The iterator needs a column for each id of the table. -/
def exactMatch (s : Store) (table : TableRep) (words : ℕ → ℕ → WordUnit) (query : ℕ → ℕ)
    (fuel : ℕ) : Option ℕ := do
  let bitvector := BitVector.ofTable table.num words
  let column ← table.getColumn (toString 0)
  let r ← column.scan (query 0) .kEqual .kSet bitvector
  let _ ← table.columnsOfIds
  let found ← Iteration.find (BitVectorIterator.next r.2 table.num) (·.pos)
    (fun tid => isEqual (s.value tid) query s.numDim) fuel BitVectorIterator.start
  some (found.getD notFound)

/-! ## The loaded table -/

/-- The columns of the first `added` dimensions are there, and the codes of the first `loaded`
ones. -/
structure Loading (s : Store) (ctype : ColumnType) (codeSizes : ℕ → ℕ) (added loaded : ℕ)
    (t : TableRep) : Prop where
  runs : TableRep.Runs (fun t op => t.Fits op ∧ t.Tidy op) t
  num : t.num = if loaded = 0 then 0 else s.numPoints
  free : t.freeColumnIds = []
  column : ∀ i < added, ∃ c, t.getColumn (toString i) = some c ∧ c.type = ctype ∧
    c.codeSize = codeSizes i ∧ (i < loaded → ∀ tid < s.numPoints, c.code tid = s.value tid i) ∧
    (loaded ≤ i → ctype ≠ .kNaive → ∀ pos < t.num, c.code pos = 0)
  absent : ∀ i, added ≤ i → t.getColumn (toString i) = none

theorem toString_inj {i j : ℕ} : toString i = toString j ↔ i = j := Nat.repr_inj

variable {s : Store} {ctype : ColumnType} {codeSizes : ℕ → ℕ} {words : Memory} {t : TableRep}

theorem Loading.sound {added loaded : ℕ} (h : Loading s ctype codeSizes added loaded t) : t.Sound :=
  TableRep.Reachable.sound (h.runs.mono fun _ _ h => h.1)

theorem loading_create : Loading s ctype codeSizes 0 0 TableRep.create :=
  ⟨.create,rfl,rfl,fun _ hi => absurd hi (Nat.not_lt_zero _),fun _ _ => rfl⟩

theorem Loading.addColumn {added : ℕ} (h : Loading s ctype codeSizes added 0 t)
    (hpos : 0 < codeSizes added) (hle : codeSizes added ≤ 32) (words : Memory) :
    ∃ t', (t.addColumn words (toString added) ctype (codeSizes added)).map (·.2) = some t' ∧
      Loading s ctype codeSizes (added+1) 0 t' := by
  have habsent := h.absent added le_rfl
  obtain ⟨t',c,hrun,hnum,htype,hsize,hzero,hget⟩ :=
    TableRep.addColumn_spec t ctype hpos hle words habsent
  have hstep : (t.addColumn words (toString added) ctype (codeSizes added)).map (·.2) = some t' := by
    rw [hrun]
    rfl
  refine ⟨t',hstep,?_,?_,?_,?_,?_⟩
  · exact .step words (.addColumn (toString added) ctype (codeSizes added)) h.runs
      ⟨⟨hpos,hle⟩,.inr habsent⟩ hstep
  · rw [hnum,h.num]
  · have hids := TableRep.free_addColumn hrun
    rw [hids,h.free]
    rfl
  · intro i hi
    rw [hget]
    by_cases hname : i = added
    · subst hname
      rw [if_pos rfl]
      exact ⟨c,rfl,htype,hsize,fun h => absurd h (Nat.not_lt_zero _),
        fun _ hpacked pos _ => hzero hpacked pos⟩
    · rw [if_neg (toString_inj.not.mpr hname),hnum]
      exact h.column i (by omega)
  · intro i hi
    rw [hget,if_neg (toString_inj.not.mpr (by omega))]
    exact h.absent i (by omega)

theorem room_eq {N : ℕ} (h : N%kNumCodesPerBlock ≠ 0 ∨ N = 0) : room N = N := by
  have hlt := (room_lt_iff (N:=N)).not.mpr (by omega)
  have hle := room_le N
  omega

/-- The number of a block of the table below the room. -/
theorem div_lt_numColumnBlocks {N pos : ℕ} (h : pos < N) :
    pos/kNumCodesPerBlock < numColumnBlocks N := by
  rw [numColumnBlocks_eq]
  exact (Blocks.lt_numBlocks kNumCodesPerBlock_pos).mpr
    ((Nat.div_mul_le_self pos kNumCodesPerBlock).trans_lt h)

/-- A column that was resized along with the table. -/
theorem code_resized {c c' : ColumnRep} {N : ℕ} {num : ℕ} (h : c.Resized num N c')
    (hnum : num = 0 ∨ num = N) (hpacked : c.type ≠ .kNaive)
    (hzero : ∀ pos < num, c.code pos = 0) : ∀ pos < N, c'.code pos = 0 := by
  intro pos hpos
  rcases hnum with rfl | rfl
  · have hblocks : numColumnBlocks 0 = 0 := (shaped_nil (n:=0) c.type).length.symm
    exact h.zero hpacked pos (by rw [hblocks]; exact Nat.zero_le _)
  · rw [h.kept pos (div_lt_numColumnBlocks hpos) (div_lt_numColumnBlocks hpos),hzero pos hpos]

section Load

variable (hsizes : ∀ i < s.numDim, 0 < codeSizes i ∧ codeSizes i ≤ 32)
  (hvalues : ∀ i < s.numDim, ∀ tid < s.numPoints, s.value tid i < 2^codeSizes i)

theorem length_values (s : Store) (i : ℕ) :
    ((List.range s.numPoints).map fun j => s.value j i).length = s.numPoints := by
  rw [List.length_map,List.length_range]

include hvalues in
/-- The values of the store fit the column they are for. -/
theorem Loading.fits {loaded i : ℕ} (h : Loading s ctype codeSizes s.numDim loaded t)
    (hi : i < s.numDim) :
    t.Fits (.bulkload (toString i) ((List.range s.numPoints).map fun j => s.value j i) 0) := by
  obtain ⟨c,hc,_,hsize,_⟩ := h.column i hi
  refine ⟨?_,fun c' hc' code hcode => ?_⟩
  · rw [length_values]
    have := s.numPoints_le
    have hdef : s.numPoints = s.store.length := rfl
    omega
  · obtain ⟨j,hj,rfl⟩ := List.mem_map.mp hcode
    rw [hc] at hc'
    obtain rfl := Option.some.inj hc'
    rw [hsize]
    exact hvalues i hi j (List.mem_range.mp hj)

theorem Loading.num_cases {added loaded : ℕ} (h : Loading s ctype codeSizes added loaded t) :
    t.num = 0 ∨ t.num = s.numPoints := by
  rw [h.num]
  split
  · exact .inl rfl
  · exact .inr rfl

/-- A column other than the one whose codes are loaded. -/
theorem Loading.column_resized {added loaded i : ℕ} (h : Loading s ctype codeSizes added loaded t)
    (hi : i < added) (hne : i ≠ loaded) {x : Option ColumnRep}
    (hres : Option.Rel (fun d d' => d.Resized t.num s.numPoints d') (t.getColumn (toString i)) x) :
    ∃ c, x = some c ∧ c.type = ctype ∧ c.codeSize = codeSizes i ∧
      (i < loaded+1 → ∀ tid < s.numPoints, c.code tid = s.value tid i) ∧
      (loaded+1 ≤ i → ctype ≠ .kNaive → ∀ pos < s.numPoints, c.code pos = 0) := by
  obtain ⟨d,hd,hdtype,hdsize,hdloaded,hdzero⟩ := h.column i hi
  obtain ⟨d',rfl,hd'⟩ := Related.exists_related hres hd
  refine ⟨d',rfl,hd'.type.trans hdtype,hd'.codeSize.trans hdsize,?_,?_⟩
  · intro hlt tid htid
    have hfull : t.num = s.numPoints := by rw [h.num,if_neg (by omega)]
    rw [hd'.kept tid (div_lt_numColumnBlocks htid) (div_lt_numColumnBlocks (hfull ▸ htid)),
      hdloaded (by omega) tid htid]
  · intro hge hpacked
    exact code_resized hd' h.num_cases (hdtype ▸ hpacked) (hdzero (by omega) hpacked)

include hvalues in
/-- The codes of one more column. -/
theorem Loading.bulkload {loaded : ℕ} (h : Loading s ctype codeSizes s.numDim loaded t)
    (hlt : loaded < s.numDim) (hN : s.numPoints%kNumCodesPerBlock ≠ 0 ∨ s.numPoints = 0)
    (words : Memory) :
    ∃ t', t.bulkload words (toString loaded)
        ((List.range s.numPoints).map fun j => s.value j loaded) 0 = some t' ∧
      Loading s ctype codeSizes s.numDim (loaded+1) t' := by
  obtain ⟨c,hc,htype,hsize,_,hzero⟩ := h.column loaded hlt
  have hlen := length_values s loaded
  have hfits := h.fits hvalues hlt
  have hnum := h.num_cases
  have hafter : t.loadedNum ((List.range s.numPoints).map fun j => s.value j loaded) 0 =
      s.numPoints := by
    rw [TableRep.loadedNum,hlen,Nat.zero_add]
    omega
  obtain ⟨t',c1,c',hrun,_,hnum',hresized,hc',_,htype',hsize',hcode,hothers⟩ :=
    TableRep.bulkload_some h.sound hc hfits words (.inr (by rw [hafter,hlen,room_eq hN]; omega))
  rw [hafter] at hnum'
  rw [hlen] at hcode
  rw [hnum'] at hresized hothers
  have hloaded : ∀ tid < s.numPoints, c'.code tid = s.value tid loaded := by
    intro tid htid
    have hget : ((List.range s.numPoints).map fun j => s.value j loaded).getD (tid-0) 0 =
        s.value tid loaded := by
      rw [List.getD_eq_getElem?_getD,List.getElem?_map,Nat.sub_zero,List.getElem?_range htid]
      rfl
    rw [hcode tid,if_pos ⟨Nat.zero_le _,by omega⟩,hget]
    by_cases hpacked : c.type = .kNaive
    · rw [hpacked]
      rfl
    · have hold : c1.code tid = 0 := code_resized hresized hnum hpacked
        (hzero le_rfl (htype ▸ hpacked)) tid htid
      rw [hold,ColumnType.put_zero]
  refine ⟨t',hrun,?_,?_,?_,?_,?_⟩
  · exact .step words (.bulkload (toString loaded) _ 0) h.runs ⟨hfits,trivial⟩ hrun
  · rw [hnum',if_neg (Nat.succ_ne_zero loaded)]
  · rw [TableRep.free_bulkload hrun,h.free]
  · intro i hi
    by_cases hname : i = loaded
    · subst hname
      exact ⟨c',hc',htype'.trans htype,hsize'.trans hsize,fun _ => hloaded,
        fun h => absurd h (by omega)⟩
    · rw [hnum']
      exact h.column_resized hi hname (hothers (toString i) (toString_inj.not.mpr hname))
  · intro i hi
    have hrel := hothers (toString i) (toString_inj.not.mpr (by omega))
    exact (Related.eq_none_iff hrel).mp (h.absent i hi)

include hsizes in
theorem loading_added (ctype : ColumnType) (words : Memory) :
    ∃ t, (List.range s.numDim).foldlM (fun (table : TableRep) i =>
        (table.addColumn words (toString i) ctype (codeSizes i)).map (·.2)) TableRep.create =
          some t ∧ Loading s ctype codeSizes s.numDim 0 t := by
  have hrun : ∀ n ≤ s.numDim, ∃ t, (List.range n).foldlM (fun (table : TableRep) i =>
      (table.addColumn words (toString i) ctype (codeSizes i)).map (·.2)) TableRep.create =
        some t ∧ Loading s ctype codeSizes n 0 t := by
    intro n hn
    induction n with
    | zero => exact ⟨_,rfl,loading_create⟩
    | succ n ih =>
      obtain ⟨t,hrun,ht⟩ := ih (by omega)
      obtain ⟨t',hadd,ht'⟩ := ht.addColumn (hsizes n (by omega)).1 (hsizes n (by omega)).2 words
      refine ⟨t',?_,ht'⟩
      rw [List.range_succ,List.foldlM_append,hrun]
      simpa using hadd
  exact hrun s.numDim le_rfl

include hsizes hvalues in
/-- The index is built, and its columns hold the values of the store. -/
theorem buildIndex_some (ctype : ColumnType) (words : Memory)
    (hN : s.numPoints%kNumCodesPerBlock ≠ 0 ∨ s.numPoints = 0) :
    ∃ t, buildIndex s ctype codeSizes words = some t ∧
      Loading s ctype codeSizes s.numDim s.numDim t := by
  obtain ⟨t0,hadded,h0⟩ := loading_added hsizes ctype words
  have hrun : ∀ n ≤ s.numDim, ∃ t, (List.range n).foldlM (fun (table : TableRep) i =>
      table.bulkload words (toString i) ((List.range s.numPoints).map fun j => s.value j i) 0) t0 =
        some t ∧ Loading s ctype codeSizes s.numDim n t := by
    intro n hn
    induction n with
    | zero => exact ⟨_,rfl,h0⟩
    | succ n ih =>
      obtain ⟨t,hrun,ht⟩ := ih (by omega)
      obtain ⟨t',hload,ht'⟩ := ht.bulkload hvalues (by omega) hN words
      refine ⟨t',?_,ht'⟩
      rw [List.range_succ,List.foldlM_append,hrun]
      simpa using hload
  obtain ⟨t,hloaded,ht⟩ := hrun s.numDim le_rfl
  refine ⟨t,?_,ht⟩
  rw [buildIndex,hadded]
  exact hloaded

include hsizes hvalues in
/-- A number of points that fills all blocks fails an assertion in the first column. -/
theorem buildIndex_none (ctype : ColumnType) (words : Memory) (hdim : 0 < s.numDim)
    (hN : s.numPoints%kNumCodesPerBlock = 0) (hpos : 0 < s.numPoints) :
    buildIndex s ctype codeSizes words = none := by
  obtain ⟨t0,hadded,h0⟩ := loading_added hsizes ctype words
  obtain ⟨c,hc,_⟩ := h0.column 0 hdim
  have hlen := length_values s 0
  have hnone : t0.bulkload words (toString 0) ((List.range s.numPoints).map fun j => s.value j 0) 0 =
      none := by
    have hiff := TableRep.bulkload_grows_iff h0.sound hc (h0.fits hvalues hdim) words
      (by rw [h0.num,if_pos rfl,hlen,Nat.zero_add]; exact hpos)
      (by rw [← List.length_pos_iff,hlen]; exact hpos)
    rw [hlen,Nat.zero_add] at hiff
    rw [← Option.not_isSome_iff_eq_none,hiff]
    exact not_not.mpr hN
  obtain ⟨d,hd⟩ : ∃ d, s.numDim = d+1 := ⟨s.numDim-1,by omega⟩
  rw [buildIndex,hadded]
  dsimp only [Option.bind_eq_bind,Option.bind_some]
  rw [hd,List.range_succ_eq_map,List.foldlM_cons,hnone]
  rfl

end Load

/-! ## Queries -/

open BitVector (Selected)
open BitWeaving (selected_congr)

/-- The answer of `Scan_between`; a packed column drops it if a literal does not fit. -/
def betweenAnswer (ctype : ColumnType) (codeSize lower upper value : ℕ) : Bool :=
  !(ctype.fits codeSize lower && ctype.fits codeSize upper) || isIn lower upper value

/-- The answer of the column loops, which drop each scan whose literals do not fit. -/
def columnAnswer (twoPass : Bool) (ctype : ColumnType) (codeSize lower upper value : ℕ) : Bool :=
  if lower = upper then !ctype.fits codeSize lower || value == lower
  else if twoPass then
    (!ctype.fits codeSize lower || decide (value ≥ lower)) &&
      (!ctype.fits codeSize upper || decide (value ≤ upper))
  else betweenAnswer ctype codeSize lower upper value

section Scans

variable {N : ℕ} {c : ColumnRep} {bv : BitVector} {p : ℕ → Bool} (hroom : room N = N)
  (hc : c.Sound N) (h : Selected bv N p)

theorem selected_combined {opt : BitVectorOpt} {answer : ℕ → Bool} {clears : Bool}
    {bv' : BitVector} (hroom : room N = N) (h : Selected bv N p)
    (hs : Combined clears N opt answer bv bv') :
    Selected bv' N fun tid => opt.combine (p tid) (answer tid) := by
  refine ⟨hs.nums.trans h.nums,fun blockId k hk hlt => ?_⟩
  rw [hs.bit blockId k hk (hroom.symm ▸ hlt),h.bit blockId k hk hlt]

include hroom hc h

/-- A scan that is refused keeps the selection. -/
theorem selected_scan (literal : ℕ) (comparator : Comparator) (opt : BitVectorOpt) :
    ∃ bv', (c.scan literal comparator opt bv).map (·.2) = some bv' ∧
      ((∀ block ∈ bv, block.Finalized) → ∀ block ∈ bv', block.Finalized) ∧
      Selected bv' N fun tid => if c.type.fits c.codeSize literal then
        opt.combine (p tid) (comparator.test literal (c.code tid)) else p tid := by
  by_cases hfits : c.type.fits c.codeSize literal = true
  · obtain ⟨bv',hrun,hs⟩ := ColumnRep.scan_spec hc h.nums comparator hfits opt
    refine ⟨bv',by rw [hrun]; rfl,hs.finalized,?_⟩
    simp only [hfits,if_true]
    exact selected_combined hroom h hs
  · have hfits := Bool.eq_false_iff.mpr hfits
    simp only [hfits,Bool.false_eq_true,if_false]
    rcases Nat.eq_zero_or_pos N with rfl | hpos
    · exact ⟨bv,by rw [ColumnRep.scan,scanBlocks_nil _ opt _ h.nums]; rfl,id,h⟩
    · obtain ⟨text,hrun⟩ := ColumnRep.scan_refused hc h.nums hpos comparator hfits opt
      exact ⟨bv,by rw [hrun]; rfl,id,h⟩

theorem selected_scanBetween (lower upper : ℕ) (opt : BitVectorOpt) :
    ∃ bv', (c.scanBetween lower upper opt bv).map (·.2) = some bv' ∧
      Selected bv' N fun tid =>
        if c.type.fits c.codeSize lower && c.type.fits c.codeSize upper then
          opt.combine (p tid) (isIn lower upper (c.code tid)) else p tid := by
  by_cases hfits : (c.type.fits c.codeSize lower && c.type.fits c.codeSize upper) = true
  · obtain ⟨hlower,hupper⟩ := Bool.and_eq_true_iff.mp hfits
    obtain ⟨bv',hrun,hs⟩ := ColumnRep.scanBetween_spec hc h.nums hlower hupper opt
    refine ⟨bv',by rw [hrun]; rfl,?_⟩
    simp only [hfits,if_true]
    exact selected_combined hroom h hs
  · have hfits := Bool.eq_false_iff.mpr hfits
    simp only [hfits,Bool.false_eq_true,if_false]
    rcases Nat.eq_zero_or_pos N with rfl | hpos
    · exact ⟨bv,by rw [ColumnRep.scanBetween,scanBlocks_nil _ opt _ h.nums]; rfl,h⟩
    · obtain ⟨text,hrun⟩ := ColumnRep.scanBetween_refused hc h.nums hpos hfits opt
      exact ⟨bv,by rw [hrun]; rfl,h⟩

theorem selected_scanColumn (twoPass : Bool) (lower upper : ℕ) :
    ∃ bv', scanColumn twoPass c lower upper bv = some bv' ∧ Selected bv' N fun tid =>
      p tid && columnAnswer twoPass c.type c.codeSize lower upper (c.code tid) := by
  by_cases heq : lower = upper
  · obtain ⟨bv',hrun,_,hs⟩ := selected_scan hroom hc h lower .kEqual .kAnd
    refine ⟨bv',by rw [scanColumn,if_pos heq,hrun],selected_congr hs fun tid _ => ?_⟩
    rw [columnAnswer,if_pos heq]
    cases c.type.fits c.codeSize lower <;> simp [BitVectorOpt.combine,Comparator.test]
  · cases twoPass with
    | false =>
      obtain ⟨bv',hrun,hs⟩ := selected_scanBetween hroom hc h lower upper .kAnd
      refine ⟨bv',by rw [scanColumn,if_neg heq,if_neg Bool.false_ne_true,hrun],
        selected_congr hs fun tid _ => ?_⟩
      rw [columnAnswer,if_neg heq,if_neg Bool.false_ne_true,betweenAnswer]
      cases c.type.fits c.codeSize lower && c.type.fits c.codeSize upper <;>
        simp [BitVectorOpt.combine]
    | true =>
      obtain ⟨bv1,hrun1,_,h1⟩ := selected_scan hroom hc h lower .kGreaterEqual .kAnd
      obtain ⟨bv2,hrun2,_,h2⟩ := selected_scan hroom hc h1 upper .kLessEqual .kAnd
      obtain ⟨r,hr,rfl⟩ := Option.map_eq_some_iff.mp hrun1
      refine ⟨bv2,?_,selected_congr h2 fun tid _ => ?_⟩
      · rw [scanColumn,if_neg heq,if_pos rfl,hr]
        exact hrun2
      · rw [columnAnswer,if_neg heq,if_pos rfl]
        cases c.type.fits c.codeSize lower <;> cases c.type.fits c.codeSize upper <;>
          simp [BitVectorOpt.combine,Comparator.test,Bool.and_assoc]

end Scans

/-- A loop over columns. -/
theorem selected_foldColumns {N : ℕ} {bv : BitVector} {p : ℕ → Bool}
    (step : BitVector → ℕ → Option BitVector) (answer : ℕ → ℕ → Bool) (dims : List ℕ)
    (hstep : ∀ dim ∈ dims, ∀ bv p, Selected bv N p →
      ∃ bv', step bv dim = some bv' ∧ Selected bv' N fun tid => p tid && answer dim tid)
    (h : Selected bv N p) :
    ∃ bv', dims.foldlM step bv = some bv' ∧
      Selected bv' N fun tid => p tid && dims.all (answer · tid) := by
  induction dims generalizing bv p with
  | nil => exact ⟨bv,rfl,selected_congr h fun tid _ => by simp⟩
  | cons dim dims ih =>
    obtain ⟨bv1,hrun1,h1⟩ := hstep dim List.mem_cons_self bv p h
    obtain ⟨bv2,hrun2,h2⟩ := ih (fun d hd => hstep d (List.mem_cons_of_mem dim hd)) h1
    refine ⟨bv2,?_,selected_congr h2 fun tid _ => ?_⟩
    · rw [List.foldlM_cons,hrun1]
      exact hrun2
    · rw [List.all_cons,Bool.and_assoc]

/-- A query on the index; a dimension that is not selected admits all values. -/
def admits (twoPass : Bool) (ctype : ColumnType) (codeSizes : ℕ → ℕ) (q : Query)
    (dim value : ℕ) : Bool :=
  !q.columnsForSelect dim ||
    columnAnswer twoPass ctype (codeSizes dim) (q.lowerBound dim) (q.upperBound dim) value

section Queries

variable (h : Loading s ctype codeSizes s.numDim s.numDim t)
  (hN : s.numPoints%kNumCodesPerBlock ≠ 0 ∨ s.numPoints = 0) (twoPass : Bool)
  (bitWords : ℕ → ℕ → WordUnit)

theorem Loading.num_eq (h : Loading s ctype codeSizes s.numDim s.numDim t) (hdim : 0 < s.numDim) :
    t.num = s.numPoints := by
  rw [h.num,if_neg (by omega)]

theorem Loading.exists_column (h : Loading s ctype codeSizes s.numDim s.numDim t) {dim : ℕ}
    (hdim : dim < s.numDim) :
    ∃ c, t.getColumn (toString dim) = some c ∧ c.type = ctype ∧ c.codeSize = codeSizes dim ∧
      c.Sound s.numPoints ∧ ∀ tid < s.numPoints, c.code tid = s.value tid dim := by
  obtain ⟨c,hc,htype,hsize,hcode,_⟩ := h.column dim hdim
  exact ⟨c,hc,htype,hsize,h.num_eq (by omega) ▸ h.sound.getColumn hc,hcode hdim⟩

include h hN

/-- The iterator numbers the tuples of the whole table, so the answer is that of the row scan. -/
theorem exactMatch_loaded (hdim : 0 < s.numDim) (query : ℕ → ℕ) :
    Fuel.Returns (exactMatch s t bitWords query) (SeqScan.exactMatch s query) := by
  obtain ⟨c,hc,_,_,hsound,hcode⟩ := h.exists_column hdim
  obtain ⟨bv,hrun,hfinal,hs⟩ := selected_scan (room_eq hN) hsound
    (Selected.ofTable s.numPoints bitWords) (query 0) .kEqual .kSet
  obtain ⟨r,hr,rfl⟩ := Option.map_eq_some_iff.mp hrun
  have hids : t.columnsOfIds.isSome = true :=
    (TableRep.Runs.numbered (h.runs.mono fun _ _ h => h.2)).columnsOfIds_isSome_iff.mpr h.free
  obtain ⟨columns,hcolumns⟩ := Option.isSome_iff_exists.mp hids
  have hnew : ∀ block ∈ BitVector.ofTable s.numPoints bitWords, block.Finalized := by
    intro block hblock
    obtain ⟨blockId,_,rfl⟩ := List.mem_map.mp hblock
    exact BitVectorBlock.finalized_finalize _
  have hshows := BitVectorIterator.shows_tids hs.nums (hfinal hnew)
  have hselected : ((List.range s.numPoints).filter fun tid =>
      BitVector.bit r.2 (tid/kNumCodesPerBlock) (tid%kNumCodesPerBlock)).find?
        (fun tid => isEqual (s.value tid) query s.numDim) =
      (List.range s.numPoints).find? fun tid => isEqual (s.value tid) query s.numDim := by
    rw [List.find?_filter]
    refine List.find?_congr fun tid htid => ?_
    have htid := List.mem_range.mp htid
    have hpos : tid/kNumCodesPerBlock*kNumCodesPerBlock+tid%kNumCodesPerBlock = tid :=
      Nat.div_add_mod' tid _
    rw [hs.bit _ _ (Nat.mod_lt tid kNumCodesPerBlock_pos) (by rw [hpos]; exact htid),hpos,
      Bool.decide_and,Bool.decide_eq_true,Bool.decide_eq_true,Bool.and_eq_right_iff_imp]
    intro heq
    split
    · have hvalue := isEqual_iff.mp heq 0 hdim
      rw [hcode tid htid]
      exact beq_iff_eq.mpr hvalue
    · rfl
  obtain ⟨bound,hbound⟩ := hshows.find fun tid => isEqual (s.value tid) query s.numDim
  refine ⟨bound,fun fuel hfuel => ?_⟩
  have hfind : Iteration.find (BitVectorIterator.next r.2 s.numPoints) (·.pos)
      (fun tid => isEqual (s.value tid) query s.numDim) fuel BitVectorIterator.start =
        some ((List.range s.numPoints).find? fun tid => isEqual (s.value tid) query s.numDim) :=
    hselected ▸ hbound fuel hfuel
  rw [exactMatch,h.num_eq hdim,hc,Option.bind_eq_bind,Option.bind_some,hr,Option.bind_eq_bind,
    Option.bind_some,hcolumns,Option.bind_eq_bind,Option.bind_some,hfind]
  rfl

end Queries

/-! ## The index on its own table -/

section Index

variable (hsizes : ∀ i < s.numDim, 0 < codeSizes i ∧ codeSizes i ≤ 32)
  (hvalues : ∀ i < s.numDim, ∀ tid < s.numPoints, s.value tid i < 2^codeSizes i)

include hsizes hvalues

theorem loading_of_built (hbuild : buildIndex s ctype codeSizes words = some t)
    (hdim : 0 < s.numDim) : Loading s ctype codeSizes s.numDim s.numDim t ∧
      (s.numPoints%kNumCodesPerBlock ≠ 0 ∨ s.numPoints = 0) := by
  have hN : s.numPoints%kNumCodesPerBlock ≠ 0 ∨ s.numPoints = 0 := by
    by_contra hfull
    rw [not_or,not_not] at hfull
    rw [buildIndex_none hsizes hvalues ctype words hdim hfull.1 (Nat.pos_of_ne_zero hfull.2)]
      at hbuild
    cases hbuild
  obtain ⟨t',hbuild',ht⟩ := buildIndex_some hsizes hvalues ctype words hN
  rw [hbuild] at hbuild'
  obtain rfl := Option.some.inj hbuild'
  exact ⟨ht,hN⟩

/-- The index is built unless its tuples fill all their blocks. -/
theorem index_built_iff (ctype : ColumnType) (words : Memory) :
    (buildIndex s ctype codeSizes words).isSome = true ↔
      s.numDim = 0 ∨ s.numPoints = 0 ∨ s.numPoints%kNumCodesPerBlock ≠ 0 := by
  constructor
  · intro hsome
    obtain ⟨t,ht⟩ := Option.isSome_iff_exists.mp hsome
    rcases Nat.eq_zero_or_pos s.numDim with hdim | hdim
    · exact .inl hdim
    · exact .inr (loading_of_built hsizes hvalues ht hdim).2.symm
  · rintro (hdim | hN)
    · rw [buildIndex,hdim]
      rfl
    · obtain ⟨t,ht,_⟩ := buildIndex_some hsizes hvalues ctype words hN.symm
      exact Option.isSome_of_eq_some ht

theorem index_exactMatch (hbuild : buildIndex s ctype codeSizes words = some t)
    (bitWords : ℕ → ℕ → WordUnit) (hdim : 0 < s.numDim) (query : ℕ → ℕ) :
    Fuel.Returns (exactMatch s t bitWords query) (SeqScan.exactMatch s query) := by
  obtain ⟨ht,hN⟩ := loading_of_built hsizes hvalues hbuild hdim
  exact exactMatch_loaded ht hN bitWords hdim query

end Index

/-! ## A small index -/

/-- The grid in columns of three bits. -/
def gridIndex : Option TableRep :=
  buildIndex gridStore .kBitWeavingV (fun _ => 3) fun _ _ _ => 7#64

theorem gridIndex_isSome : ∃ t, gridIndex = some t := by
  obtain ⟨t,ht,_⟩ := @buildIndex_some gridStore (fun _ => 3) (by decide) (by decide)
    .kBitWeavingV (fun _ _ _ => 7#64) (.inl (by decide))
  exact ⟨t,ht⟩

theorem index_built_grid : gridIndex.isSome = true :=
  (index_built_iff (by decide) (by decide) .kBitWeavingV _).mpr (by decide)

theorem index_exactMatch_grid :
    ∃ t, gridIndex = some t ∧
      Fuel.Returns (exactMatch gridStore t (fun _ _ => 5#64) fun i => [3,1].getD i 0) 0 := by
  obtain ⟨t,ht⟩ := gridIndex_isSome
  have hexact := index_exactMatch (by decide) (by decide) ht (fun _ _ => 5#64) (by decide)
    fun i => [3,1].getD i 0
  exact ⟨t,ht,hexact⟩

end BitWeavingTable
end ElfIndex
