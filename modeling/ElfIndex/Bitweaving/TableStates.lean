import ElfIndex.Bitweaving.TableIndex

/-! # Reads and scans of reachable tables

What a table answers after any run of operations whose codes fit their columns: reads, scans and
the iterator over a scan show the same codes, whatever the type of the column.
-/
namespace ElfIndex.Bitweaving

variable {N : ℕ} {t : TableRep} {c column : ColumnRep} {name name' : String} {bv : BitVector}
  {words : Memory}

/-- A position of a block is one of its codes exactly if the column has room for it. -/
theorem lt_blockNum_iff {pos : ℕ} (h : pos/kNumCodesPerBlock < numColumnBlocks N) :
    pos%kNumCodesPerBlock < blockNum N (pos/kNumCodesPerBlock) ↔ pos < room N := by
  unfold blockNum room
  by_cases hlast : pos/kNumCodesPerBlock+1 = numColumnBlocks N
  · rw [if_pos hlast]
    by_cases hmod : N%kNumCodesPerBlock = 0
    · rw [if_pos hmod,hmod]
      simp only [numColumnBlocks,kNumCodesPerBlock] at h hlast hmod ⊢
      omega
    · rw [if_neg hmod]
      simp only [numColumnBlocks,kNumCodesPerBlock] at h hlast hmod ⊢
      omega
  · rw [if_neg hlast]
    by_cases hmod : N%kNumCodesPerBlock = 0
    · rw [if_pos hmod]
      simp only [numColumnBlocks,kNumCodesPerBlock] at h hlast hmod ⊢
      omega
    · rw [if_neg hmod]
      simp only [numColumnBlocks,kNumCodesPerBlock] at h hlast hmod ⊢
      omega

/-- No block is missed if the room is for all tuples. -/
theorem scanStatus_eq_ok (clears : Bool) (h : room N = N) : scanStatus clears N = .ok :=
  if_neg fun hless => Nat.lt_irrefl _ (h ▸ hless.1)

/-- `GetCode` reads what the scans compare. -/
theorem ColumnRep.getCode_eq (h : c.Sound N) {pos : ℕ} (hpos : pos < room N) :
    c.getCode pos = some (.ok (c.code pos%2^32)) := by
  have hblock := BitWeavingTable.div_lt_numColumnBlocks (hpos.trans_le (room_le N))
  obtain ⟨b,hb⟩ : ∃ b, c.blocks[pos/kNumCodesPerBlock]? = some b :=
    ⟨_,List.getElem?_eq_getElem (h.shaped.length ▸ hblock)⟩
  have hlt := (lt_blockNum_iff hblock).mpr hpos
  rw [← h.shaped.num _ b hb] at hlt
  rw [getCode,hb,Option.map_some,ColumnBlock.getCode_eq h.le hlt,ColumnRep.code,
    codeAt_of_getElem? hb]

namespace TableRep

section Reachable

variable (h : Reachable t) (hc : t.getColumn name = some c)

include h hc

/-- A scan of two columns answers for naive columns and for packed ones that are stored alike. -/
theorem reachable_scanColumn (hc' : t.getColumn name' = some column)
    (hbv : bv.map (·.num) = BitVector.blockNums t.num) (comparator : Comparator)
    (stale : ℕ → ℕ → ℕ) (opt : BitVectorOpt) :
    (c.type = .kNaive ∨ column.type = c.type ∧ column.codeSize = c.codeSize →
        ∃ bv', c.scanColumn column comparator stale opt bv = some (scanStatus false t.num,bv') ∧
          Combined false t.num opt (fun pos => comparator.test (column.code pos%2^32) (c.code pos))
            bv bv') ∧
      (¬(c.type = .kNaive ∨ column.type = c.type ∧ column.codeSize = c.codeSize) → 0 < t.num →
        ∃ text, c.scanColumn column comparator stale opt bv =
          some (.invalidArgument text,bv)) := by
  have hsound := h.sound.getColumn hc
  have hsound' := h.sound.getColumn hc'
  refine ⟨fun hcomp => ?_,fun hcomp hpos => ?_⟩
  · exact ColumnRep.scanColumn_spec hsound hsound' hbv comparator stale opt hcomp
  · exact ColumnRep.scanColumn_refused hsound hsound' hbv comparator stale opt hpos hcomp

/-- The iterator over a scan shows the positions whose codes pass, in their order. -/
theorem reachable_iterate (hN : t.num%kNumCodesPerBlock ≠ 0 ∨ t.num = 0)
    (comparator : Comparator) {literal : ℕ} (hfits : c.type.fits c.codeSize literal = true)
    (bitWords : ℕ → ℕ → WordUnit) :
    ∃ bv', c.scan literal comparator .kSet (BitVector.ofTable t.num bitWords) = some (.ok,bv') ∧
      Iteration.Shows (BitVectorIterator.next bv' t.num) (·.pos) BitVectorIterator.start
        ((List.range t.num).filter fun pos => comparator.test literal (c.code pos)) := by
  have hnew := BitVector.Selected.ofTable t.num bitWords
  have hroom := BitWeavingTable.room_eq hN
  obtain ⟨bv',hrun,hs⟩ := ColumnRep.scan_spec (h.sound.getColumn hc) hnew.nums comparator hfits .kSet
  have hok : scanStatus c.type.clears t.num = .ok := scanStatus_eq_ok _ hroom
  have hfinal : ∀ block ∈ BitVector.ofTable t.num bitWords, block.Finalized := by
    intro block hblock
    obtain ⟨blockId,_,rfl⟩ := List.mem_map.mp hblock
    exact BitVectorBlock.finalized_finalize _
  refine ⟨bv',hok ▸ hrun,?_⟩
  have hshows := BitVectorIterator.shows_tids (hs.nums.trans hnew.nums) (hs.finalized hfinal)
  have hbits : (List.range t.num).filter (fun pos => BitVector.bit bv' (pos/kNumCodesPerBlock)
      (pos%kNumCodesPerBlock)) =
      (List.range t.num).filter fun pos => comparator.test literal (c.code pos) := by
    refine List.filter_congr fun pos hpos => ?_
    have hdiv : pos/kNumCodesPerBlock*kNumCodesPerBlock+pos%kNumCodesPerBlock = pos :=
      Nat.div_add_mod' pos _
    rw [hs.bit _ _ (Nat.mod_lt pos kNumCodesPerBlock_pos) (by
      rw [hdiv,hroom]
      exact List.mem_range.mp hpos),hdiv]
    rfl
  exact hbits ▸ hshows

/-- A bulk load fails an assertion exactly if its codes reach behind the room of the resized table.
Otherwise it puts its codes on top of those of the resized column. -/
theorem reachable_bulkload {codes : List ℕ} {pos : ℕ}
    (hfit : t.Fits (.bulkload name codes pos)) (words : Memory) :
    (t.bulkload words name codes pos = none ↔
        codes ≠ [] ∧ room (t.loadedNum codes pos) < pos+codes.length) ∧
      ∀ t', t.bulkload words name codes pos = some t' →
        t'.num = t.loadedNum codes pos ∧
        (∃ c1 c', c.Resized t.num t'.num c1 ∧ t'.getColumn name = some c' ∧ c'.type = c.type ∧
          c'.codeSize = c.codeSize ∧ ∀ p < room t'.num, c'.code p =
            if pos ≤ p ∧ p < pos+codes.length then c.type.put (c1.code p) (codes.getD (p-pos) 0)
            else c1.code p) ∧
        ∀ name' ≠ name, Option.Rel (fun d d' => d.Resized t.num t'.num d') (t.getColumn name')
          (t'.getColumn name') := by
  by_cases hroom : codes = [] ∨ pos+codes.length ≤ room (t.loadedNum codes pos)
  · obtain ⟨t',c1,c',hrun,_,hnum,hres,hc',_,htype,hsize,hcode,hothers⟩ :=
      bulkload_some h.sound hc hfit words hroom
    refine ⟨?_,fun t1 ht1 => ?_⟩
    · rw [hrun]
      refine ⟨fun hnone => (Option.some_ne_none _ hnone).elim,fun hover => ?_⟩
      rcases hroom with hnil | hle
      · exact absurd hnil hover.1
      · exact absurd hle (Nat.not_le.mpr hover.2)
    · rw [hrun] at ht1
      obtain rfl := Option.some.inj ht1
      exact ⟨hnum,⟨c1,c',hres,hc',htype,hsize,fun p _ => hcode p⟩,hothers⟩
  · obtain ⟨hnil,hover⟩ := not_or.mp hroom
    have hnone := bulkload_none h.sound hc hfit words hnil (Nat.not_le.mp hover)
    refine ⟨⟨fun _ => ⟨hnil,Nat.not_le.mp hover⟩,fun _ => hnone⟩,fun t1 ht1 => ?_⟩
    rw [hnone] at ht1
    cases ht1

end Reachable

/-! ## A small table -/

/-- The table of the grid index. -/
theorem exists_gridTable :
    ∃ (t : TableRep) (c c' : ColumnRep), Reachable t ∧ t.num = 4 ∧
      t.getColumn (toString 0) = some c ∧ t.getColumn (toString 1) = some c' ∧
      c.type = .kBitWeavingV ∧ c.codeSize = 3 ∧ c'.type = .kBitWeavingV ∧ c'.codeSize = 3 ∧
      ∀ tid < 4, c.code tid = gridStore.value tid 0 := by
  obtain ⟨t,ht⟩ := BitWeavingTable.gridIndex_isSome
  obtain ⟨hload,_⟩ := BitWeavingTable.loading_of_built (by decide) (by decide) ht (by decide)
  obtain ⟨c,hc,htype,hsize,_,hcode⟩ := hload.exists_column (show 0 < gridStore.numDim by decide)
  obtain ⟨c',hc',htype',hsize',_⟩ := hload.exists_column (show 1 < gridStore.numDim by decide)
  exact ⟨t,c,c',hload.runs.mono fun _ _ h => h.1,hload.num_eq (by decide),hc,hc',htype,hsize,
    htype',hsize',hcode⟩

theorem reachable_scanColumn_grid :
    ∃ (t : TableRep) (c column : ColumnRep) (bv : BitVector), Reachable t ∧
      t.getColumn (toString 0) = some c ∧ t.getColumn (toString 1) = some column ∧
      c.scanColumn column .kLess (fun _ _ => 0) .kOr (BitVector.ofTable t.num fun _ _ => 5#64) =
        some (scanStatus false t.num,bv) := by
  obtain ⟨t,c,column,h,_,hc,hc',htype,hsize,htype',hsize',_⟩ := exists_gridTable
  have hnew := BitVector.Selected.ofTable t.num fun _ _ => 5#64
  obtain ⟨bv,hrun,_⟩ := (reachable_scanColumn h hc hc' hnew.nums .kLess (fun _ _ => 0) .kOr).1
    (.inr ⟨htype'.trans htype.symm,hsize'.trans hsize.symm⟩)
  exact ⟨t,c,column,bv,h,hc,hc',hrun⟩

theorem reachable_iterate_grid :
    ∃ (t : TableRep) (c : ColumnRep) (bv : BitVector), Reachable t ∧
      t.getColumn (toString 0) = some c ∧
      c.scan 3 .kEqual .kSet (BitVector.ofTable t.num fun _ _ => 5#64) = some (.ok,bv) ∧
      Iteration.Shows (BitVectorIterator.next bv t.num) (·.pos) BitVectorIterator.start
        ((List.range t.num).filter fun pos => Comparator.kEqual.test 3 (c.code pos)) := by
  obtain ⟨t,c,_,h,hnum,hc,_,htype,hsize,_⟩ := exists_gridTable
  obtain ⟨bv,hrun,hshows⟩ := reachable_iterate h hc (.inl (by rw [hnum]; decide)) .kEqual
    (show c.type.fits c.codeSize 3 = true by rw [htype,hsize]; rfl) fun _ _ => 5#64
  exact ⟨t,c,bv,h,hc,hrun,hshows⟩

/-- One more code behind the four of the grid. -/
theorem reachable_bulkload_grid :
    ∃ (t : TableRep) (c : ColumnRep), Reachable t ∧ t.getColumn (toString 0) = some c ∧
      t.bulkload (fun _ _ _ => 7#64) (toString 0) [6] 4 ≠ none := by
  obtain ⟨t,c,_,h,hnum,hc,_,_,hsize,_⟩ := exists_gridTable
  have hfit : t.Fits (.bulkload (toString 0) [6] 4) := by
    refine ⟨by decide,fun c' hc' code hcode => ?_⟩
    rw [hc] at hc'
    obtain rfl := Option.some.inj hc'
    obtain rfl := List.mem_singleton.mp hcode
    rw [hsize]
    decide
  have hiff := (reachable_bulkload h hc hfit fun _ _ _ => 7#64).1
  refine ⟨t,c,h,hc,hiff.not.mpr fun hover => ?_⟩
  have hroom : room (t.loadedNum [6] 4) = 5 := by
    rw [loadedNum,hnum]
    decide
  rw [hroom] at hover
  exact absurd hover.2 (by decide)

end TableRep

end ElfIndex.Bitweaving
