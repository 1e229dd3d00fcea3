import ElfIndex.Bitweaving.TableRuns

/-! # Scans of the columns of a table

A scan of a column is the scans of its blocks side by side with those of the bit vector. All
codes that the column has room for are answered. If the number of tuples is a multiple of the
block size, the last block has no codes: a packed one refuses its part of the bit vector, which
then keeps its bits, and a naive one clears it.
-/
namespace ElfIndex.Bitweaving
open ColumnBlock (lengthError)

variable {N : ℕ} {clears : Bool} {bitvector : BitVector} {opt : BitVectorOpt}

/-! ## Blocks side by side -/

section Lockstep

variable {β : Type} {scan : β → BitVectorBlock → Option (Status × BitVectorBlock)} {l : List β}
  {r : ℕ → BitVectorBlock → BitVectorBlock → Prop}

/-- The scan goes on behind blocks that are all answered. -/
theorem scanBlocks_append (scan : β → BitVectorBlock → Option (Status × BitVectorBlock))
    (opt : BitVectorOpt) (hlen : l.length = bitvector.length)
    (h : ∀ (i : ℕ) x block, l[i]? = some x → bitvector[i]? = some block →
      ∃ out, scan x block = some (.ok,out) ∧ r i block out) (l' : List β) (bitvector' : BitVector) :
    ∃ out : BitVector, out.length = bitvector.length ∧
      (∀ (i : ℕ) block o, bitvector[i]? = some block → out[i]? = some o → r i block o) ∧
      scanBlocks scan opt (l ++ l') (bitvector ++ bitvector') =
        (scanBlocks scan opt l' bitvector').map fun s => (s.1,out ++ s.2) := by
  induction l generalizing bitvector r with
  | nil =>
    obtain rfl := List.eq_nil_of_length_eq_zero hlen.symm
    refine ⟨[],rfl,fun i block _ hblock => absurd hblock (by simp),?_⟩
    simp
  | cons x l ih =>
    obtain ⟨block,bitvector,rfl⟩ := List.exists_cons_of_length_eq_add_one hlen.symm
    obtain ⟨o,hscan,ho⟩ := h 0 x block rfl rfl
    obtain ⟨out,hout,hr,hrun⟩ := ih (r:=fun i => r (i+1)) (Nat.succ.inj hlen) fun i => h (i+1)
    refine ⟨o::out,congrArg (·+1) hout,?_,?_⟩
    · intro i block' o' hblock ho'
      cases i with
      | zero =>
        obtain rfl := Option.some.inj hblock
        obtain rfl := Option.some.inj ho'
        exact ho
      | succ i => exact hr i block' o' hblock ho'
    · rw [List.cons_append,List.cons_append,scanBlocks,hscan]
      simp only [Option.bind_eq_bind,Option.bind_some,ne_eq,not_true_eq_false,if_false,hrun]
      cases scanBlocks scan opt l' bitvector' <;> rfl

end Lockstep

/-! ## Bit vectors of a table -/

/-- `bv'` combines the bits of `bv` with the answers for the positions that a column over `N`
tuples has room for; the others are cleared or kept. -/
structure Combined (clears : Bool) (N : ℕ) (opt : BitVectorOpt) (answer : ℕ → Bool)
    (bv bv' : BitVector) : Prop where
  nums : bv'.map (·.num) = bv.map (·.num)
  finalized : (∀ block ∈ bv, block.Finalized) → ∀ block ∈ bv', block.Finalized
  bit : ∀ blockId k, k < kNumCodesPerBlock → blockId*kNumCodesPerBlock+k < room N →
    bv'.bit blockId k = opt.combine (bv.bit blockId k) (answer (blockId*kNumCodesPerBlock+k))
  missed : ∀ blockId k, k < kNumCodesPerBlock → room N ≤ blockId*kNumCodesPerBlock+k →
    blockId*kNumCodesPerBlock+k < N →
    bv'.bit blockId k = if clears then false else bv.bit blockId k

/-- The status of a scan over `N` tuples. -/
def scanStatus (clears : Bool) (N : ℕ) : Status :=
  if room N < N ∧ clears = false then lengthError else .ok

theorem room_le (N : ℕ) : room N ≤ N := by
  unfold room
  split <;> omega

theorem room_lt_iff : room N < N ↔ 0 < N ∧ N%kNumCodesPerBlock = 0 := by
  have hpos := kNumCodesPerBlock_pos
  unfold room
  by_cases h : N%kNumCodesPerBlock = 0
  · rw [if_pos h]
    omega
  · rw [if_neg h]
    omega

theorem getElem?_num_of_blockNums (hbv : bitvector.map (·.num) = BitVector.blockNums N) {i : ℕ}
    {block : BitVectorBlock} (h : bitvector[i]? = some block) :
    block.num = Blocks.blockSize N kNumCodesPerBlock i ∧ i < numColumnBlocks N := by
  have hget := congrArg (·[i]?) hbv
  simp only [List.getElem?_map,h,Option.map_some,BitVector.blockNums] at hget
  obtain ⟨j,hj,hnum⟩ := Option.map_eq_some_iff.mp hget.symm
  obtain ⟨hi,rfl⟩ := List.getElem?_eq_some_iff.mp hj
  rw [List.length_range] at hi
  rw [List.getElem_range] at hnum
  exact ⟨hnum.symm,hi⟩

theorem length_of_blockNums (hbv : bitvector.map (·.num) = BitVector.blockNums N) :
    bitvector.length = numColumnBlocks N := by
  have hlen := congrArg List.length hbv
  rwa [List.length_map,BitVector.blockNums,List.length_map,List.length_range] at hlen

theorem BitVector.bit_of_getElem? {bv : BitVector} {i : ℕ} {block : BitVectorBlock}
    (h : bv[i]? = some block) (k : ℕ) : bv.bit i k = block.bit k := by
  rw [BitVector.bit,h]

/-- The last block, if it has no codes. -/
def Missed (N i : ℕ) : Prop := room N < N ∧ i+1 = numColumnBlocks N

theorem missed_iff {i k : ℕ} (hk : k < kNumCodesPerBlock) (hlt : i*kNumCodesPerBlock+k < N) :
    Missed N i ↔ room N ≤ i*kNumCodesPerBlock+k := by
  rw [Missed,room_lt_iff,room,numColumnBlocks]
  by_cases hmod : N%kNumCodesPerBlock = 0
  · rw [if_pos hmod]
    simp only [kNumCodesPerBlock] at *
    omega
  · rw [if_neg hmod]
    omega

/-- Only the last block may be shorter than its part of the bit vector. -/
theorem blockNum_eq {i : ℕ} (hi : i < numColumnBlocks N) (h : ¬Missed N i) :
    blockNum N i = Blocks.blockSize N kNumCodesPerBlock i := by
  have hsplit := Nat.div_add_mod' N kNumCodesPerBlock
  rw [Missed,room_lt_iff] at h
  unfold blockNum Blocks.blockSize
  unfold numColumnBlocks at *
  by_cases hlast : i+1 = (N+kNumCodesPerBlock-1)/kNumCodesPerBlock
  · rw [if_pos hlast]
    have hmod : N%kNumCodesPerBlock ≠ 0 ∨ N = 0 := by omega
    clear h
    simp only [kNumCodesPerBlock] at *
    omega
  · rw [if_neg hlast]
    clear h
    simp only [kNumCodesPerBlock] at *
    omega

theorem blockNum_missed {i : ℕ} (h : Missed N i) : blockNum N i = 0 := by
  rw [blockNum,if_pos h.2,(room_lt_iff.mp h.1).2]

/-- The result of a block of a column. -/
structure BlockResult (clears : Bool) (opt : BitVectorOpt) (answer : ℕ → Bool) (N i : ℕ)
    (block o : BitVectorBlock) : Prop where
  answered : ¬Missed N i → Answered opt (fun k => answer (i*kNumCodesPerBlock+k)) block o
  missed : Missed N i → o = if clears then block.setZeros else block

variable {answer : ℕ → Bool} {i : ℕ} {block o : BitVectorBlock}

theorem BlockResult.num (h : BlockResult clears opt answer N i block o) : o.num = block.num := by
  by_cases hmissed : Missed N i
  · rw [h.missed hmissed]
    split
    · exact block.num_setZeros
    · rfl
  · exact (h.answered hmissed).num

theorem BlockResult.finalized (h : BlockResult clears opt answer N i block o)
    (hf : block.Finalized) : o.Finalized := by
  by_cases hmissed : Missed N i
  · rw [h.missed hmissed]
    split
    · exact BitVectorBlock.finalized_finalize _
    · exact hf
  · exact (h.answered hmissed).finalized hf

/-- The blocks together. -/
theorem combined_of_blocks (hbv : bitvector.map (·.num) = BitVector.blockNums N) {out : BitVector}
    (hlen : out.length = bitvector.length)
    (hr : ∀ (i : ℕ) block o, bitvector[i]? = some block → out[i]? = some o →
      BlockResult clears opt answer N i block o) :
    Combined clears N opt answer bitvector out := by
  have hget : ∀ i < bitvector.length, ∃ block o, bitvector[i]? = some block ∧
      out[i]? = some o ∧ BlockResult clears opt answer N i block o := by
    intro i hi
    have hblock := List.getElem?_eq_getElem hi
    have ho := List.getElem?_eq_getElem (hi.trans_eq hlen.symm)
    exact ⟨_,_,hblock,ho,hr i _ _ hblock ho⟩
  have hcode : ∀ blockId k, k < kNumCodesPerBlock → blockId*kNumCodesPerBlock+k < N →
      ∃ block o, bitvector[blockId]? = some block ∧ out[blockId]? = some o ∧
        BlockResult clears opt answer N blockId block o ∧ k < block.num := by
    intro blockId k hk hlt
    have hi : blockId < bitvector.length := by
      rw [length_of_blockNums hbv]
      exact (Blocks.lt_numBlocks kNumCodesPerBlock_pos).mpr (by omega)
    obtain ⟨block,o,hblock,ho,hres⟩ := hget blockId hi
    refine ⟨block,o,hblock,ho,hres,?_⟩
    rw [(getElem?_num_of_blockNums hbv hblock).1]
    exact Blocks.lt_blockSize.mpr ⟨hk,hlt⟩
  refine ⟨?_,?_,?_,?_⟩
  · refine List.ext_getElem (by simp [hlen]) fun i hi hi' => ?_
    rw [List.length_map] at hi hi'
    obtain ⟨block,o,hblock,ho,hres⟩ := hget i hi'
    obtain ⟨_,rfl⟩ := List.getElem?_eq_some_iff.mp hblock
    obtain ⟨_,rfl⟩ := List.getElem?_eq_some_iff.mp ho
    rw [List.getElem_map,List.getElem_map]
    exact hres.num
  · intro hf o ho
    obtain ⟨i,hi,rfl⟩ := List.mem_iff_getElem.mp ho
    obtain ⟨block,o,hblock,ho,hres⟩ := hget i (hi.trans_eq hlen)
    rw [List.getElem?_eq_getElem hi] at ho
    obtain rfl := Option.some.inj ho
    exact hres.finalized (hf block (List.mem_of_getElem? hblock))
  · intro blockId k hk hroom
    have hlt := hroom.trans_le (room_le N)
    obtain ⟨block,o,hblock,ho,hres,hnum⟩ := hcode blockId k hk hlt
    have hfront := (missed_iff hk hlt).not.mpr (Nat.not_le.mpr hroom)
    rw [BitVector.bit_of_getElem? ho,BitVector.bit_of_getElem? hblock]
    exact (hres.answered hfront).bit k hnum
  · intro blockId k hk hroom hlt
    obtain ⟨block,o,hblock,ho,hres,hnum⟩ := hcode blockId k hk hlt
    rw [BitVector.bit_of_getElem? ho,BitVector.bit_of_getElem? hblock,
      hres.missed ((missed_iff hk hlt).mpr hroom)]
    split
    · exact block.bit_setZeros hnum
    · rfl

/-- There is nothing to scan in an empty table. -/
theorem scanBlocks_nil {β : Type}
    (scan : β → BitVectorBlock → Option (Status × BitVectorBlock)) (opt : BitVectorOpt)
    (l : List β) (hbv : bitvector.map (·.num) = BitVector.blockNums 0) :
    scanBlocks scan opt l bitvector = some (.ok,bitvector) := by
  have hlen := length_of_blockNums hbv
  have hzero : numColumnBlocks 0 = 0 := (shaped_nil (n:=0) .kNaive).length.symm
  obtain rfl := List.eq_nil_of_length_eq_zero (hlen.trans hzero)
  rw [scanBlocks]

section Spec

variable {β : Type} {scan : β → BitVectorBlock → Option (Status × BitVectorBlock)} {l : List β}

/-- A scan over the blocks of a table. -/
theorem scanBlocks_spec (hbv : bitvector.map (·.num) = BitVector.blockNums N)
    (hlen : l.length = numColumnBlocks N)
    (hfront : ∀ (i : ℕ) x block, l[i]? = some x → bitvector[i]? = some block → ¬Missed N i →
      ∃ out, scan x block = some (.ok,out) ∧
        Answered opt (fun k => answer (i*kNumCodesPerBlock+k)) block out)
    (hlast : ∀ (i : ℕ) x block, l[i]? = some x → bitvector[i]? = some block → Missed N i →
      scan x block =
        some (scanStatus clears N,if clears then block.setZeros else block)) :
    ∃ bv', scanBlocks scan opt l bitvector = some (scanStatus clears N,bv') ∧
      Combined clears N opt answer bitvector bv' := by
  have hblocks : l.length = bitvector.length := hlen.trans (length_of_blockNums hbv).symm
  by_cases hmissed : room N < N
  · -- the last block has no codes
    have hpos : 0 < l.length := by
      have hmod := room_lt_iff.mp hmissed
      rw [hlen]
      exact (Blocks.lt_numBlocks kNumCodesPerBlock_pos).mpr (by omega)
    have hne := List.ne_nil_of_length_pos hpos
    have hne' : bitvector ≠ [] := List.ne_nil_of_length_pos (hblocks ▸ hpos)
    have hend : l[l.length-1]? = some (l.getLast hne) := by
      rw [List.getLast_eq_getElem,List.getElem?_eq_getElem]
    have hend' : bitvector[l.length-1]? = some (bitvector.getLast hne') := by
      rw [hblocks,List.getLast_eq_getElem,List.getElem?_eq_getElem]
    have hm : Missed N (l.length-1) := ⟨hmissed,by omega⟩
    have hscan := hlast _ _ _ hend hend' hm
    have hdrop : l.dropLast.length = bitvector.dropLast.length := by
      rw [List.length_dropLast,List.length_dropLast,hblocks]
    obtain ⟨out,hout,hr,hrun⟩ := scanBlocks_append scan opt hdrop
      (r:=fun i block o => Answered opt (fun k => answer (i*kNumCodesPerBlock+k)) block o) (by
        intro i x block hx hblock
        rw [List.getElem?_dropLast] at hx hblock
        split at hx
        · rw [if_pos (by omega)] at hblock
          refine hfront i x block hx hblock fun h => ?_
          have := h.2
          omega
        · cases hx) [l.getLast hne] [bitvector.getLast hne']
    rw [List.dropLast_concat_getLast,List.dropLast_concat_getLast] at hrun
    rw [List.length_dropLast] at hout
    refine ⟨out ++ [if clears then (bitvector.getLast hne').setZeros
      else bitvector.getLast hne'],?_,combined_of_blocks hbv ?_ ?_⟩
    · rw [hrun,scanBlocks,hscan]
      simp only [Option.bind_eq_bind,Option.bind_some]
      by_cases hok : scanStatus clears N = .ok
      · rw [if_neg (not_not.mpr hok),scanBlocks,hok]
        rfl
      · rw [if_pos hok]
        rfl
    · rw [List.length_append,hout,List.length_singleton]
      omega
    · intro i block o hblock ho
      obtain ⟨hi,_⟩ := List.getElem?_eq_some_iff.mp hblock
      by_cases hlt : i = l.length-1
      · subst hlt
        have hzero : l.length-1-out.length = 0 := by omega
        rw [hend'] at hblock
        rw [List.getElem?_append_right (by omega),hzero] at ho
        obtain rfl := Option.some.inj hblock
        obtain rfl := Option.some.inj ho
        exact ⟨fun hn => absurd hm hn,fun _ => rfl⟩
      · have hm : ¬Missed N i := fun h => by
          have := h.2
          omega
        rw [List.getElem?_append_left (by omega)] at ho
        refine ⟨fun _ => hr i block o ?_ ho,fun h => absurd h hm⟩
        rw [List.getElem?_dropLast,if_pos (by omega),hblock]
  · have hm : ∀ i, ¬Missed N i := fun i h => hmissed h.1
    obtain ⟨out,hout,hr,hrun⟩ := scanBlocks_append scan opt hblocks
      (r:=fun i block o => Answered opt (fun k => answer (i*kNumCodesPerBlock+k)) block o)
      (fun i x block hx hblock => hfront i x block hx hblock (hm i)) [] []
    rw [List.append_nil,List.append_nil] at hrun
    refine ⟨out,?_,combined_of_blocks hbv hout fun i block o hblock ho =>
      ⟨fun _ => hr i block o hblock ho,fun h => absurd h (hm i)⟩⟩
    rw [hrun,scanBlocks,scanStatus,if_neg (fun h => hmissed h.1)]
    simp

end Spec

/-! ## Columns -/

theorem codeAt_block {n : ℕ} {blocks : List (ColumnBlock n)} {b : ColumnBlock n} {i k : ℕ}
    (hb : blocks[i]? = some b) (hk : k < kNumCodesPerBlock) :
    codeAt blocks (i*kNumCodesPerBlock+k) = b.code k := by
  have hdiv : (i*kNumCodesPerBlock+k)/kNumCodesPerBlock = i := by
    rw [Nat.mul_comm,Nat.mul_add_div kNumCodesPerBlock_pos,Nat.div_eq_of_lt hk,Nat.add_zero]
  have hmod : (i*kNumCodesPerBlock+k)%kNumCodesPerBlock = k := by
    rw [Nat.mul_comm,Nat.mul_add_mod,Nat.mod_eq_of_lt hk]
  rw [codeAt_of_getElem? (b:=b) (by rw [hdiv]; exact hb),hmod]

theorem Answered.congr {test test' : ℕ → Bool} {block out : BitVectorBlock}
    (h : Answered opt test block out) (htest : ∀ k < block.num, test k = test' k) :
    Answered opt test' block out :=
  ⟨h.num,fun k hk => (h.bit k hk).trans (by rw [htest k hk]),h.finalized,h.rest⟩

namespace ColumnRep

variable {c column : ColumnRep} (h : c.Sound N)
  (hbv : bitvector.map (·.num) = BitVector.blockNums N)

include h hbv

/-- Scans of blocks that answer for their codes answer for those of the column. -/
theorem scanBlocks_sound (test : ℕ → Bool)
    {scan : ColumnBlock c.codeSize → BitVectorBlock → Option (Status × BitVectorBlock)}
    (hanswered : ∀ b block, b.Valid → b.columnType = c.type → block.num = b.num →
      ∃ out, scan b block = some (.ok,out) ∧ Answered opt (fun k => test (b.code k)) block out)
    (hempty : ∀ b block, b.num = 0 → block.num ≠ 0 →
      scan b block = if b.columnType.clears then some (.ok,block.setZeros) else some (lengthError,block)) :
    ∃ bv', scanBlocks scan opt c.blocks bitvector = some (scanStatus c.type.clears N,bv') ∧
      Combined c.type.clears N opt (fun pos => test (c.code pos)) bitvector bv' := by
  refine scanBlocks_spec hbv h.shaped.length ?_ ?_
  · intro i b block hb hblock hm
    have hmem := List.mem_of_getElem? hb
    obtain ⟨hnum,hi⟩ := getElem?_num_of_blockNums hbv hblock
    obtain ⟨out,hrun,hout⟩ := hanswered b block (h.shaped.valid b hmem)
      (h.shaped.columnType b hmem) (by rw [hnum,h.shaped.num i b hb,blockNum_eq hi hm])
    refine ⟨out,hrun,hout.congr fun k hk => ?_⟩
    rw [hnum] at hk
    rw [ColumnRep.code,codeAt_block hb (Blocks.lt_blockSize.mp hk).1]
  · intro i b block hb hblock hm
    obtain ⟨hnum,hi⟩ := getElem?_num_of_blockNums hbv hblock
    have hpos := Blocks.blockSize_pos ((Blocks.lt_numBlocks kNumCodesPerBlock_pos).mp hi)
      kNumCodesPerBlock_pos
    rw [hempty b block (by rw [h.shaped.num i b hb,blockNum_missed hm]) (by omega),
      h.shaped.columnType b (List.mem_of_getElem? hb),scanStatus]
    cases c.type.clears with
    | true => simp
    | false => simp [hm.1]

/-- `Column::Scan` with a literal. -/
theorem scan_spec (comparator : Comparator) {literal : ℕ}
    (hfits : c.type.fits c.codeSize literal = true) (opt : BitVectorOpt) :
    ∃ bv', c.scan literal comparator opt bitvector = some (scanStatus c.type.clears N,bv') ∧
      Combined c.type.clears N opt (fun pos => comparator.test literal (c.code pos)) bitvector
        bv' := by
  refine scanBlocks_sound h hbv (comparator.test literal) ?_ ?_
  · intro b block hvalid htype hnum
    exact ColumnBlock.scan_answered h.le hvalid hnum opt comparator (by rw [htype]; exact hfits)
  · intro b block hempty hne
    exact ColumnBlock.scan_empty b block comparator literal opt hempty hne

theorem scanBetween_spec {literal1 literal2 : ℕ} (h1 : c.type.fits c.codeSize literal1 = true)
    (h2 : c.type.fits c.codeSize literal2 = true) (opt : BitVectorOpt) :
    ∃ bv', c.scanBetween literal1 literal2 opt bitvector = some (scanStatus c.type.clears N,bv') ∧
      Combined c.type.clears N opt (fun pos => isIn literal1 literal2 (c.code pos)) bitvector
        bv' := by
  refine scanBlocks_sound h hbv (isIn literal1 literal2) ?_ ?_
  · intro b block hvalid htype hnum
    exact ColumnBlock.scanBetween_answered h.le hvalid hnum opt (by rw [htype]; exact h1)
      (by rw [htype]; exact h2)
  · intro b block hempty hne
    exact ColumnBlock.scanBetween_empty b block literal1 literal2 opt hempty hne

/-- A scan ends at a first block that refuses. -/
theorem scanBlocks_refused (hpos : 0 < N)
    {scan : ColumnBlock c.codeSize → BitVectorBlock → Option (Status × BitVectorBlock)}
    (hrefused : ∀ b block, b.columnType = c.type →
      ∃ text, scan b block = some (.invalidArgument text,block)) :
    ∃ text, scanBlocks scan opt c.blocks bitvector = some (.invalidArgument text,bitvector) := by
  have hblock := (Blocks.lt_numBlocks (m:=0) (n:=N) kNumCodesPerBlock_pos).mpr (by omega)
  have hlen := h.shaped.length
  have hlen' := length_of_blockNums hbv
  have htypes := h.shaped.columnType
  change 0 < numColumnBlocks N at hblock
  generalize c.blocks = blocks at hlen htypes
  obtain ⟨b,blocks,rfl⟩ := List.exists_cons_of_length_pos (hlen.symm ▸ hblock)
  obtain ⟨block,bitvector,rfl⟩ := List.exists_cons_of_length_pos (hlen'.symm ▸ hblock)
  obtain ⟨text,hrun⟩ := hrefused b block (htypes b List.mem_cons_self)
  refine ⟨text,?_⟩
  rw [scanBlocks,hrun]
  rfl

/-- A literal that does not fit leaves the bit vector alone. -/
theorem scan_refused (hpos : 0 < N) (comparator : Comparator) {literal : ℕ}
    (hfits : c.type.fits c.codeSize literal = false) (opt : BitVectorOpt) :
    ∃ text, c.scan literal comparator opt bitvector =
      some (.invalidArgument text,bitvector) := by
  refine scanBlocks_refused h hbv hpos fun b block htype => ?_
  have hfits' : b.columnType.fits c.codeSize literal = false := by rw [htype]; exact hfits
  by_cases hnum : block.num = b.num
  · exact ⟨_,ColumnBlock.scan_rejected hnum opt comparator hfits'⟩
  · exact ⟨_,ColumnBlock.scan_length b block comparator literal opt
      (ColumnType.packed_of_fits hfits') hnum⟩

theorem scanBetween_refused (hpos : 0 < N) {literal1 literal2 : ℕ}
    (hfits : (c.type.fits c.codeSize literal1 && c.type.fits c.codeSize literal2) = false)
    (opt : BitVectorOpt) :
    ∃ text, c.scanBetween literal1 literal2 opt bitvector =
      some (.invalidArgument text,bitvector) := by
  refine scanBlocks_refused h hbv hpos fun b block htype => ?_
  have hfits' : (b.columnType.fits c.codeSize literal1 && b.columnType.fits c.codeSize literal2) =
      false := by rw [htype]; exact hfits
  by_cases hnum : block.num = b.num
  · exact ColumnBlock.scanBetween_rejected hnum opt hfits'
  · refine ⟨_,ColumnBlock.scanBetween_length b block literal1 literal2 opt ?_ hnum⟩
    rcases Bool.and_eq_false_iff.mp hfits' with h | h
    · exact ColumnType.packed_of_fits h
    · exact ColumnType.packed_of_fits h

end ColumnRep

/-! ## Two columns -/

section Columns

variable {n n' : ℕ}

/-- Blocks of two columns of one table side by side. -/
theorem scanColumnBlocks_eq
    (scan : ℕ → ColumnBlock n → ColumnBlock n' → BitVectorBlock → Option (Status × BitVectorBlock))
    (opt : BitVectorOpt) (blockId : ℕ) {blocks : List (ColumnBlock n)}
    {blocks' : List (ColumnBlock n')} {bitvector : BitVector}
    (hlen' : blocks'.length = blocks.length) (hlen : bitvector.length = blocks.length) :
    scanColumnBlocks scan opt blockId blocks blocks' bitvector =
      scanBlocks (fun x block => scan x.1 x.2.1 x.2.2 block) opt
        ((List.range' blockId blocks.length).zip (blocks.zip blocks')) bitvector := by
  induction blocks generalizing blockId blocks' bitvector with
  | nil =>
    obtain rfl := List.eq_nil_of_length_eq_zero hlen
    rfl
  | cons b blocks ih =>
    obtain ⟨b',blocks',rfl⟩ := List.exists_cons_of_length_eq_add_one hlen'
    obtain ⟨block,bitvector,rfl⟩ := List.exists_cons_of_length_eq_add_one hlen
    have hrest := ih (blockId+1) (Nat.succ.inj hlen') (Nat.succ.inj hlen)
    rw [scanColumnBlocks,List.length_cons,List.range'_succ,List.zip_cons_cons,List.zip_cons_cons,
      scanBlocks,hrest]

end Columns

namespace ColumnRep

variable {c column : ColumnRep} (h : c.Sound N) (h' : column.Sound N)
  (hbv : bitvector.map (·.num) = BitVector.blockNums N) (comparator : Comparator)
  (stale : ℕ → ℕ → ℕ) (opt : BitVectorOpt)

include h h' hbv

/-- `Column::Scan` with another column of the table. -/
theorem scanColumn_spec
    (hcomp : c.type = .kNaive ∨ column.type = c.type ∧ column.codeSize = c.codeSize) :
    ∃ bv', c.scanColumn column comparator stale opt bitvector = some (scanStatus false N,bv') ∧
      Combined false N opt (fun pos => comparator.test (column.code pos%2^32) (c.code pos))
        bitvector bv' := by
  have hlen := h.shaped.length
  have hlen' := h'.shaped.length
  rw [scanColumn,scanColumnBlocks_eq _ opt 0 (hlen'.trans hlen.symm)
    ((length_of_blockNums hbv).trans hlen.symm)]
  refine scanBlocks_spec hbv (by simp [hlen,hlen']) ?_ ?_
  · intro i x block hx hblock hm
    obtain ⟨_,hx⟩ := List.getElem?_zip_eq_some.mp hx
    obtain ⟨hb,hb'⟩ := List.getElem?_zip_eq_some.mp hx
    have hmem := List.mem_of_getElem? hb
    have hmem' := List.mem_of_getElem? hb'
    obtain ⟨hnum,hi⟩ := getElem?_num_of_blockNums hbv hblock
    have hsame : block.num = x.2.1.num := by rw [hnum,h.shaped.num i _ hb,blockNum_eq hi hm]
    have hsame' : x.2.2.num = x.2.1.num := by rw [h.shaped.num i _ hb,h'.shaped.num i _ hb']
    obtain ⟨out,hrun,hout⟩ := ColumnBlock.scanColumn_answered (stale x.1) hsame hsame' comparator
      opt h.le h'.le
      (h.shaped.valid _ hmem) (h'.shaped.valid _ hmem') (by
        rw [h.shaped.columnType _ hmem,h'.shaped.columnType _ hmem']
        exact hcomp)
    refine ⟨out,hrun,hout.congr fun k hk => ?_⟩
    rw [hnum] at hk
    have hk := (Blocks.lt_blockSize.mp hk).1
    rw [ColumnRep.code,ColumnRep.code,codeAt_block hb hk,codeAt_block hb' hk]
  · intro i x block hx hblock hm
    obtain ⟨_,hx⟩ := List.getElem?_zip_eq_some.mp hx
    obtain ⟨hb,_⟩ := List.getElem?_zip_eq_some.mp hx
    obtain ⟨hnum,hi⟩ := getElem?_num_of_blockNums hbv hblock
    have hpos := Blocks.blockSize_pos ((Blocks.lt_numBlocks kNumCodesPerBlock_pos).mp hi)
      kNumCodesPerBlock_pos
    rw [ColumnBlock.scanColumn_length (stale x.1) _ _ comparator opt
      (by rw [h.shaped.num i _ hb,blockNum_missed hm]; omega),scanStatus,if_pos ⟨hm.1,rfl⟩]
    rfl

/-- Columns that are not stored alike are refused. -/
theorem scanColumn_refused (hpos : 0 < N)
    (hcomp : ¬(c.type = .kNaive ∨ column.type = c.type ∧ column.codeSize = c.codeSize)) :
    ∃ text, c.scanColumn column comparator stale opt bitvector =
      some (.invalidArgument text,bitvector) := by
  have hblock := (Blocks.lt_numBlocks (m:=0) (n:=N) kNumCodesPerBlock_pos).mpr (by omega)
  change 0 < numColumnBlocks N at hblock
  have hlen := h.shaped.length
  have hlen' := h'.shaped.length
  have hlen'' := length_of_blockNums hbv
  obtain ⟨b,blocks,hblocks⟩ := List.exists_cons_of_length_pos (hlen.symm ▸ hblock)
  obtain ⟨b',blocks',hblocks'⟩ := List.exists_cons_of_length_pos (hlen'.symm ▸ hblock)
  obtain ⟨block,bitvector,rfl⟩ := List.exists_cons_of_length_pos (hlen''.symm ▸ hblock)
  have hb : c.blocks[0]? = some b := by rw [hblocks]; rfl
  have hb' : column.blocks[0]? = some b' := by rw [hblocks']; rfl
  obtain ⟨text,hrun⟩ : ∃ text, b.scanColumn comparator b' (stale 0) block opt =
      some (.invalidArgument text,block) := by
    by_cases hnum : block.num = b.num
    · refine ColumnBlock.scanColumn_rejected (stale 0) hnum
        (by rw [h.shaped.num 0 _ hb,h'.shaped.num 0 _ hb']) comparator opt ?_
      rw [h.shaped.columnType _ (List.mem_of_getElem? hb),
        h'.shaped.columnType _ (List.mem_of_getElem? hb')]
      exact hcomp
    · exact ⟨_,ColumnBlock.scanColumn_length (stale 0) b b' comparator opt hnum⟩
  refine ⟨text,?_⟩
  rw [scanColumn,hblocks,hblocks',scanColumnBlocks,hrun]
  rfl

end ColumnRep

end ElfIndex.Bitweaving
