import ElfIndex.Lib.Related
import ElfIndex.Bitweaving.Table

/-! # Columns under resizes and bulk loads

Whatever sizes a column had, its blocks have the sizes that belong to the last number of
tuples, and the codes of the blocks that stay are kept. If the number of tuples is a multiple
of the block size, the last block is left without codes, so the column has room for one block
less.
-/
namespace ElfIndex.Bitweaving

variable {n N : ℕ} {type : ColumnType} {blocks : List (ColumnBlock n)} {words : ℕ → ℕ → WordUnit}

theorem numColumnBlocks_eq (num : ℕ) : numColumnBlocks num = Blocks.numBlocks num kNumCodesPerBlock :=
  rfl

/-- The number of codes in block `blockId` after `Resize`. -/
def blockNum (num blockId : ℕ) : ℕ :=
  if blockId+1 = numColumnBlocks num then num%kNumCodesPerBlock else kNumCodesPerBlock

theorem blockNum_le (num blockId : ℕ) : blockNum num blockId ≤ kNumCodesPerBlock := by
  unfold blockNum
  split
  · exact (Nat.mod_lt _ kNumCodesPerBlock_pos).le
  · exact le_rfl

/-- The blocks are sound and have the sizes `nums`. -/
structure Sizes (type : ColumnType) (nums : ℕ → ℕ) (blocks : List (ColumnBlock n)) : Prop where
  valid : ∀ b ∈ blocks, b.Valid
  columnType : ∀ b ∈ blocks, b.columnType = type
  num : ∀ i b, blocks[i]? = some b → b.num = nums i

/-- The blocks of a column over `N` tuples. -/
structure Shaped (type : ColumnType) (N : ℕ) (blocks : List (ColumnBlock n)) : Prop
    extends Sizes type (blockNum N) blocks where
  length : blocks.length = numColumnBlocks N

theorem shaped_nil (type : ColumnType) : Shaped type 0 ([] : List (ColumnBlock n)) := by
  refine ⟨⟨?_,?_,?_⟩,?_⟩
  · exact fun _ hb => absurd hb List.not_mem_nil
  · exact fun _ hb => absurd hb List.not_mem_nil
  · exact fun _ _ hb => absurd hb (by simp)
  · simp [numColumnBlocks,kNumCodesPerBlock]

theorem codeAt_of_getElem? {b : ColumnBlock n} {pos : ℕ}
    (h : blocks[pos/kNumCodesPerBlock]? = some b) :
    codeAt blocks pos = b.code (pos%kNumCodesPerBlock) := by
  rw [codeAt,h]

theorem codeAt_set {i : ℕ} (hi : i < blocks.length) (b : ColumnBlock n) (pos : ℕ) :
    codeAt (blocks.set i b) pos =
      if pos/kNumCodesPerBlock = i then b.code (pos%kNumCodesPerBlock) else codeAt blocks pos := by
  split
  · rename_i hpos
    refine codeAt_of_getElem? ?_
    rw [hpos,List.getElem?_set_self hi]
  · rename_i hpos
    rw [codeAt,codeAt,List.getElem?_set_ne (Ne.symm hpos)]

/-! ## Resizing -/

theorem resizeBlock_spec {nums : ℕ → ℕ} (h : Sizes type nums blocks) {i num : ℕ}
    (hi : i < blocks.length) (hnum : num ≤ kNumCodesPerBlock) :
    ∃ blocks', resizeBlock blocks i num = some blocks' ∧ blocks'.length = blocks.length ∧
      Sizes type (Function.update nums i num) blocks' ∧
      ∀ pos, codeAt blocks' pos = codeAt blocks pos := by
  have hget := List.getElem?_eq_getElem hi
  obtain ⟨b',hresize,hvalid,hb',htype,hcode⟩ := ColumnBlock.resize_spec (b:=blocks[i])
    (h.valid _ (List.getElem_mem hi)) hnum
  refine ⟨blocks.set i b',?_,List.length_set,⟨?_,?_,?_⟩,?_⟩
  · rw [resizeBlock,hget]
    exact congrArg (Option.map _) hresize
  · intro b hb
    rcases List.mem_or_eq_of_mem_set hb with hb | rfl
    · exact h.valid b hb
    · exact hvalid
  · intro b hb
    rcases List.mem_or_eq_of_mem_set hb with hb | rfl
    · exact h.columnType b hb
    · exact htype.trans (h.columnType _ (List.getElem_mem hi))
  · intro j b hj
    by_cases hij : j = i
    · subst hij
      rw [List.getElem?_set_self hi] at hj
      obtain rfl := Option.some.inj hj
      rw [Function.update_self,hb']
    · rw [List.getElem?_set_ne (Ne.symm hij)] at hj
      rw [Function.update_of_ne hij,h.num j b hj]
  · intro pos
    rw [codeAt_set hi]
    split
    · rename_i hpos
      have hold : blocks[pos/kNumCodesPerBlock]? = some blocks[i] := by
        rw [hpos]
        exact hget
      rw [codeAt_of_getElem? hold,hcode]
    · rfl

/-- The blocks that a column gets. -/
theorem addedBlocks_spec (hn : 0 < n) (hn' : n ≤ 32) (type : ColumnType)
    (words : ℕ → ℕ → WordUnit) (l : List ℕ) :
    ∃ added, l.mapM (fun blockId => do
        let columnBlock ← createColumnBlock n type (words blockId)
        columnBlock.resize kNumCodesPerBlock) = some added ∧ added.length = l.length ∧
      ∀ b ∈ added, b.Valid ∧ b.columnType = type ∧ b.num = kNumCodesPerBlock ∧
        (type ≠ .kNaive → ∀ pos, b.code pos = 0) := by
  obtain ⟨added,hrun,hadded⟩ := Related.mapM (l:=l) (f:=fun blockId => do
      let columnBlock ← createColumnBlock n type (words blockId)
      columnBlock.resize kNumCodesPerBlock)
    (r:=fun _ b => b.Valid ∧ b.columnType = type ∧ b.num = kNumCodesPerBlock ∧
      (type ≠ .kNaive → ∀ pos, b.code pos = 0)) (by
    intro blockId _
    have hnew : createColumnBlock n type (words blockId) =
        some (ColumnBlock.create n type (words blockId)) := by
      rw [createColumnBlock,if_neg (by omega),if_neg (fun h => by omega)]
    obtain ⟨b,hresize,hvalid,hnum,htype,hcode⟩ := ColumnBlock.resize_spec
      (ColumnBlock.valid_create hn' type (words blockId)) le_rfl
    refine ⟨b,by rw [hnew]; exact hresize,hvalid,?_,hnum,fun hpacked pos => ?_⟩
    · rw [htype]
      cases type <;> rfl
    · rw [hcode]
      exact ColumnBlock.code_create type hpacked _ pos)
  refine ⟨added,hrun,hadded.length_eq.symm,fun b hb => ?_⟩
  obtain ⟨i,hi,rfl⟩ := List.mem_iff_getElem.mp hb
  exact (List.forall₂_iff_get.mp hadded).2 i (hadded.length_eq ▸ hi) hi

theorem Sizes.congr {nums nums' : ℕ → ℕ} (h : Sizes type nums blocks)
    (heq : ∀ i < blocks.length, nums i = nums' i) : Sizes type nums' blocks :=
  ⟨h.valid,h.columnType,fun i b hb => (h.num i b hb).trans
    (heq i (List.getElem?_eq_some_iff.mp hb).1)⟩

/-- The right number of blocks, all of them full but perhaps the last one. -/
theorem fitBlocks_spec (hn : 0 < n) (hn' : n ≤ 32) (h : Shaped type N blocks)
    (words : ℕ → ℕ → WordUnit) (m : ℕ) :
    ∃ blocks' nums, fitBlocks type words blocks m = some blocks' ∧ blocks'.length = m ∧
      Sizes type nums blocks' ∧ (∀ i, i+1 < m → nums i = kNumCodesPerBlock) ∧
      (∀ pos, pos/kNumCodesPerBlock < m → pos/kNumCodesPerBlock < blocks.length →
        codeAt blocks' pos = codeAt blocks pos) ∧
      (type ≠ .kNaive → ∀ pos, blocks.length ≤ pos/kNumCodesPerBlock → codeAt blocks' pos = 0) := by
  have hfull : ∀ i, i+1 < blocks.length → blockNum N i = kNumCodesPerBlock := by
    intro i hi
    rw [blockNum,if_neg (by rw [← h.length]; omega)]
  unfold fitBlocks
  dsimp only
  by_cases hmore : m > blocks.length
  · rw [if_pos hmore]
    obtain ⟨added,hadd,hlen,hadded⟩ := addedBlocks_spec hn hn' type words
      (List.range' blocks.length (m-blocks.length))
    -- the last block that was there is filled up
    have hold : ∃ blocks1, fillLast blocks = some blocks1 ∧ blocks1.length = blocks.length ∧
        Sizes type (fun _ => kNumCodesPerBlock) blocks1 ∧ ∀ pos, codeAt blocks1 pos = codeAt blocks pos := by
      by_cases hzero : blocks.length > 0
      · obtain ⟨blocks1,hrun,hlen1,hsizes,hcode⟩ := resizeBlock_spec h.toSizes
          (show blocks.length-1 < blocks.length by omega) le_rfl
        refine ⟨blocks1,(if_pos hzero).trans hrun,hlen1,hsizes.congr fun i hi => ?_,hcode⟩
        by_cases hlast : i = blocks.length-1
        · rw [hlast,Function.update_self]
        · rw [Function.update_of_ne hlast,hfull i (by omega)]
      · exact ⟨blocks,if_neg hzero,rfl,h.toSizes.congr fun i hi => by omega,fun _ => rfl⟩
    obtain ⟨blocks1,hrun,hlen1,hsizes,hcode⟩ := hold
    rw [List.length_range'] at hlen
    refine ⟨blocks1 ++ added,fun _ => kNumCodesPerBlock,?_,?_,⟨?_,?_,?_⟩,fun _ _ => rfl,?_,?_⟩
    · rw [hrun,hadd]
      rfl
    · rw [List.length_append,hlen1,hlen]
      omega
    · intro b hb
      exact (List.mem_append.mp hb).elim (hsizes.valid b) fun hb => (hadded b hb).1
    · intro b hb
      exact (List.mem_append.mp hb).elim (hsizes.columnType b) fun hb => (hadded b hb).2.1
    · intro i b hb
      by_cases hi : i < blocks1.length
      · exact hsizes.num i b (by rwa [List.getElem?_append_left hi] at hb)
      · rw [List.getElem?_append_right (Nat.not_lt.mp hi)] at hb
        exact (hadded b (List.mem_of_getElem? hb)).2.2.1
    · intro pos _ hpos
      rw [← hcode pos,codeAt,codeAt,List.getElem?_append_left (hlen1 ▸ hpos)]
    · intro hpacked pos hpos
      rw [codeAt,List.getElem?_append_right (hlen1 ▸ hpos)]
      cases hget : added[pos/kNumCodesPerBlock-blocks1.length]? with
      | none => rfl
      | some b => exact (hadded b (List.mem_of_getElem? hget)).2.2.2 hpacked _
  · rw [if_neg hmore]
    refine ⟨blocks.take m,blockNum N,rfl,?_,⟨?_,?_,?_⟩,fun i hi => hfull i (by omega),?_,?_⟩
    · rw [List.length_take]
      omega
    · exact fun b hb => h.valid b (List.mem_of_mem_take hb)
    · exact fun b hb => h.columnType b (List.mem_of_mem_take hb)
    · intro i b hb
      rw [List.getElem?_take] at hb
      split at hb
      · exact h.num i b hb
      · cases hb
    · intro pos hpos _
      rw [codeAt,codeAt,List.getElem?_take,if_pos hpos]
    · intro _ pos hpos
      rw [codeAt,List.getElem?_take,if_neg (by omega)]

/-- Any resize succeeds and leaves the blocks of the new number of tuples. -/
theorem resizeBlocks_spec (hn : 0 < n) (hn' : n ≤ 32) (h : Shaped type N blocks)
    (words : ℕ → ℕ → WordUnit) (N' : ℕ) :
    ∃ blocks', resizeBlocks type words blocks N' = some blocks' ∧ Shaped type N' blocks' ∧
      (∀ pos, pos/kNumCodesPerBlock < blocks'.length → pos/kNumCodesPerBlock < blocks.length →
        codeAt blocks' pos = codeAt blocks pos) ∧
      (type ≠ .kNaive → ∀ pos, blocks.length ≤ pos/kNumCodesPerBlock → codeAt blocks' pos = 0) := by
  obtain ⟨blocks1,nums,hfit,hlen,hsizes,hfull,hkept,hzero⟩ :=
    fitBlocks_spec hn hn' h words (numColumnBlocks N')
  have hrun : resizeBlocks type words blocks N' = resizeLast blocks1 N' := by
    rw [resizeBlocks,hfit,Option.bind_eq_bind,Option.bind_some]
  by_cases hpos : numColumnBlocks N' > 0
  · obtain ⟨blocks',hlast,hlen',hsizes',hcode⟩ := resizeBlock_spec hsizes
      (show numColumnBlocks N'-1 < blocks1.length by omega)
      (Nat.mod_lt N' kNumCodesPerBlock_pos).le
    refine ⟨blocks',hrun.trans ((if_pos hpos).trans hlast),
      ⟨hsizes'.congr fun i hi => ?_,hlen'.trans hlen⟩,?_,?_⟩
    · unfold blockNum
      by_cases hi' : i = numColumnBlocks N'-1
      · rw [hi',Function.update_self,if_pos (by omega)]
      · rw [Function.update_of_ne hi',if_neg (by omega),hfull i (by omega)]
    · intro pos hp hp'
      rw [hcode,hkept pos (by omega) hp']
    · intro hpacked pos hp
      rw [hcode,hzero hpacked pos hp]
  · refine ⟨blocks1,hrun.trans (if_neg hpos),⟨hsizes.congr fun i hi => by omega,hlen⟩,?_,hzero⟩
    intro pos hp _
    rw [hlen] at hp
    exact absurd (Nat.zero_lt_of_lt hp) hpos

/-! ## Bulk loads -/

/-- All blocks but the last one are full. -/
def FullBlocks : List (ColumnBlock n) → Prop
  | [] => True
  | b::blocks => b.num ≤ kNumCodesPerBlock ∧ (blocks ≠ [] → b.num = kNumCodesPerBlock) ∧
      FullBlocks blocks

/-- The number of codes that the blocks have room for. -/
def capacity (blocks : List (ColumnBlock n)) : ℕ := (blocks.map (·.num)).sum

theorem codeAt_cons (b : ColumnBlock n) (blocks : List (ColumnBlock n)) (pos : ℕ) :
    codeAt (b::blocks) pos = if pos < kNumCodesPerBlock then b.code pos
      else codeAt blocks (pos-kNumCodesPerBlock) := by
  by_cases hpos : pos < kNumCodesPerBlock
  · rw [if_pos hpos,codeAt,Nat.div_eq_of_lt hpos,Nat.mod_eq_of_lt hpos]
    rfl
  · have hge := Nat.not_lt.mp hpos
    rw [if_neg hpos,codeAt,codeAt,Nat.div_eq_sub_div kNumCodesPerBlock_pos hge,
      Nat.mod_eq_sub_mod hge,List.getElem?_cons_succ]

/-- The size of a part, if its first position is not behind the end. -/
theorem part_size {num start : ℕ} (hnum : num ≤ kNumCodesPerBlock) (h : start ≤ num) :
    (num+2^64-start)%2^64 = num-start := by
  unfold kNumCodesPerBlock at hnum
  omega

section Bulk

variable {codes : List ℕ} {start : ℕ}

theorem bulkloadBlocks_cons (b : ColumnBlock n) (blocks : List (ColumnBlock n)) (hnil : codes ≠ [])
    {size : ℕ} (hsize : size = min codes.length ((b.num+2^64-start)%2^64)) :
    bulkloadBlocks (b::blocks) codes start =
      (b.bulkload (codes.take size) start).bind fun b' =>
        (bulkloadBlocks blocks (codes.drop size) 0).map (b'::·) := by
  subst hsize
  rw [bulkloadBlocks]
  · refine congrArg (Option.bind _) (funext fun b' => ?_)
    cases bulkloadBlocks blocks _ 0 <;> rfl
  · exact hnil

/-- A bulk load that the blocks have room for. -/
theorem bulkloadBlocks_some (hn : n ≤ 32) (hvalid : ∀ b ∈ blocks, b.Valid)
    (htype : ∀ b ∈ blocks, b.columnType = type) (hfull : FullBlocks blocks)
    (hc : ∀ c ∈ codes, c < 2^n) (hstart : start < kNumCodesPerBlock)
    (h : codes = [] ∨ start+codes.length ≤ capacity blocks) :
    ∃ blocks', bulkloadBlocks blocks codes start = some blocks' ∧
      (∀ b ∈ blocks', b.Valid) ∧ (∀ b ∈ blocks', b.columnType = type) ∧
      blocks'.map (·.num) = blocks.map (·.num) ∧
      ∀ pos, codeAt blocks' pos =
        if start ≤ pos ∧ pos < start+codes.length then
          type.put (codeAt blocks pos) (codes.getD (pos-start) 0)
        else codeAt blocks pos := by
  induction blocks generalizing codes start with
  | nil =>
    obtain rfl : codes = [] := by
      rcases h with h | h
      · exact h
      · exact List.eq_nil_of_length_eq_zero (by simp only [capacity,List.map_nil,List.sum_nil] at h; omega)
    refine ⟨[],rfl,hvalid,htype,rfl,fun pos => ?_⟩
    rw [if_neg (by simp only [List.length_nil]; omega)]
  | cons b blocks ih =>
    by_cases hnil : codes = []
    · subst hnil
      refine ⟨b::blocks,rfl,hvalid,htype,rfl,fun pos => ?_⟩
      rw [if_neg (by simp only [List.length_nil]; omega)]
    · obtain ⟨hnum,hlast,hfull⟩ := hfull
      have hcap : capacity (b::blocks) = b.num+capacity blocks := by
        simp only [capacity,List.map_cons,List.sum_cons]
      have hfits := h.resolve_left hnil
      rw [hcap] at hfits
      have hlen : 0 < codes.length := List.length_pos_iff.mpr hnil
      have hempty : blocks = [] → capacity blocks = 0 := fun h => by rw [h]; rfl
      have hle : start ≤ b.num := by
        by_cases hblocks : blocks = []
        · have := hempty hblocks
          omega
        · rw [hlast hblocks]
          exact hstart.le
      obtain ⟨size,hsize⟩ : ∃ size, size = min codes.length (b.num-start) := ⟨_,rfl⟩
      have htake : (codes.take size).length = size := by
        rw [List.length_take]
        omega
      obtain ⟨b',hload,hvalid',hnum',htype',hcode'⟩ := ColumnBlock.bulkload_spec hn b
        (fun c hcs => hc c (List.mem_of_mem_take hcs))
        (show start+(codes.take size).length ≤ b.num by omega)
      obtain ⟨blocks',hrest,hvalids,htypes,hnums,hcodes⟩ := ih
        (fun b hb => hvalid b (List.mem_cons_of_mem _ hb))
        (fun b hb => htype b (List.mem_cons_of_mem _ hb)) hfull
        (fun c (hcs : c ∈ codes.drop size) => hc c (List.mem_of_mem_drop hcs))
        kNumCodesPerBlock_pos (by
          right
          rw [List.length_drop]
          omega)
      refine ⟨b'::blocks',?_,?_,?_,?_,?_⟩
      · rw [bulkloadBlocks_cons b blocks hnil (hsize.trans (by rw [part_size hnum hle])),hload,
          Option.bind_some,hrest]
        rfl
      · intro x hx
        rcases List.mem_cons.mp hx with rfl | hx
        · exact hvalid' (hvalid b List.mem_cons_self)
        · exact hvalids x hx
      · intro x hx
        rcases List.mem_cons.mp hx with rfl | hx
        · exact htype'.trans (htype b List.mem_cons_self)
        · exact htypes x hx
      · rw [List.map_cons,List.map_cons,hnum',hnums]
      · intro pos
        have hK : blocks ≠ [] → b.num = kNumCodesPerBlock := hlast
        rw [codeAt_cons,codeAt_cons]
        by_cases hfirst : pos < kNumCodesPerBlock
        · rw [if_pos hfirst,if_pos hfirst,hcode' pos,htake,htype b List.mem_cons_self]
          by_cases hin : start ≤ pos ∧ pos < start+size
          · rw [if_pos hin,if_pos (by omega),List.getD_eq_getElem?_getD,List.getElem?_take,
              if_pos (by omega),← List.getD_eq_getElem?_getD]
          · have hout : ¬(start ≤ pos ∧ pos < start+codes.length) := by
              by_cases hblocks : blocks = []
              · have := hempty hblocks
                omega
              · have := hK hblocks
                omega
            rw [if_neg hin,if_neg hout]
        · rw [if_neg hfirst,if_neg hfirst,hcodes (pos-kNumCodesPerBlock),List.length_drop]
          have hiff : (0 ≤ pos-kNumCodesPerBlock ∧
              pos-kNumCodesPerBlock < 0+(codes.length-size)) ↔
              (start ≤ pos ∧ pos < start+codes.length) := by
            by_cases hblocks : blocks = []
            · have := hempty hblocks
              omega
            · have := hK hblocks
              omega
          by_cases hin : start ≤ pos ∧ pos < start+codes.length
          · have hget : (codes.drop size).getD (pos-kNumCodesPerBlock-0) 0 =
                codes.getD (pos-start) 0 := by
              have hrest := hiff.mpr hin
              have hidx : size+(pos-kNumCodesPerBlock-0) = pos-start := by
                by_cases hblocks : blocks = []
                · have := hempty hblocks
                  omega
                · have := hK hblocks
                  omega
              rw [List.getD_eq_getElem?_getD,List.getElem?_drop,hidx,← List.getD_eq_getElem?_getD]
            rw [if_pos hin,if_pos (hiff.mpr hin),hget]
          · rw [if_neg hin,if_neg (hiff.not.mpr hin)]

/-- A bulk load that they have no room for runs past them. -/
theorem bulkloadBlocks_none (hn : n ≤ 32) (hfull : FullBlocks blocks) (hc : ∀ c ∈ codes, c < 2^n)
    (hstart : start < kNumCodesPerBlock) (hword : start+codes.length < 2^64) (hnil : codes ≠ [])
    (h : capacity blocks < start+codes.length) : bulkloadBlocks blocks codes start = none := by
  induction blocks generalizing codes start with
  | nil =>
    obtain ⟨c,cs,rfl⟩ := List.exists_cons_of_ne_nil hnil
    rfl
  | cons b blocks ih =>
    obtain ⟨hnum,hlast,hfull⟩ := hfull
    have hcap : capacity (b::blocks) = b.num+capacity blocks := by
      simp only [capacity,List.map_cons,List.sum_cons]
    rw [hcap] at h
    by_cases hle : start ≤ b.num
    · obtain ⟨size,hsize⟩ : ∃ size, size = min codes.length (b.num-start) := ⟨_,rfl⟩
      have htake : (codes.take size).length = size := by
        rw [List.length_take]
        omega
      obtain ⟨b',hload,_⟩ := ColumnBlock.bulkload_spec hn b
        (fun c hcs => hc c (List.mem_of_mem_take hcs))
        (show start+(codes.take size).length ≤ b.num by omega)
      have hrest : bulkloadBlocks blocks (codes.drop size) 0 = none := by
        refine ih hfull (fun c hcs => hc c (List.mem_of_mem_drop hcs)) kNumCodesPerBlock_pos ?_ ?_ ?_
        · rw [List.length_drop]
          omega
        · intro hdrop
          have hlen := congrArg List.length hdrop
          rw [List.length_drop,List.length_nil] at hlen
          omega
        · rw [List.length_drop]
          omega
      rw [bulkloadBlocks_cons b blocks hnil (hsize.trans (by rw [part_size hnum hle])),hload,
        Option.bind_some,hrest]
      rfl
    · -- the difference wraps around, so all codes go to this block
      have hsize : codes.length = min codes.length ((b.num+2^64-start)%2^64) := by
        unfold kNumCodesPerBlock at hstart
        omega
      rw [bulkloadBlocks_cons b blocks hnil hsize,List.take_length,
        ColumnBlock.bulkload_none (by omega)]
      rfl

end Bulk

end ElfIndex.Bitweaving
