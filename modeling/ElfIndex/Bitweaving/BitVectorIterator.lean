import ElfIndex.Lib.Fuel
import ElfIndex.Lib.LowestBit
import ElfIndex.Bitweaving.TableScan

/-! # The iterator of a bit vector

`Next` keeps the positions of the set bits of one word on a stack and reads the next word that
is not zero when the stack is empty. It counts the positions of the blocks in front, so unlike
`toTids` it returns the tids of the table.
-/
namespace ElfIndex.Bitweaving
open LowestBit

/-! ## Bit operations -/

/-- `Popcnt` without the instruction. -/
def popcnt (word : WordUnit) : ℕ :=
  ((List.range kNumBitsPerWord).foldl (fun (s : ℕ × WordUnit) _ =>
    (if s.2 &&& 1#64 = 1#64 then s.1+1 else s.1,s.2 >>> 1)) (0,word)).1

def removeRightmostOne (word : WordUnit) : WordUnit := word &&& (word-1#64)

def removeSmearRightmostOne (word : WordUnit) : WordUnit := word ^^^ (-word)

theorem popcnt_eq (word : WordUnit) : popcnt word = (ones word).length := by
  have hbit : ∀ word : WordUnit, (word &&& 1#64 = 1#64) ↔ word.getLsbD 0 = true := by
    intro word
    rw [BitVec.and_one_eq_setWidth_ofBool_getLsbD]
    cases word.getLsbD 0 <;> decide
  rw [← foldl_count,popcnt,kNumBitsPerWord]
  simp only [hbit]

/-! ## The iterator -/

/-- The top of the stack comes first. -/
structure BitVectorIterator where
  blockId : ℕ
  curBlock : Option BitVectorBlock
  blockOffset : ℕ
  pos : ℕ
  wordUnitPos : ℕ
  numWordUnits : ℕ
  stack : List ℕ

namespace BitVectorIterator

/-- `Begin` -/
def start : BitVectorIterator := ⟨0,none,0,0,0,0,[]⟩

/-- The branch of the loop that goes to the next block, if there is one. -/
def nextBlock (bitvector : BitVector) (it : BitVectorIterator) : Option BitVectorIterator :=
  (bitvector[it.blockId]?).map fun block => {it with
    blockOffset := it.blockOffset+(it.curBlock.map (·.num)).getD 0
    curBlock := some block
    blockId := it.blockId+1
    numWordUnits := block.numWordUnits
    wordUnitPos := 0}

def readWord (it : BitVectorIterator) : Option (WordUnit × BitVectorIterator) := do
  let block ← it.curBlock
  let word ← block.getWordUnit it.wordUnitPos
  some (word,{it with wordUnitPos := it.wordUnitPos+1})

/-- One turn of the loop to the next word that is not zero; without a word at the end. -/
def turn (bitvector : BitVector) (it : BitVectorIterator) :
    Option (Option WordUnit × BitVectorIterator) :=
  match if it.wordUnitPos ≥ it.numWordUnits then it.nextBlock bitvector else some it with
  | none => some (none,it)
  | some it => it.readWord.map fun r => (some r.1,r.2)

theorem turn_decreases {bitvector : BitVector} {it it' : BitVectorIterator} {word : WordUnit}
    (h : it.turn bitvector = some (some word,it')) :
    bitvector.length-it'.blockId < bitvector.length-it.blockId ∨
      it'.blockId = it.blockId ∧
        it'.numWordUnits-it'.wordUnitPos < it.numWordUnits-it.wordUnitPos := by
  have hread : ∀ it1 it2 : BitVectorIterator, it1.readWord.map (fun r => (some r.1,r.2)) =
      some (some word,it2) → it2.blockId = it1.blockId ∧ it2.numWordUnits = it1.numWordUnits ∧
        it2.wordUnitPos = it1.wordUnitPos+1 := by
    intro it1 it2 h
    obtain ⟨⟨_,it3⟩,hread,heq⟩ := Option.map_eq_some_iff.mp h
    obtain ⟨block,_,hread⟩ := Option.bind_eq_some_iff.mp hread
    obtain ⟨_,_,hread⟩ := Option.bind_eq_some_iff.mp hread
    obtain ⟨-,rfl⟩ := Prod.mk.inj (Option.some.inj hread)
    obtain ⟨-,rfl⟩ := Prod.mk.inj heq
    exact ⟨rfl,rfl,rfl⟩
  unfold turn at h
  by_cases hend : it.wordUnitPos ≥ it.numWordUnits
  · rw [if_pos hend] at h
    cases hnext : it.nextBlock bitvector with
    | none =>
      rw [hnext] at h
      cases h
    | some it1 =>
      rw [hnext] at h
      obtain ⟨block,hblock,rfl⟩ := Option.map_eq_some_iff.mp hnext
      obtain ⟨hlt,_⟩ := List.getElem?_eq_some_iff.mp hblock
      obtain ⟨hid,_,_⟩ := hread _ _ h
      left
      rw [hid]
      dsimp only
      omega
  · rw [if_neg hend] at h
    obtain ⟨hid,hnum,hpos⟩ := hread _ _ h
    right
    exact ⟨hid,by omega⟩

/-- The loop to the next word that is not zero. -/
def loadWord (bitvector : BitVector) (it : BitVectorIterator) :
    Option (Option WordUnit × BitVectorIterator) :=
  match _h : it.turn bitvector with
  | some (some word,it') =>
    if word = 0#64 then loadWord bitvector it' else some (some word,it')
  | r => r
termination_by (bitvector.length-it.blockId,it.numWordUnits-it.wordUnitPos)
decreasing_by
  rcases turn_decreases _h with h | ⟨hid,h⟩
  · exact Prod.Lex.left _ _ h
  · rw [hid]
    exact Prod.Lex.right _ h

/-- The loop that puts the positions of a word on the stack, which has `room` free places. -/
def pushOnes (numBits offset : ℕ) : ℕ → WordUnit → List ℕ → Option (List ℕ)
  | 0, word, stack => if word ≠ 0#64 then none else some stack
  | room+1, word, stack =>
    if word ≠ 0#64 then
      let pos := offset+popcnt (removeSmearRightmostOne word)
      if pos < numBits then pushOnes numBits offset room (removeRightmostOne word) (pos::stack)
      else none
    else some stack

def pop (it : BitVectorIterator) : List ℕ → Option (Bool × BitVectorIterator)
  | [] => none
  | pos::stack => some (true,{it with pos := pos, stack := stack})

/-- `Next` for a bit vector of `numBits` bits. -/
def next (bitvector : BitVector) (numBits : ℕ) (it : BitVectorIterator) :
    Option (Bool × BitVectorIterator) :=
  if it.stack.length = 0 then do
    let (word,it) ← it.loadWord bitvector
    match word with
    | none => some (false,it)
    | some word =>
      let offset := it.blockOffset+(it.wordUnitPos-1)*kNumBitsPerWord
      let stack ← pushOnes numBits offset kNumBitsPerWord word []
      it.pop stack
  else it.pop it.stack

/-! ## Words -/

/-- The stack holds the positions of the word in their order. -/
theorem pushOnes_eq {numBits offset room : ℕ} {word : WordUnit} (stack : List ℕ)
    (hroom : (ones word).length ≤ room) (hlt : ∀ k ∈ ones word, offset+k < numBits) :
    pushOnes numBits offset room word stack =
      some ((ones word).map (offset+·) ++ stack) := by
  induction room generalizing word stack with
  | zero =>
    have hzero : word = 0#64 := by
      by_contra hne
      obtain ⟨j,hj⟩ := exists_lowest hne
      rw [hj.ones_eq,List.length_append,List.length_singleton] at hroom
      omega
    subst hzero
    simp [pushOnes]
  | succ room ih =>
    by_cases hne : word ≠ 0#64
    · obtain ⟨j,hj⟩ := exists_lowest hne
      have hpos : popcnt (removeSmearRightmostOne word) = 63-j := by
        rw [popcnt_eq,removeSmearRightmostOne,hj.length_ones_smear]
      have hrest : ones (removeRightmostOne word) = ones (word &&& (word-1#64)) := rfl
      rw [hj.ones_eq] at hroom hlt ⊢
      rw [List.length_append,List.length_singleton] at hroom
      rw [pushOnes,if_pos hne]
      dsimp only
      rw [hpos,if_pos (hlt _ (List.mem_append_right _ (List.mem_singleton.mpr rfl))),
        @ih (removeRightmostOne word) _ (by rw [hrest]; omega)
          (fun k hk => hlt k (List.mem_append_left _ (hrest ▸ hk))),hrest,List.map_append,
        List.append_assoc]
      rfl
    · obtain rfl := not_not.mp hne
      simp [pushOnes]

/-- The set bits of a vector from a position on. -/
def bitsFrom (bv : BitVector) (numBits start : ℕ) : List ℕ :=
  (List.range' start (numBits-start)).filter fun p =>
    bv.bit (p/kNumCodesPerBlock) (p%kNumCodesPerBlock)

theorem bitsFrom_of_le {bv : BitVector} {N start : ℕ} (h : N ≤ start) : bitsFrom bv N start = [] := by
  rw [bitsFrom,Nat.sub_eq_zero_of_le h]
  rfl

section Words

variable {N : ℕ} {bv : BitVector} (hbv : bv.map (·.num) = BitVector.blockNums N)
  (hfinal : ∀ block ∈ bv, block.Finalized)

include hbv hfinal

/-- The bits of one word. -/
theorem bitsFrom_word {b w : ℕ} {block : BitVectorBlock} (hblock : bv[b]? = some block)
    (hw : w < block.numWordUnits) :
    bitsFrom bv N (b*kNumCodesPerBlock+w*64) =
        (ones (block.data w)).map (b*kNumCodesPerBlock+w*64+·) ++
          bitsFrom bv N (b*kNumCodesPerBlock+(w+1)*64) ∧
      ∀ k ∈ ones (block.data w), b*kNumCodesPerBlock+w*64+k < N := by
  obtain ⟨hnum,_⟩ := getElem?_num_of_blockNums hbv hblock
  have hstart : w*64 < block.num := BitVectorBlock.lt_numWordUnits_iff.mp hw
  have hsize : block.num = min (N-b*kNumCodesPerBlock) kNumCodesPerBlock := hnum
  have hunit : w*64+64 ≤ kNumCodesPerBlock := by
    simp only [kNumCodesPerBlock] at *
    omega
  have hbit : ∀ k < 64, bv.bit ((b*kNumCodesPerBlock+w*64+k)/kNumCodesPerBlock)
      ((b*kNumCodesPerBlock+w*64+k)%kNumCodesPerBlock) = (block.data w).getLsbD (63-k) := by
    intro k hk
    have hdiv : (b*kNumCodesPerBlock+w*64+k)/kNumCodesPerBlock = b := by
      rw [Nat.add_assoc,Nat.mul_comm,Nat.mul_add_div kNumCodesPerBlock_pos,
        Nat.div_eq_of_lt (by omega),Nat.add_zero]
    have hmod : (b*kNumCodesPerBlock+w*64+k)%kNumCodesPerBlock = w*64+k := by
      rw [Nat.add_assoc,Nat.mul_comm,Nat.mul_add_mod,Nat.mod_eq_of_lt (by omega)]
    rw [hdiv,hmod,BitVector.bit_of_getElem? hblock,← wordBit_eq]
    exact block.bit_word w (by exact hk)
  -- behind the end of the block the bits are clear
  have hones : ∀ k ∈ ones (block.data w), w*64+k < block.num := by
    intro k hk
    obtain ⟨hk,hset⟩ := mem_ones.mp hk
    by_contra hge
    have hclear := hfinal block (List.mem_of_getElem? hblock) (w*64+k) (by omega) (by
      simp only [kNumBitsPerWord]
      omega)
    have hword := block.bit_word w (show k < kNumBitsPerWord from hk)
    rw [kNumBitsPerWord] at hword
    rw [hword,wordBit_eq,hset] at hclear
    cases hclear
  refine ⟨?_,fun k hk => ?_⟩
  · have hall : ones (block.data w) = (List.range (min 64 (block.num-w*64))).filter
        fun k => (block.data w).getLsbD (63-k) := by
      refine ones_eq_filter (Nat.min_le_left _ _) fun k hk => ?_
      have hlt := hones k hk
      have hle := (mem_ones.mp hk).1
      omega
    have hsplit : List.range' (b*kNumCodesPerBlock+w*64) (N-(b*kNumCodesPerBlock+w*64)) =
        (List.range (min 64 (block.num-w*64))).map (b*kNumCodesPerBlock+w*64+·) ++
          List.range' (b*kNumCodesPerBlock+(w+1)*64) (N-(b*kNumCodesPerBlock+(w+1)*64)) := by
      rw [← List.range'_eq_map_range]
      by_cases hlast : block.num-w*64 < 64
      · have hzero : N-(b*kNumCodesPerBlock+(w+1)*64) = 0 := by omega
        have hlen : N-(b*kNumCodesPerBlock+w*64) = min 64 (block.num-w*64) := by omega
        rw [hzero,hlen,List.range'_zero,List.append_nil]
      · have hmin : min 64 (block.num-w*64) = 64 := by omega
        have hnext : b*kNumCodesPerBlock+(w+1)*64 = b*kNumCodesPerBlock+w*64+64 := by omega
        have hlen : N-(b*kNumCodesPerBlock+w*64) = 64+(N-(b*kNumCodesPerBlock+w*64+64)) := by omega
        rw [hmin,hnext,List.range'_append_1,hlen]
    rw [bitsFrom,bitsFrom,hsplit,List.filter_append,List.filter_map,hall]
    refine congrArg (· ++ _) (congrArg _ (List.filter_congr fun k hk => ?_))
    have hk := List.mem_range.mp hk
    exact hbit k (by omega)
  · have := hones k hk
    omega

end Words

/-! ## Steps -/

/-- The next word starts at position `start`. -/
inductive At (bv : BitVector) (it : BitVectorIterator) : ℕ → Prop
  | start (hid : it.blockId = 0) (hcur : it.curBlock = none) (hoffset : it.blockOffset = 0)
      (hpos : it.wordUnitPos = 0) (hnum : it.numWordUnits = 0) : At bv it 0
  | inside {b : ℕ} {block : BitVectorBlock} (hblock : bv[b]? = some block) (hid : it.blockId = b+1)
      (hcur : it.curBlock = some block) (hoffset : it.blockOffset = b*kNumCodesPerBlock)
      (hnum : it.numWordUnits = block.numWordUnits) (hle : it.wordUnitPos ≤ block.numWordUnits) :
      At bv it (b*kNumCodesPerBlock+it.wordUnitPos*64)

/-- The word that starts at position `start` was read. -/
structure Read (bv : BitVector) (it it' : BitVectorIterator) (word : WordUnit) (b w : ℕ) : Prop where
  block : ∃ block, bv[b]? = some block ∧ w < block.numWordUnits ∧ word = block.data w
  offset : it'.blockOffset = b*kNumCodesPerBlock
  pos : it'.wordUnitPos = w+1
  stack : it'.stack = it.stack
  at' : At bv it' (b*kNumCodesPerBlock+(w+1)*64)

section Steps

variable {N : ℕ} {bv : BitVector} {it : BitVectorIterator} {start : ℕ}

theorem readWord_eq {b : ℕ} {block : BitVectorBlock} (hblock : bv[b]? = some block)
    (hid : it.blockId = b+1) (hcur : it.curBlock = some block)
    (hoffset : it.blockOffset = b*kNumCodesPerBlock) (hnum : it.numWordUnits = block.numWordUnits)
    (hlt : it.wordUnitPos < block.numWordUnits) :
    ∃ it', it.readWord = some (block.data it.wordUnitPos,it') ∧
      Read bv it it' (block.data it.wordUnitPos) b it.wordUnitPos := by
  refine ⟨{it with wordUnitPos := it.wordUnitPos+1},?_,⟨block,hblock,hlt,rfl⟩,hoffset,rfl,rfl,?_⟩
  · rw [readWord,hcur]
    simp [BitVectorBlock.getWordUnit,hlt]
  · exact .inside hblock hid hcur hoffset hnum hlt

/-- A turn ends behind the last bit or reads the next word. -/
def Turned (bv : BitVector) (N : ℕ) (it : BitVectorIterator) (start : ℕ) : Prop :=
  (it.turn bv = some (none,it) ∧ bitsFrom bv N start = []) ∨
    ∃ word it' b w, it.turn bv = some (some word,it') ∧ Read bv it it' word b w ∧
      bitsFrom bv N start = bitsFrom bv N (b*kNumCodesPerBlock+w*64)

/-- A turn behind the last word of the last block. -/
theorem turned_end (hend : it.wordUnitPos ≥ it.numWordUnits) (hid : bv.length ≤ it.blockId)
    (hstart : N ≤ start) : Turned bv N it start := by
  refine .inl ⟨?_,bitsFrom_of_le hstart⟩
  rw [turn,if_pos hend,nextBlock,List.getElem?_eq_none hid]
  rfl

theorem pop_spec (pos : ℕ) (stack : List ℕ) (h : At bv it start) :
    ∃ it', it.pop (pos::stack) = some (true,it') ∧ At bv it' start ∧
      pos::(stack ++ bitsFrom bv N start) = it'.pos::(it'.stack ++ bitsFrom bv N start) := by
  refine ⟨{it with pos := pos, stack := stack},rfl,?_,rfl⟩
  cases h with
  | start hid hcur hoffset hpos hnum => exact .start hid hcur hoffset hpos hnum
  | inside hblock hid hcur hoffset hnum hle => exact .inside hblock hid hcur hoffset hnum hle

variable (hbv : bv.map (·.num) = BitVector.blockNums N)

include hbv

theorem block_num {b : ℕ} {block : BitVectorBlock} (hblock : bv[b]? = some block) :
    block.num = min (N-b*kNumCodesPerBlock) kNumCodesPerBlock ∧ 0 < block.num := by
  obtain ⟨hnum,hlt⟩ := getElem?_num_of_blockNums hbv hblock
  refine ⟨hnum,?_⟩
  rw [hnum]
  exact Blocks.blockSize_pos ((Blocks.lt_numBlocks kNumCodesPerBlock_pos).mp hlt)
    kNumCodesPerBlock_pos

/-- A turn to the next block, which starts where the bits are looked for. -/
theorem turned_nextBlock {b : ℕ} (hid : it.blockId = b)
    (hoffset : it.blockOffset+(it.curBlock.map (·.num)).getD 0 = b*kNumCodesPerBlock)
    (hend : it.wordUnitPos ≥ it.numWordUnits) (hlt : b < bv.length) :
    Turned bv N it (b*kNumCodesPerBlock) := by
  have hblock := List.getElem?_eq_getElem hlt
  obtain ⟨hnum,hpos⟩ := block_num hbv hblock
  have hunits : bv[b].numWordUnits = (bv[b].num+63)/64 := rfl
  obtain ⟨it',hread,hit'⟩ := @readWord_eq bv {it with
      blockOffset := it.blockOffset+(it.curBlock.map (·.num)).getD 0
      curBlock := some bv[b]
      blockId := it.blockId+1
      numWordUnits := bv[b].numWordUnits
      wordUnitPos := 0} b bv[b] hblock (congrArg (·+1) hid) rfl hoffset rfl (by
    rw [hunits]
    dsimp only
    omega)
  refine .inr ⟨bv[b].data 0,it',b,0,?_,⟨hit'.block,hit'.offset,hit'.pos,hit'.stack,hit'.at'⟩,?_⟩
  · rw [turn,if_pos hend,nextBlock,hid,hblock]
    dsimp only [Option.map_some]
    rw [hid] at hread
    rw [hread]
    rfl
  · rw [Nat.zero_mul,Nat.add_zero]

theorem turn_spec (h : At bv it start) : Turned bv N it start := by
  cases h with
  | start hid hcur hoffset hpos hnum =>
    rcases Nat.lt_or_ge 0 bv.length with hlt | hlen
    · have hturn := turned_nextBlock hbv hid (by rw [hcur,hoffset,Nat.zero_mul]; rfl) (by omega) hlt
      rwa [Nat.zero_mul] at hturn
    · refine turned_end (by omega) (by omega) ?_
      have hzero : bv.length = numColumnBlocks N := length_of_blockNums hbv
      have hend := (Blocks.lt_numBlocks (m:=0) (n:=N) kNumCodesPerBlock_pos).not.mp (by
        rw [← numColumnBlocks_eq]
        omega)
      omega
  | @inside b block hblock hid hcur hoffset hnum hle =>
    obtain ⟨hblockNum,hblockPos⟩ := block_num hbv hblock
    have hunit : block.numWordUnits = (block.num+63)/64 := rfl
    rcases Nat.lt_or_ge it.wordUnitPos it.numWordUnits with hlt | hge
    · obtain ⟨it',hread,hit'⟩ := readWord_eq hblock hid hcur hoffset hnum (hnum ▸ hlt)
      refine .inr ⟨_,it',b,it.wordUnitPos,?_,hit',rfl⟩
      rw [turn,if_neg (Nat.not_le.mpr hlt)]
      dsimp only
      rw [hread]
      rfl
    · have hend : it.wordUnitPos = block.numWordUnits := by omega
      have hlen := length_of_blockNums hbv
      rcases Nat.lt_or_ge (b+1) bv.length with hmore | hlast
      · -- the block in front of another one is full
        have hfull := (Blocks.lt_numBlocks (n:=N) kNumCodesPerBlock_pos).mp
          (by rw [← numColumnBlocks_eq,← hlen]; exact hmore)
        rw [Nat.succ_mul] at hfull
        have hnumK : block.num = kNumCodesPerBlock := by omega
        have hstart : b*kNumCodesPerBlock+it.wordUnitPos*64 = (b+1)*kNumCodesPerBlock := by
          rw [hend,hunit,hnumK,Nat.succ_mul]
          rfl
        rw [hstart]
        refine turned_nextBlock hbv hid ?_ hge hmore
        rw [hcur,hoffset,Nat.succ_mul]
        exact congrArg (_+·) hnumK
      · refine turned_end hge (hid ▸ hlast) ?_
        have hend' := (Blocks.lt_numBlocks (m:=b+1) (n:=N) kNumCodesPerBlock_pos).not.mp
          (by rw [← numColumnBlocks_eq,← hlen]; omega)
        rw [Nat.succ_mul] at hend'
        omega

variable (hfinal : ∀ block ∈ bv, block.Finalized)

include hfinal

/-- The loop skips words without bits. -/
theorem loadWord_spec (h : At bv it start) :
    (∃ it', it.loadWord bv = some (none,it') ∧ bitsFrom bv N start = []) ∨
      ∃ word it' b w, it.loadWord bv = some (some word,it') ∧ Read bv it it' word b w ∧
        word ≠ 0#64 ∧ bitsFrom bv N start = bitsFrom bv N (b*kNumCodesPerBlock+w*64) := by
  fun_induction loadWord bv it generalizing start with
  | case1 it it' hturn ih =>
    rcases turn_spec hbv h with ⟨hend,_⟩ | ⟨word',it'',b,w,hturn',hread,hfrom⟩
    · rw [hend] at hturn
      cases hturn
    · rw [hturn'] at hturn
      obtain ⟨hword,rfl⟩ := Prod.mk.inj (Option.some.inj hturn)
      have hzero := Option.some.inj hword
      -- a word without bits is passed over
      have hskip : bitsFrom bv N start = bitsFrom bv N (b*kNumCodesPerBlock+(w+1)*64) := by
        obtain ⟨block,hblock,hw,hdata⟩ := hread.block
        rw [hfrom,(bitsFrom_word hbv hfinal hblock hw).1,← hdata,hzero,ones_zero,
          List.map_nil,List.nil_append]
      rcases ih hread.at' with ⟨it',hload,hnil⟩ | ⟨word',it',b',w',hload,hread',hne,hfrom'⟩
      · exact .inl ⟨it',hload,hskip.trans hnil⟩
      · refine .inr ⟨word',it',b',w',hload,⟨hread'.block,hread'.offset,hread'.pos,
          hread'.stack.trans hread.stack,hread'.at'⟩,hne,hskip.trans hfrom'⟩
  | case2 it word it' hturn hne =>
    rcases turn_spec hbv h with ⟨hend,_⟩ | ⟨word',it'',b,w,hturn',hread,hfrom⟩
    · rw [hend] at hturn
      cases hturn
    · rw [hturn'] at hturn
      obtain ⟨hword,rfl⟩ := Prod.mk.inj (Option.some.inj hturn)
      obtain rfl := Option.some.inj hword
      exact .inr ⟨word',it'',b,w,rfl,hread,hne,hfrom⟩
  | case3 it hother =>
    rcases turn_spec hbv h with ⟨hend,hnil⟩ | ⟨word',it'',b,w,hturn',_⟩
    · exact .inl ⟨it,hend,hnil⟩
    · exact absurd hturn' (hother word' it'')

/-- `Next` goes to the next of the positions that are left. -/
theorem next_spec (h : At bv it start) :
    (∃ it', it.next bv N = some (false,it') ∧ it.stack ++ bitsFrom bv N start = []) ∨
      ∃ it' start', it.next bv N = some (true,it') ∧ At bv it' start' ∧
        it.stack ++ bitsFrom bv N start = it'.pos::(it'.stack ++ bitsFrom bv N start') := by
  cases hstack : it.stack with
  | cons pos stack =>
    obtain ⟨it',hrun,hat,hrest⟩ := pop_spec (N:=N) pos stack h
    refine .inr ⟨it',start,?_,hat,hrest⟩
    rw [next,hstack,if_neg (by simp)]
    exact hrun
  | nil =>
    have hload : it.next bv N = (it.loadWord bv).bind fun r => match r.1 with
        | none => some (false,r.2)
        | some word => (pushOnes N (r.2.blockOffset+(r.2.wordUnitPos-1)*kNumBitsPerWord)
            kNumBitsPerWord word []).bind r.2.pop := by
      rw [next,hstack,if_pos List.length_nil]
      rfl
    rcases loadWord_spec hbv hfinal h with ⟨it',hrun,hnil⟩ |
        ⟨word,it1,b,w,hrun,hread,hne,hfrom⟩
    · exact .inl ⟨it',by rw [hload,hrun]; rfl,hnil⟩
    · obtain ⟨block,hblock,hw,rfl⟩ := hread.block
      obtain ⟨hbits,hlt⟩ := bitsFrom_word hbv hfinal hblock hw
      have hoffset : it1.blockOffset+(it1.wordUnitPos-1)*kNumBitsPerWord =
          b*kNumCodesPerBlock+w*64 := by
        rw [hread.offset,hread.pos,Nat.add_sub_cancel]
        rfl
      have hpush : pushOnes N (b*kNumCodesPerBlock+w*64) kNumBitsPerWord (block.data w) [] =
          some ((ones (block.data w)).map (b*kNumCodesPerBlock+w*64+·) ++ []) :=
        pushOnes_eq [] (length_ones_le (block.data w)) hlt
      obtain ⟨j,hj⟩ := exists_lowest hne
      obtain ⟨k,l,hones⟩ := List.exists_cons_of_ne_nil
        (l:=(ones (block.data w)).map (b*kNumCodesPerBlock+w*64+·)) (by
          rw [hj.ones_eq]
          simp)
      obtain ⟨it',hit',hat,hrest⟩ := pop_spec (N:=N) k l hread.at'
      refine .inr ⟨it',_,?_,hat,?_⟩
      · rw [hload,hrun]
        dsimp only [Option.bind_some]
        rw [hoffset,hpush,hones,List.append_nil]
        exact hit'
      · rw [List.nil_append,hfrom,hbits,hones]
        exact hrest

/-- The iterator shows the numbers of the set bits in their order. -/
theorem shows_bitsFrom (h : At bv it start) :
    Iteration.Shows (next bv N) (·.pos) it (it.stack ++ bitsFrom bv N start) := by
  obtain ⟨l,hl⟩ : ∃ l, l = it.stack ++ bitsFrom bv N start := ⟨_,rfl⟩
  rw [← hl]
  induction l generalizing it start with
  | nil =>
    rcases next_spec hbv hfinal h with ⟨it',hrun,_⟩ | ⟨it',start',_,_,hrest⟩
    · exact .done hrun
    · rw [← hl] at hrest
      cases hrest
  | cons x l ih =>
    rcases next_spec hbv hfinal h with ⟨it',_,hnil⟩ | ⟨it',start',hrun,hat,hrest⟩
    · rw [← hl] at hnil
      cases hnil
    · rw [← hl] at hrest
      obtain ⟨hpos,hleft⟩ := List.cons.inj hrest
      rw [hpos]
      exact .more hrun (ih hat hleft)

/-- From the start it shows all of them. -/
theorem shows_tids :
    Iteration.Shows (next bv N) (·.pos) BitVectorIterator.start
      ((List.range N).filter fun p => bv.bit (p/kNumCodesPerBlock) (p%kNumCodesPerBlock)) := by
  have hall := shows_bitsFrom hbv hfinal (show At bv .start 0 from .start rfl rfl rfl rfl rfl)
  rwa [bitsFrom,Nat.sub_zero,← List.range_eq_range'] at hall

end Steps

end BitVectorIterator

end ElfIndex.Bitweaving
