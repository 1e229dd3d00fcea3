import ElfIndex.Bitweaving.Library

/-! # Blocks of a column and their answers

A scan of a column block writes its answers into a block of the bit vector, word by word
and with asserted positions, and clears the bits behind the last code at the end.
-/
namespace ElfIndex.Bitweaving

inductive Status
  | ok
  | invalidArgument (text : String)
  | usageError (text : String)
deriving DecidableEq, Repr

/-- A word of answers combined with the one of the bit vector. -/
def BitVectorOpt.output : BitVectorOpt → WordUnit → WordUnit → WordUnit
  | .kSet, mask, _ => mask
  | .kAnd, mask, maskBitvector => mask &&& maskBitvector
  | .kOr, mask, maskBitvector => mask ||| maskBitvector

theorem BitVectorOpt.getLsbD_output (opt : BitVectorOpt) (mask old : WordUnit) (i : ℕ) :
    (opt.output mask old).getLsbD i = opt.combine (old.getLsbD i) (mask.getLsbD i) := by
  cases opt
  · rfl
  · rw [output,BitVec.getLsbD_and,Bool.and_comm]
    rfl
  · rw [output,BitVec.getLsbD_or,Bool.or_comm]
    rfl

namespace BitVectorBlock

def setZeros (block : BitVectorBlock) : BitVectorBlock :=
  finalize ⟨block.num,fun i => if i < block.numWordUnits then 0#64 else block.data i⟩

/-- `GetWordUnit` with its assertion. -/
def getWordUnit (block : BitVectorBlock) (pos : ℕ) : Option WordUnit :=
  if pos < block.numWordUnits then some (block.data pos) else none

/-- `SetWordUnit` with its assertion. -/
def setWordUnit (block : BitVectorBlock) (pos : ℕ) (word : WordUnit) : Option BitVectorBlock :=
  if pos < block.numWordUnits then some {block with data := Function.update block.data pos word}
  else none

/-- A word of answers is combined with the one of the block. -/
def store (opt : BitVectorOpt) (block : BitVectorBlock) (pos : ℕ) (word : WordUnit) :
    Option BitVectorBlock := do
  let word ← match opt with
    | .kSet => some word
    | .kAnd => (block.getWordUnit pos).map (word &&& ·)
    | .kOr => (block.getWordUnit pos).map (word ||| ·)
  block.setWordUnit pos word

/-- The bits behind the last one are clear. -/
def Finalized (block : BitVectorBlock) : Prop :=
  ∀ k, block.num ≤ k → k < block.numWordUnits*kNumBitsPerWord → block.bit k = false

/-- Every word changed by a function of its own. -/
def mapWords (f : ℕ → WordUnit → WordUnit) (block : BitVectorBlock) : BitVectorBlock where
  num := block.num
  data := fun i => if i < block.numWordUnits then f i (block.data i) else block.data i

end BitVectorBlock

/-- `out` combines the bits of `block` with the answers for the positions of a column block,
and leaves alone what is behind its words. -/
structure Answered (opt : BitVectorOpt) (test : ℕ → Bool) (block out : BitVectorBlock) : Prop where
  num : out.num = block.num
  bit : ∀ k < block.num, out.bit k = opt.combine (block.bit k) (test k)
  finalized : block.Finalized → out.Finalized
  rest : ∀ i, block.numWordUnits ≤ i → out.data i = block.data i

namespace BitVectorBlock

variable {block : BitVectorBlock} {i n k : ℕ}

theorem lt_numWordUnits_iff : i < block.numWordUnits ↔ i*kNumBitsPerWord < block.num := by
  simp only [numWordUnits,kNumBitsPerWord]
  omega

theorem numWordUnits_congr {out : BitVectorBlock} (h : out.num = block.num) :
    out.numWordUnits = block.numWordUnits := by rw [numWordUnits,h,numWordUnits]

/-- Words changed one after the other. -/
theorem foldlM_words (f : ℕ → WordUnit → WordUnit) (hn : n ≤ block.numWordUnits) :
    (List.range n).foldlM (fun b i => do
      let word ← b.getWordUnit i
      b.setWordUnit i (f i word)) block =
    some ⟨block.num,fun i => if i < n then f i (block.data i) else block.data i⟩ := by
  induction n with
  | zero => rfl
  | succ n ih =>
    have hunits : ∀ data, numWordUnits ⟨block.num,data⟩ = block.numWordUnits := fun _ => rfl
    rw [List.range_succ,List.foldlM_append,ih (by omega)]
    simp only [Option.bind_eq_bind,Option.bind_some,List.foldlM_cons,List.foldlM_nil,getWordUnit,
      setWordUnit,hunits,if_pos (show n < block.numWordUnits by omega),if_neg (Nat.lt_irrefl n)]
    refine congrArg some (congrArg (BitVectorBlock.mk block.num) (funext fun i => ?_))
    by_cases hi : i = n
    · rw [hi,Function.update_self,if_pos (Nat.lt_succ_self n)]
    · rw [Function.update_of_ne hi]
      by_cases hlt : i < n
      · rw [if_pos hlt,if_pos (by omega)]
      · rw [if_neg hlt,if_neg (by omega)]

theorem foldlM_mapWords (f : ℕ → WordUnit → WordUnit) (block : BitVectorBlock) :
    (List.range block.numWordUnits).foldlM (fun b i => do
      let word ← b.getWordUnit i
      b.setWordUnit i (f i word)) block = some (block.mapWords f) :=
  foldlM_words f le_rfl

/-- The block whose first `m` words are combined with those of `words`. -/
def written (opt : BitVectorOpt) (words : ℕ → WordUnit) (m : ℕ) (block : BitVectorBlock) :
    BitVectorBlock :=
  ⟨block.num,fun id => if id < m then opt.output (words id) (block.data id) else block.data id⟩

theorem written_congr {opt : BitVectorOpt} {words words' : ℕ → WordUnit} {m : ℕ}
    (h : ∀ id < m, words id = words' id) (block : BitVectorBlock) :
    written opt words m block = written opt words' m block := by
  refine congrArg (BitVectorBlock.mk block.num) (funext fun id => ?_)
  by_cases hid : id < m
  · rw [if_pos hid,if_pos hid,h id hid]
  · rw [if_neg hid,if_neg hid]

theorem store_written (opt : BitVectorOpt) (words : ℕ → WordUnit) {m : ℕ}
    (hm : m < block.numWordUnits) :
    store opt (written opt words m block) m (words m) = some (written opt words (m+1) block) := by
  have hunits : (written opt words m block).numWordUnits = block.numWordUnits := rfl
  have hold : (written opt words m block).data m = block.data m := if_neg (Nat.lt_irrefl m)
  have hstore : store opt (written opt words m block) m (words m) =
      some ⟨block.num,Function.update (written opt words m block).data m
        (opt.output (words m) (block.data m))⟩ := by
    cases opt <;> simp only [store,getWordUnit,setWordUnit,hunits,if_pos hm,hold] <;> rfl
  rw [hstore]
  refine congrArg some (congrArg (BitVectorBlock.mk block.num) (funext fun id => ?_))
  by_cases hid : id = m
  · rw [hid,Function.update_self,if_pos (Nat.lt_succ_self m)]
  · rw [Function.update_of_ne hid]
    simp only [written]
    by_cases hlt : id < m
    · rw [if_pos hlt,if_pos (by omega)]
    · rw [if_neg hlt,if_neg (by omega)]

theorem foldlM_store (opt : BitVectorOpt) (words : ℕ → WordUnit) (hn : n ≤ block.numWordUnits) :
    (List.range n).foldlM (fun b i => store opt b i (words i)) block =
      some (written opt words n block) := by
  induction n with
  | zero => rfl
  | succ n ih =>
    rw [List.range_succ,List.foldlM_append,ih (by omega)]
    simpa using store_written opt words hn

theorem num_finalize (block : BitVectorBlock) : block.finalize.num = block.num := by
  simp only [finalize]
  split <;> rfl

/-- The last word, if it is not full, is masked. -/
theorem data_finalize (block : BitVectorBlock) (i : ℕ) : block.finalize.data i =
    if block.num%64 ≠ 0 ∧ i = block.num/64 then
      block.data i &&& (BitVec.allOnes 64 <<< (64-block.num%64))
    else block.data i := by
  have hword : kNumBitsPerWord = 64 := rfl
  by_cases hfull : block.num%64 = 0
  · have hsame : block.finalize = block := if_neg (by rw [hword]; omega)
    rw [if_neg (by omega),hsame]
  · have hupdate : block.finalize = ⟨block.num,Function.update block.data (block.num/64)
        (block.data (block.num/64) &&& (BitVec.allOnes 64 <<< (64-block.num%64)))⟩ :=
      if_pos (by rw [hword]; omega)
    rw [hupdate]
    by_cases hi : i = block.num/64
    · rw [if_pos ⟨hfull,hi⟩,hi]
      exact Function.update_self _ _ _
    · rw [if_neg (by tauto)]
      exact Function.update_of_ne hi _ _

theorem finalized_finalize (block : BitVectorBlock) : block.finalize.Finalized := by
  intro k hk hlt
  rw [num_finalize] at hk
  rw [numWordUnits_congr (num_finalize block)] at hlt
  simp only [numWordUnits,kNumBitsPerWord] at hlt
  have hlast : k/64 = block.num/64 := by omega
  have hmask : (BitVec.allOnes 64 <<< (64-block.num%64)).getLsbD (63-k%64) = false := by
    rw [BitVec.getLsbD_shiftLeft,decide_eq_true (show 63-k%64 < 64-block.num%64 by omega)]
    simp
  rw [bit,wordBit_eq,kNumBitsPerWord,data_finalize,if_pos ⟨by omega,hlast⟩,BitVec.getLsbD_and,
    hmask,Bool.and_false]

theorem num_setZeros (block : BitVectorBlock) : block.setZeros.num = block.num := num_finalize _

theorem bit_setZeros (block : BitVectorBlock) {k : ℕ} (hk : k < block.num) :
    block.setZeros.bit k = false := by
  have hword : k/kNumBitsPerWord < block.numWordUnits := by
    simp only [numWordUnits,kNumBitsPerWord]
    omega
  have hfinal := bit_finalize ⟨block.num,fun i =>
    if i < block.numWordUnits then 0#64 else block.data i⟩ hk
  refine hfinal.trans ?_
  simp only [bit,if_pos hword]
  exact wordBit_zero _

/-- Words cleared one after the other leave nothing to mask. -/
theorem foldlM_setZeros (block : BitVectorBlock) :
    (List.range block.numWordUnits).foldlM (fun b i => b.setWordUnit i 0#64) block =
      some block.setZeros := by
  have hrun : ∀ n ≤ block.numWordUnits,
      (List.range n).foldlM (fun b i => b.setWordUnit i 0#64) block =
        some ⟨block.num,fun i => if i < n then 0#64 else block.data i⟩ := by
    intro n hn
    induction n with
    | zero => rfl
    | succ n ih =>
      have hunits : ∀ data, numWordUnits ⟨block.num,data⟩ = block.numWordUnits := fun _ => rfl
      rw [List.range_succ,List.foldlM_append,ih (by omega)]
      simp only [Option.bind_eq_bind,Option.bind_some,List.foldlM_cons,List.foldlM_nil,setWordUnit,
        hunits,if_pos (show n < block.numWordUnits by omega)]
      refine congrArg some (congrArg (BitVectorBlock.mk block.num) (funext fun i => ?_))
      by_cases hi : i = n
      · rw [hi,Function.update_self,if_pos (Nat.lt_succ_self n)]
      · rw [Function.update_of_ne hi]
        by_cases hlt : i < n
        · rw [if_pos hlt,if_pos (by omega)]
        · rw [if_neg hlt,if_neg (by omega)]
  rw [hrun _ le_rfl]
  have hnum : block.setZeros = ⟨block.num,block.setZeros.data⟩ :=
    congrArg (BitVectorBlock.mk · _) block.num_setZeros
  rw [hnum]
  refine congrArg some (congrArg _ (funext fun i => ?_))
  rw [setZeros,data_finalize]
  dsimp only
  by_cases hi : i < block.numWordUnits
  · rw [if_pos hi]
    split
    · exact BitVec.zero_and.symm
    · rfl
  · have hlast : ¬(block.num%64 ≠ 0 ∧ i = block.num/64) := by
      simp only [numWordUnits,kNumBitsPerWord] at hi
      omega
    rw [if_neg hi,if_neg hlast]

/-- Answers given word by word and cut at the end. -/
theorem answered_finalize {opt : BitVectorOpt} {test : ℕ → Bool} {f : ℕ → WordUnit → WordUnit}
    (h : ∀ i j, j < kNumBitsPerWord → i*kNumBitsPerWord+j < block.num →
      wordBit (f i (block.data i)) j =
        opt.combine (wordBit (block.data i) j) (test (i*kNumBitsPerWord+j))) :
    Answered opt test block (block.mapWords f).finalize := by
  refine ⟨num_finalize _,?_,fun _ => finalized_finalize _,?_⟩
  · intro k hk
    have hj := Nat.mod_lt k (show 0 < kNumBitsPerWord by decide)
    have hpos : k/kNumBitsPerWord*kNumBitsPerWord+k%kNumBitsPerWord = k := Nat.div_add_mod' k _
    have hword : k/kNumBitsPerWord < block.numWordUnits := lt_numWordUnits_iff.mpr (by omega)
    have hans := h (k/kNumBitsPerWord) (k%kNumBitsPerWord) hj (by rw [hpos]; exact hk)
    refine (bit_finalize (block.mapWords f) hk).trans ?_
    simp only [bit,mapWords]
    rw [if_pos hword,hans,hpos]
  · intro i hi
    have hunits : i*kNumBitsPerWord ≥ block.num := not_lt.mp (lt_numWordUnits_iff.not.mp hi.not_gt)
    have hnum : (block.mapWords f).num = block.num := rfl
    rw [data_finalize,hnum,if_neg (by simp only [kNumBitsPerWord] at hunits; omega)]
    exact if_neg hi.not_gt

end BitVectorBlock

/-- Two blocks with the same answers hold the same bits. -/
theorem Answered.unique {opt : BitVectorOpt} {test : ℕ → Bool} {block out out' : BitVectorBlock}
    (h : Answered opt test block out) (h' : Answered opt test block out') (hf : block.Finalized) :
    out = out' := by
  obtain ⟨num,data⟩ := out
  obtain ⟨num',data'⟩ := out'
  obtain rfl : num = block.num := h.num
  obtain rfl : num' = block.num := h'.num
  have hbit : ∀ k < block.numWordUnits*kNumBitsPerWord,
      BitVectorBlock.bit ⟨block.num,data⟩ k = BitVectorBlock.bit ⟨block.num,data'⟩ k := by
    intro k hk
    rcases Nat.lt_or_ge k block.num with hlt | hge
    · rw [h.bit k hlt,h'.bit k hlt]
    · exact (h.finalized hf k hge hk).trans (h'.finalized hf k hge hk).symm
  refine congrArg _ (funext fun i => ?_)
  rcases Nat.lt_or_ge i block.numWordUnits with hi | hi
  · refine BitVec.eq_of_getLsbD_eq fun j hj => ?_
    have hpos : i*kNumBitsPerWord+(63-j) < block.numWordUnits*kNumBitsPerWord := by
      simp only [kNumBitsPerWord]
      omega
    have hword := hbit _ hpos
    have hflip : 63-(63-j) = j := by omega
    rw [BitVectorBlock.bit_word _ _ (show 63-j < kNumBitsPerWord by
        simp only [kNumBitsPerWord]; omega),
      BitVectorBlock.bit_word _ _ (show 63-j < kNumBitsPerWord by
        simp only [kNumBitsPerWord]; omega),wordBit_eq,wordBit_eq,hflip] at hword
    exact hword
  · exact (h.rest i hi).trans (h'.rest i hi).symm

end ElfIndex.Bitweaving
