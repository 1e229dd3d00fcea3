import ElfIndex.Bitweaving.ColumnBlock

/-! # Blocks of a naive column

One word for each code. A scan builds the words of answers bit by bit; it does not compare its
length with that of the bit vector and clears the words behind its codes.
-/
namespace ElfIndex.Bitweaving
open Bitmap

structure NaiveColumnBlock where
  num : ℕ
  data : ℕ → WordUnit

namespace NaiveColumnBlock

/-- The constructor; the words of a new block hold anything. -/
def create (words : ℕ → WordUnit) : NaiveColumnBlock := ⟨0,words⟩

def resize (b : NaiveColumnBlock) (num : ℕ) : Option NaiveColumnBlock :=
  if num ≤ kNumCodesPerBlock then some {b with num := num} else none

def getCode (b : NaiveColumnBlock) (pos : ℕ) : Except String ℕ :=
  if pos ≥ b.num then .error "GetCode: position overflow"
  else .ok ((b.data pos).setWidth 32).toNat

def setCode (b : NaiveColumnBlock) (pos code : ℕ) : Status × NaiveColumnBlock :=
  if pos ≥ b.num then (.invalidArgument "SetCode: position overflow",b)
  else (.ok,{b with data := Function.update b.data pos (BitVec.ofNat 64 code)})

def bulkload (b : NaiveColumnBlock) (codes : List ℕ) (startTupleId : ℕ) :
    Option NaiveColumnBlock :=
  if startTupleId+codes.length ≤ b.num then
    some {b with data := codes.zipIdx.foldl (fun data c =>
      Function.update data (startTupleId+c.2) (BitVec.ofNat 64 c.1)) b.data}
  else none

/-- The word of answers that starts at `offset`. -/
def wordUnit (num : ℕ) (test : ℕ → Bool) (offset : ℕ) : WordUnit :=
  (List.range kNumBitsPerWord).foldl (fun wordUnit i =>
    if offset+i ≥ num then wordUnit
    else
      let bit := if test (offset+i) then 1#64 else 0#64
      wordUnit ||| (bit <<< (kNumBitsPerWord-1-i))) 0#64

/-- The loops of the scans over the first `num` codes, given the answer for a position. -/
def scanWith (b : NaiveColumnBlock) (num : ℕ) (test : ℕ → Bool) (bitvector : BitVectorBlock)
    (opt : BitVectorOpt) : Option BitVectorBlock := do
  let words := (num+kNumBitsPerWord-1)/kNumBitsPerWord
  let bitvector ← (List.range words).foldlM (fun bitvector wordUnitId =>
    bitvector.store opt wordUnitId (wordUnit b.num test (wordUnitId*kNumBitsPerWord))) bitvector
  -- the codes are missing in this region
  (List.range' words (bitvector.numWordUnits-words)).foldlM (fun bitvector wordUnitId =>
    bitvector.setWordUnit wordUnitId 0#64) bitvector

def scan (b : NaiveColumnBlock) (comparator : Comparator) (literal : ℕ)
    (bitvector : BitVectorBlock) (opt : BitVectorOpt) : Option (Status × BitVectorBlock) :=
  (b.scanWith b.num (fun id => comparator.test literal (b.data id).toNat) bitvector opt).map
    fun out => (.ok,out)

def scanBetween (b : NaiveColumnBlock) (literal1 literal2 : ℕ) (bitvector : BitVectorBlock)
    (opt : BitVectorOpt) : Option (Status × BitVectorBlock) :=
  (b.scanWith b.num (fun id => isIn literal1 literal2 (b.data id).toNat) bitvector opt).map
    fun out => (.ok,out)

/-- The variable for the code behind a read by `GetCode`; a read that fails leaves it alone. -/
def readCode (read : Except String ℕ) (stale : ℕ) : ℕ :=
  match read with
  | .ok code => code
  | .error _ => stale

/-- The scan against a block of any type with `num` codes, which are read by its `GetCode`.
Behind the end of that block the variable for the code holds `stale`. -/
def scanColumn (b : NaiveColumnBlock) (comparator : Comparator) (num : ℕ)
    (getCode : ℕ → Except String ℕ) (stale : ℕ → ℕ) (bitvector : BitVectorBlock)
    (opt : BitVectorOpt) : Option (Status × BitVectorBlock) :=
  if bitvector.num ≠ b.num then
    some (.invalidArgument "Bit vector length does not match column length.",bitvector)
  else
    (b.scanWith (min b.num num) (fun id =>
      comparator.test (readCode (getCode id) (stale id)) (b.data id).toNat) bitvector opt).map fun out => (.ok,out)

variable {b : NaiveColumnBlock} {bitvector : BitVectorBlock}

/-- The code that the scans compare. -/
def code (b : NaiveColumnBlock) (pos : ℕ) : ℕ := (b.data pos).toNat

theorem resize_eq (b : NaiveColumnBlock) {num : ℕ} (h : num ≤ kNumCodesPerBlock) :
    b.resize num = some ⟨num,b.data⟩ := if_pos h

theorem setCode_eq (b : NaiveColumnBlock) {pos : ℕ} (hpos : pos < b.num) (c : ℕ) :
    (b.setCode pos c).2 = ⟨b.num,Function.update b.data pos (BitVec.ofNat 64 c)⟩ := by
  unfold setCode
  rw [if_neg (Nat.not_le.mpr hpos)]

theorem code_setCode (b : NaiveColumnBlock) {pos c : ℕ} (hpos : pos < b.num) (hc : c < 2^64)
    (pos' : ℕ) : (b.setCode pos c).2.code pos' = if pos' = pos then c else b.code pos' := by
  rw [setCode_eq b hpos,code]
  by_cases hsame : pos' = pos
  · rw [if_pos hsame,hsame]
    dsimp only
    rw [Function.update_self,BitVec.toNat_ofNat,Nat.mod_eq_of_lt hc]
  · rw [if_neg hsame]
    dsimp only
    rw [Function.update_of_ne hsame]
    rfl

theorem getLsbD_wordUnit (num : ℕ) (test : ℕ → Bool) (offset : ℕ) {p : ℕ} (hp : p < 64) :
    (wordUnit num test offset).getLsbD p =
      (decide (offset+(63-p) < num) && test (offset+(63-p))) := by
  have hfirst : ∀ m ≤ 64, ((List.range m).foldl (fun (wordUnit : WordUnit) i =>
      if offset+i ≥ num then wordUnit
      else
        let bit := if test (offset+i) then 1#64 else 0#64
        wordUnit ||| (bit <<< (kNumBitsPerWord-1-i))) 0#64).getLsbD p =
      (decide (63-p < m) && (decide (offset+(63-p) < num) && test (offset+(63-p)))) := by
    intro m hm
    induction m with
    | zero => simp
    | succ m ih =>
      rw [List.range_succ,List.foldl_append,List.foldl_cons,List.foldl_nil]
      have hbit : ∀ a : Bool, ((if a then 1#64 else 0#64) <<< (kNumBitsPerWord-1-m)).getLsbD p =
          (decide (63-p = m) && a) := by
        intro a
        rw [BitVec.getLsbD_shiftLeft,kNumBitsPerWord]
        cases a
        · simp
        · rw [if_pos rfl,BitVec.getLsbD_one,Bool.eq_iff_iff]
          simp
          omega
      by_cases hend : offset+m ≥ num
      · rw [if_pos hend,ih (by omega)]
        by_cases hm' : 63-p = m
        · rw [hm',decide_eq_false (show ¬offset+m < num by omega),Bool.false_and,Bool.and_false,
            Bool.and_false]
        · congr 1
          exact decide_eq_decide.mpr (by omega)
      · rw [if_neg hend]
        dsimp only
        rw [BitVec.getLsbD_or,ih (by omega),hbit]
        by_cases hm' : 63-p = m
        · rw [hm',decide_eq_true (show offset+m < num by omega),
            decide_eq_false (Nat.lt_irrefl m),decide_eq_true (Nat.lt_succ_self m),
            decide_eq_true rfl]
          rfl
        · rw [decide_eq_false hm',Bool.false_and,Bool.or_false]
          congr 1
          exact decide_eq_decide.mpr (by omega)
  have hall := hfirst 64 le_rfl
  rwa [decide_eq_true (show 63-p < 64 by omega),Bool.true_and] at hall

/-- A scan over all codes of a bit vector of the same length. -/
theorem scanWith_answered (hnum : bitvector.num = b.num) (test : ℕ → Bool) (opt : BitVectorOpt) :
    ∃ out, b.scanWith b.num test bitvector opt = some out ∧ Answered opt test bitvector out := by
  have hwords : (b.num+kNumBitsPerWord-1)/kNumBitsPerWord = bitvector.numWordUnits := by
    rw [BitVectorBlock.numWordUnits,hnum]
  refine ⟨bitvector.written opt (fun id => wordUnit b.num test (id*kNumBitsPerWord))
    bitvector.numWordUnits,?_,⟨rfl,?_,?_,?_⟩⟩
  · have hunits : ∀ words m, (bitvector.written opt words m).numWordUnits =
        bitvector.numWordUnits := fun _ _ => rfl
    rw [scanWith,hwords,BitVectorBlock.foldlM_store opt _ le_rfl]
    simp only [Option.bind_eq_bind,Option.bind_some,hunits,Nat.sub_self]
    rfl
  · intro k hk
    have hword : k/kNumBitsPerWord < bitvector.numWordUnits := by
      simp only [BitVectorBlock.numWordUnits,kNumBitsPerWord]
      omega
    have hpos : k/64*64+(63-(63-k%64)) = k := by omega
    simp only [BitVectorBlock.bit,BitVectorBlock.written]
    rw [if_pos hword,wordBit_eq,wordBit_eq,opt.getLsbD_output,kNumBitsPerWord,
      getLsbD_wordUnit _ _ _ (by omega),hpos,decide_eq_true (by omega),Bool.true_and]
  · intro hfinal k hk hlt
    have hold := hfinal k hk hlt
    have hword : k/kNumBitsPerWord < bitvector.numWordUnits := Nat.div_lt_of_lt_mul
      (by rw [Nat.mul_comm]; exact hlt)
    have hpos : k/64*64+(63-(63-k%64)) = k := by omega
    have hend : ¬k < b.num := by
      have hsame : (bitvector.written opt (fun id => wordUnit b.num test (id*kNumBitsPerWord))
        bitvector.numWordUnits).num = bitvector.num := rfl
      omega
    simp only [BitVectorBlock.bit,BitVectorBlock.written] at hold ⊢
    rw [wordBit_eq] at hold ⊢
    rw [if_pos hword,opt.getLsbD_output,hold,kNumBitsPerWord,getLsbD_wordUnit _ _ _ (by omega),hpos,
      decide_eq_false hend]
    cases opt <;> rfl
  · intro id hid
    exact if_neg hid.not_gt

/-- Without codes the whole bit vector is cleared. -/
theorem scanWith_empty (b : NaiveColumnBlock) (test : ℕ → Bool) (bitvector : BitVectorBlock)
    (opt : BitVectorOpt) : b.scanWith 0 test bitvector opt = some bitvector.setZeros := by
  have hwords : (0+kNumBitsPerWord-1)/kNumBitsPerWord = 0 := rfl
  rw [scanWith,hwords,List.range_zero,List.foldlM_nil]
  simp only [Option.pure_def,Option.bind_eq_bind,Option.bind_some,Nat.sub_zero]
  rw [← List.range_eq_range',BitVectorBlock.foldlM_setZeros]

section Scans

variable (hnum : bitvector.num = b.num) (opt : BitVectorOpt)

include hnum

/-- Every literal is answered. -/
theorem scan_answered (comparator : Comparator) (literal : ℕ) :
    ∃ out, b.scan comparator literal bitvector opt = some (.ok,out) ∧
      Answered opt (fun k => comparator.test literal (b.code k)) bitvector out := by
  obtain ⟨out,hrun,hout⟩ := scanWith_answered hnum
    (fun id => comparator.test literal (b.data id).toNat) opt
  exact ⟨out,by rw [scan,hrun]; rfl,hout⟩

theorem scanBetween_answered (literal1 literal2 : ℕ) :
    ∃ out, b.scanBetween literal1 literal2 bitvector opt = some (.ok,out) ∧
      Answered opt (fun k => isIn literal1 literal2 (b.code k)) bitvector out := by
  obtain ⟨out,hrun,hout⟩ := scanWith_answered hnum
    (fun id => isIn literal1 literal2 (b.data id).toNat) opt
  exact ⟨out,by rw [scanBetween,hrun]; rfl,hout⟩

end Scans

end NaiveColumnBlock
end ElfIndex.Bitweaving
