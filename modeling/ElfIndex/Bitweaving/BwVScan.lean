import ElfIndex.Bitweaving.BwVCodes

/-! # Scans of a BitWeaving/V block

The early exits of a scan leave out only bits that would not change the masks any more, so a
segment is compared as if all its slices were read.
-/
namespace ElfIndex.Bitweaving
open Bitmap BitSlices

namespace BwVColumnBlock

variable {n : ℕ}

/-! ## Early exits -/

section Segment

variable {σ : Type*} {live : σ → Bool} {bit : ℕ → ℕ → ℕ → σ → σ} {segmentId : ℕ} {s : σ}

/-- The first `k` slices of a segment. -/
def slices (n : ℕ) (bit : ℕ → ℕ → ℕ → σ → σ) (segmentId k : ℕ) (s : σ) : σ :=
  (List.range k).foldl (fun s j =>
    bit (slot n segmentId j).1 (slot n segmentId j).2 j s) s

theorem slices_add (bit : ℕ → ℕ → ℕ → σ → σ) (segmentId : ℕ) (s : σ) (k m : ℕ) : slices n bit segmentId (k+m) s =
    (List.range m).foldl (fun s j =>
      bit (slot n segmentId (k+j)).1 (slot n segmentId (k+j)).2 (k+j) s)
      (slices n bit segmentId k s) := by
  rw [slices,List.range_add,List.foldl_append,List.foldl_map]
  rfl

/-- A state that is not live any more stays as it is. -/
theorem slices_dead (hdead : ∀ g w p s, live s = false → bit g w p s = s) {k m : ℕ} (hkm : k ≤ m)
    (h : live (slices n bit segmentId k s) = false) :
    slices n bit segmentId m s = slices n bit segmentId k s := by
  obtain ⟨d,rfl⟩ := Nat.exists_eq_add_of_le hkm
  rw [slices_add]
  induction d with
  | zero => rfl
  | succ d ih =>
    rw [List.range_succ,List.foldl_append,ih (Nat.le_add_right k d),List.foldl_cons,
      List.foldl_nil,hdead _ _ _ _ h]

/-- The pointer moves along with the slices. -/
theorem foldl_pointer (m : ℕ) (group word : ℕ → ℕ) (s : σ) (ptr : ℕ) :
    (List.range m).foldl (fun s j => (bit (group j) (word j) s.2 s.1,s.2+1)) (s,ptr) =
      ((List.range m).foldl (fun s j => bit (group j) (word j) (ptr+j) s) s,ptr+m) := by
  induction m with
  | zero => rfl
  | succ m ih =>
    rw [List.range_succ,List.foldl_append,List.foldl_append,ih]
    rfl

theorem iteration_full {g : ℕ} (hg : g < kNumFullGroups n) :
    iteration n bit g (segmentId*kNumWordsPerSegment) (slices n bit segmentId (g*4) s,g*4) =
      (slices n bit segmentId ((g+1)*4) s,(g+1)*4) := by
  have hbits : kNumBitsPerGroup = 4 := rfl
  rw [iteration,if_neg hg.ne,foldl_pointer,Nat.succ_mul,slices_add,hbits]
  refine congrArg (·,g*4+4) (List.foldl_ext _ _ _ fun s j hj => ?_)
  have hj := List.mem_range.mp hj
  have hgroup : (g*4+j)/4 = g := by omega
  have hword : (g*4+j)%4 = j := by omega
  rw [slot_full (by rw [hbits]; omega),hbits,hgroup,hword]

theorem iteration_last : iteration n bit (kNumFullGroups n) (segmentId*kNumBitsLastGroup n)
    (slices n bit segmentId (kNumFullGroups n*4) s,kNumFullGroups n*4) =
      (slices n bit segmentId n s,n) := by
  have hbits : kNumBitsPerGroup = 4 := rfl
  have hsplit := kNumBits_split n
  rw [hbits] at hsplit
  have hall := slices_add (n:=n) bit segmentId s (kNumFullGroups n*4) (kNumBitsLastGroup n)
  rw [hsplit] at hall
  rw [iteration,if_pos rfl,foldl_pointer,hsplit,hall]
  refine congrArg (·,n) (List.foldl_ext _ _ _ fun s j _ => ?_)
  rw [slot_last (by rw [hbits]; omega),hbits,Nat.add_sub_cancel_left]

/-- The nested tests end live behind all full groups, or with nothing left to do. -/
theorem scanGroups_spec (hdead : ∀ g w p s, live s = false → bit g w p s = s) (segmentId : ℕ)
    (s : σ) (levels : ℕ) {g : ℕ} (hg : g ≤ kNumFullGroups n) (hlevels : kNumFullGroups n ≤ g+levels) :
    let r := scanGroups n live bit (segmentId*kNumWordsPerSegment) levels g
      (slices n bit segmentId (g*4) s,g*4)
    r = (slices n bit segmentId (kNumFullGroups n*4) s,kNumFullGroups n*4) ∨
      live r.1 = false ∧ r.1 = slices n bit segmentId n s := by
  have hn : n/4 = kNumFullGroups n := rfl
  induction levels generalizing g with
  | zero =>
    obtain rfl : g = kNumFullGroups n := by omega
    exact .inl rfl
  | succ levels ih =>
    by_cases hnext : n ≥ 4*(g+1) ∧ live (slices n bit segmentId (g*4) s) = true
    · have hstep : scanGroups n live bit (segmentId*kNumWordsPerSegment) (levels+1) g
          (slices n bit segmentId (g*4) s,g*4) = scanGroups n live bit
            (segmentId*kNumWordsPerSegment) levels (g+1)
            (slices n bit segmentId ((g+1)*4) s,(g+1)*4) :=
        (if_pos hnext).trans (by rw [iteration_full (by omega)])
      rw [hstep]
      exact ih (by omega) (by omega)
    · have hstep : scanGroups n live bit (segmentId*kNumWordsPerSegment) (levels+1) g
          (slices n bit segmentId (g*4) s,g*4) = (slices n bit segmentId (g*4) s,g*4) :=
        if_neg hnext
      rw [hstep]
      by_cases hlive : live (slices n bit segmentId (g*4) s) = true
      · obtain rfl : g = kNumFullGroups n := by
          rcases not_and_or.mp hnext with h | h
          · omega
          · exact absurd hlive h
        exact .inl rfl
      · have hstop := Bool.eq_false_iff.mpr hlive
        exact .inr ⟨hstop,(slices_dead hdead (by omega) hstop).symm⟩

/-- A segment is handled as if all its slices were read. -/
theorem scanSegment_eq (hdead : ∀ g w p s, live s = false → bit g w p s = s) (hn : n ≤ 32) :
    scanSegment n live bit (segmentId*kNumWordsPerSegment) s = slices n bit segmentId n s := by
  have hfull : kNumFullGroups n = n/4 := rfl
  have hsplit := kNumBits_split n
  have hwords : segmentId*kNumWordsPerSegment/kNumWordsPerSegment = segmentId :=
    Nat.mul_div_cancel _ (by decide)
  have hgroups := scanGroups_spec hdead segmentId s 8 (Nat.zero_le _)
    (by omega : kNumFullGroups n ≤ 0+8)
  rw [Nat.zero_mul] at hgroups
  have hzero : slices n bit segmentId 0 s = s := rfl
  rw [hzero] at hgroups
  unfold scanSegment
  dsimp only
  rw [hwords]
  rcases hgroups with hend | ⟨hstop,hall⟩
  · rw [hend]
    by_cases hlive : live (slices n bit segmentId (kNumFullGroups n*4) s) = true
    · by_cases hlast : kNumBitsLastGroup n = 0
      · rw [if_neg (fun h => h.1 hlast)]
        simp only [kNumBitsPerGroup] at hsplit
        have hsame : kNumFullGroups n*4 = n := by omega
        rw [hsame]
      · rw [if_pos ⟨hlast,hlive⟩,iteration_last]
    · rw [if_neg (fun h => hlive h.2)]
      exact (slices_dead hdead (by omega) (Bool.eq_false_iff.mpr hlive)).symm
  · rw [if_neg (fun h => Bool.false_ne_true (hstop.symm.trans h.2))]
    exact hall

end Segment

/-! ## Segments -/

/-- All lanes hold the bit of the literal. -/
theorem getLsbD_literalBits {literal bitId i : ℕ} (hn : n ≤ 32) (hi : i < 64) :
    (literalBits n literal bitId).getLsbD i = literal.testBit (n-1-bitId) := by
  have hbit : ((BitVec.ofNat 64 literal >>> (n-1-bitId)).getLsbD 0) = literal.testBit (n-1-bitId) := by
    rw [BitVec.getLsbD_ushiftRight,Nat.add_zero,BitVec.getLsbD_ofNat,decide_eq_true (by omega),
      Bool.true_and]
  rw [literalBits,BitVec.and_one_eq_setWidth_ofBool_getLsbD,hbit]
  cases literal.testBit (n-1-bitId)
  · simp
  · have hones : (0#64-(BitVec.ofBool true).setWidth 64) = BitVec.allOnes 64 := by decide
    rw [hones,BitVec.getLsbD_allOnes,decide_eq_true hi]

/-- The masks that a scan with the comparator keeps. -/
def keep (comparator : Comparator) (m : Masks 64) : Masks 64 :=
  match comparator with
  | .kEqual | .kInequal => {m with less := 0#64, greater := 0#64}
  | .kLess | .kLessEqual => {m with greater := 0#64}
  | .kGreater | .kGreaterEqual => {m with less := 0#64}

theorem scanBit_keep (comparator : Comparator) (word other : WordUnit) (m : Masks 64) :
    scanBit comparator word other (keep comparator m) = keep comparator (m.bit word other) := by
  cases comparator <;> rfl

theorem scanMask_keep (comparator : Comparator) (m : Masks 64) :
    scanMask comparator (keep comparator m) = scanMask comparator m := by
  cases comparator <;> rfl

theorem keep_start (comparator : Comparator) (lanes : WordUnit) :
    keep comparator (Masks.start lanes) = Masks.start lanes := by
  cases comparator <;> rfl

theorem scanBit_dead (comparator : Comparator) (word other : WordUnit) {m : Masks 64}
    (h : (m.equal != 0#64) = false) : scanBit comparator word other m = m := by
  have hzero : m.equal = 0#64 := by simpa using h
  cases comparator <;> ext <;> simp [scanBit,hzero]

theorem slices_keep (comparator : Comparator) (data other : ℕ → ℕ → ℕ → WordUnit)
    (segmentId k : ℕ) (lanes : WordUnit) :
    slices n (fun groupId wordId ptr => scanBit comparator (data groupId wordId ptr)
        (other groupId wordId ptr)) segmentId k (Masks.start lanes) =
      keep comparator (Masks.run
        (fun j => data (slot n segmentId j).1 (slot n segmentId j).2 j)
        (fun j => other (slot n segmentId j).1 (slot n segmentId j).2 j) k (Masks.start lanes)) := by
  induction k with
  | zero => exact (keep_start comparator lanes).symm
  | succ k ih =>
    rw [slices_add,ih,Masks.run_succ,← scanBit_keep]
    rfl

/-- The mask of a lane in which `a` and `b` have been compared. -/
theorem getLsbD_scanMask (comparator : Comparator) {lanes : WordUnit} {i a b : ℕ} {m : Masks 64}
    (hi : i < 64) (h : Masks.Lane lanes i a b 0 m) (hlane : lanes.getLsbD i = true) :
    (scanMask comparator m).getLsbD i = comparator.test b a := by
  obtain ⟨hequal,hless,hgreater⟩ := h
  rw [hlane,Bool.true_and,Nat.shiftRight_zero,Nat.shiftRight_zero] at hequal hless hgreater
  cases comparator
  · exact hequal
  · simp only [scanMask,BitVec.getLsbD_not,hequal,decide_eq_true hi,Bool.true_and]
    rfl
  · exact hgreater
  · exact hless
  · simp only [scanMask,BitVec.getLsbD_or,hgreater,hequal,Comparator.test]
    rw [Bool.eq_iff_iff]
    simp
    omega
  · simp only [scanMask,BitVec.getLsbD_or,hless,hequal,Comparator.test]
    rw [Bool.eq_iff_iff]
    simp
    omega

/-- The answers of a segment, for words that hold the bits of `value`. -/
theorem getLsbD_segmentMask (hn : n ≤ 32) (b : BwVColumnBlock n) (comparator : Comparator)
    (other : ℕ → ℕ → ℕ → WordUnit) {segmentId i value : ℕ} {lanes : WordUnit} (hi : i < 64)
    (hvalue : value < 2^n) (hlane : lanes.getLsbD i = true)
    (hother : ∀ j < n, (other (slot n segmentId j).1 (slot n segmentId j).2 j).getLsbD i =
      value.testBit (n-1-j)) :
    (b.segmentMask comparator other (segmentId*kNumWordsPerSegment) lanes).getLsbD i =
      comparator.test value (b.code (segmentId*64+(63-i))) := by
  have hsegment : kNumCodesPerSegment = 64 := rfl
  have hdiv : (segmentId*64+(63-i))/64 = segmentId := by omega
  have hmod : 63-(segmentId*64+(63-i))%64 = i := by omega
  rw [segmentMask,scanSegment_eq (fun _ _ _ _ h => scanBit_dead comparator _ _ h) hn,
    slices_keep comparator (fun groupId wordId _ => b.data groupId wordId) other,scanMask_keep]
  refine getLsbD_scanMask comparator hi
    (Masks.Lane.run lanes hi (b.code_lt _) hvalue (fun j hj => ?_) hother) hlane
  have hback : n-1-(n-1-j) = j := by omega
  rw [testBit_code b _ (by omega),hsegment,hdiv,hmod,hback,plane]

/-! ## Answers -/

/-- The number of words follows the number of codes. -/
def Sized (b : BwVColumnBlock n) : Prop :=
  b.numUsedWords = (b.num+kNumCodesPerSegment-1)/kNumCodesPerSegment*kNumWordsPerSegment

theorem sized_create (n : ℕ) : (create n).Sized := by
  simp [Sized,create,kNumCodesPerSegment,kNumBitsPerWord]

theorem resize_eq (b : BwVColumnBlock n) {num : ℕ} (h : num ≤ kNumCodesPerBlock) :
    ∃ b', b.resize num = some b' ∧ b'.Sized ∧ b'.num = num ∧ b'.data = b.data :=
  ⟨_,if_pos h,rfl,rfl,rfl⟩

theorem sized_setCode {b : BwVColumnBlock n} (h : b.Sized) (pos c : ℕ) :
    (b.setCode pos c).2.Sized := by
  rw [Sized,num_setCode,numUsedWords_setCode]
  exact h

end BwVColumnBlock

/-- Lanes that the scan did not look at keep their bits. -/
theorem BitVectorOpt.getLsbD_output_lanes (opt : BitVectorOpt) {mask old : WordUnit} {i : ℕ}
    {answer : Bool} (hi : i < 64)
    (h : (opt.lanes old).getLsbD i = true → mask.getLsbD i = answer) :
    (opt.output mask old).getLsbD i = opt.combine (old.getLsbD i) answer := by
  rw [opt.getLsbD_output]
  cases opt
  · exact h (by rw [lanes,BitVec.getLsbD_allOnes,decide_eq_true hi])
  · cases hold : old.getLsbD i
    · rfl
    · rw [h hold]
  · cases hold : old.getLsbD i
    · rw [h (by rw [lanes,BitVec.getLsbD_not,hold,decide_eq_true hi]; rfl)]
    · rfl

namespace BwVColumnBlock

variable {n : ℕ} {b : BwVColumnBlock n} {bitvector : BitVectorBlock}

theorem numSegments (h : b.Sized) (hnum : bitvector.num = b.num) :
    (b.numUsedWords+kNumWordsPerSegment-1)/kNumWordsPerSegment = bitvector.numWordUnits := by
  simp only [Sized,kNumCodesPerSegment,kNumWordsPerSegment,kNumBitsPerGroup,kNumBitsPerWord] at h
  simp only [BitVectorBlock.numWordUnits,kNumWordsPerSegment,kNumBitsPerGroup,kNumBitsPerWord,hnum]
  omega

/-- The loop over the segments answers for all codes of the block. -/
theorem forSegments_answered (hsized : b.Sized) (hnum : bitvector.num = b.num) (opt : BitVectorOpt)
    {segment : ℕ → WordUnit → WordUnit} (test : ℕ → Bool)
    (h : ∀ segmentId i lanes, i < 64 → lanes.getLsbD i = true →
      (segment (segmentId*kNumWordsPerSegment) lanes).getLsbD i = test (segmentId*64+(63-i))) :
    ∃ out, b.forSegments opt segment bitvector = some out ∧ Answered opt test bitvector out := by
  have hid : ∀ i : ℕ, i*kNumWordsPerSegment/kNumWordsPerSegment = i := fun i =>
    Nat.mul_div_cancel _ (by decide)
  refine ⟨(bitvector.mapWords fun i word =>
      opt.output (segment (i*kNumWordsPerSegment) (opt.lanes word)) word).finalize,?_,
    BitVectorBlock.answered_finalize fun i j hj _ => ?_⟩
  · have hwords := BitVectorBlock.foldlM_mapWords (fun i word =>
      opt.output (segment (i*kNumWordsPerSegment) (opt.lanes word)) word) bitvector
    simp only [forSegments,numSegments hsized hnum,hid]
    rw [hwords]
    rfl
  · have hword : kNumBitsPerWord = 64 := rfl
    rw [hword] at hj ⊢
    have hback : 63-(63-j) = j := by omega
    rw [wordBit_eq,wordBit_eq]
    refine opt.getLsbD_output_lanes (by omega) fun hlane => ?_
    rw [h _ _ _ (by omega) hlane,hback]

/-- A scan with a literal. -/
theorem scan_answered (hn : n ≤ 32) (hsized : b.Sized) (hnum : bitvector.num = b.num)
    (comparator : Comparator) {literal : ℕ} (hliteral : literal < 2^n) (opt : BitVectorOpt) :
    ∃ out, b.scan comparator literal bitvector opt = some (.ok,out) ∧
      Answered opt (fun k => comparator.test literal (b.code k)) bitvector out := by
  obtain ⟨out,hrun,hout⟩ := forSegments_answered hsized hnum opt
    (fun k => comparator.test literal (b.code k))
    (fun segmentId i lanes hi hlane => getLsbD_segmentMask hn b comparator
      (fun _ _ ptr => literalBits n literal ptr) hi hliteral hlane
      fun j _ => getLsbD_literalBits hn hi)
  refine ⟨out,?_,hout⟩
  rw [scan,if_neg (not_not.mpr hnum),if_neg (Nat.not_le.mpr hliteral),hrun]
  rfl

/-- A scan against another block compares the codes of the same position. -/
theorem scanColumn_answered (hn : n ≤ 32) (hsized : b.Sized) (hnum : bitvector.num = b.num)
    (comparator : Comparator) {columnBlock : BwVColumnBlock n} (hlength : columnBlock.num = b.num)
    (opt : BitVectorOpt) :
    ∃ out, b.scanColumn comparator columnBlock bitvector opt = some (.ok,out) ∧
      Answered opt (fun k => comparator.test (columnBlock.code k) (b.code k)) bitvector out := by
  have hsegment : kNumCodesPerSegment = 64 := rfl
  obtain ⟨out,hrun,hout⟩ := forSegments_answered hsized hnum opt
    (fun k => comparator.test (columnBlock.code k) (b.code k))
    (fun segmentId i lanes hi hlane => getLsbD_segmentMask hn b comparator
      (fun groupId wordId _ => columnBlock.data groupId wordId) hi (columnBlock.code_lt _) hlane fun j hj => by
        have hdiv : (segmentId*64+(63-i))/64 = segmentId := by omega
        have hmod : 63-(segmentId*64+(63-i))%64 = i := by omega
        have hback : n-1-(n-1-j) = j := by omega
        rw [testBit_code _ _ (by omega),hsegment,hdiv,hmod,hback,plane])
  refine ⟨out,?_,hout⟩
  rw [scanColumn,if_neg (not_not.mpr hnum),if_neg (not_not.mpr hlength),hrun]
  rfl

/-! ## Two literals at once -/

theorem betweenBit_dead (word literal1 literal2 : WordUnit) {m : BetweenMasks}
    (h : (m.equal1 != 0#64 || m.equal2 != 0#64) = false) :
    betweenBit word literal1 literal2 m = m := by
  obtain ⟨hequal1,hequal2⟩ := Bool.or_eq_false_iff.mp h
  have hzero1 : m.equal1 = 0#64 := by simpa using hequal1
  have hzero2 : m.equal2 = 0#64 := by simpa using hequal2
  ext <;> simp [betweenBit,hzero1,hzero2]

/-- Each literal has the masks of a comparison of its own. -/
theorem slices_between (b : BwVColumnBlock n) (literal1 literal2 segmentId k : ℕ)
    (lanes : WordUnit) :
    slices n (fun groupId wordId ptr => betweenBit (b.data groupId wordId)
        (literalBits n literal1 ptr) (literalBits n literal2 ptr)) segmentId k
        ⟨lanes,lanes,0#64,0#64⟩ =
      let m1 := Masks.run (b.plane segmentId) (literalBits n literal1) k (Masks.start lanes)
      let m2 := Masks.run (b.plane segmentId) (literalBits n literal2) k (Masks.start lanes)
      ⟨m1.equal,m2.equal,m2.less,m1.greater⟩ := by
  induction k with
  | zero => rfl
  | succ k ih =>
    rw [slices_add,ih]
    simp only [Masks.run_succ]
    rfl

theorem getLsbD_betweenMask (hn : n ≤ 32) (b : BwVColumnBlock n) {literal1 literal2 : ℕ}
    (h1 : literal1 < 2^n) (h2 : literal2 < 2^n) {segmentId i : ℕ} {lanes : WordUnit} (hi : i < 64)
    (hlane : lanes.getLsbD i = true) :
    (b.betweenMask literal1 literal2 (segmentId*kNumWordsPerSegment) lanes).getLsbD i =
      isIn literal1 literal2 (b.code (segmentId*64+(63-i))) := by
  have hsegment : kNumCodesPerSegment = 64 := rfl
  have hdiv : (segmentId*64+(63-i))/64 = segmentId := by omega
  have hmod : 63-(segmentId*64+(63-i))%64 = i := by omega
  have hdata : ∀ j < n, (b.plane segmentId j).getLsbD i =
      (b.code (segmentId*64+(63-i))).testBit (n-1-j) := by
    intro j hj
    have hback : n-1-(n-1-j) = j := by omega
    rw [testBit_code b _ (by omega),hsegment,hdiv,hmod,hback]
  obtain ⟨hequal1,_,hgreater1⟩ := Masks.Lane.run lanes hi (b.code_lt _) h1 hdata
    fun j _ => getLsbD_literalBits hn hi
  obtain ⟨hequal2,hless2,_⟩ := Masks.Lane.run lanes hi (b.code_lt _) h2 hdata
    fun j _ => getLsbD_literalBits hn hi
  rw [hlane,Bool.true_and,Nat.shiftRight_zero,Nat.shiftRight_zero] at hequal1 hgreater1 hequal2 hless2
  rw [betweenMask,scanSegment_eq (fun _ _ _ _ h => betweenBit_dead _ _ _ h) hn,slices_between]
  simp only [BitVec.getLsbD_and,BitVec.getLsbD_or,hequal1,hgreater1,hequal2,hless2,isIn]
  rw [Bool.eq_iff_iff]
  simp
  omega

theorem scanBetween_answered (hn : n ≤ 32) (hsized : b.Sized) (hnum : bitvector.num = b.num)
    {literal1 literal2 : ℕ} (h1 : literal1 < 2^n) (h2 : literal2 < 2^n) (opt : BitVectorOpt) :
    ∃ out, b.scanBetween literal1 literal2 bitvector opt = some (.ok,out) ∧
      Answered opt (fun k => isIn literal1 literal2 (b.code k)) bitvector out := by
  obtain ⟨out,hrun,hout⟩ := forSegments_answered hsized hnum opt
    (fun k => isIn literal1 literal2 (b.code k))
    (fun segmentId i lanes hi hlane => getLsbD_betweenMask hn b h1 h2 hi hlane)
  refine ⟨out,?_,hout⟩
  rw [scanBetween,if_neg (not_not.mpr hnum),if_neg (Nat.not_le.mpr h1),if_neg (Nat.not_le.mpr h2),
    hrun]
  rfl

end BwVColumnBlock
end ElfIndex.Bitweaving
