import ElfIndex.Bitweaving.BwHColumnBlock
import ElfIndex.Lib.PackedFields

/-! # The codes of a BitWeaving/H block

Different positions have different places in the words. `SetCode` adds the bits of a code to
those of its place, so it stores the code only where the place was clear, and the spare bits
stay clear.
-/
namespace ElfIndex.Bitweaving.BwHColumnBlock
open Bitmap PackedFields

variable {n : ℕ}

/-- The bits at the place of a code. -/
def code (b : BwHColumnBlock n) (pos : ℕ) : ℕ := (b.data (wordId n pos)).toNat/2^shift n pos%2^n

/-- The spare bits and the bits behind the last code of a word are clear. -/
def Clean (b : BwHColumnBlock n) : Prop :=
  ∀ id p, p%(n+1) = n ∨ kNumCodesPerSegment n ≤ p → (b.data id).getLsbD p = false

theorem code_lt (b : BwHColumnBlock n) (pos : ℕ) : b.code pos < 2^n :=
  Nat.mod_lt _ (Nat.two_pow_pos n)

theorem testBit_code (b : BwHColumnBlock n) (pos j : ℕ) : (b.code pos).testBit j =
    (decide (j < n) && (b.data (wordId n pos)).getLsbD (shift n pos+j)) := by
  rw [code,Nat.testBit_mod_two_pow,Nat.testBit_div_two_pow,Nat.add_comm j]
  rfl

/-! ## Places -/

theorem kNumCodesPerSegment_eq (n : ℕ) : kNumCodesPerSegment n = (n+1)*kNumCodesPerWord n := rfl

theorem kNumCodesPerSegment_le (n : ℕ) : kNumCodesPerSegment n ≤ 64 := by
  rw [kNumCodesPerSegment_eq]
  exact Nat.mul_div_le 64 (n+1)

theorem kNumCodesPerWord_pos (hn : n ≤ 32) : 0 < kNumCodesPerWord n :=
  Nat.div_pos (show n+1 ≤ 64 by omega) (Nat.succ_pos n)

theorem kNumCodesPerSegment_pos (hn : n ≤ 32) : 0 < kNumCodesPerSegment n :=
  Nat.mul_pos (Nat.succ_pos n) (kNumCodesPerWord_pos hn)

/-- The place of a code in its word, counted from the lowest bits. -/
def place (n pos : ℕ) : ℕ := kNumCodesPerWord n-1-pos%kNumCodesPerSegment n/(n+1)

theorem shift_eq (n pos : ℕ) : shift n pos = (n+1)*place n pos := Nat.mul_comm _ _

theorem place_lt (hn : n ≤ 32) (pos : ℕ) : place n pos < kNumCodesPerWord n :=
  (Nat.sub_le _ _).trans_lt (Nat.sub_lt (kNumCodesPerWord_pos hn) Nat.one_pos)

theorem codeId_lt (hn : n ≤ 32) (pos : ℕ) :
    pos%kNumCodesPerSegment n/(n+1) < kNumCodesPerWord n :=
  Nat.div_lt_of_lt_mul (Nat.mod_lt pos (kNumCodesPerSegment_pos hn))

theorem wordId_div (n pos : ℕ) : wordId n pos/(n+1) = pos/kNumCodesPerSegment n := by
  rw [wordId,kNumWordsPerSegment,Nat.add_comm,Nat.add_mul_div_right _ _ (Nat.succ_pos n),
    Nat.div_eq_of_lt (Nat.mod_lt _ (Nat.succ_pos n)),Nat.zero_add]

theorem wordId_mod (n pos : ℕ) : wordId n pos%(n+1) = pos%kNumCodesPerSegment n%(n+1) := by
  rw [wordId,kNumWordsPerSegment,Nat.add_comm,Nat.add_mul_mod_self_right,Nat.mod_mod]

/-- The places of different positions are different. -/
theorem place_inj (hn : n ≤ 32) {pos pos' : ℕ} (hword : wordId n pos = wordId n pos')
    (hplace : place n pos = place n pos') : pos = pos' := by
  have hsegment := congrArg (·/(n+1)) hword
  have hmod := congrArg (·%(n+1)) hword
  simp only [wordId_div,wordId_mod] at hsegment hmod
  have hdiv : pos%kNumCodesPerSegment n/(n+1) = pos'%kNumCodesPerSegment n/(n+1) := by
    have hlt := codeId_lt hn pos
    have hlt' := codeId_lt hn pos'
    unfold place at hplace
    omega
  have hid : pos%kNumCodesPerSegment n = pos'%kNumCodesPerSegment n := by
    rw [← Nat.div_add_mod (pos%kNumCodesPerSegment n) (n+1),hdiv,hmod,Nat.div_add_mod]
  rw [← Nat.div_add_mod pos (kNumCodesPerSegment n),hsegment,hid,Nat.div_add_mod]

/-- The bits of a place end before its spare bit. -/
theorem place_bit (hn : n ≤ 32) (pos : ℕ) {j : ℕ} (hj : j < n) :
    (shift n pos+j)%(n+1) = j ∧ shift n pos+j < kNumCodesPerSegment n := by
  have hle := Nat.mul_le_mul_left (n+1) (Nat.succ_le_of_lt (place_lt hn pos))
  rw [Nat.mul_succ] at hle
  rw [shift_eq,Nat.mul_add_mod,Nat.mod_eq_of_lt (by omega),kNumCodesPerSegment_eq]
  exact ⟨rfl,by omega⟩

/-! ## Reading -/

theorem toNat_ones (hn : n ≤ 32) : ((1#64 <<< n)-1#64).toNat = 2^n-1 := by
  have hpow : 2^n < 2^64 := Nat.pow_lt_pow_right (by decide) (by omega)
  have hone : (1#64 <<< n).toNat = 2^n := by
    rw [BitVec.toNat_shiftLeft,BitVec.toNat_one (by decide),Nat.shiftLeft_eq,Nat.one_mul,
      Nat.mod_eq_of_lt hpow]
  have hle : 1#64 ≤ 1#64 <<< n := by
    rw [BitVec.le_def,hone]
    exact Nat.two_pow_pos n
  rw [BitVec.toNat_sub_of_le hle,hone]
  rfl

theorem getCode_eq (hn : n ≤ 32) (b : BwHColumnBlock n) {pos : ℕ} (hpos : pos < b.num) :
    b.getCode pos = .ok (b.code pos) := by
  unfold getCode
  rw [if_neg (Nat.not_le.mpr hpos)]
  refine congrArg Except.ok (Nat.eq_of_testBit_eq fun j => ?_)
  have hmask : ((1#64 <<< n)-1#64).getLsbD j = decide (j < n) := by
    rw [BitVec.getLsbD,toNat_ones hn,Nat.testBit_two_pow_sub_one]
  rw [testBit_code,BitVec.testBit_toNat,BitVec.getLsbD_setWidth,BitVec.getLsbD_and,hmask,
    BitVec.getLsbD_ushiftRight]
  by_cases hj : j < n
  · rw [decide_eq_true hj,decide_eq_true (show j < 32 by omega),Bool.and_true,Bool.true_and]
  · rw [decide_eq_false hj,Bool.and_false,Bool.and_false,Bool.false_and]

/-! ## Writing -/

theorem num_setCode (b : BwHColumnBlock n) (pos c : ℕ) : (b.setCode pos c).2.num = b.num := by
  unfold setCode
  split <;> rfl

theorem numUsedWords_setCode (b : BwHColumnBlock n) (pos c : ℕ) :
    (b.setCode pos c).2.numUsedWords = b.numUsedWords := by
  unfold setCode
  split <;> rfl

theorem getLsbD_setCode (b : BwHColumnBlock n) {pos c : ℕ} (hpos : pos < b.num) (id p : ℕ) :
    ((b.setCode pos c).2.data id).getLsbD p = ((b.data id).getLsbD p ||
      (decide (id = wordId n pos) && (BitVec.ofNat 64 c <<< shift n pos).getLsbD p)) := by
  have hdata : (b.setCode pos c).2.data = Function.update b.data (wordId n pos)
      (b.data (wordId n pos) ||| (BitVec.ofNat 64 c <<< shift n pos)) := by
    unfold setCode
    rw [if_neg (Nat.not_le.mpr hpos)]
  rw [hdata]
  by_cases hid : id = wordId n pos
  · rw [hid,Function.update_self,BitVec.getLsbD_or,decide_eq_true rfl,Bool.true_and]
  · rw [Function.update_of_ne hid,decide_eq_false hid,Bool.false_and,Bool.or_false]

/-- The bits of a code in front of and behind its place. -/
theorem getLsbD_codeWord {pos c p : ℕ} (hc : c < 2^n)
    (hp : (BitVec.ofNat 64 c <<< shift n pos).getLsbD p = true) :
    ∃ j < n, p = shift n pos+j ∧ c.testBit j = true := by
  rw [BitVec.getLsbD_shiftLeft,BitVec.getLsbD_ofNat] at hp
  simp only [Bool.and_eq_true,decide_eq_true_eq,Bool.not_eq_true',decide_eq_false_iff_not] at hp
  obtain ⟨⟨_,hge⟩,_,hbit⟩ := hp
  refine ⟨p-shift n pos,?_,by omega,hbit⟩
  by_contra hlt
  have hle : 2^n ≤ 2^(p-shift n pos) := Nat.pow_le_pow_right Nat.two_pos (Nat.not_lt.mp hlt)
  exact Bool.false_ne_true ((Nat.testBit_lt_two_pow (hc.trans_le hle)).symm.trans hbit)

theorem clean_create (n : ℕ) : (create n).Clean := fun _ _ _ => BitVec.getLsbD_zero

theorem clean_setCode (hn : n ≤ 32) {b : BwHColumnBlock n} (h : b.Clean) {pos c : ℕ}
    (hpos : pos < b.num) (hc : c < 2^n) : (b.setCode pos c).2.Clean := by
  intro id p hp
  rw [getLsbD_setCode b hpos,h id p hp,Bool.false_or]
  by_contra hbit
  rw [Bool.not_eq_false,Bool.and_eq_true] at hbit
  obtain ⟨j,hj,rfl,_⟩ := getLsbD_codeWord hc hbit.2
  have hplace := place_bit hn pos hj
  omega

/-- `SetCode` adds the bits of its code and leaves the other codes alone. -/
theorem code_setCode (hn : n ≤ 32) (b : BwHColumnBlock n) {pos c : ℕ} (hpos : pos < b.num)
    (hc : c < 2^n) (pos' : ℕ) :
    (b.setCode pos c).2.code pos' = if pos' = pos then b.code pos' ||| c else b.code pos' := by
  refine Nat.eq_of_testBit_eq fun j => ?_
  by_cases hj : j < n
  · rw [testBit_code,decide_eq_true hj,Bool.true_and,getLsbD_setCode b hpos]
    by_cases hsame : pos' = pos
    · subst hsame
      have hlt : shift n pos'+j < 64 :=
        (place_bit hn pos' hj).2.trans_le (kNumCodesPerSegment_le n)
      rw [if_pos rfl,Nat.testBit_or,testBit_code,decide_eq_true hj,Bool.true_and,
        decide_eq_true rfl,Bool.true_and,BitVec.getLsbD_shiftLeft,Nat.add_sub_cancel_left,
        BitVec.getLsbD_ofNat,decide_eq_true hlt,decide_eq_true (show j < 64 by omega),
        decide_eq_false (show ¬shift n pos'+j < shift n pos' by omega)]
      rfl
    · have hclear : (decide (wordId n pos' = wordId n pos) &&
          (BitVec.ofNat 64 c <<< shift n pos).getLsbD (shift n pos'+j)) = false := by
        by_contra hbit
        rw [Bool.not_eq_false,Bool.and_eq_true,decide_eq_true_eq] at hbit
        obtain ⟨k,hk,heq,_⟩ := getLsbD_codeWord hc hbit.2
        -- the place is the quotient of every bit of the code
        have hdiv := congrArg (·/(n+1)) heq
        simp only [shift_eq,Nat.mul_add_div (Nat.succ_pos n),
          Nat.div_eq_of_lt (show j < n+1 by omega),Nat.div_eq_of_lt (show k < n+1 by omega)] at hdiv
        exact hsame (place_inj hn hbit.1 (by omega))
      rw [if_neg hsame,hclear,Bool.or_false,testBit_code,decide_eq_true hj,Bool.true_and]
  · have hpow : 2^n ≤ 2^j := Nat.pow_le_pow_right Nat.two_pos (Nat.not_lt.mp hj)
    rw [Nat.testBit_lt_two_pow ((code_lt _ pos').trans_le hpow)]
    have hold := Nat.testBit_lt_two_pow ((b.code_lt pos').trans_le hpow)
    split
    · rw [Nat.testBit_or,hold,Nat.testBit_lt_two_pow (hc.trans_le hpow),Bool.or_false]
    · exact hold.symm

/-! ## Fields -/

theorem Clean.toNat_lt {b : BwHColumnBlock n} (h : b.Clean) (id : ℕ) :
    (b.data id).toNat < 2^((n+1)*kNumCodesPerWord n) :=
  Nat.lt_pow_two_of_testBit _ fun p hp => h id p (.inr hp)

theorem Clean.field_lt {b : BwHColumnBlock n} (h : b.Clean) (id i : ℕ) :
    field (n+1) (b.data id).toNat i < 2^n := by
  have hspare := testBit_spare (PackedFields.field_lt (n+1) (b.data id).toNat i)
  have hclear : (b.data id).getLsbD ((n+1)*i+n) = false := h id _ (.inl (by
    rw [Nat.mul_add_mod,Nat.mod_eq_of_lt (Nat.lt_succ_self n)]))
  rw [testBit_field,BitVec.testBit_toNat,hclear,Bool.and_false] at hspare
  exact Nat.not_le.mp (of_decide_eq_false hspare.symm)

/-- The words of a block hold the codes in their fields. -/
theorem Clean.field_eq {b : BwHColumnBlock n} (h : b.Clean) (pos : ℕ) :
    field (n+1) (b.data (wordId n pos)).toNat (place n pos) = b.code pos := by
  have hfield := h.field_lt (wordId n pos) (place n pos)
  rw [field,← shift_eq] at hfield ⊢
  rw [code,← Nat.mod_eq_of_lt hfield,Nat.mod_mod_of_dvd _ (Nat.pow_dvd_pow 2 (Nat.le_succ n))]

end ElfIndex.Bitweaving.BwHColumnBlock
