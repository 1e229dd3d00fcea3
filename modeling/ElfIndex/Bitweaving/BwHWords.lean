import Mathlib.Data.LawfulXor.Basic
import ElfIndex.Bitweaving.BwHCodes

/-! # Words of answers

The masks have one number in every field, so an addition of words compares the codes of all
fields at once: the sum of a field reaches the spare bit exactly if the comparison holds.
-/
namespace ElfIndex.Bitweaving.BwHColumnBlock
open Bitmap PackedFields

variable {n : ℕ} {x y : WordUnit} {f g : ℕ → ℕ}

/-- A word with the codes `f` in its fields. -/
structure Fields (n : ℕ) (x : WordUnit) (f : ℕ → ℕ) : Prop where
  toNat : x.toNat = packed (n+1) f (kNumCodesPerWord n)
  lt : ∀ i < kNumCodesPerWord n, f i < 2^n

/-- The spare bits of a word are the answers, its other bits are clear. -/
def Answers (n : ℕ) (word : WordUnit) (answer : ℕ → Bool) : Prop :=
  ∀ p, word.getLsbD p =
    (decide (p < kNumCodesPerSegment n ∧ p%(n+1) = n) && answer (p/(n+1)))

theorem field_of_bit {p : ℕ} (hp : p < kNumCodesPerSegment n) : p/(n+1) < kNumCodesPerWord n :=
  Nat.div_lt_of_lt_mul hp

theorem packed_fits (hf : ∀ i < kNumCodesPerWord n, f i < 2^(n+1)) :
    packed (n+1) f (kNumCodesPerWord n) < 2^64 :=
  (packed_lt hf).trans_le (Nat.pow_le_pow_right Nat.two_pos (kNumCodesPerSegment_le n))

theorem lt_succ_pow {a : ℕ} (h : a < 2^n) : a < 2^(n+1) :=
  h.trans (Nat.pow_lt_pow_succ (by decide))

/-! ## Masks -/

theorem toNat_baseMask (n : ℕ) :
    (baseMask n).toNat = packed (n+1) (fun _ => 1) (kNumCodesPerWord n) := by
  suffices hfirst : ∀ m ≤ kNumCodesPerWord n, ((List.range m).foldl (fun (mask : WordUnit) _ =>
      (mask <<< kNumBitsPerCode n) ||| 1#64) 0#64).toNat = packed (n+1) (fun _ => 1) m from
    hfirst _ le_rfl
  have hone : 1 < 2^(n+1) := Nat.one_lt_two_pow (Nat.succ_ne_zero n)
  intro m hm
  induction m with
  | zero => rfl
  | succ m ih =>
    have hfits : packed (n+1) (fun _ => 1) m*2^(n+1) < 2^64 := by
      have hall := packed_lt (n:=m+1) (f:=fun _ => 1) fun _ _ => hone
      rw [packed_cons,Nat.add_comm] at hall
      have hwidth := Nat.pow_le_pow_right Nat.two_pos
        ((Nat.mul_le_mul_left (n+1) hm).trans (kNumCodesPerSegment_le n))
      rw [Nat.mul_comm]
      omega
    rw [List.range_succ,List.foldl_append,List.foldl_cons,List.foldl_nil,BitVec.toNat_or,
      BitVec.toNat_shiftLeft,ih (by omega),Nat.shiftLeft_eq,kNumBitsPerCode,Nat.mod_eq_of_lt hfits,
      packed_cons,Nat.mul_comm _ (2^(n+1)),BitVec.toNat_one (by decide),
      ← Nat.two_pow_add_eq_or_of_lt hone,Nat.add_comm]

theorem toNat_baseMask_mul {c : ℕ} (hn : n ≤ 32) (hc : c < 2^n) :
    (baseMask n*BitVec.ofNat 64 c).toNat = packed (n+1) (fun _ => c) (kNumCodesPerWord n) := by
  have hword : c < 2^64 := hc.trans_le (Nat.pow_le_pow_right Nat.two_pos (by omega))
  rw [BitVec.toNat_mul,toNat_baseMask,BitVec.toNat_ofNat,Nat.mod_eq_of_lt hword,packed_mul]
  simp only [Nat.one_mul]
  exact Nat.mod_eq_of_lt (packed_fits fun _ _ => lt_succ_pow hc)

theorem fields_literal {c : ℕ} (hn : n ≤ 32) (hc : c < 2^n) :
    Fields n (baseMask n*BitVec.ofNat 64 c) fun _ => c :=
  ⟨toNat_baseMask_mul hn hc,fun _ _ => hc⟩

theorem fields_complement (hn : n ≤ 32) : Fields n (complementMask n) fun _ => 2^n-1 := by
  have hones : (1#64 <<< n)-1#64 = BitVec.ofNat 64 (2^n-1) := by
    refine BitVec.eq_of_toNat_eq ?_
    have hlt : 2^n-1 < 2^64 := (Nat.sub_le _ _).trans_lt
      (Nat.pow_lt_pow_right (by decide) (by omega))
    rw [toNat_ones hn,BitVec.toNat_ofNat,Nat.mod_eq_of_lt hlt]
  rw [complementMask,hones]
  exact fields_literal hn (Nat.sub_lt (Nat.two_pow_pos n) Nat.one_pos)

theorem getLsbD_resultMask (n p : ℕ) : (resultMask n).getLsbD p =
    decide (p < kNumCodesPerSegment n ∧ p%(n+1) = n) := by
  have hf : ∀ i < kNumCodesPerWord n, 2^n < 2^(n+1) := fun _ _ => Nat.pow_lt_pow_succ (by decide)
  have htoNat : (resultMask n).toNat = packed (n+1) (fun _ => 2^n) (kNumCodesPerWord n) := by
    have hmul := packed_mul (n+1) (kNumCodesPerWord n) (2^n) (fun _ => 1)
    simp only [Nat.one_mul] at hmul
    rw [resultMask,BitVec.toNat_shiftLeft,toNat_baseMask,Nat.shiftLeft_eq,hmul,
      Nat.mod_eq_of_lt (packed_fits hf)]
  rw [BitVec.getLsbD,htoNat]
  rcases Nat.lt_or_ge p (kNumCodesPerSegment n) with hp | hp
  · have hi : p/(n+1) < kNumCodesPerWord n := field_of_bit hp
    have hj := Nat.mod_lt p (Nat.succ_pos n)
    have hbit := testBit_packed hf hi hj
    rw [Nat.div_add_mod,Nat.testBit_two_pow] at hbit
    rw [hbit,Bool.eq_iff_iff,decide_eq_true_eq,decide_eq_true_eq]
    exact ⟨fun h => ⟨hp,h.symm⟩,fun h => h.2.symm⟩
  · rw [testBit_packed_ge hf hp,decide_eq_false (fun h => absurd h.1 (by omega))]

/-! ## Sums of fields -/

theorem Fields.xor (hx : Fields n x f) (hy : Fields n y g) :
    Fields n (x ^^^ y) fun i => f i ^^^ g i := by
  refine ⟨?_,fun i hi => Nat.xor_lt_two_pow (hx.lt i hi) (hy.lt i hi)⟩
  rw [BitVec.toNat_xor,hx.toNat,hy.toNat]
  exact packed_xor (Nat.succ_pos n) (fun i hi => lt_succ_pow (hx.lt i hi))
    fun i hi => lt_succ_pow (hy.lt i hi)

theorem Fields.congr (hx : Fields n x f) (h : ∀ i < kNumCodesPerWord n, f i = g i) :
    Fields n x g :=
  ⟨hx.toNat.trans (packed_congr h),fun i hi => h i hi ▸ hx.lt i hi⟩

/-- The complement of the fields. -/
theorem Fields.complement (hn : n ≤ 32) (hx : Fields n x f) :
    Fields n (x ^^^ complementMask n) fun i => 2^n-1-f i :=
  (hx.xor (fields_complement hn)).congr fun i hi => xor_ones (hx.lt i hi)

/-- The spare bit of a sum. -/
theorem spare_add (hx : x.toNat = packed (n+1) f (kNumCodesPerWord n))
    (hy : y.toNat = packed (n+1) g (kNumCodesPerWord n))
    (hsum : ∀ i < kNumCodesPerWord n, f i+g i < 2^(n+1)) {p : ℕ}
    (hp : p < kNumCodesPerSegment n ∧ p%(n+1) = n) :
    (x+y).getLsbD p = decide (2^n ≤ f (p/(n+1))+g (p/(n+1))) := by
  have hi : p/(n+1) < kNumCodesPerWord n := field_of_bit hp.1
  have hbit := testBit_packed hsum hi (Nat.lt_succ_self n)
  have hpos : (n+1)*(p/(n+1))+n = p := by
    have hdiv := Nat.div_add_mod p (n+1)
    rwa [hp.2] at hdiv
  rw [hpos,testBit_spare (hsum _ hi)] at hbit
  rw [BitVec.getLsbD,BitVec.toNat_add,hx,hy,packed_add,Nat.mod_eq_of_lt (packed_fits hsum),hbit]

theorem Fields.spare_add (hx : Fields n x f) (hy : Fields n y g) {p : ℕ}
    (hp : p < kNumCodesPerSegment n ∧ p%(n+1) = n) :
    (x+y).getLsbD p = decide (2^n ≤ f (p/(n+1))+g (p/(n+1))) := by
  refine BwHColumnBlock.spare_add hx.toNat hy.toNat (fun i hi => ?_) hp
  have hf := hx.lt i hi
  have hg := hy.lt i hi
  rw [Nat.pow_succ]
  omega

section Spare

variable {p : ℕ} (hn : n ≤ 32) (hp : p < kNumCodesPerSegment n ∧ p%(n+1) = n)

include hn hp

/-- The sum with a complement tells which field is larger. -/
theorem Fields.spare_less (hx : Fields n x f) (hy : Fields n y g) :
    (y+(x ^^^ complementMask n)).getLsbD p = decide (f (p/(n+1)) < g (p/(n+1))) := by
  rw [hy.spare_add (hx.complement hn) hp]
  have hf : f (p/(n+1)) < 2^n := hx.lt _ (field_of_bit hp.1)
  exact decide_eq_decide.mpr (by omega)

/-- The sum of the difference and the complement tells whether the fields differ. -/
theorem Fields.spare_ne (hx : Fields n x f) (hy : Fields n y g) :
    ((x ^^^ y)+complementMask n).getLsbD p = decide (f (p/(n+1)) ≠ g (p/(n+1))) := by
  rw [(hx.xor hy).spare_add (fields_complement hn) hp]
  have hpow := Nat.two_pow_pos n
  have hzero := xor_eq_zero_iff (a:=f (p/(n+1))) (b:=g (p/(n+1)))
  exact decide_eq_decide.mpr (by omega)

/-- A code differs in all bits from the complement of the literal if they agree. -/
theorem Fields.spare_eq (hx : Fields n x f) {c : ℕ} (hc : c < 2^n) :
    ((x ^^^ (baseMask n*BitVec.ofNat 64 (2^n-1-c)))+baseMask n).getLsbD p =
      decide (f (p/(n+1)) = c) := by
  have hcomplement : 2^n-1-c < 2^n := by omega
  have hdiff := hx.xor (fields_literal hn hcomplement)
  have hsum : ∀ i < kNumCodesPerWord n, (f i ^^^ (2^n-1-c))+1 < 2^(n+1) := by
    intro i hi
    have hlt := hdiff.lt i hi
    rw [Nat.pow_succ]
    omega
  rw [BwHColumnBlock.spare_add hdiff.toNat (toNat_baseMask n) hsum hp]
  have hxor : f (p/(n+1)) ^^^ (2^n-1-c) = 2^n-1-(f (p/(n+1)) ^^^ c) := by
    rw [← xor_ones (Nat.xor_lt_two_pow (hx.lt _ (field_of_bit hp.1)) hc),← xor_ones hc,
      Nat.xor_assoc]
  have hlt := Nat.xor_lt_two_pow (hx.lt _ (field_of_bit hp.1)) hc
  have hzero := xor_eq_zero_iff (a:=f (p/(n+1))) (b:=c)
  rw [hxor]
  exact decide_eq_decide.mpr (by omega)

end Spare

/-! ## Answers -/

theorem answers_result {word : WordUnit} {answer : ℕ → Bool}
    (h : ∀ p, p < kNumCodesPerSegment n ∧ p%(n+1) = n → word.getLsbD p = answer (p/(n+1))) :
    Answers n (word &&& resultMask n) answer := by
  intro p
  rw [BitVec.getLsbD_and,getLsbD_resultMask,Bool.and_comm]
  by_cases hp : p < kNumCodesPerSegment n ∧ p%(n+1) = n
  · rw [h p hp]
  · rw [decide_eq_false hp,Bool.false_and,Bool.false_and]

theorem answers_not {word : WordUnit} (answer : ℕ → Bool)
    (h : ∀ p, p < kNumCodesPerSegment n ∧ p%(n+1) = n → word.getLsbD p = answer (p/(n+1))) :
    Answers n (~~~word &&& resultMask n) fun i => !answer i := by
  refine answers_result fun p hp => ?_
  have hword : p < 64 := hp.1.trans_le (kNumCodesPerSegment_le n)
  rw [BitVec.getLsbD_not,h p hp,decide_eq_true hword,Bool.true_and]

theorem not_decide_lt (a b : ℕ) : (!decide (a < b)) = decide (a ≥ b) := by
  rw [← decide_not]
  exact decide_eq_decide.mpr Nat.not_lt

theorem answers_congr {word : WordUnit} {answer answer' : ℕ → Bool} (h : Answers n word answer)
    (heq : ∀ i < kNumCodesPerWord n, answer i = answer' i) : Answers n word answer' := by
  intro p
  rw [h p]
  by_cases hp : p < kNumCodesPerSegment n ∧ p%(n+1) = n
  · rw [heq _ (field_of_bit hp.1)]
  · rw [decide_eq_false hp,Bool.false_and,Bool.false_and]

section Compared

variable (hn : n ≤ 32)

include hn

/-- The word that stands in the test for equality with a literal. -/
theorem equalMask_eq {literal : ℕ} (hliteral : literal < 2^n) :
    (~~~BitVec.ofNat 32 literal).setWidth 64 &&& (BitVec.allOnes 64 >>> (kNumBitsPerWord-n)) =
      BitVec.ofNat 64 (2^n-1-literal) := by
  refine BitVec.eq_of_getLsbD_eq fun i hi => ?_
  have hshift : kNumBitsPerWord-n+i < 64 ↔ i < n := by
    simp only [kNumBitsPerWord]
    omega
  rw [BitVec.getLsbD_and,BitVec.getLsbD_setWidth,BitVec.getLsbD_not,BitVec.getLsbD_ofNat,
    BitVec.getLsbD_ushiftRight,BitVec.getLsbD_allOnes,BitVec.getLsbD_ofNat,← xor_ones hliteral,
    Nat.testBit_xor,Nat.testBit_two_pow_sub_one,decide_eq_true hi]
  simp only [hshift]
  by_cases hin : i < n
  · have h32 : i < 32 := by omega
    simp [hin,h32]
  · have hclear : literal.testBit i = false := Nat.testBit_lt_two_pow
      (hliteral.trans_le (Nat.pow_le_pow_right Nat.two_pos (Nat.not_lt.mp hin)))
    simp [hin,hclear]

/-- Every comparator is answered for all codes of a word. -/
theorem answers_literalWord (hx : Fields n x f) (comparator : Comparator) {literal : ℕ}
    (hliteral : literal < 2^n) :
    Answers n (literalWord n comparator literal x) fun i => comparator.test literal (f i) := by
  have hl := fields_literal hn hliteral
  cases comparator
  · refine answers_result fun p hp => ?_
    rw [equalMask_eq hn hliteral,hx.spare_eq hn hp hliteral]
    rfl
  · refine answers_result fun p hp => ?_
    rw [hx.spare_ne hn hp hl]
    exact decide_not
  · exact answers_result fun p hp => hl.spare_less hn hp hx
  · exact answers_result fun p hp => hx.spare_less hn hp hl
  · refine answers_congr (answers_not (fun i => decide (f i < literal)) fun p hp =>
      hx.spare_less hn hp hl) fun i _ => ?_
    exact not_decide_lt _ _
  · refine answers_congr (answers_not (fun i => decide (literal < f i)) fun p hp =>
      hl.spare_less hn hp hx) fun i _ => ?_
    exact not_decide_lt _ _

theorem answers_betweenWord (hx : Fields n x f) {literal1 literal2 : ℕ} (h1 : literal1 < 2^n)
    (h2 : literal2 < 2^n) :
    Answers n (betweenWord n literal1 literal2 x) fun i => isIn literal1 literal2 (f i) := by
  have hlow := answers_not (fun i => decide (f i < literal1)) fun p hp =>
    hx.spare_less hn hp (fields_literal hn h1)
  intro p
  rw [betweenWord,BitVec.getLsbD_and,hlow p]
  by_cases hp : p < kNumCodesPerSegment n ∧ p%(n+1) = n
  · have hword : p < 64 := hp.1.trans_le (kNumCodesPerSegment_le n)
    rw [BitVec.getLsbD_not,(fields_literal hn h2).spare_less hn hp hx,decide_eq_true hp,
      decide_eq_true hword,Bool.true_and,Bool.true_and]
    simp only [not_decide_lt]
    rfl
  · rw [decide_eq_false hp,Bool.false_and,Bool.false_and,Bool.false_and]

theorem answers_columnWord (hx : Fields n x f) (hy : Fields n y g) (comparator : Comparator) :
    Answers n (columnWord n comparator y x) fun i => comparator.test (g i) (f i) := by
  cases comparator
  · refine answers_congr (answers_not (fun i => decide (f i ≠ g i)) fun p hp =>
      hx.spare_ne hn hp hy) fun i _ => ?_
    rw [← decide_not]
    exact decide_eq_decide.mpr not_not
  · refine answers_result fun p hp => ?_
    rw [hx.spare_ne hn hp hy]
    exact decide_not
  · exact answers_result fun p hp => hy.spare_less hn hp hx
  · exact answers_result fun p hp => hx.spare_less hn hp hy
  · refine answers_congr (answers_not (fun i => decide (f i < g i)) fun p hp =>
      hx.spare_less hn hp hy) fun i _ => ?_
    exact not_decide_lt _ _
  · refine answers_congr (answers_not (fun i => decide (g i < f i)) fun p hp =>
      hy.spare_less hn hp hx) fun i _ => ?_
    exact not_decide_lt _ _

end Compared

end ElfIndex.Bitweaving.BwHColumnBlock
