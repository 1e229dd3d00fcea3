import ElfIndex.Bitweaving.BwVColumnBlock

/-! # The codes of a BitWeaving/V block

Every bit of every code has a slot of its own, the word of its slice. `GetCode` collects
the bits of a code from its slots and `SetCode` writes them there, whatever the words held
before.
-/
namespace ElfIndex.Bitweaving.BwVColumnBlock
open Bitmap

variable {n : ℕ}

/-- The group and the word of a slice. -/
def slot (n segmentId bitId : ℕ) : ℕ × ℕ :=
  if bitId < kNumFullGroups n*kNumBitsPerGroup then
    (bitId/kNumBitsPerGroup,segmentId*kNumWordsPerSegment+bitId%kNumBitsPerGroup)
  else
    (kNumFullGroups n,segmentId*kNumBitsLastGroup n+(bitId-kNumFullGroups n*kNumBitsPerGroup))

/-- The word of a slice. -/
def plane (b : BwVColumnBlock n) (segmentId bitId : ℕ) : WordUnit :=
  b.data (slot n segmentId bitId).1 (slot n segmentId bitId).2

/-- The code whose highest bit is in the first slice. -/
def code (b : BwVColumnBlock n) (pos : ℕ) : ℕ :=
  (packBits n n fun i =>
    (b.plane (pos/kNumCodesPerSegment) (n-1-i)).getLsbD (63-pos%kNumCodesPerSegment)).toNat

theorem code_lt (b : BwVColumnBlock n) (pos : ℕ) : b.code pos < 2^n := BitVec.isLt _

theorem testBit_code (b : BwVColumnBlock n) (pos : ℕ) {i : ℕ} (hi : i < n) :
    (b.code pos).testBit i =
      (b.plane (pos/kNumCodesPerSegment) (n-1-i)).getLsbD (63-pos%kNumCodesPerSegment) := by
  rw [code,BitVec.testBit_toNat,getLsbD_packBits n n _ hi,decide_eq_true hi,Bool.true_and]

theorem kNumBits_split (n : ℕ) : kNumFullGroups n*kNumBitsPerGroup+kNumBitsLastGroup n = n := by
  simp only [kNumFullGroups,kNumBitsLastGroup,kNumBitsPerGroup]
  omega

theorem kNumBitsLastGroup_lt (n : ℕ) : kNumBitsLastGroup n < kNumBitsPerGroup := by
  simp only [kNumFullGroups,kNumBitsLastGroup,kNumBitsPerGroup]
  omega

section Slot
variable {segmentId j : ℕ}

theorem slot_full (h : j < kNumFullGroups n*kNumBitsPerGroup) : slot n segmentId j =
    (j/kNumBitsPerGroup,segmentId*kNumWordsPerSegment+j%kNumBitsPerGroup) := if_pos h

theorem slot_last (h : ¬j < kNumFullGroups n*kNumBitsPerGroup) : slot n segmentId j =
    (kNumFullGroups n,segmentId*kNumBitsLastGroup n+(j-kNumFullGroups n*kNumBitsPerGroup)) :=
  if_neg h

end Slot

/-- The slots of different bits are different. -/
theorem slot_inj {segmentId segmentId' j j' : ℕ} (hj : j < n) (hj' : j' < n)
    (h : slot n segmentId j = slot n segmentId' j') : segmentId = segmentId' ∧ j = j' := by
  have hsplit := kNumBits_split n
  have hlast := kNumBitsLastGroup_lt n
  have hgroup := congrArg Prod.fst h
  have hword := congrArg Prod.snd h
  simp only [kNumBitsPerGroup] at hsplit hlast
  by_cases hfull : j < kNumFullGroups n*kNumBitsPerGroup <;>
    by_cases hfull' : j' < kNumFullGroups n*kNumBitsPerGroup
  · rw [slot_full hfull,slot_full hfull'] at hgroup hword
    simp only [kNumWordsPerSegment,kNumBitsPerGroup] at hgroup hword
    omega
  · rw [slot_full hfull,slot_last hfull'] at hgroup
    simp only [kNumBitsPerGroup] at hgroup hfull
    omega
  · rw [slot_last hfull,slot_full hfull'] at hgroup
    simp only [kNumBitsPerGroup] at hgroup hfull'
    omega
  · rw [slot_last hfull,slot_last hfull'] at hword
    simp only [kNumBitsPerGroup] at hfull hfull' hword
    have hrest : j-kNumFullGroups n*4 < kNumBitsLastGroup n := by omega
    have hrest' : j'-kNumFullGroups n*4 < kNumBitsLastGroup n := by omega
    have hdiv := congrArg (·/kNumBitsLastGroup n) hword
    have hmod := congrArg (·%kNumBitsLastGroup n) hword
    simp only [Nat.mul_comm _ (kNumBitsLastGroup n),Nat.mul_add_div (Nat.zero_lt_of_lt hrest),
      Nat.mul_add_mod,Nat.div_eq_of_lt hrest,Nat.div_eq_of_lt hrest',Nat.mod_eq_of_lt hrest,
      Nat.mod_eq_of_lt hrest'] at hdiv hmod
    omega

/-- The loops run over the slots of all bits. -/
theorem forBits_eq {σ : Type*} (n segmentId : ℕ) (step : σ → ℕ → ℕ → ℕ → σ) (s : σ) :
    forBits n segmentId step s = (List.range n).foldl (fun s j =>
      step s (slot n segmentId j).1 (slot n segmentId j).2 j) s := by
  have hgroups : (List.range (kNumFullGroups n)).foldl (fun s groupId =>
      (List.range kNumBitsPerGroup).foldl (fun s bitIdInGroup =>
        step s groupId (segmentId*kNumWordsPerSegment+bitIdInGroup)
          (groupId*kNumBitsPerGroup+bitIdInGroup)) s) s =
      (List.range (kNumFullGroups n*kNumBitsPerGroup)).foldl (fun s j =>
        step s (slot n segmentId j).1 (slot n segmentId j).2 j) s := by
    rw [Blocks.foldl_range_mul]
    refine List.foldl_ext _ _ _ fun s g hg => List.foldl_ext _ _ _ fun s k hk => ?_
    have hg := List.mem_range.mp hg
    have hk := List.mem_range.mp hk
    have hbit : g*kNumBitsPerGroup+k < kNumFullGroups n*kNumBitsPerGroup := by
      simp only [kNumBitsPerGroup] at hk ⊢
      omega
    have hgroup : (g*kNumBitsPerGroup+k)/kNumBitsPerGroup = g := by
      simp only [kNumBitsPerGroup] at hk ⊢
      omega
    have hword : (g*kNumBitsPerGroup+k)%kNumBitsPerGroup = k := by
      simp only [kNumBitsPerGroup] at hk ⊢
      omega
    rw [slot_full hbit,hgroup,hword]
  have hrange : List.range n = List.range (kNumFullGroups n*kNumBitsPerGroup+kNumBitsLastGroup n) := by
    rw [kNumBits_split]
  rw [forBits,hgroups,hrange,List.range_add,List.foldl_append,List.foldl_map]
  refine List.foldl_ext _ _ _ fun s k _ => ?_
  rw [slot_last (by omega),Nat.add_sub_cancel_left]

/-! ## Reading -/

theorem getLsbD_one_shiftLeft {o i : ℕ} (ho : o < 64) :
    (1#64 <<< o).getLsbD i = decide (i = o) := by
  rw [BitVec.getLsbD_shiftLeft,BitVec.getLsbD_one,Bool.eq_iff_iff]
  simp
  omega

/-- One bit moved to another position. -/
theorem getLsbD_move (word : WordUnit) {o p : ℕ} (ho : o < 64) (hp : p < 64) (i : ℕ) :
    (((word &&& (1#64 <<< o)) >>> o) <<< p).getLsbD i = (decide (i = p) && word.getLsbD o) := by
  rw [BitVec.getLsbD_shiftLeft,BitVec.getLsbD_ushiftRight,BitVec.getLsbD_and,
    getLsbD_one_shiftLeft ho]
  by_cases hi : i = p
  · subst hi
    simp [hp]
  · have hne : ¬(¬ i < p ∧ o+(i-p) = o) := by omega
    simp [hi]
    omega

theorem getLsbD_collect (x : ℕ → WordUnit) {o m : ℕ} (ho : o < 64) (hn : n ≤ 64) (hm : m ≤ n)
    (i : ℕ) :
    ((List.range m).foldl (fun codeWord j =>
      codeWord ||| (((x j &&& (1#64 <<< o)) >>> o) <<< (n-1-j))) 0#64).getLsbD i =
      (decide (i < n ∧ n-1-i < m) && (x (n-1-i)).getLsbD o) := by
  induction m with
  | zero => simp
  | succ m ih =>
    rw [List.range_succ,List.foldl_append,List.foldl_cons,List.foldl_nil,BitVec.getLsbD_or,
      ih (by omega),getLsbD_move _ ho (by omega)]
    by_cases hi : i = n-1-m
    · have hback : n-1-i = m := by omega
      rw [hback,decide_eq_false (by omega),decide_eq_true hi,
        decide_eq_true (show i < n ∧ m < m+1 by omega)]
      simp
    · rw [decide_eq_false hi,Bool.false_and,Bool.or_false]
      congr 2
      exact propext (by omega)

theorem getCode_eq (hn : n ≤ 32) (b : BwVColumnBlock n) {pos : ℕ} (hpos : pos < b.num) :
    b.getCode pos = .ok (b.code pos) := by
  have ho : kNumCodesPerSegment-1-pos%kNumCodesPerSegment = 63-pos%kNumCodesPerSegment := rfl
  unfold getCode
  rw [if_neg (Nat.not_le.mpr hpos)]
  simp only [forBits_eq,ho]
  refine congrArg Except.ok (Nat.eq_of_testBit_eq fun i => ?_)
  rw [BitVec.testBit_toNat,BitVec.getLsbD_setWidth,
    getLsbD_collect (fun j => b.data (slot n _ j).1 (slot n _ j).2) (by omega) (by omega) le_rfl]
  by_cases hi : i < n
  · rw [testBit_code b pos hi,decide_eq_true (by omega),decide_eq_true (by omega),Bool.true_and,
      Bool.true_and]
    rfl
  · rw [decide_eq_false (show ¬(i < n ∧ n-1-i < n) by omega),Bool.false_and,Bool.and_false]
    exact (Nat.testBit_lt_two_pow ((b.code_lt pos).trans_le
      (Nat.pow_le_pow_right Nat.two_pos (Nat.not_lt.mp hi)))).symm

/-! ## Writing -/

/-- The words that the loops of `SetCode` have written after `m` bits. -/
theorem foldl_slots (segmentId : ℕ) {m : ℕ} (hm : m ≤ n) (value : ℕ → WordUnit → WordUnit)
    (data : ℕ → ℕ → WordUnit) (segmentId' : ℕ) {j' : ℕ} (hj' : j' < n) :
    ((List.range m).foldl (fun (data : ℕ → ℕ → WordUnit) j =>
        Function.update data (slot n segmentId j).1
          (Function.update (data (slot n segmentId j).1) (slot n segmentId j).2
            (value j (data (slot n segmentId j).1 (slot n segmentId j).2)))) data)
        (slot n segmentId' j').1 (slot n segmentId' j').2 =
      if segmentId' = segmentId ∧ j' < m then
        value j' (data (slot n segmentId' j').1 (slot n segmentId' j').2)
      else data (slot n segmentId' j').1 (slot n segmentId' j').2 := by
  induction m generalizing segmentId' j' with
  | zero => rw [if_neg (by omega)]; rfl
  | succ m ih =>
    rw [List.range_succ,List.foldl_append,List.foldl_cons,List.foldl_nil]
    by_cases hsame : segmentId' = segmentId ∧ j' = m
    · obtain ⟨rfl,rfl⟩ := hsame
      rw [Function.update_self,Function.update_self,ih (by omega) _ hj',
        if_neg (by omega),if_pos ⟨rfl,by omega⟩]
    · have hslot : slot n segmentId' j' ≠ slot n segmentId m := fun h =>
        hsame (slot_inj hj' (by omega) h)
      have hother : ∀ f : ℕ → ℕ → WordUnit, ∀ x,
          Function.update f (slot n segmentId m).1
            (Function.update (f (slot n segmentId m).1) (slot n segmentId m).2 x)
            (slot n segmentId' j').1 (slot n segmentId' j').2 =
          f (slot n segmentId' j').1 (slot n segmentId' j').2 := by
        intro f x
        by_cases hgroup : (slot n segmentId' j').1 = (slot n segmentId m).1
        · have hword : (slot n segmentId' j').2 ≠ (slot n segmentId m).2 := fun h =>
            hslot (Prod.ext hgroup h)
          rw [hgroup,Function.update_self,Function.update_of_ne hword]
        · rw [Function.update_of_ne hgroup]
      rw [hother,ih (by omega) _ hj']
      congr 1
      exact propext (by omega)

/-- The new word of a slice. -/
theorem getLsbD_setBit (word codeWord : WordUnit) {o p : ℕ} (ho : o < 64) (i : ℕ) :
    ((word &&& ~~~(1#64 <<< o)) ||| (((codeWord >>> p) <<< o) &&& (1#64 <<< o))).getLsbD i =
      if i = o then codeWord.getLsbD p else word.getLsbD i := by
  rw [BitVec.getLsbD_or,BitVec.getLsbD_and,BitVec.getLsbD_not,BitVec.getLsbD_and,
    getLsbD_one_shiftLeft ho,BitVec.getLsbD_shiftLeft,BitVec.getLsbD_ushiftRight]
  by_cases hi : i = o
  · subst hi
    simp [ho]
  · by_cases hlt : i < 64
    · simp [hi,hlt]
    · simp [hi,hlt,BitVec.getLsbD_of_ge word i (by omega)]

theorem num_setCode (b : BwVColumnBlock n) (pos c : ℕ) : (b.setCode pos c).2.num = b.num := by
  unfold setCode
  split <;> rfl

theorem numUsedWords_setCode (b : BwVColumnBlock n) (pos c : ℕ) :
    (b.setCode pos c).2.numUsedWords = b.numUsedWords := by
  unfold setCode
  split <;> rfl

/-- `SetCode` overwrites its code and no other one. -/
theorem code_setCode (hn : n ≤ 32) (b : BwVColumnBlock n) {pos c : ℕ} (hpos : pos < b.num)
    (hc : c < 2^n) (pos' : ℕ) :
    (b.setCode pos c).2.code pos' = if pos' = pos then c else b.code pos' := by
  have hsegment : kNumCodesPerSegment = 64 := rfl
  have hmod := Nat.mod_lt pos' (show 0 < 64 by decide)
  have hplane : ∀ j < n, (b.setCode pos c).2.plane (pos'/64) j =
      if pos'/64 = pos/64 then
        ((b.plane (pos'/64) j &&& ~~~(1#64 <<< (63-pos%64))) |||
          (((BitVec.ofNat 64 c >>> (n-1-j)) <<< (63-pos%64)) &&& (1#64 <<< (63-pos%64))))
      else b.plane (pos'/64) j := by
    intro j hj
    have hfold := foldl_slots (pos/64) le_rfl (fun j word =>
      ((word &&& ~~~(1#64 <<< (63-pos%64))) |||
        (((BitVec.ofNat 64 c >>> (n-1-j)) <<< (63-pos%64)) &&& (1#64 <<< (63-pos%64)))))
      b.data (pos'/64) hj
    simp only [and_iff_left hj] at hfold
    refine Eq.trans ?_ hfold
    unfold setCode
    rw [if_neg (Nat.not_le.mpr hpos)]
    simp only [forBits_eq]
    rfl
  refine Nat.eq_of_testBit_eq fun i => ?_
  by_cases hi : i < n
  · have hback : n-1-(n-1-i) = i := by omega
    have hcode : (BitVec.ofNat 64 c).getLsbD i = c.testBit i := by
      rw [BitVec.getLsbD_ofNat,decide_eq_true (by omega),Bool.true_and]
    rw [testBit_code _ pos' hi,hsegment,hplane _ (by omega)]
    by_cases hword : pos'/64 = pos/64
    · rw [if_pos hword,getLsbD_setBit _ _ (by omega),hback,hcode]
      by_cases hsame : pos' = pos
      · rw [if_pos hsame,if_pos (by omega)]
      · rw [if_neg hsame,if_neg (by omega),testBit_code _ pos' hi,hsegment]
    · rw [if_neg hword,if_neg (fun h => hword (by rw [h])),testBit_code _ pos' hi,hsegment]
  · have hpow : 2^n ≤ 2^i := Nat.pow_le_pow_right Nat.two_pos (Nat.not_lt.mp hi)
    rw [Nat.testBit_lt_two_pow ((code_lt _ pos').trans_le hpow)]
    split
    · exact (Nat.testBit_lt_two_pow (hc.trans_le hpow)).symm
    · exact (Nat.testBit_lt_two_pow ((b.code_lt pos').trans_le hpow)).symm

end ElfIndex.Bitweaving.BwVColumnBlock
