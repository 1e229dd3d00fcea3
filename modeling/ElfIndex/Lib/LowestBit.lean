import Mathlib.Data.List.Nodup
import Mathlib.Data.Nat.Bitwise
import Mathlib.Data.Nat.Find

/-! # The lowest bit of a word

`x-1` changes the lowest bit of `x` and those below it, so `x &&& (x-1)` clears that bit, and
`x ^^^ -x` has the bits above it. A loop that clears the lowest bit until none is left meets
all bits of the word, the lowest first.
-/
namespace ElfIndex.LowestBit

variable {w : ℕ} {x : BitVec w} {j : ℕ}

/-- Bit `j` is set and no lower one is. -/
structure Lowest (x : BitVec w) (j : ℕ) : Prop where
  bit : x.getLsbD j = true
  below : ∀ i < j, x.getLsbD i = false

theorem exists_lowest (h : x ≠ 0) : ∃ j, Lowest x j := by
  have hbit : ∃ j, x.getLsbD j = true := by
    by_contra hnone
    refine h (BitVec.eq_of_getLsbD_eq fun i _ => ?_)
    refine Eq.trans ?_ BitVec.getLsbD_zero.symm
    exact Bool.eq_false_iff.mpr fun hi => hnone ⟨i,hi⟩
  exact ⟨Nat.find hbit,Nat.find_spec hbit,fun i hi => Bool.eq_false_iff.mpr (Nat.find_min hbit hi)⟩

theorem Lowest.lt (h : Lowest x j) : j < w := BitVec.lt_of_getLsbD h.bit

/-- The bits of the number up to the lowest one. -/
theorem Lowest.toNat_eq (h : Lowest x j) : x.toNat = 2^(j+1)*(x.toNat/2^(j+1))+2^j := by
  have hmod : x.toNat%2^(j+1) = 2^j := by
    refine Nat.eq_of_testBit_eq fun i => ?_
    rw [Nat.testBit_mod_two_pow,Nat.testBit_two_pow,← BitVec.getLsbD]
    by_cases hi : j = i
    · rw [← hi,h.bit]
      simp
    · by_cases hlt : i < j
      · rw [h.below i hlt]
        simp [hi]
      · simp [hi,show ¬i < j+1 by omega]
  have hsplit := Nat.div_add_mod x.toNat (2^(j+1))
  rw [hmod] at hsplit
  exact hsplit.symm

theorem Lowest.getLsbD_sub_one (h : Lowest x j) (i : ℕ) :
    (x-1#w).getLsbD i = if i ≤ j then decide (i < j) else x.getLsbD i := by
  have hpow := Nat.two_pow_pos j
  have hone : 1 < 2^w := Nat.one_lt_two_pow (by have := h.lt; omega)
  have hsub : (x-1#w).toNat = 2^(j+1)*(x.toNat/2^(j+1))+(2^j-1) := by
    rw [BitVec.toNat_sub_of_le (by
      rw [BitVec.le_def,BitVec.toNat_ofNat,Nat.mod_eq_of_lt hone,h.toNat_eq]
      omega),BitVec.toNat_ofNat,Nat.mod_eq_of_lt hone]
    conv_lhs => rw [h.toNat_eq]
    omega
  have hlow : 2^j-1 < 2^(j+1) := by
    rw [Nat.pow_succ]
    omega
  have hbits : ∀ y : BitVec w, y.getLsbD i = y.toNat.testBit i := fun _ => rfl
  rw [hbits,hsub,Nat.testBit_two_pow_mul_add _ hlow]
  by_cases hij : i ≤ j
  · rw [if_pos hij,if_pos (by omega),Nat.testBit_two_pow_sub_one]
  · rw [if_neg hij,if_neg (by omega),hbits,Nat.testBit_div_two_pow]
    congr 1
    omega

/-- The lowest bit is cleared and no other one. -/
theorem Lowest.getLsbD_clear (h : Lowest x j) (i : ℕ) :
    (x &&& (x-1#w)).getLsbD i = (decide (i ≠ j) && x.getLsbD i) := by
  rw [BitVec.getLsbD_and]
  by_cases hi : i < w
  · rw [h.getLsbD_sub_one i]
    rcases Nat.lt_trichotomy i j with hlt | rfl | hgt
    · rw [h.below i hlt,Bool.false_and,Bool.and_false]
    · simp
    · rw [if_neg (by omega),Bool.and_self,decide_eq_true (by omega),Bool.true_and]
  · rw [BitVec.getLsbD_of_ge _ _ (Nat.not_lt.mp hi),Bool.false_and,Bool.and_false]

/-- The bits above the lowest one. -/
theorem Lowest.getLsbD_smear (h : Lowest x j) (i : ℕ) :
    (x ^^^ -x).getLsbD i = (decide (i < w) && decide (j < i)) := by
  by_cases hi : i < w
  · have hneg : -x = ~~~(x-1#w) := by
      rw [BitVec.not_sub_one_eq_not_add_one,BitVec.neg_eq_not_add]
    rw [hneg,BitVec.getLsbD_xor,BitVec.getLsbD_not,decide_eq_true hi,Bool.true_and,Bool.true_and,
      h.getLsbD_sub_one i]
    rcases Nat.lt_trichotomy i j with hlt | rfl | hgt
    · rw [h.below i hlt,if_pos hlt.le,decide_eq_true hlt,decide_eq_false (by omega)]
      rfl
    · rw [h.bit,if_pos le_rfl,decide_eq_false (Nat.lt_irrefl i)]
      rfl
    · rw [if_neg (by omega),decide_eq_true hgt]
      cases x.getLsbD i <;> rfl
  · rw [BitVec.getLsbD_of_ge _ _ (Nat.not_lt.mp hi),decide_eq_false hi,Bool.false_and]

/-! ## All bits -/

/-- The positions of the set bits, counted from the highest one. -/
def ones (x : BitVec w) : List ℕ := (List.range w).filter fun k => x.getLsbD (w-1-k)

@[simp] theorem ones_zero : ones (0#w) = [] := by simp [ones]

theorem mem_ones {k : ℕ} : k ∈ ones x ↔ k < w ∧ x.getLsbD (w-1-k) = true := by
  rw [ones,List.mem_filter,List.mem_range]

theorem range_split (hj : j < w) :
    List.range w = List.range (w-1-j) ++ List.range' (w-1-j) (j+1) := by
  have hsum : w-1-j+(j+1) = w := by omega
  have happend := List.range'_append_1 (s:=0) (m:=w-1-j) (n:=j+1)
  rw [Nat.zero_add,hsum] at happend
  rw [List.range_eq_range',List.range_eq_range',happend]

/-- The lowest bit is the last one. -/
theorem Lowest.ones_eq (h : Lowest x j) : ones x = ones (x &&& (x-1#w)) ++ [w-1-j] := by
  have hlt := h.lt
  have hhigh : (List.range' (w-1-j) (j+1)).filter (fun k => x.getLsbD (w-1-k)) = [w-1-j] := by
    rw [List.range'_succ,List.filter_cons_of_pos (by
      have hback : w-1-(w-1-j) = j := by omega
      rw [hback,h.bit]),List.filter_eq_nil_iff.mpr]
    intro k hk
    rw [List.mem_range'_1] at hk
    rw [h.below _ (by omega)]
    exact Bool.false_ne_true
  have hclear : (List.range' (w-1-j) (j+1)).filter
      (fun k => (x &&& (x-1#w)).getLsbD (w-1-k)) = [] := by
    rw [List.filter_eq_nil_iff]
    intro k hk
    rw [List.mem_range'_1] at hk
    rw [h.getLsbD_clear]
    rcases Nat.lt_or_ge (w-1-k) j with hlow | hhigh
    · rw [h.below _ hlow,Bool.and_false]
      exact Bool.false_ne_true
    · have heq : w-1-k = j := by omega
      simp [heq]
  rw [ones,ones,range_split hlt,List.filter_append,List.filter_append,hhigh,hclear,List.append_nil]
  refine congrArg (· ++ [w-1-j]) (List.filter_congr fun k hk => ?_)
  have hk := List.mem_range.mp hk
  rw [h.getLsbD_clear,decide_eq_true (by omega),Bool.true_and]

theorem length_ones_le (x : BitVec w) : (ones x).length ≤ w := by
  have hlen := List.length_filter_le (fun k => x.getLsbD (w-1-k)) (List.range w)
  rwa [List.length_range] at hlen

/-- A word without bits behind the first `n` ones. -/
theorem ones_eq_filter {n : ℕ} (hn : n ≤ w) (h : ∀ k ∈ ones x, k < n) :
    ones x = (List.range n).filter fun k => x.getLsbD (w-1-k) := by
  have hsplit : List.range w = List.range n ++ List.range' n (w-n) := by
    have happend := List.range'_append_1 (s:=0) (m:=n) (n:=w-n)
    rw [Nat.zero_add,Nat.add_sub_cancel' hn] at happend
    rw [List.range_eq_range',List.range_eq_range',happend]
  have hnil : (List.range' n (w-n)).filter (fun k => x.getLsbD (w-1-k)) = [] := by
    refine List.filter_eq_nil_iff.mpr fun k hk hset => ?_
    rw [List.mem_range'_1] at hk
    have hlt := h k (mem_ones.mpr ⟨by omega,hset⟩)
    omega
  rw [ones,hsplit,List.filter_append,hnil,List.append_nil]

/-- The bits above the lowest one are counted by its position. -/
theorem Lowest.length_ones_smear (h : Lowest x j) : (ones (x ^^^ -x)).length = w-1-j := by
  have hlt := h.lt
  have hones : ones (x ^^^ -x) = List.range (w-1-j) := by
    rw [ones,range_split hlt,List.filter_append,List.filter_eq_self.mpr,List.filter_eq_nil_iff.mpr,
      List.append_nil]
    · intro k hk
      rw [List.mem_range'_1] at hk
      rw [h.getLsbD_smear,decide_eq_false (show ¬j < w-1-k by omega),Bool.and_false]
      exact Bool.false_ne_true
    · intro k hk
      have hk := List.mem_range.mp hk
      rw [h.getLsbD_smear,decide_eq_true (by omega),decide_eq_true (by omega)]
      rfl
  rw [hones,List.length_range]

/-! ## Counting -/

/-- A loop that tests the lowest bit and shifts counts the bits. -/
theorem foldl_count (x : BitVec w) :
    ((List.range w).foldl (fun (s : ℕ × BitVec w) _ =>
      (if s.2.getLsbD 0 then s.1+1 else s.1,s.2 >>> 1)) (0,x)).1 = (ones x).length := by
  have hrun : ∀ n ≤ w, (List.range n).foldl (fun (s : ℕ × BitVec w) _ =>
      (if s.2.getLsbD 0 then s.1+1 else s.1,s.2 >>> 1)) (0,x) =
        (((List.range n).filter x.getLsbD).length,x >>> n) := by
    intro n hn
    induction n with
    | zero => simp
    | succ n ih =>
      rw [List.range_succ,List.foldl_append,ih (by omega),List.filter_append,List.length_append,
        List.foldl_cons,List.foldl_nil]
      have hbit : (x >>> n).getLsbD 0 = x.getLsbD n := by
        rw [BitVec.getLsbD_ushiftRight,Nat.add_zero]
      refine Prod.ext ?_ ?_
      · dsimp only
        rw [hbit]
        cases hx : x.getLsbD n <;> simp [hx]
      · dsimp only
        rw [BitVec.shiftRight_add]
  rw [hrun w le_rfl]
  dsimp only
  have hperm : ((List.range w).filter x.getLsbD).Perm ((ones x).map (w-1-·)) := by
    refine (List.perm_ext_iff_of_nodup (List.nodup_range.filter _) ?_).mpr fun k => ?_
    · refine List.Nodup.map_on ?_ (List.nodup_range.filter _)
      intro a ha b hb hab
      have ha := (mem_ones.mp ha).1
      have hb := (mem_ones.mp hb).1
      exact by omega
    · rw [List.mem_filter,List.mem_range,List.mem_map]
      constructor
      · rintro ⟨hk,hbit⟩
        have hback : w-1-(w-1-k) = k := by omega
        exact ⟨w-1-k,mem_ones.mpr ⟨by omega,by rw [hback]; exact hbit⟩,hback⟩
      · rintro ⟨m,hm,rfl⟩
        have hm := mem_ones.mp hm
        exact ⟨by omega,hm.2⟩
  rw [hperm.length_eq,List.length_map]

end ElfIndex.LowestBit
