import Mathlib.Data.Nat.Bitwise
import Mathlib.Tactic.Ring

/-! # Fields of one width in a number

`packed w f n` has the fields `f 0, .., f (n-1)` of `w` bits, the first one in the lowest
bits. Sums and products with a constant are taken field by field as long as no field
outgrows its width, and bitwise operations always are.
-/
namespace ElfIndex.PackedFields

def packed (w : ℕ) (f : ℕ → ℕ) : ℕ → ℕ
  | 0 => 0
  | n+1 => packed w f n+f n*2^(w*n)

/-- Field `i` of a number. -/
def field (w x i : ℕ) : ℕ := x/2^(w*i)%2^w

variable {w n i j x c : ℕ} {f g : ℕ → ℕ}

theorem packed_congr (h : ∀ i < n, f i = g i) : packed w f n = packed w g n := by
  induction n with
  | zero => rfl
  | succ n ih =>
    rw [packed,packed,ih fun i hi => h i (Nat.lt_succ_of_lt hi),h n (Nat.lt_succ_self n)]

theorem packed_add (w n : ℕ) (f g : ℕ → ℕ) :
    packed w f n+packed w g n = packed w (fun i => f i+g i) n := by
  induction n with
  | zero => rfl
  | succ n ih =>
    rw [packed,packed,packed,← ih]
    ring

theorem packed_mul (w n c : ℕ) (f : ℕ → ℕ) :
    packed w f n*c = packed w (fun i => f i*c) n := by
  induction n with
  | zero => exact Nat.zero_mul c
  | succ n ih =>
    rw [packed,packed,← ih]
    ring

/-- The lowest field first. -/
theorem packed_cons (w n : ℕ) (f : ℕ → ℕ) :
    packed w f (n+1) = f 0+2^w*packed w (fun i => f (i+1)) n := by
  induction n with
  | zero => simp [packed]
  | succ n ih =>
    rw [packed,ih,packed,Nat.mul_succ w n,Nat.pow_add]
    ring

theorem packed_lt (hf : ∀ i < n, f i < 2^w) : packed w f n < 2^(w*n) := by
  induction n with
  | zero => exact Nat.one_pos
  | succ n ih =>
    have hlow := ih fun i hi => hf i (Nat.lt_succ_of_lt hi)
    have hhigh := Nat.mul_le_mul_right (2^(w*n)) (Nat.succ_le_of_lt (hf n (Nat.lt_succ_self n)))
    rw [packed,Nat.mul_succ,Nat.pow_add,Nat.mul_comm (2^(w*n))]
    rw [Nat.succ_mul] at hhigh
    omega

/-- The bits of a field are bits of the number. -/
theorem testBit_packed (hf : ∀ i < n, f i < 2^w) (hi : i < n) (hj : j < w) :
    (packed w f n).testBit (w*i+j) = (f i).testBit j := by
  induction n with
  | zero => omega
  | succ n ih =>
    have hlow := packed_lt fun i hi => hf i (Nat.lt_succ_of_lt hi)
    rw [packed,Nat.add_comm,Nat.mul_comm (f n),Nat.testBit_two_pow_mul_add _ hlow]
    by_cases hin : i = n
    · subst hin
      rw [if_neg (by omega),Nat.add_sub_cancel_left]
    · have hle : w*i+j < w*n := by
        have hstep := Nat.mul_le_mul_left w (show i+1 ≤ n by omega)
        rw [Nat.mul_succ] at hstep
        omega
      rw [if_pos hle]
      exact ih (fun i hi => hf i (Nat.lt_succ_of_lt hi)) (by omega)

/-- There are no bits behind the fields. -/
theorem testBit_packed_ge (hf : ∀ i < n, f i < 2^w) (h : w*n ≤ j) :
    (packed w f n).testBit j = false :=
  Nat.testBit_lt_two_pow ((packed_lt hf).trans_le (Nat.pow_le_pow_right Nat.two_pos h))

theorem eq_packed_of_testBit (hw : 0 < w) (hf : ∀ i < n, f i < 2^w) (hx : x < 2^(w*n))
    (h : ∀ i < n, ∀ j < w, x.testBit (w*i+j) = (f i).testBit j) : x = packed w f n := by
  refine Nat.eq_of_testBit_eq fun k => ?_
  rcases Nat.lt_or_ge k (w*n) with hk | hk
  · have hi : k/w < n := Nat.div_lt_of_lt_mul hk
    have hj := Nat.mod_lt k hw
    rw [← Nat.div_add_mod k w,testBit_packed hf hi hj,h _ hi _ hj]
  · rw [testBit_packed_ge hf hk]
    exact Nat.testBit_lt_two_pow (hx.trans_le (Nat.pow_le_pow_right Nat.two_pos hk))

theorem packed_xor (hw : 0 < w) (hf : ∀ i < n, f i < 2^w) (hg : ∀ i < n, g i < 2^w) :
    packed w f n ^^^ packed w g n = packed w (fun i => f i ^^^ g i) n := by
  refine eq_packed_of_testBit hw (fun i hi => Nat.xor_lt_two_pow (hf i hi) (hg i hi))
    (Nat.xor_lt_two_pow (packed_lt hf) (packed_lt hg)) ?_
  intro i hi j hj
  rw [Nat.testBit_xor,Nat.testBit_xor,testBit_packed hf hi hj,testBit_packed hg hi hj]

theorem testBit_field (w x i j : ℕ) :
    (field w x i).testBit j = (decide (j < w) && x.testBit (w*i+j)) := by
  rw [field,Nat.testBit_mod_two_pow,Nat.testBit_div_two_pow,Nat.add_comm]

theorem field_lt (w x i : ℕ) : field w x i < 2^w := Nat.mod_lt _ (Nat.two_pow_pos w)

/-- A number is packed from its fields. -/
theorem packed_field (hw : 0 < w) (hx : x < 2^(w*n)) : packed w (field w x) n = x := by
  refine (eq_packed_of_testBit hw (fun i _ => field_lt w x i) hx ?_).symm
  intro i _ j hj
  rw [testBit_field,decide_eq_true hj,Bool.true_and]

/-! ## Comparing two fields with a spare bit -/

/-- The complement of a field of `k` bits. -/
theorem xor_ones {k a : ℕ} (ha : a < 2^k) : a ^^^ (2^k-1) = 2^k-1-a := by
  refine Nat.eq_of_testBit_eq fun j => ?_
  have hone := Nat.testBit_two_pow_sub_succ ha j
  rw [Nat.testBit_xor,Nat.testBit_two_pow_sub_one,Nat.sub_sub,Nat.add_comm 1 a,hone]
  by_cases hj : j < k
  · simp [hj]
  · have hpos : a.testBit j = false :=
      Nat.testBit_lt_two_pow (ha.trans_le (Nat.pow_le_pow_right Nat.two_pos (Nat.not_lt.mp hj)))
    simp [hj,hpos]

/-- The spare bit of a sum of at most twice the range. -/
theorem testBit_spare {k a : ℕ} (ha : a < 2^(k+1)) : a.testBit k = decide (2^k ≤ a) := by
  by_cases h : 2^k ≤ a
  · rw [Nat.testBit_of_two_pow_le_and_two_pow_add_one_gt h ha,decide_eq_true h]
  · rw [Nat.testBit_lt_two_pow (Nat.not_le.mp h),decide_eq_false h]

end ElfIndex.PackedFields
