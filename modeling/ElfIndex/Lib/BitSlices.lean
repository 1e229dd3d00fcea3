import Mathlib.Data.Nat.Bitwise
import Mathlib.Data.List.Basic

/-! # Comparing numbers in bit slices

A word of the slice `j` holds bit `j` of many numbers, one number in each lane, and the
slices run from the highest bit to the lowest. Three masks tell the lanes whose numbers are
equal, smaller and larger so far. A lane leaves the first mask at the first differing bit,
so nothing changes any more when the first mask is empty.
-/
namespace ElfIndex.BitSlices

/-- One more bit of two numbers that are shifted to the right. -/
theorem shiftRight_eq_succ (a m : ℕ) : a >>> m = 2*(a >>> (m+1))+(a.testBit m).toNat := by
  have hlow : (a >>> m)%2 = (a.testBit m).toNat := by
    rw [Nat.testBit,Nat.one_and_eq_mod_two]
    rcases Nat.mod_two_eq_zero_or_one (a >>> m) with h | h <;> rw [h] <;> rfl
  have hhigh : a >>> (m+1) = (a >>> m)/2 := by
    rw [Nat.shiftRight_succ]
  omega

section Shifted

variable (a b m : ℕ)

theorem shiftRight_eq_iff : a >>> m = b >>> m ↔
    a >>> (m+1) = b >>> (m+1) ∧ a.testBit m = b.testBit m := by
  have ha := shiftRight_eq_succ a m
  have hb := shiftRight_eq_succ b m
  cases hta : a.testBit m <;> cases htb : b.testBit m <;>
    simp only [hta,htb,Bool.toNat_false,Bool.toNat_true] at ha hb <;> simp <;> omega

theorem shiftRight_lt_iff : a >>> m < b >>> m ↔
    a >>> (m+1) < b >>> (m+1) ∨
      a >>> (m+1) = b >>> (m+1) ∧ a.testBit m = false ∧ b.testBit m = true := by
  have ha := shiftRight_eq_succ a m
  have hb := shiftRight_eq_succ b m
  cases hta : a.testBit m <;> cases htb : b.testBit m <;>
    simp only [hta,htb,Bool.toNat_false,Bool.toNat_true] at ha hb <;> simp <;> omega

end Shifted

/-- The lanes whose numbers are equal, smaller and larger so far. -/
@[ext] structure Masks (w : ℕ) where
  equal : BitVec w
  less : BitVec w
  greater : BitVec w

namespace Masks

variable {w : ℕ}

/-- The masks in front of the highest bit; lanes outside of `lanes` are left out. -/
def start (lanes : BitVec w) : Masks w := ⟨lanes,0#w,0#w⟩

/-- One slice of the numbers and one of those they are compared with. -/
def bit (data other : BitVec w) (m : Masks w) : Masks w where
  equal := m.equal &&& ~~~(data ^^^ other)
  less := m.less ||| (m.equal &&& ~~~data &&& other)
  greater := m.greater ||| (m.equal &&& data &&& ~~~other)

def run (data other : ℕ → BitVec w) (n : ℕ) (m : Masks w) : Masks w :=
  (List.range n).foldl (fun m j => m.bit (data j) (other j)) m

theorem run_succ (data other : ℕ → BitVec w) (n : ℕ) (m : Masks w) :
    run data other (n+1) m = (run data other n m).bit (data n) (other n) := by
  rw [run,List.range_succ,List.foldl_append]
  rfl

/-- The lane `i` compares the high bits of `a` and `b`, those from `m` on. -/
structure Lane (lanes : BitVec w) (i a b m : ℕ) (masks : Masks w) : Prop where
  equal : masks.equal.getLsbD i = (lanes.getLsbD i && decide (a >>> m = b >>> m))
  less : masks.less.getLsbD i = (lanes.getLsbD i && decide (a >>> m < b >>> m))
  greater : masks.greater.getLsbD i = (lanes.getLsbD i && decide (b >>> m < a >>> m))

variable {lanes : BitVec w} {i a b m n : ℕ} {masks : Masks w}

theorem Lane.start (lanes : BitVec w) (i : ℕ) (ha : a < 2^n) (hb : b < 2^n) :
    Lane lanes i a b n (start lanes) := by
  have ha0 : a >>> n = 0 := by rw [Nat.shiftRight_eq_div_pow,Nat.div_eq_of_lt ha]
  have hb0 : b >>> n = 0 := by rw [Nat.shiftRight_eq_div_pow,Nat.div_eq_of_lt hb]
  constructor <;> simp [Masks.start,ha0,hb0]

theorem Lane.bit (h : Lane lanes i a b (m+1) masks) (hi : i < w) {data other : BitVec w}
    (hdata : data.getLsbD i = a.testBit m) (hother : other.getLsbD i = b.testBit m) :
    Lane lanes i a b m (masks.bit data other) := by
  have heq := shiftRight_eq_iff a b m
  have hlt := shiftRight_lt_iff a b m
  have hgt := shiftRight_lt_iff b a m
  constructor
  · rw [Masks.bit,BitVec.getLsbD_and,h.equal,BitVec.getLsbD_not,BitVec.getLsbD_xor,hdata,hother,
      decide_eq_true hi,Bool.and_assoc]
    congr 1
    rw [Bool.eq_iff_iff,decide_eq_true_eq,heq]
    cases a.testBit m <;> cases b.testBit m <;> simp
  · rw [Masks.bit,BitVec.getLsbD_or,BitVec.getLsbD_and,BitVec.getLsbD_and,h.less,h.equal,
      BitVec.getLsbD_not,hdata,hother,decide_eq_true hi,Bool.and_assoc,Bool.and_assoc,
      ← Bool.and_or_distrib_left]
    congr 1
    rw [Bool.eq_iff_iff,decide_eq_true_eq,hlt]
    cases a.testBit m <;> cases b.testBit m <;> simp
  · rw [Masks.bit,BitVec.getLsbD_or,BitVec.getLsbD_and,BitVec.getLsbD_and,h.greater,h.equal,
      BitVec.getLsbD_not,hdata,hother,decide_eq_true hi,Bool.and_assoc,Bool.and_assoc,
      ← Bool.and_or_distrib_left]
    congr 1
    rw [Bool.eq_iff_iff,decide_eq_true_eq,hgt,eq_comm (b:=a >>> (m+1))]
    cases a.testBit m <;> cases b.testBit m <;> simp

/-- All slices compare the numbers themselves. -/
theorem Lane.run (lanes : BitVec w) (hi : i < w) (ha : a < 2^n) (hb : b < 2^n) {data other : ℕ → BitVec w}
    (hdata : ∀ j < n, (data j).getLsbD i = a.testBit (n-1-j))
    (hother : ∀ j < n, (other j).getLsbD i = b.testBit (n-1-j)) :
    Lane lanes i a b 0 (run data other n (Masks.start lanes)) := by
  suffices hfirst : ∀ k ≤ n, Lane lanes i a b (n-k) (Masks.run data other k (Masks.start lanes)) by
    have hall := hfirst n le_rfl
    rwa [Nat.sub_self] at hall
  intro k hk
  induction k with
  | zero => exact Lane.start lanes i ha hb
  | succ k ih =>
    have hpos : n-k = n-(k+1)+1 := by omega
    have hbit : n-1-k = n-(k+1) := by omega
    rw [run_succ]
    refine Lane.bit (hpos ▸ ih (by omega)) hi ?_ ?_
    · rw [hdata k hk,hbit]
    · rw [hother k hk,hbit]

end Masks
end ElfIndex.BitSlices
