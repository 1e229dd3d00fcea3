import Mathlib.Algebra.Order.Group.Multiset
import Mathlib.Data.List.Sort

/-! # The difference of sorted lists

One pass over two sorted lists keeps what the first one has more often than the second one.
As a multiset this is the truncated difference.
-/
namespace ElfIndex

variable {α : Type*} [LinearOrder α]

/-- `std::set_difference`: the smaller head of the two lists is passed, and equal heads are
passed together. -/
def setDifference : List α → List α → List α
  | [], _ => []
  | x :: xs, [] => x :: xs
  | x :: xs, y :: ys =>
    if x < y then x :: setDifference xs (y :: ys)
    else if y < x then setDifference (x :: xs) ys
    else setDifference xs ys
termination_by xs ys => xs.length+ys.length

theorem count_eq_zero_of_lt {a y : α} {ys : List α} (h : (y :: ys).Pairwise (· ≤ ·)) (ha : a < y) :
    (y :: ys).count a = 0 := by
  refine List.count_eq_zero_of_not_mem fun hmem => ?_
  rcases List.mem_cons.mp hmem with rfl | hmem
  · exact lt_irrefl a ha
  · exact absurd ha (not_lt.mpr (List.rel_of_pairwise_cons h hmem))

/-- Each value stays as often as the first list has more of it. -/
theorem count_setDifference (xs ys : List α) (hx : xs.Pairwise (· ≤ ·))
    (hy : ys.Pairwise (· ≤ ·)) (a : α) : (setDifference xs ys).count a = xs.count a-ys.count a := by
  induction xs, ys using setDifference.induct with
  | case1 ys => rw [setDifference,List.count_nil,Nat.zero_sub]
  | case2 x xs => rw [setDifference,List.count_nil,Nat.sub_zero]
  | case3 x xs y ys hlt ih =>
    rw [setDifference,if_pos hlt]
    by_cases hax : x = a
    · subst hax
      rw [List.count_cons_self,List.count_cons_self,ih hx.of_cons hy,count_eq_zero_of_lt hy hlt]
      rfl
    · rw [List.count_cons_of_ne hax,List.count_cons_of_ne hax,ih hx.of_cons hy]
  | case4 x xs y ys hlt hgt ih =>
    rw [setDifference,if_neg hlt,if_pos hgt,ih hx hy.of_cons]
    by_cases hay : y = a
    · rw [count_eq_zero_of_lt hx (hay ▸ hgt),Nat.zero_sub,Nat.zero_sub]
    · rw [List.count_cons_of_ne hay]
  | case5 x xs y ys hlt hgt ih =>
    obtain rfl : x = y := le_antisymm (not_lt.mp hgt) (not_lt.mp hlt)
    rw [setDifference,if_neg hlt,if_neg hgt,ih hx.of_cons hy.of_cons,List.count_cons,
      List.count_cons,Nat.add_sub_add_right]

theorem coe_setDifference {xs ys : List α} (hx : xs.Pairwise (· ≤ ·)) (hy : ys.Pairwise (· ≤ ·)) :
    (setDifference xs ys : Multiset α) = (xs : Multiset α)-ys := by
  refine Multiset.ext.mpr fun a => ?_
  rw [Multiset.coe_count,Multiset.count_sub,Multiset.coe_count,Multiset.coe_count]
  exact count_setDifference xs ys hx hy a

/-- The lists may be sorted first. -/
theorem coe_setDifference_mergeSort (xs ys : List α) :
    (setDifference (xs.mergeSort (· ≤ ·)) (ys.mergeSort (· ≤ ·)) : Multiset α) =
      (xs : Multiset α)-ys := by
  rw [coe_setDifference (List.pairwise_mergeSort' _ xs) (List.pairwise_mergeSort' _ ys),
    Multiset.coe_eq_coe.mpr (List.mergeSort_perm xs _),
    Multiset.coe_eq_coe.mpr (List.mergeSort_perm ys _)]

end ElfIndex
