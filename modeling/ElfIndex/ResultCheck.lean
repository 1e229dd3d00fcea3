import ElfIndex.Lib.SortedDifference
import Mathlib.Algebra.Order.Ring.Int
import Mathlib.Algebra.Order.Sub.Basic
import Mathlib.Data.Multiset.OrderedMonoid

/-! # The check of the parallel results

The tids of a parallel search are compared with those of the sequential one, which a global
vector holds. The check looks for tids that the parallel search lost.
-/
namespace ElfIndex

/-- The two global vectors of the check. -/
structure Results where
  resultElf : List ℕ
  resultDifference : List ℕ
deriving DecidableEq, Repr

/-- The text a call writes, if any, the code it exits with, if it does, and the globals
behind it. -/
structure Compared where
  message : Option String
  exit : Option ℤ
  results : Results
deriving DecidableEq, Repr

/-- The sorting and the difference, which both tables share. The sorted copy of the vector
is dropped at the end of the call. -/
def Results.compared (r : Results) (resultVector : List ℕ) : Results :=
  let resultElf := r.resultElf.mergeSort (· ≤ ·)
  let resultVector := resultVector.mergeSort (· ≤ ·)
  ⟨resultElf,r.resultDifference ++ setDifference resultElf resultVector⟩

/-- `int size_unmatched = result_difference.size()` -/
def Results.sizeUnmatched (r : Results) : ℤ := (r.resultDifference.length : ℤ).bmod (2^32)

def Results.cleared (r : Results) : Results := {r with resultDifference := []}

def compareResults (query tableName : String) (r : Results) (resultVector : List ℕ) : Compared :=
  if tableName = "Part" then
    let r := r.compared resultVector
    if r.sizeUnmatched ≠ 0 then
      ⟨some ("Result didn't match for" ++ query ++ "\n\n"),none,r.cleared⟩
    else ⟨none,none,r.cleared⟩
  else if tableName = "Line" then
    let r := r.compared resultVector
    if r.sizeUnmatched ≠ 0 then
      ⟨some ("RESULT DIDN'T MATCH FOR" ++ query ++ "\n\n"),some (-1),r⟩
    else ⟨none,none,r.cleared⟩
  else ⟨none,none,r⟩

/-- The call says that the results do not match. -/
def Compared.reports (c : Compared) : Prop := c.message ≠ none

variable {query tableName : String} {r : Results} {elf vec : List ℕ}

/-- A call that does not end the program leaves the globals as the next one needs them. -/
theorem compareResults_goes_on (hempty : r.resultDifference = [])
    (hexit : (compareResults query tableName r vec).exit = none) :
    (compareResults query tableName r vec).results.resultDifference = [] ∧
      (compareResults query tableName r vec).results.resultElf.Perm r.resultElf := by
  have hcleared : (r.compared vec).cleared.resultDifference = [] ∧
      (r.compared vec).cleared.resultElf.Perm r.resultElf := ⟨rfl,List.mergeSort_perm _ _⟩
  by_cases hsize : (r.compared vec).sizeUnmatched = 0
  · by_cases hpart : tableName = "Part"
    · simpa only [compareResults,hpart,hsize,if_true,ne_eq,not_true,if_false] using hcleared
    · by_cases hline : tableName = "Line"
      · simpa only [compareResults,if_neg hpart,if_pos hline,hsize,ne_eq,not_true,if_false]
          using hcleared
      · simpa only [compareResults,if_neg hpart,if_neg hline] using ⟨hempty,List.Perm.refl _⟩
  · by_cases hpart : tableName = "Part"
    · simpa only [compareResults,if_pos hpart,ne_eq,hsize,not_false_eq_true,if_true] using hcleared
    · by_cases hline : tableName = "Line"
      · simp only [compareResults,if_neg hpart,if_pos hline,ne_eq,hsize,not_false_eq_true,if_true]
          at hexit
        cases hexit
      · simpa only [compareResults,if_neg hpart,if_neg hline] using ⟨hempty,List.Perm.refl _⟩

/-- The size of the difference is the number of lost tids. -/
theorem compared_length (elf vec : List ℕ) :
    (Results.compared ⟨elf,[]⟩ vec).resultDifference.length = ((elf : Multiset ℕ)-vec).card := by
  rw [← coe_setDifference_mergeSort,Multiset.coe_card]
  rfl

theorem bmod_eq_zero_iff (n m : ℕ) : (n : ℤ).bmod m = 0 ↔ m ∣ n :=
  Int.dvd_iff_bmod_eq_zero.symm.trans Int.natCast_dvd_natCast

theorem sizeUnmatched_eq_zero_iff (elf vec : List ℕ) :
    (Results.compared ⟨elf,[]⟩ vec).sizeUnmatched = 0 ↔
      2^32 ∣ ((elf : Multiset ℕ)-vec).card := by
  rw [← compared_length]
  exact bmod_eq_zero_iff _ _

/-- A call reports lost tids only, and only for the two tables. -/
theorem reports_iff (query tableName : String) (elf vec : List ℕ) :
    (compareResults query tableName ⟨elf,[]⟩ vec).reports ↔
      (tableName = "Part" ∨ tableName = "Line") ∧ ¬ 2^32 ∣ ((elf : Multiset ℕ)-vec).card := by
  rw [← sizeUnmatched_eq_zero_iff]
  by_cases hsize : (Results.compared ⟨elf,[]⟩ vec).sizeUnmatched = 0
  · have hquiet : (compareResults query tableName ⟨elf,[]⟩ vec).message = none := by
      simp only [compareResults,hsize,ne_eq,not_true,if_false]
      split
      · rfl
      · split <;> rfl
    exact ⟨fun h => absurd hquiet h,fun h => absurd hsize h.2⟩
  · rw [and_iff_left hsize]
    by_cases hpart : tableName = "Part"
    · simp [Compared.reports,compareResults,hpart,hsize]
    · by_cases hline : tableName = "Line"
      · simp [Compared.reports,compareResults,hline,hsize]
      · simp [Compared.reports,compareResults,hpart,hline]

/-- The check is right when the answers agree, and when tids of a known table are lost whose
number is not a multiple of `2^32`. Tids that only the parallel search finds go unseen. -/
theorem compareResults_right_iff (query tableName : String) (elf vec : List ℕ) :
    ((compareResults query tableName ⟨elf,[]⟩ vec).reports ↔ ¬ elf.Perm vec) ↔
      elf.Perm vec ∨
        (tableName = "Part" ∨ tableName = "Line") ∧ ¬ 2^32 ∣ ((elf : Multiset ℕ)-vec).card := by
  rw [reports_iff]
  by_cases hperm : elf.Perm vec
  · have hzero : ((elf : Multiset ℕ)-vec).card = 0 := by
      rw [Multiset.coe_eq_coe.mpr hperm,tsub_self,Multiset.card_zero]
    rw [hzero]
    simp [hperm]
  · simp only [hperm,not_false_eq_true,iff_true,false_or]

/-- A tid that only the parallel search finds. -/
theorem compareResults_phantom :
    ¬ ((compareResults "runQ17Query" "Line" ⟨[1],[]⟩ [1,2]).reports ↔ ¬ [1].Perm [1,2]) := by
  intro h
  have hdiffer : ¬ [1].Perm [1,2] := by decide
  have hlost : ((([1] : List ℕ) : Multiset ℕ)-([1,2] : List ℕ)).card = 0 := by decide
  exact ((reports_iff _ _ _ _).mp (h.mpr hdiffer)).2 (hlost ▸ Nat.dvd_zero _)

end ElfIndex
