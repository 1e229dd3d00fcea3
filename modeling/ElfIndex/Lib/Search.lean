import Mathlib.Data.List.Basic
import Mathlib.Order.Lattice

/-! # Searches in ascending lists

The first match of a search in a strictly ascending list is the smallest match. A binary
search finds where a property of the front elements ends.
-/
namespace ElfIndex.Search

variable {α : Type*} [LinearOrder α] {l : List α} {p : α → Bool} {a : α}

theorem find?_eq_some_iff_of_ascending (h : l.Pairwise (· < ·)) :
    l.find? p = some a ↔ a ∈ l ∧ p a = true ∧ ∀ b ∈ l, b < a → p b = false := by
  induction l with
  | nil =>
    constructor
    · intro hnone
      cases hnone
    · rintro ⟨hmem,-⟩
      cases hmem
  | cons c l ih =>
    obtain ⟨hc,hl⟩ := List.pairwise_cons.mp h
    rw [List.find?_cons]
    cases hp : p c with
    | true =>
      simp only [Option.some.injEq]
      constructor
      · rintro rfl
        refine ⟨List.mem_cons_self,hp,?_⟩
        intro b hb hba
        rcases List.mem_cons.mp hb with rfl | hb
        · exact absurd hba (lt_irrefl b)
        · exact absurd hba (lt_asymm (hc b hb))
      · rintro ⟨hmem,_,hfirst⟩
        rcases List.mem_cons.mp hmem with rfl | hmem
        · rfl
        · rw [hfirst c List.mem_cons_self (hc a hmem)] at hp
          cases hp
    | false =>
      simp only [ih hl]
      constructor
      · rintro ⟨hmem,hpa,hfirst⟩
        refine ⟨List.mem_cons_of_mem c hmem,hpa,?_⟩
        intro b hb hba
        rcases List.mem_cons.mp hb with rfl | hb
        · exact hp
        · exact hfirst b hb hba
      · rintro ⟨hmem,hpa,hfirst⟩
        rcases List.mem_cons.mp hmem with rfl | hmem
        · rw [hp] at hpa
          cases hpa
        · exact ⟨hmem,hpa,fun b hb => hfirst b (List.mem_cons_of_mem c hb)⟩

/-- The search finds the smallest match exactly when that match is in the list. -/
theorem find?_getD_eq_iff_mem (h : l.Pairwise (· < ·)) {default : α} (hne : default ≠ a)
    (hp : p a = true) (hfirst : ∀ b < a, p b = false) : (l.find? p).getD default = a ↔ a ∈ l := by
  constructor
  · intro hfound
    cases hsearch : l.find? p with
    | none =>
      rw [hsearch,Option.getD_none] at hfound
      exact absurd hfound hne
    | some b =>
      rw [hsearch,Option.getD_some] at hfound
      rw [← hfound]
      exact List.mem_of_find?_eq_some hsearch
  · intro hmem
    rw [(find?_eq_some_iff_of_ascending h).mpr ⟨hmem,hp,fun b _ => hfirst b⟩,Option.getD_some]

/-! ## Binary search -/

/-- The binary search of `len` positions from `first` on. -/
def partitionPoint {α : Type*} (p : α → Bool) (l : List α) : ℕ → ℕ → ℕ → ℕ
  | 0, first, _ => first
  | fuel+1, first, len =>
    if len > 0 then
      let half := len/2
      if l[first+half]?.any p then partitionPoint p l fuel (first+half+1) (len-half-1)
      else partitionPoint p l fuel first half
    else first

/-- The position that `lower_bound` returns. -/
def lowerBound (l : List α) (value : α) : ℕ :=
  partitionPoint (fun x => decide (x < value)) l l.length 0 l.length

/-- The position that `upper_bound` returns. -/
def upperBound (l : List α) (value : α) : ℕ :=
  partitionPoint (fun x => !decide (value < x)) l l.length 0 l.length

/-- Positions before the searched part have the property, those behind it do not. -/
theorem partitionPoint_run {α : Type*} {p : α → Bool} {l : List α}
    (hp : l.Pairwise fun x y => p y = true → p x = true) (fuel first len : ℕ) (hfuel : len ≤ fuel)
    (hroom : first+len ≤ l.length) (hbefore : ∀ i (hi : i < l.length), i < first → p l[i] = true)
    (hbehind : ∀ i (hi : i < l.length), first+len ≤ i → p l[i] = false) :
    partitionPoint p l fuel first len ≤ l.length ∧
      ∀ i (hi : i < l.length), i < partitionPoint p l fuel first len ↔ p l[i] = true := by
  have hdone : ∀ first, first ≤ l.length → (∀ i (hi : i < l.length), i < first → p l[i] = true) →
      (∀ i (hi : i < l.length), first ≤ i → p l[i] = false) → first ≤ l.length ∧
        ∀ i (hi : i < l.length), i < first ↔ p l[i] = true := by
    intro first hle hlow hhigh
    refine ⟨hle,fun i hi => ⟨hlow i hi,?_⟩⟩
    intro htrue
    by_contra hge
    rw [hhigh i hi (by omega)] at htrue
    cases htrue
  have hmono := List.pairwise_iff_getElem.mp hp
  induction fuel generalizing first len with
  | zero =>
    obtain rfl : len = 0 := by omega
    exact hdone first hroom hbefore hbehind
  | succ fuel ih =>
    rw [partitionPoint]
    split
    · have hmid : first+len/2 < l.length := by omega
      simp only [List.getElem?_eq_getElem hmid,Option.any_some]
      rcases hpm : p l[first+len/2] with _ | _
      · refine ih first (len/2) (by omega) (by omega) hbefore ?_
        intro i hi hge
        rcases Nat.eq_or_lt_of_le hge with rfl | hlt
        · exact hpm
        · by_contra htrue
          rw [Bool.not_eq_false] at htrue
          rw [hmono _ i hmid hi hlt htrue] at hpm
          cases hpm
      · refine ih (first+len/2+1) (len-len/2-1) (by omega) (by omega) ?_ ?_
        · intro i hi hlt
          rcases Nat.eq_or_lt_of_le (Nat.lt_succ_iff.mp hlt) with rfl | hless
          · exact hpm
          · exact hmono i _ hi hmid hless hpm
        · exact fun i hi hge => hbehind i hi (by omega)
    · obtain rfl : len = 0 := by omega
      exact hdone first hroom hbefore hbehind

/-- In a sorted list the smaller elements stand before the lower bound. -/
theorem lowerBound_spec (h : l.Pairwise (· ≤ ·)) (value : α) :
    lowerBound l value ≤ l.length ∧
      ∀ i (hi : i < l.length), i < lowerBound l value ↔ l[i] < value := by
  have hrun := partitionPoint_run (p:=fun x => decide (x < value)) (l:=l) (h.imp (by
    intro x y hxy hy
    exact decide_eq_true (hxy.trans_lt (of_decide_eq_true hy)))) l.length 0 l.length le_rfl
    (by omega) (fun i hi h0 => absurd h0 (Nat.not_lt_zero i)) (fun i hi hge => by omega)
  unfold lowerBound
  simpa only [decide_eq_true_eq] using hrun

/-- In a sorted list the larger elements stand from the upper bound on. -/
theorem upperBound_spec (h : l.Pairwise (· ≤ ·)) (value : α) :
    upperBound l value ≤ l.length ∧
      ∀ i (hi : i < l.length), i < upperBound l value ↔ l[i] ≤ value := by
  have hrun := partitionPoint_run (p:=fun x => !decide (value < x)) (l:=l) (h.imp (by
    intro x y hxy hy
    rw [Bool.not_eq_true',decide_eq_false_iff_not,not_lt] at hy ⊢
    exact hxy.trans hy)) l.length 0 l.length le_rfl
    (by omega) (fun i hi h0 => absurd h0 (Nat.not_lt_zero i)) (fun i hi hge => by omega)
  unfold upperBound
  simpa only [Bool.not_eq_true',decide_eq_false_iff_not,not_lt] using hrun

end ElfIndex.Search
