import Mathlib.Data.Fintype.Basic
import Mathlib.Data.Nat.Bitwise
import Mathlib.Order.Monotone.Basic
import ElfIndex.Store

/-! # Bins and masks

The 64 borders of a column cut its values into bins, and a mask is a set of bins. The
bins of the lower and upper bound of a query give the mask of the values that can match,
and the inner mask of those that do.
-/
namespace ElfIndex

/-- The borders of a column. -/
abbrev Bins := Fin 64 → ℕ

/-! ## The binary search -/

namespace Getbin

variable (x : ℕ) (bins : Bins)

/-- Statements on the result variable of `GETBIN64`. -/
def block (body : List (ℕ → ℕ)) (z : ℕ) : ℕ := body.foldl (fun z stmt => stmt z) z

def set (w : ℕ) : ℕ → ℕ := fun _ => w

def check (w : Fin 64) : ℕ → ℕ := fun z => if x ≥ bins w ∧ x < bins (w+1) then w else z

def left (w : Fin 64) (body : List (ℕ → ℕ)) : ℕ → ℕ :=
  fun z => if x < bins (w+1) then block body z else z

def right (w : Fin 64) (body : List (ℕ → ℕ)) : ℕ → ℕ :=
  fun z => if x ≥ bins w then block body z else z

end Getbin

open Getbin in
def getBin64 (x : ℕ) (bins : Bins) : ℕ :=
  let check := check x bins
  let left := left x bins
  let right := right x bins
  block [
    right 32 [
      right 48 [
        right 56 [
          right 60 [right 62 [set 62,right 63 [set 63]],check 61,left 60 [set 60]],
          check 59,left 58 [right 58 [set 58],check 57,left 56 [set 56]]],
        check 55,left 54 [
          right 52 [right 54 [set 54],check 53,left 52 [set 52]],
          check 51,left 50 [right 50 [set 50],check 49,left 48 [set 48]]]],
      check 47,left 46 [
        right 40 [
          right 44 [right 46 [set 46],check 45,left 44 [set 44]],
          check 43,left 42 [right 42 [set 42],check 41,left 40 [set 40]]],
        check 39,left 38 [
          right 36 [right 38 [set 38],check 37,left 36 [set 36]],
          check 35,left 34 [right 34 [set 34],check 33,left 32 [set 32]]]]],
    check 31,left 30 [
      right 16 [
        right 24 [
          right 28 [right 30 [set 30],check 29,left 28 [set 28]],
          check 27,left 26 [right 26 [set 26],check 25,left 24 [set 24]]],
        check 23,left 22 [
          right 20 [right 22 [set 22],check 21,left 20 [set 20]],
          check 19,left 18 [right 18 [set 18],check 17,left 16 [set 16]]]],
      check 15,left 14 [
        right 8 [
          right 12 [right 14 [set 14],check 13,left 12 [set 12]],
          check 11,left 10 [right 10 [set 10],check 9,left 8 [set 8]]],
        check 7,left 6 [
          right 4 [right 6 [set 6],check 5,left 4 [set 4]],
          check 3,left 2 [right 2 [set 2],check 1,left 0 [set 0]]]]]] 0

/-! ## The result is a bin, whatever the borders are -/

namespace Getbin

variable {x : ℕ} {bins : Bins} {w : Fin 64} {body : List (ℕ → ℕ)}

/-- The statement only puts bin numbers into the result variable. -/
def Stays (stmt : ℕ → ℕ) : Prop := ∀ z < 64, stmt z < 64

theorem block_lt (h : ∀ stmt ∈ body, Stays stmt) {z : ℕ} (hz : z < 64) : block body z < 64 := by
  induction body generalizing z with
  | nil => exact hz
  | cons stmt body ih =>
    exact ih (fun s hs => h s (List.mem_cons_of_mem _ hs)) (h stmt List.mem_cons_self z hz)

theorem set_stays {v : ℕ} (h : v < 64) : Stays (set v) := fun _ _ => h

theorem check_stays : Stays (check x bins w) := by
  intro z hz
  unfold check
  split
  · exact w.isLt
  · exact hz

theorem left_stays (h : ∀ stmt ∈ body, Stays stmt) : Stays (left x bins w body) := by
  intro z hz
  unfold left
  split
  · exact block_lt h hz
  · exact hz

theorem right_stays (h : ∀ stmt ∈ body, Stays stmt) : Stays (right x bins w body) := by
  intro z hz
  unfold right
  split
  · exact block_lt h hz
  · exact hz

end Getbin

open Getbin in
theorem getBin64_lt (bins : Bins) (x : ℕ) : getBin64 x bins < 64 := by
  refine block_lt ?_ (by decide)
  repeat' first
    | exact check_stays
    | exact set_stays (by decide)
    | refine left_stays ?_
    | refine right_stays ?_
    | refine List.forall_mem_cons.mpr ⟨?_,?_⟩
    | exact List.forall_mem_nil _

/-! ## The bin of a value -/

open Getbin in
/-- The search only depends on how the value compares with the borders. -/
theorem getBin64_congr {x y : ℕ} {bins bins' : Bins} (h : ∀ w, x ≥ bins w ↔ y ≥ bins' w) :
    getBin64 x bins = getBin64 y bins' := by
  have hlt : ∀ w, x < bins w ↔ y < bins' w := by
    intro w
    rw [← not_le,← not_le]
    exact not_congr (h w)
  have hcheck : check x bins = check y bins' := by
    funext w z
    simp only [check,h,hlt]
  have hleft : left x bins = left y bins' := by
    funext w body z
    simp only [left,hlt]
  have hright : right x bins = right y bins' := by
    funext w body z
    simp only [right,h]
  unfold getBin64
  rw [hcheck,hleft,hright]

theorem getBin64_steps : ∀ k : Fin 65, getBin64 k (fun w => w+1) = k-1 := by
  decide

/-- The number of borders up to a value. -/
theorem exists_borders {bins : Bins} (hbins : Monotone bins) (x : ℕ) :
    ∃ k ≤ 64, ∀ w, x ≥ bins w ↔ w.val < k := by
  by_cases h : ∃ i, ∃ hi : i < 64, x < bins ⟨i,hi⟩
  · obtain ⟨hk,hlt⟩ := Nat.find_spec h
    refine ⟨Nat.find h,hk.le,?_⟩
    intro w
    constructor
    · intro hw
      by_contra hge
      exact absurd (hlt.trans_le (hbins (Fin.mk_le_of_le_val (not_lt.mp hge)))) (not_lt.mpr hw)
    · intro hw
      exact not_lt.mp fun hx => Nat.find_min h hw ⟨w.isLt,hx⟩
  · refine ⟨64,le_rfl,?_⟩
    intro w
    refine ⟨fun _ => w.isLt,fun _ => ?_⟩
    exact not_lt.mp fun hx => h ⟨w.val,w.isLt,hx⟩

/-- The bin of a value is the last border up to it, and bin 0 if there is none. -/
theorem getBin64_spec {bins : Bins} (hbins : Monotone bins) (x : ℕ) :
    ∃ k ≤ 64, (∀ w, x ≥ bins w ↔ w.val < k) ∧ getBin64 x bins = k-1 := by
  obtain ⟨k,hk,hborders⟩ := exists_borders hbins x
  refine ⟨k,hk,hborders,?_⟩
  rw [← getBin64_steps ⟨k,Nat.lt_succ_of_le hk⟩]
  exact getBin64_congr fun w => (hborders w).trans Nat.lt_iff_add_one_le

theorem getBin64_mono {bins : Bins} (hbins : Monotone bins) {x y : ℕ} (h : x ≤ y) :
    getBin64 x bins ≤ getBin64 y bins := by
  obtain ⟨k,hk,hx,hbin⟩ := getBin64_spec hbins x
  obtain ⟨l,_,hy,hbin'⟩ := getBin64_spec hbins y
  have hkl : k ≤ l := by
    by_contra hlt
    have hlk : l < k := not_le.mp hlt
    have hle := (hx ⟨l,by omega⟩).mpr hlk
    exact Nat.lt_irrefl l ((hy ⟨l,by omega⟩).mp (hle.trans h))
  omega

/-! ## The reads of the search

The search once more, with every border it compares with read from the array. A statement
that reads outside of the 64 borders stops the run.
-/

/-- `bins[W]`. -/
def Bins.read (bins : Bins) (w : ℕ) : Option ℕ := if h : w < 64 then some (bins ⟨w,h⟩) else none

namespace Getbin.Checked

variable (x : ℕ) (bins : Bins)

def block (body : List (ℕ → Option ℕ)) (z : ℕ) : Option ℕ :=
  body.foldlM (fun z stmt => stmt z) z

def set (w : ℕ) : ℕ → Option ℕ := fun _ => some w

/-- The second border is read only if the first comparison holds. -/
def check (w : ℕ) : ℕ → Option ℕ := fun z => do
  let border ← bins.read w
  if x ≥ border then do
    let next ← bins.read (w+1)
    if x < next then some w else some z
  else some z

def left (w : ℕ) (body : List (ℕ → Option ℕ)) : ℕ → Option ℕ := fun z => do
  let next ← bins.read (w+1)
  if x < next then block body z else some z

def right (w : ℕ) (body : List (ℕ → Option ℕ)) : ℕ → Option ℕ := fun z => do
  let border ← bins.read w
  if x ≥ border then block body z else some z

end Getbin.Checked

open Getbin.Checked in
def Checked.getBin64 (x : ℕ) (bins : Bins) : Option ℕ :=
  let check := check x bins
  let left := left x bins
  let right := right x bins
  block [
    right 32 [
      right 48 [
        right 56 [
          right 60 [right 62 [set 62,right 63 [set 63]],check 61,left 60 [set 60]],
          check 59,left 58 [right 58 [set 58],check 57,left 56 [set 56]]],
        check 55,left 54 [
          right 52 [right 54 [set 54],check 53,left 52 [set 52]],
          check 51,left 50 [right 50 [set 50],check 49,left 48 [set 48]]]],
      check 47,left 46 [
        right 40 [
          right 44 [right 46 [set 46],check 45,left 44 [set 44]],
          check 43,left 42 [right 42 [set 42],check 41,left 40 [set 40]]],
        check 39,left 38 [
          right 36 [right 38 [set 38],check 37,left 36 [set 36]],
          check 35,left 34 [right 34 [set 34],check 33,left 32 [set 32]]]]],
    check 31,left 30 [
      right 16 [
        right 24 [
          right 28 [right 30 [set 30],check 29,left 28 [set 28]],
          check 27,left 26 [right 26 [set 26],check 25,left 24 [set 24]]],
        check 23,left 22 [
          right 20 [right 22 [set 22],check 21,left 20 [set 20]],
          check 19,left 18 [right 18 [set 18],check 17,left 16 [set 16]]]],
      check 15,left 14 [
        right 8 [
          right 12 [right 14 [set 14],check 13,left 12 [set 12]],
          check 11,left 10 [right 10 [set 10],check 9,left 8 [set 8]]],
        check 7,left 6 [
          right 4 [right 6 [set 6],check 5,left 4 [set 4]],
          check 3,left 2 [right 2 [set 2],check 1,left 0 [set 0]]]]]] 0

namespace Getbin.Checked

variable {x : ℕ} {bins : Bins}

/-- The checked statement does not stop and computes what the statement does. -/
def Runs (checked : ℕ → Option ℕ) (stmt : ℕ → ℕ) : Prop := ∀ z, checked z = some (stmt z)

variable {w : ℕ} {v : Fin 64} {checked : List (ℕ → Option ℕ)} {body : List (ℕ → ℕ)}

theorem read_eq (hv : v.val = w) : bins.read w = some (bins v) := by
  subst hv
  exact dif_pos v.isLt

theorem read_succ (hv : v.val = w) (hw : w < 63) : bins.read (w+1) = some (bins (v+1)) := by
  refine read_eq ?_
  rw [Fin.val_add]
  simp only [Fin.val_one]
  omega

theorem set_runs : Runs (set w) (Getbin.set w) := fun _ => rfl

theorem block_runs (h : List.Forall₂ Runs checked body) :
    Runs (block checked) (Getbin.block body) := by
  induction h with
  | nil => exact fun _ => rfl
  | @cons c stmt cs body hc _ ih =>
    intro z
    unfold block
    rw [List.foldlM_cons,hc z]
    exact ih (stmt z)

theorem check_runs (hv : v.val = w) (hw : w < 63) :
    Runs (check x bins w) (Getbin.check x bins v) := by
  intro z
  simp only [check,Getbin.check,read_eq hv,read_succ hv hw,Option.bind_eq_bind,Option.bind_some]
  by_cases hborder : x ≥ bins v
  · by_cases hnext : x < bins (v+1)
    · rw [if_pos hborder,if_pos hnext,if_pos ⟨hborder,hnext⟩,hv]
    · rw [if_pos hborder,if_neg hnext,if_neg fun h => hnext h.2]
  · rw [if_neg hborder,if_neg fun h => hborder h.1]

theorem left_runs (hv : v.val = w) (hw : w < 63) (h : List.Forall₂ Runs checked body) :
    Runs (left x bins w checked) (Getbin.left x bins v body) := by
  intro z
  simp only [left,Getbin.left,read_succ hv hw,Option.bind_eq_bind,Option.bind_some]
  split
  · exact block_runs h z
  · rfl

theorem right_runs (hv : v.val = w) (h : List.Forall₂ Runs checked body) :
    Runs (right x bins w checked) (Getbin.right x bins v body) := by
  intro z
  simp only [right,Getbin.right,read_eq hv,Option.bind_eq_bind,Option.bind_some]
  split
  · exact block_runs h z
  · rfl

end Getbin.Checked

open Getbin.Checked in
/-- No comparison of the search reads behind the 64 borders. -/
theorem Checked.getBin64_eq (x : ℕ) (bins : Bins) :
    Checked.getBin64 x bins = some (ElfIndex.getBin64 x bins) := by
  refine block_runs ?_ 0
  repeat' first
    | exact set_runs
    | exact check_runs (by decide) (by decide)
    | refine left_runs (by decide) (by decide) ?_
    | refine right_runs (by decide) ?_
    | refine List.Forall₂.cons ?_ ?_
    | exact List.Forall₂.nil

/-- The last border up to a value, or bin 0 when the value is below all of them. -/
def IsBin (bins : Bins) (x : ℕ) (i : Fin 64) : Prop :=
  (bins i ≤ x ∧ ∀ j, bins j ≤ x → j ≤ i) ∨ (x < bins 0 ∧ i = 0)

theorem exists_isBin {bins : Bins} (hbins : Monotone bins) (x : ℕ) :
    ∃ i : Fin 64, getBin64 x bins = i ∧ IsBin bins x i := by
  obtain ⟨k,hk,hborders,hbin⟩ := getBin64_spec hbins x
  refine ⟨⟨k-1,by omega⟩,hbin,?_⟩
  rcases Nat.eq_zero_or_pos k with hzero | hpos
  · right
    refine ⟨not_le.mp fun hx => ?_,Fin.ext (by simp [hzero])⟩
    exact Nat.not_lt_zero _ (hzero ▸ (hborders 0).mp hx)
  · left
    refine ⟨(hborders _).mpr (Nat.sub_lt hpos Nat.one_pos),fun j hj => ?_⟩
    exact Nat.le_sub_one_of_lt ((hborders j).mp hj)

/-- The nested statements are the linear search for the last border up to the value, they
read the 64 borders only, and the bin is monotone in the value. -/
theorem getBin64_linear {bins : Bins} (hbins : Monotone bins) (x : ℕ) :
    (∃ i : Fin 64, Checked.getBin64 x bins = some i.val ∧ getBin64 x bins = i ∧ IsBin bins x i) ∧
      ∀ y ≥ x, getBin64 x bins ≤ getBin64 y bins := by
  obtain ⟨i,hi,hbin⟩ := exists_isBin hbins x
  refine ⟨⟨i,?_,hi,hbin⟩,fun y hy => getBin64_mono hbins hy⟩
  rw [Checked.getBin64_eq,hi]

/-- Three tied borders: the last one counts, and a value below all borders is in bin 0. -/
theorem getBin64_linear_ties :
    let bins : Bins := fun w => if w.val < 3 then 5 else 5+w.val
    getBin64 5 bins = 2 ∧ getBin64 4 bins = 0 ∧ getBin64 4 bins ≤ getBin64 5 bins := by
  intro bins
  have hmono : Monotone bins := by
    intro v w hvw
    have hle : v.val ≤ w.val := hvw
    dsimp only [bins]
    split <;> split <;> omega
  exact ⟨by decide,by decide,(getBin64_linear hmono 4).2 5 (by decide)⟩

/-! ## Masks -/

abbrev Mask := BitVec 64

def impsSetBit (mask : Mask) (bit : ℕ) : Mask := mask ||| (1#64 <<< bit)

def impsUnsetBit (mask : Mask) (bit : ℕ) : Mask := mask &&& ~~~(1#64 <<< bit)

/-- The outer mask, from the bins of the two bounds. -/
def outerMask (lowerBitToSet upperBitToSet : ℕ) : Mask :=
  ((((1#64 <<< upperBitToSet)-1#64) <<< 1) ||| 1#64) - ((1#64 <<< lowerBitToSet)-1#64)

/-- `mask` and `innermask` of `make_mask`. -/
def makeMask (s : Store) (bins : Bins) (lower upper : ℕ) : Mask × Mask :=
  let lowerBitToSet := getBin64 lower bins
  let upperBitToSet := getBin64 upper bins
  let mask := outerMask lowerBitToSet upperBitToSet
  let innermask := if lower ≠ s.dimMin then impsUnsetBit mask lowerBitToSet else mask
  (mask,if upper ≠ s.dimMax then impsUnsetBit innermask upperBitToSet else innermask)

theorem getLsbD_one_shiftLeft {bit : ℕ} (h : bit < 64) (i : ℕ) :
    (1#64 <<< bit).getLsbD i = decide (i = bit) := by
  rw [BitVec.getLsbD_shiftLeft,BitVec.getLsbD_one,Bool.eq_iff_iff]
  simp
  omega

@[simp] theorem getLsbD_impsSetBit {bit : ℕ} (h : bit < 64) (mask : Mask) (i : ℕ) :
    (impsSetBit mask bit).getLsbD i = (mask.getLsbD i || decide (i = bit)) := by
  rw [impsSetBit,BitVec.getLsbD_or,getLsbD_one_shiftLeft h]

theorem getLsbD_impsUnsetBit {bit : ℕ} (h : bit < 64) (mask : Mask) {i : ℕ} (hi : i < 64) :
    (impsUnsetBit mask bit).getLsbD i = (mask.getLsbD i && decide (i ≠ bit)) := by
  rw [impsUnsetBit,BitVec.getLsbD_and,BitVec.getLsbD_not,getLsbD_one_shiftLeft h]
  simp [hi]

theorem toNat_ones {bit : ℕ} (h : bit < 64) : ((1#64 <<< bit)-1#64).toNat = 2^bit-1 := by
  have hlt := Nat.pow_lt_pow_right (a:=2) (by decide) h
  have hone : (1#64).toNat = 1 := rfl
  have hshift : (1#64 <<< bit).toNat = 2^bit := by
    rw [BitVec.toNat_shiftLeft,Nat.shiftLeft_eq,hone,Nat.one_mul,Nat.mod_eq_of_lt hlt]
  have hle : 1#64 ≤ 1#64 <<< bit := by
    rw [BitVec.le_def,hshift]
    exact Nat.one_le_two_pow
  rw [BitVec.toNat_sub_of_le hle,hshift]
  rfl

theorem toNat_outerMask {l u : ℕ} (hlu : l ≤ u) (hu : u < 64) :
    (outerMask l u).toNat = (2^(u+1-l)-1) <<< l := by
  have hpos := Nat.one_le_two_pow (n:=u)
  have hlt : 2^u*2 ≤ 2^64 := by
    rw [← pow_succ]
    exact Nat.pow_le_pow_right (by decide) hu
  have hhigh : ((((1#64 <<< u)-1#64) <<< 1) ||| 1#64).toNat = 2^u*2-1 := by
    have hor := Nat.two_pow_add_eq_or_of_lt (b:=1) (i:=1) (by decide) (2^u-1)
    have hmul : 2^1*(2^u-1) = (2^u-1)*2^1 := Nat.mul_comm _ _
    rw [hmul] at hor
    rw [BitVec.toNat_or,BitVec.toNat_shiftLeft,toNat_ones hu,Nat.shiftLeft_eq,
      Nat.mod_eq_of_lt (by omega)]
    change (2^u-1)*2^1 ||| 1 = _
    omega
  have hpow : 2^u*2 = 2^(u+1-l)*2^l := by
    rw [← pow_succ,← pow_add]
    congr 1
    omega
  have hl := Nat.one_le_two_pow (n:=l)
  have hle : 2^l ≤ 2^u := Nat.pow_le_pow_right (by decide) hlu
  have hsub : (1#64 <<< l)-1#64 ≤ (((1#64 <<< u)-1#64) <<< 1) ||| 1#64 := by
    rw [BitVec.le_def,hhigh,toNat_ones (by omega)]
    omega
  rw [outerMask,BitVec.toNat_sub_of_le hsub,hhigh,toNat_ones (by omega),Nat.shiftLeft_eq,
    Nat.sub_mul,Nat.one_mul,← hpow]
  omega

/-- The shift and the subtractions give the bits from the lower to the upper one. -/
theorem getLsbD_outerMask {l u : ℕ} (hlu : l ≤ u) (hu : u < 64) (i : ℕ) :
    (outerMask l u).getLsbD i = decide (l ≤ i ∧ i ≤ u) := by
  rw [BitVec.getLsbD,toNat_outerMask hlu hu,Nat.testBit_shiftLeft,Nat.testBit_two_pow_sub_one,
    Bool.eq_iff_iff]
  simp only [Bool.and_eq_true,decide_eq_true_eq]
  omega

/-! ## What the masks mean -/

/-- Two masks have a common bin. -/
theorem and_ne_zero_iff {a b : Mask} :
    a &&& b ≠ 0#64 ↔ ∃ i < 64, a.getLsbD i = true ∧ b.getLsbD i = true := by
  constructor
  · intro h
    by_contra hno
    refine h (BitVec.eq_of_getLsbD_eq fun i hi => ?_)
    rw [BitVec.getLsbD_and]
    by_contra hbit
    rw [BitVec.getLsbD_zero,Bool.not_eq_false,Bool.and_eq_true] at hbit
    exact hno ⟨i,hi,hbit⟩
  · rintro ⟨i,hi,ha,hb⟩ hzero
    have hbit : (a &&& b).getLsbD i = false := by
      rw [hzero]
      exact BitVec.getLsbD_zero
    rw [BitVec.getLsbD_and,ha,hb] at hbit
    cases hbit

variable {s : Store} {bins : Bins} {lower upper v : ℕ}

/-- The bin of a value between the bounds is in the outer mask. -/
theorem makeMask_outer (hbins : Monotone bins) (hv : lower ≤ v ∧ v ≤ upper) :
    (makeMask s bins lower upper).1.getLsbD (getBin64 v bins) = true := by
  have hl := getBin64_mono hbins hv.1
  have hu := getBin64_mono hbins hv.2
  rw [makeMask,getLsbD_outerMask (hl.trans hu) (getBin64_lt bins _)]
  exact decide_eq_true ⟨hl,hu⟩

/-- A value of the store whose bin is in the inner mask is between the bounds. -/
theorem makeMask_inner (hbins : Monotone bins) (hlu : lower ≤ upper)
    (hv : s.dimMin ≤ v ∧ v ≤ s.dimMax)
    (h : (makeMask s bins lower upper).2.getLsbD (getBin64 v bins) = true) :
    lower ≤ v ∧ v ≤ upper := by
  have hbin := getBin64_lt bins v
  have hlbin := getBin64_lt bins lower
  have hubin := getBin64_lt bins upper
  have hout : ∀ {mask : Mask} {bit : ℕ} {c : Prop} [Decidable c], bit < 64 →
      (if c then impsUnsetBit mask bit else mask).getLsbD (getBin64 v bins) = true →
      mask.getLsbD (getBin64 v bins) = true ∧ (c → getBin64 v bins ≠ bit) := by
    intro mask bit c _ hbit hget
    split at hget
    · rw [getLsbD_impsUnsetBit hbit _ hbin,Bool.and_eq_true,decide_eq_true_eq] at hget
      exact ⟨hget.1,fun _ => hget.2⟩
    · rename_i hc
      exact ⟨hget,fun hc' => absurd hc' hc⟩
  simp only [makeMask] at h
  obtain ⟨h,hupper⟩ := hout hubin h
  obtain ⟨h,hlower⟩ := hout hlbin h
  rw [getLsbD_outerMask (getBin64_mono hbins hlu) hubin,decide_eq_true_eq] at h
  -- a value beyond a bound would be in a bin beyond the bound's, or in the removed one
  constructor
  · by_contra hlt
    have hle := getBin64_mono hbins (not_le.mp hlt).le
    have hmin : lower ≠ s.dimMin := by omega
    have := hlower hmin
    omega
  · by_contra hlt
    have hle := getBin64_mono hbins (not_le.mp hlt).le
    have hmax : upper ≠ s.dimMax := by omega
    have := hupper hmax
    omega

/-- Both directions for every value of the store, and the bits of the mask for every pair
of bins. -/
theorem makeMask_sound (hbins : Monotone bins) (hlu : lower ≤ upper)
    (hv : s.dimMin ≤ v ∧ v ≤ s.dimMax) :
    (lower ≤ v ∧ v ≤ upper →
      (makeMask s bins lower upper).1.getLsbD (getBin64 v bins) = true) ∧
    ((makeMask s bins lower upper).2.getLsbD (getBin64 v bins) = true →
      lower ≤ v ∧ v ≤ upper) ∧
    (∀ i, (makeMask s bins lower upper).1.getLsbD i =
      decide (getBin64 lower bins ≤ i ∧ i ≤ getBin64 upper bins)) ∧
    ∀ l u, l ≤ u → u < 64 → ∀ i, (outerMask l u).getLsbD i = decide (l ≤ i ∧ i ≤ u) := by
  refine ⟨makeMask_outer hbins,makeMask_inner hbins hlu hv,?_,?_⟩
  · exact getLsbD_outerMask (getBin64_mono hbins hlu) (getBin64_lt bins upper)
  · intro l u hle hlt
    exact getLsbD_outerMask hle hlt

/-- Bounds in the bins 10 and 63, the upper one at `DIM_MAX`; 80 lies between them and 5 does not. -/
theorem makeMask_sound_last :
    let s := Store.ofRows 1 0 99 [[70]] (by decide)
    (makeMask s (fun w => w.val) 10 99).1.getLsbD (getBin64 80 fun w => w.val) = true ∧
      (makeMask s (fun w => w.val) 10 99).2.getLsbD (getBin64 5 fun w => w.val) = false ∧
      (∀ i, (makeMask s (fun w => w.val) 10 99).1.getLsbD i = decide (10 ≤ i ∧ i ≤ 63)) ∧
      ∀ i, (outerMask 62 63).getLsbD i = decide (62 ≤ i ∧ i ≤ 63) := by
  intro s
  have hbins : Monotone fun w : Fin 64 => w.val := fun _ _ h => h
  have hlower : getBin64 10 (fun w : Fin 64 => w.val) = 10 := by decide
  have hupper : getBin64 99 (fun w : Fin 64 => w.val) = 63 := by decide
  obtain ⟨houter,_,hrange,hbits⟩ := @makeMask_sound s (fun w => w.val) 10 99 80 hbins
    (by decide) ⟨by decide,by decide⟩
  obtain ⟨_,hinner,_⟩ := @makeMask_sound s (fun w => w.val) 10 99 5 hbins
    (by decide) ⟨by decide,by decide⟩
  refine ⟨houter ⟨by decide,by decide⟩,?_,fun i => ?_,hbits 62 63 (by decide) (by decide)⟩
  · rw [← Bool.not_eq_true]
    intro hset
    exact absurd (hinner hset).1 (by decide)
  · rw [hrange i,hlower,hupper]

end ElfIndex
