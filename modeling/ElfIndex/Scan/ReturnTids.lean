import ElfIndex.Scan.Colseqscan

/-! # The list of set bits, in machine words

`returnTids` counts the bytes with `uint32_t` and the found tuples with `int`. The largest
sizes wrap around in the number of bytes, and with `2^31` set bits the count overflows.
-/
namespace ElfIndex
open Bitmap

/-! ## The words -/

namespace Words

/-- The value of `pos` is an `int`. -/
def fits (s : List ℕ × ℕ) : Bool := decide (s.2 < 2^31)

/-- `pos += bit` is undefined beyond the largest `int`. -/
def put (s : List ℕ × ℕ) (k : ℕ) (b : Bool) : Option (List ℕ × ℕ) :=
  (Bitmap.put s k b).filter fits

/-- The sum `maxSize+7` wraps around. -/
def returnTids (res : Buffer (BitVec 8)) (maxSize : ℕ) : Option (List ℕ) := do
  let s ← (List.range (maxSize/8)).foldlM (fun s i => do
    let byte ← res.get i
    if byte ≠ 0#8 then
      (List.range 8).foldlM (fun s j => put s ((i*8+j)%2^32) (byte.getLsbD j)) s
    else some s) (List.replicate maxSize 0,0)
  let s ← (List.range' (maxSize/8) ((maxSize+7)%2^32/8-maxSize/8)).foldlM (fun s i =>
    (List.range (maxSize%8)).foldlM (fun s j => do
      let byte ← res.get i
      put s ((i*8+j)%2^32) (byte.getLsbD j)) s) s
  some (s.1.take s.2)

variable {s s' : List ℕ × ℕ}

theorem put_start (k : ℕ) (b : Bool) (h : Bitmap.put s k b = some s')
    (hs : fits s' = true) : fits s = true := by
  obtain ⟨-,hput⟩ := Option.ite_none_right_eq_some.mp h
  obtain rfl := Option.some.inj hput
  rw [fits,decide_eq_true_eq] at hs ⊢
  exact (Nat.le_add_right s.2 b.toNat).trans_lt hs

/-- The candidates of one byte, with the count tested at the end. -/
theorem puts_eq {i n : ℕ} (hi : i*8+n ≤ 2^32) (b : ℕ → Bool)
    (hs : fits s = true) :
    (List.range n).foldlM (fun s j => put s ((i*8+j)%2^32) (b j)) s =
      ((List.range n).foldlM (fun s j => Bitmap.put s (i*8+j) (b j)) s).filter
        fits := by
  refine Buffer.foldlM_filter _ (fun j hj s _ => ?_) (fun j _ s s' => put_start _ _) hs
  have hlt := List.mem_range.mp hj
  rw [put,Nat.mod_eq_of_lt (show i*8+j < 2^32 by omega)]

theorem puts_start {i n : ℕ} {b : ℕ → Bool}
    (h : (List.range n).foldlM (fun s j => Bitmap.put s (i*8+j) (b j)) s = some s')
    (hs : fits s' = true) : fits s = true :=
  Buffer.foldlM_start _ (fun _ _ _ _ => put_start _ _) h hs

/-- The loop over the whole bytes. -/
theorem whole_eq {size n : ℕ} {cell : Bitmap} (hn : n ≤ size) (hwords : n*8 ≤ 2^32)
    (hs : fits s = true) :
    (List.range n).foldlM (fun s i => do
      let byte ← (Buffer.mk size cell).get i
      if byte ≠ 0#8 then
        (List.range 8).foldlM (fun s j => put s ((i*8+j)%2^32) (byte.getLsbD j)) s
      else some s) s =
    ((List.range n).foldlM (fun s i => if cell i ≠ 0#8 then
        (List.range 8).foldlM (fun s j => Bitmap.put s (i*8+j) ((cell i).getLsbD j)) s
      else some s) s).filter fits := by
  refine Buffer.foldlM_filter _ (fun i hi s hs => ?_) (fun i _ s s' h hs => ?_) hs
  · have hlt := List.mem_range.mp hi
    rw [Buffer.get_eq (show i < size by omega)]
    dsimp only [Option.bind_eq_bind,Option.bind_some]
    split
    · exact puts_eq (by omega) _ hs
    · exact (Option.filter_some_pos hs).symm
  · split at h
    · exact puts_start h hs
    · exact Option.some.inj h ▸ hs

/-- The loop over the byte that is cut by the end. -/
theorem rest_eq {size lo n m : ℕ} {cell : Bitmap} (hn : lo+n ≤ size) (hm : m ≤ 8)
    (hwords : (lo+n)*8 ≤ 2^32) (hs : fits s = true) :
    (List.range' lo n).foldlM (fun s i => (List.range m).foldlM (fun s j => do
      let byte ← (Buffer.mk size cell).get i
      put s ((i*8+j)%2^32) (byte.getLsbD j)) s) s =
    ((List.range' lo n).foldlM (fun s i => (List.range m).foldlM
      (fun s j => Bitmap.put s (i*8+j) ((cell i).getLsbD j)) s) s).filter fits := by
  refine Buffer.foldlM_filter _ (fun i hi s hs => ?_) (fun i _ s s' h hs => puts_start h hs) hs
  have hlt := List.mem_range'_1.mp hi
  rw [← puts_eq (by omega) _ hs]
  refine Buffer.foldlM_congr _ (fun j _ s => ?_) s
  rw [Buffer.get_eq (show i < size by omega)]
  rfl

/-- The positions that the loops visit. -/
def covered (maxSize : ℕ) : ℕ := if maxSize+7 < 2^32 then maxSize else maxSize/8*8

theorem covered_le (maxSize : ℕ) : covered maxSize ≤ maxSize := by
  unfold covered
  split
  · exact le_rfl
  · exact Nat.div_mul_le_self maxSize 8

/-- The loop over the cut byte collects it, unless the number of bytes wraps around. -/
theorem collect_covered {maxSize : ℕ} {cell : Bitmap} {s : List ℕ × ℕ}
    (hs : Collected cell maxSize (maxSize/8*8) s) :
    ∃ s', (List.range' (maxSize/8) ((maxSize+7)%2^32/8-maxSize/8)).foldlM
        (fun s i => (List.range (maxSize%8)).foldlM
          (fun s j => Bitmap.put s (i*8+j) ((cell i).getLsbD j)) s) s = some s' ∧
      Collected cell maxSize (covered maxSize) s' := by
  unfold covered
  split
  · rename_i hsum
    rw [Nat.mod_eq_of_lt hsum]
    exact collect_rest hs
  · have hcount : (maxSize+7)%2^32/8-maxSize/8 = 0 := by omega
    rw [hcount]
    exact ⟨s,rfl,hs⟩

/-- The set bits of the visited positions, when their number fits. -/
theorem returnTids_run {maxSize : ℕ} (hmax : maxSize < 2^32) {res : Buffer (BitVec 8)}
    (hsize : (maxSize+7)/8 ≤ res.size) :
    returnTids res maxSize =
      if ((List.range (covered maxSize)).filter (bit res.cell)).length < 2^31 then
        some ((List.range (covered maxSize)).filter (bit res.cell))
      else none := by
  obtain ⟨s,hrun,hs⟩ := collect_whole res.cell maxSize
  obtain ⟨s',hrun',hs'⟩ := collect_covered hs
  have hlen : ((List.range (covered maxSize)).filter (bit res.cell)).length = s'.2 := by
    rw [← hs'.members,List.length_take,hs'.length]
    have := hs'.pos_le
    have := covered_le maxSize
    omega
  have hwhole : (List.range (maxSize/8)).foldlM (fun s i => do
      let byte ← res.get i
      if byte ≠ 0#8 then
        (List.range 8).foldlM (fun s j => put s ((i*8+j)%2^32) (byte.getLsbD j)) s
      else some s) (List.replicate maxSize 0,0) = (some s).filter fits := by
    rw [← hrun]
    exact whole_eq (by omega) (by omega) rfl
  rw [returnTids,hwhole,hlen,← hs'.members]
  cases hfits : fits s with
  | false =>
    -- the count does not get smaller in the rest
    have hend : ¬ s'.2 < 2^31 := by
      intro hlt
      have hstart := Buffer.foldlM_start _ (fun _ _ _ _ h hs => puts_start h hs) hrun'
        (p:=fits) (decide_eq_true hlt)
      rw [hstart] at hfits
      cases hfits
    rw [Option.filter_some_neg hfits,if_neg hend]
    rfl
  | true =>
    rw [Option.filter_some_pos hfits,Option.bind_eq_bind,Option.bind_some,
      rest_eq (by omega) (by omega) (by omega) hfits,hrun']
    by_cases hend : s'.2 < 2^31
    · rw [Option.filter_some_pos (p:=fits) (decide_eq_true hend),if_pos hend]
      rfl
    · rw [Option.filter_some_neg (p:=fits) (decide_eq_false hend),if_neg hend]
      rfl

end Words

/-! ## Where the list is exact -/

variable {res : Buffer (BitVec 8)} {maxSize : ℕ}

/-- For the sizes of a store no word wraps around and the count fits. -/
theorem Words.returnTids_eq (hmax : maxSize < 2^31) (hsize : (maxSize+7)/8 ≤ res.size) :
    Words.returnTids res maxSize = Checked.returnTids res maxSize := by
  have hcovered : covered maxSize = maxSize := if_pos (by omega)
  have hlen := List.length_filter_le (bit res.cell) (List.range maxSize)
  rw [List.length_range] at hlen
  rw [Words.returnTids_run (by omega) hsize,hcovered,if_pos (by omega)]
  exact ((Checked.returnTids_eq hsize res.cell).trans (returnTids_spec res.cell maxSize)).symm

/-- The bits of the last byte, up to the end. -/
theorem filter_rest_eq_nil_iff {res : Bitmap} :
    ((List.range (maxSize%8)).filter fun j => bit res (maxSize/8*8+j)) = [] ↔
      ∀ tid < maxSize, maxSize/8*8 ≤ tid → bit res tid = false := by
  rw [List.filter_eq_nil_iff]
  constructor
  · intro h tid htid hlast
    have hclear := h (tid-maxSize/8*8) (List.mem_range.mpr (by omega))
    rwa [Nat.add_sub_cancel' hlast,Bool.not_eq_true] at hclear
  · intro h j hj
    have hlt := List.mem_range.mp hj
    rw [h (maxSize/8*8+j) (by omega) (Nat.le_add_right _ _)]
    exact Bool.false_ne_true

/-- The writes stay inside and the list holds all set bits, exactly when their number is an
`int` and the last byte, which a size of more than `2^32-8` skips, is clear. -/
theorem Words.returnTids_exact (hmax : maxSize < 2^32) (hsize : (maxSize+7)/8 ≤ res.size) :
    Words.returnTids res maxSize = some ((List.range maxSize).filter (bit res.cell)) ↔
      ((List.range maxSize).filter (bit res.cell)).length < 2^31 ∧
        (2^32-8 < maxSize → ∀ tid < maxSize, maxSize/8*8 ≤ tid → bit res.cell tid = false) := by
  rw [Words.returnTids_run hmax hsize]
  by_cases hsum : maxSize+7 < 2^32
  · have hcovered : covered maxSize = maxSize := if_pos hsum
    rw [hcovered,and_iff_left (fun hlarge => absurd hlarge (by omega))]
    exact ⟨fun h => (Option.ite_none_right_eq_some.mp h).1,fun h => if_pos h⟩
  · have hcovered : covered maxSize = maxSize/8*8 := if_neg hsum
    have hend : maxSize/8*8+maxSize%8 = maxSize := by omega
    have hsplit := range_add_filter (bit res.cell) (maxSize/8*8) (maxSize%8)
    rw [hend] at hsplit
    rw [hcovered,hsplit,← filter_rest_eq_nil_iff,Option.ite_none_right_eq_some,
      Option.some.injEq,List.self_eq_append_right,List.map_eq_nil_iff]
    constructor
    · rintro ⟨hlen,hclear⟩
      rw [hclear]
      exact ⟨by simpa using hlen,fun _ => rfl⟩
    · rintro ⟨hlen,hclear⟩
      have hnil := hclear (by omega)
      rw [hnil] at hlen
      exact ⟨by simpa using hlen,hnil⟩

/-- A size of `2^32-1` with the last tuple selected, and one of `2^31` with all of them. -/
theorem Words.returnTids_inexact :
    (Words.returnTids ⟨2^29,fun i => if i = 2^29-1 then 64#8 else 0#8⟩ (2^32-1) = some [] ∧
      2^32-2 ∈ (List.range (2^32-1)).filter (bit fun i => if i = 2^29-1 then 64#8 else 0#8)) ∧
    Words.returnTids ⟨2^28,memset (fun _ => 0#8) 255#8 (2^28)⟩ (2^31) = none := by
  refine ⟨⟨?_,?_⟩,?_⟩
  · have hnil : (List.range (covered (2^32-1))).filter
        (bit fun i => if i = 2^29-1 then 64#8 else 0#8) = [] := by
      rw [List.filter_eq_nil_iff]
      intro tid htid
      have hlt : tid < (2^32-1)/8*8 := List.mem_range.mp htid
      rw [bit,if_neg (by omega),BitVec.getLsbD_zero]
      exact Bool.false_ne_true
    rw [Words.returnTids_run (by decide) (by decide),hnil]
    rfl
  · rw [List.mem_filter,List.mem_range]
    exact ⟨by decide,by decide⟩
  · have hcovered : covered (2^31) = 2^31 := if_pos (by decide)
    have hall : (List.range (2^31)).filter (bit (memset (fun _ => 0#8) 255#8 (2^28))) =
        List.range (2^31) := by
      rw [List.filter_eq_self]
      intro tid htid
      have hlt := List.mem_range.mp htid
      exact bit_memset_ones _ (by omega)
    rw [Words.returnTids_run (by decide) (by decide),hcovered,hall,List.length_range]
    exact if_neg (Nat.lt_irrefl _)

/-- Eleven tuples, with set bits behind the last one. -/
theorem Words.returnTids_exact_eleven :
    Words.returnTids ⟨2,fun i => if i = 0 then 0b10010010#8 else 0b11111100#8⟩ 11 =
      some ((List.range 11).filter (bit fun i => if i = 0 then 0b10010010#8 else 0b11111100#8)) :=
  (Words.returnTids_exact (by decide) (by decide)).mpr
    ⟨by decide,fun hlarge => absurd hlarge (by decide)⟩

end ElfIndex
