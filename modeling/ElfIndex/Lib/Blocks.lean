import ElfIndex.Lib.Bitmap

/-! # Tables in blocks

The positions below `n` in blocks of size `B`: block `b` has the positions `b*B+k`, and all
blocks but the last one are full.
-/
namespace ElfIndex.Blocks
open Bitmap

/-- The number of positions in block `b`. -/
def blockSize (n B b : ℕ) : ℕ := min (n-b*B) B

def numBlocks (n B : ℕ) : ℕ := (n+B-1)/B

variable {n B m k : ℕ}

/-- A block is one of the table if its first position is. -/
theorem lt_numBlocks (hB : 0 < B) : m < numBlocks n B ↔ m*B < n := by
  rw [numBlocks,Nat.lt_iff_add_one_le,Nat.le_div_iff_mul_le hB,Nat.succ_mul]
  omega

theorem lt_blockSize : k < blockSize n B m ↔ k < B ∧ m*B+k < n := by
  unfold blockSize
  omega

theorem blockSize_pos (hm : m*B < n) (hB : 0 < B) : 0 < blockSize n B m :=
  lt_blockSize.mpr ⟨hB,hm⟩

/-- The table up to block `m+1` is the one up to block `m` and block `m`. -/
theorem min_succ_mul (hm : m*B < n) : min n ((m+1)*B) = m*B+blockSize n B m := by
  unfold blockSize
  rw [Nat.succ_mul]
  omega

theorem min_numBlocks (hB : 0 < B) : min n (numBlocks n B*B) = n := by
  have hend := (lt_numBlocks (n:=n) hB).not.mp (Nat.lt_irrefl _)
  omega

theorem sum_blockSize (hB : 0 < B) (hm : m ≤ numBlocks n B) :
    ((List.range m).map (blockSize n B)).sum = min n (m*B) := by
  induction m with
  | zero => simp
  | succ m ih =>
    have hlt := (lt_numBlocks hB).mp (Nat.lt_of_succ_le hm)
    rw [List.range_succ,List.map_append,List.sum_append,ih (by omega),min_succ_mul hlt,
      min_eq_right hlt.le]
    simp

/-- Numbering the members of every block from its start takes them modulo the block size. -/
theorem flatMap_filter (p : ℕ → Bool) (hB : 0 < B) (hm : m ≤ numBlocks n B) :
    ((List.range m).flatMap fun b => (List.range (blockSize n B b)).filter fun k => p (b*B+k)) =
      ((List.range (min n (m*B))).filter p).map (·%B) := by
  induction m with
  | zero => simp
  | succ m ih =>
    have hlt := (lt_numBlocks hB).mp (Nat.lt_of_succ_le hm)
    have hmod : ∀ k ∈ (List.range (blockSize n B m)).filter (fun k => p (m*B+k)),
        (m*B+k)%B = k := by
      intro k hk
      have hk := List.mem_range.mp (List.mem_filter.mp hk).1
      rw [Nat.mul_add_mod_self_right]
      exact Nat.mod_eq_of_lt (lt_blockSize.mp hk).1
    rw [List.range_succ,List.flatMap_append,ih (by omega),min_succ_mul hlt,min_eq_right hlt.le,
      range_add_filter,List.map_append,List.map_map,List.flatMap_singleton]
    exact congrArg _ ((List.map_congr_left hmod).trans (List.map_id _)).symm

/-- A loop over all positions of full blocks is one over the blocks and the positions of each. -/
theorem foldl_range_mul {σ : Type*} (f : σ → ℕ → σ) (m B : ℕ) (s : σ) :
    (List.range (m*B)).foldl f s =
      (List.range m).foldl (fun s b => (List.range B).foldl (fun s k => f s (b*B+k)) s) s := by
  induction m with
  | zero => simp
  | succ m ih =>
    rw [Nat.succ_mul,List.range_add,List.foldl_append,ih,List.range_succ,List.foldl_append,
      List.foldl_map]
    rfl

end ElfIndex.Blocks
