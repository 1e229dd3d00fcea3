import ElfIndex.Imprint.Kernels

/-! # SIMD kernels

The two tests of `Util.h` that compare four column words at once. The comparisons are
signed and strict, against the lower bound less one and the upper bound plus one.
-/
namespace ElfIndex
open WordMemory Bitmap

/-- A lane of `_mm_set1_epi32(lower-1)`. -/
def lowerSIMD (lower : ℕ) : BitVec 32 := BitVec.ofNat 32 lower-1#32

/-- A lane of `_mm_set1_epi32(upper+1)`. -/
def upperSIMD (upper : ℕ) : BitVec 32 := BitVec.ofNat 32 upper+1#32

/-- A lane of `_mm_and_si128(_mm_cmpgt_epi32(toComp, lowerSIMD), _mm_cmplt_epi32(toComp,
upperSIMD))`. -/
def laneIn (lower upper : BitVec 32) (value : ℕ) : Bool :=
  lower.slt (BitVec.ofNat 32 value) && (BitVec.ofNat 32 value).slt upper

/-- `_mm_movemask_ps` of the comparison of the words `4*line, .., 4*line+3`. -/
def moveMask (w : ℕ) (col : Memory) (line : ℕ) (lower upper : BitVec 32) : BitVec w :=
  packBits w 4 fun j => laneIn lower upper (col (4*line+j))

/-- The tuples are compared from `simd_array[line]` on. -/
def simdCheckTidsAnd (col : Memory) (line begin : ℕ) (res : Bitmap) (lower upper : BitVec 32) :
    Bitmap :=
  let offset := begin/8
  let toAdd := moveMask 8 col line lower upper ||| (moveMask 8 col (line+1) lower upper <<< 4)
  let res := setByte res offset (res offset &&& toAdd)
  let toAdd := moveMask 8 col (line+2) lower upper ||| (moveMask 8 col (line+3) lower upper <<< 4)
  setByte res (offset+1) (res (offset+1) &&& toAdd)

/-- The eight comparisons of the 32-bit test. -/
def moveMasks (col : Memory) (line : ℕ) (lower upper : BitVec 32) : BitVec 32 :=
  (List.range 8).foldl
    (fun toAdd i => toAdd ||| (moveMask 32 col (line+i) lower upper <<< (4*i))) 0#32

def simdCheck32TidsAnd (col : Memory) (line beginTID : ℕ) (res : Bitmap)
    (lower upper : BitVec 32) : Bitmap :=
  let offset := beginTID/32
  setWord32 res offset (word32 res offset &&& moveMasks col line lower upper)

/-! ## The comparison -/

theorem toInt_ofNat_lane {v : ℕ} (hv : v < 2^31) : (BitVec.ofNat 32 v).toInt = v := by
  rw [BitVec.toInt_ofNat']
  exact Int.bmod_eq_of_le (by omega) (by omega)

theorem toInt_lowerSIMD {lower : ℕ} (h : lower < 2^31) : (lowerSIMD lower).toInt = (lower : ℤ)-1 := by
  have hone : (1#32).toInt = 1 := by decide
  rw [lowerSIMD,BitVec.toInt_sub,toInt_ofNat_lane h,hone]
  exact Int.bmod_eq_of_le (by omega) (by omega)

theorem toInt_upperSIMD {upper : ℕ} (h : upper < 2^31-1) :
    (upperSIMD upper).toInt = (upper : ℤ)+1 := by
  have hone : (1#32).toInt = 1 := by decide
  rw [upperSIMD,BitVec.toInt_add,toInt_ofNat_lane (by omega),hone]
  exact Int.bmod_eq_of_le (by omega) (by omega)

/-- Below the sign bit the strict signed comparisons are the test of the bounds. -/
theorem laneIn_eq_isIn {lower upper v : ℕ} (hlu : lower ≤ upper) (hu : upper < 2^31-1)
    (hv : v < 2^31) : laneIn (lowerSIMD lower) (upperSIMD upper) v = isIn lower upper v := by
  rw [laneIn,BitVec.slt,BitVec.slt,toInt_lowerSIMD (by omega),toInt_upperSIMD hu,
    toInt_ofNat_lane hv,Bool.eq_iff_iff,isIn_iff]
  simp only [Bool.and_eq_true,decide_eq_true_eq]
  omega

/-! ## The tests on bits -/

theorem getLsbD_moveMask {w : ℕ} (col : Memory) (line : ℕ) (lower upper : BitVec 32) {j : ℕ}
    (hj : j < w) : (moveMask w col line lower upper).getLsbD j =
      (decide (j < 4) && laneIn lower upper (col (4*line+j))) := getLsbD_packBits w 4 _ hj

/-- Two comparisons make a byte. -/
theorem getLsbD_movePair (col : Memory) (line : ℕ) (lower upper : BitVec 32) {j : ℕ} (hj : j < 8) :
    (moveMask 8 col line lower upper ||| (moveMask 8 col (line+1) lower upper <<< 4)).getLsbD j =
      laneIn lower upper (col (4*line+j)) := by
  rw [BitVec.getLsbD_or,BitVec.getLsbD_shiftLeft,getLsbD_moveMask _ _ _ _ hj]
  by_cases hlow : j < 4
  · simp [hlow]
  · have hpos : 4*(line+1)+(j-4) = 4*line+j := by omega
    have hhigh : j-4 < 4 := by omega
    rw [getLsbD_moveMask _ _ _ _ (by omega),hpos]
    simp [hlow,hhigh,hj]

/-- Eight comparisons of four words each make a word of 32 bits. -/
theorem getLsbD_packNibbles (p : ℕ → ℕ → Bool) {j : ℕ} (hj : j < 32) :
    ((List.range 8).foldl (fun toAdd i => toAdd ||| (packBits 32 4 (p i) <<< (4*i)))
      0#32).getLsbD j = p (j/4) (j%4) := by
  have hfold : ∀ n, ((List.range n).foldl
      (fun toAdd i => toAdd ||| (packBits 32 4 (p i) <<< (4*i))) 0#32).getLsbD j =
      (decide (j < 4*n) && p (j/4) (j%4)) := by
    intro n
    induction n with
    | zero => simp
    | succ n ih =>
      rw [List.range_succ,List.foldl_append,List.foldl_cons,List.foldl_nil,BitVec.getLsbD_or,ih,
        BitVec.getLsbD_shiftLeft,getLsbD_packBits 32 4 (p n) (by omega)]
      by_cases hold : j < 4*n
      · simp [hold,show j < 4*(n+1) by omega]
      · by_cases hnew : j < 4*(n+1)
        · have hdiv : j/4 = n := by omega
          have hmod : j%4 = j-4*n := by omega
          simp [hold,hnew,hj,hdiv,hmod,show j-4*n < 4 by omega]
        · simp [hold,hnew,hj,show ¬ j-4*n < 4 by omega]
  rw [hfold,decide_eq_true (by omega),Bool.true_and]

theorem getLsbD_moveMasks (col : Memory) (line : ℕ) (lower upper : BitVec 32) {j : ℕ}
    (hj : j < 32) :
    (moveMasks col line lower upper).getLsbD j = laneIn lower upper (col (4*line+j)) := by
  have hpos : 4*(line+j/4)+j%4 = 4*line+j := by omega
  refine (getLsbD_packNibbles (fun i k => laneIn lower upper (col (4*(line+i)+k))) hj).trans ?_
  rw [hpos]

theorem simdCheckTidsAnd_masked (col : Memory) (line begin : ℕ) (res : Bitmap)
    (lower upper : BitVec 32) :
    Masked (simdCheckTidsAnd col line begin res lower upper) res (8*(begin/8)) 16
      fun j => laneIn lower upper (col (4*line+j)) := by
  intro k
  refine (bit_andBytes res (begin/8) _ _ k).trans ?_
  by_cases hin : 8*(begin/8) ≤ k ∧ k < 8*(begin/8)+16
  · rw [if_pos hin,if_pos hin]
    by_cases hlow : k-8*(begin/8) < 8
    · rw [if_pos hlow,getLsbD_movePair _ _ _ _ hlow]
    · have hpos : 4*(line+2)+(k-8*(begin/8)-8) = 4*line+(k-8*(begin/8)) := by omega
      rw [if_neg hlow,getLsbD_movePair _ _ _ _ (by omega),hpos]
  · rw [if_neg hin,if_neg hin]

theorem bit_simdCheckTidsAnd (col : Memory) (block : ℕ) (res : Bitmap) (lower upper : BitVec 32)
    (tid : ℕ) :
    bit (simdCheckTidsAnd col (16*block/4) (16*block) res lower upper) tid =
      (bit res tid && if tid/16 = block then laneIn lower upper (col tid) else true) := by
  rw [simdCheckTidsAnd_masked]
  by_cases hblock : tid/16 = block
  · have hpos : 4*(16*block/4)+(tid-8*(16*block/8)) = tid := by omega
    rw [if_pos hblock,if_pos (by omega)]
    simp only [hpos]
  · rw [if_neg hblock,if_neg (by omega)]

theorem bit_simdCheck32TidsAnd (col : Memory) (block : ℕ) (res : Bitmap)
    (lower upper : BitVec 32) (tid : ℕ) :
    bit (simdCheck32TidsAnd col (32*block/4) (32*block) res lower upper) tid =
      (bit res tid && if tid/32 = block then laneIn lower upper (col tid) else true) := by
  have hline : 32*block/4 = 8*block := by omega
  have hoffset : 32*block/32 = block := by omega
  have hj : tid%32 < 32 := Nat.mod_lt _ (by decide)
  rw [simdCheck32TidsAnd,hline,hoffset,bit_setWord32]
  by_cases hblock : tid/32 = block
  · have htid : 4*(8*block)+tid%32 = tid := by omega
    have hbit : 32*block+tid%32 = tid := by omega
    rw [if_pos hblock,if_pos hblock,BitVec.getLsbD_and,getLsbD_word32 _ _ hj,
      getLsbD_moveMasks _ _ _ _ hj,htid,hbit]
  · rw [if_neg hblock,if_neg hblock,Bool.and_true]

theorem simdCheck32TidsAnd_masked (col : Memory) (block : ℕ) (res : Bitmap)
    (lower upper : BitVec 32) :
    Masked (simdCheck32TidsAnd col (32*block/4) (32*block) res lower upper) res (32*block) 32
      fun j => laneIn lower upper (col (32*block+j)) := by
  intro k
  rw [bit_simdCheck32TidsAnd]
  by_cases hblock : k/32 = block
  · have hpos : 32*block+(k-32*block) = k := by omega
    rw [if_pos hblock,if_pos (by omega)]
    simp only [hpos]
  · rw [if_neg hblock,if_neg (by omega)]

/-! ## Agreement with the scalar test -/

/-- The successor of the largest bound wraps to the smallest signed word. -/
theorem laneIn_max (lower : BitVec 32) (v : ℕ) : laneIn lower (upperSIMD (2^31-1)) v = false := by
  have hmin : (upperSIMD (2^31-1)).toInt = -2^31 := by decide
  have hle := BitVec.le_toInt (BitVec.ofNat 32 v)
  rw [laneIn,BitVec.slt,BitVec.slt,hmin,Bool.and_eq_false_iff]
  right
  rw [decide_eq_false_iff_not]
  omega

/-- On one column word the two tests differ only behind the largest bound. -/
theorem laneIn_eq_isIn_iff {lower upper v : ℕ} (hlu : lower ≤ upper) (hu : upper < 2^31)
    (hv : v < 2^31) :
    laneIn (lowerSIMD lower) (upperSIMD upper) v = isIn lower upper v ↔
      upper < 2^31-1 ∨ v < lower := by
  rcases Nat.lt_or_ge upper (2^31-1) with hlt | hge
  · exact ⟨fun _ => Or.inl hlt,fun _ => laneIn_eq_isIn hlu hlt hv⟩
  · have hmax : upper = 2^31-1 := by omega
    rw [hmax,laneIn_max,eq_comm,← Bool.not_eq_true,isIn_iff]
    omega

/-- A SIMD mask leaves the bytes of the scalar mask exactly when the upper bound has a
successor or every set bit belongs to a word below the lower bound. -/
theorem masked_agree_iff {res a b : Bitmap} {lo n : ℕ} {col : ℕ → ℕ} {lower upper : ℕ}
    (hlu : lower ≤ upper) (hu : upper < 2^31) (hcol : ∀ j < n, col j < 2^31)
    (ha : Masked a res lo n fun j => laneIn (lowerSIMD lower) (upperSIMD upper) (col j))
    (hb : Masked b res lo n fun j => isIn lower upper (col j)) :
    a = b ↔ upper < 2^31-1 ∨ ∀ j < n, bit res (lo+j) = true → col j < lower := by
  rw [ha.eq_iff hb]
  have hlane : ∀ j < n, (laneIn (lowerSIMD lower) (upperSIMD upper) (col j) =
      isIn lower upper (col j) ↔ upper < 2^31-1 ∨ col j < lower) :=
    fun j hj => laneIn_eq_isIn_iff hlu hu (hcol j hj)
  constructor
  · intro h
    by_cases hlt : upper < 2^31-1
    · exact Or.inl hlt
    · refine Or.inr fun j hj hset => ?_
      exact ((hlane j hj).mp (h j hj hset)).resolve_left hlt
  · rintro (hlt | hlow) j hj hset
    · exact (hlane j hj).mpr (Or.inl hlt)
    · exact (hlane j hj).mpr (Or.inr (hlow j hj hset))

/-- The 16-tuple test on the words of four lines and the 32-tuple test on a block of 32 leave
the bytes of the scalar tests exactly when no set bit is lost to the wrapped upper bound. -/
theorem simdKernels_agree_iff {lower upper : ℕ} (hlu : lower ≤ upper) (hu : upper < 2^31)
    (col : Memory) (res : Bitmap) :
    (∀ line, (∀ j < 16, col (4*line+j) < 2^31) →
      (simdCheckTidsAnd col line (4*line) res (lowerSIMD lower) (upperSIMD upper) =
          checkTidsAnd col (4*line) res lower upper ↔
        upper < 2^31-1 ∨
          ∀ j < 16, bit res (8*(4*line/8)+j) = true → col (4*line+j) < lower)) ∧
    ∀ block, (∀ j < 32, col (32*block+j) < 2^31) →
      (simdCheck32TidsAnd col (32*block/4) (32*block) res (lowerSIMD lower) (upperSIMD upper) =
          checkTidsAnd col (32*block+16) (checkTidsAnd col (32*block) res lower upper)
            lower upper ↔
        upper < 2^31-1 ∨ ∀ j < 32, bit res (32*block+j) = true → col (32*block+j) < lower) := by
  constructor
  · intro line hcol
    exact masked_agree_iff hlu hu hcol (simdCheckTidsAnd_masked col line (4*line) res _ _)
      (checkTidsAnd_masked col (4*line) res lower upper)
  · intro block hcol
    have hfirst := checkTidsAnd_masked col (32*block) res lower upper
    have hsecond := checkTidsAnd_masked col (32*block+16)
      (checkTidsAnd col (32*block) res lower upper) lower upper
    have hlo : 8*(32*block/8) = 32*block := by omega
    have hmid : 8*((32*block+16)/8) = 32*block+16 := by omega
    rw [hlo] at hfirst
    rw [hmid] at hsecond
    simp only [Nat.add_assoc (32*block) 16] at hsecond
    exact masked_agree_iff hlu hu hcol (simdCheck32TidsAnd_masked col block res _ _)
      (hfirst.append hsecond)

theorem simdKernels_agree_seven :
    simdCheckTidsAnd (fun tid => tid) 0 0 (fun _ => 255#8) (lowerSIMD 2) (upperSIMD 7) =
        checkTidsAnd (fun tid => tid) 0 (fun _ => 255#8) 2 7 ∧
      simdCheck32TidsAnd (fun tid => tid) 0 0 (fun _ => 255#8) (lowerSIMD 2) (upperSIMD 7) =
        checkTidsAnd (fun tid => tid) 16 (checkTidsAnd (fun tid => tid) 0 (fun _ => 255#8) 2 7)
          2 7 := by
  have h := simdKernels_agree_iff (show 2 ≤ 7 by decide) (by decide) (fun tid => tid)
    fun _ => 255#8
  exact ⟨(h.1 0 fun j hj => by omega).mpr (Or.inl (by decide)),
    (h.2 0 fun j hj => by omega).mpr (Or.inl (by decide))⟩

/-- No word is above the largest bound, but the SIMD tests clear every bit. -/
theorem simdKernels_clear_at_max :
    (simdCheckTidsAnd (fun _ => 5) 0 0 (fun _ => 255#8) (lowerSIMD 0) (upperSIMD (2^31-1)) 0 = 0#8 ∧
        checkTidsAnd (fun _ => 5) 0 (fun _ => 255#8) 0 (2^31-1) 0 = 255#8) ∧
      simdCheck32TidsAnd (fun _ => 5) 0 0 (fun _ => 255#8) (lowerSIMD 0) (upperSIMD (2^31-1)) 0 =
          0#8 ∧
        checkTidsAnd (fun _ => 5) 16 (checkTidsAnd (fun _ => 5) 0 (fun _ => 255#8) 0 (2^31-1))
          0 (2^31-1) 0 = 255#8 := by
  decide

end ElfIndex
