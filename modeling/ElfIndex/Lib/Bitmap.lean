import Mathlib.Data.Nat.Bitwise
import Mathlib.Data.List.Basic
import Mathlib.Logic.Function.Basic

/-! # Bitmaps of bytes

A bitmap gives a byte for every address, so uninitialised storage is any bitmap. The
members of a bitmap are collected in an array that is cut to their number at the end.
-/
namespace ElfIndex

abbrev Bitmap := ℕ → BitVec 8

namespace Bitmap

/-- Bit `k` of a bitmap. -/
def bit (res : Bitmap) (k : ℕ) : Bool := (res (k/8)).getLsbD (k%8)

def setByte (res : Bitmap) (i : ℕ) (b : BitVec 8) : Bitmap := Function.update res i b

/-- The byte whose bits are the answers of `p`, set one after the other. -/
def packByte (p : ℕ → Bool) : BitVec 8 :=
  (List.range 8).foldl (fun b j => if p j then b ||| (1#8 <<< j) else b) 0#8

/-- The same with `n` answers in a word of `w` bits. -/
def packBits (w n : ℕ) (p : ℕ → Bool) : BitVec w :=
  (List.range n).foldl (fun b j => if p j then b ||| (1#w <<< j) else b) 0#w

/-- Little-endian access to the bytes `4*i, .., 4*i+3` as one word. -/
def word32 (res : Bitmap) (i : ℕ) : BitVec 32 :=
  res (4*i+3) ++ res (4*i+2) ++ res (4*i+1) ++ res (4*i)

def setWord32 (res : Bitmap) (i : ℕ) (w : BitVec 32) : Bitmap := fun k =>
  if k/4 = i then w.extractLsb' (8*(k%4)) 8 else res k

/-- `memset(res, value, bytes)` -/
def memset (res : Bitmap) (value : BitVec 8) (bytes : ℕ) : Bitmap := fun i =>
  if i < bytes then value else res i

theorem bit_setByte (res : Bitmap) (i : ℕ) (b : BitVec 8) (k : ℕ) :
    bit (setByte res i b) k = if k/8 = i then b.getLsbD (k%8) else bit res k := by
  rw [bit,setByte,Function.update_apply]
  split <;> rfl

theorem getLsbD_eq_bit {res : Bitmap} (i : ℕ) {j : ℕ} (hj : j < 8) :
    (res i).getLsbD j = bit res (i*8+j) := by
  unfold bit
  congr 2 <;> omega

theorem getLsbD_packBits (w n : ℕ) (p : ℕ → Bool) {j : ℕ} (hj : j < w) :
    (packBits w n p).getLsbD j = (decide (j < n) && p j) := by
  unfold packBits
  induction n with
  | zero => simp
  | succ n ih =>
    have hbit : (1#w <<< n).getLsbD j = decide (j = n) := by
      rw [BitVec.getLsbD_shiftLeft,BitVec.getLsbD_one,Bool.eq_iff_iff]
      simp
      omega
    rw [List.range_succ,List.foldl_append,List.foldl_cons,List.foldl_nil]
    by_cases hjn : j = n
    · subst hjn
      cases hp : p j <;> simp [ih,hp,hbit]
    · have hlt : j < n+1 ↔ j < n := by omega
      cases hp : p n <;> simp [ih,hbit,hjn,hlt]

theorem getLsbD_packByte (p : ℕ → Bool) {j : ℕ} (hj : j < 8) : (packByte p).getLsbD j = p j := by
  have h := getLsbD_packBits 8 8 p hj
  rwa [decide_eq_true hj,Bool.true_and] at h

theorem getLsbD_word32 (res : Bitmap) (i : ℕ) {j : ℕ} (hj : j < 32) :
    (word32 res i).getLsbD j = bit res (32*i+j) := by
  have hbyte : ∀ k < 4, 8*k ≤ j → j < 8*k+8 →
      (res (4*i+k)).getLsbD (j-8*k) = bit res (32*i+j) := by
    intro k hk hlo hhi
    have hdiv : (32*i+j)/8 = 4*i+k := by omega
    have hmod : (32*i+j)%8 = j-8*k := by omega
    rw [bit,hdiv,hmod]
  unfold word32
  rw [BitVec.getLsbD_append,BitVec.getLsbD_append,BitVec.getLsbD_append]
  by_cases h0 : j < 8
  · rw [if_pos h0]
    exact hbyte 0 (by omega) (by omega) (by omega)
  · by_cases h1 : j < 16
    · rw [if_neg h0,if_pos (by omega)]
      exact hbyte 1 (by omega) (by omega) (by omega)
    · by_cases h2 : j < 24
      · rw [if_neg h0,if_neg (by omega),if_pos (by omega),Nat.sub_sub]
        exact hbyte 2 (by omega) (by omega) (by omega)
      · rw [if_neg h0,if_neg (by omega),if_neg (by omega),Nat.sub_sub,Nat.sub_sub]
        exact hbyte 3 (by omega) (by omega) (by omega)

theorem bit_setWord32 (res : Bitmap) (i : ℕ) (w : BitVec 32) (k : ℕ) :
    bit (setWord32 res i w) k = if k/32 = i then w.getLsbD (k%32) else bit res k := by
  rw [bit,setWord32]
  by_cases h : k/32 = i
  · have hpos : 8*(k/8%4)+k%8 = k%32 := by omega
    rw [if_pos (by omega),if_pos h,BitVec.getLsbD_extractLsb',hpos,
      decide_eq_true (Nat.mod_lt k (by decide)),Bool.true_and]
  · rw [if_neg (by omega),if_neg h,bit]

theorem bit_memset_ones (res : Bitmap) {bytes k : ℕ} (h : k/8 < bytes) :
    bit (memset res 255#8 bytes) k = true := by
  have hbits : ∀ j < 8, (255#8).getLsbD j = true := by decide
  rw [bit,memset,if_pos h]
  exact hbits _ (Nat.mod_lt _ (by decide))

/-- A loop over blocks of `w` bits, each of which only clears bits of its own block. -/
theorem bit_foldBlocks {step : Bitmap → ℕ → Bitmap} {k w : ℕ} {pass : Bool}
    (h : ∀ res block, bit (step res block) k = (bit res k && if k/w = block then pass else true))
    (res : Bitmap) (lo n : ℕ) :
    bit ((List.range' lo n).foldl step res) k =
      (bit res k && if lo ≤ k/w ∧ k/w < lo+n then pass else true) := by
  induction n generalizing res lo with
  | zero =>
    rw [if_neg (by omega),Bool.and_true]
    rfl
  | succ n ih =>
    rw [List.range'_succ,List.foldl_cons,ih,h,Bool.and_assoc]
    by_cases hlo : k/w = lo
    · rw [if_pos hlo,if_neg (by omega),if_pos (by omega),Bool.and_true]
    · by_cases hin : lo+1 ≤ k/w ∧ k/w < lo+1+n
      · rw [if_neg hlo,if_pos hin,if_pos (by omega),Bool.true_and]
      · rw [if_neg hlo,if_neg hin,if_neg (by omega),Bool.true_and]

/-! ## Cleared runs of bits -/

/-- Two bytes in a row are masked. -/
theorem bit_andBytes (res : Bitmap) (o : ℕ) (a a' : BitVec 8) (k : ℕ) :
    bit (setByte (setByte res o (res o &&& a)) (o+1)
        ((setByte res o (res o &&& a)) (o+1) &&& a')) k =
      (bit res k && if 8*o ≤ k ∧ k < 8*o+16 then
        (if k-8*o < 8 then a.getLsbD (k-8*o) else a'.getLsbD (k-8*o-8)) else true) := by
  have hother : (setByte res o (res o &&& a)) (o+1) = res (o+1) :=
    Function.update_of_ne (by omega) _ _
  rw [hother,bit_setByte,bit_setByte]
  by_cases hfirst : k/8 = o
  · have hpos : k-8*o = k%8 := by omega
    rw [if_neg (by omega),if_pos hfirst,if_pos (by omega),if_pos (by omega),hpos,
      BitVec.getLsbD_and,bit,hfirst]
  · by_cases hsecond : k/8 = o+1
    · have hpos : k-8*o-8 = k%8 := by omega
      rw [if_pos hsecond,if_pos (by omega),if_neg (by omega),hpos,BitVec.getLsbD_and,bit,hsecond]
    · rw [if_neg hsecond,if_neg hfirst,if_neg (by omega),Bool.and_true]

/-- Only the bits `lo, .., lo+n-1` are touched, each of which is kept if `p` holds. -/
def Masked (res' res : Bitmap) (lo n : ℕ) (p : ℕ → Bool) : Prop :=
  ∀ k, bit res' k = (bit res k && if lo ≤ k ∧ k < lo+n then p (k-lo) else true)

theorem eq_iff_bit {res res' : Bitmap} : res = res' ↔ ∀ k, bit res k = bit res' k := by
  refine ⟨fun h k => by rw [h],?_⟩
  intro h
  funext i
  refine BitVec.eq_of_getLsbD_eq ?_
  intro j hj
  have hbit := h (8*i+j)
  have hdiv : (8*i+j)/8 = i := by omega
  have hmod : (8*i+j)%8 = j := by omega
  rwa [bit,bit,hdiv,hmod] at hbit

/-- Two masks leave the same bitmap exactly when they agree on the set bits. -/
theorem Masked.eq_iff {res a b : Bitmap} {lo n : ℕ} {p q : ℕ → Bool} (ha : Masked a res lo n p)
    (hb : Masked b res lo n q) : a = b ↔ ∀ j < n, bit res (lo+j) = true → p j = q j := by
  rw [eq_iff_bit]
  constructor
  · intro h j hj hset
    have hbit := h (lo+j)
    rw [ha,hb,if_pos (by omega),if_pos (by omega),hset,Bool.true_and,Bool.true_and] at hbit
    rwa [Nat.add_sub_cancel_left] at hbit
  · intro h k
    rw [ha,hb]
    by_cases hin : lo ≤ k ∧ k < lo+n
    · rw [if_pos hin,if_pos hin]
      cases hset : bit res k with
      | false => rfl
      | true =>
        have hpos : lo+(k-lo) = k := by omega
        rw [h (k-lo) (by omega) (by rwa [hpos])]
    · rw [if_neg hin,if_neg hin]

/-- One run behind the other. -/
theorem Masked.append {res a b : Bitmap} {lo m n : ℕ} {p : ℕ → Bool} (ha : Masked a res lo m p)
    (hb : Masked b a (lo+m) n fun j => p (m+j)) : Masked b res lo (m+n) p := by
  intro k
  rw [hb,ha,Bool.and_assoc]
  by_cases hfirst : lo ≤ k ∧ k < lo+m
  · rw [if_pos hfirst,if_neg (by omega),if_pos (by omega),Bool.and_true]
  · by_cases hsecond : lo+m ≤ k ∧ k < lo+m+n
    · have hpos : m+(k-(lo+m)) = k-lo := by omega
      rw [if_neg hfirst,if_pos hsecond,if_pos (by omega),Bool.true_and,← hpos]
    · rw [if_neg hfirst,if_neg hsecond,if_neg (by omega),Bool.true_and]

/-! ## Collecting the members -/

/-- Write the candidate `k` at the end of the collected part, which grows if `b` is set. -/
def put (s : List ℕ × ℕ) (k : ℕ) (b : Bool) : Option (List ℕ × ℕ) :=
  if s.2 < s.1.length then some (s.1.set s.2 k,s.2+b.toNat) else none

/-- The array of length `n` starts with the collected list. -/
structure Filled (n : ℕ) (l : List ℕ) (s : List ℕ × ℕ) : Prop where
  length : s.1.length = n
  pos : s.2 = l.length
  members : s.1.take s.2 = l

variable {n : ℕ} {l : List ℕ} {s : List ℕ × ℕ}

theorem Filled.initial (n : ℕ) : Filled n [] (List.replicate n 0,0) :=
  ⟨List.length_replicate,rfl,rfl⟩

theorem Filled.put (h : Filled n l s) (hl : l.length < n) (k : ℕ) (b : Bool) :
    ∃ s', Bitmap.put s k b = some s' ∧ Filled n (l ++ if b then [k] else []) s' := by
  have hpos : s.2 < s.1.length := by
    rw [h.pos,h.length]
    exact hl
  have hrest : (s.1.set s.2 k).take s.2 = l := by rw [List.take_set_of_le le_rfl,h.members]
  refine ⟨_,if_pos hpos,?_,?_,?_⟩
  · rw [List.length_set,h.length]
  · cases b <;> simp [h.pos]
  · cases b with
    | false => simpa using hrest
    | true =>
      have hset : s.2 < (s.1.set s.2 k).length := by rwa [List.length_set]
      simp only [Bool.toNat_true,if_true]
      rw [List.take_succ_eq_append_getElem hset,hrest,List.getElem_set_self]

/-- The candidates `f 0, .., f (m-1)`. -/
theorem Filled.puts (h : Filled n l s) {m : ℕ} (hm : l.length+m ≤ n) (f : ℕ → ℕ) (b : ℕ → Bool) :
    ∃ s', (List.range m).foldlM (fun s j => Bitmap.put s (f j) (b j)) s = some s' ∧
      Filled n (l ++ ((List.range m).filter b).map f) s' := by
  induction m with
  | zero => exact ⟨s,rfl,by simpa using h⟩
  | succ m ih =>
    obtain ⟨s1,hrun,h1⟩ := ih (by omega)
    have hlen : (l ++ ((List.range m).filter b).map f).length < n := by
      have := List.length_filter_le b (List.range m)
      simp only [List.length_append,List.length_map,List.length_range] at *
      omega
    obtain ⟨s2,hput,h2⟩ := h1.put hlen (f m) (b m)
    refine ⟨s2,?_,?_⟩
    · rw [List.range_succ,List.foldlM_append,hrun]
      simpa using hput
    · rw [List.range_succ,List.filter_append,List.map_append,← List.append_assoc]
      cases hb : b m <;> simpa [hb] using h2

/-- The array of length `n` starts with the members below `k`. -/
structure Collected (res : Bitmap) (n k : ℕ) (s : List ℕ × ℕ) : Prop where
  length : s.1.length = n
  pos_le : s.2 ≤ k
  members : s.1.take s.2 = (List.range k).filter (bit res)

variable {res : Bitmap} {k : ℕ}

theorem range_add_filter (p : ℕ → Bool) (k m : ℕ) :
    (List.range (k+m)).filter p = (List.range k).filter p ++
      ((List.range m).filter fun j => p (k+j)).map (k+·) := by
  rw [List.range_add,List.filter_append,List.filter_map]
  rfl

theorem Collected.filled (h : Collected res n k s) (hk : k ≤ n) :
    Filled n ((List.range k).filter (bit res)) s := by
  refine ⟨h.length,?_,h.members⟩
  have := h.pos_le
  have := h.length
  rw [← h.members,List.length_take]
  omega

theorem Filled.collected (h : Filled n ((List.range k).filter (bit res)) s) :
    Collected res n k s := by
  refine ⟨h.length,?_,h.members⟩
  have := List.length_filter_le (bit res) (List.range k)
  rw [List.length_range] at this
  rw [h.pos]
  exact this

/-- Consecutive candidates. -/
theorem Collected.puts (h : Collected res n k s) {m : ℕ} (hm : k+m ≤ n) {b : ℕ → Bool}
    (hb : ∀ j < m, b j = bit res (k+j)) :
    ∃ s', (List.range m).foldlM (fun s j => Bitmap.put s (k+j) (b j)) s = some s' ∧
      Collected res n (k+m) s' := by
  have hlen := List.length_filter_le (bit res) (List.range k)
  rw [List.length_range] at hlen
  obtain ⟨s',hrun,hs'⟩ := (h.filled (by omega)).puts (m:=m) (by omega) (k+·) b
  refine ⟨s',hrun,Filled.collected ?_⟩
  have hfilter : (List.range m).filter b = (List.range m).filter fun j => bit res (k+j) :=
    List.filter_congr fun j hj => hb j (List.mem_range.mp hj)
  rw [range_add_filter,← hfilter]
  exact hs'

/-- Candidates that are no members may be left out. -/
theorem Collected.skip (h : Collected res n k s) (m : ℕ) (hnone : ∀ j < m, bit res (k+j) = false) :
    Collected res n (k+m) s := by
  refine ⟨h.length,h.pos_le.trans (Nat.le_add_right k m),?_⟩
  have hnil : (List.range m).filter (fun j => bit res (k+j)) = [] :=
    List.filter_eq_nil_iff.mpr fun j hj => by simp [hnone j (List.mem_range.mp hj)]
  rw [h.members,range_add_filter,hnil,List.map_nil,List.append_nil]

theorem Collected.initial (res : Bitmap) (n : ℕ) : Collected res n 0 (List.replicate n 0,0) :=
  ⟨List.length_replicate,le_rfl,rfl⟩

end Bitmap
end ElfIndex
