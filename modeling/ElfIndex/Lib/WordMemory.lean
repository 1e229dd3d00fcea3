import Mathlib.Data.Nat.Bitwise

/-! # Memories of 32-bit words

A memory gives a word for every address, so uninitialised storage is any memory.
Double words are stored in two consecutive words, the low one first. Two memories
are compared on address ranges; every frame argument is stated with `AgreesOn`.
-/
namespace ElfIndex.WordMemory

abbrev Memory := ℕ → ℕ

def write (mem : Memory) (pos val : ℕ) : Memory := Function.update mem pos val

def get64 (mem : Memory) (pos : ℕ) : ℕ := mem pos+2^32*mem (pos+1)

def set64 (mem : Memory) (pos val : ℕ) : Memory :=
  write (write mem pos (val%2^32)) (pos+1) (val/2^32%2^32)

/-- The two words at `pos` are those that storing `val` there leaves. -/
def Holds64 (mem : Memory) (pos val : ℕ) : Prop :=
  mem pos = val%2^32 ∧ mem (pos+1) = val/2^32%2^32

/-- Consecutive words, as `memcpy` writes them. -/
def writeAll (mem : Memory) (pos : ℕ) : List ℕ → Memory
  | [] => mem
  | v :: vs => writeAll (write mem pos v) (pos+1) vs

/-- The two memories hold the same words at the addresses `lo ≤ p < hi`. -/
def AgreesOn (mem mem' : Memory) (lo hi : ℕ) : Prop := ∀ p, lo ≤ p → p < hi → mem' p = mem p

/-- The second memory differs from the first one at most at `lo ≤ p < hi`. -/
def ChangesOnly (mem mem' : Memory) (lo hi : ℕ) : Prop := ∀ p, p < lo ∨ hi ≤ p → mem' p = mem p

variable {mem mem' mem'' : Memory} {lo hi lo' hi' pos val : ℕ}

@[simp] theorem write_same : write mem pos val pos = val := by simp [write]

theorem write_other {p : ℕ} (h : p ≠ pos) : write mem pos val p = mem p := by simp [write,h]

theorem set64_other {p : ℕ} (h : p ≠ pos) (h' : p ≠ pos+1) : set64 mem pos val p = mem p := by
  rw [set64,write_other h',write_other h]

theorem set64_low : set64 mem pos val pos = val%2^32 := by
  rw [set64,write_other (by omega),write_same]

theorem set64_high : set64 mem pos val (pos+1) = val/2^32%2^32 := by rw [set64,write_same]

theorem set64_holds : Holds64 (set64 mem pos val) pos val := ⟨set64_low,set64_high⟩

theorem Holds64.congr (h : Holds64 mem pos val) (h0 : mem' pos = mem pos)
    (h1 : mem' (pos+1) = mem (pos+1)) : Holds64 mem' pos val := ⟨h0.trans h.1,h1.trans h.2⟩

theorem get64_set64 (h : val < 2^64) : get64 (set64 mem pos val) pos = val := by
  rw [get64,set64_low,set64_high]
  omega

theorem get64_congr (h : mem' pos = mem pos) (h' : mem' (pos+1) = mem (pos+1)) :
    get64 mem' pos = get64 mem pos := by rw [get64,get64,h,h']

theorem writeAll_other {p : ℕ} (vs : List ℕ) (h : p < pos ∨ pos+vs.length ≤ p) :
    writeAll mem pos vs p = mem p := by
  induction vs generalizing mem pos with
  | nil => rfl
  | cons v vs ih =>
    simp only [List.length_cons] at h
    rw [writeAll,ih (by omega),write_other (by omega)]

theorem writeAll_get (vs : List ℕ) {i : ℕ} (h : i < vs.length) :
    writeAll mem pos vs (pos+i) = vs.getD i 0 := by
  induction vs generalizing mem pos i with
  | nil => simp at h
  | cons v vs ih =>
    cases i with
    | zero => rw [writeAll,writeAll_other vs (by omega)]; simp
    | succ i =>
      have hi : i < vs.length := by simpa using h
      have hp : pos+(i+1) = pos+1+i := by omega
      rw [writeAll,hp,ih hi]
      simp

theorem AgreesOn.mono (h : AgreesOn mem mem' lo hi) (hl : lo ≤ lo') (hh : hi' ≤ hi) :
    AgreesOn mem mem' lo' hi' := fun p hp hp' => h p (hl.trans hp) (hp'.trans_le hh)

theorem ChangesOnly.mono (h : ChangesOnly mem mem' lo hi) (hl : lo' ≤ lo) (hh : hi ≤ hi') :
    ChangesOnly mem mem' lo' hi' := fun p hp => h p (by omega)

theorem ChangesOnly.trans (h : ChangesOnly mem mem' lo hi) (h' : ChangesOnly mem' mem'' lo hi) :
    ChangesOnly mem mem'' lo hi := fun p hp => (h' p hp).trans (h p hp)

theorem write_changesOnly (hl : lo ≤ pos) (hh : pos < hi) :
    ChangesOnly mem (write mem pos val) lo hi := fun p hp => write_other (by omega)

theorem writeAll_changesOnly (vs : List ℕ) (hl : lo ≤ pos) (hh : pos+vs.length ≤ hi) :
    ChangesOnly mem (writeAll mem pos vs) lo hi := fun p hp => writeAll_other vs (by omega)

/-! ## Flag bits -/

theorem or_two_pow_of_lt {v k : ℕ} (h : v < 2^k) : v ||| 2^k = v+2^k := by
  have hk := Nat.two_pow_add_eq_or_of_lt h 1
  rw [Nat.mul_one] at hk
  rw [Nat.or_comm,← hk,Nat.add_comm]

end ElfIndex.WordMemory
