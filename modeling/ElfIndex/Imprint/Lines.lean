import ElfIndex.Imprint.Bins
import ElfIndex.Lib.WordMemory

/-! # Cache lines

A column is divided into lines of 16 tuples, and the imprint of a line is the mask of the
bins of its values. Both indexes build the imprints in one loop over the tuples, which
hands on each mask when the next line starts.
-/
namespace ElfIndex
open WordMemory

/-- A column array: the values of all rows, then padding with any contents. -/
def column (s : Store) (padding : ℕ → ℕ → ℕ) (dim : ℕ) : Memory := fun tid =>
  if tid < s.numPoints then s.value tid dim else padding dim tid

/-- The body of the loop over the tuples; `flush` takes the mask of a finished line. -/
def tupleStep {σ : Type*} (bins : Bins) (col : Memory) (flush : σ → Mask → σ)
    (st : σ × Mask) (tid : ℕ) : σ × Mask :=
  let st := if tid &&& 15 = 0 ∧ tid > 0 then (flush st.1 st.2,0#64) else st
  (st.1,impsSetBit st.2 (getBin64 (col tid) bins))

/-- The mask of the `n` values from `lo` on. -/
def lineMask (bins : Bins) (col : Memory) (lo n : ℕ) : Mask :=
  (List.range' lo n).foldl (fun mask tid => impsSetBit mask (getBin64 (col tid) bins)) 0#64

/-- The imprint of every line of a column of `n` tuples. -/
def lineMasks (bins : Bins) (col : Memory) (n : ℕ) : List Mask :=
  (List.range ((n+15)/16)).map fun line => lineMask bins col (16*line) (min 16 (n-16*line))

variable {bins : Bins} {col : Memory} {n : ℕ}

theorem lineMask_succ (lo n : ℕ) :
    lineMask bins col lo (n+1) =
      impsSetBit (lineMask bins col lo n) (getBin64 (col (lo+n)) bins) := by
  rw [lineMask,List.range'_1_concat,List.foldl_append]
  rfl

theorem getLsbD_lineMask (bins : Bins) (col : Memory) (lo n i : ℕ) :
    (lineMask bins col lo n).getLsbD i = true ↔
      ∃ tid, lo ≤ tid ∧ tid < lo+n ∧ getBin64 (col tid) bins = i := by
  induction n with
  | zero =>
    constructor
    · intro h
      rw [lineMask,List.range'_zero,List.foldl_nil,BitVec.getLsbD_zero] at h
      cases h
    · rintro ⟨tid,hlo,hhi,_⟩
      omega
  | succ n ih =>
    rw [lineMask_succ,getLsbD_impsSetBit (getBin64_lt bins _),Bool.or_eq_true,ih,
      decide_eq_true_eq]
    constructor
    · rintro (⟨tid,hlo,hhi,hbin⟩ | hbin)
      · exact ⟨tid,hlo,by omega,hbin⟩
      · exact ⟨lo+n,Nat.le_add_right _ _,by omega,hbin.symm⟩
    · rintro ⟨tid,hlo,hhi,hbin⟩
      rcases Nat.lt_succ_iff_lt_or_eq.mp hhi with hlt | rfl
      · exact Or.inl ⟨tid,hlo,hlt,hbin⟩
      · exact Or.inr hbin.symm

@[simp] theorem length_lineMasks : (lineMasks bins col n).length = (n+15)/16 := by
  rw [lineMasks,List.length_map,List.length_range]

/-- The loop hands on all masks but the last one, in the order of the lines. -/
theorem tupleStep_run {σ : Type*} (bins : Bins) (col : Memory) (flush : σ → Mask → σ) (init : σ)
    (hn : 1 ≤ n) :
    ∃ full last, lineMasks bins col n = full ++ [last] ∧
      (List.range n).foldl (tupleStep bins col flush) (init,0#64) = (full.foldl flush init,last) := by
  have hrun : ∀ k, (List.range (k+1)).foldl (tupleStep bins col flush) (init,0#64) =
      (((List.range (k/16)).map fun line => lineMask bins col (16*line) 16).foldl flush init,
        lineMask bins col (16*(k/16)) (k%16+1)) := by
    intro k
    induction k with
    | zero => rfl
    | succ k ih =>
      rw [List.range_succ,List.foldl_append,ih,List.foldl_cons,List.foldl_nil,tupleStep,
        Nat.and_two_pow_sub_one_eq_mod (k+1) 4]
      by_cases hline : (k+1)%2^4 = 0
      · have hprev : k%16 = 15 := by omega
        have hnext : (k+1)/16 = k/16+1 := by omega
        have hrest : (k+1)%16 = 0 := hline
        have hpos : 16*(k/16+1) = k+1 := by omega
        rw [if_pos ⟨hline,Nat.succ_pos k⟩,hprev,hnext,hrest,List.range_succ,List.map_append,
          List.foldl_append,lineMask_succ,hpos]
        rfl
      · have hnext : (k+1)/16 = k/16 := by omega
        have hrest : (k+1)%16 = k%16+1 := by omega
        have hpos : 16*(k/16)+(k%16+1) = k+1 := by omega
        rw [if_neg (fun h => hline h.1),hnext,hrest,lineMask_succ (n:=k%16+1),hpos]
  obtain ⟨k,rfl⟩ : ∃ k, n = k+1 := ⟨n-1,by omega⟩
  refine ⟨(List.range (k/16)).map fun line => lineMask bins col (16*line) 16,
    lineMask bins col (16*(k/16)) (k%16+1),?_,hrun k⟩
  have hcount : (k+1+15)/16 = k/16+1 := by omega
  rw [lineMasks,hcount,List.range_succ,List.map_append]
  congr 1
  · apply List.map_congr_left
    intro line hline
    have := List.mem_range.mp hline
    congr 1
    omega
  · rw [List.map_cons,List.map_nil]
    congr 2
    omega

/-! ## Lines and masks -/

/-- The imprint of a line has the bins of its values. -/
theorem lineMasks_bin {tid : ℕ} (htid : tid < n) :
    ((lineMasks bins col n).getD (tid/16) 0#64).getLsbD (getBin64 (col tid) bins) = true := by
  have hlen : tid/16 < (lineMasks bins col n).length := by
    rw [length_lineMasks]
    omega
  rw [List.getD_eq_getElem _ _ hlen]
  simp only [lineMasks,List.getElem_map,List.getElem_range]
  exact (getLsbD_lineMask bins _ _ _ _).mpr ⟨tid,by omega,by omega,rfl⟩

variable {s : Store} {lower upper tid : ℕ}

/-- A line whose imprint misses the outer mask has no value between the bounds. -/
theorem lineMasks_miss (hbins : Monotone bins) (htid : tid < n)
    (h : (lineMasks bins col n).getD (tid/16) 0#64 &&& (makeMask s bins lower upper).1 = 0#64) :
    isIn lower upper (col tid) = false := by
  by_contra hin
  rw [Bool.not_eq_false,isIn_iff] at hin
  exact and_ne_zero_iff.mpr ⟨_,getBin64_lt bins _,lineMasks_bin htid,
    makeMask_outer hbins hin⟩ h

/-- A line whose imprint has no bin outside of the inner mask only has values between the
bounds. -/
theorem lineMasks_inner (hbins : Monotone bins) (hlu : lower ≤ upper)
    (hv : s.dimMin ≤ col tid ∧ col tid ≤ s.dimMax) (htid : tid < n)
    (h : (lineMasks bins col n).getD (tid/16) 0#64 &&&
      ~~~(makeMask s bins lower upper).2 = 0#64) :
    isIn lower upper (col tid) = true := by
  have hbin := getBin64_lt bins (col tid)
  rw [isIn_iff]
  apply makeMask_inner hbins hlu hv
  by_contra hout
  rw [Bool.not_eq_true] at hout
  refine and_ne_zero_iff.mpr ⟨_,hbin,lineMasks_bin htid,?_⟩ h
  rw [BitVec.getLsbD_not,hout,Bool.not_false,Bool.and_true,decide_eq_true_eq]
  exact hbin

/-! ## Tests of single points -/

def makeMaskExact (bins : Bins) (compareValue : ℕ) : Mask :=
  impsSetBit 0#64 (getBin64 compareValue bins)

/-- The loop over the columns; a tuple identifier behind the last row is not excluded. -/
def isEqualCStore (cols : ℕ → Memory) (query : ℕ → ℕ) (length tid : ℕ) : Bool :=
  isEqual (fun dim => cols dim tid) query length

theorem and_makeMaskExact_ne_zero {imprint : Mask} (bins : Bins) (v : ℕ) :
    imprint &&& makeMaskExact bins v ≠ 0#64 ↔ imprint.getLsbD (getBin64 v bins) = true := by
  have hbin : ∀ i, (makeMaskExact bins v).getLsbD i = decide (i = getBin64 v bins) := by
    intro i
    rw [makeMaskExact,getLsbD_impsSetBit (getBin64_lt bins v),BitVec.getLsbD_zero,Bool.false_or]
  rw [and_ne_zero_iff]
  constructor
  · rintro ⟨i,_,himprint,hi⟩
    rw [hbin,decide_eq_true_eq] at hi
    rwa [← hi]
  · intro h
    exact ⟨_,getBin64_lt bins v,h,by rw [hbin,decide_eq_true_eq]⟩

theorem isEqualCStore_column {padding : ℕ → ℕ → ℕ} {query : ℕ → ℕ} (htid : tid < s.numPoints) :
    isEqualCStore (column s padding) query s.numDim tid = isEqual (s.value tid) query s.numDim := by
  simp only [isEqualCStore,column,if_pos htid]

/-- The tuples of the given lines of `w` tuples. -/
def lineTids (w : ℕ) (lines : List ℕ) : List ℕ := lines.flatMap fun line => List.range' (line*w) w

section LineTids
variable {w : ℕ} {lines : List ℕ}

theorem mem_lineTids (hw : 0 < w) : tid ∈ lineTids w lines ↔ tid/w ∈ lines := by
  have hline : ∀ line, line*w ≤ tid ∧ tid < line*w+w ↔ tid/w = line := by
    intro line
    rw [Nat.div_eq_iff hw,Nat.mul_comm]
    omega
  simp only [lineTids,List.mem_flatMap,List.mem_range'_1,hline,exists_eq_right']

theorem lineTids_cons (line : ℕ) (lines : List ℕ) :
    lineTids w (line :: lines) = List.range' (line*w) w ++ lineTids w lines := List.flatMap_cons

theorem lineTids_append (lines lines' : List ℕ) :
    lineTids w (lines ++ lines') = lineTids w lines ++ lineTids w lines' := List.flatMap_append

theorem lineTids_ascending (h : lines.Pairwise (· < ·)) : (lineTids w lines).Pairwise (· < ·) := by
  rw [lineTids,List.pairwise_flatMap]
  refine ⟨fun line _ => List.pairwise_lt_range',h.imp ?_⟩
  intro l l' hlt x hx y hy
  have hstart : l*w+w ≤ l'*w := by
    rw [← Nat.succ_mul]
    exact Nat.mul_le_mul_right w hlt
  have := List.mem_range'_1.mp hx
  have := List.mem_range'_1.mp hy
  omega

/-- Lines in a row have their tuples in a row. -/
theorem lineTids_range' (first k : ℕ) :
    lineTids w (List.range' first k) = List.range' (first*w) (k*w) := by
  induction k generalizing first with
  | zero => rw [Nat.zero_mul]; rfl
  | succ k ih =>
    have hlen : (k+1)*w = w+k*w := by rw [Nat.succ_mul,Nat.add_comm]
    rw [List.range'_succ,lineTids_cons,ih,hlen,Nat.succ_mul,List.range'_append_1]

/-- A loop over lines that looks into the lines that are hit and stops at the first match. -/
theorem foldl_find? (hit : ℕ → Prop) [DecidablePred hit] (test : ℕ → Bool) (init : Option ℕ) :
    lines.foldl (fun found line => found.or
      (if hit line then (List.range' (line*w) w).find? test else none)) init =
      init.or ((lineTids w (lines.filter hit)).find? test) := by
  induction lines generalizing init with
  | nil => exact (Option.or_none).symm
  | cons line lines ih =>
    rw [List.foldl_cons,ih,Option.or_assoc,List.filter_cons]
    by_cases hline : hit line
    · rw [if_pos hline,if_pos (decide_eq_true hline),lineTids_cons,List.find?_append]
    · rw [if_neg hline,if_neg (by simpa using hline)]
      rfl

end LineTids

/-- Some value of the line is in the bin. -/
theorem lineMasks_hit (bins : Bins) (col : Memory) {n line : ℕ} (hline : line < (n+15)/16) (v : ℕ) :
    (lineMasks bins col n).getD line 0#64 &&& makeMaskExact bins v ≠ 0#64 ↔
      ∃ tid < n, tid/16 = line ∧ getBin64 (col tid) bins = getBin64 v bins := by
  have hlt : line < (lineMasks bins col n).length := by rwa [length_lineMasks]
  rw [and_makeMaskExact_ne_zero,List.getD_eq_getElem _ _ hlt]
  simp only [lineMasks,List.getElem_map,List.getElem_range,getLsbD_lineMask]
  constructor
  · rintro ⟨tid,hlo,hhi,hbin⟩
    exact ⟨tid,by omega,by omega,hbin⟩
  · rintro ⟨tid,htid,hdiv,hbin⟩
    exact ⟨tid,by omega,by omega,hbin⟩

end ElfIndex
