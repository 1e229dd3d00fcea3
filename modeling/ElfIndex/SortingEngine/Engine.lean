import ElfIndex.SortingEngine.RadixPermute

/-! # The sorting engine sorts

A pass at shift `8*level` is entered with keys that agree above the digit. The bins
are then ordered among themselves, and each bin agrees above the next digit.
-/
namespace ElfIndex.SortingEngine

variable {dim size : ℕ} {pre : List ℕ}

def levelMask (level : ℕ) : ℕ := 255 <<< (8*level)

theorem digitOf_level (level : ℕ) (t : TID) :
    digitOf dim (levelMask level) (8*level) t = t.key dim >>> (8*level)%256 := by
  have h255 : (255 : ℕ) = 2^8-1 := rfl
  rw [digitOf,levelMask,Nat.shiftRight_and_distrib,Nat.shiftLeft_shiftRight,h255,
    Nat.and_two_pow_sub_one_eq_mod]

theorem digitOf_level_lt (level : ℕ) (t : TID) :
    digitOf dim (levelMask level) (8*level) t < numberOfBins := by
  rw [digitOf_level]
  exact Nat.mod_lt _ (by decide)

theorem levelMask_shift (level : ℕ) :
    levelMask level >>> log2OfNumberOfBins = match level with
      | 0 => 0
      | level+1 => levelMask level := by
  cases level with
  | zero => decide
  | succ level =>
    simp only [levelMask,log2OfNumberOfBins,Nat.shiftLeft_eq,Nat.shiftRight_eq_div_pow,
      Nat.mul_add,Nat.pow_add]
    rw [← Nat.mul_assoc,Nat.mul_div_cancel _ (by decide)]

theorem levelMask_ne_zero (level : ℕ) : levelMask level ≠ 0 := by
  simp only [levelMask,Nat.shiftLeft_eq]
  have := Nat.two_pow_pos (8*level)
  omega

/-- The mask of the start digit. -/
theorem levelMask_start {level : ℕ} (h : level ≤ 3) :
    (numberOfBins-1) <<< (8*level)%2^32 = levelMask level := by
  have hcases : level = 0 ∨ level = 1 ∨ level = 2 ∨ level = 3 := by omega
  rcases hcases with rfl | rfl | rfl | rfl <;> decide

/-- The shift of the next digit. -/
theorem shifter_next (level : ℕ) :
    (if 8*(level+1) ≥ log2OfNumberOfBins then 8*(level+1)-log2OfNumberOfBins else 0) =
      8*level := by
  have hlog : log2OfNumberOfBins = 8 := rfl
  rw [if_pos (by omega)]
  omega

theorem shiftRight_split (v level : ℕ) :
    v >>> (8*level) = 256*(v >>> (8*(level+1)))+v >>> (8*level)%256 := by
  simp only [Nat.shiftRight_eq_div_pow,Nat.mul_add,Nat.pow_add]
  rw [← Nat.div_div_eq_div_mul]
  omega

theorem countDigits_run {mask shifter : ℕ} (data : List TID) (count : Bins)
    (hg : ∀ t ∈ data, digitOf dim mask shifter t < numberOfBins) :
    ∃ count', data.foldlM (fun count t => incBin count (digitOf dim mask shifter t)) count =
        some count' ∧
      ∀ d, count' d = count d+data.countP fun t => decide (digitOf dim mask shifter t = d) := by
  induction data generalizing count with
  | nil => exact ⟨count,rfl,fun _ => rfl⟩
  | cons t data ih =>
    obtain ⟨count',hrun,hcount⟩ := ih
      (Function.update count (digitOf dim mask shifter t) (count (digitOf dim mask shifter t)+1))
      (fun u hu => hg u (List.mem_cons_of_mem _ hu))
    refine ⟨count',?_,?_⟩
    · rw [List.foldlM_cons,incBin_lt (hg t List.mem_cons_self)]
      exact hrun
    · intro d
      simp only [hcount,List.countP_cons,decide_eq_true_eq]
      by_cases hd : digitOf dim mask shifter t = d
      · subst hd
        rw [Function.update_self,if_pos rfl]
        omega
      · rw [Function.update_of_ne (Ne.symm hd),if_neg hd,Nat.add_zero]

theorem startOfBin_eq {g : TID → ℕ} {data : List TID} {count : Bins}
    (h : ∀ d, count d = data.countP fun t => decide (g t = d)) (i : ℕ) :
    startOfBin count i = below g data i := by
  induction i with
  | zero => rw [startOfBin,below_zero]
  | succ i ih => rw [startOfBin,ih,below_succ,h]

/-- The bins of a pass start where the counted digits say. -/
theorem countDigits_start (dim level : ℕ) (data : List TID) :
    ∃ count, countDigits dim (levelMask level) (8*level) data = some count ∧
      ∀ i, startOfBin count i = below (digitOf dim (levelMask level) (8*level)) data i := by
  obtain ⟨count,hcount,hc⟩ :=
    countDigits_run data (fun _ => 0) (fun t _ => digitOf_level_lt level t)
  simp only [Nat.zero_add] at hc
  exact ⟨count,hcount,startOfBin_eq hc⟩

/-- Slots of smaller bins have smaller keys when the keys agree above the digit. -/
theorem key_le_of_digit_lt {level high : ℕ} {t u : TID}
    (ht : t.key dim >>> (8*(level+1)) = high) (hu : u.key dim >>> (8*(level+1)) = high)
    (hlt : digitOf dim (levelMask level) (8*level) t < digitOf dim (levelMask level) (8*level) u) :
    t.key dim ≤ u.key dim := by
  rw [digitOf_level,digitOf_level] at hlt
  have h1 := shiftRight_split (t.key dim) level
  have h2 := shiftRight_split (u.key dim) level
  have h3 : t.key dim >>> (8*level) < u.key dim >>> (8*level) := by omega
  by_contra hc
  have h4 : u.key dim >>> (8*level) ≤ t.key dim >>> (8*level) := by
    simp only [Nat.shiftRight_eq_div_pow]
    exact Nat.div_le_div_right (Nat.le_of_not_le hc)
  omega

/-- The bins before `i` are sorted and in place, the slots behind them still as the
permutation left them. -/
structure BinsSorted (dim : ℕ) (g : TID → ℕ) (data0 a res : List TID) (i : ℕ) : Prop where
  perm : res.Perm a
  rest : res.drop (below g data0 i) = a.drop (below g data0 i)
  sorted : SortedBy dim (res.take (below g data0 i))
  small : ∀ t ∈ res.take (below g data0 i), g t < i

variable {g : TID → ℕ} {data0 a res : List TID} {endB : Bins}

/-- The slots of the next bin. -/
theorem BinsSorted.mem_bin {i : ℕ} (h : BinsSorted dim g data0 a res i) (hp : Placed g data0 a endB)
    (hi : i < numberOfBins) :
    ∀ t ∈ (res.drop (below g data0 i)).take (endB i-below g data0 i), t ∈ a ∧ g t = i := by
  intro t ht
  rw [h.rest] at ht
  obtain ⟨k,hk,rfl⟩ := List.mem_iff_getElem.mp ht
  rw [List.length_take] at hk
  rw [List.getElem_take,List.getElem_drop]
  exact ⟨List.getElem_mem _,hp.placed i hi (below g data0 i+k) _ (by omega) (by omega)
    (List.getElem?_eq_getElem _)⟩

theorem BinsSorted.length_bin {i : ℕ} (h : BinsSorted dim g data0 a res i)
    (hp : Placed g data0 a endB) (hi : i < numberOfBins) :
    ((res.drop (below g data0 i)).take (endB i-below g data0 i)).length =
      endB i-below g data0 i := by
  have h1 : below g data0 (i+1) ≤ res.length := by
    rw [h.perm.length_eq,hp.perm.length_eq]
    exact List.countP_le_length
  have h2 := hp.upper i hi
  rw [List.length_take,List.length_drop]
  omega

/-- One bin, sorted by whatever sorts its sub-array. -/
theorem BinsSorted.step {i : ℕ} (h : BinsSorted dim g data0 a res i) (hp : Placed g data0 a endB)
    (hi : i < numberOfBins) (hfull : endB i = below g data0 (i+1))
    (hord : ∀ t ∈ a, ∀ u ∈ a, g t < g u → t.key dim ≤ u.key dim) {sorted : List TID}
    (hperm : sorted.Perm ((res.drop (below g data0 i)).take (endB i-below g data0 i)))
    (hsorted : SortedBy dim sorted) :
    BinsSorted dim g data0 a (res.take (below g data0 i) ++ sorted ++
      res.drop (below g data0 i+(endB i-below g data0 i))) (i+1) := by
  have hlow := hp.lower i hi
  have hsum : below g data0 i+(endB i-below g data0 i) = below g data0 (i+1) := by omega
  have hlen : below g data0 (i+1) ≤ a.length := by
    rw [hp.perm.length_eq]
    exact List.countP_le_length
  have hrl := h.perm.length_eq
  have hsl : sorted.length = endB i-below g data0 i := hperm.length_eq.trans (h.length_bin hp hi)
  have hbin : ∀ t ∈ sorted, t ∈ a ∧ g t = i := fun t ht =>
    h.mem_bin hp hi t (hperm.mem_iff.mp ht)
  have hpre : (res.take (below g data0 i) ++ sorted).length = below g data0 (i+1) := by
    rw [List.length_append,List.length_take,hsl]
    omega
  have htake : (res.take (below g data0 i) ++ sorted ++
      res.drop (below g data0 (i+1))).take (below g data0 (i+1)) =
      res.take (below g data0 i) ++ sorted := List.take_left' hpre
  rw [hsum]
  refine ⟨?_,?_,?_,?_⟩
  · have hdrop : res.drop (below g data0 (i+1)) =
        (res.drop (below g data0 i)).drop (endB i-below g data0 i) := by
      rw [List.drop_drop,hsum]
    rw [hdrop,List.append_assoc]
    apply ((hperm.append_right _).append_left _).trans
    rw [List.take_append_drop,List.take_append_drop]
    exact h.perm
  · rw [List.drop_left' hpre]
    have h1 := congrArg (List.drop (endB i-below g data0 i)) h.rest
    rwa [List.drop_drop,List.drop_drop,hsum] at h1
  · rw [htake]
    refine List.pairwise_append.mpr ⟨h.sorted,hsorted,?_⟩
    intro t ht u hu
    have htm : t ∈ a := h.perm.mem_iff.mp (List.mem_of_mem_take ht)
    apply hord t htm u (hbin u hu).1
    rw [(hbin u hu).2]
    exact h.small t ht
  · rw [htake]
    intro t ht
    rcases List.mem_append.mp ht with ht | ht
    · exact (h.small t ht).trans (Nat.lt_succ_self i)
    · rw [(hbin t ht).2]
      exact Nat.lt_succ_self i

/-- The loop over the bins, with a callee that sorts every sub-array of two or more slots. -/
theorem sortBins_run (hdim : dim < size) (ha : Agree dim size pre a) (hp : Placed g data0 a endB)
    (hfull : ∀ d < numberOfBins, endB d = below g data0 (d+1))
    (hord : ∀ t ∈ a, ∀ u ∈ a, g t < g u → t.key dim ≤ u.key dim) {start : Bins}
    (hstart : ∀ i < numberOfBins, start i = below g data0 i)
    {rec : List TID → Option (List TID)}
    (hrec : ∀ i < numberOfBins, ∀ bin : List TID, bin ≠ [] → (∀ t ∈ bin, t ∈ a ∧ g t = i) →
      ∃ out, rec bin = some out ∧ out.Perm bin ∧ SortedBy dim out)
    (n : ℕ) (hn : n ≤ numberOfBins) :
    ∃ res, (List.range n).foldlM (sortBin rec dim size start endB) a = some res ∧
      BinsSorted dim g data0 a res n := by
  induction n with
  | zero =>
    refine ⟨a,rfl,List.Perm.refl _,rfl,?_,?_⟩
    · simp [SortedBy]
    · simp
  | succ n ih =>
    obtain ⟨res,hres,hinv⟩ := ih (by omega)
    rw [List.range_succ,List.foldlM_append,hres]
    simp only [Option.bind_eq_bind,Option.bind_some,List.foldlM_cons,List.foldlM_nil]
    have hbin := hinv.mem_bin hp hn
    have hlen := hinv.length_bin hp hn
    have hback : ∀ out : List TID,
        out.Perm ((res.drop (below g data0 n)).take (endB n-below g data0 n)) →
        SortedBy dim out → BinsSorted dim g data0 a (res.take (below g data0 n) ++ out ++
          res.drop (below g data0 n+(endB n-below g data0 n))) (n+1) :=
      fun out hperm hsorted => hinv.step hp hn (hfull n hn) hord hperm hsorted
    simp only [sortBin,hstart n hn]
    split
    · rename_i hbig
      have hne : (res.drop (below g data0 n)).take (endB n-below g data0 n) ≠ [] := by
        intro hnil
        rw [hnil] at hlen
        have : introsortSwitch = 100 := rfl
        simp only [List.length_nil] at hlen
        omega
      obtain ⟨out,hout,hperm,hsorted⟩ := hrec n hn _ hne hbin
      exact ⟨_,by rw [hout]; rfl,hback out hperm hsorted⟩
    · split
      · obtain ⟨out,hout,hperm,hsorted⟩ := insertion_spec hdim
          (ha.sublist (fun t ht => (hbin t ht).1))
        rw [hlen] at hout
        exact ⟨_,by rw [introsort,hout]; rfl,hback out hperm hsorted⟩
      · have hshort : SortedBy dim ((res.drop (below g data0 n)).take (endB n-below g data0 n)) :=
          sortedBy_short (by omega)
        refine ⟨res,rfl,?_⟩
        have h1 := hback _ (List.Perm.refl _) hshort
        rwa [List.append_assoc,← List.drop_drop,List.take_append_drop,List.take_append_drop] at h1

theorem bin_exists (g : TID → ℕ) (data0 : List TID) {p : ℕ} (n : ℕ) (h : p < below g data0 n) :
    ∃ d < n, below g data0 d ≤ p ∧ p < below g data0 (d+1) := by
  induction n with
  | zero =>
    rw [below_zero] at h
    omega
  | succ n ih =>
    rcases Nat.lt_or_ge p (below g data0 n) with hlt | hge
    · obtain ⟨d,hd,hlow,hup⟩ := ih hlt
      exact ⟨d,by omega,hlow,hup⟩
    · exact ⟨n,Nat.lt_succ_self n,hge,h⟩

/-- With equal keys inside the bins the permuted array is sorted. -/
theorem Placed.sorted (hp : Placed g data0 a endB) (hg : ∀ t, g t < numberOfBins)
    (hfull : ∀ d < numberOfBins, endB d = below g data0 (d+1))
    (hord : ∀ t ∈ a, ∀ u ∈ a, g t ≤ g u → t.key dim ≤ u.key dim) : SortedBy dim a := by
  have hdigit : ∀ i (hi : i < a.length), below g data0 (g a[i]) ≤ i ∧
      i < below g data0 (g a[i]+1) := by
    intro i hi
    obtain ⟨d,hd,hlow,hup⟩ := bin_exists g data0 (p:=i) numberOfBins (by
      rw [below_numberOfBins hg,← hp.perm.length_eq]
      exact hi)
    have hd' := hp.placed d hd i a[i] hlow (by rw [hfull d hd]; exact hup)
      (List.getElem?_eq_getElem hi)
    rw [hd']
    exact ⟨hlow,hup⟩
  apply List.pairwise_iff_getElem.mpr
  intro i j hi hj hij
  apply hord _ (List.getElem_mem hi) _ (List.getElem_mem hj)
  by_contra hc
  have h1 := below_mono g data0 (show g a[j]+1 ≤ g a[i] by omega)
  have h2 := hdigit i hi
  have h3 := hdigit j hj
  omega

/-- What one pass does before it recurses. -/
theorem radixSort_pass {w : ℕ} (level fuel : ℕ) {data : List TID} (hne : data ≠ [])
    (ha : Agree dim size pre data) :
    ∃ a endB start, Placed (digitOf dim (levelMask level) (8*level)) data a endB ∧
      (∀ d < numberOfBins,
        endB d = below (digitOf dim (levelMask level) (8*level)) data (d+1)) ∧
      (∀ i < numberOfBins, start i = below (digitOf dim (levelMask level) (8*level)) data i) ∧
      radixSort (some w) dim size (fuel+1) (levelMask level) (8*level) data =
        (if levelMask level >>> log2OfNumberOfBins ≠ 0 then
          (List.range numberOfBins).foldlM (sortBin (radixSort (some w) dim size fuel
            (levelMask level >>> log2OfNumberOfBins)
            (if 8*level ≥ log2OfNumberOfBins then 8*level-log2OfNumberOfBins else 0))
            dim size start endB) a
        else some a) := by
  obtain ⟨count,hcount,hstart⟩ := countDigits_start dim level data
  obtain ⟨t,rest,rfl⟩ := List.exists_cons_of_ne_nil hne
  obtain ⟨a,endB,hperm,hp,hfull⟩ := permute_spec (w:=w) (digitOf_level_lt level) ha
    (List.length_cons : (t :: rest).length = rest.length+1) fun i _ => hstart i
  refine ⟨a,endB,startOfBin count,hp,hfull,fun i _ => hstart i,?_⟩
  have hlen : (t :: rest).length-1 = rest.length := rfl
  have hlen' : (t :: rest).length+1 = rest.length+2 := rfl
  simp only [radixSort,hcount,Option.bind_eq_bind,Option.bind_some,hlen,hlen',hperm]

/-- The pass at the last digit is the last one. -/
theorem radixSort_last {w : ℕ} (fuel : ℕ) {data : List TID} (hne : data ≠ [])
    (ha : Agree dim size pre data) :
    ∃ a endB, Placed (digitOf dim (levelMask 0) (8*0)) data a endB ∧
      (∀ d < numberOfBins, endB d = below (digitOf dim (levelMask 0) (8*0)) data (d+1)) ∧
      radixSort (some w) dim size (fuel+1) (levelMask 0) (8*0) data = some a := by
  obtain ⟨a,endB,start,hp,hfull,_,hrun⟩ := radixSort_pass (w:=w) 0 fuel hne ha
  refine ⟨a,endB,hp,hfull,?_⟩
  rw [hrun,levelMask_shift]
  rfl

/-- The other passes hand their bins to the pass at the next digit. -/
theorem radixSort_next {w : ℕ} (level fuel : ℕ) {data : List TID} (hne : data ≠ [])
    (ha : Agree dim size pre data) :
    ∃ a endB start, Placed (digitOf dim (levelMask (level+1)) (8*(level+1))) data a endB ∧
      (∀ d < numberOfBins,
        endB d = below (digitOf dim (levelMask (level+1)) (8*(level+1))) data (d+1)) ∧
      (∀ i < numberOfBins,
        start i = below (digitOf dim (levelMask (level+1)) (8*(level+1))) data i) ∧
      radixSort (some w) dim size (fuel+1) (levelMask (level+1)) (8*(level+1)) data =
        (List.range numberOfBins).foldlM (sortBin (radixSort (some w) dim size fuel
          (levelMask level) (8*level)) dim size start endB) a := by
  obtain ⟨a,endB,start,hp,hfull,hstart,hrun⟩ := radixSort_pass (w:=w) (level+1) fuel hne ha
  refine ⟨a,endB,start,hp,hfull,hstart,?_⟩
  rw [hrun,levelMask_shift]
  simp only [ne_eq,levelMask_ne_zero,not_false_eq_true,if_true,shifter_next]

/-- A pass and its recursion sort the array, whatever the reads behind the table of bin
starts yield. -/
theorem radixSort_spec {w : ℕ} (hdim : dim < size) (level fuel high : ℕ) (data : List TID)
    (hfuel : level < fuel) (hne : data ≠ []) (ha : Agree dim size pre data)
    (hhigh : ∀ t ∈ data, t.key dim >>> (8*(level+1)) = high) :
    ∃ out, radixSort (some w) dim size fuel (levelMask level) (8*level) data = some out ∧
      out.Perm data ∧ SortedBy dim out := by
  induction level generalizing fuel high data with
  | zero =>
    obtain ⟨fuel,rfl⟩ : ∃ k, fuel = k+1 := ⟨fuel-1,by omega⟩
    obtain ⟨a,endB,hp,hfull,hrun⟩ := radixSort_last (w:=w) fuel hne ha
    refine ⟨a,hrun,hp.perm,hp.sorted (digitOf_level_lt 0) hfull ?_⟩
    intro t ht u hu hle
    have h1 := hhigh t (hp.perm.mem_iff.mp ht)
    have h2 := hhigh u (hp.perm.mem_iff.mp hu)
    have h3 := shiftRight_split (t.key dim) 0
    have h4 := shiftRight_split (u.key dim) 0
    rw [digitOf_level,digitOf_level] at hle
    simp only [Nat.mul_zero,Nat.shiftRight_zero] at h3 h4 hle
    omega
  | succ level ih =>
    obtain ⟨fuel,rfl⟩ : ∃ k, fuel = k+1 := ⟨fuel-1,by omega⟩
    obtain ⟨a,endB,start,hp,hfull,hstart,hrun⟩ := radixSort_next (w:=w) level fuel hne ha
    have haa := ha.perm hp.perm
    obtain ⟨res,hres,hinv⟩ := sortBins_run hdim haa hp hfull (fun t ht u hu hlt =>
        key_le_of_digit_lt (hhigh t (hp.perm.mem_iff.mp ht)) (hhigh u (hp.perm.mem_iff.mp hu)) hlt)
      hstart (fun i _ bin hbne hbin => ih fuel (256*high+i) bin (by omega) hbne
        (haa.sublist fun t ht => (hbin t ht).1) (fun t ht => by
          have h1 := hhigh t (hp.perm.mem_iff.mp (hbin t ht).1)
          have h2 := (hbin t ht).2
          rw [digitOf_level] at h2
          rw [shiftRight_split (t.key dim) (level+1),h1,h2])) numberOfBins le_rfl
    refine ⟨res,by rw [hrun,hres],hinv.perm.trans hp.perm,?_⟩
    have hs := hinv.sorted
    rw [below_numberOfBins (digitOf_level_lt (level+1))] at hs
    rwa [List.take_of_length_le (by rw [hinv.perm.length_eq,hp.perm.length_eq])] at hs

/-! ## The start shift -/

theorem countBits_spec (fuel limit r : ℕ) (hlimit : limit < 2^(fuel+1)) :
    limit < 2^(countBits fuel limit r+1-r) ∧ r ≤ countBits fuel limit r ∧
      (∀ k, r ≤ k → limit < 2^(k+1-r) → countBits fuel limit r ≤ k) := by
  induction fuel generalizing limit r with
  | zero =>
    have hz : r+1-r = 1 := by omega
    simp only [countBits,hz]
    exact ⟨hlimit,le_rfl,fun k hk _ => hk⟩
  | succ fuel ih =>
    have hhalf : limit >>> 1 = limit/2 := Nat.shiftRight_eq_div_pow limit 1
    rw [countBits,hhalf]
    split
    · have hl : limit/2 < 2^(fuel+1) := by
        rw [Nat.pow_succ] at hlimit
        omega
      obtain ⟨h1,h2,h3⟩ := ih (limit/2) (r+1) hl
      refine ⟨?_,by omega,?_⟩
      · have he : countBits fuel (limit/2) (r+1)+1-r =
            countBits fuel (limit/2) (r+1)+1-(r+1)+1 := by omega
        rw [he,Nat.pow_succ]
        omega
      · intro k hk hlk
        rcases Nat.eq_or_lt_of_le hk with rfl | hlt
        · have hz : r+1-r = 1 := by omega
          rw [hz] at hlk
          omega
        · apply h3 k hlt
          have he : k+1-r = k+1-(r+1)+1 := by omega
          rw [he,Nat.pow_succ] at hlk
          omega
    · have hz : r+1-r = 1 := by omega
      rw [hz]
      exact ⟨by omega,le_rfl,fun k hk _ => hk⟩

/-- The start shift is a whole number of digits, at most three, and covers the limit. -/
theorem smartShifter_spec {limit : ℕ} (h : limit < 2^31) :
    ∃ level ≤ 3, smartShifter limit = 8*level ∧ limit < 2^(8*(level+1)) := by
  obtain ⟨h1,h2,h3⟩ := countBits_spec 64 limit 1 (h.trans (by norm_num))
  rw [Nat.add_sub_cancel] at h1
  have hle := h3 31 (by omega) (by simpa using h)
  refine ⟨countBits 64 limit 1/8,by omega,?_,h1.trans_le ?_⟩
  · simp only [smartShifter,log2OfNumberOfBins]
    omega
  · exact Nat.pow_le_pow_right (by omega) (by omega)

/-- The sorting engine returns a sorted rearrangement of whole slots. -/
theorem sort_spec {w : ℕ} {valueRanges : ℕ → ℕ} {data : List TID} (hdim : dim < size)
    (ha : Agree dim size pre data) (hrange : valueRanges dim < 2^31)
    (hkey : ∀ t ∈ data, t.key dim ≤ valueRanges dim) :
    ∃ out, sort (some w) dim size valueRanges data = some out ∧ out.Perm data ∧
      SortedBy dim out := by
  unfold sort
  split
  · rename_i hshort
    exact ⟨data,rfl,List.Perm.refl _,sortedBy_short hshort⟩
  · split
    · obtain ⟨level,hle,hshift,hlimit⟩ := smartShifter_spec hrange
      rw [hshift,if_pos (by omega),levelMask_start hle]
      refine radixSort_spec hdim level 4 0 data (by omega) ?_ ha ?_
      · rintro rfl
        simp at *
      · intro t ht
        rw [Nat.shiftRight_eq_div_pow,Nat.div_eq_of_lt ((hkey t ht).trans_lt hlimit)]
    · exact insertion_spec hdim ha

/-! ## The words behind the table of bin starts -/

theorem advanceStart_word (w w' : ℕ) (start : Bins) (current fuel nextBin : ℕ) :
    advanceStart (some w) start current fuel nextBin =
      advanceStart (some w') start current fuel nextBin := by
  induction fuel generalizing nextBin with
  | zero => rfl
  | succ fuel ih =>
    by_cases hbin : nextBin < numberOfBins
    · simp only [advanceStart,readBin,if_pos hbin,ih]
    · simp [advanceStart,readBin,hbin]

theorem advanceFull_word (w w' : ℕ) (start endB : Bins) (fuel nextBin : ℕ) :
    advanceFull (some w) start endB fuel nextBin = advanceFull (some w') start endB fuel nextBin := by
  induction fuel generalizing nextBin with
  | zero => rfl
  | succ fuel ih =>
    by_cases hbin : nextBin < numberOfBins
    · simp only [advanceFull,readBin,if_pos hbin,ih]
    · simp [advanceFull,readBin,hbin]

theorem permute_word (w w' mask shifter last : ℕ) (start : Bins) (fuel : ℕ) (data : List TID)
    (endB : Bins) (current nextBin : ℕ) :
    permute (some w) dim size mask shifter last start fuel data endB current nextBin =
      permute (some w') dim size mask shifter last start fuel data endB current nextBin := by
  induction fuel generalizing data endB current nextBin with
  | zero => rfl
  | succ fuel ih => simp only [permute,advanceStart_word w w',advanceFull_word w w',ih]

theorem radixSort_word (w w' fuel : ℕ) :
    radixSort (some w) dim size fuel = radixSort (some w') dim size fuel := by
  induction fuel with
  | zero => rfl
  | succ fuel ih =>
    funext mask shifter data
    simp only [radixSort,permute_word w w',ih]

theorem sort_word (w w' : ℕ) (valueRanges : ℕ → ℕ) (data : List TID) :
    sort (some w) dim size valueRanges data = sort (some w') dim size valueRanges data := by
  simp only [sort,radixSort_word w w']

/-- The sorting engine returns one arrangement of the slots with their rows, sorted by the
column, whatever the words behind the table of bin starts are. -/
theorem sort_sorted (valueRanges : ℕ → ℕ) (data : List TID) (hdim : dim < size)
    (ha : Agree dim size pre data) (hrange : valueRanges dim < 2^31)
    (hkey : ∀ t ∈ data, t.key dim ≤ valueRanges dim) :
    ∃ out, (∀ w, sort (some w) dim size valueRanges data = some out) ∧ out.Perm data ∧
      SortedBy dim out := by
  obtain ⟨out,hout,hperm,hsorted⟩ := sort_spec (w:=0) hdim ha hrange hkey
  exact ⟨out,fun w => (sort_word w 0 valueRanges data).trans hout,hperm,hsorted⟩

theorem sort_sorted_countdown :
    ∃ out, (∀ w, sort (some w) 1 2 (fun _ => 128)
        ((List.range 128).map fun i => ⟨i,[7,128-i]⟩) = some out) ∧
      out.Perm ((List.range 128).map fun i => ⟨i,[7,128-i]⟩) ∧ SortedBy 1 out :=
  @sort_sorted 1 2 [7] (fun _ => 128) _ (by decide) (by
    intro t ht
    obtain ⟨i,-,rfl⟩ := List.mem_map.mp ht
    exact ⟨rfl,rfl⟩) (by decide) (by
    intro t ht
    obtain ⟨i,-,rfl⟩ := List.mem_map.mp ht
    exact Nat.sub_le 128 i)

end ElfIndex.SortingEngine
