import ElfIndex.Lib.Buckets
import ElfIndex.SortingEngine.Engine

/-! # Sorting by a start digit that may be too small

The start digit comes from a value range that the caller gives. Keys that differ above
the start digit are still arranged by the digits from there on, so that the result may be
unsorted. Whole slots are rearranged in any case.
-/
namespace ElfIndex.SortingEngine
open Buckets

variable {dim size : ℕ} {pre : List ℕ}

/-- The digit of a key at a level. -/
def keyDigit (level key : ℕ) : ℕ := key >>> (8*level)%256

/-- The keys of one bin. -/
def binKeys (level d : ℕ) (keys : List ℕ) : List ℕ :=
  keys.filter fun key => decide (keyDigit level key = d)

/-- A smaller digit never stands for a larger key, also in the bins that the next digit
splits. Bins below the switch are sorted by their whole keys. -/
def DigitsOrdered : ℕ → List ℕ → Prop
  | 0, keys => ∀ v ∈ keys, ∀ v' ∈ keys, keyDigit 0 v < keyDigit 0 v' → v ≤ v'
  | level+1, keys =>
    (∀ v ∈ keys, ∀ v' ∈ keys, keyDigit (level+1) v < keyDigit (level+1) v' → v ≤ v') ∧
    ∀ d < numberOfBins, introsortSwitch ≤ (binKeys (level+1) d keys).length →
      DigitsOrdered level (binKeys (level+1) d keys)

/-- The bins of the last digit, which stay as the pass leaves them, hold equal keys. -/
def TiesEqual : ℕ → List ℕ → Prop
  | 0, keys => ∀ v ∈ keys, ∀ v' ∈ keys, keyDigit 0 v = keyDigit 0 v' → v = v'
  | level+1, keys => ∀ d < numberOfBins, introsortSwitch ≤ (binKeys (level+1) d keys).length →
    TiesEqual level (binKeys (level+1) d keys)

theorem binKeys_perm {keys keys' : List ℕ} (h : keys.Perm keys') (level d : ℕ) :
    (binKeys level d keys).Perm (binKeys level d keys') := h.filter _

theorem DigitsOrdered.perm {level : ℕ} {keys keys' : List ℕ} (h : DigitsOrdered level keys)
    (hp : keys.Perm keys') : DigitsOrdered level keys' := by
  induction level generalizing keys keys' with
  | zero => exact fun v hv v' hv' => h v (hp.mem_iff.mpr hv) v' (hp.mem_iff.mpr hv')
  | succ level ih =>
    refine ⟨fun v hv v' hv' => h.1 v (hp.mem_iff.mpr hv) v' (hp.mem_iff.mpr hv'),?_⟩
    intro d hd hlen
    have hbin := binKeys_perm hp (level+1) d
    rw [← hbin.length_eq] at hlen
    exact ih (h.2 d hd hlen) hbin

theorem TiesEqual.perm {level : ℕ} {keys keys' : List ℕ} (h : TiesEqual level keys)
    (hp : keys.Perm keys') : TiesEqual level keys' := by
  induction level generalizing keys keys' with
  | zero => exact fun v hv v' hv' => h v (hp.mem_iff.mpr hv) v' (hp.mem_iff.mpr hv')
  | succ level ih =>
    intro d hd hlen
    have hbin := binKeys_perm hp (level+1) d
    rw [← hbin.length_eq] at hlen
    exact ih (h d hd hlen) hbin

/-! ## Keys that the start digit covers -/

/-- Keys that agree above the start digit are arranged by their digits. -/
theorem digits_of_covered {level high : ℕ} {keys : List ℕ}
    (h : ∀ v ∈ keys, v >>> (8*(level+1)) = high) :
    DigitsOrdered level keys ∧ TiesEqual level keys := by
  have horder : ∀ level high, ∀ v v' : ℕ, v >>> (8*(level+1)) = high →
      v' >>> (8*(level+1)) = high → keyDigit level v < keyDigit level v' → v ≤ v' := by
    intro level high v v' hv hv' hlt
    have h1 := shiftRight_split v level
    have h2 := shiftRight_split v' level
    unfold keyDigit at hlt
    by_contra hle
    have h3 : v' >>> (8*level) ≤ v >>> (8*level) := by
      simp only [Nat.shiftRight_eq_div_pow]
      exact Nat.div_le_div_right (Nat.le_of_not_le hle)
    omega
  induction level generalizing high keys with
  | zero =>
    refine ⟨fun v hv v' hv' => horder 0 high v v' (h v hv) (h v' hv'),?_⟩
    intro v hv v' hv' heq
    have h1 := shiftRight_split v 0
    have h2 := shiftRight_split v' 0
    have h3 := h v hv
    have h4 := h v' hv'
    unfold keyDigit at heq
    simp only [Nat.mul_zero,Nat.shiftRight_zero] at h1 h2 heq
    omega
  | succ level ih =>
    have hbins : ∀ d, ∀ v ∈ binKeys (level+1) d keys, v >>> (8*(level+1)) = 256*high+d := by
      intro d v hv
      obtain ⟨hmem,hd⟩ := List.mem_filter.mp hv
      have hd' := of_decide_eq_true hd
      rw [keyDigit] at hd'
      rw [shiftRight_split v (level+1),h v hmem,hd']
    refine ⟨⟨fun v hv v' hv' => horder (level+1) high v v' (h v hv) (h v' hv'),?_⟩,?_⟩
    · exact fun d _ _ => (ih (hbins d)).1
    · exact fun d _ _ => (ih (hbins d)).2

/-! ## The bins of a pass -/

variable {g : TID → ℕ} {data0 a : List TID} {endB : Bins}

/-- The slots of a filled bin are all slots with its digit, in the order of the array. -/
theorem Placed.bin_eq (hp : Placed g data0 a endB)
    (hfull : ∀ d < numberOfBins, endB d = below g data0 (d+1)) {i : ℕ} (hi : i < numberOfBins) :
    (a.drop (below g data0 i)).take (endB i-below g data0 i) =
      a.filter fun t => decide (g t = i) := by
  have hlow := hp.lower i hi
  have hroom : endB i ≤ a.length := by
    rw [hfull i hi,← below_perm hp.perm]
    exact List.countP_le_length
  have hlen : ((a.drop (below g data0 i)).take (endB i-below g data0 i)).length =
      endB i-below g data0 i := by
    rw [List.length_take,List.length_drop]
    omega
  have hbin : ((a.drop (below g data0 i)).take (endB i-below g data0 i)).filter
      (fun t => decide (g t = i)) = (a.drop (below g data0 i)).take (endB i-below g data0 i) := by
    rw [List.filter_eq_self]
    intro t ht
    obtain ⟨k,hk,rfl⟩ := List.mem_iff_getElem.mp ht
    rw [List.getElem_take,List.getElem_drop,decide_eq_true_eq]
    exact hp.placed i hi (below g data0 i+k) _ (by omega) (by omega) (List.getElem?_eq_getElem _)
  have hsub : ((a.drop (below g data0 i)).take (endB i-below g data0 i)).Sublist
      (a.filter fun t => decide (g t = i)) := by
    have h := ((List.take_sublist (endB i-below g data0 i) _).trans
      (List.drop_sublist (below g data0 i) a)).filter fun t => decide (g t = i)
    rwa [hbin] at h
  refine hsub.eq_of_length ?_
  have hcount := below_succ g a i
  rw [below_perm hp.perm,below_perm hp.perm,← hfull i hi,List.countP_eq_length_filter] at hcount
  omega

/-- The filled bins one behind the other. -/
theorem Placed.take_eq (hp : Placed g data0 a endB)
    (hfull : ∀ d < numberOfBins, endB d = below g data0 (d+1)) {n : ℕ} (hn : n ≤ numberOfBins) :
    a.take (below g data0 n) =
      (List.range n).flatMap fun i => a.filter fun t => decide (g t = i) := by
  induction n with
  | zero => rw [below_zero,List.take_zero,List.range_zero,List.flatMap_nil]
  | succ n ih =>
    have hlow := hp.lower n hn
    have hsum : below g data0 (n+1) = below g data0 n+(endB n-below g data0 n) := by
      rw [hfull n hn] at hlow ⊢
      omega
    rw [hsum,List.take_add,ih (by omega),hp.bin_eq hfull hn,List.range_succ,List.flatMap_append,
      List.flatMap_cons,List.flatMap_nil,List.append_nil]

theorem Placed.eq_flatMap (hp : Placed g data0 a endB) (hg : ∀ t, g t < numberOfBins)
    (hfull : ∀ d < numberOfBins, endB d = below g data0 (d+1)) :
    a = (List.range numberOfBins).flatMap fun i => a.filter fun t => decide (g t = i) := by
  rw [← hp.take_eq hfull le_rfl,below_numberOfBins hg,← hp.perm.length_eq,List.take_length]

/-- One bin is handed to the callee, to the insertion sort or stays. -/
theorem sortBin_arranges (hdim : dim < size) (ha : Agree dim size pre a)
    (hp : Placed g data0 a endB) (hfull : ∀ d < numberOfBins, endB d = below g data0 (d+1))
    {start : Bins} (hstart : ∀ i < numberOfBins, start i = below g data0 i)
    {rec : List TID → Option (List TID)} {R : ℕ → List TID → Prop} {i : ℕ} (hi : i < numberOfBins)
    (hrec : introsortSwitch ≤ (a.filter fun t => decide (g t = i)).length →
      ∃ o, rec (a.filter fun t => decide (g t = i)) = some o ∧
        o.Perm (a.filter fun t => decide (g t = i)) ∧ R i o) :
    ∃ o, (∀ done : List TID, done.length = below g data0 i →
        sortBin rec dim size start endB (done ++ a.drop (below g data0 i)) i =
          some ((done ++ o) ++ a.drop (below g data0 (i+1)))) ∧
      o.Perm (a.filter fun t => decide (g t = i)) ∧
      if introsortSwitch ≤ (a.filter fun t => decide (g t = i)).length then R i o
      else SortedBy dim o := by
  have hlow := hp.lower i hi
  have hbin := hp.bin_eq hfull hi
  have hsum : below g data0 i+(endB i-below g data0 i) = below g data0 (i+1) := by
    rw [hfull i hi] at hlow ⊢
    omega
  have hlen : (a.filter fun t => decide (g t = i)).length = endB i-below g data0 i := by
    have hroom : endB i ≤ a.length := by
      rw [hfull i hi,← below_perm hp.perm]
      exact List.countP_le_length
    rw [← hbin,List.length_take,List.length_drop]
    omega
  -- the state in front of a bin: its slots are still as the permutation left them
  have hrun : ∀ done : List TID, done.length = below g data0 i →
      sortBin rec dim size start endB (done ++ a.drop (below g data0 i)) i =
        if endB i-below g data0 i ≥ introsortSwitch then
          (rec (a.filter fun t => decide (g t = i))).map fun sorted =>
            done ++ sorted ++ a.drop (below g data0 (i+1))
        else if endB i-below g data0 i ≥ 2 then
          (introsort dim size (endB i-below g data0 i) (a.filter fun t => decide (g t = i))).map
            fun sorted => done ++ sorted ++ a.drop (below g data0 (i+1))
        else some (done ++ a.drop (below g data0 i)) := by
    intro done hdone
    have htake : (done ++ a.drop (below g data0 i)).take (below g data0 i) = done :=
      List.take_left' hdone
    have hdrop : (done ++ a.drop (below g data0 i)).drop (below g data0 i) =
        a.drop (below g data0 i) := List.drop_left' hdone
    have hrest : (done ++ a.drop (below g data0 i)).drop (below g data0 (i+1)) =
        a.drop (below g data0 (i+1)) := by
      rw [← hsum,← List.drop_drop,hdrop,List.drop_drop]
    simp only [sortBin,hstart i hi,hdrop,hbin,htake,hsum,hrest]
  rw [hlen] at hrec ⊢
  by_cases hbig : endB i-below g data0 i ≥ introsortSwitch
  · obtain ⟨o,hout,hperm,hR⟩ := hrec hbig
    refine ⟨o,?_,hperm,by rwa [if_pos hbig]⟩
    intro done hdone
    rw [hrun done hdone,if_pos hbig,hout,Option.map_some]
  · by_cases htwo : endB i-below g data0 i ≥ 2
    · obtain ⟨o,hout,hperm,hsorted⟩ := insertion_spec hdim
        (ha.sublist (List.filter_sublist (p:=fun t => decide (g t = i))).subset)
      rw [hlen] at hout
      refine ⟨o,?_,hperm,by rwa [if_neg hbig]⟩
      intro done hdone
      rw [hrun done hdone,if_neg hbig,if_pos htwo,introsort,hout,Option.map_some]
    · refine ⟨a.filter fun t => decide (g t = i),?_,List.Perm.refl _,?_⟩
      · intro done hdone
        rw [hrun done hdone,if_neg hbig,if_neg htwo,← hbin,List.append_assoc,← hsum,
          ← List.drop_drop,List.take_append_drop]
      · rw [if_neg hbig]
        exact sortedBy_short (by omega)

/-- The loop over the bins leaves the arranged bins one behind the other. -/
theorem sortBins_arranges (hdim : dim < size) (ha : Agree dim size pre a)
    (hp : Placed g data0 a endB) (hg : ∀ t, g t < numberOfBins)
    (hfull : ∀ d < numberOfBins, endB d = below g data0 (d+1))
    {start : Bins} (hstart : ∀ i < numberOfBins, start i = below g data0 i)
    {rec : List TID → Option (List TID)} {R : ℕ → List TID → Prop}
    (hrec : ∀ i < numberOfBins, introsortSwitch ≤ (a.filter fun t => decide (g t = i)).length →
      ∃ o, rec (a.filter fun t => decide (g t = i)) = some o ∧
        o.Perm (a.filter fun t => decide (g t = i)) ∧ R i o) :
    ∃ out : ℕ → List TID,
      (List.range numberOfBins).foldlM (sortBin rec dim size start endB) a =
        some ((List.range numberOfBins).flatMap out) ∧
      ∀ i < numberOfBins, (out i).Perm (a.filter fun t => decide (g t = i)) ∧
        if introsortSwitch ≤ (a.filter fun t => decide (g t = i)).length then R i (out i)
        else SortedBy dim (out i) := by
  have hbins : ∀ i, ∃ o, i < numberOfBins → (∀ done : List TID, done.length = below g data0 i →
        sortBin rec dim size start endB (done ++ a.drop (below g data0 i)) i =
          some ((done ++ o) ++ a.drop (below g data0 (i+1)))) ∧
      o.Perm (a.filter fun t => decide (g t = i)) ∧
      if introsortSwitch ≤ (a.filter fun t => decide (g t = i)).length then R i o
      else SortedBy dim o := by
    intro i
    by_cases hi : i < numberOfBins
    · obtain ⟨o,ho⟩ := sortBin_arranges hdim ha hp hfull hstart hi (hrec i hi)
      exact ⟨o,fun _ => ho⟩
    · exact ⟨[],fun h => absurd h hi⟩
  choose out hout using hbins
  refine ⟨out,?_,fun i hi => (hout i hi).2⟩
  have hlength : ∀ n ≤ numberOfBins, ((List.range n).flatMap out).length = below g data0 n := by
    intro n hn
    have hperm : ((List.range n).flatMap out).Perm (a.take (below g data0 n)) := by
      rw [hp.take_eq hfull hn]
      refine List.Perm.flatMap_left _ ?_
      intro i hi
      have := List.mem_range.mp hi
      exact (hout i (by omega)).2.1
    rw [hperm.length_eq,List.length_take,Nat.min_eq_left]
    rw [← below_perm hp.perm]
    exact List.countP_le_length
  have hloop : ∀ n ≤ numberOfBins,
      (List.range n).foldlM (sortBin rec dim size start endB) a =
        some ((List.range n).flatMap out ++ a.drop (below g data0 n)) := by
    intro n hn
    induction n with
    | zero =>
      rw [List.range_zero,List.foldlM_nil,List.flatMap_nil,below_zero,List.drop_zero,
        List.nil_append]
      rfl
    | succ n ih =>
      rw [List.range_succ,List.foldlM_append,ih (by omega)]
      simp only [Option.bind_eq_bind,Option.bind_some,List.foldlM_cons,List.foldlM_nil]
      rw [(hout n hn).1 _ (hlength n (by omega)),List.flatMap_append,List.flatMap_cons,
        List.flatMap_nil,List.append_nil]
      rfl
  rw [hloop numberOfBins le_rfl,below_numberOfBins hg,← hp.perm.length_eq,List.drop_length,
    List.append_nil]

/-! ## A pass and its recursion -/

theorem digitOf_eq_keyDigit (level : ℕ) (t : TID) :
    digitOf dim (levelMask level) (8*level) t = keyDigit level (t.key dim) := digitOf_level level t

/-- The keys of a column, in the order of the slots. -/
def keysOf (dim : ℕ) (data : List TID) : List ℕ := data.map (TID.key dim)

theorem keysOf_bin (level d : ℕ) (data : List TID) :
    keysOf dim (data.filter fun t => decide (digitOf dim (levelMask level) (8*level) t = d)) =
      binKeys level d (keysOf dim data) := by
  rw [keysOf,keysOf,binKeys,List.filter_map]
  simp only [digitOf_eq_keyDigit,Function.comp_def]

/-- Ordered bins, said of the keys. -/
theorem ordered_keys_iff (level : ℕ) (data : List TID) :
    (∀ t ∈ data, ∀ u ∈ data, digitOf dim (levelMask level) (8*level) t <
      digitOf dim (levelMask level) (8*level) u → t.key dim ≤ u.key dim) ↔
    ∀ v ∈ keysOf dim data, ∀ v' ∈ keysOf dim data,
      keyDigit level v < keyDigit level v' → v ≤ v' := by
  simp only [keysOf,List.forall_mem_map,digitOf_eq_keyDigit]

/-- What a pass and its recursion do to an array whose keys may differ above the digit. -/
def Arranges (dim level : ℕ) (data out : List TID) : Prop :=
  out.Perm data ∧ (SortedBy dim out → DigitsOrdered level (keysOf dim data)) ∧
    (DigitsOrdered level (keysOf dim data) → TiesEqual level (keysOf dim data) → SortedBy dim out)

theorem bins_perm {level : ℕ} {data a : List TID} {out : ℕ → List TID} (hp : a.Perm data)
    (ha : a = (List.range numberOfBins).flatMap fun i =>
      a.filter fun t => decide (digitOf dim (levelMask level) (8*level) t = i))
    (hout : ∀ i < numberOfBins, (out i).Perm
      (a.filter fun t => decide (digitOf dim (levelMask level) (8*level) t = i))) :
    ((List.range numberOfBins).flatMap out).Perm data ∧
      Holds (digitOf dim (levelMask level) (8*level)) data out numberOfBins := by
  constructor
  · refine List.Perm.trans ?_ hp
    rw [ha]
    exact List.Perm.flatMap_left _ fun i hi => (ha ▸ hout i (List.mem_range.mp hi))
  · exact fun i hi => (hout i hi).trans (hp.filter _)

/-- The bins of the last digit, which stay as they are. -/
theorem arranges_last {data a : List TID} (hp : a.Perm data)
    (ha : a = (List.range numberOfBins).flatMap fun i =>
      a.filter fun t => decide (digitOf dim (levelMask 0) (8*0) t = i)) :
    Arranges dim 0 data a := by
  have hholds := (bins_perm hp ha fun i _ => List.Perm.refl _).2
  have hiff := hholds.pairwise_iff (r:=fun t u => t.key dim ≤ u.key dim)
    fun t _ => digitOf_level_lt 0 t
  rw [← ha,ordered_keys_iff] at hiff
  refine ⟨hp,fun hsorted => (hiff.mp hsorted).2,?_⟩
  intro hordered hties
  refine hiff.mpr ⟨?_,hordered⟩
  intro i hi
  refine List.pairwise_of_forall_mem_list ?_
  intro t ht u hu
  obtain ⟨htd,hti⟩ := (hholds.mem hi).mp ht
  obtain ⟨hud,hui⟩ := (hholds.mem hi).mp hu
  refine (hties _ (List.mem_map_of_mem htd) _ (List.mem_map_of_mem hud) ?_).le
  rw [← digitOf_eq_keyDigit,← digitOf_eq_keyDigit,hti,hui]

/-- Bins that are arranged by the next digit, or sorted, one behind the other. -/
theorem arranges_next {level : ℕ} {data a : List TID} {out : ℕ → List TID} (hp : a.Perm data)
    (ha : a = (List.range numberOfBins).flatMap fun i =>
      a.filter fun t => decide (digitOf dim (levelMask (level+1)) (8*(level+1)) t = i))
    (hall : ∀ i < numberOfBins, (out i).Perm (a.filter fun t =>
        decide (digitOf dim (levelMask (level+1)) (8*(level+1)) t = i)) ∧
      if introsortSwitch ≤ (a.filter fun t =>
          decide (digitOf dim (levelMask (level+1)) (8*(level+1)) t = i)).length then
        Arranges dim level (a.filter fun t =>
          decide (digitOf dim (levelMask (level+1)) (8*(level+1)) t = i)) (out i)
      else SortedBy dim (out i)) :
    Arranges dim (level+1) data ((List.range numberOfBins).flatMap out) := by
  obtain ⟨hperm,hholds⟩ := bins_perm hp ha fun i hi => (hall i hi).1
  have hiff := hholds.pairwise_iff (r:=fun t u => t.key dim ≤ u.key dim)
    fun t _ => digitOf_level_lt (level+1) t
  rw [ordered_keys_iff] at hiff
  -- the keys of a bin do not depend on the arrangement of the array
  have hkeys : ∀ d, (keysOf dim (a.filter fun t =>
      decide (digitOf dim (levelMask (level+1)) (8*(level+1)) t = d))).Perm
        (binKeys (level+1) d (keysOf dim data)) := by
    intro d
    rw [keysOf_bin]
    exact binKeys_perm (hp.map _) (level+1) d
  have hbig : ∀ d, (a.filter fun t =>
      decide (digitOf dim (levelMask (level+1)) (8*(level+1)) t = d)).length =
        (binKeys (level+1) d (keysOf dim data)).length := by
    intro d
    rw [← (hkeys d).length_eq,keysOf,List.length_map]
  refine ⟨hperm,?_,?_⟩
  · intro hsorted
    obtain ⟨heach,hordered⟩ := hiff.mp hsorted
    refine ⟨hordered,?_⟩
    intro d hd hlen
    have hd' := (hall d hd).2
    rw [if_pos (by rwa [hbig d])] at hd'
    exact (hd'.2.1 (heach d hd)).perm (hkeys d)
  · intro hordered hties
    refine hiff.mpr ⟨?_,hordered.1⟩
    intro d hd
    have hd' := (hall d hd).2
    split at hd'
    · rename_i hlen
      rw [hbig d] at hlen
      exact hd'.2.2 ((hordered.2 d hd hlen).perm (hkeys d).symm)
        ((hties d hd hlen).perm (hkeys d).symm)
    · exact hd'

theorem radixSort_arranges {w : ℕ} (hdim : dim < size) (level fuel : ℕ) (data : List TID)
    (hfuel : level < fuel) (hne : data ≠ []) (ha : Agree dim size pre data) :
    ∃ out, radixSort (some w) dim size fuel (levelMask level) (8*level) data = some out ∧
      Arranges dim level data out := by
  induction level generalizing fuel data with
  | zero =>
    obtain ⟨fuel,rfl⟩ : ∃ k, fuel = k+1 := ⟨fuel-1,by omega⟩
    obtain ⟨a,endB,hp,hfull,hrun⟩ := radixSort_last (w:=w) fuel hne ha
    exact ⟨a,hrun,arranges_last hp.perm (hp.eq_flatMap (digitOf_level_lt 0) hfull)⟩
  | succ level ih =>
    obtain ⟨fuel,rfl⟩ : ∃ k, fuel = k+1 := ⟨fuel-1,by omega⟩
    obtain ⟨a,endB,start,hp,hfull,hstart,hrun⟩ := radixSort_next (w:=w) level fuel hne ha
    have haa := ha.perm hp.perm
    have hbin : ∀ i < numberOfBins, introsortSwitch ≤ (a.filter fun t =>
        decide (digitOf dim (levelMask (level+1)) (8*(level+1)) t = i)).length →
        ∃ o, radixSort (some w) dim size fuel (levelMask level) (8*level) (a.filter fun t =>
            decide (digitOf dim (levelMask (level+1)) (8*(level+1)) t = i)) = some o ∧
          o.Perm (a.filter fun t =>
            decide (digitOf dim (levelMask (level+1)) (8*(level+1)) t = i)) ∧
          Arranges dim level (a.filter fun t =>
            decide (digitOf dim (levelMask (level+1)) (8*(level+1)) t = i)) o := by
      intro i _ hbig
      obtain ⟨o,ho,hr⟩ := ih fuel _ (by omega) (by
        intro hnil
        rw [hnil] at hbig
        cases hbig) (haa.sublist List.filter_sublist.subset)
      exact ⟨o,ho,hr.1,hr⟩
    obtain ⟨out,hout,hall⟩ :=
      sortBins_arranges hdim haa hp (digitOf_level_lt (level+1)) hfull hstart hbin
    exact ⟨_,hrun.trans hout,
      arranges_next hp.perm (hp.eq_flatMap (digitOf_level_lt (level+1)) hfull) hall⟩

/-! ## The engine -/

/-- Keys that the engine can have sorted when it is told the limit. -/
def LimitOrders (limit : ℕ) (keys : List ℕ) : Prop :=
  introsortSwitch ≤ keys.length → DigitsOrdered (smartShifter limit/8) keys

/-- Keys that the engine sorts when it is told the limit. -/
def LimitSorts (limit : ℕ) (keys : List ℕ) : Prop :=
  introsortSwitch ≤ keys.length →
    DigitsOrdered (smartShifter limit/8) keys ∧ TiesEqual (smartShifter limit/8) keys

/-- A limit that bounds the keys is good enough. -/
theorem limitSorts_of_le {limit : ℕ} {keys : List ℕ} (hlimit : limit < 2^31)
    (h : ∀ v ∈ keys, v ≤ limit) : LimitSorts limit keys := by
  intro _
  obtain ⟨level,_,hshift,hcover⟩ := smartShifter_spec hlimit
  rw [hshift,Nat.mul_div_cancel_left level (by decide)]
  refine @digits_of_covered level 0 keys ?_
  intro v hv
  rw [Nat.shiftRight_eq_div_pow,Nat.div_eq_of_lt ((h v hv).trans_lt hcover)]

/-- The engine rearranges whole slots for any limit of 31 bits. -/
theorem sort_arranges (valueRanges : ℕ → ℕ) (data : List TID) (hdim : dim < size)
    (ha : Agree dim size pre data) (hrange : valueRanges dim < 2^31) :
    ∃ out, (∀ w, sort (some w) dim size valueRanges data = some out) ∧ out.Perm data ∧
      (SortedBy dim out → LimitOrders (valueRanges dim) (keysOf dim data)) ∧
      (LimitSorts (valueRanges dim) (keysOf dim data) → SortedBy dim out) := by
  have hlen : (keysOf dim data).length = data.length := List.length_map _
  have hsome : ∃ out, sort (some 0) dim size valueRanges data = some out ∧ out.Perm data ∧
      (SortedBy dim out → LimitOrders (valueRanges dim) (keysOf dim data)) ∧
      (LimitSorts (valueRanges dim) (keysOf dim data) → SortedBy dim out) := by
    by_cases hbig : introsortSwitch ≤ data.length
    · have hswitch : introsortSwitch = 100 := rfl
      obtain ⟨level,hle,hshift,_⟩ := smartShifter_spec hrange
      have hlevel : smartShifter (valueRanges dim)/8 = level := by
        rw [hshift,Nat.mul_div_cancel_left level (by decide)]
      obtain ⟨out,hout,hperm,hordered,hsorted⟩ := radixSort_arranges (w:=0) hdim level 4 data
        (by omega) (by
          rintro rfl
          cases hbig) ha
      refine ⟨out,?_,hperm,?_,?_⟩
      · rw [sort,if_neg (by omega),if_pos hbig,hshift]
        simp only [levelMask_start hle]
        rw [if_pos (by omega)]
        exact hout
      · intro h _
        rw [hlevel]
        exact hordered h
      · intro h
        have hboth := h (hlen ▸ hbig)
        rw [hlevel] at hboth
        exact hsorted hboth.1 hboth.2
    · have hsmall : LimitOrders (valueRanges dim) (keysOf dim data) := by
        intro h
        rw [hlen] at h
        exact absurd h hbig
      by_cases hone : data.length < 2
      · exact ⟨data,by rw [sort,if_pos hone],List.Perm.refl _,fun _ => hsmall,
          fun _ => sortedBy_short hone⟩
      · obtain ⟨out,hout,hperm,hsorted⟩ := insertion_spec hdim ha
        refine ⟨out,?_,hperm,fun _ => hsmall,fun _ => hsorted⟩
        rw [sort,if_neg hone,if_neg hbig]
        exact hout
  obtain ⟨out,hout,h⟩ := hsome
  exact ⟨out,fun w => (sort_word w 0 valueRanges data).trans hout,h⟩

end ElfIndex.SortingEngine
