import ElfIndex.SortingEngine.Radix

/-! # The sorting engine works in place

Every copy goes into a slot that exists, so a run on any rows and any value ranges that is
defined ends with as many slots as it started with.
-/
namespace ElfIndex.SortingEngine
variable {dim size : ℕ} {data out : List TID} {pastEnd : Option ℕ}

theorem insertionShift_length {save : TID} {j : ℕ}
    (h : insertionShift dim size save j data = some out) : out.length = data.length := by
  induction j generalizing data with
  | zero =>
    simp only [insertionShift,Option.bind_eq_bind,Option.bind_eq_some_iff] at h
    obtain ⟨dst,-,h⟩ := h
    rw [← Option.some.inj h,List.length_set]
  | succ j ih =>
    simp only [insertionShift,Option.bind_eq_bind,Option.bind_eq_some_iff] at h
    obtain ⟨prev,-,dst,-,h⟩ := h
    split at h
    · rw [ih h,List.length_set]
    · rw [← Option.some.inj h,List.length_set]

theorem foldlM_length {β : Type*} {f : List TID → β → Option (List TID)}
    (hf : ∀ data i out, f data i = some out → out.length = data.length) {l : List β}
    (h : l.foldlM f data = some out) : out.length = data.length := by
  induction l generalizing data with
  | nil => rw [← Option.some.inj h]
  | cons i l ih =>
    simp only [List.foldlM_cons,Option.bind_eq_bind,Option.bind_eq_some_iff] at h
    obtain ⟨mid,hmid,h⟩ := h
    rw [ih h,hf _ _ _ hmid]

theorem insertion_length {n : ℕ} (h : insertion dim size n data = some out) :
    out.length = data.length := by
  refine foldlM_length ?_ h
  intro data i out h
  simp only [Option.bind_eq_bind,Option.bind_eq_some_iff] at h
  obtain ⟨cur,-,h⟩ := h
  exact insertionShift_length h

theorem permuteCycle_length {mask shifter current fuel : ℕ} {endB : Bins} {tid : ℕ}
    {r : Bins × ℕ × ℕ} (h : permuteCycle dim size mask shifter current fuel data endB tid =
      some (out,r)) : out.length = data.length := by
  induction fuel generalizing data endB tid with
  | zero => cases h
  | succ fuel ih =>
    simp only [permuteCycle,Option.bind_eq_bind,Option.bind_eq_some_iff] at h
    obtain ⟨slot,-,e,-,h⟩ := h
    split at h
    · cases h
      rfl
    · simp only [Option.bind_eq_some_iff] at h
      obtain ⟨b,-,endB',-,h⟩ := h
      rw [ih h,List.length_set,List.length_set]

theorem permute_length {mask shifter last : ℕ} {start : Bins} {fuel : ℕ} {endB endB' : Bins}
    {current nextBin : ℕ} (h : permute pastEnd dim size mask shifter last start fuel data endB
      current nextBin = some (out,endB')) : out.length = data.length := by
  induction fuel generalizing data endB current nextBin with
  | zero => cases h
  | succ fuel ih =>
    unfold permute at h
    split at h
    · simp only [Option.bind_eq_bind,Option.bind_eq_some_iff] at h
      obtain ⟨slot,-,⟨mid,bins,tid,digit⟩,hcycle,slot',-,endB1,-,n1,-,n2,-,e,-,h⟩ := h
      rw [ih h,List.length_set,permuteCycle_length hcycle]
    · cases h
      rfl

theorem sortBin_length {rec : List TID → Option (List TID)}
    (hrec : ∀ data out, rec data = some out → out.length = data.length) {start endB : Bins} {i : ℕ}
    (h : sortBin rec dim size start endB data i = some out) : out.length = data.length := by
  have hback : ∀ sorted : List TID,
      sorted.length = ((data.drop (start i)).take (endB i-start i)).length →
      (data.take (start i) ++ sorted ++ data.drop (start i+(endB i-start i))).length =
        data.length := by
    intro sorted hs
    simp only [List.length_append,List.length_take,List.length_drop] at hs ⊢
    omega
  unfold sortBin at h
  simp only at h
  split at h
  · obtain ⟨sorted,hsorted,rfl⟩ := Option.map_eq_some_iff.mp h
    exact hback _ (hrec _ _ hsorted)
  · split at h
    · obtain ⟨sorted,hsorted,rfl⟩ := Option.map_eq_some_iff.mp h
      exact hback _ (insertion_length hsorted)
    · rw [← Option.some.inj h]

theorem radixSort_length {fuel mask shifter : ℕ}
    (h : radixSort pastEnd dim size fuel mask shifter data = some out) :
    out.length = data.length := by
  induction fuel generalizing mask shifter data out with
  | zero => cases h
  | succ fuel ih =>
    simp only [radixSort,Option.bind_eq_bind,Option.bind_eq_some_iff] at h
    obtain ⟨count,-,⟨mid,endB⟩,hpermute,h⟩ := h
    split at h
    · exact (foldlM_length (fun _ _ _ => sortBin_length fun _ _ hrec => ih hrec) h).trans
        (permute_length hpermute)
    · cases h
      exact permute_length hpermute

theorem sort_length {valueRanges : ℕ → ℕ} (h : sort pastEnd dim size valueRanges data = some out) :
    out.length = data.length := by
  unfold sort at h
  split at h
  · rw [← Option.some.inj h]
  · split at h
    · simp only at h
      split at h
      · exact radixSort_length h
      · cases h
    · exact insertion_length h

end ElfIndex.SortingEngine
