import ElfIndex.SortingEngine.Radix
import Mathlib.Algebra.Order.BigOperators.Group.Finset
import Mathlib.Tactic.Linarith

/-! # The permutation loop of the radix sort

The array is seen with the local copy written back to its slot, so that every swap
of the chain exchanges two whole slots. Bin `d` owns the positions from the number
of smaller digits on; `Placed` says that each bin is filled from its start.
-/
namespace ElfIndex.SortingEngine

/-- The number of slots whose digit is below `i`, which is where bin `i` starts. -/
def below (g : TID → ℕ) (data : List TID) (i : ℕ) : ℕ := data.countP fun t => decide (g t < i)

variable {g : TID → ℕ} {data0 data a : List TID} {endB : Bins}

@[simp] theorem below_zero : below g data 0 = 0 := by simp [below]

theorem below_succ (g : TID → ℕ) (data : List TID) (i : ℕ) :
    below g data (i+1) = below g data i+data.countP fun t => decide (g t = i) := by
  induction data with
  | nil => rfl
  | cons t data ih =>
    simp only [below,List.countP_cons,decide_eq_true_eq] at ih ⊢
    rw [ih]
    rcases Nat.lt_trichotomy (g t) i with h | h | h
    · rw [if_pos (by omega),if_pos h,if_neg (by omega)]
      omega
    · rw [if_pos (by omega),if_neg (by omega),if_pos h]
      omega
    · rw [if_neg (by omega),if_neg (by omega),if_neg (by omega)]
      omega

theorem below_mono (g : TID → ℕ) (data : List TID) {i j : ℕ} (h : i ≤ j) :
    below g data i ≤ below g data j := by
  induction j, h using Nat.le_induction with
  | base => exact le_rfl
  | succ j _ ih => rw [below_succ]; omega

theorem below_numberOfBins (hg : ∀ t, g t < numberOfBins) :
    below g data numberOfBins = data.length := by
  rw [below,List.countP_eq_length]
  intro t _
  simpa using hg t

theorem below_perm {data' : List TID} (hp : data'.Perm data) (i : ℕ) :
    below g data' i = below g data i := hp.countP_eq _

/-- Two bins that own the same position are the same bin. -/
theorem bin_unique {b d p : ℕ} (hb : below g data b ≤ p) (hb' : p < below g data (b+1))
    (hd : below g data d ≤ p) (hd' : p < below g data (d+1)) : b = d := by
  rcases Nat.lt_trichotomy b d with h | h | h
  · have := below_mono g data (show b+1 ≤ d from h)
    omega
  · exact h
  · have := below_mono g data (show d+1 ≤ b from h)
    omega

/-- Each bin is filled from its start up to its end counter. -/
structure Placed (g : TID → ℕ) (data0 a : List TID) (endB : Bins) : Prop where
  perm : a.Perm data0
  lower : ∀ d < numberOfBins, below g data0 d ≤ endB d
  upper : ∀ d < numberOfBins, endB d ≤ below g data0 (d+1)
  placed : ∀ d < numberOfBins, ∀ p t, below g data0 d ≤ p → p < endB d → a[p]? = some t → g t = d

/-- A bin with an element outside its filled part still has room. -/
theorem Placed.room (h : Placed g data0 a endB) {d p : ℕ} {t : TID} (hd : d < numberOfBins)
    (ht : a[p]? = some t) (hg : g t = d) (hout : ¬ (below g data0 d ≤ p ∧ p < endB d)) :
    endB d < below g data0 (d+1) := by
  apply Nat.lt_of_le_of_ne (h.upper d hd)
  intro hfull
  let s := below g data0 d
  let k := endB d-s
  have hs : s ≤ endB d := h.lower d hd
  have hlen : endB d ≤ a.length := by
    rw [hfull,← below_perm h.perm]
    exact List.countP_le_length
  have hcount : a.countP (fun t => decide (g t = d)) = k := by
    have h1 := below_succ g a d
    rw [below_perm h.perm,below_perm h.perm] at h1
    omega
  have hsplit : a = a.take s ++ ((a.drop s).take k ++ a.drop (endB d)) := by
    have h1 : a.drop (endB d) = (a.drop s).drop k := by
      rw [List.drop_drop]
      congr 1
      omega
    rw [h1,List.take_append_drop,List.take_append_drop]
  have hslice : ((a.drop s).take k).countP (fun t => decide (g t = d)) = k := by
    have hl : ((a.drop s).take k).length = k := by
      rw [List.length_take,List.length_drop]
      omega
    refine (List.countP_eq_length.mpr ?_).trans hl
    intro u hu
    obtain ⟨i,hi,rfl⟩ := List.mem_iff_getElem.mp hu
    rw [hl] at hi
    have hget : a[s+i]? = some ((a.drop s).take k)[i] := by
      rw [List.getElem_take,List.getElem_drop]
      exact List.getElem?_eq_getElem _
    simpa using h.placed d hd (s+i) _ (by omega) (by omega) hget
  have hmem : t ∈ a.take s ∨ t ∈ a.drop (endB d) := by
    obtain ⟨hp,rfl⟩ := List.getElem?_eq_some_iff.mp ht
    by_cases hps : p < s
    · left
      rw [List.mem_take_iff_getElem]
      exact ⟨p,by omega,rfl⟩
    · right
      rw [List.mem_drop_iff_getElem]
      refine ⟨p-endB d,by omega,?_⟩
      congr 1
      omega
  have hpos : 0 < (a.take s).countP (fun t => decide (g t = d)) +
      (a.drop (endB d)).countP (fun t => decide (g t = d)) := by
    have hdec : decide (g t = d) = true := decide_eq_true hg
    rcases hmem with hm | hm
    · exact Nat.add_pos_left (List.countP_pos_iff.mpr ⟨t,hm,hdec⟩) _
    · exact Nat.add_pos_right _ (List.countP_pos_iff.mpr ⟨t,hm,hdec⟩)
  rw [hsplit,List.countP_append,List.countP_append] at hcount
  omega

/-- Slot `current` is the first free position of bin `b`, and every smaller bin is full. -/
structure Frontier (g : TID → ℕ) (data0 : List TID) (endB : Bins) (current b : ℕ) : Prop where
  bin_lt : b < numberOfBins
  owns : current < below g data0 (b+1)
  free : endB b = current
  full : ∀ d < b, endB d = below g data0 (d+1)

theorem Placed.lower_inc (h : Placed g data0 a endB) (d : ℕ) :
    ∀ c < numberOfBins, below g data0 c ≤ Function.update endB d (endB d+1) c := by
  intro c hc
  by_cases hcd : c = d
  · subst hcd
    rw [Function.update_self]
    exact (h.lower c hc).trans (Nat.le_succ _)
  · rw [Function.update_of_ne hcd]
    exact h.lower c hc

theorem Placed.upper_inc (h : Placed g data0 a endB) {d : ℕ}
    (hroom : endB d < below g data0 (d+1)) :
    ∀ c < numberOfBins, Function.update endB d (endB d+1) c ≤ below g data0 (c+1) := by
  intro c hc
  by_cases hcd : c = d
  · subst hcd
    rw [Function.update_self]
    exact hroom
  · rw [Function.update_of_ne hcd]
    exact h.upper c hc

theorem Placed.owns (h : Placed g data0 a endB) {current b : ℕ}
    (hf : Frontier g data0 endB current b) : below g data0 b ≤ current :=
  hf.free ▸ h.lower b hf.bin_lt

/-- The bin of the current element has room when it does not end at the current position. -/
theorem Placed.room_of_ne (h : Placed g data0 a endB) {current b d : ℕ} {t : TID}
    (hf : Frontier g data0 endB current b) (ht : a[current]? = some t) (hg : g t = d)
    (hd : d < numberOfBins) (hne : endB d ≠ current) : endB d < below g data0 (d+1) := by
  apply h.room hd ht hg
  rintro ⟨h1,h2⟩
  have hdb := bin_unique h1 (h2.trans_le (h.upper d hd)) (h.owns hf) hf.owns
  exact hne (hdb ▸ hf.free)

/-- Placing the current element at the end counter of another bin swaps two slots. -/
theorem Placed.swap (h : Placed g data0 a endB) {current b d : ℕ} {t u : TID}
    (hf : Frontier g data0 endB current b) (ht : a[current]? = some t) (hg : g t = d)
    (hd : d < numberOfBins) (hne : endB d ≠ current) (hu : a[endB d]? = some u) :
    Placed g data0 ((a.set current u).set (endB d) t) (Function.update endB d (endB d+1)) ∧
    Frontier g data0 (Function.update endB d (endB d+1)) current b := by
  have hroom := h.room_of_ne hf ht hg hd hne
  have hdb : d ≠ b := by
    rintro rfl
    exact hne hf.free
  obtain ⟨hcl,hct⟩ := List.getElem?_eq_some_iff.mp ht
  obtain ⟨hel,heu⟩ := List.getElem?_eq_some_iff.mp hu
  refine ⟨⟨?_,h.lower_inc d,h.upper_inc hroom,?_⟩,⟨hf.bin_lt,hf.owns,?_,?_⟩⟩
  · rw [← hct,← heu]
    exact (List.set_set_perm hcl hel).trans h.perm
  · intro c hc p w hp hpe hw
    by_cases hpd : p = endB d
    · subst hpd
      rw [List.getElem?_set_self (by rw [List.length_set]; exact hel)] at hw
      obtain rfl := Option.some.inj hw
      have hle := hpe.trans_le (h.upper_inc hroom c hc)
      rw [hg]
      exact (bin_unique hp hle (h.lower d hd) hroom).symm
    · have hpe' : p < endB c := by
        by_cases hcd : c = d
        · subst hcd
          rw [Function.update_self] at hpe
          omega
        · rwa [Function.update_of_ne hcd] at hpe
      have hpc : p ≠ current := by
        rintro rfl
        have := bin_unique hp (hpe'.trans_le (h.upper c hc)) (h.owns hf) hf.owns
        subst this
        exact absurd hf.free (by omega)
      rw [List.getElem?_set_ne (Ne.symm hpd),List.getElem?_set_ne (Ne.symm hpc)] at hw
      exact h.placed c hc p w hp hpe' hw
  · rw [Function.update_of_ne (Ne.symm hdb)]
    exact hf.free
  · intro c hc
    by_cases hcd : c = d
    · subst hcd
      exact absurd (hf.full c hc) hroom.ne
    · rw [Function.update_of_ne hcd]
      exact hf.full c hc

/-- The chain ends exactly in the bin that owns the current position. -/
theorem Placed.digit_eq (h : Placed g data0 a endB) {current b d : ℕ} {t : TID}
    (hf : Frontier g data0 endB current b) (ht : a[current]? = some t) (hg : g t = d)
    (hd : d < numberOfBins) (he : endB d = current) : d = b := by
  have hroom := h.room hd ht hg (by omega)
  exact bin_unique (he ▸ h.lower d hd) (he ▸ hroom) (h.owns hf) hf.owns

/-- Leaving the element at its position grows the bin over it. -/
theorem Placed.leave (h : Placed g data0 a endB) {current b : ℕ} {t : TID}
    (hf : Frontier g data0 endB current b) (ht : a[current]? = some t) (hg : g t = b) :
    Placed g data0 a (Function.update endB b (current+1)) := by
  have hroom : endB b < below g data0 (b+1) := hf.free ▸ hf.owns
  have hend : current+1 = endB b+1 := by rw [hf.free]
  refine ⟨h.perm,hend ▸ h.lower_inc b,hend ▸ h.upper_inc hroom,?_⟩
  · intro c hc p w hp hpe hw
    by_cases hcb : c = b
    · subst hcb
      rw [Function.update_self] at hpe
      by_cases hpc : p = current
      · subst hpc
        rw [ht] at hw
        obtain rfl := Option.some.inj hw
        exact hg
      · exact h.placed c hc p w hp (by rw [hf.free]; omega) hw
    · rw [Function.update_of_ne hcb] at hpe
      exact h.placed c hc p w hp hpe hw

/-! ## The chain of swaps -/

/-- The free positions of all bins; each swap of a chain uses one of them. -/
def freeSlots (g : TID → ℕ) (data0 : List TID) (endB : Bins) : ℕ :=
  ∑ d ∈ Finset.range numberOfBins, (below g data0 (d+1)-endB d)

theorem Placed.freeSlots_le (h : Placed g data0 a endB) (hg : ∀ t, g t < numberOfBins) :
    freeSlots g data0 endB ≤ data0.length := by
  have hsum : ∑ d ∈ Finset.range numberOfBins, (below g data0 (d+1)-below g data0 d) =
      data0.length := by
    rw [Finset.sum_range_tsub (fun i j hij => below_mono g data0 hij),below_numberOfBins hg,
      below_zero,Nat.sub_zero]
  rw [← hsum]
  apply Finset.sum_le_sum
  intro d hd
  have := h.lower d (Finset.mem_range.mp hd)
  omega

theorem freeSlots_inc {d : ℕ} (hd : d < numberOfBins) (hroom : endB d < below g data0 (d+1)) :
    freeSlots g data0 (Function.update endB d (endB d+1)) < freeSlots g data0 endB := by
  refine Finset.sum_lt_sum ?_ ⟨d,Finset.mem_range.mpr hd,?_⟩
  · intro c _
    by_cases hcd : c = d
    · subst hcd
      rw [Function.update_self]
      omega
    · rw [Function.update_of_ne hcd]
  · rw [Function.update_self]
    omega

theorem readBin_lt {bins : Bins} {pastEnd : Option ℕ} {i : ℕ} (h : i < numberOfBins) :
    readBin pastEnd bins i = some (bins i) := if_pos h

theorem incBin_lt {bins : Bins} {i : ℕ} (h : i < numberOfBins) :
    incBin bins i = some (Function.update bins i (bins i+1)) := if_pos h

variable {dim size mask shifter : ℕ} {pre : List ℕ}

/-- Between slots of one agreeing array `_swap` exchanges whole slots. -/
theorem swap_eq {x y : TID} (hx : x.value.length = size ∧ x.value.take dim = pre)
    (hy : y.value.length = size ∧ y.value.take dim = pre) : swap dim size x y = (y,x) := by
  rw [swap,store_load hx hy,store_load hy hx]

/-- The chain started at the frontier ends with an element of the frontier's bin. -/
theorem permuteCycle_spec (hg : ∀ t, digitOf dim mask shifter t < numberOfBins)
    (ha : Agree dim size pre data0) {current b : ℕ} (fuel : ℕ) (data : List TID) (endB : Bins)
    (tid : ℕ) (slot : TID) (hslot : data[current]? = some slot)
    (hp : Placed (digitOf dim mask shifter) data0 (data.set current ⟨tid,slot.value⟩) endB)
    (hf : Frontier (digitOf dim mask shifter) data0 endB current b)
    (hfuel : freeSlots (digitOf dim mask shifter) data0 endB < fuel) :
    ∃ data' endB' tid' slot',
      permuteCycle dim size mask shifter current fuel data endB tid =
        some (data',endB',tid',b) ∧
      data'[current]? = some slot' ∧
      Placed (digitOf dim mask shifter) data0 (data'.set current ⟨tid',slot'.value⟩) endB' ∧
      Frontier (digitOf dim mask shifter) data0 endB' current b ∧
      digitOf dim mask shifter ⟨tid',slot'.value⟩ = b := by
  induction fuel generalizing data endB tid slot with
  | zero => omega
  | succ fuel ih =>
    have hcur : current < data.length := (List.getElem?_eq_some_iff.mp hslot).1
    have hself : (data.set current ⟨tid,slot.value⟩)[current]? = some ⟨tid,slot.value⟩ :=
      List.getElem?_set_self hcur
    have hd := hg ⟨tid,slot.value⟩
    simp only [permuteCycle,hslot,Option.bind_eq_bind,Option.bind_some,readBin_lt hd]
    split
    · rename_i he
      have hb := hp.digit_eq hf hself rfl hd he
      exact ⟨data,endB,tid,slot,by rw [hb],hslot,hp,hf,hb⟩
    · rename_i hne
      have hroom := hp.room_of_ne hf hself rfl hd hne
      have hle : endB (digitOf dim mask shifter ⟨tid,slot.value⟩) < data.length := by
        apply hroom.trans_le
        have := hp.perm.length_eq
        rw [List.length_set] at this
        rw [this]
        exact List.countP_le_length
      set e := endB (digitOf dim mask shifter ⟨tid,slot.value⟩) with hedef
      have hu : (data.set current ⟨tid,slot.value⟩)[e]? = some data[e] := by
        rw [List.getElem?_set_ne (Ne.symm hne)]
        exact List.getElem?_eq_getElem hle
      obtain ⟨hp',hf'⟩ := hp.swap hf hself rfl hd hne hu
      have hall := ha.perm hp.perm
      have hx := hall _ (List.mem_of_getElem? hself)
      have hy := hall _ (List.mem_of_getElem? hu)
      simp only [List.getElem?_eq_getElem hle,Option.bind_some,incBin_lt hd,swap_eq hx hy,← hedef]
      refine ih _ _ _ ⟨slot.tid,data[e].value⟩ ?_ ?_ hf' ?_
      · rw [List.getElem?_set_ne hne,List.getElem?_set_self hcur]
      · rw [List.set_comm _ _ hne,List.set_set]
        rw [List.set_set] at hp'
        exact hp'
      · have := freeSlots_inc hd hroom
        rw [← hedef] at this
        omega

/-! ## Advancing the frontier -/

theorem predBin_eq {nb : ℕ} (h : 1 ≤ nb) (h' : nb ≤ numberOfBins) : predBin nb = nb-1 := by
  unfold predBin numberOfBins at *
  omega

theorem advanceStart_spec {start : Bins} {current w : ℕ}
    (hstart : ∀ i < numberOfBins, start i = below g data0 i) (fuel nb : ℕ)
    (hnb : nb ≤ numberOfBins) (hfuel : numberOfBins-nb < fuel)
    (hbelow : ∀ i < nb, below g data0 i ≤ current) :
    ∃ nb', advanceStart (some w) start current fuel nb = some nb' ∧ nb' ≤ numberOfBins ∧
      (∀ i < nb', below g data0 i ≤ current) ∧
      (nb' < numberOfBins → current < below g data0 nb') := by
  induction fuel generalizing nb with
  | zero => omega
  | succ fuel ih =>
    by_cases hlt : nb < numberOfBins
    · simp only [advanceStart,readBin_lt hlt,Option.bind_eq_bind,Option.bind_some,hstart nb hlt]
      split
      · rename_i hc
        apply ih (nb+1) hlt (by omega)
        intro i hi
        rcases Nat.lt_succ_iff_lt_or_eq.mp hi with hi | rfl
        · exact hbelow i hi
        · exact hc.1
      · rename_i hc
        exact ⟨nb,rfl,hnb,hbelow,fun _ => by omega⟩
    · have hread : readBin (some w) start nb = some w := if_neg hlt
      simp only [advanceStart,hread,Option.bind_eq_bind,Option.bind_some,hlt,and_false,if_false]
      exact ⟨nb,rfl,hnb,hbelow,fun h => absurd h hlt⟩

theorem advanceFull_spec {start : Bins} {w : ℕ}
    (hstart : ∀ i < numberOfBins, start i = below g data0 i) (fuel nb : ℕ) (hpos : 1 ≤ nb)
    (hnb : nb ≤ numberOfBins) (hfuel : numberOfBins-nb < fuel) :
    ∃ nb', advanceFull (some w) start endB fuel nb = some nb' ∧ nb ≤ nb' ∧ nb' ≤ numberOfBins ∧
      (∀ d, nb ≤ d+1 → d+1 < nb' → endB d = below g data0 (d+1)) ∧
      (nb' < numberOfBins → endB (nb'-1) ≠ below g data0 nb') := by
  induction fuel generalizing nb with
  | zero => omega
  | succ fuel ih =>
    have hpred : readBin none endB (predBin nb) = some (endB (nb-1)) := by
      rw [predBin_eq hpos hnb]
      exact readBin_lt (by omega)
    by_cases hlt : nb < numberOfBins
    · simp only [advanceFull,hpred,readBin_lt hlt,Option.bind_eq_bind,Option.bind_some,
        hstart nb hlt]
      split
      · rename_i hc
        obtain ⟨nb',heq,hle,hle',hfull,hstop⟩ := ih (nb+1) (by omega) hlt (by omega)
        refine ⟨nb',heq,by omega,hle',?_,hstop⟩
        intro d hd hd'
        rcases Nat.lt_or_ge nb (d+1) with h | h
        · exact hfull d h hd'
        · have hdn : d = nb-1 := by omega
          have hnd : nb = d+1 := by omega
          rw [hdn,hc.1,hnd,Nat.add_sub_cancel]
      · rename_i hc
        exact ⟨nb,rfl,le_rfl,hnb,fun d _ _ => by omega,fun _ h => hc ⟨h,hlt⟩⟩
    · have hread : readBin (some w) start nb = some w := if_neg hlt
      simp only [advanceFull,hpred,hread,Option.bind_eq_bind,Option.bind_some,hlt,and_false,
        if_false]
      exact ⟨nb,rfl,le_rfl,hnb,fun d _ _ => by omega,fun h => absurd h hlt⟩

/-- Bin 0 starts at the first position, so the first loop passes it. -/
theorem advance_pos {current nb : ℕ} (hstop : nb < numberOfBins → current < below g data0 nb) :
    1 ≤ nb := by
  rcases Nat.eq_zero_or_pos nb with h0 | h1
  · subst h0
    have := hstop (by decide)
    rw [below_zero] at this
    omega
  · exact h1

/-- When bin `b` ends behind the current position, every bin that ends by then is full. -/
theorem Placed.full_before (h : Placed g data0 a endB) {current b nb : ℕ}
    (hend : endB b = current+1) (hb : b < numberOfBins)
    (hfull : ∀ d < b, endB d = below g data0 (d+1)) (hnb : nb ≤ numberOfBins)
    (hbelow : ∀ i < nb, below g data0 i ≤ current+1) :
    ∀ d, d+1 < nb → endB d = below g data0 (d+1) := by
  have hbs := h.upper b hb
  intro d hd
  have h1 := hbelow (d+1) hd
  rcases Nat.lt_trichotomy d b with hdb | rfl | hdb
  · exact hfull d hdb
  · omega
  · have h2 := below_mono g data0 (show b+1 ≤ d from hdb)
    have h3 := h.lower d (by omega)
    have h4 := h.upper d (by omega)
    have h5 := below_mono g data0 (show d ≤ d+1 by omega)
    omega

/-- After an element is left in bin `b`, the two loops stop at a bin whose end counter
is the next free position, or behind the last bin with every bin full. -/
theorem Placed.advance (h : Placed g data0 a endB) {current b nb nb' : ℕ} (hb : b < numberOfBins)
    (hg : ∀ t, g t < numberOfBins)
    (hend : endB b = current+1) (hfull : ∀ d < b, endB d = below g data0 (d+1))
    (hnb : nb ≤ numberOfBins) (hbelow : ∀ i < nb, below g data0 i ≤ current+1)
    (hstop : nb < numberOfBins → current+1 < below g data0 nb) (hle : nb ≤ nb')
    (hnb' : nb' ≤ numberOfBins)
    (hfull' : ∀ d, nb ≤ d+1 → d+1 < nb' → endB d = below g data0 (d+1))
    (hstop' : nb' < numberOfBins → endB (nb'-1) ≠ below g data0 nb') :
    current+1 ≤ endB (nb'-1) ∧ (∀ i < nb', below g data0 i ≤ endB (nb'-1)) ∧
    (Frontier g data0 endB (endB (nb'-1)) (nb'-1) ∨
      endB (nb'-1) = data0.length ∧ ∀ d < numberOfBins, endB d = below g data0 (d+1)) := by
  have hpos := advance_pos hstop
  have hbnb : b < nb := by
    by_contra hc
    have h1 := hstop (by omega)
    have h2 := h.lower b hb
    have h3 := below_mono g data0 (show nb ≤ b by omega)
    omega
  have hall : ∀ d, d+1 < nb' → endB d = below g data0 (d+1) := by
    intro d hd
    rcases Nat.lt_or_ge (d+1) nb with hdn | hdn
    · exact h.full_before hend hb hfull hnb hbelow d hdn
    · exact hfull' d hdn hd
  have hcur : current+1 ≤ endB (nb'-1) := by
    rcases Nat.eq_or_lt_of_le hle with heq | hlt
    · subst heq
      rcases Nat.eq_or_lt_of_le (show b ≤ nb-1 by omega) with hbeq | hblt
      · rw [← hbeq,hend]
      · have h0 := h.upper b hb
        have h1 := below_mono g data0 (show b+1 ≤ nb-1 from hblt)
        have h2 := h.lower (nb-1) (by omega)
        omega
    · have h1 := hstop (by omega)
      have h2 := below_mono g data0 (show nb ≤ nb'-1 by omega)
      have h3 := h.lower (nb'-1) (by omega)
      omega
  have hlow : ∀ i < nb', below g data0 i ≤ endB (nb'-1) := by
    intro i hi
    exact (below_mono g data0 (show i ≤ nb'-1 by omega)).trans (h.lower (nb'-1) (by omega))
  refine ⟨hcur,hlow,?_⟩
  have hsucc : nb'-1+1 = nb' := by omega
  rcases Nat.eq_or_lt_of_le (h.upper (nb'-1) (by omega)) with heq | hlt
  · right
    rw [hsucc] at heq
    have hnbn : nb' = numberOfBins := by
      by_contra hne
      exact hstop' (by omega) heq
    subst hnbn
    refine ⟨by rw [heq,below_numberOfBins hg],?_⟩
    intro d hd
    rcases Nat.lt_or_ge (d+1) numberOfBins with hdn | hdn
    · exact hall d hdn
    · have hdl : d = numberOfBins-1 := by omega
      rw [hdl,heq,hsucc]
  · left
    exact ⟨by omega,hlt,rfl,fun d hd => hall d (by omega)⟩

/-! ## The whole loop -/

theorem permute_done {pastEnd : Option ℕ} {last fuel current nb : ℕ} {start : Bins}
    (h : last < current) :
    permute pastEnd dim size mask shifter last start (fuel+1) data endB current nb =
      some (data,endB) := by
  simp only [permute,Nat.not_le.mpr h,if_false]

/-- One turn of the loop, whatever the reads behind the table of bin starts yield: the chain
ends in the bin of the frontier, which then covers the current slot. -/
theorem permute_turn {last : ℕ} (start : Bins)
    (hg : ∀ t, digitOf dim mask shifter t < numberOfBins) (ha : Agree dim size pre data0)
    (hlast : data0.length = last+1) (fuel : ℕ) {data : List TID} {endB : Bins} {current b : ℕ}
    (nb : ℕ) (hp : Placed (digitOf dim mask shifter) data0 data endB)
    (hf : Frontier (digitOf dim mask shifter) data0 endB current b) :
    ∃ out outB, Placed (digitOf dim mask shifter) data0 out outB ∧ outB b = current+1 ∧
      (∀ d < b, outB d = below (digitOf dim mask shifter) data0 (d+1)) ∧
      ∀ pastEnd, permute pastEnd dim size mask shifter last start (fuel+1) data endB current nb =
        (advanceStart pastEnd start (current+1) (numberOfBins+1) nb).bind fun nb1 =>
          (advanceFull pastEnd start outB (numberOfBins+1) nb1).bind fun nb2 =>
            (readBin none outB (predBin nb2)).bind fun e =>
              permute pastEnd dim size mask shifter last start fuel out outB
                (if current+1 < e then e else current+1) nb2 := by
  have hcur : current < data.length := by
    rw [hp.perm.length_eq]
    exact hf.owns.trans_le List.countP_le_length
  have hle : current ≤ last := by
    have := hp.perm.length_eq
    omega
  obtain ⟨slot,hslot⟩ : ∃ slot, data[current]? = some slot := ⟨_,List.getElem?_eq_getElem hcur⟩
  have hset : data.set current ⟨slot.tid,slot.value⟩ = data := by
    rw [← (List.getElem?_eq_some_iff.mp hslot).2]
    exact List.set_getElem_self hcur
  have hfree : freeSlots (digitOf dim mask shifter) data0 endB < last+2 :=
    (hp.freeSlots_le hg).trans_lt (by rw [hlast]; exact Nat.lt_succ_self _)
  obtain ⟨data',endB',tid',slot',hcyc,hslot',hp',hf',hdigit⟩ :=
    permuteCycle_spec hg ha (last+2) data endB slot.tid slot hslot (hset.symm ▸ hp) hf hfree
  have hcur' : current < data'.length := (List.getElem?_eq_some_iff.mp hslot').1
  refine ⟨_,_,hp'.leave hf' (List.getElem?_set_self hcur') hdigit,Function.update_self ..,?_,?_⟩
  · intro d hd
    rw [Function.update_of_ne (by omega)]
    exact hf'.full d hd
  · intro pastEnd
    -- the kernel must not compare the two 257-step loops by evaluation
    simp -implicitDefEqProofs only [permute,hle,if_true,hslot,Option.bind_eq_bind,
      Option.bind_some,hcyc,hslot',incBin_lt hf.bin_lt,hf'.free]

/-- The two loops of a turn stop at the bin of the next free position, or behind the last
bin with every bin full. -/
theorem Placed.advance_turn {w : ℕ} {start : Bins} (h : Placed g data0 a endB)
    (hg : ∀ t, g t < numberOfBins) (hstart : ∀ i < numberOfBins, start i = below g data0 i)
    {current b nb : ℕ} (hb : b < numberOfBins) (hend : endB b = current+1)
    (hfull : ∀ d < b, endB d = below g data0 (d+1)) (hnb : nb ≤ numberOfBins)
    (hbelow : ∀ i < nb, below g data0 i ≤ current+1) :
    ∃ nb1 nb2, advanceStart (some w) start (current+1) (numberOfBins+1) nb = some nb1 ∧
      advanceFull (some w) start endB (numberOfBins+1) nb1 = some nb2 ∧ nb2 ≤ numberOfBins ∧
      readBin none endB (predBin nb2) = some (endB (nb2-1)) ∧ current+1 ≤ endB (nb2-1) ∧
      (∀ i < nb2, below g data0 i ≤ endB (nb2-1)) ∧
      (Frontier g data0 endB (endB (nb2-1)) (nb2-1) ∨
        nb2 = numberOfBins ∧ endB (nb2-1) = data0.length ∧
          ∀ d < numberOfBins, endB d = below g data0 (d+1)) := by
  obtain ⟨nb1,hnb1,hnb1le,hbelow1,hstop1⟩ := advanceStart_spec (w:=w) hstart (numberOfBins+1) nb
    hnb (by omega) hbelow
  have hpos := advance_pos hstop1
  obtain ⟨nb2,hnb2,hle2,hnb2le,hfull2,hstop2⟩ := advanceFull_spec (w:=w)
    hstart (numberOfBins+1) nb1 hpos hnb1le (by omega)
  obtain ⟨hge,hlow,hnext⟩ := h.advance hb hg hend hfull hnb1le hbelow1 hstop1
    hle2 hnb2le hfull2 hstop2
  have hread : readBin none endB (predBin nb2) = some (endB (nb2-1)) := by
    rw [predBin_eq (by omega) hnb2le]
    exact readBin_lt (by omega)
  refine ⟨nb1,nb2,hnb1,hnb2,hnb2le,hread,hge,hlow,hnext.imp_right fun hdone => ⟨?_,hdone⟩⟩
  by_contra hne
  have hlt : nb2 < numberOfBins := Nat.lt_of_le_of_ne hnb2le hne
  have hsucc : nb2-1+1 = nb2 := by omega
  exact hstop2 hlt (hsucc ▸ hdone.2 (nb2-1) (by omega))

/-- From a frontier the loop fills every bin, whatever the read behind the table of
bin starts yields. -/
theorem permute_run {w last : ℕ} {start : Bins}
    (hg : ∀ t, digitOf dim mask shifter t < numberOfBins) (ha : Agree dim size pre data0)
    (hlast : data0.length = last+1)
    (hstart : ∀ i < numberOfBins, start i = below (digitOf dim mask shifter) data0 i)
    (fuel : ℕ) (data : List TID) (endB : Bins) (current nb b : ℕ)
    (hp : Placed (digitOf dim mask shifter) data0 data endB)
    (hf : Frontier (digitOf dim mask shifter) data0 endB current b) (hnb : nb ≤ numberOfBins)
    (hbelow : ∀ i < nb, below (digitOf dim mask shifter) data0 i ≤ current)
    (hfuel : data0.length < fuel+current) :
    ∃ out outB, permute (some w) dim size mask shifter last start fuel data endB current nb =
        some (out,outB) ∧ Placed (digitOf dim mask shifter) data0 out outB ∧
      ∀ d < numberOfBins, outB d = below (digitOf dim mask shifter) data0 (d+1) := by
  induction fuel generalizing data endB current nb b with
  | zero =>
    have hcount : below (digitOf dim mask shifter) data0 (b+1) ≤ data0.length :=
      List.countP_le_length
    have := hf.owns
    omega
  | succ fuel ih =>
    obtain ⟨out,outB,hleave,hend,hfull,hturn⟩ := permute_turn start hg ha hlast fuel nb hp hf
    obtain ⟨nb1,nb2,hnb1,hnb2,hnb2le,hread,hge,hlow,hnext⟩ := hleave.advance_turn (w:=w) hg hstart
      hf.bin_lt hend hfull hnb fun i hi => (hbelow i hi).trans (Nat.le_succ _)
    have hmax : (if current+1 < outB (nb2-1) then outB (nb2-1) else current+1) =
        outB (nb2-1) := by
      split
      · rfl
      · omega
    rw [hturn,hnb1,Option.bind_some,hnb2,Option.bind_some,hread,Option.bind_some,hmax]
    rcases hnext with hnext | ⟨-,hdone,hall⟩
    · exact ih _ _ _ nb2 (nb2-1) hleave hnext hnb2le hlow (by omega)
    · cases fuel with
      | zero => omega
      | succ fuel =>
        rw [permute_done (by omega)]
        exact ⟨_,_,rfl,hleave,hall⟩

/-- The bin starts are end counters of empty bins, with slot 0 at the frontier. -/
theorem permute_start {last : ℕ} {start : Bins} (hg : ∀ t, g t < numberOfBins)
    (hlast : data0.length = last+1) (hstart : ∀ i < numberOfBins, start i = below g data0 i) :
    ∃ b, Placed g data0 data0 start ∧ Frontier g data0 start 0 b := by
  have hex : ∃ i, 0 < below g data0 i := ⟨numberOfBins,by rw [below_numberOfBins hg]; omega⟩
  classical
  let i := Nat.find hex
  have hi : 0 < below g data0 i := Nat.find_spec hex
  have hmin : ∀ j < i, below g data0 j = 0 := by
    intro j hj
    have := Nat.find_min hex hj
    omega
  have hipos : 1 ≤ i := by
    rcases Nat.eq_zero_or_pos i with h0 | h1
    · rw [h0,below_zero] at hi
      omega
    · exact h1
  have hile : i ≤ numberOfBins := Nat.find_min' hex (by rw [below_numberOfBins hg]; omega)
  have hsucc : i-1+1 = i := by omega
  refine ⟨i-1,⟨List.Perm.refl _,fun d hd => (hstart d hd).ge,?_,?_⟩,⟨by omega,by rwa [hsucc],?_,?_⟩⟩
  · intro d hd
    rw [hstart d hd]
    exact below_mono _ _ (Nat.le_succ d)
  · intro d hd p t hp hpe _
    rw [hstart d hd] at hpe
    omega
  · rw [hstart _ (by omega)]
    exact hmin _ (by omega)
  · intro d hd
    rw [hstart d (by omega),hmin d (by omega),hmin (d+1) (by omega)]

/-- The loop started at slot 0 moves every slot into its bin. -/
theorem permute_spec {w last : ℕ} {start : Bins}
    (hg : ∀ t, digitOf dim mask shifter t < numberOfBins) (ha : Agree dim size pre data0)
    (hlast : data0.length = last+1)
    (hstart : ∀ i < numberOfBins, start i = below (digitOf dim mask shifter) data0 i) :
    ∃ out outB, permute (some w) dim size mask shifter last start (last+2) data0 start 0 0 =
        some (out,outB) ∧ Placed (digitOf dim mask shifter) data0 out outB ∧
      ∀ d < numberOfBins, outB d = below (digitOf dim mask shifter) data0 (d+1) := by
  obtain ⟨b,hplaced,hfront⟩ := permute_start hg hlast hstart
  exact permute_run hg ha hlast hstart (last+2) data0 start 0 0 b hplaced hfront
    (Nat.zero_le _) (fun _ h => by omega) (by omega)

end ElfIndex.SortingEngine
