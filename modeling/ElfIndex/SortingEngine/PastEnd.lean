import ElfIndex.Lib.Related
import ElfIndex.SortingEngine.Digits

/-! # The read behind the table of bin starts

The two loops of the permutation compare with `startOfBin[nextBin]` before they test
`nextBin < NumberOfBins`. Every pass moves `nextBin` behind the last bin, so every pass reads
one word behind the table. All other accesses are inside, for any rows.
-/
namespace ElfIndex.SortingEngine

/-! ## Rows that do not agree -/

section view

variable {dim size : ℕ}

/-- A slot and what the sort sees of it: the columns from `dim` on. -/
def Viewed (dim size : ℕ) (t u : TID) : Prop := size ≤ t.value.length ∧ u = t.load dim size

theorem load_length {t : TID} (h : size ≤ t.value.length) :
    (t.load dim size).value.length = size-dim := by
  rw [TID.load,List.length_take,List.length_drop]
  exact Nat.min_eq_left (Nat.sub_le_sub_right h dim)

theorem load_store {dst save : TID} (hdim : dim < size) (hdst : size ≤ dst.value.length)
    (hsave : save.value.length = size-dim) : (dst.store dim size save).load dim size = save := by
  have hpre : (dst.value.take dim).length = dim := by
    rw [List.length_take]
    exact Nat.min_eq_left (hdim.le.trans hdst)
  simp only [TID.load,TID.store,List.append_assoc,List.take_of_length_le hsave.le]
  rw [List.drop_left' hpre,List.take_left' hsave]

theorem store_zero {dst save : TID} {n : ℕ} (hdst : dst.value.length = n)
    (hsave : save.value.length = n) : dst.store 0 n save = save := by
  simp only [TID.store,List.take_zero,List.nil_append,Nat.sub_zero,
    List.take_of_length_le hsave.le,List.drop_eq_nil_of_le hdst.le,List.append_nil]

theorem load_zero {t : TID} {n : ℕ} (h : t.value.length = n) : t.load 0 n = t := by
  simp only [TID.load,List.drop_zero,Nat.sub_zero,List.take_of_length_le h.le]

theorem store_length {dst save : TID} (hdim : dim < size) (hdst : size ≤ dst.value.length)
    (hsave : save.value.length = size-dim) : size ≤ (dst.store dim size save).value.length := by
  simp only [TID.store,List.length_append,List.length_take,List.length_drop]
  omega

variable {t u t' u' : TID}

theorem Viewed.key (h : Viewed dim size t u) (hdim : dim < size) : u.key 0 = t.key dim := by
  rw [h.2]
  exact load_head hdim

theorem Viewed.copy (hd : Viewed dim size t t') (hs : Viewed dim size u u') (hdim : dim < size) :
    Viewed dim size (t.store dim size (u.load dim size))
      (t'.store 0 (size-dim) (u'.load 0 (size-dim))) := by
  obtain ⟨ht,rfl⟩ := hd
  obtain ⟨hu,rfl⟩ := hs
  refine ⟨store_length hdim ht (load_length hu),?_⟩
  rw [load_zero (load_length hu),store_zero (load_length ht) (load_length hu),
    load_store hdim ht (load_length hu)]

theorem Viewed.digit (h : Viewed dim size t u) (hdim : dim < size) (mask shifter : ℕ) :
    digitOf 0 mask shifter u = digitOf dim mask shifter t := by
  rw [digitOf,digitOf,h.key hdim]

theorem Viewed.tid_eq (h : Viewed dim size t u) : u.tid = t.tid := by
  rw [h.2]
  rfl

/-- The identifier of a slot is no part of its row. -/
theorem Viewed.withTid (h : Viewed dim size t u) (tid : ℕ) :
    Viewed dim size ⟨tid,t.value⟩ ⟨tid,u.value⟩ := by
  refine ⟨h.1,?_⟩
  rw [h.2]
  rfl

variable {data data' : List TID}

theorem insertionShift_viewed (hdim : dim < size) (hx : Viewed dim size t u) (j : ℕ)
    (h : List.Forall₂ (Viewed dim size) data data') :
    Option.Rel (List.Forall₂ (Viewed dim size)) (insertionShift dim size (t.load dim size) j data)
      (insertionShift 0 (size-dim) (u.load 0 (size-dim)) j data') := by
  induction j generalizing data data' with
  | zero =>
    refine Related.bind (Related.getElem? h 0) ?_
    intro dst dst' hdst
    exact .some (Related.set h (hdst.copy hx hdim) 0)
  | succ j ih =>
    refine Related.bind (Related.getElem? h j) ?_
    intro prev prev' hprev
    refine Related.bind (Related.getElem? h (j+1)) ?_
    intro dst dst' hdst
    have hkey : (u.load 0 (size-dim)).value.getD 0 0 = (t.load dim size).value.getD 0 0 := by
      rw [load_head (Nat.sub_pos_of_lt hdim),load_head hdim,hx.key hdim]
    rw [hprev.key hdim,hkey]
    split
    · exact ih (Related.set h (hdst.copy hprev hdim) (j+1))
    · exact .some (Related.set h (hdst.copy hx hdim) (j+1))

theorem insertion_viewed (hdim : dim < size) (n : ℕ)
    (h : List.Forall₂ (Viewed dim size) data data') :
    Option.Rel (List.Forall₂ (Viewed dim size)) (insertion dim size n data)
      (insertion 0 (size-dim) n data') := by
  refine Related.foldlM _ (fun i _ data data' h => ?_) h
  exact Related.bind (Related.getElem? h i) fun cur cur' hcur => insertionShift_viewed hdim hcur i h

variable {mask shifter : ℕ}

theorem countDigits_viewed (hdim : dim < size) (h : List.Forall₂ (Viewed dim size) data data') :
    countDigits 0 mask shifter data' = countDigits dim mask shifter data := by
  suffices hfold : ∀ count, data'.foldlM
      (fun count t => incBin count (digitOf 0 mask shifter t)) count =
        data.foldlM (fun count t => incBin count (digitOf dim mask shifter t)) count from hfold _
  induction h with
  | nil => exact fun _ => rfl
  | cons ht _ ih =>
    intro count
    rw [List.foldlM_cons,List.foldlM_cons,ht.digit hdim]
    exact congrArg _ (funext ih)

/-- Both chains use the same counters and end with the same local copy. -/
theorem permuteCycle_viewed (hdim : dim < size) (current fuel : ℕ) (endB : Bins) (tid : ℕ)
    (h : List.Forall₂ (Viewed dim size) data data') :
    Option.Rel (fun x y => List.Forall₂ (Viewed dim size) x.1 y.1 ∧ x.2 = y.2)
      (permuteCycle dim size mask shifter current fuel data endB tid)
      (permuteCycle 0 (size-dim) mask shifter current fuel data' endB tid) := by
  induction fuel generalizing data data' endB tid with
  | zero => exact .none
  | succ fuel ih =>
    refine Related.bind (Related.getElem? h current) ?_
    intro slot slot' hslot
    dsimp only
    rw [(hslot.withTid tid).digit hdim]
    refine Related.bind_same _ ?_
    intro e
    split
    · exact .some ⟨h,rfl⟩
    · refine Related.bind (Related.getElem? h e) ?_
      intro b b' hb
      refine Related.bind_same _ ?_
      intro endB
      have hfirst : Viewed dim size (swap dim size ⟨tid,slot.value⟩ b).1
          (swap 0 (size-dim) ⟨tid,slot'.value⟩ b').1 := (hslot.withTid tid).copy hb hdim
      have hsecond : Viewed dim size (swap dim size ⟨tid,slot.value⟩ b).2
          (swap 0 (size-dim) ⟨tid,slot'.value⟩ b').2 := hb.copy (hslot.withTid tid) hdim
      rw [hfirst.tid_eq,hslot.tid_eq]
      exact ih endB _ (Related.set (Related.set h (hfirst.withTid slot.tid) current) hsecond e)

theorem permute_viewed (hdim : dim < size) (pastEnd : Option ℕ) (last fuel : ℕ)
    (start endB : Bins) (current nb : ℕ) (h : List.Forall₂ (Viewed dim size) data data') :
    Option.Rel (fun x y => List.Forall₂ (Viewed dim size) x.1 y.1 ∧ x.2 = y.2)
      (permute pastEnd dim size mask shifter last start fuel data endB current nb)
      (permute pastEnd 0 (size-dim) mask shifter last start fuel data' endB current nb) := by
  induction fuel generalizing data data' endB current nb with
  | zero => exact .none
  | succ fuel ih =>
    unfold permute
    split
    · refine Related.bind (Related.getElem? h current) ?_
      intro slot slot' hslot
      rw [hslot.tid_eq]
      refine Related.bind (permuteCycle_viewed hdim current (last+2) endB slot.tid h) ?_
      rintro ⟨data,rest⟩ ⟨data',rest'⟩ ⟨h,rfl⟩
      obtain ⟨endB,tid,digit⟩ := rest
      refine Related.bind (Related.getElem? h current) ?_
      intro slot slot' hslot
      refine Related.bind_same _ fun endB => ?_
      refine Related.bind_same _ fun nb => ?_
      refine Related.bind_same _ fun nb => ?_
      refine Related.bind_same _ fun e => ?_
      exact ih endB _ nb (Related.set h (hslot.withTid tid) current)
    · exact .some ⟨h,rfl⟩

theorem sortBin_viewed (hdim : dim < size) {rec rec' : List TID → Option (List TID)}
    (hrec : ∀ bin bin', List.Forall₂ (Viewed dim size) bin bin' →
      Option.Rel (List.Forall₂ (Viewed dim size)) (rec bin) (rec' bin'))
    (start endB : Bins) (i : ℕ) (h : List.Forall₂ (Viewed dim size) data data') :
    Option.Rel (List.Forall₂ (Viewed dim size)) (sortBin rec dim size start endB data i)
      (sortBin rec' 0 (size-dim) start endB data' i) := by
  have hbin := List.forall₂_take (endB i-start i) (List.forall₂_drop (start i) h)
  have hback : ∀ out out', List.Forall₂ (Viewed dim size) out out' →
      List.Forall₂ (Viewed dim size)
        (data.take (start i) ++ out ++ data.drop (start i+(endB i-start i)))
        (data'.take (start i) ++ out' ++ data'.drop (start i+(endB i-start i))) :=
    fun out out' hout => List.rel_append (List.rel_append (List.forall₂_take _ h) hout)
      (List.forall₂_drop _ h)
  unfold sortBin
  dsimp only
  split
  · exact Related.map (hrec _ _ hbin) hback
  · split
    · exact Related.map (insertion_viewed hdim _ hbin) hback
    · exact .some h

/-- The sort does not look at the columns before its own. -/
theorem radixSort_viewed (hdim : dim < size) (pastEnd : Option ℕ) (fuel mask shifter : ℕ)
    (h : List.Forall₂ (Viewed dim size) data data') :
    Option.Rel (List.Forall₂ (Viewed dim size)) (radixSort pastEnd dim size fuel mask shifter data)
      (radixSort pastEnd 0 (size-dim) fuel mask shifter data') := by
  induction fuel generalizing mask shifter data data' with
  | zero => exact .none
  | succ fuel ih =>
    unfold radixSort
    rw [countDigits_viewed hdim h,h.length_eq]
    refine Related.bind_same _ ?_
    intro count
    refine Related.bind (permute_viewed hdim pastEnd _ _ _ _ 0 0 h) ?_
    rintro ⟨data,endB⟩ ⟨data',endB'⟩ ⟨h,rfl⟩
    dsimp only
    split
    · exact Related.foldlM _ (fun i _ data data' h =>
        sortBin_viewed hdim (fun bin bin' hbin => ih _ _ hbin) _ _ i h) h
    · exact .some h

end view

/-! ## Every pass passes the last bin -/

variable {dim size mask shifter : ℕ} {pre : List ℕ}

/-- A loop that ends without the read behind the table stops before the last bin. -/
theorem advanceStart_inside {start : Bins} {current fuel nb nb' : ℕ}
    (h : advanceStart none start current fuel nb = some nb') (w : ℕ) :
    advanceStart (some w) start current fuel nb = some nb' ∧ nb' < numberOfBins := by
  induction fuel generalizing nb with
  | zero => cases h
  | succ fuel ih =>
    by_cases hnb : nb < numberOfBins
    · simp only [advanceStart,readBin_lt hnb,Option.bind_eq_bind,Option.bind_some] at h ⊢
      by_cases hcond : current ≥ start nb ∧ nb < numberOfBins
      · rw [if_pos hcond] at h ⊢
        exact ih h
      · rw [if_neg hcond] at h ⊢
        exact ⟨h,Option.some.inj h ▸ hnb⟩
    · rw [advanceStart,readBin,if_neg hnb] at h
      cases h

theorem advanceFull_inside {start endB : Bins} {fuel nb nb' : ℕ}
    (h : advanceFull none start endB fuel nb = some nb') (w : ℕ) :
    advanceFull (some w) start endB fuel nb = some nb' ∧ nb' < numberOfBins := by
  induction fuel generalizing nb with
  | zero => cases h
  | succ fuel ih =>
    rw [advanceFull] at h
    obtain ⟨e,he,h⟩ := Option.bind_eq_some_iff.mp h
    by_cases hnb : nb < numberOfBins
    · simp only [advanceFull,he,readBin_lt hnb,Option.bind_eq_bind,Option.bind_some] at h ⊢
      by_cases hcond : e = start nb ∧ nb < numberOfBins
      · rw [if_pos hcond] at h ⊢
        exact ih h
      · rw [if_neg hcond] at h ⊢
        exact ⟨h,Option.some.inj h ▸ hnb⟩
    · rw [readBin,if_neg hnb] at h
      cases h

/-- The loop does not end without a read behind the table: its last turn leaves no bin to
fill, and then `nextBin` is behind the last bin. -/
theorem permute_past {data0 : List TID} {last : ℕ} {start : Bins}
    (hg : ∀ t, digitOf dim mask shifter t < numberOfBins) (ha : Agree dim size pre data0)
    (hlast : data0.length = last+1)
    (hstart : ∀ i < numberOfBins, start i = below (digitOf dim mask shifter) data0 i)
    (fuel : ℕ) (data : List TID) (endB : Bins) (current nb b : ℕ)
    (hp : Placed (digitOf dim mask shifter) data0 data endB)
    (hf : Frontier (digitOf dim mask shifter) data0 endB current b) (hnb : nb ≤ numberOfBins)
    (hbelow : ∀ i < nb, below (digitOf dim mask shifter) data0 i ≤ current) :
    permute none dim size mask shifter last start fuel data endB current nb = none := by
  induction fuel generalizing data endB current nb b with
  | zero => rfl
  | succ fuel ih =>
    obtain ⟨out,outB,hleave,hend,hfull,hturn⟩ := permute_turn start hg ha hlast fuel nb hp hf
    obtain ⟨nb1,nb2,hnb1,hnb2,hnb2le,hread,hge,hlow,hnext⟩ := hleave.advance_turn (w:=0) hg hstart
      hf.bin_lt hend hfull hnb fun i hi => (hbelow i hi).trans (Nat.le_succ _)
    rw [hturn]
    cases hstart' : advanceStart none start (current+1) (numberOfBins+1) nb with
    | none => rfl
    | some m1 =>
      obtain rfl : nb1 = m1 :=
        Option.some.inj (hnb1.symm.trans (advanceStart_inside hstart' 0).1)
      rw [Option.bind_some]
      cases hfull' : advanceFull none start outB (numberOfBins+1) nb1 with
      | none => rfl
      | some m2 =>
        obtain ⟨hsame,hlt⟩ := advanceFull_inside hfull' 0
        obtain rfl : nb2 = m2 := Option.some.inj (hnb2.symm.trans hsame)
        have hmax : (if current+1 < outB (nb2-1) then outB (nb2-1) else current+1) =
            outB (nb2-1) := by
          split
          · rfl
          · omega
        rw [Option.bind_some,hread,Option.bind_some,hmax]
        rcases hnext with hnext | ⟨hnb2last,-,-⟩
        · exact ih _ _ _ nb2 (nb2-1) hleave hnext hnb2le hlow
        · exact absurd hnb2last hlt.ne

theorem radixSort_past (level fuel : ℕ) {data : List TID} (hne : data ≠ [])
    (ha : Agree dim size pre data) :
    radixSort none dim size fuel (levelMask level) (8*level) data = none := by
  cases fuel with
  | zero => rfl
  | succ fuel =>
    obtain ⟨count,hcount,hstart⟩ := countDigits_start dim level data
    have hlast : data.length = data.length-1+1 := by
      have := List.length_pos_iff.mpr hne
      omega
    obtain ⟨b,hplaced,hfront⟩ := permute_start (digitOf_level_lt level) hlast fun i _ => hstart i
    have hrun := permute_past (digitOf_level_lt level) ha hlast (fun i _ => hstart i)
      (data.length+1) data (startOfBin count) 0 0 b hplaced hfront (Nat.zero_le _)
      fun _ h => absurd h (Nat.not_lt_zero _)
    simp only [radixSort,hcount,Option.bind_eq_bind,Option.bind_some,hrun,Option.bind_none]

/-! ## The passes of a sort -/

/-- The masks and shifts that `radixSort` is called with, for limits of 31 bits. -/
inductive Reached : ℕ → ℕ → Prop
  | start {limit : ℕ} (h : limit < 2^31) :
    Reached ((numberOfBins-1) <<< smartShifter limit%2^32) (smartShifter limit)
  | bin {mask shifter : ℕ} (h : Reached mask shifter) (hmask : mask >>> log2OfNumberOfBins ≠ 0) :
    Reached (mask >>> log2OfNumberOfBins)
      (if shifter ≥ log2OfNumberOfBins then shifter-log2OfNumberOfBins else 0)

theorem Reached.level {mask shifter : ℕ} (h : Reached mask shifter) :
    ∃ level ≤ 3, mask = levelMask level ∧ shifter = 8*level := by
  induction h with
  | start h =>
    obtain ⟨level,hle,hshift,-⟩ := smartShifter_spec h
    exact ⟨level,hle,by rw [hshift,levelMask_start hle],hshift⟩
  | bin _ hmask ih =>
    obtain ⟨level,hle,rfl,rfl⟩ := ih
    rw [levelMask_shift] at hmask ⊢
    cases level with
    | zero => exact absurd rfl hmask
    | succ level => exact ⟨level,by omega,rfl,shifter_next level⟩

variable {data : List TID}

theorem viewed_map (hrows : ∀ t ∈ data, size ≤ t.value.length) :
    List.Forall₂ (Viewed dim size) data (data.map (TID.load dim size)) :=
  List.forall₂_map_right_iff.mpr (List.forall₂_same.mpr fun t ht => ⟨hrows t ht,rfl⟩)

theorem agree_map (hrows : ∀ t ∈ data, size ≤ t.value.length) :
    Agree 0 (size-dim) [] (data.map (TID.load dim size)) := by
  intro u hu
  obtain ⟨t,ht,rfl⟩ := List.mem_map.mp hu
  exact ⟨load_length (hrows t ht),List.take_zero⟩

theorem Reached.radixSort_none (h : Reached mask shifter) (fuel : ℕ) (hne : data ≠ [])
    (hdim : dim < size) (hrows : ∀ t ∈ data, size ≤ t.value.length) :
    radixSort none dim size fuel mask shifter data = none := by
  obtain ⟨level,-,rfl,rfl⟩ := h.level
  exact (Related.eq_none_iff (radixSort_viewed hdim none fuel _ _ (viewed_map hrows))).mpr
    (radixSort_past level fuel (mt List.map_eq_nil_iff.mp hne) (agree_map hrows))

theorem Reached.radixSort_some (h : Reached mask shifter) (w : ℕ) (hne : data ≠ [])
    (hdim : dim < size) (hrows : ∀ t ∈ data, size ≤ t.value.length) :
    ∃ out, radixSort (some w) dim size 4 mask shifter data = some out := by
  obtain ⟨level,hle,rfl,rfl⟩ := h.level
  obtain ⟨out,hout,-⟩ := radixSort_arranges (w:=w) (Nat.sub_pos_of_lt hdim) level 4 _
    (Nat.lt_succ_of_le hle) (mt List.map_eq_nil_iff.mp hne) (agree_map hrows)
  obtain ⟨out,hout,-⟩ := Related.exists_eq_some
    (radixSort_viewed hdim (some w) 4 _ _ (viewed_map hrows)) hout
  exact ⟨out,hout⟩

/-- The engine reads behind the table for every array that it does not leave to the
insertion sort. -/
theorem sort_inside_iff {valueRanges : ℕ → ℕ} (hrange : valueRanges dim < 2^31)
    (hdim : dim < size) (hrows : ∀ t ∈ data, size ≤ t.value.length) :
    (∃ out, sort none dim size valueRanges data = some out) ↔ data.length < introsortSwitch := by
  have hswitch : introsortSwitch = 100 := rfl
  by_cases hbig : introsortSwitch ≤ data.length
  · have hne : data ≠ [] := by
      rintro rfl
      cases hbig
    have hnone : sort none dim size valueRanges data = none := by
      rw [sort,if_neg (by omega),if_pos hbig]
      dsimp only
      split
      · exact (Reached.start hrange).radixSort_none 4 hne hdim hrows
      · rfl
    rw [hnone]
    constructor
    · rintro ⟨out,hout⟩
      cases hout
    · intro hsmall
      omega
  · refine ⟨fun _ => Nat.lt_of_not_le hbig,fun _ => ?_⟩
    by_cases hone : data.length < 2
    · exact ⟨data,if_pos hone⟩
    · rw [sort,if_neg hone,if_neg hbig]
      obtain ⟨out,hout,-⟩ := insertion_spec (Nat.sub_pos_of_lt hdim) (agree_map hrows)
      rw [List.length_map] at hout
      obtain ⟨out,hout,-⟩ := Related.exists_eq_some
        (insertion_viewed hdim data.length (viewed_map hrows)) hout
      exact ⟨out,hout⟩

/-- No pass stays inside the table of bin starts. With any word behind the table the pass
and its recursion end, so no other access is outside. -/
theorem radixSort_reads_past (hreached : Reached mask shifter) (hne : data ≠ [])
    (hdim : dim < size) (hrows : ∀ t ∈ data, size ≤ t.value.length) :
    (∀ fuel, radixSort none dim size fuel mask shifter data = none) ∧
      ∀ w, ∃ out, radixSort (some w) dim size 4 mask shifter data = some out :=
  ⟨fun fuel => hreached.radixSort_none fuel hne hdim hrows,
    fun w => hreached.radixSort_some w hne hdim hrows⟩

/-- A hundred keys in seven bins. -/
theorem radixSort_reads_past_bins :
    (∀ fuel, radixSort none 0 1 fuel 255 0 ((List.range 100).map fun i => ⟨i,[i%7]⟩) = none) ∧
      ∀ w, ∃ out, radixSort (some w) 0 1 4 255 0 ((List.range 100).map fun i => ⟨i,[i%7]⟩) =
        some out :=
  radixSort_reads_past (@Reached.start 6 (by decide)) (by decide) Nat.one_pos (by decide)

/-- A hundred equal keys: the run stops at the read behind the table, and ends with any word
there. -/
theorem sort_zeros_past :
    sort none 0 1 (fun _ => 0) (List.replicate 100 ⟨0,[0]⟩) = none ∧
      ∃ out, ∀ w, sort (some w) 0 1 (fun _ => 0) (List.replicate 100 ⟨0,[0]⟩) = some out := by
  have hrows : ∀ t ∈ List.replicate 100 (TID.mk 0 [0]), t.value.length = 1 ∧ t.value.take 0 = [] := by
    intro t ht
    rw [List.eq_of_mem_replicate ht]
    exact ⟨rfl,rfl⟩
  constructor
  · rw [← Option.not_isSome_iff_eq_none,Option.isSome_iff_exists,
      sort_inside_iff (by decide) Nat.one_pos fun t ht => (hrows t ht).1.ge,List.length_replicate]
    exact Nat.lt_irrefl _
  · obtain ⟨out,hout,-⟩ := @sort_arranges 0 1 [] (fun _ => 0) _ Nat.one_pos hrows (by decide)
    exact ⟨out,hout⟩

end ElfIndex.SortingEngine
