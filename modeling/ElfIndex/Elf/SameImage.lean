import ElfIndex.Elf.FrequencyWritten

/-! # The two builders write the same image

Both builders are run side by side. A group of several points is split by the next column
in both, and a group of one point is a mono list in both, whose closing word only the
sorting builder flags. What a group writes does not depend on the words that stand there
before, so the memories may differ outside of the list.
-/
namespace ElfIndex
open WordMemory SortingEngine Fuel

/-! ## Groups of the same slots -/

/-- The first group of ascending groups holds the slots of its value. -/
theorem Grouped.filter_head {dim : ℕ} {g : List TID} {gs : List (List TID)}
    (h : Grouped dim (g :: gs)) :
    ((g :: gs).flatten.filter fun s => decide (s.key dim = groupKey dim g)) = g ∧
      ((g :: gs).flatten.filter fun s => !decide (s.key dim = groupKey dim g)) = gs.flatten := by
  have hhead : ∀ s ∈ g, s.key dim = groupKey dim g := (h.group g List.mem_cons_self).2
  have hrest : ∀ s ∈ gs.flatten, ¬ s.key dim = groupKey dim g := by
    intro s hs heq
    obtain ⟨g',hg',hsg'⟩ := List.mem_flatten.mp hs
    have hkey := (h.group g' (List.mem_cons_of_mem g hg')).2 s hsg'
    have hlt := (List.pairwise_cons.mp h.increasing).1 g' hg'
    omega
  rw [List.flatten_cons,List.filter_append,List.filter_append]
  constructor
  · rw [List.filter_eq_self.mpr fun s hs => decide_eq_true (hhead s hs),
      List.filter_eq_nil_iff.mpr fun s hs => by simpa using hrest s hs,List.append_nil]
  · rw [List.filter_eq_nil_iff.mpr fun s hs => by simpa using hhead s hs,
      List.filter_eq_self.mpr fun s hs => by simpa using hrest s hs,List.nil_append]

theorem Grouped.groupKey_le {dim : ℕ} {g : List TID} {gs : List (List TID)}
    (h : Grouped dim (g :: gs)) : ∀ s ∈ (g :: gs).flatten, groupKey dim g ≤ s.key dim := by
  intro s hs
  obtain ⟨g',hg',hsg'⟩ := List.mem_flatten.mp hs
  rw [(h.group g' hg').2 s hsg']
  rcases List.mem_cons.mp hg' with rfl | hg'
  · exact le_rfl
  · exact ((List.pairwise_cons.mp h.increasing).1 g' hg').le

/-- Two groupings of the same slots have the same groups, up to the order inside of them. -/
theorem Grouped.forall₂_perm {dim : ℕ} {gs gs' : List (List TID)} (h : Grouped dim gs)
    (h' : Grouped dim gs') (hp : gs.flatten.Perm gs'.flatten) :
    List.Forall₂ (fun g g' => g.Perm g' ∧ groupKey dim g = groupKey dim g') gs gs' := by
  have hmem : ∀ {g : List TID} {gs : List (List TID)}, Grouped dim (g :: gs) →
      ∃ s ∈ (g :: gs).flatten, s.key dim = groupKey dim g := by
    intro g gs hg
    obtain ⟨hne,hkey⟩ := hg.group g List.mem_cons_self
    obtain ⟨s,rest,rfl⟩ := List.exists_cons_of_ne_nil hne
    exact ⟨s,by simp,hkey s List.mem_cons_self⟩
  induction gs generalizing gs' with
  | nil =>
    cases gs' with
    | nil => exact .nil
    | cons g' gs' =>
      obtain ⟨s,hs,_⟩ := hmem h'
      exact absurd (hp.mem_iff.mpr hs) List.not_mem_nil
  | cons g gs ih =>
    cases gs' with
    | nil =>
      obtain ⟨s,hs,_⟩ := hmem h
      exact absurd (hp.mem_iff.mp hs) List.not_mem_nil
    | cons g' gs' =>
      obtain ⟨s,hs,hsk⟩ := hmem h
      obtain ⟨s',hs',hsk'⟩ := hmem h'
      have h1 := h'.groupKey_le s (hp.mem_iff.mp hs)
      have h2 := h.groupKey_le s' (hp.mem_iff.mpr hs')
      have hkey : groupKey dim g = groupKey dim g' := by omega
      obtain ⟨hg,hgs⟩ := h.filter_head
      obtain ⟨hg',hgs'⟩ := h'.filter_head
      have hgp : g.Perm g' := by
        rw [← hg,← hg',hkey]
        exact hp.filter _
      have hgsp : gs.flatten.Perm gs'.flatten := by
        rw [← hgs,← hgs',hkey]
        exact hp.filter _
      exact .cons ⟨hgp,hkey⟩ (ih h.tail h'.tail hgsp)

/-- The values of groups with the same keys are the same words. -/
theorem Headers.same {dim : ℕ} {mem mem' : Memory} {pos : ℕ} {gs gs' : List (List TID)}
    (hkeys : List.Forall₂ (fun g g' => g.Perm g' ∧ groupKey dim g = groupKey dim g') gs gs')
    (h : Headers dim mem pos gs) (h' : Headers dim mem' pos gs') :
    ∀ k < gs.length, mem (pos+3*k) = mem' (pos+3*k) := by
  induction hkeys generalizing pos with
  | nil => exact fun k hk => absurd hk (Nat.not_lt_zero k)
  | @cons g g' gs gs' hg hrest ih =>
    intro k hk
    cases hrest with
    | nil =>
      obtain rfl : k = 0 := by simpa using hk
      rw [Headers] at h h'
      rw [Nat.mul_zero,Nat.add_zero,h,h',hg.2]
    | cons hg2 hrest =>
      cases k with
      | zero => rw [Nat.mul_zero,Nat.add_zero,h.1,h'.1,hg.2]
      | succ k =>
        have hpos : pos+3*(k+1) = pos+3+3*k := by omega
        rw [hpos]
        exact ih h.2 h'.2 k (by simpa using hk)

/-! ## Agreement up to closing words -/

/-- The mono list of `s` from dimension `dim` on stands at `pos`, its pointer at `ptr`. -/
structure MonoAt (numDim : ℕ) (s : TID) (dim ptr pos : ℕ) (mem : Memory) : Prop where
  pointer : Holds64 mem ptr (pos ||| lastEntryMask64)
  list : (DimTree.mono (s.value.drop dim) s.tid).StoredIn mem numDim pos
    (pos+(s.value.drop dim).length+1) dim pos

/-- The word at `p` closes a mono list that both memories hold, with its pointer, at addresses in
`words`. It is the tuple identifier in the first memory and the flagged one in the second. -/
def Closes (numDim : ℕ) (data : List TID) (words : Set ℕ) (mem mem' : Memory) (p : ℕ) : Prop :=
  ∃ s ∈ data, ∃ dim ptr pos, p = pos+(s.value.drop dim).length ∧
    (∀ q, q = ptr ∨ q = ptr+1 ∨ pos ≤ q ∧ q ≤ p → q ∈ words) ∧
    MonoAt numDim s dim ptr pos mem ∧ MonoAt numDim s dim ptr pos mem' ∧
    mem p = s.tid ∧ mem' p = s.tid ||| lastEntryMask

/-- The two memories hold the same words at `lo ≤ p < hi`, closing words apart. -/
def SameImage (numDim : ℕ) (data : List TID) (words : Set ℕ) (lo hi : ℕ) (mem mem' : Memory) :
    Prop :=
  ∀ p, lo ≤ p → p < hi → mem' p = mem p ∨ Closes numDim data words mem mem' p

/-- The words from `wp` to `wp'` and those of a pointer at `ptr`. -/
def groupWords (ptr wp wp' : ℕ) : Set ℕ := {q | q = ptr ∨ q = ptr+1 ∨ wp ≤ q ∧ q < wp'}

/-- The words from `wp` to `wp'`. -/
def listWords (wp wp' : ℕ) : Set ℕ := {q | wp ≤ q ∧ q < wp'}

variable {numDim dim lo hi ptr pos p : ℕ} {s : TID} {data data' : List TID} {words words' : Set ℕ}
  {mem mem' mem1 mem1' : Memory}

theorem MonoAt.congr (h : MonoAt numDim s dim ptr pos mem)
    (ha : ∀ q, q = ptr ∨ q = ptr+1 ∨ pos ≤ q ∧ q ≤ pos+(s.value.drop dim).length →
      mem1 q = mem q) : MonoAt numDim s dim ptr pos mem1 := by
  refine ⟨h.pointer.congr (ha ptr (Or.inl rfl)) (ha (ptr+1) (Or.inr (Or.inl rfl))),
    h.list.congr ?_⟩
  intro q h1 h2
  exact ha q (by omega)

theorem Closes.mono (h : Closes numDim data words mem mem' p) (hd : data ⊆ data')
    (hw : words ⊆ words') : Closes numDim data' words' mem mem' p := by
  obtain ⟨s,hs,dim,ptr,pos,hp,hin,hm,hm',ht,ht'⟩ := h
  exact ⟨s,hd hs,dim,ptr,pos,hp,fun q hq => hw (hin q hq),hm,hm',ht,ht'⟩

theorem Closes.congr (h : Closes numDim data words mem mem' p) (ha : ∀ q ∈ words, mem1 q = mem q)
    (ha' : ∀ q ∈ words, mem1' q = mem' q) : Closes numDim data words mem1 mem1' p := by
  obtain ⟨s,hs,dim,ptr,pos,rfl,hin,hm,hm',ht,ht'⟩ := h
  have hlast : pos+(s.value.drop dim).length ∈ words := hin _ (by omega)
  exact ⟨s,hs,dim,ptr,pos,rfl,hin,hm.congr fun q hq => ha q (hin q hq),
    hm'.congr fun q hq => ha' q (hin q hq),(ha _ hlast).trans ht,(ha' _ hlast).trans ht'⟩

theorem SameImage.mono (h : SameImage numDim data words lo hi mem mem') (hd : data ⊆ data')
    (hw : words ⊆ words') : SameImage numDim data' words' lo hi mem mem' := by
  intro p hl hh
  exact (h p hl hh).imp_right fun hcloses => hcloses.mono hd hw

theorem SameImage.congr (h : SameImage numDim data words lo hi mem mem')
    (ha : ∀ q ∈ words, mem1 q = mem q) (ha' : ∀ q ∈ words, mem1' q = mem' q)
    (hin : ∀ q, lo ≤ q → q < hi → q ∈ words) :
    SameImage numDim data words lo hi mem1 mem1' := by
  intro p hl hh
  rcases h p hl hh with heq | hcloses
  · left
    rw [ha p (hin p hl hh),ha' p (hin p hl hh),heq]
  · exact Or.inr (hcloses.congr ha ha')

/-- Neighbouring ranges. -/
theorem SameImage.append {mid : ℕ} (h : SameImage numDim data words lo mid mem mem')
    (h' : SameImage numDim data words mid hi mem mem') :
    SameImage numDim data words lo hi mem mem' := by
  intro p hl hh
  rcases Nat.lt_or_ge p mid with hlt | hge
  · exact h p hl hlt
  · exact h' p hge hh

theorem SameImage.of_eq (h : ∀ p, lo ≤ p → p < hi → mem' p = mem p) :
    SameImage numDim data words lo hi mem mem' := fun p hl hh => Or.inl (h p hl hh)

/-- What two builders write for a group with its pointer at `ptr`. -/
structure GroupAgrees (numDim : ℕ) (data : List TID) (ptr : ℕ) (mem mem' : Memory) (wp : ℕ)
    (out out' : Memory) (wp' : ℕ) : Prop where
  le : wp ≤ wp'
  frame : ∀ p, p ≠ ptr → p ≠ ptr+1 → (p < wp ∨ wp' ≤ p) → out p = mem p
  frame' : ∀ p, p ≠ ptr → p ≠ ptr+1 → (p < wp ∨ wp' ≤ p) → out' p = mem' p
  pointer : ∃ val, Holds64 out ptr val ∧ Holds64 out' ptr val
  same : SameImage numDim data (groupWords ptr wp wp') wp wp' out out'

/-- What two builders write for a dimension list at `wp`. -/
structure ListAgrees (numDim : ℕ) (data : List TID) (mem mem' : Memory) (wp : ℕ)
    (out out' : Memory) (wp' : ℕ) : Prop where
  le : wp ≤ wp'
  frame : ChangesOnly mem out wp wp'
  frame' : ChangesOnly mem' out' wp wp'
  same : SameImage numDim data (listWords wp wp') wp wp' out out'

/-- The loops over the entries of the same groups agree if their bodies do. -/
theorem forLists_agree {body body' : ListEntry → Memory → ℕ → Option (Memory × ℕ)}
    {gs gs' : List (List TID)}
    (hgs : List.Forall₂ (fun g g' => g.Perm g' ∧ groupKey dim g = groupKey dim g') gs gs')
    {begin wp : ℕ} (hdata : data.drop begin = gs.flatten) (hdata' : data'.drop begin = gs'.flatten)
    (hbody : ∀ g ∈ gs, ∀ g', g.Perm g' → ∀ ptr begin mem mem' wp,
      (data.drop begin).take g.length = g → (data'.drop begin).take g'.length = g' → ptr+2 ≤ wp →
      ∃ out out' wp', body ⟨ptr,begin,g.length⟩ mem wp = some (out,wp') ∧
        body' ⟨ptr,begin,g'.length⟩ mem' wp = some (out',wp') ∧
        GroupAgrees numDim g ptr mem mem' wp out out' wp')
    (hhead : ∀ k < gs.length, mem (pos+3*k) = mem' (pos+3*k)) (hwp : pos+3*gs.length ≤ wp) :
    ∃ out out' wp', forLists body (entriesFrom pos begin gs) mem wp = some (out,wp') ∧
      forLists body' (entriesFrom pos begin gs') mem' wp = some (out',wp') ∧ wp ≤ wp' ∧
      (∀ p, p < pos ∨ pos+3*gs.length ≤ p ∧ p < wp ∨ wp' ≤ p → out p = mem p) ∧
      (∀ p, p < pos ∨ pos+3*gs.length ≤ p ∧ p < wp ∨ wp' ≤ p → out' p = mem' p) ∧
      (∀ p, pos ≤ p → p < pos+3*gs.length → out' p = out p) ∧
      SameImage numDim gs.flatten (listWords pos wp') wp wp' out out' := by
  induction hgs generalizing begin pos wp mem mem' with
  | nil =>
    refine ⟨mem,mem',wp,rfl,rfl,le_rfl,fun _ _ => rfl,fun _ _ => rfl,?_,?_⟩
    · intro p h1 h2
      rw [List.length_nil] at h2
      omega
    · intro p h1 h2
      omega
  | @cons g g' gs gs' hg _ ih =>
    have htake : (data.drop begin).take g.length = g := take_front hdata
    have htake' : (data'.drop begin).take g'.length = g' := take_front hdata'
    simp only [List.length_cons] at hwp hhead
    obtain ⟨out1,out1',wp1,hrun1,hrun1',h1⟩ := hbody g List.mem_cons_self g' hg.1 (pos+1) begin
      mem mem' wp htake htake' (by omega)
    have hle1 := h1.le
    have hrest : data.drop (begin+g.length) = gs.flatten := drop_front hdata
    have hrest' : data'.drop (begin+g.length) = gs'.flatten := by
      rw [hg.1.length_eq]
      exact drop_front hdata'
    have hheadRest : ∀ k < gs.length, out1 (pos+3+3*k) = out1' (pos+3+3*k) := by
      intro k hk
      have hpos : pos+3+3*k = pos+3*(k+1) := by omega
      rw [h1.frame _ (by omega) (by omega) (by omega),
        h1.frame' _ (by omega) (by omega) (by omega),hpos]
      exact hhead (k+1) (by omega)
    obtain ⟨out,out',wp',hrun2,hrun2',hle2,hframe,hframe',hheads,hsame⟩ := ih hrest hrest'
      (fun g hg => hbody g (List.mem_cons_of_mem _ hg)) hheadRest
      (show pos+3+3*gs.length ≤ wp1 by omega)
    refine ⟨out,out',wp',?_,?_,hle1.trans hle2,?_,?_,?_,?_⟩
    · rw [entriesFrom,forLists,hrun1,Option.bind_eq_bind,Option.bind_some]
      exact hrun2
    · rw [entriesFrom,forLists,hrun1',Option.bind_eq_bind,Option.bind_some,← hg.1.length_eq]
      exact hrun2'
    · intro p hp
      rw [List.length_cons] at hp
      rw [hframe p (by omega),h1.frame p (by omega) (by omega) (by omega)]
    · intro p hp
      rw [List.length_cons] at hp
      rw [hframe' p (by omega),h1.frame' p (by omega) (by omega) (by omega)]
    · intro p h2 h3
      rw [List.length_cons] at h3
      rcases Nat.lt_or_ge p (pos+3) with hlt | hge
      · obtain ⟨val,hval,hval'⟩ := h1.pointer
        rw [hframe p (by omega),hframe' p (by omega)]
        obtain rfl | rfl | rfl : p = pos ∨ p = pos+1 ∨ p = pos+1+1 := by omega
        · rw [h1.frame p (by omega) (by omega) (by omega),
            h1.frame' p (by omega) (by omega) (by omega)]
          exact (hhead 0 (by omega)).symm
        · rw [hval.1,hval'.1]
        · rw [hval.2,hval'.2]
      · exact hheads p hge (by omega)
    · rw [List.flatten_cons]
      -- the later groups leave the first one and its pointer as they are
      have hkeep : ∀ q ∈ groupWords (pos+1) wp wp1, q < pos+3 ∨ pos+3+3*gs.length ≤ q ∧ q < wp1 := by
        rintro q (rfl | rfl | ⟨h2,h3⟩) <;> omega
      have hfirst := h1.same.congr (fun q hq => hframe q (by have := hkeep q hq; omega))
        (fun q hq => hframe' q (by have := hkeep q hq; omega))
        fun q h2 h3 => Or.inr (Or.inr ⟨h2,h3⟩)
      refine (hfirst.mono (List.subset_append_left _ _) ?_).append
        (hsame.mono (List.subset_append_right _ _) ?_)
      · rintro q (rfl | rfl | ⟨h2,h3⟩)
        · exact ⟨by omega,by omega⟩
        · exact ⟨by omega,by omega⟩
        · exact ⟨by omega,by omega⟩
      · rintro q ⟨h2,h3⟩
        exact ⟨by omega,h3⟩

namespace Builder

variable {b : Builder} {tids : List ℕ} {wp : ℕ}

/-! ## One group -/

/-- Both builders write the mono list of a slot, and one of them flags its closing word. -/
theorem linearizeElfMono_agrees (hdim : dim < b.store.numDim) (h : b.Slots (dim+1) [s])
    (hwp : ptr+2 ≤ wp) (mem mem' : Memory) :
    ∃ out out',
      b.linearizeElfMono (set64 mem ptr (wp ||| lastEntryMask64)) wp s.tid (dim+1) =
        some (out,wp+(b.store.numDim-(dim+1))+1) ∧
      b.linearizeElfMono (set64 mem' ptr (wp ||| lastEntryMask64)) wp s.tid (dim+1) =
        some (out',wp+(b.store.numDim-(dim+1))+1) ∧
      GroupAgrees b.store.numDim [s] ptr mem mem' wp out
        (flagWord out' (wp+(b.store.numDim-(dim+1)))) (wp+(b.store.numDim-(dim+1))+1) := by
  have hs : s ∈ [s] := List.mem_singleton_self s
  have htid := h.tid_lt hs
  have hpoint := h.point s hs
  have hdrop : (s.value.drop (dim+1)).length = b.store.numDim-(dim+1) := by
    rw [List.length_drop,h.length_eq hs]
  obtain ⟨out,hrun,hframe,hword,hst⟩ := linearizeElfMono_spec (dim+1)
    (set64 mem ptr (wp ||| lastEntryMask64)) wp hpoint hdim htid
  obtain ⟨out',hrun',hframe',hword',hst'⟩ := linearizeElfMono_spec (dim+1)
    (set64 mem' ptr (wp ||| lastEntryMask64)) wp hpoint hdim htid
  rw [← hdrop] at hrun hframe hword hst hrun' hframe' hword' hst' ⊢
  have hflagged : ∀ q, q ≠ wp+(s.value.drop (dim+1)).length →
      flagWord out' (wp+(s.value.drop (dim+1)).length) q = out' q := fun q hq => write_other hq
  have hpointer : Holds64 out ptr (wp ||| lastEntryMask64) :=
    set64_holds.congr (hframe _ (by omega)) (hframe _ (by omega))
  have hpointer' : Holds64 (flagWord out' (wp+(s.value.drop (dim+1)).length)) ptr
      (wp ||| lastEntryMask64) := by
    have hset : Holds64 (set64 mem' ptr (wp ||| lastEntryMask64)) ptr (wp ||| lastEntryMask64) :=
      set64_holds
    refine hset.congr ?_ ?_
    · rw [hflagged _ (by omega),hframe' _ (by omega)]
    · rw [hflagged _ (by omega),hframe' _ (by omega)]
  refine ⟨out,out',hrun,hrun',by omega,?_,?_,⟨_,hpointer,hpointer'⟩,?_⟩
  · intro p h1 h2 hp
    rw [hframe p hp,set64_other h1 h2]
  · intro p h1 h2 hp
    rw [hflagged p (by omega),hframe' p hp,set64_other h1 h2]
  · intro p hl hh
    rcases Nat.lt_or_ge p (wp+(s.value.drop (dim+1)).length) with hlt | hge
    · -- a word of the row
      left
      obtain ⟨i,rfl⟩ := Nat.exists_eq_add_of_le hl
      rw [hflagged _ (by omega),hst'.2.2.2.1 i (by omega),hst.2.2.2.1 i (by omega)]
    · right
      obtain rfl : p = wp+(s.value.drop (dim+1)).length := by omega
      refine ⟨s,hs,dim+1,ptr,wp,rfl,?_,⟨hpointer,hst⟩,
        ⟨hpointer',mono_flagged hst' htid hword'⟩,hword,?_⟩
      · rintro q (rfl | rfl | ⟨h1,h2⟩)
        · exact Or.inl rfl
        · exact Or.inr (Or.inl rfl)
        · exact Or.inr (Or.inr ⟨h1,by omega⟩)
      · rw [flagWord,write_same,hword']

/-- Pointers to lists on which the builders agree. -/
theorem list_agrees {mem mem' out out' : Memory} {wp' : ℕ} (hwp : ptr+2 ≤ wp)
    (h : ListAgrees numDim data (set64 mem ptr wp) (set64 mem' ptr wp) wp out out' wp') :
    GroupAgrees numDim data ptr mem mem' wp out out' wp' := by
  refine ⟨h.le,?_,?_,⟨wp,?_,?_⟩,?_⟩
  · intro p h1 h2 hp
    rw [h.frame p hp,set64_other h1 h2]
  · intro p h1 h2 hp
    rw [h.frame' p hp,set64_other h1 h2]
  · exact set64_holds.congr (h.frame _ (by omega)) (h.frame _ (by omega))
  · exact set64_holds.congr (h.frame' _ (by omega)) (h.frame' _ (by omega))
  · exact h.same.mono (List.Subset.refl _) fun q hq => Or.inr (Or.inr hq)

/-- What the sorting builder does for a group of slots, in the last dimension too. -/
structure SortingBody (b : Builder) (dim : ℕ) (data : List TID)
    (body : ListEntry → Memory → ℕ → Option (Memory × ℕ)) : Prop where
  single : ∀ {s ptr begin}, (data.drop begin).take 1 = [s] → ∀ mem wp, body ⟨ptr,begin,1⟩ mem wp =
    (b.linearizeElfMono (set64 mem ptr (wp ||| lastEntryMask64)) wp s.tid (dim+1)).map fun r =>
      (flagWord r.1 (r.2-1),r.2)
  several : dim+1 < b.store.numDim → ∀ {g ptr begin}, 1 < g.length →
    (data.drop begin).take g.length = g → ∀ mem wp, body ⟨ptr,begin,g.length⟩ mem wp =
      b.createDimListSorting g (dim+1) (set64 mem ptr wp) wp

theorem writeList_body (dim : ℕ) (data : List TID) :
    b.SortingBody dim data (b.writeList
      (fun temp elf writePointer => b.createDimListSorting temp (dim+1) elf writePointer) dim
      data) := by
  constructor
  · intro s ptr begin htake mem wp
    simp only [writeList,htake,gt_iff_lt,Nat.lt_irrefl,if_false,List.getElem?_cons_zero,
      Option.bind_eq_bind,Option.bind_some,Option.map_eq_bind]
    rfl
  · intro _ g ptr begin hlen htake mem wp
    simp only [writeList,htake,gt_iff_lt,hlen,if_true]

theorem writeLastList_body (hlast : ¬ dim+1 < b.store.numDim) (data : List TID) :
    b.SortingBody dim data (b.writeLastList dim data) := by
  refine ⟨?_,fun hnext => absurd hnext hlast⟩
  intro s ptr begin htake mem wp
  simp only [writeLastList,htake,writePoints,Option.bind_eq_bind,Option.bind_some,
    Option.map_eq_bind,Option.bind_assoc]
  rfl

/-! ## The recursion -/

/-- The two bodies agree on a group, given that the builders agree in the next dimension. -/
theorem groupBody_agrees {body' : ListEntry → Memory → ℕ → Option (Memory × ℕ)} {g g' : List TID}
    (hbody : b.SortingBody dim data' body') (hdim : dim < b.store.numDim) (h : b.Slots dim g)
    (hne : g ≠ []) (hkey : ∀ s ∈ g, s.key dim = groupKey dim g)
    (hdistinct : (g.map TID.value).Nodup) (hp : g.Perm g')
    (hnext : dim+1 < b.store.numDim → ∀ mem mem' wp, ∃ out out' wp',
      b.linearizeDimList (g.map TID.tid) (dim+1) mem wp = some (out,wp') ∧
      b.createDimListSorting g' (dim+1) mem' wp = some (out',wp') ∧
      ListAgrees b.store.numDim g mem mem' wp out out' wp')
    {begin : ℕ} (htake : (data.drop begin).take g.length = g)
    (htake' : (data'.drop begin).take g'.length = g') (hwp : ptr+2 ≤ wp) (mem mem' : Memory) :
    ∃ out out' wp', b.bucketBody (b.linearizeNext dim) dim data ⟨ptr,begin,g.length⟩ mem wp =
        some (out,wp') ∧ body' ⟨ptr,begin,g'.length⟩ mem' wp = some (out',wp') ∧
      GroupAgrees b.store.numDim g ptr mem mem' wp out out' wp' := by
  rcases single_or_several hne with ⟨s,rfl⟩ | hl
  · obtain rfl : g' = [s] := List.perm_singleton.mp hp.symm
    obtain ⟨out,out',hrun,hrun',hagree⟩ := linearizeElfMono_agrees hdim (h.next hkey) hwp mem mem'
    refine ⟨out,_,_,(bucketBody_single htake mem wp).trans hrun,?_,hagree⟩
    rw [List.length_singleton,hbody.single htake',hrun',Option.map_some,Nat.add_sub_cancel]
  · have hlt := h.next_lt hkey hdistinct hl hdim
    have hl' : 1 < g'.length := by rwa [← hp.length_eq]
    obtain ⟨out,out',wp',hrun,hrun',hagree⟩ := hnext hlt (set64 mem ptr wp) (set64 mem' ptr wp) wp
    exact ⟨out,out',wp',(bucketBody_several hl hlt htake mem wp).trans hrun,
      (hbody.several hlt hl' htake' mem' wp).trans hrun',list_agrees hwp hagree⟩

/-- Behind the values of the same groups the two loops agree, given that the builders agree in
the next dimension. -/
theorem loops_agree {body' : ListEntry → Memory → ℕ → Option (Memory × ℕ)}
    {gs gs' : List (List TID)} {heads heads' : Memory} (hbody : b.SortingBody dim data' body')
    (hdim : dim < b.store.numDim) (h : b.Slots dim data) (hdistinct : (data.map TID.value).Nodup)
    (hgs : Grouped dim gs) (hgs' : Grouped dim gs') (hflat : gs.flatten.Perm data)
    (hflat' : gs'.flatten = data') (hp : data'.Perm data)
    (hhead : Headers dim heads wp gs) (hhead' : Headers dim heads' wp gs')
    (hscan : ChangesOnly mem heads wp (wp+3*gs.length))
    (hscan' : ChangesOnly mem' heads' wp (wp+3*gs'.length))
    (hnext : dim+1 < b.store.numDim → ∀ g g', b.Slots (dim+1) g → g ≠ [] →
      (g.map TID.value).Nodup → g.Perm g' → ∀ mem mem' wp, ∃ out out' wp',
        b.linearizeDimList (g.map TID.tid) (dim+1) mem wp = some (out,wp') ∧
        b.createDimListSorting g' (dim+1) mem' wp = some (out',wp') ∧
        ListAgrees b.store.numDim g mem mem' wp out out' wp') :
    ∃ out out' wp', forLists (b.bucketBody (b.linearizeNext dim) dim gs.flatten)
        (entriesFrom wp 0 gs) heads (wp+3*gs.length) = some (out,wp') ∧
      forLists body' (entriesFrom wp 0 gs') heads' (wp+3*gs'.length) = some (out',wp') ∧
      ListAgrees b.store.numDim data mem mem' wp out out' wp' := by
  have hsame := hgs.forall₂_perm hgs' (hflat.trans (hflat' ▸ hp.symm))
  have hlen := hsame.length_eq
  have hgroup : ∀ g ∈ gs, ∀ g', g.Perm g' → ∀ ptr begin mem mem' wp,
      (gs.flatten.drop begin).take g.length = g → (data'.drop begin).take g'.length = g' →
      ptr+2 ≤ wp → ∃ out out' wp',
        b.bucketBody (b.linearizeNext dim) dim gs.flatten ⟨ptr,begin,g.length⟩ mem wp =
          some (out,wp') ∧
        body' ⟨ptr,begin,g'.length⟩ mem' wp = some (out',wp') ∧
        GroupAgrees b.store.numDim g ptr mem mem' wp out out' wp' := by
    intro g hg g' hgp ptr begin mem mem' wp htake htake' hwp
    obtain ⟨hgne,hgkey⟩ := hgs.group g hg
    have hgslots : b.Slots dim g := h.subset fun s hs =>
      hflat.subset (List.mem_flatten.mpr ⟨g,hg,hs⟩)
    have hgdiff : (g.map TID.value).Nodup :=
      ((hflat.map _).nodup_iff.mpr hdistinct).sublist ((List.sublist_flatten_of_mem hg).map _)
    exact groupBody_agrees hbody hdim hgslots hgne hgkey hgdiff hgp
      (fun hlt => hnext hlt g g' (hgslots.next hgkey) hgne hgdiff hgp) htake htake' hwp mem mem'
  have hdrop : gs.flatten.drop 0 = gs.flatten := List.drop_zero
  have hdrop' : data'.drop 0 = gs'.flatten := hflat'.symm
  obtain ⟨out,out',wp',hloop,hloop',hle,hframe,hframe',hheads,himage⟩ :=
    forLists_agree hsame hdrop hdrop' hgroup (hhead.same hsame hhead') le_rfl
  refine ⟨out,out',wp',hloop,hlen ▸ hloop',by omega,?_,?_,?_⟩
  · intro p hp
    rw [hframe p (by omega),hscan p (by omega)]
  · intro p hp
    rw [hframe' p (by omega),hscan' p (by omega)]
  · exact (SameImage.of_eq hheads).append (himage.mono hflat.subset (Set.Subset.refl _))

/-- The builders return at the same offset and agree on the words in between. -/
theorem builders_agree {w : ℕ} (hpast : b.pastEnd = some w)
    (hrange : ∀ d, dim ≤ d → d < b.store.numDim → b.maxDims d < 2^31)
    (hdim : dim < b.store.numDim) (h : b.Slots dim data) (hne : data ≠ [])
    (hdistinct : (data.map TID.value).Nodup) (hp : (tids.map b.slot).Perm data)
    (mem mem' : Memory) (wp : ℕ) :
    ∃ out out' wp', b.linearizeDimList tids dim mem wp = some (out,wp') ∧
      b.createDimListSorting data dim mem' wp = some (out',wp') ∧
      ListAgrees b.store.numDim data mem mem' wp out out' wp' := by
  induction hk : b.store.numDim-dim generalizing dim data tids mem mem' wp with
  | zero => omega
  | succ k ih =>
    have htids : tids ≠ [] := by
      rintro rfl
      exact hne (List.Perm.nil_eq hp).symm
    have hpoints : ∀ tid ∈ tids, tid < b.store.numPoints := fun tid htid =>
      Store.getPoint_lt (h.point (b.slot tid) (hp.mem_iff.mp (List.mem_map_of_mem htid)))
    -- the groups of the map
    obtain ⟨gs,heads,_,hgs,hperm,hhead,hscan,hrun⟩ :=
      linearizeDimList_groups hdim htids hpoints mem wp
    -- the groups of the sorted slots
    obtain ⟨gs',heads',_,hgs',hperm',hhead',hscan',hrun'⟩ :=
      createDimListSorting_groups hpast (hrange dim le_rfl hdim) hdim h hne mem' wp
    have hnext : dim+1 < b.store.numDim → ∀ g g', b.Slots (dim+1) g → g ≠ [] →
        (g.map TID.value).Nodup → g.Perm g' → ∀ mem mem' wp, ∃ out out' wp',
          b.linearizeDimList (g.map TID.tid) (dim+1) mem wp = some (out,wp') ∧
          b.createDimListSorting g' (dim+1) mem' wp = some (out',wp') ∧
          ListAgrees b.store.numDim g mem mem' wp out out' wp' := by
      intro hlt g g' hg hgne hgdiff hgp mem mem' wp
      have hmap : ((g.map TID.tid).map b.slot).Perm g' := by rwa [hg.map_slot]
      obtain ⟨out,out',wp',hcall,hcall',hw⟩ := ih (fun d hd => hrange d (by omega)) hlt
        (hg.subset hgp.symm.subset) (fun hnil => hgne (List.perm_nil.mp (hnil ▸ hgp)))
        ((hgp.map _).nodup_iff.mp hgdiff) hmap mem mem' wp (by omega)
      exact ⟨out,out',wp',hcall,hcall',hw.le,hw.frame,hw.frame',
        hw.same.mono hgp.symm.subset (Set.Subset.refl _)⟩
    rw [hrun,hrun']
    split
    · exact loops_agree (writeList_body dim _) hdim h hdistinct hgs hgs' (hperm.trans hp) rfl
        hperm' hhead hhead' hscan hscan' hnext
    · rename_i hlast
      exact loops_agree (writeLastList_body hlast _) hdim h hdistinct hgs hgs' (hperm.trans hp)
        rfl hperm' hhead hhead' hscan hscan' hnext

/-- The frequency-map builder and the sorting builder of different rows return at the same offset
with the same words, closing words of mono lists apart, which one of them flags. Within pointer
range the reader gives the same answer on both. -/
theorem linearizeDimList_sameImage {w : ℕ} (hpast : b.pastEnd = some w)
    (hrange : ∀ d, dim ≤ d → d < b.store.numDim → b.maxDims d < 2^31)
    (hdim : dim < b.store.numDim) (h : b.Slots dim data) (hne : data ≠ [])
    (hdistinct : (data.map TID.value).Nodup) (htids : tids.Perm (data.map TID.tid))
    (elf : Memory) (wp : ℕ) :
    ∃ elf1 elf2 wp', b.linearizeDimList tids dim elf wp = some (elf1,wp') ∧
      b.createDimListSorting data dim elf wp = some (elf2,wp') ∧
      (∀ p, elf2 p = elf1 p ∨ Closes b.store.numDim data (listWords wp wp') elf1 elf2 p) ∧
      (wp' ≤ 2^62 → ∀ (maxFirstDim : ℕ) (q : Query) (results : List ℕ), ∃ answer : List ℕ,
        Returns (fun fuel => Elf.partialMatchList ⟨elf1,b.store.numDim,maxFirstDim⟩ q fuel
          dim wp results) (results ++ answer) ∧
        Returns (fun fuel => Elf.partialMatchList ⟨elf2,b.store.numDim,maxFirstDim⟩ q fuel
          dim wp results) (results ++ answer)) := by
  have hp : (tids.map b.slot).Perm data := by
    have hmap := htids.map b.slot
    rwa [h.map_slot] at hmap
  have htidsNe : tids ≠ [] := by
    rintro rfl
    exact hne (List.Perm.nil_eq hp).symm
  obtain ⟨elf1,elf2,wp',hrun1,hrun2,hagree⟩ :=
    builders_agree hpast hrange hdim h hne hdistinct hp elf elf wp
  refine ⟨elf1,elf2,wp',hrun1,hrun2,?_,?_⟩
  · intro p
    by_cases hin : wp ≤ p ∧ p < wp'
    · exact hagree.same p hin.1 hin.2
    · left
      rw [hagree.frame p (by omega),hagree.frame' p (by omega)]
  · intro hbig maxFirstDim q results
    -- both images hold trees of the same rows
    obtain ⟨_,_,hlinear,hw1⟩ := linearizeDimList_spec hdim (h.subset hp.subset) htidsNe
      ((hp.map _).nodup_iff.mpr hdistinct) elf wp
    obtain ⟨_,_,hsorting,hw2⟩ := createDimListSorting_spec hpast hrange hdim h hne elf wp
    cases hlinear.symm.trans hrun1
    cases hsorting.symm.trans hrun2
    obtain ⟨found,hfound,hread1⟩ := h.read (hw1.perm hp) hbig
    obtain ⟨found',hfound',hread2⟩ := h.read hw2 hbig
    obtain rfl := hfound.unique hfound' hdistinct
    exact ⟨(selected q dim found).map TID.tid,hread1 maxFirstDim q results,
      hread2 maxFirstDim q results⟩

theorem linearizeDimList_sameImage_pair :
    ∃ elf1 elf2 wp', pairBuilder.linearizeDimList [0,1] 1 (fun _ => 0) 4 = some (elf1,wp') ∧
      pairBuilder.createDimListSorting pairSlots 1 (fun _ => 0) 4 = some (elf2,wp') ∧
      (∀ p, elf2 p = elf1 p ∨ Closes 2 pairSlots (listWords 4 wp') elf1 elf2 p) ∧
      (wp' ≤ 2^62 → ∀ (maxFirstDim : ℕ) (q : Query) (results : List ℕ), ∃ answer : List ℕ,
        Returns (fun fuel => Elf.partialMatchList ⟨elf1,2,maxFirstDim⟩ q fuel 1 4 results)
          (results ++ answer) ∧
        Returns (fun fuel => Elf.partialMatchList ⟨elf2,2,maxFirstDim⟩ q fuel 1 4 results)
          (results ++ answer)) :=
  linearizeDimList_sameImage (w:=0) rfl (fun _ _ _ => by norm_num [pairBuilder]) (by decide)
    pairSlots_slots (by decide) (by decide) (List.Perm.refl _) (fun _ => 0) 4

/-! ## Values that need all 32 bits -/

/-- A hundred rows whose last values have the top bit set. -/
def highRows : List (List ℕ) := (List.range 100).map fun i => [0,2^31+i]

theorem highRows_fit : (∀ p ∈ highRows, p.length = 2 ∧ ∀ v ∈ p, v < 2^32) ∧
    highRows.length ≤ 2^31-1 ∧ highRows.length*2 < 2^61 ∧ 2 < 2^32 := by
  have hlen : highRows.length = 100 := by rw [highRows,List.length_map,List.length_range]
  refine ⟨?_,by omega,by omega,by omega⟩
  intro p hp
  obtain ⟨i,hi,rfl⟩ := List.mem_map.mp hp
  rw [List.mem_range] at hi
  refine ⟨rfl,fun v hv => ?_⟩
  rcases List.mem_cons.mp hv with rfl | hv
  · omega
  · rw [List.mem_singleton] at hv
    omega

def highStore : Store := .ofRows 2 0 (2^31+99) highRows highRows_fit

/-- The limits are the largest values of the two columns. -/
def highBuilder : Builder := ⟨highStore,fun d => if d = 0 then 0 else 2^31+99,some 0⟩

def highSlots : List TID := (List.range 100).map fun i => ⟨i,[0,2^31+i]⟩

/-- Sorting such rows starts with a shift by all bits of a word, so there is no second image. -/
theorem linearizeDimList_sameImage_high :
    2 ≤ highSlots.length ∧ (highSlots.map TID.value).Nodup ∧
      (∀ s ∈ highSlots, highStore.getPoint s.tid = some s.value ∧ s.key 0 = 0 ∧
        ∀ d < 2, s.key d ≤ highBuilder.maxDims d) ∧
      ∀ elf wp, ¬ ∃ elf1 elf2 wp',
        highBuilder.linearizeDimList (highSlots.map TID.tid) 1 elf wp = some (elf1,wp') ∧
        highBuilder.createDimListSorting highSlots 1 elf wp = some (elf2,wp') := by
  refine ⟨by decide,?_,?_,?_⟩
  · rw [highSlots,List.map_map]
    refine List.Nodup.map ?_ List.nodup_range
    intro i j hij
    simpa using hij
  · intro s hs
    obtain ⟨i,hi,rfl⟩ := List.mem_map.mp hs
    have hlt := List.mem_range.mp hi
    refine ⟨?_,rfl,?_⟩
    · simp only [Store.getPoint,highStore,highRows,Store.ofRows,List.getElem?_map,List.getElem?_range hlt,
        Option.map_some]
    · intro d hd
      obtain rfl | rfl : d = 0 ∨ d = 1 := by omega
      · exact le_rfl
      · change 2^31+i ≤ 2^31+99
        omega
  · rintro elf wp ⟨elf1,elf2,wp',_,hrun⟩
    have hlen : highSlots.length = 100 := by decide
    have hshift : smartShifter (highBuilder.maxDims 1) = 32 := by decide
    have hsort : sort highBuilder.pastEnd 1 highBuilder.store.numDim highBuilder.maxDims highSlots =
        none := by
      simp only [sort,hlen,hshift,introsortSwitch]
      norm_num
    rw [createDimListSorting,hsort] at hrun
    cases hrun

end Builder
end ElfIndex
