import ElfIndex.Elf.Layout

/-! # What the sorting builder writes

Each step of the builder is shown to write one group of the layout, and by recursion on
the remaining dimensions the builder writes a tree of its slots. Slots that are equal in
all columns end in one mono list.
-/
namespace ElfIndex
open WordMemory SortingEngine

/-- Slots of rows that are equal before `dim`, as the builder hands them on. -/
structure Builder.Slots (b : Builder) (dim : ℕ) (data : List TID) : Prop where
  point : ∀ s ∈ data, b.store.getPoint s.tid = some s.value
  value_lt : ∀ s ∈ data, ∀ v ∈ s.value, v < 2^31
  agree : ∀ s ∈ data, ∀ s' ∈ data, ∀ d < dim, s.key d = s'.key d
  le_max : ∀ s ∈ data, ∀ d, dim ≤ d → d < b.store.numDim → s.key d ≤ b.maxDims d

namespace Builder

variable {b : Builder} {dim : ℕ} {data : List TID}

theorem Slots.length_eq (h : b.Slots dim data) {s : TID} (hs : s ∈ data) :
    s.value.length = b.store.numDim := by
  obtain ⟨row,hrow,hlen,_⟩ := Store.getPoint_eq_some (Store.getPoint_lt (h.point s hs))
  rw [h.point s hs] at hrow
  rw [Option.some.inj hrow,hlen]

theorem Slots.tid_lt (h : b.Slots dim data) {s : TID} (hs : s ∈ data) : s.tid < 2^31 := by
  have hlt := Store.getPoint_lt (h.point s hs)
  have hle := b.store.numPoints_le
  unfold Store.numPoints at hlt
  omega

theorem Slots.key_lt (h : b.Slots dim data) {s : TID} (hs : s ∈ data) (d : ℕ) :
    s.key d < 2^31 := by
  rw [TID.key,List.getD_eq_getElem?_getD]
  cases hd : s.value[d]? with
  | none => simp
  | some v => exact h.value_lt s hs v (List.mem_of_getElem? hd)

theorem Slots.subset (h : b.Slots dim data) {data' : List TID} (hs : data' ⊆ data) :
    b.Slots dim data' :=
  ⟨fun s hm => h.point s (hs hm),fun s hm => h.value_lt s (hs hm),
    fun s hm s' hm' => h.agree s (hs hm) s' (hs hm'),fun s hm => h.le_max s (hs hm)⟩

/-- A group of one value is handed on to the next dimension. -/
theorem Slots.next (h : b.Slots dim data) {k : ℕ} (hkey : ∀ s ∈ data, s.key dim = k) :
    b.Slots (dim+1) data := by
  refine ⟨h.point,h.value_lt,?_,fun s hs d hd => h.le_max s hs d (by omega)⟩
  intro s hs s' hs' d hd
  rcases Nat.lt_succ_iff_lt_or_eq.mp hd with hd | rfl
  · exact h.agree s hs s' hs' d hd
  · rw [hkey s hs,hkey s' hs']

theorem Slots.agreeOn (h : b.Slots dim data) :
    ∃ pre, Agree dim b.store.numDim pre data := by
  cases hd : data with
  | nil => exact ⟨[],fun t ht => absurd ht List.not_mem_nil⟩
  | cons s data' =>
    refine ⟨s.value.take dim,?_⟩
    intro t ht
    rw [← hd] at ht
    have hs : s ∈ data := hd ▸ List.mem_cons_self
    refine ⟨h.length_eq ht,List.ext_getElem? ?_⟩
    intro d
    rcases Nat.lt_or_ge d dim with hlt | hge
    · rw [List.getElem?_take_of_lt hlt,List.getElem?_take_of_lt hlt]
      have hkey := h.agree t ht s hs d hlt
      simp only [TID.key,List.getD_eq_getElem?_getD] at hkey
      rcases Nat.lt_or_ge d b.store.numDim with hd' | hd'
      · have ht' : d < t.value.length := by rw [h.length_eq ht]; exact hd'
        have hs' : d < s.value.length := by rw [h.length_eq hs]; exact hd'
        simp only [List.getElem?_eq_getElem ht',List.getElem?_eq_getElem hs',
          Option.getD_some] at hkey ⊢
        rw [hkey]
      · rw [List.getElem?_eq_none (by rw [h.length_eq ht]; exact hd'),
          List.getElem?_eq_none (by rw [h.length_eq hs]; exact hd')]
    · rw [List.getElem?_eq_none (by rw [List.length_take]; omega),
        List.getElem?_eq_none (by rw [List.length_take]; omega)]

/-! ## Mono lists -/

/-- A mono list holds the rest of the row and its tuple identifier. -/
theorem linearizeElfMono_spec (dim : ℕ) (mem : Memory) (wp : ℕ) {tid : ℕ} {row : List ℕ}
    (hpoint : b.store.getPoint tid = some row) (hdim : dim ≤ b.store.numDim) (htid : tid < 2^31) :
    ∃ mem', b.linearizeElfMono mem wp tid dim = some (mem',wp+(b.store.numDim-dim)+1) ∧
      ChangesOnly mem mem' wp (wp+(b.store.numDim-dim)+1) ∧
      mem' (wp+(b.store.numDim-dim)) = tid ∧
      (DimTree.mono (row.drop dim) tid).StoredIn mem' b.store.numDim wp
        (wp+(b.store.numDim-dim)+1) dim wp := by
  obtain ⟨row',hrow',hlen,_⟩ := Store.getPoint_eq_some (Store.getPoint_lt hpoint)
  rw [hpoint] at hrow'
  cases Option.some.inj hrow'
  have hdrop : (row.drop dim).length = b.store.numDim-dim := by rw [List.length_drop,hlen]
  have htake : (row.drop dim).take (b.store.numDim-dim) = row.drop dim :=
    List.take_of_length_le hdrop.le
  refine ⟨write (writeAll mem wp (row.drop dim)) (wp+(b.store.numDim-dim)) tid,?_,?_,
    write_same,?_⟩
  · simp only [linearizeElfMono,hpoint,Option.bind_eq_bind,Option.bind_some,htake]
  · exact (writeAll_changesOnly _ le_rfl (by omega)).trans
      (write_changesOnly (by omega) (Nat.lt_succ_self _))
  · refine ⟨by omega,le_rfl,by omega,?_,?_⟩
    · intro i hi
      rw [write_other (by omega),writeAll_get _ hi]
    · rw [hdrop,write_same,DimTree.and_recoverMask,Nat.mod_eq_of_lt htid]

/-- Flagging the closing word of a mono list keeps the list. -/
theorem mono_flagged {mem : Memory} {values : List ℕ} {numDim lo hi tid pos : ℕ}
    (h : (DimTree.mono values tid).StoredIn mem numDim lo hi dim pos) (htid : tid < 2^31)
    (hword : mem (pos+values.length) = tid) :
    (DimTree.mono values tid).StoredIn (flagWord mem (pos+values.length)) numDim lo hi dim pos := by
  obtain ⟨h1,h2,h3,h4,_⟩ := h
  refine ⟨h1,h2,h3,?_,?_⟩
  · intro i hi
    rw [flagWord,write_other (by omega)]
    exact h4 i hi
  · rw [flagWord,write_same,hword,DimTree.and_recoverMask,DimTree.value_flagged htid]
    omega

/-! ## One group -/

/-- A pointer to a fresh mono list, whose closing word may then be flagged. -/
theorem linearizeElfMono_group {s : TID} {mem : Memory} {ptr wp : ℕ} (hdim : dim < b.store.numDim)
    (h : b.Slots (dim+1) [s]) (hwp : ptr+2 ≤ wp) :
    ∃ mem', b.linearizeElfMono (set64 mem ptr (wp ||| lastEntryMask64)) wp s.tid (dim+1) =
        some (mem',wp+(b.store.numDim-(dim+1))+1) ∧
      GroupWritten b.store.numDim dim [s] ptr mem wp mem' (wp+(b.store.numDim-(dim+1))+1) ∧
      GroupWritten b.store.numDim dim [s] ptr mem wp
        (flagWord mem' (wp+(b.store.numDim-(dim+1)))) (wp+(b.store.numDim-(dim+1))+1) := by
  have hs : s ∈ [s] := List.mem_singleton_self s
  have htid := h.tid_lt hs
  obtain ⟨mem1,hrun,hframe,hword,hst⟩ := linearizeElfMono_spec (dim+1)
    (set64 mem ptr (wp ||| lastEntryMask64)) wp (h.point s hs) hdim htid
  have hdrop : (s.value.drop (dim+1)).length = b.store.numDim-(dim+1) := by
    rw [List.length_drop,h.length_eq hs]
  have hflag : (DimTree.mono (s.value.drop (dim+1)) s.tid).StoredIn
      (flagWord mem1 (wp+(b.store.numDim-(dim+1)))) b.store.numDim wp
      (wp+(b.store.numDim-(dim+1))+1) (dim+1) wp := by
    rw [← hdrop] at hword hst ⊢
    exact mono_flagged hst htid hword
  -- both memories keep the pointer and hold the mono list
  have hgroup : ∀ mem', (∀ p, p < wp ∨ wp+(b.store.numDim-(dim+1))+1 ≤ p → mem' p = mem1 p) →
      (DimTree.mono (s.value.drop (dim+1)) s.tid).StoredIn mem' b.store.numDim wp
        (wp+(b.store.numDim-(dim+1))+1) (dim+1) wp →
      GroupWritten b.store.numDim dim [s] ptr mem wp mem' (wp+(b.store.numDim-(dim+1))+1) := by
    intro mem' hsame hstored
    refine ⟨by omega,?_,by simp only [List.length_singleton]; omega,?_⟩
    · intro p h1 h2 hp
      rw [hsame p hp,hframe p hp,set64_other h1 h2]
    · intro hbig
      have hkeep : ∀ p < wp, mem' p = set64 mem ptr (wp ||| lastEntryMask64) p := by
        intro p hp
        rw [hsame p (by omega),hframe p (by omega)]
      have hlt := DimTree.pointer_flagged (show wp < 2^62 by omega)
      have hptr : get64 mem' ptr = wp ||| lastEntryMask64 := by
        rw [get64_congr (hkeep _ (by omega)) (hkeep _ (by omega)),get64_set64 (by omega)]
      refine ⟨.mono (s.value.drop (dim+1)) s.tid,wp,by omega,by rw [hptr]; rfl,trivial,hstored,
        ?_,?_⟩
      · intro r hr
        rw [DimTree.rows,List.mem_singleton] at hr
        exact ⟨s,hs,hr⟩
      · intro s' hs'
        cases List.mem_singleton.mp hs'
        exact ⟨s.tid,List.mem_singleton_self _⟩
  refine ⟨mem1,hrun,hgroup mem1 (fun _ _ => rfl) hst,hgroup _ ?_ hflag⟩
  intro p hp
  rw [flagWord,write_other (by omega)]

/-- A pointer to a fresh dimension list. -/
theorem list_group {g : List TID} {mem mem' : Memory} {ptr wp wp' : ℕ}
    (hdim : dim+1 < b.store.numDim) (hlen : 1 < g.length) (hwp : ptr+2 ≤ wp)
    (h : ListWritten b.store.numDim (dim+1) g (set64 mem ptr wp) wp mem' wp') :
    GroupWritten b.store.numDim dim g ptr mem wp mem' wp' := by
  obtain ⟨hle,hframe,hcost,htree⟩ := h
  refine ⟨hle,?_,?_,?_⟩
  · intro p h1 h2 hp
    rw [hframe p hp,set64_other h1 h2]
  · have hk : 3*(b.store.numDim-dim)+5 = 3*(b.store.numDim-(dim+1))+5+3 := by omega
    have hsum := Nat.mul_add g.length (3*(b.store.numDim-(dim+1))+5) 3
    rw [hk]
    omega
  · intro hbig
    obtain ⟨t,hl,ho,hst,hcov⟩ := htree hbig
    have hptr : get64 mem' ptr = wp := by
      rw [get64_congr (hframe _ (by omega)) (hframe _ (by omega)),get64_set64 (by omega)]
    -- a stored list has at least one word
    have hoff : wp < 2^62 := by
      cases t with
      | mono values tid => cases hl
      | last v child => have := hst.2.2.1; omega
      | entry v child rest => have := hst.2.2.1; omega
    exact ⟨t,wp,hoff,by rw [hptr,DimTree.pointer_list hl],ho,hst,hcov⟩

theorem writeList_single {create : List TID → Memory → ℕ → Option (Memory × ℕ)} {s : TID}
    {mem : Memory} {ptr begin wp : ℕ} (hdim : dim < b.store.numDim) (h : b.Slots (dim+1) [s])
    (htake : (data.drop begin).take 1 = [s]) (hwp : ptr+2 ≤ wp) :
    ∃ mem' wp', b.writeList create dim data ⟨ptr,begin,1⟩ mem wp = some (mem',wp') ∧
      GroupWritten b.store.numDim dim [s] ptr mem wp mem' wp' := by
  obtain ⟨mem1,hrun,_,hgroup⟩ := linearizeElfMono_group hdim h hwp
  have hfirst : ((data.drop begin).take 1)[0]? = some s := by rw [htake]; rfl
  refine ⟨_,_,?_,hgroup⟩
  simp only [writeList,gt_iff_lt,Nat.lt_irrefl,if_false,hfirst,Option.bind_eq_bind,
    Option.bind_some,hrun,Nat.add_sub_cancel]

theorem writeList_several {create : List TID → Memory → ℕ → Option (Memory × ℕ)} {g : List TID}
    {mem : Memory} {ptr begin wp : ℕ} (hdim : dim+1 < b.store.numDim) (hlen : 1 < g.length)
    (htake : (data.drop begin).take g.length = g) (hwp : ptr+2 ≤ wp)
    (hcreate : ∀ mem wp, ∃ mem' wp', create g mem wp = some (mem',wp') ∧
      ListWritten b.store.numDim (dim+1) g mem wp mem' wp') :
    ∃ mem' wp', b.writeList create dim data ⟨ptr,begin,g.length⟩ mem wp = some (mem',wp') ∧
      GroupWritten b.store.numDim dim g ptr mem wp mem' wp' := by
  obtain ⟨mem',wp',hrun,hw⟩ := hcreate (set64 mem ptr wp) wp
  refine ⟨mem',wp',?_,list_group hdim hlen hwp hw⟩
  simp only [writeList,hlen,if_true,htake]
  exact hrun

/-- The copies of the last dimension: the pointer is left on the last copy. -/
theorem writePoints_spec {g : List TID} {ptr : ℕ} (mem : Memory) (wp : ℕ) (hdim : dim+1 = b.store.numDim)
    (h : b.Slots dim g) (hne : g ≠ []) (hwp : ptr+2 ≤ wp) :
    ∃ mem', b.writePoints dim ptr g mem wp = some (mem',wp+g.length) ∧
      (∀ p, p ≠ ptr → p ≠ ptr+1 → (p < wp ∨ wp+g.length ≤ p) → mem' p = mem p) ∧
      (wp+g.length ≤ 2^62 → get64 mem' ptr = (wp+g.length-1) ||| lastEntryMask64) ∧
      mem' (wp+g.length-1) = (g.getLast hne).tid := by
  induction g generalizing mem wp with
  | nil => exact absurd rfl hne
  | cons s g ih =>
    have hs : s ∈ s :: g := List.mem_cons_self
    obtain ⟨mem1,hrun,hframe,hword,_⟩ := linearizeElfMono_spec (dim+1)
      (set64 mem ptr (wp ||| lastEntryMask64)) wp (h.point s hs) (by omega) (h.tid_lt hs)
    have hz : b.store.numDim-(dim+1) = 0 := by omega
    rw [hz,Nat.add_zero] at hrun hframe hword
    by_cases hg : g = []
    · subst hg
      refine ⟨mem1,?_,?_,?_,?_⟩
      · simp only [writePoints,hrun,Option.bind_eq_bind,Option.bind_some]
        rfl
      · intro p h1 h2 hp
        simp only [List.length_singleton] at hp
        rw [hframe p hp,set64_other h1 h2]
      · intro hbig
        simp only [List.length_singleton] at hbig
        have hlt := DimTree.pointer_flagged (show wp < 2^62 by omega)
        rw [get64_congr (hframe _ (by omega)) (hframe _ (by omega)),get64_set64 (by omega)]
        rfl
      · simpa using hword
    · obtain ⟨mem2,hrun2,hframe2,hptr2,hword2⟩ := ih mem1 (wp+1)
        (h.subset (List.subset_cons_self s g)) hg (by omega)
      have hlen : wp+1+g.length = wp+(s :: g).length := by
        rw [List.length_cons]
        omega
      rw [hlen] at hrun2 hframe2 hptr2 hword2
      refine ⟨mem2,?_,?_,hptr2,?_⟩
      · simp only [writePoints,hrun,Option.bind_eq_bind,Option.bind_some]
        exact hrun2
      · intro p h1 h2 hp
        rw [hframe2 p h1 h2 (by omega),hframe p (by omega),set64_other h1 h2]
      · rw [hword2,List.getLast_cons hg]

theorem writeLastList_spec {g : List TID} {mem : Memory} {ptr begin wp : ℕ}
    (hdim : dim+1 = b.store.numDim) (h : b.Slots dim g) (hne : g ≠ [])
    (htake : (data.drop begin).take g.length = g) (hwp : ptr+2 ≤ wp) :
    ∃ mem' wp', b.writeLastList dim data ⟨ptr,begin,g.length⟩ mem wp = some (mem',wp') ∧
      GroupWritten b.store.numDim dim g ptr mem wp mem' wp' := by
  obtain ⟨mem1,hrun,hframe,hptr,hword⟩ := writePoints_spec mem wp hdim h hne hwp
  have hpos : 0 < g.length := List.length_pos_of_ne_nil hne
  have hlast := List.getLast_mem hne
  have htid := h.tid_lt hlast
  refine ⟨flagWord mem1 (wp+g.length-1),wp+g.length,?_,by omega,?_,?_,?_⟩
  · simp only [writeLastList,htake,hrun,Option.bind_eq_bind,Option.bind_some]
  · intro p h1 h2 hp
    rw [flagWord,write_other (by omega),hframe p h1 h2 hp]
  · have hz : b.store.numDim-dim = 1 := by omega
    rw [hz]
    omega
  · intro hbig
    have hstored : (DimTree.mono [] (g.getLast hne).tid).StoredIn
        (flagWord mem1 (wp+g.length-1)) b.store.numDim wp (wp+g.length) (dim+1)
        (wp+g.length-1) := by
      refine ⟨hdim,by omega,by simp only [List.length_nil]; omega,?_,?_⟩
      · intro i hi
        cases hi
      · rw [List.length_nil,Nat.add_zero,flagWord,write_same,hword,DimTree.and_recoverMask,
          DimTree.value_flagged htid]
        omega
    have hptr' : get64 (flagWord mem1 (wp+g.length-1)) ptr =
        (wp+g.length-1) ||| lastEntryMask64 := by
      have hkeep : ∀ p, p = ptr ∨ p = ptr+1 → flagWord mem1 (wp+g.length-1) p = mem1 p := by
        intro p hp
        rw [flagWord,write_other (by omega)]
      rw [get64_congr (hkeep _ (Or.inl rfl)) (hkeep _ (Or.inr rfl)),hptr hbig]
    have hnil : ∀ s ∈ g, s.value.drop (dim+1) = [] := by
      intro s hs
      exact List.drop_eq_nil_of_le (by rw [h.length_eq hs,hdim])
    refine ⟨.mono [] (g.getLast hne).tid,wp+g.length-1,by omega,by rw [hptr']; rfl,trivial,hstored,
      ?_,?_⟩
    · intro r hr
      rw [DimTree.rows,List.mem_singleton] at hr
      exact ⟨g.getLast hne,hlast,by rw [hr,hnil _ hlast]⟩
    · intro s hs
      exact ⟨(g.getLast hne).tid,by rw [hnil s hs]; exact List.mem_singleton_self _⟩

/-! ## The recursion -/

/-- Behind the values of its groups the loop over the lists writes a dimension list, given that
its body writes the group of each list. -/
theorem groups_written {body : ListEntry → Memory → ℕ → Option (Memory × ℕ)}
    {gs : List (List TID)} {mem heads : Memory} {wp : ℕ} (hdim : dim < b.store.numDim)
    (h : b.Slots dim data) (hne : gs ≠ []) (hgs : Grouped dim gs) (hflat : gs.flatten = data)
    (hhead : Headers dim heads wp gs) (hscan : ChangesOnly mem heads wp (wp+3*gs.length))
    (hbody : ∀ g ∈ gs, g ≠ [] → b.Slots dim g → (∀ s ∈ g, s.key dim = groupKey dim g) →
      ∀ ptr begin mem wp, (data.drop begin).take g.length = g → ptr+2 ≤ wp →
        ∃ mem' wp', body ⟨ptr,begin,g.length⟩ mem wp = some (mem',wp') ∧
          GroupWritten b.store.numDim dim g ptr mem wp mem' wp') :
    ∃ mem' wp', forLists body (entriesFrom wp 0 gs) heads (wp+3*gs.length) = some (mem',wp') ∧
      ListWritten b.store.numDim dim data mem wp mem' wp' := by
  have hdrop : data.drop 0 = gs.flatten := hflat.symm
  have hsub : ∀ g ∈ gs, g ⊆ data := by
    intro g hg s hs
    rw [← hflat]
    exact List.mem_flatten.mpr ⟨g,hg,hs⟩
  have hlen : ∀ s ∈ gs.flatten, s.value.length = b.store.numDim := fun s hs =>
    h.length_eq (by rwa [hflat] at hs)
  have hval : ∀ s ∈ gs.flatten, s.key dim < 2^31 := fun s hs =>
    h.key_lt (by rwa [hflat] at hs) dim
  obtain ⟨mem',wp',hrun,hle,hframe,hcost,htree⟩ := forLists_spec hdim gs hne hgs hdrop hlen hval
    (fun g hg => hbody g hg (hgs.group g hg).1 (h.subset (hsub g hg)) (hgs.group g hg).2) hhead
    le_rfl
  rw [hflat] at hcost htree
  refine ⟨mem',wp',hrun,by omega,?_,by omega,?_⟩
  · intro p hp
    rw [hframe p (by omega),hscan p (by omega)]
  · intro hbig
    obtain ⟨t,hl,ho,_,hst,hcov⟩ := htree hbig
    exact ⟨t,hl,ho,hst,hcov⟩

/-- What the scan of sorted slots leaves to the loop over the lists. -/
theorem scan_sorted {first : TID} {ts : List TID} (hsorted : SortedBy dim (first :: ts))
    (mem : Memory) (wp : ℕ) :
    ∃ gs heads, scanLists dim ts 1 ⟨mem,wp,0,first.key dim,[]⟩ =
        {scanLists dim ts 1 ⟨mem,wp,0,first.key dim,[]⟩ with
          elf := heads, writePointer := wp+3*gs.length, lists := entriesFrom wp 0 gs} ∧
      gs ≠ [] ∧ Grouped dim gs ∧ gs.flatten = first :: ts ∧ Headers dim heads wp gs ∧
      ChangesOnly mem heads wp (wp+3*gs.length) := by
  obtain ⟨hptr,hlists,hhead,hscan⟩ := scanLists_spec [first] ts 1
    ⟨mem,wp,0,first.key dim,[]⟩ (List.cons_ne_nil _ _)
    (fun t ht => by rw [List.mem_singleton.mp ht]) rfl
  refine ⟨groupsFrom dim (first.key dim) [first] ts,
    (scanLists dim ts 1 ⟨mem,wp,0,first.key dim,[]⟩).elf,?_,groupsFrom_ne_nil _ _ _,
    groupsFrom_grouped (List.cons_ne_nil _ _) (fun t ht => by rw [List.mem_singleton.mp ht]) hsorted,
    groupsFrom_flatten _ _ _,hhead,hscan⟩
  rw [List.nil_append] at hlists
  rw [← hlists,← hptr]

/-- The builder in terms of groups of the sorted slots. -/
theorem createDimListSorting_groups {w : ℕ} (hpast : b.pastEnd = some w)
    (hrange : b.maxDims dim < 2^31) (hdim : dim < b.store.numDim) (h : b.Slots dim data)
    (hne : data ≠ []) (mem : Memory) (wp : ℕ) :
    ∃ gs heads, gs ≠ [] ∧ Grouped dim gs ∧ gs.flatten.Perm data ∧ Headers dim heads wp gs ∧
      ChangesOnly mem heads wp (wp+3*gs.length) ∧
      b.createDimListSorting data dim mem wp =
        forLists (if dim+1 < b.store.numDim then b.writeList (fun temp elf writePointer =>
            b.createDimListSorting temp (dim+1) elf writePointer) dim gs.flatten
          else b.writeLastList dim gs.flatten) (entriesFrom wp 0 gs) heads (wp+3*gs.length) := by
  obtain ⟨pre,hagree⟩ := h.agreeOn
  obtain ⟨out,hsort,hperm,hsorted⟩ := sort_spec (w:=w) hdim hagree hrange
    fun t ht => h.le_max t ht dim le_rfl hdim
  have hout : out ≠ [] := fun he => hne (List.Perm.nil_eq (he ▸ hperm)).symm
  obtain ⟨first,ts,rfl⟩ := List.exists_cons_of_ne_nil hout
  obtain ⟨gs,heads,hst,hgne,hgs,hflat,hhead,hscan⟩ := scan_sorted hsorted mem wp
  have hfirst : (first :: ts)[0]? = some first := rfl
  have hdrop : (first :: ts).drop 1 = ts := rfl
  refine ⟨gs,heads,hgne,hgs,hflat ▸ hperm,hhead,hscan,?_⟩
  rw [createDimListSorting,hpast,hsort,hflat]
  simp only [Option.bind_eq_bind,Option.bind_some,hfirst,hdrop]
  rw [hst]
  split
  · rfl
  · rfl

/-- The builder writes a tree of its slots and changes no word outside its range. -/
theorem createDimListSorting_spec {w : ℕ} (hpast : b.pastEnd = some w)
    (hrange : ∀ d, dim ≤ d → d < b.store.numDim → b.maxDims d < 2^31)
    (hdim : dim < b.store.numDim) (h : b.Slots dim data) (hne : data ≠ []) (mem : Memory)
    (wp : ℕ) :
    ∃ mem' wp', b.createDimListSorting data dim mem wp = some (mem',wp') ∧
      ListWritten b.store.numDim dim data mem wp mem' wp' := by
  induction hk : b.store.numDim-dim generalizing dim data mem wp with
  | zero => omega
  | succ k ih =>
    obtain ⟨gs,heads,hgne,hgs,hperm,hhead,hscan,hrun⟩ :=
      createDimListSorting_groups hpast (hrange dim le_rfl hdim) hdim h hne mem wp
    have hslots : b.Slots dim gs.flatten := h.subset hperm.subset
    suffices hlist : ∃ mem' wp', b.createDimListSorting data dim mem wp = some (mem',wp') ∧
        ListWritten b.store.numDim dim gs.flatten mem wp mem' wp' by
      obtain ⟨mem',wp',hcall,hw⟩ := hlist
      exact ⟨mem',wp',hcall,hw.perm hperm⟩
    rw [hrun]
    refine groups_written hdim hslots hgne hgs rfl hhead hscan ?_
    intro g _ hne hg hkey ptr begin mem wp htake hwp
    split
    · rename_i hnext
      rcases single_or_several hne with ⟨s,rfl⟩ | hlen
      · exact writeList_single hdim (hg.next hkey) htake hwp
      · exact writeList_several hnext hlen htake hwp fun mem wp =>
          ih (fun d hd => hrange d (by omega)) hnext (hg.next hkey) hne mem wp (by omega)
    · exact writeLastList_spec (by omega) hg hne htake hwp

end Builder
end ElfIndex
