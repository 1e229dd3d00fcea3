import ElfIndex.Elf.Written
import ElfIndex.Elf.Search

/-! # Builder and reader of a dimension list

The rows of a written tree are slots of the array, one for each different row, in
lexicographic order. Reading the list back lists those of them that the query selects:
every slot when the rows differ, and one slot of each set of copies otherwise.
-/
namespace ElfIndex
open WordMemory SortingEngine Fuel

/-- The list `found` has one slot for each different row of `data`, in row order. -/
structure OneOfEach (data found : List TID) : Prop where
  subset : found ⊆ data
  sorted : found.Pairwise fun s s' => s.value < s'.value
  all : ∀ s ∈ data, ∃ s' ∈ found, s'.value = s.value

namespace OneOfEach

variable {data found : List TID}

theorem nodup_value (h : OneOfEach data found) : (found.map TID.value).Nodup := by
  refine List.pairwise_map.mpr (h.sorted.imp ?_)
  intro s s' hlt he
  rw [he] at hlt
  exact List.lt_irrefl _ hlt

/-- Two listed slots of one row are the same slot. -/
theorem value_inj (h : OneOfEach data found) {s s' : TID} (hs : s ∈ found) (hs' : s' ∈ found)
    (he : s.value = s'.value) : s = s' := List.inj_on_of_nodup_map h.nodup_value hs hs' he

/-- Slots of different rows are all listed. -/
theorem perm (h : OneOfEach data found) (hd : (data.map TID.value).Nodup) : found.Perm data := by
  refine (List.perm_ext_iff_of_nodup h.nodup_value.of_map hd.of_map).mpr fun s =>
    ⟨fun hs => h.subset hs,?_⟩
  intro hs
  obtain ⟨s',hs',he⟩ := h.all s hs
  rwa [← List.inj_on_of_nodup_map hd (h.subset hs') hs he]

/-- Different rows leave one such list. -/
theorem unique (h : OneOfEach data found) {found' : List TID} (h' : OneOfEach data found')
    (hd : (data.map TID.value).Nodup) : found = found' := by
  refine ((h.perm hd).trans (h'.perm hd).symm).eq_of_pairwise ?_ h.sorted h'.sorted
  intro s s' _ _ hlt hlt'
  exact absurd hlt' (List.lt_asymm hlt)

end OneOfEach

/-- The row part of a slot that a list of dimension `dim` holds. -/
def rowFrom (dim : ℕ) (s : TID) : List ℕ × ℕ := (s.value.drop dim,s.tid)

theorem exists_map_of_forall_mem {α β : Type*} {f : α → β} {p : α → Prop} {l : List β}
    (h : ∀ b ∈ l, ∃ a, p a ∧ b = f a) : ∃ l' : List α, (∀ a ∈ l', p a) ∧ l = l'.map f := by
  induction l with
  | nil => exact ⟨[],by simp⟩
  | cons b l ih =>
    obtain ⟨a,ha,rfl⟩ := h b List.mem_cons_self
    obtain ⟨l',hl',rfl⟩ := ih fun c hc => h c (List.mem_cons_of_mem _ hc)
    refine ⟨a :: l',?_,rfl⟩
    intro c hc
    rcases List.mem_cons.mp hc with rfl | hc
    · exact ha
    · exact hl' c hc

namespace Builder

variable {b : Builder} {dim : ℕ} {data : List TID}

theorem Slots.value_eq (h : b.Slots dim data) {s s' : TID} (hs : s ∈ data) (hs' : s' ∈ data)
    (he : s.value.drop dim = s'.value.drop dim) : s.value = s'.value := by
  obtain ⟨pre,hpre⟩ := h.agreeOn
  rw [← List.take_append_drop dim s.value,← List.take_append_drop dim s'.value,he,
    (hpre s hs).2,(hpre s' hs').2]

/-- The rows of a tree of the slots, read as slots. -/
theorem Slots.rows_eq (h : b.Slots dim data) {t : DimTree} (ho : t.Ordered)
    (hc : t.Covers dim data) : ∃ found, OneOfEach data found ∧ t.rows = found.map (rowFrom dim) := by
  obtain ⟨found,hsub,hrows⟩ := exists_map_of_forall_mem (f:=rowFrom dim) hc.1
  refine ⟨found,⟨hsub,?_,?_⟩,hrows⟩
  · have hsorted := DimTree.rows_sorted ho
    rw [hrows,List.pairwise_map] at hsorted
    apply hsorted.imp_of_mem
    intro s s' hs hs' hlt
    obtain ⟨pre,hpre⟩ := h.agreeOn
    rw [← List.take_append_drop dim s.value,← List.take_append_drop dim s'.value,
      (hpre s (hsub s hs)).2,(hpre s' (hsub s' hs')).2]
    exact List.append_left_lt hlt
  · intro s hs
    obtain ⟨tid,hr⟩ := hc.2 s hs
    rw [hrows] at hr
    obtain ⟨s',hs',he⟩ := List.mem_map.mp hr
    exact ⟨s',hs',h.value_eq (hsub s' hs') hs (congrArg Prod.fst he)⟩

/-- The slots that a query selects by the columns from `dim` on. -/
def selected (q : Query) (dim : ℕ) (data : List TID) : List TID :=
  data.filter fun s => q.selects dim (s.value.drop dim)

theorem search_rows {t : DimTree} {found : List TID} (q : Query)
    (h : t.rows = found.map (rowFrom dim)) :
    t.search q dim = (selected q dim found).map TID.tid := by
  rw [DimTree.search,h,List.filter_map,List.map_map]
  rfl

/-- Reading a written list back: one slot of each selected row, in row order. -/
theorem Slots.read (h : b.Slots dim data) {elf elf' : Memory} {wp wp' : ℕ}
    (hw : ListWritten b.store.numDim dim data elf wp elf' wp') (hbig : wp' ≤ 2^62) :
    ∃ found, OneOfEach data found ∧ ∀ (maxFirstDim : ℕ) (q : Query) (results : List ℕ),
      Returns (fun fuel => Elf.partialMatchList ⟨elf',b.store.numDim,maxFirstDim⟩ q fuel
        dim wp results) (results ++ (selected q dim found).map TID.tid) := by
  obtain ⟨t,hl,ho,hst,hcov⟩ := hw.tree hbig
  obtain ⟨found,hfound,hrows⟩ := h.rows_eq ho hcov
  refine ⟨found,hfound,?_⟩
  intro maxFirstDim q results
  refine ⟨t.size,?_⟩
  intro fuel hfuel
  rw [← search_rows q hrows]
  exact Elf.partialMatchList_spec (e:=⟨elf',b.store.numDim,maxFirstDim⟩) q ho hst hl fuel hfuel
    results

/-- The sorting builder writes such a list. -/
theorem createDimListSorting_read {w : ℕ} (hpast : b.pastEnd = some w)
    (hrange : ∀ d, dim ≤ d → d < b.store.numDim → b.maxDims d < 2^31)
    (hdim : dim < b.store.numDim) (h : b.Slots dim data) (hne : data ≠ []) (elf : Memory)
    (wp : ℕ) :
    ∃ elf' wp', b.createDimListSorting data dim elf wp = some (elf',wp') ∧
      ChangesOnly elf elf' wp wp' ∧ (wp' ≤ 2^62 → ∃ found, OneOfEach data found ∧
        ∀ (maxFirstDim : ℕ) (q : Query) (results : List ℕ),
          Returns (fun fuel => Elf.partialMatchList ⟨elf',b.store.numDim,maxFirstDim⟩ q fuel
            dim wp results) (results ++ (selected q dim found).map TID.tid)) := by
  obtain ⟨elf',wp',hrun,hw⟩ := createDimListSorting_spec hpast hrange hdim h hne elf wp
  exact ⟨elf',wp',hrun,hw.frame,h.read hw⟩

/-- Builder and reader of a dimension list of different rows: within pointer range the
reader appends the selected slots, each once, in lexicographic order. -/
theorem createDimListSorting_roundTrip {w : ℕ} (hpast : b.pastEnd = some w)
    (hrange : ∀ d, dim ≤ d → d < b.store.numDim → b.maxDims d < 2^31)
    (hdim : dim < b.store.numDim) (h : b.Slots dim data) (hne : data ≠ [])
    (hdistinct : (data.map TID.value).Nodup) (elf : Memory) (wp : ℕ) :
    ∃ elf' wp', b.createDimListSorting data dim elf wp = some (elf',wp') ∧
      ChangesOnly elf elf' wp wp' ∧ (wp' ≤ 2^62 → ∀ (maxFirstDim : ℕ) (q : Query)
        (results : List ℕ), ∃ found : List TID, found.Perm (selected q dim data) ∧
          found.Pairwise (fun s s' => s.value < s'.value) ∧
          Returns (fun fuel => Elf.partialMatchList ⟨elf',b.store.numDim,maxFirstDim⟩ q fuel
            dim wp results) (results ++ found.map TID.tid)) := by
  obtain ⟨elf',wp',hrun,hframe,hread⟩ := createDimListSorting_read hpast hrange hdim h hne elf wp
  refine ⟨elf',wp',hrun,hframe,?_⟩
  intro hbig maxFirstDim q results
  obtain ⟨found,hfound,hreturns⟩ := hread hbig
  exact ⟨selected q dim found,(hfound.perm hdistinct).filter _,
    hfound.sorted.sublist List.filter_sublist,hreturns maxFirstDim q results⟩

/-- Two rows of two columns that differ in the last one. -/
def pairStore : Store := .ofRows 2 1 2 [[0,2],[0,1]] (by decide)

def pairBuilder : Builder := ⟨pairStore,fun _ => 2,some 0⟩

def pairSlots : List TID := [⟨0,[0,2]⟩,⟨1,[0,1]⟩]

theorem pairSlots_slots : pairBuilder.Slots 1 pairSlots where
  point := by decide
  value_lt := by decide
  agree := by decide
  le_max := by
    intro s hs d hd hlt
    have hd1 : d = 1 := Nat.le_antisymm (Nat.le_of_lt_succ hlt) hd
    subst hd1
    exact (by decide : ∀ s ∈ pairSlots, s.key 1 ≤ 2) s hs

theorem createDimListSorting_roundTrip_pair :
    ∃ elf' wp', pairBuilder.createDimListSorting pairSlots 1 (fun _ => 0) 4 = some (elf',wp') ∧
      ChangesOnly (fun _ => 0) elf' 4 wp' ∧ (wp' ≤ 2^62 → ∀ (maxFirstDim : ℕ) (q : Query)
        (results : List ℕ), ∃ found : List TID, found.Perm (selected q 1 pairSlots) ∧
          found.Pairwise (fun s s' => s.value < s'.value) ∧
          Returns (fun fuel => Elf.partialMatchList ⟨elf',2,maxFirstDim⟩ q fuel 1 4 results)
            (results ++ found.map TID.tid)) :=
  createDimListSorting_roundTrip (w:=0) rfl (fun _ _ _ => by norm_num [pairBuilder]) (by decide) pairSlots_slots
    (by decide) (by decide) (fun _ => 0) 4

/-! ## Limits that are too wide -/

/-- A hundred rows that differ in the last column, under a limit that bounds them but
needs all 32 bits. -/
def wideStore : Store := .ofRows 2 0 99 ((List.range 100).map fun i => [0,i]) <| by
  refine ⟨?_,by simp,by simp,by decide⟩
  intro p hp
  obtain ⟨i,hi,rfl⟩ := List.mem_map.mp hp
  rw [List.mem_range] at hi
  refine ⟨rfl,fun v hv => ?_⟩
  simp only [List.mem_cons,List.not_mem_nil,or_false] at hv
  omega

def wideBuilder : Builder := ⟨wideStore,fun _ => 2^31,some 0⟩

def wideSlots : List TID := (List.range 100).map fun i => ⟨i,[0,i]⟩

theorem mem_wideSlots {s : TID} (hs : s ∈ wideSlots) : ∃ i < 100, s = ⟨i,[0,i]⟩ := by
  obtain ⟨i,hi,rfl⟩ := List.mem_map.mp hs
  exact ⟨i,List.mem_range.mp hi,rfl⟩

theorem wideSlots_slots : wideBuilder.Slots 1 wideSlots where
  point := by
    intro s hs
    obtain ⟨i,hi,rfl⟩ := mem_wideSlots hs
    have hget : (List.range 100)[i]? = some i := List.getElem?_range hi
    simp only [Store.getPoint,wideBuilder,wideStore,Store.ofRows,List.getElem?_map,hget,
      Option.map_some]
  value_lt := by
    intro s hs v hv
    obtain ⟨i,hi,rfl⟩ := mem_wideSlots hs
    simp only [List.mem_cons,List.not_mem_nil,or_false] at hv
    omega
  agree := by
    intro s hs s' hs' d hd
    obtain ⟨i,_,rfl⟩ := mem_wideSlots hs
    obtain ⟨i',_,rfl⟩ := mem_wideSlots hs'
    obtain rfl : d = 0 := by omega
    rfl
  le_max := by
    intro s hs d hd hlt
    obtain ⟨i,hi,rfl⟩ := mem_wideSlots hs
    obtain rfl : d = 1 := Nat.le_antisymm (Nat.le_of_lt_succ hlt) hd
    change i ≤ 2^31
    omega

/-- The start shift for such a limit is the width of a word, and no list is built. -/
theorem createDimListSorting_wide_limit :
    wideBuilder.Slots 1 wideSlots ∧ 2 ≤ wideSlots.length ∧ (wideSlots.map TID.value).Nodup ∧
      ∀ elf wp, wideBuilder.createDimListSorting wideSlots 1 elf wp = none := by
  refine ⟨wideSlots_slots,by decide,?_,?_⟩
  · rw [wideSlots,List.map_map]
    refine List.Nodup.map ?_ List.nodup_range
    intro i j hij
    simpa using hij
  · intro elf wp
    have hlen : wideSlots.length = 100 := by decide
    have hshift : smartShifter (2^31) = 32 := by decide
    have hsort : sort (some 0) 1 2 (fun _ => 2^31) wideSlots = none := by
      simp only [sort,hlen,hshift,introsortSwitch]
      norm_num
    unfold createDimListSorting
    change (sort (some 0) 1 2 (fun _ => 2^31) wideSlots).bind _ = none
    rw [hsort]
    rfl

/-! ## Copies of one row -/

/-- A slot is answered once or not at all, according to whether it is the listed one. -/
theorem count_selected {found : List TID} (q : Query) (hfound : OneOfEach data found)
    (htids : (data.map TID.tid).Nodup) {s : TID} (hs : s ∈ data)
    (hq : q.selects dim (s.value.drop dim) = true) :
    ((selected q dim found).map TID.tid).count s.tid = 1 ↔ s ∈ found := by
  have hsub : selected q dim found ⊆ data := fun u hu => hfound.subset (List.mem_filter.mp hu).1
  have hnodup : ((selected q dim found).map TID.tid).Nodup := by
    refine List.Nodup.map_on ?_ (hfound.nodup_value.of_map.filter _)
    intro u hu v hv he
    exact List.inj_on_of_nodup_map htids (hsub hu) (hsub hv) he
  rw [hnodup.count]
  constructor
  · intro h
    have hmem : s.tid ∈ (selected q dim found).map TID.tid := by
      by_contra hn
      rw [if_neg hn] at h
      cases h
    obtain ⟨u,hu,he⟩ := List.mem_map.mp hmem
    rw [← List.inj_on_of_nodup_map htids (hsub hu) hs he]
    exact (List.mem_filter.mp hu).1
  · intro h
    have hmem : s.tid ∈ (selected q dim found).map TID.tid :=
      List.mem_map_of_mem (List.mem_filter.mpr ⟨h,hq⟩)
    rw [if_pos hmem]

/-- All copies of a row are listed exactly when there is one. -/
theorem copies_listed_iff {found : List TID} (hfound : OneOfEach data found)
    (hnodup : data.Nodup) {row : List ℕ} (hrow : row ∈ data.map TID.value) :
    (∀ s ∈ data, s.value = row → s ∈ found) ↔ (data.map TID.value).count row = 1 := by
  obtain ⟨s,hs,hvalue⟩ := List.mem_map.mp hrow
  have hcount : (data.map TID.value).count row = (data.filter fun u => u.value == row).length := by
    rw [List.count,List.countP_map,List.countP_eq_length_filter]
    rfl
  have hmem : ∀ u, u ∈ (data.filter fun u => u.value == row) ↔ u ∈ data ∧ u.value = row := by
    intro u
    rw [List.mem_filter,beq_iff_eq]
  have hcopies : (data.filter fun u => u.value == row).Nodup := hnodup.filter _
  rw [hcount]
  constructor
  · intro h
    have hall : ∀ u ∈ (data.filter fun u => u.value == row), u = s := by
      intro u hu
      obtain ⟨hud,huv⟩ := (hmem u).mp hu
      exact hfound.value_inj (h u hud huv) (h s hs hvalue) (huv.trans hvalue.symm)
    have hperm : (data.filter fun u => u.value == row).Perm [s] := by
      refine (List.perm_ext_iff_of_nodup hcopies (List.nodup_singleton s)).mpr fun u => ?_
      rw [List.mem_singleton]
      exact ⟨hall u,fun hu => hu ▸ (hmem s).mpr ⟨hs,hvalue⟩⟩
    exact hperm.length_eq
  · intro h u hud huv
    obtain ⟨v,hv⟩ := List.length_eq_one_iff.mp h
    obtain ⟨s',hs',he⟩ := hfound.all u hud
    have hu : u ∈ (data.filter fun u => u.value == row) := (hmem u).mpr ⟨hud,huv⟩
    have hs'' : s' ∈ (data.filter fun u => u.value == row) :=
      (hmem s').mpr ⟨hfound.subset hs',he.trans huv⟩
    rw [hv,List.mem_singleton] at hu hs''
    rwa [hu,← hs'']

/-- The reader answers all copies of a selected row, each once, exactly when the row
stands in one slot. -/
theorem createDimListSorting_copies {w : ℕ} (hpast : b.pastEnd = some w)
    (hrange : ∀ d, dim ≤ d → d < b.store.numDim → b.maxDims d < 2^31)
    (hdim : dim < b.store.numDim) (h : b.Slots dim data) (hne : data ≠ [])
    (htids : (data.map TID.tid).Nodup) (elf : Memory) (wp : ℕ) :
    ∃ elf' wp', b.createDimListSorting data dim elf wp = some (elf',wp') ∧
      (wp' ≤ 2^62 → ∀ (maxFirstDim : ℕ) (q : Query), ∃ found : List ℕ,
        (∀ results, Returns (fun fuel => Elf.partialMatchList ⟨elf',b.store.numDim,maxFirstDim⟩
          q fuel dim wp results) (results ++ found)) ∧
        ∀ row ∈ data.map TID.value, q.selects dim (row.drop dim) = true →
          ((∀ s ∈ data, s.value = row → found.count s.tid = 1) ↔
            (data.map TID.value).count row = 1)) := by
  obtain ⟨elf',wp',hrun,_,hread⟩ := createDimListSorting_read hpast hrange hdim h hne elf wp
  refine ⟨elf',wp',hrun,?_⟩
  intro hbig maxFirstDim q
  obtain ⟨found,hfound,hreturns⟩ := hread hbig
  refine ⟨(selected q dim found).map TID.tid,hreturns maxFirstDim q,?_⟩
  intro row hrow hq
  rw [← copies_listed_iff hfound htids.of_map hrow]
  refine forall_congr' fun s => forall_congr' fun hs => forall_congr' fun he => ?_
  exact count_selected q hfound htids hs (by rw [he]; exact hq)

/-- One row of two columns in two slots. -/
def twinStore : Store := .ofRows 2 3 3 [[0,3],[0,3]] (by decide)

def twinBuilder : Builder := ⟨twinStore,fun _ => 3,some 0⟩

def twinSlots : List TID := [⟨0,[0,3]⟩,⟨1,[0,3]⟩]

def everything : Query := ⟨fun _ => 0,fun _ => 9,fun _ => true⟩

theorem twinSlots_slots : twinBuilder.Slots 1 twinSlots where
  point := by decide
  value_lt := by decide
  agree := by decide
  le_max := by
    intro s hs d hd hlt
    have hd1 : d = 1 := Nat.le_antisymm (Nat.le_of_lt_succ hlt) hd
    subst hd1
    exact (by decide : ∀ s ∈ twinSlots, s.key 1 ≤ 3) s hs

/-- The list of the twin slots answers one of them, the row scan both. -/
theorem createDimListSorting_loses_twin :
    twinBuilder.Slots 1 twinSlots ∧ (twinSlots.map TID.tid).Nodup ∧
      ∃ elf' wp', twinBuilder.createDimListSorting twinSlots 1 (fun _ => 0) 4 = some (elf',wp') ∧
        Returns (fun fuel => Elf.partialMatchList ⟨elf',2,0⟩ everything fuel 1 4 []) [1] ∧
        SeqScan.partialMatch twinStore everything = [0,1] := by
  refine ⟨twinSlots_slots,by decide,?_⟩
  unfold createDimListSorting
  refine ⟨_,_,rfl,⟨1,?_⟩,by decide⟩
  intro fuel hfuel
  obtain ⟨fuel,rfl⟩ : ∃ k, fuel = k+1 := ⟨fuel-1,by omega⟩
  rfl

theorem createDimListSorting_copies_twin :
    ∃ elf' wp', twinBuilder.createDimListSorting twinSlots 1 (fun _ => 0) 4 = some (elf',wp') ∧
      (wp' ≤ 2^62 → ∀ (maxFirstDim : ℕ) (q : Query), ∃ found : List ℕ,
        (∀ results, Returns (fun fuel => Elf.partialMatchList ⟨elf',2,maxFirstDim⟩
          q fuel 1 4 results) (results ++ found)) ∧
        ∀ row ∈ twinSlots.map TID.value, q.selects 1 (row.drop 1) = true →
          ((∀ s ∈ twinSlots, s.value = row → found.count s.tid = 1) ↔
            (twinSlots.map TID.value).count row = 1)) :=
  createDimListSorting_copies (w:=0) rfl (fun _ _ _ => by norm_num [twinBuilder]) (by decide)
    twinSlots_slots (by decide) (by decide) (fun _ => 0) 4

end Builder
end ElfIndex
