import ElfIndex.Elf.RootLayout
import ElfIndex.Elf.RoundTrip

/-! # The index built from a store

For a store with a dense first column the groups of the first column are the values
`0, .., MAX_FIRST_DIM`, so root slot `v` holds the points with first value `v`. The
finished image answers every query inside the directory like the row scan. The build
itself fails when the largest first value belongs to one point of several.
-/
namespace ElfIndex
open WordMemory SortingEngine Fuel

/-- What the builder relies on for the whole store. -/
structure Builder.Input (b : Builder) : Prop where
  pastEnd : ∃ w, b.pastEnd = some w
  numDim : 2 ≤ b.store.numDim
  numPoints : 1 ≤ b.store.numPoints
  value_lt : ∀ p ∈ b.store.store, ∀ v ∈ p, v < 2^31
  dense : ∀ tid < b.store.numPoints, ∀ v ≤ b.store.value tid 0,
    ∃ tid' < b.store.numPoints, b.store.value tid' 0 = v
  le_max : ∀ tid < b.store.numPoints, ∀ d < b.store.numDim, b.store.value tid d ≤ b.maxDims d
  max_mem : ∀ d < b.store.numDim, ∃ tid < b.store.numPoints, b.store.value tid d = b.maxDims d

/-- What the scan of the first column relies on. -/
structure Builder.FirstColumn (b : Builder) : Prop where
  pastEnd : ∃ w, b.pastEnd = some w
  numDim : 2 ≤ b.store.numDim
  numPoints : 1 ≤ b.store.numPoints
  dense : ∀ tid < b.store.numPoints, ∀ v ≤ b.store.value tid 0,
    ∃ tid' < b.store.numPoints, b.store.value tid' 0 = v
  le_max : ∀ tid < b.store.numPoints, b.store.value tid 0 ≤ b.maxDims 0
  max_mem : ∃ tid < b.store.numPoints, b.store.value tid 0 = b.maxDims 0

namespace Builder

variable {b : Builder}

theorem Input.firstColumn (h : b.Input) : b.FirstColumn where
  pastEnd := h.pastEnd
  numDim := h.numDim
  numPoints := h.numPoints
  dense := h.dense
  le_max := fun tid htid => h.le_max tid htid 0 (Nat.lt_of_lt_of_le Nat.two_pos h.numDim)
  max_mem := h.max_mem 0 (Nat.lt_of_lt_of_le Nat.two_pos h.numDim)

theorem mem_dataArray {s : TID} :
    s ∈ b.dataArray ↔ s.tid < b.store.numPoints ∧ b.store.getPoint s.tid = some s.value := by
  constructor
  · intro hs
    obtain ⟨i,hi,rfl⟩ := List.mem_map.mp hs
    have hlt : i < b.store.store.length := List.mem_range.mp hi
    refine ⟨hlt,?_⟩
    simp only [Store.getPoint,List.getD_eq_getElem?_getD,List.getElem?_eq_getElem hlt,
      Option.getD_some]
  · rintro ⟨hlt,hpoint⟩
    refine List.mem_map.mpr ⟨s.tid,List.mem_range.mpr hlt,?_⟩
    unfold Store.getPoint at hpoint
    rw [List.getD_eq_getElem?_getD,hpoint,Option.getD_some]

theorem key_eq_value {s : TID} (hs : s ∈ b.dataArray) (d : ℕ) :
    s.key d = b.store.value s.tid d := by
  obtain ⟨hlt,hpoint⟩ := mem_dataArray.mp hs
  obtain ⟨row,hrow,_,_,hvalue⟩ := Store.getPoint_eq_some hlt
  rw [hpoint] at hrow
  rw [hvalue d,TID.key,Option.some.inj hrow]

theorem dataArray_nodup : b.dataArray.Nodup := by
  refine List.Nodup.map ?_ List.nodup_range
  intro i j he
  exact congrArg TID.tid he

/-- Different points are in different slots. -/
theorem eq_of_value (hdistinct : b.store.store.Nodup) {s s' : TID} (hs : s ∈ b.dataArray)
    (hs' : s' ∈ b.dataArray) (he : s.value = s'.value) : s = s' := by
  obtain ⟨hlt,hpoint⟩ := mem_dataArray.mp hs
  obtain ⟨_,hpoint'⟩ := mem_dataArray.mp hs'
  have htid : s.tid = s'.tid := by
    refine (List.getElem?_inj hlt hdistinct).mp ?_
    rw [← Store.getPoint,← Store.getPoint,hpoint,hpoint',he]
  cases s
  cases s'
  simp only at htid he
  rw [htid,he]

theorem exists_slot {tid : ℕ} (h : tid < b.store.numPoints) :
    ∃ s ∈ b.dataArray, s.tid = tid := by
  obtain ⟨row,hrow,_⟩ := Store.getPoint_eq_some h
  exact ⟨⟨tid,row⟩,mem_dataArray.mpr ⟨h,hrow⟩,rfl⟩

theorem Input.slots (h : b.Input) : b.Slots 0 b.dataArray where
  point := fun _ hs => (mem_dataArray.mp hs).2
  value_lt := fun _ hs => h.value_lt _ (List.mem_of_getElem? (mem_dataArray.mp hs).2)
  agree := fun _ _ _ _ d hd => absurd hd (Nat.not_lt_zero d)
  le_max := fun s hs d _ hd => by
    rw [key_eq_value hs]
    exact h.le_max _ (mem_dataArray.mp hs).1 d hd

theorem Input.maxDims_lt (h : b.Input) : ∀ d < b.store.numDim, b.maxDims d < 2^31 := by
  intro d hd
  obtain ⟨tid,htid,hvalue⟩ := h.max_mem d hd
  obtain ⟨s,hs,rfl⟩ := exists_slot htid
  rw [← hvalue,← key_eq_value hs]
  exact h.slots.key_lt hs d

end Builder

/-! ## The groups of the first column -/

/-- Groups of a list in which every value up to the largest occurs have the keys
`0, 1, ..`. -/
theorem Grouped.keys_eq_range {dim : ℕ} {gs : List (List TID)} (h : Grouped dim gs)
    (hdense : ∀ s ∈ gs.flatten, ∀ v ≤ s.key dim, ∃ s' ∈ gs.flatten, s'.key dim = v) :
    gs.map (groupKey dim) = List.range gs.length := by
  have hlt : (gs.map (groupKey dim)).Pairwise (· < ·) := List.pairwise_map.mpr h.increasing
  have hkey : ∀ g ∈ gs, ∃ s ∈ gs.flatten, s.key dim = groupKey dim g := by
    intro g hg
    obtain ⟨hne,hall⟩ := h.group g hg
    obtain ⟨s,g',rfl⟩ := List.exists_cons_of_ne_nil hne
    exact ⟨s,List.mem_flatten.mpr ⟨_,hg,List.mem_cons_self⟩,rfl⟩
  have hdown : ∀ k ∈ gs.map (groupKey dim), ∀ v ≤ k, v ∈ gs.map (groupKey dim) := by
    intro k hk v hv
    obtain ⟨g,hg,rfl⟩ := List.mem_map.mp hk
    obtain ⟨s,hs,he⟩ := hkey g hg
    obtain ⟨s',hs',rfl⟩ := hdense s hs v (by omega)
    obtain ⟨g',hg',hm⟩ := List.mem_flatten.mp hs'
    exact List.mem_map.mpr ⟨g',hg',((h.group g' hg').2 s' hm).symm⟩
  generalize hl : gs.map (groupKey dim) = keys at hlt hdown
  have hlen : gs.length = keys.length := by rw [← hl,List.length_map]
  rw [hlen]
  clear hl hlen hkey hdense h
  -- a strictly increasing list that is closed downwards
  apply List.ext_getElem (by simp)
  intro i hi _
  rw [List.getElem_range]
  induction i using Nat.strongRecOn with
  | ind i ih =>
    have hle : i ≤ keys[i] := by
      cases i with
      | zero => exact Nat.zero_le _
      | succ i =>
        have hprev := ih i (by omega) (by omega) (by simp; omega)
        have := (List.pairwise_iff_getElem.mp hlt) i (i+1) (by omega) hi (by omega)
        omega
    obtain ⟨j,hj,hji⟩ := List.getElem_of_mem (hdown keys[i] (List.getElem_mem hi) i hle)
    rcases Nat.lt_trichotomy j i with hlt' | rfl | hgt
    · have := ih j hlt' hj (by simpa using hj)
      omega
    · exact hji
    · have := (List.pairwise_iff_getElem.mp hlt) i j hi hj hgt
      omega

/-- The last group holds the slots of the largest value. -/
theorem Grouped.countP_last {dim : ℕ} {gs : List (List TID)} (h : Grouped dim gs) (hne : gs ≠ []) :
    gs.flatten.countP (fun s => s.key dim == groupKey dim (gs.getLast hne)) =
      (gs.getLast hne).length := by
  induction gs with
  | nil => exact absurd rfl hne
  | cons g gs ih =>
    rw [List.flatten_cons,List.countP_append]
    cases gs with
    | nil =>
      have hall := (h.group g List.mem_cons_self).2
      simp only [List.getLast_singleton,List.flatten_nil,List.countP_nil,Nat.add_zero]
      rw [List.countP_eq_length]
      intro s hs
      rw [beq_iff_eq]
      exact hall s hs
    | cons g' gs =>
      rw [List.getLast_cons (List.cons_ne_nil _ _),ih h.tail (List.cons_ne_nil _ _)]
      have hzero : g.countP (fun s => s.key dim ==
          groupKey dim ((g' :: gs).getLast (List.cons_ne_nil _ _))) = 0 := by
        rw [List.countP_eq_zero]
        intro s hs hk
        rw [beq_iff_eq,(h.group g List.mem_cons_self).2 s hs] at hk
        have hlt := (List.pairwise_cons.mp h.increasing).1 _ (List.getLast_mem (List.cons_ne_nil g' gs))
        omega
      rw [hzero,Nat.zero_add]

/-- The largest key belongs to the last group and to the last slot. -/
theorem Grouped.last_key {dim : ℕ} {gs : List (List TID)} {out : List TID} (h : Grouped dim gs)
    (hflat : gs.flatten = out) (hne : gs ≠ [])
    (hkeys : gs.map (groupKey dim) = List.range gs.length) (hsorted : SortedBy dim out)
    (hout : out ≠ []) : (out.getLast hout).key dim+1 = gs.length := by
  have hpos : 0 < gs.length := List.length_pos_of_ne_nil hne
  have hmem : ∀ k, k < gs.length ↔ ∃ t ∈ out, t.key dim = k := by
    intro k
    rw [← List.mem_range,← hkeys,List.mem_map]
    constructor
    · rintro ⟨g,hg,rfl⟩
      obtain ⟨t,g',rfl⟩ := List.exists_cons_of_ne_nil (h.group g hg).1
      exact ⟨t,hflat ▸ List.mem_flatten.mpr ⟨_,hg,List.mem_cons_self⟩,rfl⟩
    · rintro ⟨t,ht,rfl⟩
      rw [← hflat] at ht
      obtain ⟨g,hg,htg⟩ := List.mem_flatten.mp ht
      exact ⟨g,hg,((h.group g hg).2 t htg).symm⟩
  have hlt := (hmem _).mpr ⟨_,List.getLast_mem hout,rfl⟩
  obtain ⟨t,ht,hk⟩ := (hmem (gs.length-1)).mp (by omega)
  have hle : t.key dim ≤ (out.getLast hout).key dim := by
    have hrefl : Std.Refl fun u v : TID => u.key dim ≤ v.key dim := ⟨fun u => le_rfl⟩
    exact List.Pairwise.rel_getLast hsorted ht
  omega

namespace Builder

variable {b : Builder}

/-- The sorted slots of a store and their groups. -/
structure RootGroups (b : Builder) (out : List TID) (gs : List (List TID)) : Prop where
  sorted : sort b.pastEnd 0 b.store.numDim b.maxDims b.dataArray = some out
  perm : out.Perm b.dataArray
  grouped : Grouped 0 gs
  flatten : gs.flatten = out
  keys : gs.map (groupKey 0) = List.range gs.length
  first : ∃ s ts, out = s :: ts ∧ gs = groupsFrom 0 (s.key 0) [s] ts
  last : ∃ s, out[b.store.numPoints-1]? = some s ∧ s.key 0+1 = gs.length

/-- A dense column has no value from the number of points on. -/
theorem FirstColumn.maxDims_lt (h : b.FirstColumn) : b.maxDims 0 < b.store.numPoints := by
  obtain ⟨tid,htid,hmax⟩ := h.max_mem
  have hsub : List.range (b.maxDims 0+1) ⊆
      (List.range b.store.numPoints).map fun tid => b.store.value tid 0 := by
    intro v hv
    obtain ⟨tid',htid',hvalue⟩ := h.dense tid htid v (by
      have := List.mem_range.mp hv
      omega)
    exact List.mem_map.mpr ⟨tid',List.mem_range.mpr htid',hvalue⟩
  have hle := (List.subperm_of_subset List.nodup_range hsub).length_le
  rwa [List.length_range,List.length_map,List.length_range] at hle

theorem agree_dataArray : Agree 0 b.store.numDim [] b.dataArray := by
  intro s hs
  exact ⟨b.store.row_length _ (List.mem_of_getElem? (mem_dataArray.mp hs).2),rfl⟩

theorem FirstColumn.rootGroups (h : b.FirstColumn) : ∃ out gs, RootGroups b out gs := by
  obtain ⟨w,hpast⟩ := h.pastEnd
  have hdim : 0 < b.store.numDim := Nat.lt_of_lt_of_le Nat.two_pos h.numDim
  have hmax := h.maxDims_lt
  have hN : b.store.numPoints ≤ 2^31-1 := b.store.numPoints_le
  obtain ⟨out,hsort,hperm,hsorted⟩ := sort_spec (w:=w) hdim agree_dataArray
    (show b.maxDims 0 < 2^31 by omega) (fun t ht => by
      rw [key_eq_value ht]
      exact h.le_max _ (mem_dataArray.mp ht).1)
  have hlen : out.length = b.store.numPoints := by
    rw [hperm.length_eq,dataArray,List.length_map,List.length_range]
  have hnum := h.numPoints
  have hout : out ≠ [] := by
    intro he
    rw [he,List.length_nil] at hlen
    omega
  obtain ⟨s,ts,hst⟩ := List.exists_cons_of_ne_nil hout
  have hflat : (groupsFrom 0 (s.key 0) [s] ts).flatten = out :=
    (groupsFrom_flatten (s.key 0) [s] ts).trans hst.symm
  have hgrouped : Grouped 0 (groupsFrom 0 (s.key 0) [s] ts) := by
    refine groupsFrom_grouped (List.cons_ne_nil _ _)
      (fun t ht => by rw [List.mem_singleton.mp ht]) ?_
    rw [hst] at hsorted
    exact hsorted
  have hdense : ∀ t ∈ out, ∀ v ≤ t.key 0, ∃ t' ∈ out, t'.key 0 = v := by
    intro t ht v hv
    have htd := hperm.mem_iff.mp ht
    rw [key_eq_value htd] at hv
    obtain ⟨tid',htid',hvalue⟩ := h.dense _ (mem_dataArray.mp htd).1 v hv
    obtain ⟨t',ht',rfl⟩ := exists_slot htid'
    exact ⟨t',hperm.mem_iff.mpr ht',(key_eq_value ht' 0).trans hvalue⟩
  have hkeys := hgrouped.keys_eq_range (by rw [hflat]; exact hdense)
  rw [← hpast] at hsort
  refine ⟨out,_,hsort,hperm,hgrouped,hflat,hkeys,⟨s,ts,hst,rfl⟩,out.getLast hout,?_,?_⟩
  · rw [List.getLast_eq_getElem,← hlen]
    exact List.getElem?_eq_getElem _
  · exact hgrouped.last_key hflat (groupsFrom_ne_nil (s.key 0) [s] ts) hkeys hsorted hout

theorem Input.rootGroups (h : b.Input) : ∃ out gs, RootGroups b out gs := h.firstColumn.rootGroups

theorem RootGroups.numPoints {out : List TID} {gs : List (List TID)} (h : RootGroups b out gs) :
    gs.flatten.length = b.store.numPoints := by
  rw [h.flatten,h.perm.length_eq,dataArray,List.length_map,List.length_range]

theorem RootGroups.ne_nil {out : List TID} {gs : List (List TID)} (h : RootGroups b out gs) :
    gs ≠ [] := by
  obtain ⟨s,_,hs⟩ := h.last
  intro he
  rw [he,List.length_nil] at hs
  omega

theorem RootGroups.length_le {out : List TID} {gs : List (List TID)} (h : RootGroups b out gs) :
    gs.length ≤ b.store.numPoints := by
  rw [← h.numPoints]
  have hne := fun g hg => (h.grouped.group g hg).1
  clear h
  induction gs with
  | nil => exact Nat.zero_le _
  | cons g gs ih =>
    have hg : 0 < g.length := List.length_pos_of_ne_nil (hne g List.mem_cons_self)
    have hrest := ih fun g' hg' => hne g' (List.mem_cons_of_mem _ hg')
    simp only [List.length_cons,List.flatten_cons,List.length_append]
    omega

/-- Group `v` of the first column holds the slots with first value `v`. -/
theorem RootGroups.group {out : List TID} {gs : List (List TID)} (h : RootGroups b out gs) {v : ℕ}
    {g : List TID} (hg : gs[v]? = some g) :
    g ≠ [] ∧ g ⊆ b.dataArray ∧ ∀ s ∈ g, s.key 0 = v := by
  have hmem : g ∈ gs := List.mem_of_getElem? hg
  obtain ⟨hne,hkey⟩ := h.grouped.group g hmem
  have hv : groupKey 0 g = v := by
    have hrange := congrArg (fun l : List ℕ => l[v]?) h.keys
    simp only [List.getElem?_map,hg,Option.map_some] at hrange
    have hlt : v < gs.length := (List.getElem?_eq_some_iff.mp hg).1
    rw [List.getElem?_range hlt] at hrange
    exact Option.some.inj hrange
  refine ⟨hne,?_,fun s hs => (hkey s hs).trans hv⟩
  intro s hs
  rw [← h.perm.mem_iff,← h.flatten]
  exact List.mem_flatten.mpr ⟨g,hmem,hs⟩

/-- The build in terms of its groups. -/
theorem RootGroups.build_eq {out : List TID} {gs : List (List TID)} (h : RootGroups b out gs)
    (elf : Memory) :
    b.buildFromDataSorting elf = (b.writeRoots out gs 0 0 elf (gs.length*2)).map fun r =>
      (⟨r.1,b.store.numDim,gs.length-1⟩,r.2) := by
  obtain ⟨s,ts,hst,hgs⟩ := h.first
  obtain ⟨l,hl,hlast⟩ := h.last
  have hlen := h.length_le
  have hN := b.store.numPoints_le
  unfold Store.numPoints at hlen
  have hkey : l.key 0 = gs.length-1 := by omega
  have hwp : (gs.length-1+1)*2%2^32 = gs.length*2 := by omega
  have hfirst : out[0]? = some s := by rw [hst]; rfl
  have hdrop : out.drop 1 = ts := by rw [hst]; rfl
  have hscan : b.scanRoot out ts 1 0 (s.key 0) 0 elf (gs.length*2) =
      b.writeRoots out (groupsFrom 0 (s.key 0) [s] ts) 0 0 elf (gs.length*2) :=
    scanRoot_eq [s] ts rfl
  rw [← hgs] at hscan
  rw [buildFromDataSorting,h.sorted]
  simp only [Option.bind_eq_bind,Option.bind_some,hl,hfirst,hdrop,hkey,hwp,hscan]
  cases b.writeRoots out gs 0 0 elf (gs.length*2) with
  | none => rfl
  | some r => rfl

theorem RootGroups.slots {out : List TID} {gs : List (List TID)} (h : RootGroups b out gs)
    (hb : b.Input) : ∀ g ∈ gs, g ≠ [] ∧ b.Slots 1 g := by
  intro g hg
  obtain ⟨v,hv,hgv⟩ := List.getElem_of_mem hg
  obtain ⟨hne,hsub,hkey⟩ := h.group (List.getElem?_eq_some_iff.mpr ⟨hv,hgv⟩)
  exact ⟨hne,(hb.slots.subset hsub).next hkey⟩

/-- A tree that covers group `v` has the rows of the group without their first value. -/
theorem RootGroups.group_rows {out : List TID} {gs : List (List TID)} (h : RootGroups b out gs)
    (hb : b.Input) (hdistinct : b.store.store.Nodup) {v : ℕ} {g : List TID} (hg : gs[v]? = some g)
    {t : DimTree} (hord : t.Ordered) (hcov : t.Covers 1 g) :
    ∃ found : List TID, found.Perm g ∧
      t.rows.map (fun r => (v :: r.1,r.2)) = found.map (rowFrom 0) := by
  obtain ⟨hne,hsub,hkey⟩ := h.group hg
  obtain ⟨found,hfound,hrows⟩ := ((hb.slots.subset hsub).next hkey).rows_eq hord hcov
  have hnodup : (g.map TID.value).Nodup := by
    refine List.Nodup.map_on ?_ ?_
    · intro s hs s' hs' he
      exact eq_of_value hdistinct (hsub hs) (hsub hs') he
    · have hflat : gs.flatten.Nodup := by
        rw [h.flatten]
        exact h.perm.nodup_iff.mpr dataArray_nodup
      exact (List.nodup_flatten.mp hflat).1 _ (List.mem_of_getElem? hg)
  refine ⟨found,hfound.perm hnodup,?_⟩
  rw [hrows,List.map_map]
  apply List.map_congr_left
  intro s hs
  have hs' := hfound.subset hs
  have hcons : s.value.drop 0 = s.key 0 :: s.value.drop 1 :=
    drop_eq_key_cons (hb.slots.length_eq (hsub hs')) (Nat.lt_of_lt_of_le Nat.two_pos hb.numDim)
  simp only [Function.comp_apply,rowFrom]
  rw [hcons,hkey s hs']

theorem flatMap_getD_range (gs : List (List TID)) :
    ((List.range gs.length).flatMap fun v => gs.getD v []) = gs.flatten := by
  have hid : (List.range gs.length).map (fun v => gs.getD v []) = gs := by
    apply List.ext_getElem (by simp)
    intro v h1 h2
    rw [List.getElem_map,List.getElem_range,List.getD_eq_getElem?_getD,
      List.getElem?_eq_getElem h2,Option.getD_some]
  rw [List.flatMap_def,hid]

/-- The finished image of a store whose last group is long or the only one. -/
theorem RootGroups.image {out : List TID} {gs : List (List TID)} (h : RootGroups b out gs)
    (hb : b.Input) (hdistinct : b.store.store.Nodup)
    (hlast : 1 < (gs.getLast h.ne_nil).length ∨ gs.length = 1) (elf : Memory) :
    ∃ (im : Image) (wp : ℕ), b.buildFromDataSorting elf = some (im.toElf,wp) ∧
      im.maxFirstDim < 2^31-1 ∧ im.rows.Perm (b.dataArray.map (rowFrom 0)) := by
  obtain ⟨w,hpast⟩ := hb.pastEnd
  obtain ⟨mem,wp,hrun,hle,_,hcost,htree⟩ := writeRoots_spec hpast hb.maxDims_lt hb.numDim gs h.ne_nil
    (h.slots hb) elf (show out.drop 0 = gs.flatten from h.flatten.symm)
    (hlast.imp id fun hl => ⟨hl,rfl⟩) (show (0+gs.length)*2 ≤ gs.length*2 by omega)
  have hbig : wp ≤ 2^62 := by
    have hwords := b.store.words_lt
    have hN := b.store.numPoints_le
    have hsum := Nat.mul_add b.store.store.length (3*b.store.numDim) 5
    have hthree := Nat.mul_left_comm b.store.store.length 3 b.store.numDim
    rw [h.numPoints,Store.numPoints] at hcost
    omega
  have hpos : 0 < gs.length := List.length_pos_of_ne_nil h.ne_nil
  have hmax : gs.length-1 < 2^31-1 := by
    have hlen := h.length_le
    have hN := b.store.numPoints_le
    unfold Store.numPoints at hlen
    omega
  -- the slots behind each root slot
  have hslot : ∀ v, v ≤ gs.length-1 → ∃ (t : DimTree) (found : List TID), t.Ordered ∧
      (∃ off < 2^62, get64 mem (2*v) = t.pointer off ∧
        t.StoredIn mem b.store.numDim (2*(gs.length-1+1)) wp 1 off) ∧
      found.Perm (gs.getD v []) ∧
      t.rows.map (fun r => (v :: r.1,r.2)) = found.map (rowFrom 0) := by
    intro v hv
    have hg : gs[v]? = some (gs.getD v []) := by
      rw [List.getD_eq_getElem?_getD,List.getElem?_eq_getElem (show v < gs.length by omega),
        Option.getD_some]
    obtain ⟨t,off,hoff,hptr,hord,hst,hcov⟩ := htree hbig v _ hg
    obtain ⟨found,hperm,hrows⟩ := h.group_rows hb hdistinct hg hord hcov
    refine ⟨t,found,hord,⟨off,hoff,?_,hst.mono (by omega) le_rfl⟩,hperm,hrows⟩
    rw [← hptr,Nat.zero_add,Nat.mul_comm]
  choose! tree found hord hst hperm hrows using hslot
  refine ⟨⟨⟨mem,b.store.numDim,gs.length-1⟩,tree,wp,hmax.trans (by norm_num),hord,hst⟩,wp,?_,hmax,?_⟩
  · rw [h.build_eq,hrun]
    rfl
  · have hm : gs.length-1+1 = gs.length := by omega
    have hlt : ∀ v ∈ List.range gs.length, v ≤ gs.length-1 := by
      intro v hv
      have := List.mem_range.mp hv
      omega
    simp only [Image.rows,hm]
    rw [List.flatMap_congr fun v hv => hrows v (hlt v hv),← List.map_flatMap]
    refine List.Perm.map _ (List.Perm.trans ?_ h.perm)
    rw [← h.flatten,← flatMap_getD_range gs]
    exact List.Perm.flatMap_left _ fun v hv => hperm v (hlt v hv)

/-- On an image of the rows of a store the reader answers like the row scan. -/
theorem search_perm {im : Image} (h : im.rows.Perm (b.dataArray.map (rowFrom 0))) (q : Query) :
    (im.search q).Perm (SeqScan.partialMatch b.store q) := by
  have hrow : ∀ i ∈ List.range b.store.numPoints,
      isPartiallyIn (b.store.value i) q b.store.numDim =
        q.selects 0 ((b.store.store.getD i []).drop 0) := by
    intro i hi
    obtain ⟨row,hpoint,hlen,_⟩ := Store.getPoint_eq_some (List.mem_range.mp hi)
    have hget : b.store.store.getD i [] = row := by
      rw [List.getD_eq_getElem?_getD,← Store.getPoint,hpoint,Option.getD_some]
    rw [List.drop_zero,← isPartiallyIn_eq_selects,hget,hlen]
    refine congrArg (fun p => isPartiallyIn p q b.store.numDim) ?_
    funext dim
    rw [Store.value,hget]
  have hscan : ((b.dataArray.map (rowFrom 0)).filter fun r => q.selects 0 r.1).map Prod.snd =
      SeqScan.partialMatch b.store q := by
    rw [dataArray,List.map_map,List.filter_map,List.map_map,SeqScan.partialMatch,
      List.filter_congr hrow]
    exact List.map_id _
  rw [← hscan]
  exact (h.filter _).map _

/-- The points with the largest first value. -/
def lastPoints (b : Builder) : List ℕ :=
  (List.range b.store.numPoints).filter fun tid => b.store.value tid 0 == b.maxDims 0

theorem RootGroups.last_length {out : List TID} {gs : List (List TID)} (h : RootGroups b out gs)
    (hb : b.Input) : (gs.getLast h.ne_nil).length = b.lastPoints.length := by
  have hdim : 0 < b.store.numDim := Nat.lt_of_lt_of_le Nat.two_pos hb.numDim
  have hlast : gs[gs.length-1]? = some (gs.getLast h.ne_nil) := by
    rw [List.getLast_eq_getElem]
    exact List.getElem?_eq_getElem _
  obtain ⟨hne,hsub,hkey⟩ := h.group hlast
  have hmax : groupKey 0 (gs.getLast h.ne_nil) = b.maxDims 0 := by
    rw [groupKey_eq hne hkey]
    obtain ⟨s,g',hg⟩ := List.exists_cons_of_ne_nil hne
    have hs : s ∈ gs.getLast h.ne_nil := hg ▸ List.mem_cons_self
    have hle := hb.slots.le_max s (hsub hs) 0 le_rfl hdim
    rw [hkey s hs] at hle
    obtain ⟨tid,htid,hvalue⟩ := hb.max_mem 0 hdim
    obtain ⟨t,ht,rfl⟩ := exists_slot htid
    rw [← h.perm.mem_iff,← h.flatten] at ht
    obtain ⟨g,hgm,htg⟩ := List.mem_flatten.mp ht
    obtain ⟨v,hv,hgv⟩ := List.getElem_of_mem hgm
    obtain ⟨_,hsub',hkey'⟩ := h.group (List.getElem?_eq_some_iff.mpr ⟨hv,hgv⟩)
    have := hkey' t htg
    rw [key_eq_value (hsub' htg),hvalue] at this
    omega
  rw [← h.grouped.countP_last h.ne_nil,hmax,h.flatten,h.perm.countP_eq,dataArray,List.countP_map,
    lastPoints,← List.countP_eq_length_filter]
  rfl

/-- The index of a store of different points is built, and answers every query inside
its directory like the row scan, exactly when the store is one point or its largest first
value belongs to several points. -/
theorem buildFromDataSorting_exact_iff (h : b.Input) (hdistinct : b.store.store.Nodup)
    (elf : Memory) :
    (∃ (e : Elf) (wp : ℕ), b.buildFromDataSorting elf = some (e,wp) ∧ ∀ q : Query,
      q.lowerBound 0 ≤ q.upperBound 0 → q.upperBound 0 ≤ e.maxFirstDim →
        ∃ found, Returns (e.partialMatch q) found ∧
          found.Perm (SeqScan.partialMatch b.store q)) ↔
      b.store.numPoints = 1 ∨ 2 ≤ b.lastPoints.length := by
  obtain ⟨out,gs,hroot⟩ := h.rootGroups
  have hlast := hroot.last_length h
  have hnum := hroot.numPoints
  constructor
  · rintro ⟨e,wp,hrun,_⟩
    by_contra hno
    have hN := h.numPoints
    have hpos : 0 < (gs.getLast hroot.ne_nil).length :=
      List.length_pos_of_ne_nil (hroot.grouped.group _ (List.getLast_mem hroot.ne_nil)).1
    have hnone : b.writeRoots out gs 0 0 elf (gs.length*2) = none := by
      refine writeRoots_none gs hroot.ne_nil ?_ (by omega) ?_
      · rw [hroot.flatten,Nat.zero_add]
      · rw [← hroot.flatten,hnum]
        omega
    rw [hroot.build_eq,hnone] at hrun
    cases hrun
  · intro hcond
    have hgood : 1 < (gs.getLast hroot.ne_nil).length ∨ gs.length = 1 := by
      rcases hcond with hone | htwo
      · have hlen := hroot.length_le
        have hpos : 0 < gs.length := List.length_pos_of_ne_nil hroot.ne_nil
        exact Or.inr (by omega)
      · exact Or.inl (by omega)
    obtain ⟨im,wp,hrun,hmax,hrows⟩ := hroot.image h hdistinct hgood elf
    refine ⟨im.toElf,wp,hrun,?_⟩
    intro q hle hup
    refine ⟨im.search q,im.partialMatch_search q (fun _ => ⟨hle,hup⟩) ?_,search_perm hrows q⟩
    unfold Image.lastSlot
    split <;> omega

/-- Three points, two of them with the largest first value. -/
def denseStore : Store := .ofRows 2 0 5 [[1,2],[0,5],[1,0]] (by decide)

def denseBuilder : Builder := ⟨denseStore,fun d => if d = 0 then 1 else 5,some 0⟩

theorem denseBuilder_input : denseBuilder.Input where
  pastEnd := ⟨0,rfl⟩
  numDim := by decide
  numPoints := by decide
  value_lt := by decide
  dense := by decide
  le_max := by decide
  max_mem := by decide

theorem buildFromDataSorting_exact_dense :
    (∃ (e : Elf) (wp : ℕ), denseBuilder.buildFromDataSorting (fun _ => 7) = some (e,wp) ∧
      ∀ q : Query, q.lowerBound 0 ≤ q.upperBound 0 → q.upperBound 0 ≤ e.maxFirstDim →
        ∃ found, Returns (e.partialMatch q) found ∧
          found.Perm (SeqScan.partialMatch denseStore q)) ↔
      denseBuilder.store.numPoints = 1 ∨ 2 ≤ denseBuilder.lastPoints.length :=
  buildFromDataSorting_exact_iff denseBuilder_input (by decide) fun _ => 7

/-- Two points with the first values 0 and 1. -/
def stairStore : Store := .ofRows 2 0 1 [[0,0],[1,0]] (by decide)

def stairBuilder : Builder := ⟨stairStore,fun d => if d = 0 then 1 else 0,some 0⟩

theorem stairBuilder_input : stairBuilder.Input where
  pastEnd := ⟨0,rfl⟩
  numDim := by decide
  numPoints := by decide
  value_lt := by decide
  dense := by decide
  le_max := by decide
  max_mem := by decide

/-- The build of these points reads behind the last slot. -/
theorem buildFromDataSorting_stair :
    stairBuilder.Input ∧ stairStore.store.Nodup ∧
      ∀ elf, stairBuilder.buildFromDataSorting elf = none :=
  ⟨stairBuilder_input,by decide,fun _ => rfl⟩

end Builder
end ElfIndex
