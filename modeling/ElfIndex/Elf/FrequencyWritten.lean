import ElfIndex.Elf.FrequencyBuilder
import ElfIndex.Elf.RoundTrip

/-! # What the frequency-map builder writes

The loops over the map write the same entries as the loops over sorted slots, for groups
that hold the same slots. By recursion on the remaining dimensions the builder writes a
tree of its points, if their rows differ.
-/
namespace ElfIndex
open WordMemory SortingEngine

namespace Builder

variable {b : Builder} {dim : ℕ} {tids : List ℕ} {freqList : FrequencyMap}

/-! ## The loops over the map -/

/-- The keys are written like the values of the groups. -/
theorem writeKeys_spec (hkeys : ∀ e ∈ freqList, groupKey dim (e.2.tids.map b.slot) = e.1)
    (elf : Memory) (wp begin : ℕ) (positions : List ℕ) :
    ∃ elf', writeKeys freqList elf wp positions = (elf',wp+3*freqList.length,positions ++
        (entriesFrom wp begin (b.bucketGroups freqList)).map ListEntry.nextListPosition) ∧
      ChangesOnly elf elf' wp (wp+3*freqList.length) ∧ (freqList ≠ [] →
        Headers dim (flagWord elf' (wp+3*freqList.length-3)) wp (b.bucketGroups freqList)) := by
  induction freqList generalizing elf wp begin positions with
  | nil =>
    refine ⟨elf,?_,fun _ _ => rfl,fun hne => absurd rfl hne⟩
    simp only [writeKeys,bucketGroups,List.map_nil,entriesFrom,List.append_nil,List.length_nil,
      Nat.mul_zero,Nat.add_zero]
  | cons e rest ih =>
    obtain ⟨key,item⟩ := e
    have hkey := hkeys (key,item) List.mem_cons_self
    obtain ⟨elf',hrun,hframe,hhead⟩ := ih (fun e he => hkeys e (List.mem_cons_of_mem _ he))
      (write elf wp key) (wp+3) (begin+(item.tids.map b.slot).length) (positions ++ [wp+1])
    have hlen : wp+3+3*rest.length = wp+3*((key,item) :: rest).length := by
      rw [List.length_cons]
      omega
    have hfirst : elf' wp = key := by
      rw [hframe wp (by omega),write_same]
    rw [hlen] at hrun hframe hhead
    refine ⟨elf',?_,?_,fun _ => ?_⟩
    · rw [writeKeys,hrun]
      simp only [bucketGroups,List.map_cons,entriesFrom,List.append_assoc,List.singleton_append]
    · refine (write_changesOnly le_rfl ?_).trans (hframe.mono (by omega) le_rfl)
      rw [← hlen]
      omega
    · cases rest with
      | nil =>
        have hback : wp+3*[(key,item)].length-3 = wp := by
          simp only [List.length_singleton]
          omega
        rw [hback]
        simp only [bucketGroups,List.map_cons,List.map_nil,Headers,flagWord,write_same,hfirst,hkey]
      | cons e' rest =>
        refine ⟨?_,hhead (List.cons_ne_nil _ _)⟩
        rw [flagWord,write_other (by rw [← hlen,List.length_cons]; omega),hfirst,hkey]

/-- The body of the second loop, as a body of the loop over the entries of groups. -/
def bucketBody (b : Builder) (create : List ℕ → Memory → ℕ → Option (Memory × ℕ)) (dim : ℕ)
    (data : List TID) (l : ListEntry) (elf : Memory) (writePointer : ℕ) : Option (Memory × ℕ) :=
  b.writeBucket create dim l.nextListPosition (((data.drop l.begin).take l.length).map TID.tid)
    elf writePointer

/-- The second loop over the map is the loop over the entries of the groups. -/
theorem forItems_eq (create : List ℕ → Memory → ℕ → Option (Memory × ℕ)) {data : List TID}
    {begin : ℕ} (hdata : data.drop begin = (b.bucketGroups freqList).flatten) (pos : ℕ)
    (elf : Memory) (wp : ℕ) :
    forItems (b.writeBucket create dim) freqList
        ((entriesFrom pos begin (b.bucketGroups freqList)).map ListEntry.nextListPosition) elf wp =
      forLists (b.bucketBody create dim data) (entriesFrom pos begin (b.bucketGroups freqList))
        elf wp := by
  induction freqList generalizing pos begin elf wp with
  | nil => rfl
  | cons e rest ih =>
    obtain ⟨key,item⟩ := e
    have hflat : data.drop begin = (item.tids.map b.slot :: b.bucketGroups rest).flatten := hdata
    have htids : ((data.drop begin).take (item.tids.map b.slot).length).map TID.tid = item.tids := by
      rw [take_front hflat,List.map_map]
      exact List.map_id' item.tids
    have hrest : data.drop (begin+(item.tids.map b.slot).length) =
        (b.bucketGroups rest).flatten := drop_front hflat
    have hgroups : b.bucketGroups ((key,item) :: rest) =
        item.tids.map b.slot :: b.bucketGroups rest := rfl
    rw [hgroups,entriesFrom,List.map_cons,forItems,forLists,bucketBody,htids]
    exact congrArg (Option.bind _) (funext fun r => ih hrest (pos+3) r.1 r.2)

/-- The recursive call: no list is split by a column behind the last one. -/
def linearizeNext (b : Builder) (dim : ℕ) (tids : List ℕ) (elf : Memory) (writePointer : ℕ) :
    Option (Memory × ℕ) :=
  if dim+1 < b.store.numDim then b.linearizeDimList tids (dim+1) elf writePointer else none

/-- The builder in terms of groups of slots. -/
theorem linearizeDimList_groups (hdim : dim < b.store.numDim) (hne : tids ≠ [])
    (hpoints : ∀ tid ∈ tids, tid < b.store.numPoints) (mem : Memory) (wp : ℕ) :
    ∃ gs heads, gs ≠ [] ∧ Grouped dim gs ∧ gs.flatten.Perm (tids.map b.slot) ∧
      Headers dim heads wp gs ∧ ChangesOnly mem heads wp (wp+3*gs.length) ∧
      b.linearizeDimList tids dim mem wp =
        forLists (b.bucketBody (b.linearizeNext dim) dim gs.flatten) (entriesFrom wp 0 gs) heads
          (wp+3*gs.length) := by
  obtain ⟨freqList,hrun,hcollected⟩ := createFrequencyList_spec hdim tids hpoints
  obtain ⟨elf',hkeys,hframe,hhead⟩ := writeKeys_spec (fun e he => hcollected.groupKey_eq he) mem wp 0 []
  have hmap : freqList ≠ [] := by
    obtain ⟨tid,rest,rfl⟩ := List.exists_cons_of_ne_nil hne
    obtain ⟨e,he,_⟩ := (hcollected.keys _).mpr ⟨tid,List.mem_cons_self,rfl⟩
    exact List.ne_nil_of_mem he
  have hlen : (b.bucketGroups freqList).length = freqList.length := List.length_map _
  have hpos := List.length_pos_of_ne_nil hmap
  refine ⟨b.bucketGroups freqList,flagWord elf' (wp+3*freqList.length-3),?_,hcollected.grouped,
    hcollected.flatten_perm,hhead hmap,?_,?_⟩
  · rw [ne_eq,← List.length_eq_zero_iff]
    omega
  · rw [hlen]
    exact hframe.trans (write_changesOnly (by omega) (by omega))
  · rw [linearizeDimList,hrun,Option.bind_eq_bind,Option.bind_some,hkeys,List.nil_append,hlen]
    exact forItems_eq (b.linearizeNext dim) rfl wp _ _

/-! ## The recursion -/

variable {data : List TID}

theorem Slots.slot_eq (h : b.Slots dim data) {s : TID} (hs : s ∈ data) : b.slot s.tid = s := by
  have hpoint := h.point s hs
  rw [Store.getPoint] at hpoint
  rw [slot,List.getD_eq_getElem?_getD,hpoint,Option.getD_some]

/-- The identifiers of slots stand for the slots. -/
theorem Slots.map_slot (h : b.Slots dim data) : (data.map TID.tid).map b.slot = data := by
  rw [List.map_map]
  exact (List.map_congr_left fun s hs => h.slot_eq hs).trans (List.map_id' data)

/-- Several different rows that agree up to a column differ behind it. -/
theorem Slots.next_lt {g : List TID} (h : b.Slots dim g) (hkey : ∀ s ∈ g, s.key dim = groupKey dim g)
    (hdistinct : (g.map TID.value).Nodup) (hlen : 1 < g.length) (hdim : dim < b.store.numDim) :
    dim+1 < b.store.numDim := by
  by_contra hlast
  have hnext := h.next hkey
  have hnil : ∀ s ∈ g, s.value.drop (dim+1) = [] := fun s hs =>
    List.drop_eq_nil_of_le (by rw [h.length_eq hs]; omega)
  have h0 : 0 < g.length := by omega
  have heq := hnext.value_eq (List.getElem_mem h0) (List.getElem_mem hlen)
    ((hnil _ (List.getElem_mem h0)).trans (hnil _ (List.getElem_mem hlen)).symm)
  have hne := List.pairwise_iff_getElem.mp (List.pairwise_map.mp hdistinct) 0 1 h0 hlen (by omega)
  exact hne heq

/-- A bucket of one point is a mono list, whose closing word is not flagged. -/
theorem bucketBody_single {create : List ℕ → Memory → ℕ → Option (Memory × ℕ)} {s : TID}
    {ptr begin : ℕ} (htake : (data.drop begin).take 1 = [s]) (mem : Memory) (wp : ℕ) :
    b.bucketBody create dim data ⟨ptr,begin,1⟩ mem wp =
      b.linearizeElfMono (set64 mem ptr (wp ||| lastEntryMask64)) wp s.tid (dim+1) := by
  simp only [bucketBody,htake,writeBucket,List.map_cons,List.map_nil,List.length_singleton,
    gt_iff_lt,Nat.lt_irrefl,if_false,List.getElem?_cons_zero,Option.bind_eq_bind,Option.bind_some]

/-- A bucket of several points is a list of the next column. -/
theorem bucketBody_several {g : List TID} {ptr begin : ℕ} (hlen : 1 < g.length)
    (hdim : dim+1 < b.store.numDim) (htake : (data.drop begin).take g.length = g) (mem : Memory)
    (wp : ℕ) :
    b.bucketBody (b.linearizeNext dim) dim data ⟨ptr,begin,g.length⟩ mem wp =
      b.linearizeDimList (g.map TID.tid) (dim+1) (set64 mem ptr wp) wp := by
  simp only [bucketBody,htake,writeBucket,List.length_map,gt_iff_lt,hlen,if_true,linearizeNext,hdim]

theorem linearizeDimList_spec (hdim : dim < b.store.numDim) (h : b.Slots dim (tids.map b.slot))
    (hne : tids ≠ []) (hdistinct : ((tids.map b.slot).map TID.value).Nodup) (mem : Memory)
    (wp : ℕ) :
    ∃ mem' wp', b.linearizeDimList tids dim mem wp = some (mem',wp') ∧
      ListWritten b.store.numDim dim (tids.map b.slot) mem wp mem' wp' := by
  induction hk : b.store.numDim-dim generalizing dim tids mem wp with
  | zero => omega
  | succ k ih =>
    have hpoints : ∀ tid ∈ tids, tid < b.store.numPoints := fun tid htid =>
      Store.getPoint_lt (h.point (b.slot tid) (List.mem_map_of_mem htid))
    obtain ⟨gs,heads,hgne,hgs,hperm,hhead,hscan,hrun⟩ :=
      linearizeDimList_groups hdim hne hpoints mem wp
    have hslots : b.Slots dim gs.flatten := h.subset hperm.subset
    have hdiff : (gs.flatten.map TID.value).Nodup := (hperm.map _).nodup_iff.mpr hdistinct
    suffices hlist : ∃ mem' wp', b.linearizeDimList tids dim mem wp = some (mem',wp') ∧
        ListWritten b.store.numDim dim gs.flatten mem wp mem' wp' by
      obtain ⟨mem',wp',hcall,hw⟩ := hlist
      exact ⟨mem',wp',hcall,hw.perm hperm⟩
    rw [hrun]
    refine groups_written hdim hslots hgne hgs rfl hhead hscan ?_
    intro g hg hgne hgslots hgkey ptr begin mem wp htake hwp
    rcases single_or_several hgne with ⟨s,rfl⟩ | hl
    · obtain ⟨mem',hmono,hgroup,_⟩ := linearizeElfMono_group hdim (hgslots.next hgkey) hwp
      exact ⟨mem',_,(bucketBody_single htake mem wp).trans hmono,hgroup⟩
    · have hgdiff : (g.map TID.value).Nodup :=
        hdiff.sublist ((List.sublist_flatten_of_mem hg).map _)
      have hnext := hgslots.next_lt hgkey hgdiff hl hdim
      have hmap := hgslots.map_slot
      have hcreate := ih hnext (by rw [hmap]; exact hgslots.next hgkey)
        (fun hnil => hgne (List.map_eq_nil_iff.mp hnil)) (by rwa [hmap]) (set64 mem ptr wp) wp
        (by omega)
      rw [hmap] at hcreate
      obtain ⟨mem',wp',hcall,hw⟩ := hcreate
      exact ⟨mem',wp',(bucketBody_several hl hnext htake mem wp).trans hcall,
        list_group hnext hl hwp hw⟩

end Builder
end ElfIndex
