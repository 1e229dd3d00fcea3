import ElfIndex.Elf.Layout
import ElfIndex.Lib.Buckets

/-! # The frequency-map builder

The older builder of a dimension list collects the tuple identifiers of each value in an
ordered map of growing buckets, writes the keys of the map and then the list behind each of
them. Nothing is sorted in place, and no tuple identifier is flagged.
-/
namespace ElfIndex
open WordMemory SortingEngine

def initialBucketSize : ℕ := 16

/-- A bucket of tuple identifiers, those in use, with the words allocated for it. -/
structure FrequencyItem where
  tids : List ℕ
  capacity : ℕ
deriving DecidableEq, Repr

def FrequencyItem.count (item : FrequencyItem) : ℕ := item.tids.length

def FrequencyItem.fresh : FrequencyItem := ⟨[],initialBucketSize⟩

/-- Store an identifier behind those in use. At even counts the bucket is reallocated. -/
def FrequencyItem.push (item : FrequencyItem) (tid : ℕ) : Option FrequencyItem :=
  if item.count < item.capacity then
    some ⟨item.tids ++ [tid],
      if (item.count+1)%2 = 0 then (item.count+1)*2 else item.capacity⟩
  else none

/-- The ordered map from values to buckets, by ascending values. -/
abbrev FrequencyMap := List (ℕ × FrequencyItem)

/-- Find the bucket of a value, inserting a fresh one if there is none, and store the
identifier there. -/
def storeTid (value tid : ℕ) : FrequencyMap → Option FrequencyMap
  | [] => (FrequencyItem.fresh.push tid).map fun item => [(value,item)]
  | (key,item) :: rest =>
    if key = value then (item.push tid).map fun item => (key,item) :: rest
    else if value < key then
      (FrequencyItem.fresh.push tid).map fun fresh => (value,fresh) :: (key,item) :: rest
    else (storeTid value tid rest).map fun rest => (key,item) :: rest

/-- The loop over the map that writes its keys and notes where the pointers go. -/
def writeKeys : FrequencyMap → Memory → ℕ → List ℕ → Memory × ℕ × List ℕ
  | [], elf, writePointer, nextListPositions => (elf,writePointer,nextListPositions)
  | (key,_) :: rest, elf, writePointer, nextListPositions =>
    writeKeys rest (write elf writePointer key) (writePointer+3)
      (nextListPositions ++ [writePointer+1])

/-- The second loop over the map, with the bucket and the noted position of each key. -/
def forItems (body : ℕ → List ℕ → Memory → ℕ → Option (Memory × ℕ)) :
    FrequencyMap → List ℕ → Memory → ℕ → Option (Memory × ℕ)
  | [], _, elf, writePointer => some (elf,writePointer)
  | _ :: _, [], _, _ => none
  | (_,item) :: rest, position :: positions, elf, writePointer => do
    let (elf,writePointer) ← body position item.tids elf writePointer
    forItems body rest positions elf writePointer

namespace Builder

variable (b : Builder)

def createFrequencyList (tids : List ℕ) (dim : ℕ) : Option FrequencyMap :=
  tids.foldlM (fun freqList tid => do
    let point ← b.store.getPoint tid
    let value ← point[dim]?
    storeTid value tid freqList) []

/-- The list of one bucket. -/
def writeBucket (create : List ℕ → Memory → ℕ → Option (Memory × ℕ)) (dim position : ℕ)
    (tids : List ℕ) (elf : Memory) (writePointer : ℕ) : Option (Memory × ℕ) :=
  if tids.length > 1 then create tids (set64 elf position writePointer) writePointer
  else do
    let tid ← tids[0]?
    b.linearizeElfMono (set64 elf position (writePointer ||| lastEntryMask64)) writePointer tid
      (dim+1)

/-- A bucket of several points in the last column would be split by a column behind it, which
no row has. -/
def linearizeDimList (tids : List ℕ) (dim : ℕ) (elf : Memory) (writePointer : ℕ) :
    Option (Memory × ℕ) := do
  let freqList ← b.createFrequencyList tids dim
  let (elf,writePointer,nextListPositions) := writeKeys freqList elf writePointer []
  forItems (b.writeBucket (fun tids elf writePointer =>
      if dim+1 < b.store.numDim then linearizeDimList tids (dim+1) elf writePointer else none) dim)
    freqList nextListPositions (flagWord elf (writePointer-3)) writePointer
termination_by b.store.numDim-dim

end Builder

/-! ## The buckets -/

/-- A bucket has room for the next identifier, and for two before its next reallocation. -/
structure FrequencyItem.Room (item : FrequencyItem) : Prop where
  next : item.count < item.capacity
  even : item.count%2 = 0 → item.count+1 < item.capacity

theorem FrequencyItem.fresh_room : FrequencyItem.fresh.Room := ⟨by decide,fun _ => by decide⟩

theorem FrequencyItem.Room.push {item : FrequencyItem} (h : item.Room) (tid : ℕ) :
    ∃ item', item.push tid = some item' ∧ item'.tids = item.tids ++ [tid] ∧ item'.Room := by
  have hnext := h.next
  refine ⟨_,if_pos hnext,rfl,?_⟩
  have hcount : FrequencyItem.count ⟨item.tids ++ [tid],
      if (item.count+1)%2 = 0 then (item.count+1)*2 else item.capacity⟩ = item.count+1 := by
    rw [FrequencyItem.count,List.length_append,List.length_singleton,FrequencyItem.count]
  refine ⟨?_,?_⟩
  · rw [hcount]
    dsimp only
    split
    · omega
    · exact h.even (by omega)
  · intro heven
    rw [hcount] at heven ⊢
    dsimp only
    rw [if_pos heven]
    omega

/-- Storing an identifier adds it to the bucket of its value and keeps the map ordered. -/
theorem storeTid_spec (value tid : ℕ) (stored : ℕ → List ℕ) {freqList : FrequencyMap}
    (hascending : freqList.Pairwise fun e e' => e.1 < e'.1)
    (hstored : ∀ e ∈ freqList, e.2.tids = stored e.1 ∧ e.2.Room)
    (hnew : (∀ e ∈ freqList, e.1 ≠ value) → stored value = []) :
    ∃ freqList', storeTid value tid freqList = some freqList' ∧
      freqList'.Pairwise (fun e e' => e.1 < e'.1) ∧
      (∀ key, (∃ e ∈ freqList', e.1 = key) ↔ key = value ∨ ∃ e ∈ freqList, e.1 = key) ∧
      ∀ e ∈ freqList', e.2.tids = (if e.1 = value then stored value ++ [tid] else stored e.1) ∧
        e.2.Room := by
  induction freqList with
  | nil =>
    obtain ⟨item,hpush,htids,hroom⟩ := FrequencyItem.fresh_room.push tid
    refine ⟨[(value,item)],by rw [storeTid,hpush,Option.map_some],List.pairwise_singleton _ _,?_,?_⟩
    · intro key
      simp [eq_comm]
    · intro e he
      rw [List.mem_singleton.mp he,if_pos rfl,htids,hnew fun e he => absurd he List.not_mem_nil]
      exact ⟨rfl,hroom⟩
  | cons entry rest ih =>
    obtain ⟨key,item⟩ := entry
    obtain ⟨hlt,hrest⟩ := List.pairwise_cons.mp hascending
    obtain ⟨htids,hroom⟩ := hstored (key,item) List.mem_cons_self
    have hstoredRest : ∀ e ∈ rest, e.2.tids = stored e.1 ∧ e.2.Room := fun e he =>
      hstored e (List.mem_cons_of_mem _ he)
    rcases Nat.lt_trichotomy key value with hless | rfl | hgreater
    · obtain ⟨rest',hrun,hasc,hkeys,hall⟩ := ih hrest hstoredRest (by
        intro hno
        refine hnew fun e he => ?_
        rcases List.mem_cons.mp he with rfl | he
        · exact Nat.ne_of_lt hless
        · exact hno e he)
      refine ⟨(key,item) :: rest',?_,List.pairwise_cons.mpr ⟨?_,hasc⟩,?_,?_⟩
      · rw [storeTid,if_neg (by omega),if_neg (by omega),hrun,Option.map_some]
      · intro e he
        rcases (hkeys e.1).mp ⟨e,he,rfl⟩ with heq | ⟨e',he',heq⟩
        · rw [heq]
          exact hless
        · rw [← heq]
          exact hlt e' he'
      · intro key'
        simp only [List.mem_cons,exists_eq_or_imp,hkeys key',or_left_comm]
      · intro e he
        rcases List.mem_cons.mp he with rfl | he
        · rw [if_neg (Nat.ne_of_lt hless)]
          exact ⟨htids,hroom⟩
        · exact hall e he
    · obtain ⟨item',hpush,htids',hroom'⟩ := hroom.push tid
      refine ⟨(key,item') :: rest,by rw [storeTid,if_pos rfl,hpush,Option.map_some],
        List.pairwise_cons.mpr ⟨hlt,hrest⟩,?_,?_⟩
      · intro key'
        simp only [List.mem_cons,exists_eq_or_imp]
        rw [eq_comm (a:=key'),← or_assoc,or_self]
      · intro e he
        rcases List.mem_cons.mp he with rfl | he
        · rw [if_pos rfl,htids',htids]
          exact ⟨rfl,hroom'⟩
        · rw [if_neg (Nat.ne_of_gt (hlt e he))]
          exact hstoredRest e he
    · obtain ⟨fresh,hpush,htids',hroom'⟩ := FrequencyItem.fresh_room.push tid
      have hno : ∀ e ∈ (key,item) :: rest, value < e.1 := by
        intro e he
        rcases List.mem_cons.mp he with rfl | he
        · exact hgreater
        · exact hgreater.trans (hlt e he)
      refine ⟨(value,fresh) :: (key,item) :: rest,?_,List.pairwise_cons.mpr ⟨hno,hascending⟩,?_,?_⟩
      · rw [storeTid,if_neg (by omega),if_pos hgreater,hpush,Option.map_some]
      · intro key'
        simp only [List.mem_cons,exists_eq_or_imp]
        rw [eq_comm (a:=key') (b:=value)]
      · intro e he
        rcases List.mem_cons.mp he with rfl | he
        · rw [if_pos rfl,htids',hnew fun e he => (Nat.ne_of_gt (hno e he))]
          exact ⟨rfl,hroom'⟩
        · rw [if_neg (Nat.ne_of_gt (hno e he))]
          exact hstored e he

namespace Builder

variable {b : Builder} {dim : ℕ} {tids : List ℕ} {freqList : FrequencyMap}

/-- The map holds, by ascending values, the identifiers of each value that occurs, in the
order they came. -/
structure Collected (b : Builder) (dim : ℕ) (tids : List ℕ) (freqList : FrequencyMap) : Prop where
  ascending : freqList.Pairwise fun e e' => e.1 < e'.1
  bucket : ∀ e ∈ freqList,
    e.2.tids = (tids.filter fun tid => decide (b.store.value tid dim = e.1)) ∧ e.2.Room
  keys : ∀ key, (∃ e ∈ freqList, e.1 = key) ↔ ∃ tid ∈ tids, b.store.value tid dim = key

theorem Collected.nil : Collected b dim [] [] := by
  refine ⟨List.Pairwise.nil,?_,?_⟩
  · intro e he
    exact absurd he List.not_mem_nil
  · intro key
    constructor
    · rintro ⟨e,he,_⟩
      exact absurd he List.not_mem_nil
    · rintro ⟨tid,htid,_⟩
      exact absurd htid List.not_mem_nil

theorem Collected.store (h : Collected b dim tids freqList) (tid : ℕ) :
    ∃ freqList', storeTid (b.store.value tid dim) tid freqList = some freqList' ∧
      Collected b dim (tids ++ [tid]) freqList' := by
  obtain ⟨freqList',hrun,hascending,hkeys,hbucket⟩ := storeTid_spec (b.store.value tid dim) tid
    (fun key => tids.filter fun tid => decide (b.store.value tid dim = key))
    h.ascending h.bucket (by
      intro hno
      rw [List.filter_eq_nil_iff]
      intro tid' htid' hvalue
      obtain ⟨e,he,hkey⟩ := (h.keys (b.store.value tid dim)).mpr
        ⟨tid',htid',of_decide_eq_true hvalue⟩
      exact hno e he hkey)
  refine ⟨freqList',hrun,hascending,?_,?_⟩
  · intro e he
    obtain ⟨htids,hroom⟩ := hbucket e he
    refine ⟨?_,hroom⟩
    rw [htids,List.filter_append,List.filter_singleton]
    by_cases hkey : e.1 = b.store.value tid dim
    · rw [if_pos hkey,hkey,decide_eq_true rfl]
      rfl
    · rw [if_neg hkey,decide_eq_false (fun heq => hkey heq.symm)]
      exact (List.append_nil _).symm
  · intro key
    rw [hkeys key,h.keys key]
    constructor
    · rintro (rfl | ⟨tid',htid',hvalue⟩)
      · exact ⟨tid,List.mem_append_right _ List.mem_cons_self,rfl⟩
      · exact ⟨tid',List.mem_append_left _ htid',hvalue⟩
    · rintro ⟨tid',htid',hvalue⟩
      rcases List.mem_append.mp htid' with hmem | hmem
      · exact Or.inr ⟨tid',hmem,hvalue⟩
      · rw [List.mem_singleton.mp hmem] at hvalue
        exact Or.inl hvalue.symm

/-- The loop over the points fills the map. -/
theorem createFrequencyList_spec (hdim : dim < b.store.numDim) (tids : List ℕ)
    (hpoints : ∀ tid ∈ tids, tid < b.store.numPoints) :
    ∃ freqList, b.createFrequencyList tids dim = some freqList ∧
      Collected b dim tids freqList := by
  have hrun : ∀ (rest done : List ℕ) (freqList : FrequencyMap), Collected b dim done freqList →
      (∀ tid ∈ rest, tid < b.store.numPoints) →
      ∃ freqList', rest.foldlM (fun freqList tid => do
        let point ← b.store.getPoint tid
        let value ← point[dim]?
        storeTid value tid freqList) freqList = some freqList' ∧
          Collected b dim (done ++ rest) freqList' := by
    intro rest
    induction rest with
    | nil =>
      intro done freqList hdone _
      exact ⟨freqList,rfl,by rwa [List.append_nil]⟩
    | cons tid rest ih =>
      intro done freqList hdone hrest
      obtain ⟨point,hpoint,hlen,_,hvalue⟩ := b.store.getPoint_eq_some (hrest tid List.mem_cons_self)
      have hin : dim < point.length := by omega
      have hread : point[dim]? = some (b.store.value tid dim) := by
        rw [hvalue,List.getD_eq_getElem?_getD,List.getElem?_eq_getElem hin,Option.getD_some]
      obtain ⟨next,hstore,hcollected⟩ := hdone.store tid
      obtain ⟨freqList',hfold,hall⟩ := ih (done ++ [tid]) next hcollected
        fun t ht => hrest t (List.mem_cons_of_mem tid ht)
      refine ⟨freqList',?_,by rwa [List.append_assoc,List.singleton_append] at hall⟩
      rw [List.foldlM_cons,hpoint]
      simp only [Option.bind_eq_bind,Option.bind_some,hread,hstore]
      exact hfold
  obtain ⟨freqList,hfold,hall⟩ := hrun tids [] [] Collected.nil hpoints
  exact ⟨freqList,hfold,by rwa [List.nil_append] at hall⟩

/-! ## The buckets as groups of slots -/

/-- The slot of a tuple. -/
def slot (b : Builder) (tid : ℕ) : TID := ⟨tid,b.store.store.getD tid []⟩

/-- The group of slots behind each key of the map. -/
def bucketGroups (b : Builder) (freqList : FrequencyMap) : List (List TID) :=
  freqList.map fun e => e.2.tids.map b.slot

theorem Collected.bucket_ne_nil (h : Collected b dim tids freqList) {e : ℕ × FrequencyItem}
    (he : e ∈ freqList) : e.2.tids ≠ [] := by
  obtain ⟨tid,htid,hvalue⟩ := (h.keys e.1).mp ⟨e,he,rfl⟩
  intro hnil
  rw [(h.bucket e he).1,List.filter_eq_nil_iff] at hnil
  exact hnil tid htid (decide_eq_true hvalue)

theorem Collected.key_of_mem (h : Collected b dim tids freqList) {e : ℕ × FrequencyItem}
    (he : e ∈ freqList) : ∀ s ∈ e.2.tids.map b.slot, s.key dim = e.1 := by
  intro s hs
  obtain ⟨tid,htid,rfl⟩ := List.mem_map.mp hs
  rw [(h.bucket e he).1] at htid
  exact of_decide_eq_true (List.mem_filter.mp htid).2

theorem Collected.groupKey_eq (h : Collected b dim tids freqList) {e : ℕ × FrequencyItem}
    (he : e ∈ freqList) : groupKey dim (e.2.tids.map b.slot) = e.1 :=
  ElfIndex.groupKey_eq (fun hnil => h.bucket_ne_nil he (List.map_eq_nil_iff.mp hnil))
    (h.key_of_mem he)

theorem Collected.grouped (h : Collected b dim tids freqList) :
    Grouped dim (b.bucketGroups freqList) := by
  constructor
  · intro g hg
    obtain ⟨e,he,rfl⟩ := List.mem_map.mp hg
    refine ⟨fun hnil => h.bucket_ne_nil he (List.map_eq_nil_iff.mp hnil),?_⟩
    intro s hs
    rw [h.key_of_mem he s hs,h.groupKey_eq he]
  · rw [bucketGroups,List.pairwise_map]
    refine h.ascending.imp_of_mem ?_
    intro e e' he he' hlt
    rwa [h.groupKey_eq he,h.groupKey_eq he']

/-- The buckets hold each tuple once. -/
theorem Collected.flatten_perm (h : Collected b dim tids freqList) :
    (b.bucketGroups freqList).flatten.Perm (tids.map b.slot) := by
  have hkeys : (freqList.map Prod.fst).Nodup := by
    refine List.pairwise_map.mpr (h.ascending.imp ?_)
    intro e e' hlt
    exact Nat.ne_of_lt hlt
  have hperm := Buckets.flatMap_filter_perm (f:=fun tid => b.store.value tid dim) hkeys tids (by
    intro tid htid
    obtain ⟨e,he,hkey⟩ := (h.keys (b.store.value tid dim)).mpr ⟨tid,htid,rfl⟩
    exact List.mem_map.mpr ⟨e,he,hkey⟩)
  have hbuckets : (b.bucketGroups freqList).flatten =
      ((freqList.map Prod.fst).flatMap fun key =>
        tids.filter fun tid => decide (b.store.value tid dim = key)).map b.slot := by
    rw [List.flatMap_map,List.map_flatMap,bucketGroups,← List.flatMap_def]
    refine List.flatMap_congr ?_
    intro e he
    rw [(h.bucket e he).1]
  rw [hbuckets]
  exact hperm.map b.slot

end Builder
end ElfIndex
