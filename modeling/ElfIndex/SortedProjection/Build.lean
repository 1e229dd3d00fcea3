import ElfIndex.Lib.Buffer
import ElfIndex.SortingEngine.Digits
import ElfIndex.Store

/-! # Sorted projections

A projection copies the columns `first, .., last` of each tuple and its identifier, sorts
these rows by column `first` and keeps this column apart from the rest of the rows. The
sort is told the largest value of column 0 whatever column it sorts by.
-/
namespace ElfIndex
open SortingEngine

/-- One projection: its entries of `firstDims` and `lastDims` and its pair of `cols`. -/
structure Projection where
  first : ℕ
  last : ℕ
  keys : List ℕ
  rows : List (List ℕ)
deriving DecidableEq, Repr

namespace SortedProjection

/-- The row of `temp` of one tuple: the columns and behind them the identifier. -/
def projectRow (s : Store) (first last i : ℕ) : Option (List ℕ) := do
  let point ← s.getPoint i
  let cells ← (List.range (last-first+1)).mapM fun k => point[first+k]?
  some (cells ++ [i])

/-- Each slot of `data_array` gets its row; the identifiers of the slots stay as they are. -/
def fillArray (s : Store) (first last : ℕ) (tids : ℕ → ℕ) : Option (List TID) :=
  (List.range s.numPoints).mapM fun i => do
    let row ← projectRow s first last i
    some ⟨tids i,row⟩

/-- One turn of the loop that copies the sorted slots into the pair of `cols`. -/
def copySlots (data : List TID) (p : Projection) : Option Projection := do
  let keys ← data.mapM fun t => t.value[0]?
  let rows ← data.mapM fun t => (List.range (p.last-p.first+1)).mapM fun k => t.value[1+k]?
  some {p with keys := keys, rows := rows}

/-- `buildIndex` over the projections from `numSPs` on. The word behind the table of bin
starts and the identifiers in the allocated slots are arbitrary. -/
def buildIndex (s : Store) (pastEnd : ℕ) (maxDims : ℕ → ℕ) :
    (ℕ → ℕ) → List Projection → Option (List Projection)
  | _, [] => some []
  | tids, p :: ps => do
    let data ← fillArray s p.first p.last tids
    let sorted ← sort (some pastEnd) 0 (p.last-p.first+2) maxDims data
    -- the copying loop over `dim` does the same in each turn
    let p ← (List.range (p.last-p.first+2)).foldlM (fun p _ => copySlots sorted p) p
    let ps ← buildIndex s pastEnd maxDims (fun i => (sorted.map TID.tid).getD i 0) ps
    some (p :: ps)

/-! ## What a projection holds -/

/-- The column the projection sorts by, in the order of the tuples. -/
def column (s : Store) (dim : ℕ) : List ℕ :=
  (List.range s.numPoints).map fun tid => s.value tid dim

/-- The stored row of a tuple: the columns behind the key, then the identifier. -/
def storedRow (s : Store) (p : Projection) (tid : ℕ) : List ℕ :=
  (List.range (p.last-p.first)).map (fun k => s.value tid (p.first+1+k)) ++ [tid]

/-- The projection holds each tuple once, in this order. -/
structure Holds (s : Store) (p : Projection) (order : List ℕ) : Prop where
  perm : order.Perm (List.range s.numPoints)
  keys : p.keys = order.map fun tid => s.value tid p.first
  rows : p.rows = order.map (storedRow s p)

/-- The row of `temp` in full. -/
def projectedRow (s : Store) (first last tid : ℕ) : List ℕ :=
  (List.range (last-first+1)).map (fun k => s.value tid (first+k)) ++ [tid]

variable {s : Store} {first last : ℕ}

theorem projectedRow_length (tid : ℕ) : (projectedRow s first last tid).length = last-first+2 := by
  rw [projectedRow,List.length_append,List.length_map,List.length_range,List.length_singleton]

theorem projectedRow_column {k : ℕ} (hk : k ≤ last-first) (tid : ℕ) :
    (projectedRow s first last tid)[k]? = some (s.value tid (first+k)) := by
  rw [projectedRow,List.getElem?_append_left (by rw [List.length_map,List.length_range]; omega),
    List.getElem?_map,List.getElem?_range (by omega),Option.map_some]

theorem projectedRow_tid (tid : ℕ) : (projectedRow s first last tid)[last-first+1]? = some tid := by
  rw [projectedRow,List.getElem?_append_right (by rw [List.length_map,List.length_range]),
    List.length_map,List.length_range,Nat.sub_self]
  rfl

theorem storedRow_length (p : Projection) (tid : ℕ) :
    (storedRow s p tid).length = p.last-p.first+1 := by
  rw [storedRow,List.length_append,List.length_map,List.length_range,List.length_singleton]

theorem storedRow_column {p : Projection} {k : ℕ} (hk : k < p.last-p.first) (tid : ℕ) :
    (storedRow s p tid)[k]? = some (s.value tid (p.first+1+k)) := by
  rw [storedRow,List.getElem?_append_left (by rwa [List.length_map,List.length_range]),
    List.getElem?_map,List.getElem?_range hk,Option.map_some]

theorem storedRow_tid (p : Projection) (tid : ℕ) :
    (storedRow s p tid)[p.last-p.first]? = some tid := by
  rw [storedRow,List.getElem?_append_right (by rw [List.length_map,List.length_range]),
    List.length_map,List.length_range,Nat.sub_self]
  rfl

theorem projectRow_eq (hle : first ≤ last) (hlast : last < s.numDim) {i : ℕ}
    (hi : i < s.numPoints) : projectRow s first last i = some (projectedRow s first last i) := by
  obtain ⟨point,hpoint,hlen,_,hvalue⟩ := s.getPoint_eq_some hi
  have hcells : (List.range (last-first+1)).mapM (fun k => point[first+k]?) =
      some ((List.range (last-first+1)).map fun k => s.value i (first+k)) := by
    refine Buffer.mapM_eq_map _ ?_
    intro k hk
    have hin : first+k < point.length := by
      have := List.mem_range.mp hk
      omega
    rw [hvalue,List.getD_eq_getElem?_getD,List.getElem?_eq_getElem hin,Option.getD_some]
  rw [projectRow,hpoint,Option.bind_eq_bind,Option.bind_some,hcells]
  rfl

/-- The slots in the order of the tuples. -/
def filledSlots (s : Store) (first last : ℕ) (tids : ℕ → ℕ) : List TID :=
  (List.range s.numPoints).map fun i => ⟨tids i,projectedRow s first last i⟩

theorem fillArray_eq (hle : first ≤ last) (hlast : last < s.numDim) (tids : ℕ → ℕ) :
    fillArray s first last tids = some (filledSlots s first last tids) := by
  refine Buffer.mapM_eq_map _ ?_
  intro i hi
  rw [projectRow_eq hle hlast (List.mem_range.mp hi)]
  rfl

/-- The sorted slots hold the rows of the tuples, in some order. -/
theorem slots_order {tids : ℕ → ℕ} {sorted : List TID}
    (hperm : sorted.Perm (filledSlots s first last tids)) :
    ∃ order : List ℕ, order.Perm (List.range s.numPoints) ∧
      sorted.map TID.value = order.map (projectedRow s first last) := by
  have hvalues : (sorted.map TID.value).Perm
      ((List.range s.numPoints).map (projectedRow s first last)) := by
    have h := hperm.map TID.value
    rwa [filledSlots,List.map_map] at h
  refine ⟨sorted.map fun t => t.value.getD (last-first+1) 0,?_,?_⟩
  · have h := hvalues.map fun row => row.getD (last-first+1) 0
    simp only [List.map_map,Function.comp_def,List.getD_eq_getElem?_getD,projectedRow_tid,
      Option.getD_some,List.map_id'] at h
    simpa only [List.getD_eq_getElem?_getD] using h
  · rw [List.map_map]
    refine List.map_congr_left ?_
    intro t ht
    obtain ⟨tid,_,hrow⟩ := List.mem_map.mp (hvalues.mem_iff.mp (List.mem_map_of_mem ht))
    rw [Function.comp_apply,← hrow,List.getD_eq_getElem?_getD,projectedRow_tid,Option.getD_some]

/-- The built projection when the sorted slots hold the tuples in this order. -/
def arranged (s : Store) (p : Projection) (order : List ℕ) : Projection :=
  {p with
    keys := order.map fun tid => s.value tid p.first
    rows := order.map (storedRow s p)}

theorem copySlots_eq {p : Projection} {sorted : List TID} {order : List ℕ}
    (h : sorted.map TID.value = order.map (projectedRow s p.first p.last)) :
    copySlots sorted p = some (arranged s p order) := by
  have hrow : ∀ t ∈ sorted, ∃ tid, t.value = projectedRow s p.first p.last tid := by
    intro t ht
    have hmem : t.value ∈ order.map (projectedRow s p.first p.last) := by
      rw [← h]
      exact List.mem_map_of_mem ht
    obtain ⟨tid,_,heq⟩ := List.mem_map.mp hmem
    exact ⟨tid,heq.symm⟩
  have hkeys : sorted.mapM (fun t => t.value[0]?) =
      some (sorted.map fun t => t.value.getD 0 0) := by
    refine Buffer.mapM_eq_map _ ?_
    intro t ht
    obtain ⟨tid,heq⟩ := hrow t ht
    rw [heq,List.getD_eq_getElem?_getD,projectedRow_column (Nat.zero_le _),Option.getD_some]
  have htail : ∀ tid, (List.range (p.last-p.first+1)).mapM
      (fun k => (projectedRow s p.first p.last tid)[1+k]?) = some (storedRow s p tid) := by
    intro tid
    have hcells : ∀ k ∈ List.range (p.last-p.first+1),
        (projectedRow s p.first p.last tid)[1+k]? = some ((storedRow s p tid).getD k 0) := by
      intro k hk
      rw [List.mem_range,Nat.lt_succ_iff] at hk
      rcases Nat.lt_or_eq_of_le hk with hlt | rfl
      · rw [projectedRow_column (by omega),List.getD_eq_getElem?_getD,storedRow_column hlt,
          Option.getD_some,← Nat.add_assoc]
      · rw [Nat.add_comm 1,projectedRow_tid,List.getD_eq_getElem?_getD,storedRow_tid,
          Option.getD_some]
    rw [Buffer.mapM_eq_map _ hcells]
    refine congrArg some (List.ext_getElem ?_ ?_)
    · rw [List.length_map,List.length_range,storedRow_length]
    · intro k hk hk'
      rw [List.getElem_map,List.getElem_range,List.getD_eq_getElem?_getD,
        List.getElem?_eq_getElem hk',Option.getD_some]
  have hrows : sorted.mapM (fun t => (List.range (p.last-p.first+1)).mapM fun k => t.value[1+k]?) =
      some (sorted.map fun t => storedRow s p (t.value.getD (p.last-p.first+1) 0)) := by
    refine Buffer.mapM_eq_map _ ?_
    intro t ht
    obtain ⟨tid,heq⟩ := hrow t ht
    rw [heq,htail,List.getD_eq_getElem?_getD,projectedRow_tid,Option.getD_some]
  rw [copySlots,hkeys,Option.bind_eq_bind,Option.bind_some,hrows,Option.bind_eq_bind,
    Option.bind_some,arranged]
  have hfirst := congrArg (List.map fun row : List ℕ => row.getD 0 0) h
  have hlast := congrArg
    (List.map fun row : List ℕ => storedRow s p (row.getD (p.last-p.first+1) 0)) h
  rw [List.map_map,List.map_map] at hfirst hlast
  simp only [Function.comp_def,List.getD_eq_getElem?_getD,projectedRow_tid,
    projectedRow_column (Nat.zero_le _),Option.getD_some,Nat.add_zero] at hfirst hlast
  simp only [List.getD_eq_getElem?_getD,hfirst,hlast]

/-- Copying once more changes nothing. -/
theorem copyLoop_eq {p : Projection} {sorted : List TID} {order : List ℕ}
    (h : sorted.map TID.value = order.map (projectedRow s p.first p.last)) {turns : List ℕ}
    (hne : turns ≠ []) :
    turns.foldlM (fun p _ => copySlots sorted p) p = some (arranged s p order) := by
  have hagain : ∀ turns : List ℕ, turns.foldlM (fun p _ => copySlots sorted p)
      (arranged s p order) = some (arranged s p order) := by
    intro turns
    induction turns with
    | nil => rfl
    | cons dim turns ih =>
      rw [List.foldlM_cons,copySlots_eq (p:=arranged s p order) h,Option.bind_eq_bind,
        Option.bind_some]
      exact ih
  obtain ⟨dim,turns,rfl⟩ := List.exists_cons_of_ne_nil hne
  rw [List.foldlM_cons,copySlots_eq h,Option.bind_eq_bind,Option.bind_some]
  exact hagain turns

/-! ## The build -/

/-- What the build makes of a projection: the tuples in some order, sorted by the key
column as far as the limit lets the engine sort it. -/
structure BuiltFrom (s : Store) (limit : ℕ) (p p' : Projection) : Prop where
  first_eq : p'.first = p.first
  last_eq : p'.last = p.last
  holds : ∃ order, Holds s p' order
  ordered : p'.keys.Pairwise (· ≤ ·) → LimitOrders limit (column s p.first)
  sorted : LimitSorts limit (column s p.first) → p'.keys.Pairwise (· ≤ ·)

theorem arranged_holds {p : Projection} {order : List ℕ}
    (h : order.Perm (List.range s.numPoints)) : Holds s (arranged s p order) order := ⟨h,rfl,rfl⟩

/-- One projection, whatever the slots hold before. -/
theorem buildProjection_spec (maxDims : ℕ → ℕ) (hmax : maxDims 0 < 2^31) (p : Projection)
    (tids : ℕ → ℕ) :
    ∃ sorted p', (∀ w, sort (some w) 0 (p.last-p.first+2) maxDims
        (filledSlots s p.first p.last tids) = some sorted) ∧
      (List.range (p.last-p.first+2)).foldlM (fun p _ => copySlots sorted p) p = some p' ∧
      BuiltFrom s (maxDims 0) p p' := by
  have hagree : Agree 0 (p.last-p.first+2) [] (filledSlots s p.first p.last tids) := by
    intro t ht
    obtain ⟨i,_,rfl⟩ := List.mem_map.mp ht
    exact ⟨projectedRow_length i,List.take_zero⟩
  obtain ⟨sorted,hsort,hperm,hordered,hsorts⟩ :=
    sort_arranges maxDims (filledSlots s p.first p.last tids) (Nat.succ_pos _) hagree hmax
  obtain ⟨order,horder,hvalues⟩ := slots_order hperm
  have hkeys : keysOf 0 sorted = order.map fun tid => s.value tid p.first := by
    have h := congrArg (List.map fun row : List ℕ => row.getD 0 0) hvalues
    rw [List.map_map,List.map_map] at h
    simp only [Function.comp_def,List.getD_eq_getElem?_getD,projectedRow_column (Nat.zero_le _),
      Option.getD_some,Nat.add_zero] at h
    change sorted.map (fun t => t.value.getD 0 0) = _
    simpa only [List.getD_eq_getElem?_getD] using h
  have hcolumn : keysOf 0 (filledSlots s p.first p.last tids) = column s p.first := by
    rw [keysOf,filledSlots,List.map_map,column]
    refine List.map_congr_left ?_
    intro i _
    rw [Function.comp_apply,TID.key,List.getD_eq_getElem?_getD,
      projectedRow_column (Nat.zero_le _),Option.getD_some,Nat.add_zero]
  have hiff : SortedBy 0 sorted ↔ (arranged s p order).keys.Pairwise (· ≤ ·) := by
    rw [arranged,← hkeys,keysOf,List.pairwise_map,SortedBy]
  rw [hcolumn,hiff] at hordered hsorts
  refine ⟨sorted,arranged s p order,hsort,copyLoop_eq hvalues ?_,⟨rfl,rfl,
    ⟨order,arranged_holds horder⟩,hordered,hsorts⟩⟩
  rw [ne_eq,List.range_eq_nil]
  omega

theorem buildIndex_spec (maxDims : ℕ → ℕ) (hmax : maxDims 0 < 2^31) (ps : List Projection)
    (hdims : ∀ p ∈ ps, p.first ≤ p.last ∧ p.last < s.numDim) (tids : ℕ → ℕ) :
    ∃ built, (∀ w, buildIndex s w maxDims tids ps = some built) ∧
      List.Forall₂ (BuiltFrom s (maxDims 0)) ps built := by
  induction ps generalizing tids with
  | nil => exact ⟨[],fun _ => rfl,.nil⟩
  | cons p ps ih =>
    obtain ⟨hle,hlast⟩ := hdims p List.mem_cons_self
    obtain ⟨sorted,p',hsort,hcopy,hp⟩ := buildProjection_spec maxDims hmax p tids
    obtain ⟨built,hbuilt,hrest⟩ := ih (fun q hq => hdims q (List.mem_cons_of_mem p hq))
      fun i => (sorted.map TID.tid).getD i 0
    refine ⟨p' :: built,?_,.cons hp hrest⟩
    intro w
    simp only [buildIndex,fillArray_eq hle hlast,Option.bind_eq_bind,Option.bind_some,hsort w,
      hcopy,hbuilt]

/-- Each built projection holds each tuple once, key and row of one tuple side by side. Its
key column is sorted if the digits that the largest value of column 0 covers sort the keys,
and unsorted if they put a larger key first. -/
theorem buildIndex_sorted (s : Store) (maxDims : ℕ → ℕ) (hmax : maxDims 0 < 2^31)
    (ps : List Projection) (hdims : ∀ p ∈ ps, p.first ≤ p.last ∧ p.last < s.numDim)
    (tids : ℕ → ℕ) :
    ∃ built, (∀ w, buildIndex s w maxDims tids ps = some built) ∧
      List.Forall₂ (fun p p' : Projection => p'.first = p.first ∧ p'.last = p.last ∧
        (∃ order, Holds s p' order) ∧
        (LimitSorts (maxDims 0) (column s p.first) → p'.keys.Pairwise (· ≤ ·)) ∧
        (p'.keys.Pairwise (· ≤ ·) → LimitOrders (maxDims 0) (column s p.first))) ps built := by
  obtain ⟨built,hrun,hbuilt⟩ := buildIndex_spec maxDims hmax ps hdims tids
  refine ⟨built,hrun,hbuilt.imp ?_⟩
  intro p p' h
  exact ⟨h.first_eq,h.last_eq,h.holds,h.sorted,h.ordered⟩

/-- A hundred points, whose first column is sorted by two digits. -/
def rampStore : Store := .ofRows 2 0 693 ((List.range 100).map fun i => [693-7*i,i]) (by decide)

theorem buildIndex_sorted_ramp :
    ∃ p p', (∀ w, buildIndex rampStore w (fun _ => 693) id [⟨0,1,[],[]⟩,⟨1,1,[],[]⟩] =
        some [p,p']) ∧
      (∃ order, Holds rampStore p order) ∧ p.keys.Pairwise (· ≤ ·) ∧
      (∃ order, Holds rampStore p' order) ∧ p'.keys.Pairwise (· ≤ ·) := by
  obtain ⟨built,hrun,hbuilt⟩ := buildIndex_sorted rampStore (fun _ => 693) (by decide)
    [⟨0,1,[],[]⟩,⟨1,1,[],[]⟩] (by decide) id
  obtain ⟨p,rest,⟨_,_,horder,hsorts,_⟩,hrest,rfl⟩ := List.forall₂_cons_left_iff.mp hbuilt
  obtain ⟨p',rest',⟨_,_,horder',hsorts',_⟩,hnil,rfl⟩ := List.forall₂_cons_left_iff.mp hrest
  obtain rfl := List.forall₂_nil_left_iff.mp hnil
  have hkeys : ∀ tid < 100, rampStore.value tid 0 ≤ 693 ∧ rampStore.value tid 1 ≤ 693 := by decide
  refine ⟨p,p',hrun,horder,hsorts (limitSorts_of_le (by decide) fun v hv => ?_),horder',
    hsorts' (limitSorts_of_le (by decide) fun v hv => ?_)⟩
  · obtain ⟨tid,htid,rfl⟩ := List.mem_map.mp hv
    exact (hkeys tid (List.mem_range.mp htid)).1
  · obtain ⟨tid,htid,rfl⟩ := List.mem_map.mp hv
    exact (hkeys tid (List.mem_range.mp htid)).2

/-- Keys that the largest value of column 0 bounds are sorted, those of column 0 among them. -/
theorem buildIndex_sorted_of_le (maxDims : ℕ → ℕ) (hmax : maxDims 0 < 2^31) (ps : List Projection)
    (hdims : ∀ p ∈ ps, p.first ≤ p.last ∧ p.last < s.numDim)
    (hkeys : ∀ p ∈ ps, ∀ tid < s.numPoints, s.value tid p.first ≤ maxDims 0) (tids : ℕ → ℕ) :
    ∃ built, (∀ w, buildIndex s w maxDims tids ps = some built) ∧
      ∀ p' ∈ built, (∃ order, Holds s p' order) ∧ p'.keys.Pairwise (· ≤ ·) := by
  obtain ⟨built,hrun,hbuilt⟩ := buildIndex_spec maxDims hmax ps hdims tids
  refine ⟨built,hrun,?_⟩
  intro p' hp'
  obtain ⟨i,hi,rfl⟩ := List.mem_iff_getElem.mp hp'
  have hlen := hbuilt.length_eq
  have hfrom := List.Forall₂.get hbuilt (i:=i) (by omega) hi
  refine ⟨hfrom.holds,hfrom.sorted (limitSorts_of_le hmax ?_)⟩
  intro v hv
  obtain ⟨tid,htid,rfl⟩ := List.mem_map.mp hv
  exact hkeys _ (List.get_mem ps _) tid (List.mem_range.mp htid)

/-- A hundred points: column 0 is constant, column 1 holds one value of two digits. -/
def tallStore : Store := .ofRows 2 0 256 ([0,256] :: List.replicate 99 [0,1]) (by decide)

/-- The largest value of column 0 says that one digit is enough for the keys of column 1. -/
theorem buildIndex_unsorted :
    (∀ tid < 100, tallStore.value tid 0 ≤ 0 ∧ tallStore.value tid 1 ≤ 256) ∧
      tallStore.value 0 0 = 0 ∧ tallStore.value 0 1 = 256 ∧
    ¬ ∃ built, buildIndex tallStore 0 (fun dim => 256*dim) id [⟨1,1,[],[]⟩] = some built ∧
      ∀ p ∈ built, p.keys.Pairwise (· ≤ ·) := by
  refine ⟨by decide,by decide,by decide,?_⟩
  rintro ⟨built,hrun,hsorted⟩
  obtain ⟨built',hrun',hbuilt⟩ := buildIndex_spec (s:=tallStore) (fun dim => 256*dim) (by decide)
    [⟨1,1,[],[]⟩] (by decide) id
  obtain rfl := Option.some.inj ((hrun' 0).symm.trans hrun)
  cases hbuilt with
  | cons hp hnil =>
    have hkeys := hp.ordered (hsorted _ List.mem_cons_self) (by decide)
    have h256 : 256 ∈ column tallStore 1 := by decide
    have h1 : 1 ∈ column tallStore 1 := by decide
    have := hkeys 256 h256 1 h1 (by decide)
    omega

end SortedProjection
end ElfIndex
