import ElfIndex.Lib.Search
import ElfIndex.SortedProjection.Build

/-! # Queries on sorted projections

Both queries find the equal or admitted keys by binary search and then test the stored
rows. A stored row has `last-first+1` words, the identifier being the last one.
-/
namespace ElfIndex.SortedProjection
open Search

/-! ## Partial match -/

/-- The columns behind the key decide; the identifier is read behind column `last`. -/
def partialMatchTuple (p : Projection) (q : Query) (dim tid : ℕ) (results : List ℕ) :
    Option (List ℕ) := do
  let row ← p.rows[tid]?
  let passes ← (List.range (p.last+1-dim)).allM fun i =>
    if q.columnsForSelect (dim+i) then
      (row[i]?).map fun value => isIn (q.lowerBound (dim+i)) (q.upperBound (dim+i)) value
    else some true
  if passes then (row[p.last+1]?).map fun tid => results ++ [tid] else some results

/-- The first projection that starts at the first selected column answers the query; without
one the entry behind the last projection is used. -/
def partialMatch (s : Store) (ps : List Projection) (q : Query) : Option (List ℕ) := do
  let dim := ((List.range s.numDim).find? q.columnsForSelect).getD s.numDim
  let p ← ps.find? fun p => p.first == dim
  let tid := Search.lowerBound p.keys (q.lowerBound dim)
  let last := Search.upperBound p.keys (q.upperBound dim)
  (List.range' tid (last-tid)).foldlM (fun results tid =>
    partialMatchTuple p q (dim+1) tid results) []

/-! ## Exact match -/

/-- The loop from key position `it` on. The comparison of `*it` stands before the one with
the end, so that behind the last key the word `beyond` is read. -/
def scanEqual (p : Projection) (beyond : ℕ) (query : ℕ → ℕ) : ℕ → ℕ → Option ℕ
  | 0, _ => none
  | fuel+1, it =>
    if p.keys.getD it beyond = query 0 ∧ it ≠ p.keys.length then do
      let row ← p.rows[it]?
      let same ← (List.range' 1 (p.last-1)).allM fun i =>
        (row[i-1]?).map fun value => value == query i
      -- `i` is at least 1 when the loop over the columns ends
      if same then row[max 1 p.last]? else scanEqual p beyond query fuel (it+1)
    else some notFound

/-- The search on projection 0. -/
def exactMatch (ps : List Projection) (beyond : ℕ) (query : ℕ → ℕ) : Option ℕ := do
  let p ← ps[0]?
  let it := Search.lowerBound p.keys (query 0)
  if it ≠ p.keys.length then scanEqual p beyond query (p.keys.length+1) it else some notFound

/-! ## Stored rows -/

variable {s : Store} {p : Projection} {order : List ℕ}

theorem Holds.row (h : Holds s p order) {i : ℕ} (hi : i < order.length) :
    p.rows[i]? = some (storedRow s p order[i]) := by
  rw [h.rows,List.getElem?_map,List.getElem?_eq_getElem hi,Option.map_some]

theorem Holds.length_keys (h : Holds s p order) : p.keys.length = order.length := by
  rw [h.keys,List.length_map]

theorem Holds.key (h : Holds s p order) {i : ℕ} (hi : i < p.keys.length) :
    ∃ hi' : i < order.length, p.keys[i] = s.value order[i] p.first := by
  refine ⟨h.length_keys ▸ hi,?_⟩
  simp only [h.keys,List.getElem_map]

theorem Holds.lt_numPoints (h : Holds s p order) {tid : ℕ} (ht : tid ∈ order) :
    tid < s.numPoints := List.mem_range.mp (h.perm.mem_iff.mp ht)

/-- The word behind column `last` is no word of a stored row. -/
theorem storedRow_behind (tid : ℕ) : (storedRow s p tid)[p.last+1]? = none := by
  rw [List.getElem?_eq_none_iff,storedRow_length]
  omega

theorem Holds.partialMatchTuple_eq (h : Holds s p order) (q : Query) {i : ℕ}
    (hi : i < order.length) (results : List ℕ) :
    partialMatchTuple p q (p.first+1) i results =
      if (List.range (p.last-p.first)).all fun k =>
        q.admits (p.first+1+k) (s.value order[i] (p.first+1+k)) then none else some results := by
  have hcount : p.last+1-(p.first+1) = p.last-p.first := by omega
  have htest : ∀ k ∈ List.range (p.last-p.first),
      (if q.columnsForSelect (p.first+1+k) then
        ((storedRow s p order[i])[k]?).map fun value =>
          isIn (q.lowerBound (p.first+1+k)) (q.upperBound (p.first+1+k)) value
      else some true) = some (q.admits (p.first+1+k) (s.value order[i] (p.first+1+k))) := by
    intro k hk
    rw [storedRow_column (List.mem_range.mp hk),Query.admits]
    cases q.columnsForSelect (p.first+1+k) <;> rfl
  rw [partialMatchTuple,h.row hi,hcount,Option.bind_eq_bind,Option.bind_some,
    Buffer.allM_eq_all _ htest,Option.bind_eq_bind,Option.bind_some,storedRow_behind]
  rfl

/-! ## Partial match is exact only without a match -/

/-- A tuple matches if its key is admitted and the columns behind the key are. -/
theorem matches_iff {q : Query} (hle : p.first ≤ p.last) (hlast : p.last < s.numDim)
    (hsel : q.columnsForSelect p.first = true)
    (hbefore : ∀ dim < p.first, q.columnsForSelect dim = false)
    (hbehind : ∀ dim < s.numDim, p.last < dim → q.columnsForSelect dim = false) (tid : ℕ) :
    isPartiallyIn (s.value tid) q s.numDim = true ↔
      (q.lowerBound p.first ≤ s.value tid p.first ∧ s.value tid p.first ≤ q.upperBound p.first) ∧
      ((List.range (p.last-p.first)).all fun k =>
        q.admits (p.first+1+k) (s.value tid (p.first+1+k))) = true := by
  have hkey : q.admits p.first (s.value tid p.first) = true ↔
      q.lowerBound p.first ≤ s.value tid p.first ∧ s.value tid p.first ≤ q.upperBound p.first := by
    rw [Query.admits,hsel,Bool.not_true,Bool.false_or,isIn_iff]
  rw [isPartiallyIn_iff,← hkey,List.all_eq_true]
  constructor
  · intro h
    refine ⟨h p.first (by omega),?_⟩
    intro k hk
    have := List.mem_range.mp hk
    exact h (p.first+1+k) (by omega)
  · rintro ⟨hfirst,hrest⟩ dim hdim
    rcases Nat.lt_trichotomy dim p.first with hless | rfl | hgreater
    · rw [Query.admits,hbefore dim hless,Bool.not_false,Bool.true_or]
    · exact hfirst
    · by_cases hin : dim ≤ p.last
      · have hk := hrest (dim-(p.first+1)) (List.mem_range.mpr (by omega))
        rwa [show p.first+1+(dim-(p.first+1)) = dim by omega] at hk
      · rw [Query.admits,hbehind dim hdim (by omega),Bool.not_false,Bool.true_or]

/-- The search of the admitted keys. -/
theorem mem_keyRange (h : Holds s p order) (hsorted : p.keys.Pairwise (· ≤ ·)) (lo hi : ℕ) {i : ℕ} :
    i ∈ List.range' (Search.lowerBound p.keys lo)
        (Search.upperBound p.keys hi-Search.lowerBound p.keys lo) ↔
      ∃ hi' : i < order.length, lo ≤ s.value order[i] p.first ∧ s.value order[i] p.first ≤ hi := by
  obtain ⟨_,hlow⟩ := lowerBound_spec hsorted lo
  obtain ⟨hupper,hup⟩ := upperBound_spec hsorted hi
  rw [List.mem_range'_1]
  constructor
  · rintro ⟨h1,h2⟩
    have hik : i < p.keys.length := by omega
    obtain ⟨hio,hkey⟩ := h.key hik
    have h3 := hlow i hik
    have h4 := hup i hik
    rw [hkey] at h3 h4
    exact ⟨hio,by omega,by omega⟩
  · rintro ⟨hio,h1,h2⟩
    have hik : i < p.keys.length := h.length_keys ▸ hio
    obtain ⟨_,hkey⟩ := h.key hik
    have h3 := hlow i hik
    have h4 := hup i hik
    rw [hkey] at h3 h4
    omega

/-- Some tuple behind the admitted keys passes a test exactly when some tuple of the store does. -/
theorem Holds.any_keyRange (h : Holds s p order) (hsorted : p.keys.Pairwise (· ≤ ·)) (lo hi : ℕ)
    (test : ℕ → Bool) :
    ((List.range' (Search.lowerBound p.keys lo)
        (Search.upperBound p.keys hi-Search.lowerBound p.keys lo)).any fun i =>
          test (order.getD i 0)) = true ↔
      ∃ tid < s.numPoints, (lo ≤ s.value tid p.first ∧ s.value tid p.first ≤ hi) ∧
        test tid = true := by
  rw [List.any_eq_true]
  constructor
  · rintro ⟨i,hi,htest⟩
    obtain ⟨hio,hkey⟩ := (mem_keyRange h hsorted _ _).mp hi
    rw [List.getD_eq_getElem?_getD,List.getElem?_eq_getElem hio,Option.getD_some] at htest
    exact ⟨order[i],h.lt_numPoints (List.getElem_mem hio),hkey,htest⟩
  · rintro ⟨tid,htid,hkey,htest⟩
    obtain ⟨i,hio,rfl⟩ := List.mem_iff_getElem.mp (h.perm.mem_iff.mpr (List.mem_range.mpr htid))
    refine ⟨i,(mem_keyRange h hsorted _ _).mpr ⟨hio,hkey⟩,?_⟩
    rwa [List.getD_eq_getElem?_getD,List.getElem?_eq_getElem hio,Option.getD_some]

/-- A query on a sorted projection is answered as by the scan, reading no word outside a stored
row, exactly when no tuple matches. -/
theorem partialMatch_exact_iff (s : Store) (ps : List Projection) (p : Projection)
    (order : List ℕ) (q : Query) (hbuilt : Holds s p order) (hle : p.first ≤ p.last)
    (hlast : p.last < s.numDim) (hsorted : p.keys.Pairwise (· ≤ ·))
    (hfirst : (List.range s.numDim).find? q.columnsForSelect = some p.first)
    (hprojection : (ps.find? fun p' => p'.first == p.first) = some p)
    (hbehind : ∀ dim < s.numDim, p.last < dim → q.columnsForSelect dim = false) :
    (∃ tids, partialMatch s ps q = some tids ∧ tids.Perm (SeqScan.partialMatch s q)) ↔
      ∀ tid < s.numPoints, isPartiallyIn (s.value tid) q s.numDim = false := by
  obtain ⟨hsel,_,hnone⟩ := List.find?_range_eq_some.mp hfirst
  have hbefore : ∀ dim < p.first, q.columnsForSelect dim = false := by
    intro dim hdim
    have := hnone dim hdim
    rwa [Bool.not_eq_true'] at this
  have hmatch := matches_iff hle hlast hsel hbefore hbehind
  let reads (tid : ℕ) : Bool := (List.range (p.last-p.first)).all fun k =>
    q.admits (p.first+1+k) (s.value tid (p.first+1+k))
  let positions := List.range' (Search.lowerBound p.keys (q.lowerBound p.first))
    (Search.upperBound p.keys (q.upperBound p.first)-
      Search.lowerBound p.keys (q.lowerBound p.first))
  have hrun : partialMatch s ps q =
      if positions.any fun i => reads (order.getD i 0) then none else some [] := by
    rw [partialMatch,hfirst,Option.getD_some,hprojection,Option.bind_eq_bind,Option.bind_some]
    refine Buffer.foldlM_stops positions ?_ []
    intro i hi results
    obtain ⟨hio,_⟩ := (mem_keyRange hbuilt hsorted _ _).mp hi
    rw [hbuilt.partialMatchTuple_eq q hio,List.getD_eq_getElem?_getD,List.getElem?_eq_getElem hio,Option.getD_some]
  have hany : (positions.any fun i => reads (order.getD i 0)) = true ↔
      ∃ tid < s.numPoints, isPartiallyIn (s.value tid) q s.numDim = true := by
    rw [hbuilt.any_keyRange hsorted]
    exact exists_congr fun tid => and_congr_right fun _ => (hmatch tid).symm
  rw [hrun]
  constructor
  · rintro ⟨tids,hsome,_⟩ tid htid
    by_contra hin
    rw [Bool.not_eq_false] at hin
    rw [if_pos (hany.mpr ⟨tid,htid,hin⟩)] at hsome
    cases hsome
  · intro hno
    have hstop : ¬ (positions.any fun i => reads (order.getD i 0)) = true := by
      intro h
      obtain ⟨tid,htid,hin⟩ := hany.mp h
      rw [hno tid htid] at hin
      cases hin
    refine ⟨[],if_neg hstop,?_⟩
    have hscan : SeqScan.partialMatch s q = [] := by
      rw [SeqScan.partialMatch,List.filter_eq_nil_iff]
      intro tid htid
      rw [hno tid (List.mem_range.mp htid)]
      exact Bool.false_ne_true
    rw [hscan]

/-- The built projection of both columns of `gridStore`. -/
def gridProjection : Projection := ⟨0,1,[1,3,3,5],[[7,1],[1,0],[1,2],[0,3]]⟩

example : buildIndex gridStore 0 (fun _ => 7) id [⟨0,1,[],[]⟩] = some [gridProjection] := by decide

theorem gridProjection_holds : Holds gridStore gridProjection [1,0,2,3] :=
  ⟨by decide,by decide,by decide⟩

/-- The query for one value of the first column. -/
def firstEquals (value : ℕ) : Query := ⟨fun _ => value,fun _ => value,fun dim => dim == 0⟩

theorem partialMatch_exact_iff_grid :
    (∃ tids, partialMatch gridStore [gridProjection] (firstEquals 2) = some tids ∧
      tids.Perm (SeqScan.partialMatch gridStore (firstEquals 2))) ↔
      ∀ tid < 4, isPartiallyIn (gridStore.value tid) (firstEquals 2) 2 = false :=
  partialMatch_exact_iff gridStore [gridProjection] gridProjection [1,0,2,3] (firstEquals 2)
    gridProjection_holds (by decide) (by decide) (by decide) (by decide) (by decide) (by decide)

/-- Two tuples match; the identifier of the first of them is read behind its stored row. -/
theorem partialMatch_behind :
    Holds gridStore gridProjection [1,0,2,3] ∧ gridProjection.keys.Pairwise (· ≤ ·) ∧
      SeqScan.partialMatch gridStore (firstEquals 3) = [0,2] ∧
      partialMatch gridStore [gridProjection] (firstEquals 3) = none :=
  ⟨gridProjection_holds,by decide,by decide,by decide⟩

/-! ## Exact match leaves the last column out -/

/-- The loop over the columns of a stored row with the query's key. -/
theorem isEqual_row (hfirst : p.first = 0) (hlast : 1 ≤ p.last) {tid : ℕ} {query : ℕ → ℕ}
    (hkey : s.value tid 0 = query 0) :
    (List.range' 1 (p.last-1)).allM (fun i =>
        ((storedRow s p tid)[i-1]?).map fun value => value == query i) =
      some (isEqual (s.value tid) query p.last) := by
  have htest : ∀ i ∈ List.range' 1 (p.last-1),
      (((storedRow s p tid)[i-1]?).map fun value => value == query i) =
        some (s.value tid i == query i) := by
    intro i hi
    have := List.mem_range'_1.mp hi
    rw [storedRow_column (by omega),Option.map_some,hfirst,Nat.zero_add,
      show 1+(i-1) = i by omega]
  rw [Buffer.allM_eq_all _ htest,Option.some.injEq,Bool.eq_iff_iff,isEqual_iff,List.all_eq_true]
  constructor
  · intro hrest dim hdim
    rcases Nat.eq_zero_or_pos dim with rfl | hpos
    · exact hkey
    · exact beq_iff_eq.mp (hrest dim (List.mem_range'_1.mpr (by omega)))
  · intro hall dim hdim
    have := List.mem_range'_1.mp hdim
    exact beq_iff_eq.mpr (hall dim (by omega))

/-- The keys behind a position are not smaller. -/
theorem Holds.key_le (h : Holds s p order) (hsorted : p.keys.Pairwise (· ≤ ·)) {it i : ℕ}
    (hle : it ≤ i) (hit : it < p.keys.length) (hi : i < order.length) :
    p.keys[it] ≤ s.value order[i] p.first := by
  have hik : i < p.keys.length := h.length_keys ▸ hi
  obtain ⟨_,hkey⟩ := h.key hik
  rw [← hkey]
  rcases Nat.lt_or_eq_of_le hle with hlt | rfl
  · exact List.pairwise_iff_getElem.mp hsorted it i hit hik hlt
  · exact le_rfl

/-- From a key on that is larger than the query no tuple agrees with it. -/
theorem Holds.find?_larger (h : Holds s p order) (hfirst : p.first = 0) (hlast : 1 ≤ p.last)
    (hsorted : p.keys.Pairwise (· ≤ ·)) {query : ℕ → ℕ} {it : ℕ} (hit : it < p.keys.length)
    (hlt : query 0 < p.keys[it]) :
    (order.drop it).find? (fun tid => isEqual (s.value tid) query p.last) = none := by
  rw [List.find?_eq_none]
  intro tid htid hall
  obtain ⟨k,hk,rfl⟩ := List.mem_iff_getElem.mp htid
  rw [List.length_drop] at hk
  rw [List.getElem_drop] at hall
  have hkey := h.key_le hsorted (Nat.le_add_right it k) hit (by omega)
  rw [hfirst,isEqual_iff.mp hall 0 (by omega)] at hkey
  omega

/-- From a position whose key is not below the query on, the loop answers the first tuple that
agrees with the query before column `last`. -/
theorem scanEqual_run (h : Holds s p order) (hfirst : p.first = 0) (hlast : 1 ≤ p.last)
    (hsorted : p.keys.Pairwise (· ≤ ·)) (beyond : ℕ) (query : ℕ → ℕ) (fuel it : ℕ)
    (hit : it ≤ order.length) (hfuel : order.length-it < fuel)
    (hge : ∀ i (hi : i < p.keys.length), it ≤ i → query 0 ≤ p.keys[i]) :
    scanEqual p beyond query fuel it = some (((order.drop it).find? fun tid =>
      isEqual (s.value tid) query p.last).getD notFound) := by
  have hlen := h.length_keys
  induction fuel generalizing it with
  | zero => omega
  | succ fuel ih =>
    rcases Nat.lt_or_eq_of_le hit with hlt | rfl
    · have hik : it < p.keys.length := by omega
      obtain ⟨_,hkey⟩ := h.key hik
      rw [hfirst] at hkey
      have hread : p.keys.getD it beyond = p.keys[it] := by
        rw [List.getD_eq_getElem?_getD,List.getElem?_eq_getElem hik,Option.getD_some]
      rw [scanEqual,hread]
      by_cases heq : p.keys[it] = query 0
      · rw [if_pos ⟨heq,by omega⟩,h.row hlt,Option.bind_eq_bind,Option.bind_some,
          isEqual_row hfirst hlast (hkey.symm.trans heq),Option.bind_eq_bind,
          Option.bind_some,List.drop_eq_getElem_cons hlt,List.find?_cons]
        cases isEqual (s.value order[it]) query p.last with
        | true =>
          have htid : max 1 p.last = p.last-p.first := by omega
          rw [if_pos rfl,htid,storedRow_tid]
          rfl
        | false =>
          rw [if_neg Bool.false_ne_true]
          exact ih (it+1) (by omega) (by omega) fun i hi hle => hge i hi (by omega)
      · have hlarger : query 0 < p.keys[it] := by
          have := hge it hik le_rfl
          omega
        rw [if_neg (fun hboth => heq hboth.1),h.find?_larger hfirst hlast hsorted hik hlarger]
        rfl
    · rw [scanEqual,if_neg (fun hboth => hboth.2 hlen.symm),List.drop_length]
      rfl

/-- Whatever stands behind the last key, the search answers the first stored tuple that agrees
with the query in all columns but the last one. -/
theorem exactMatch_eq (h : Holds s p order) (hfirst : p.first = 0) (hlast : 1 ≤ p.last)
    (hsorted : p.keys.Pairwise (· ≤ ·)) (ps : List Projection) (beyond : ℕ) (query : ℕ → ℕ) :
    exactMatch (p :: ps) beyond query =
      some ((order.find? fun tid => isEqual (s.value tid) query p.last).getD notFound) := by
  have hlen := h.length_keys
  obtain ⟨hle,hlow⟩ := lowerBound_spec hsorted (query 0)
  have hgo := scanEqual_run h hfirst hlast hsorted beyond query (p.keys.length+1)
    (Search.lowerBound p.keys (query 0)) (by omega) (by omega) (by
      intro i hi hge
      have := hlow i hi
      omega)
  -- the tuples in front of the lower bound have smaller keys
  have hfront : (order.take (Search.lowerBound p.keys (query 0))).find?
      (fun tid => isEqual (s.value tid) query p.last) = none := by
    rw [List.find?_eq_none]
    intro tid htid hall
    obtain ⟨i,hi,rfl⟩ := List.mem_iff_getElem.mp htid
    rw [List.length_take] at hi
    rw [List.getElem_take] at hall
    have hik : i < p.keys.length := by omega
    obtain ⟨_,hkey⟩ := h.key hik
    rw [hfirst,isEqual_iff.mp hall 0 (by omega)] at hkey
    have := (hlow i hik).mp (by omega)
    omega
  have hsplit : order.find? (fun tid => isEqual (s.value tid) query p.last) =
      (order.drop (Search.lowerBound p.keys (query 0))).find?
        fun tid => isEqual (s.value tid) query p.last := by
    conv_lhs => rw [← List.take_append_drop (Search.lowerBound p.keys (query 0)) order]
    rw [List.find?_append,hfront,Option.none_or]
  rw [exactMatch,hsplit,← hgo]
  simp only [List.getElem?_cons_zero,Option.bind_eq_bind,Option.bind_some]
  split
  · rfl
  · rename_i hend
    rw [ne_eq,not_not] at hend
    rw [hgo,hend,hlen,List.drop_length]
    rfl

/-- A row equals the query if it agrees before the last column and there. -/
theorem isEqual_last_iff (row query : ℕ → ℕ) {n : ℕ} (hn : 1 ≤ n) :
    isEqual row query n = true ↔ isEqual row query (n-1) = true ∧ row (n-1) = query (n-1) := by
  rw [isEqual_iff,isEqual_iff]
  constructor
  · intro h
    exact ⟨fun dim hdim => h dim (by omega),h (n-1) (by omega)⟩
  · rintro ⟨hbut,hlast⟩ dim hdim
    rcases Nat.lt_or_eq_of_le (Nat.le_sub_one_of_lt hdim) with hlt | rfl
    · exact hbut dim hlt
    · exact hlast

/-- The search on a sorted projection of all columns answers an equal point if there is one and
nothing otherwise, exactly when the first stored tuple that agrees with the query in all columns
but the last one, if any, agrees in the last one too. -/
theorem exactMatch_exact_iff (s : Store) (ps : List Projection) (p : Projection)
    (order : List ℕ) (beyond : ℕ) (query : ℕ → ℕ) (hdims : 2 ≤ s.numDim)
    (hfirst : p.first = 0) (hlast : p.last = s.numDim-1) (hbuilt : Holds s p order)
    (hsorted : p.keys.Pairwise (· ≤ ·)) :
    (∃ answer, exactMatch (p :: ps) beyond query = some answer ∧
      ((∃ tid < s.numPoints, isEqual (s.value tid) query s.numDim = true) →
        answer < s.numPoints ∧ isEqual (s.value answer) query s.numDim = true) ∧
      ((∀ tid < s.numPoints, isEqual (s.value tid) query s.numDim = false) →
        answer = notFound)) ↔
    ∀ tid, order.find? (fun tid => isEqual (s.value tid) query (s.numDim-1)) = some tid →
      s.value tid (s.numDim-1) = query (s.numDim-1) := by
  have hone : 1 ≤ p.last := by omega
  have hrun := exactMatch_eq hbuilt hfirst hone hsorted ps beyond query
  rw [hlast] at hrun
  have hmem : ∀ {tid}, tid ∈ order ↔ tid < s.numPoints := by
    intro tid
    rw [hbuilt.perm.mem_iff,List.mem_range]
  have hall := fun tid => isEqual_last_iff (s.value tid) query (show 1 ≤ s.numDim by omega)
  cases hfind : order.find? fun tid => isEqual (s.value tid) query (s.numDim-1) with
  | none =>
    rw [hfind,Option.getD_none] at hrun
    have hno : ∀ tid < s.numPoints, ¬ isEqual (s.value tid) query s.numDim = true := by
      intro tid htid heq
      exact List.find?_eq_none.mp hfind tid (hmem.mpr htid) ((hall tid).mp heq).1
    constructor
    · intro _ tid hsome
      cases hsome
    · intro _
      refine ⟨notFound,hrun,?_,fun _ => rfl⟩
      rintro ⟨tid,htid,heq⟩
      exact absurd heq (hno tid htid)
  | some found =>
    rw [hfind,Option.getD_some] at hrun
    have hlt : found < s.numPoints := hmem.mp (List.mem_of_find?_eq_some hfind)
    have hagree := List.find?_some hfind
    constructor
    · rintro ⟨answer,hanswer,hsound,hmissing⟩ tid hsome
      obtain rfl := Option.some.inj (hrun.symm.trans hanswer)
      obtain rfl := Option.some.inj hsome
      by_cases hexists : ∃ tid < s.numPoints, isEqual (s.value tid) query s.numDim = true
      · exact ((hall found).mp (hsound hexists).2).2
      · have hnf := hmissing fun tid htid => by
          rw [Bool.eq_false_iff]
          exact fun heq => hexists ⟨tid,htid,heq⟩
        have := s.numPoints_lt_notFound
        omega
    · intro hcond
      have heq := (hall found).mpr ⟨hagree,hcond found rfl⟩
      refine ⟨found,hrun,fun _ => ⟨hlt,heq⟩,?_⟩
      intro hno
      rw [hno found hlt] at heq
      cases heq

theorem exactMatch_exact_iff_grid :
    (∃ answer, exactMatch [gridProjection] 0 (fun _ => 1) = some answer ∧
      ((∃ tid < 4, isEqual (gridStore.value tid) (fun _ => 1) 2 = true) →
        answer < 4 ∧ isEqual (gridStore.value answer) (fun _ => 1) 2 = true) ∧
      ((∀ tid < 4, isEqual (gridStore.value tid) (fun _ => 1) 2 = false) → answer = notFound)) ↔
    ∀ tid, [1,0,2,3].find? (fun tid => isEqual (gridStore.value tid) (fun _ => 1) 1) = some tid →
      gridStore.value tid 1 = 1 :=
  exactMatch_exact_iff gridStore [] gridProjection [1,0,2,3] 0 (fun _ => 1) (by decide) rfl rfl
    gridProjection_holds (by decide)

/-- The point `(1,1)` is no point of the grid; the search answers the point `(1,7)`. -/
theorem exactMatch_lastColumn :
    Holds gridStore gridProjection [1,0,2,3] ∧ gridProjection.keys.Pairwise (· ≤ ·) ∧
      (∀ tid < 4, isEqual (gridStore.value tid) (fun _ => 1) 2 = false) ∧
      exactMatch [gridProjection] 0 (fun _ => 1) = some 1 :=
  ⟨gridProjection_holds,by decide,by decide,by decide⟩

end ElfIndex.SortedProjection
