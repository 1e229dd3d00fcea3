import Mathlib.Algebra.Order.Ring.Nat
import Mathlib.Data.List.Basic

/-! # Stores, queries and the row scan

A store is the filled table that every index is built from. Points are read by
column number, and a query is the pair of bound arrays with the array of selected
columns. The row scan `SeqScan` is the reference answer of every other index.
-/
namespace ElfIndex

/-- The `uint32_t` value of the macro `NOT_FOUND`. -/
def notFound : ℕ := 2^32-1

/-- A filled store. Words are `uint32_t`, and the number of rows is read by
`readTBL` as a signed `int`. The builder copies all rows into one array, and no array
has `2^63` bytes or more. -/
structure Store where
  numDim : ℕ
  dimMin : ℕ
  dimMax : ℕ
  store : List (List ℕ)
  row_length : ∀ p ∈ store, p.length = numDim
  value_lt : ∀ p ∈ store, ∀ v ∈ p, v < 2^32
  numPoints_le : store.length ≤ 2^31-1
  words_lt : store.length*numDim < 2^61
  numDim_lt : numDim < 2^32

/-- The store of given rows. -/
def Store.ofRows (numDim dimMin dimMax : ℕ) (rows : List (List ℕ))
    (h : (∀ p ∈ rows, p.length = numDim ∧ ∀ v ∈ p, v < 2^32) ∧ rows.length ≤ 2^31-1 ∧
      rows.length*numDim < 2^61 ∧ numDim < 2^32) : Store where
  numDim := numDim
  dimMin := dimMin
  dimMax := dimMax
  store := rows
  row_length := fun p hp => (h.1 p hp).1
  value_lt := fun p hp => (h.1 p hp).2
  numPoints_le := h.2.1
  words_lt := h.2.2.1
  numDim_lt := h.2.2.2

def Store.numPoints (s : Store) : ℕ := s.store.length

/-- `STORE[TID]`, with no value behind the last row. -/
def Store.getPoint (s : Store) (tid : ℕ) : Option (List ℕ) := s.store[tid]?

/-- The value of one tuple in one column. -/
def Store.value (s : Store) (tid dim : ℕ) : ℕ := (s.store.getD tid []).getD dim 0

structure Query where
  lowerBound : ℕ → ℕ
  upperBound : ℕ → ℕ
  columnsForSelect : ℕ → Bool

/-- A window query selects every column. -/
def Query.window (lowerBound upperBound : ℕ → ℕ) : Query := ⟨lowerBound,upperBound,fun _ => true⟩

def isIn (min max value : ℕ) : Bool := decide (value ≥ min) && decide (value ≤ max)

def isEqual (p1 p2 : ℕ → ℕ) (length : ℕ) : Bool :=
  (List.range length).all fun dim => p1 dim == p2 dim

def isInPoint (point lowerBoundQuery upperBoundQuery : ℕ → ℕ) (length : ℕ) : Bool :=
  (List.range length).all fun dim =>
    !(decide (lowerBoundQuery dim > point dim) || decide (point dim > upperBoundQuery dim))

def isPartiallyIn (point : ℕ → ℕ) (q : Query) (length : ℕ) : Bool :=
  (List.range length).all fun dim =>
    if q.columnsForSelect dim then
      !(decide (q.lowerBound dim > point dim) || decide (point dim > q.upperBound dim))
    else true

namespace SeqScan

def exactMatch (s : Store) (query : ℕ → ℕ) : ℕ :=
  ((List.range s.numPoints).find? fun tid => isEqual (s.value tid) query s.numDim).getD notFound

def windowQuery (s : Store) (lowerBoundQuery upperBoundQuery : ℕ → ℕ) : List ℕ :=
  (List.range s.numPoints).filter fun tid =>
    isInPoint (s.value tid) lowerBoundQuery upperBoundQuery s.numDim

def partialMatch (s : Store) (q : Query) : List ℕ :=
  (List.range s.numPoints).filter fun tid => isPartiallyIn (s.value tid) q s.numDim

end SeqScan

/-! ## The first equal point -/

theorem isEqual_iff {p1 p2 : ℕ → ℕ} {length : ℕ} :
    isEqual p1 p2 length = true ↔ ∀ dim < length, p1 dim = p2 dim := by
  simp [isEqual]

theorem isEqual_comm (p1 p2 : ℕ → ℕ) (length : ℕ) : isEqual p1 p2 length = isEqual p2 p1 length := by
  rw [Bool.eq_iff_iff,isEqual_iff,isEqual_iff]
  exact forall₂_congr fun _ _ => eq_comm

/-- The scan stops at the first point equal to the query. -/
theorem SeqScan.exactMatch_eq_of_first {s : Store} {query : ℕ → ℕ} {tid : ℕ}
    (hlt : tid < s.numPoints) (heq : isEqual (s.value tid) query s.numDim = true)
    (hbefore : ∀ t < tid, isEqual (s.value t) query s.numDim = false) :
    SeqScan.exactMatch s query = tid := by
  have hfind : ((List.range s.numPoints).find? fun t => isEqual (s.value t) query s.numDim) =
      some tid := by
    refine List.find?_range_eq_some.mpr ⟨heq,List.mem_range.mpr hlt,?_⟩
    intro t ht
    rw [hbefore t ht]
    rfl
  rw [SeqScan.exactMatch,hfind,Option.getD_some]

theorem SeqScan.exactMatch_eq_notFound {s : Store} {query : ℕ → ℕ}
    (hnone : ∀ t < s.numPoints, isEqual (s.value t) query s.numDim = false) :
    SeqScan.exactMatch s query = notFound := by
  have hfind : ((List.range s.numPoints).find? fun t => isEqual (s.value t) query s.numDim) =
      none := by
    refine List.find?_eq_none.mpr ?_
    intro t ht
    simp [hnone t (List.mem_range.mp ht)]
  rw [SeqScan.exactMatch,hfind,Option.getD_none]

/-- The answer of the scan if some point equals the query. -/
theorem SeqScan.exactMatch_first {s : Store} {query : ℕ → ℕ}
    (h : ∃ tid < s.numPoints, isEqual (s.value tid) query s.numDim = true) :
    SeqScan.exactMatch s query < s.numPoints ∧
      isEqual (s.value (SeqScan.exactMatch s query)) query s.numDim = true ∧
      ∀ t < SeqScan.exactMatch s query, isEqual (s.value t) query s.numDim = false := by
  obtain ⟨first,hfirst⟩ : ∃ first, ((List.range s.numPoints).find? fun tid =>
      isEqual (s.value tid) query s.numDim) = some first := by
    obtain ⟨tid,htid,heq⟩ := h
    exact Option.isSome_iff_exists.mp (List.find?_isSome.mpr ⟨tid,List.mem_range.mpr htid,heq⟩)
  obtain ⟨heq,hmem,hbefore⟩ := List.find?_range_eq_some.mp hfirst
  have hresult : SeqScan.exactMatch s query = first := by
    rw [SeqScan.exactMatch,hfirst,Option.getD_some]
  rw [hresult]
  refine ⟨List.mem_range.mp hmem,heq,?_⟩
  intro t ht
  simpa using hbefore t ht

theorem Store.numPoints_lt_notFound (s : Store) : s.numPoints < notFound := by
  have := s.numPoints_le
  have hmax : notFound = 2^32-1 := rfl
  change s.store.length < notFound
  omega

/-! ## Columns admitted by a query -/

/-- Column `dim` of the query lets `value` pass. -/
def Query.admits (q : Query) (dim value : ℕ) : Bool :=
  !q.columnsForSelect dim || isIn (q.lowerBound dim) (q.upperBound dim) value

/-- The query lets the words of columns `dim, dim+1, ..` pass. -/
def Query.selects (q : Query) : ℕ → List ℕ → Bool
  | _, [] => true
  | dim, v :: vs => q.admits dim v && q.selects (dim+1) vs

theorem isIn_iff {min max value : ℕ} : isIn min max value = true ↔ min ≤ value ∧ value ≤ max := by
  simp [isIn]

@[simp] theorem Query.admits_window (lowerBound upperBound : ℕ → ℕ) (dim v : ℕ) :
    (Query.window lowerBound upperBound).admits dim v =
      isIn (lowerBound dim) (upperBound dim) v := by
  simp [Query.admits,Query.window]

theorem isPartiallyIn_eq_all (point : ℕ → ℕ) (q : Query) (length : ℕ) :
    isPartiallyIn point q length = (List.range length).all fun dim => q.admits dim (point dim) := by
  unfold isPartiallyIn
  congr 1
  funext dim
  cases h : q.columnsForSelect dim <;> simp [Query.admits,h,isIn,Bool.not_or,← decide_not]

theorem isInPoint_eq_isPartiallyIn (point lowerBound upperBound : ℕ → ℕ) (length : ℕ) :
    isInPoint point lowerBound upperBound length =
      isPartiallyIn point (Query.window lowerBound upperBound) length := rfl

theorem isPartiallyIn_iff {point : ℕ → ℕ} {q : Query} {length : ℕ} :
    isPartiallyIn point q length = true ↔ ∀ dim < length, q.admits dim (point dim) = true := by
  simp [isPartiallyIn_eq_all]

theorem Query.selects_iff (q : Query) (dim : ℕ) (vs : List ℕ) :
    q.selects dim vs = true ↔ ∀ i < vs.length, q.admits (dim+i) (vs.getD i 0) = true := by
  induction vs generalizing dim with
  | nil => simp [Query.selects]
  | cons v vs ih =>
    rw [Query.selects,Bool.and_eq_true,ih]
    constructor
    · rintro ⟨hv,hvs⟩ i hi
      cases i with
      | zero => simpa using hv
      | succ i =>
        have h := hvs i (by simpa using hi)
        simpa [Nat.add_comm,Nat.add_left_comm] using h
    · intro h
      refine ⟨by simpa using h 0 (by simp),?_⟩
      intro i hi
      have h' := h (i+1) (by simpa using hi)
      simpa [Nat.add_comm,Nat.add_left_comm] using h'

/-- The search for the first selected column. -/
theorem Query.exists_first {q : Query} {length : ℕ}
    (h : ∃ dim < length, q.columnsForSelect dim = true) :
    ∃ first < length, (List.range length).find? q.columnsForSelect = some first ∧
      q.columnsForSelect first = true ∧ ∀ dim < first, q.columnsForSelect dim = false := by
  obtain ⟨first,hfirst⟩ : ∃ first, (List.range length).find? q.columnsForSelect = some first := by
    obtain ⟨dim,hdim,hsel⟩ := h
    exact Option.isSome_iff_exists.mp (List.find?_isSome.mpr ⟨dim,List.mem_range.mpr hdim,hsel⟩)
  obtain ⟨hsel,hmem,hbefore⟩ := List.find?_range_eq_some.mp hfirst
  refine ⟨first,List.mem_range.mp hmem,hfirst,hsel,?_⟩
  intro dim hdim
  simpa using hbefore dim hdim

/-- The row test starts at the first selected column. -/
theorem isPartiallyIn_eq_first {point : ℕ → ℕ} {q : Query} {length first : ℕ}
    (hlt : first < length) (hsel : q.columnsForSelect first = true)
    (hbefore : ∀ dim < first, q.columnsForSelect dim = false) :
    isPartiallyIn point q length =
      (isIn (q.lowerBound first) (q.upperBound first) (point first) &&
        (List.range' (first+1) (length-first-1)).all fun dim => q.admits dim (point dim)) := by
  have hadmits : q.admits first (point first) =
      isIn (q.lowerBound first) (q.upperBound first) (point first) := by
    rw [Query.admits,hsel,Bool.not_true,Bool.false_or]
  rw [← hadmits,Bool.eq_iff_iff,isPartiallyIn_iff,Bool.and_eq_true,List.all_eq_true]
  constructor
  · intro hall
    refine ⟨hall first hlt,?_⟩
    intro dim hdim
    have := List.mem_range'_1.mp hdim
    exact hall dim (by omega)
  · rintro ⟨hin,hrest⟩ dim hdim
    rcases Nat.lt_trichotomy dim first with hless | rfl | hgreater
    · rw [Query.admits,hbefore dim hless,Bool.not_false,Bool.true_or]
    · exact hin
    · exact hrest dim (List.mem_range'_1.mpr (by omega))

/-- The row test of the scan is the column-by-column test of the whole row. -/
theorem isPartiallyIn_eq_selects (q : Query) (row : List ℕ) :
    isPartiallyIn (fun dim => row.getD dim 0) q row.length = q.selects 0 row := by
  rw [Bool.eq_iff_iff,isPartiallyIn_iff,Query.selects_iff]
  simp only [Nat.zero_add]

theorem Store.getPoint_eq_some {s : Store} {tid : ℕ} (h : tid < s.numPoints) :
    ∃ row, s.getPoint tid = some row ∧ row.length = s.numDim ∧
      (∀ v ∈ row, v < 2^32) ∧ ∀ dim, s.value tid dim = row.getD dim 0 := by
  have hl : tid < s.store.length := h
  refine ⟨s.store[tid],List.getElem?_eq_getElem hl,s.row_length _ (List.getElem_mem hl),
    s.value_lt _ (List.getElem_mem hl),?_⟩
  intro dim
  simp only [Store.value,List.getD_eq_getElem?_getD,List.getElem?_eq_getElem hl,Option.getD_some]

theorem Store.getPoint_lt {s : Store} {tid : ℕ} {row : List ℕ} (h : s.getPoint tid = some row) :
    tid < s.numPoints := (List.getElem?_eq_some_iff.mp h).1

/-- Four points in two columns, two of them equal. -/
def gridStore : Store := .ofRows 2 0 7 [[3,1],[1,7],[3,1],[5,0]] (by decide)

end ElfIndex
