import Mathlib.Data.List.Nodup
import ElfIndex.Elf.Reader

/-! # Dimension trees and their storage

The abstract index is a tree: a mono list holds the rest of one row, a dimension list
has one subtree for each of its values. `StoredIn` says that an array of words holds a
tree in the layout of the Elf.
-/
namespace ElfIndex
open WordMemory

/-- A dimension list is a chain of entries that ends with a `last` one. -/
inductive DimTree where
  | mono (values : List ℕ) (tid : ℕ)
  | last (value : ℕ) (child : DimTree)
  | entry (value : ℕ) (child rest : DimTree)
deriving Repr, Inhabited

namespace DimTree

def isList : DimTree → Bool
  | mono _ _ => false
  | _ => true

/-- The smallest value of a dimension list. -/
def firstValue : DimTree → ℕ
  | mono _ _ => 0
  | last v _ => v
  | entry v _ _ => v

/-- The rows of a tree, from its own dimension on, with their tuple identifiers. -/
def rows : DimTree → List (List ℕ × ℕ)
  | mono values tid => [(values,tid)]
  | last v child => child.rows.map fun r => (v :: r.1,r.2)
  | entry v child rest => (child.rows.map fun r => (v :: r.1,r.2)) ++ rest.rows

/-- The values of each dimension list increase and leave the top bit free. -/
def Ordered : DimTree → Prop
  | mono _ _ => True
  | last v child => v < 2^31 ∧ child.Ordered
  | entry v child rest =>
    v < 2^31 ∧ child.Ordered ∧ rest.Ordered ∧ rest.isList = true ∧ v < rest.firstValue

def size : DimTree → ℕ
  | mono _ _ => 1
  | last _ child => child.size+1
  | entry _ child rest => child.size+rest.size+1

/-- The pointer to a tree that is stored at `off`. -/
def pointer (t : DimTree) (off : ℕ) : ℕ := if t.isList then off else off ||| lastEntryMask64

/-- The rows selected by a query whose first column for this tree is `dim`. -/
def search (t : DimTree) (q : Query) (dim : ℕ) : List ℕ :=
  (t.rows.filter fun r => q.selects dim r.1).map Prod.snd

/-- The tree is stored at `pos` in the words `lo ≤ p < hi`. -/
def StoredIn (mem : Memory) (numDim lo hi : ℕ) : DimTree → ℕ → ℕ → Prop
  | mono values tid, dim, pos =>
    dim+values.length = numDim ∧ lo ≤ pos ∧ pos+values.length < hi ∧
    (∀ i < values.length, mem (pos+i) = values.getD i 0) ∧
    mem (pos+values.length) &&& recoverMask = tid
  | last v child, dim, pos =>
    dim < numDim ∧ lo ≤ pos ∧ pos+3 ≤ hi ∧ mem pos = v ||| lastEntryMask ∧
    ∃ off < 2^62, get64 mem (pos+1) = child.pointer off ∧
      StoredIn mem numDim lo hi child (dim+1) off
  | entry v child rest, dim, pos =>
    dim < numDim ∧ lo ≤ pos ∧ pos+3 ≤ hi ∧ mem pos = v ∧
    (∃ off < 2^62, get64 mem (pos+1) = child.pointer off ∧
      StoredIn mem numDim lo hi child (dim+1) off) ∧
    StoredIn mem numDim lo hi rest dim (pos+3)

/-! ## Flags -/

theorem value_flagged {v : ℕ} (h : v < 2^31) : v ||| lastEntryMask = v+2^31 :=
  or_two_pow_of_lt h

theorem pointer_flagged {off : ℕ} (h : off < 2^62) : off ||| lastEntryMask64 = off+2^62 :=
  or_two_pow_of_lt h

theorem and_recoverMask (w : ℕ) : w &&& recoverMask = w%2^31 :=
  Nat.and_two_pow_sub_one_eq_mod w 31

theorem and_recoverMask64 (w : ℕ) : w &&& recoverMask64 = w%2^62 :=
  Nat.and_two_pow_sub_one_eq_mod w 62

theorem pointer_list {t : DimTree} {off : ℕ} (hl : t.isList = true) : t.pointer off = off := by
  rw [pointer,if_pos hl]

theorem pointer_mono {t : DimTree} {off : ℕ} (hl : t.isList = false) (h : off < 2^62) :
    t.pointer off = off+2^62 := by
  rw [pointer,hl,if_neg (by simp)]
  exact pointer_flagged h

theorem pointer_pos {t : DimTree} {off : ℕ} (h : off < 2^62) (hpos : 0 < off) :
    0 < t.pointer off := by
  rcases hl : t.isList with _ | _
  · rw [pointer_mono hl h]
    omega
  · rwa [pointer_list hl]

/-! ## Order of the rows -/

theorem rows_head {t : DimTree} (ho : t.Ordered) (hl : t.isList = true) :
    ∀ r ∈ t.rows, ∃ v vs, r.1 = v :: vs ∧ t.firstValue ≤ v := by
  induction t with
  | mono values tid => cases hl
  | last v child =>
    intro r hr
    obtain ⟨r',_,rfl⟩ := List.mem_map.mp hr
    exact ⟨v,r'.1,rfl,le_rfl⟩
  | entry v child rest _ ihr =>
    obtain ⟨_,_,hor,hrl,hlt⟩ := ho
    intro r hr
    rcases List.mem_append.mp hr with hr | hr
    · obtain ⟨r',_,rfl⟩ := List.mem_map.mp hr
      exact ⟨v,r'.1,rfl,le_rfl⟩
    · obtain ⟨u,us,hu,hle⟩ := ihr hor hrl r hr
      exact ⟨u,us,hu,hlt.le.trans hle⟩

/-- The rows come in ascending lexicographic order, each once. -/
theorem rows_sorted {t : DimTree} (ho : t.Ordered) : t.rows.Pairwise fun r s => r.1 < s.1 := by
  induction t with
  | mono values tid => exact List.pairwise_singleton _ _
  | last v child ih =>
    refine List.pairwise_map.mpr ((ih ho.2).imp ?_)
    intro r s h
    exact List.cons_lt_cons_self.mpr h
  | entry v child rest ihc ihr =>
    obtain ⟨_,hoc,hor,hrl,hlt⟩ := ho
    refine List.pairwise_append.mpr ⟨List.pairwise_map.mpr ((ihc hoc).imp ?_),ihr hor,?_⟩
    · intro r s h
      exact List.cons_lt_cons_self.mpr h
    · intro r hr s hs
      obtain ⟨r',_,rfl⟩ := List.mem_map.mp hr
      obtain ⟨u,us,hu,hle⟩ := rows_head hor hrl s hs
      rw [hu]
      exact List.cons_lt_cons_iff.mpr (Or.inl (hlt.trans_le hle))

theorem rows_inj {t : DimTree} (ho : t.Ordered) {r s : List ℕ × ℕ} (hr : r ∈ t.rows)
    (hs : s ∈ t.rows) (h : r.1 = s.1) : r = s := by
  have hnodup : (t.rows.map Prod.fst).Nodup := by
    refine List.pairwise_map.mpr ((rows_sorted ho).imp ?_)
    intro r s hlt heq
    rw [heq] at hlt
    exact List.lt_irrefl _ hlt
  exact List.inj_on_of_nodup_map hnodup hr hs h

/-! ## Storage -/

theorem StoredIn.mono {mem : Memory} {numDim lo hi lo' hi' : ℕ} {t : DimTree} {dim pos : ℕ}
    (h : t.StoredIn mem numDim lo hi dim pos) (hl : lo' ≤ lo) (hh : hi ≤ hi') :
    t.StoredIn mem numDim lo' hi' dim pos := by
  induction t generalizing dim pos with
  | mono values tid =>
    obtain ⟨h1,h2,h3,h4,h5⟩ := h
    exact ⟨h1,hl.trans h2,h3.trans_le hh,h4,h5⟩
  | last v child ih =>
    obtain ⟨h1,h2,h3,h4,off,ho,hp,hc⟩ := h
    exact ⟨h1,hl.trans h2,h3.trans hh,h4,off,ho,hp,ih hc⟩
  | entry v child rest ihc ihr =>
    obtain ⟨h1,h2,h3,h4,⟨off,ho,hp,hc⟩,hr⟩ := h
    exact ⟨h1,hl.trans h2,h3.trans hh,h4,⟨off,ho,hp,ihc hc⟩,ihr hr⟩

/-- A stored tree only depends on the words of its range. -/
theorem StoredIn.congr {mem mem' : Memory} {numDim lo hi : ℕ} {t : DimTree} {dim pos : ℕ}
    (h : t.StoredIn mem numDim lo hi dim pos) (ha : AgreesOn mem mem' lo hi) :
    t.StoredIn mem' numDim lo hi dim pos := by
  induction t generalizing dim pos with
  | mono values tid =>
    obtain ⟨h1,h2,h3,h4,h5⟩ := h
    refine ⟨h1,h2,h3,?_,?_⟩
    · intro i hi
      rw [ha _ (by omega) (by omega)]
      exact h4 i hi
    · rw [ha _ (by omega) h3]
      exact h5
  | last v child ih =>
    obtain ⟨h1,h2,h3,h4,off,ho,hp,hc⟩ := h
    refine ⟨h1,h2,h3,?_,off,ho,?_,ih hc⟩
    · rw [ha _ h2 (by omega)]
      exact h4
    · rw [get64_congr (ha _ (by omega) (by omega)) (ha _ (by omega) (by omega))]
      exact hp
  | entry v child rest ihc ihr =>
    obtain ⟨h1,h2,h3,h4,⟨off,ho,hp,hc⟩,hr⟩ := h
    refine ⟨h1,h2,h3,?_,⟨off,ho,?_,ihc hc⟩,ihr hr⟩
    · rw [ha _ h2 (by omega)]
      exact h4
    · rw [get64_congr (ha _ (by omega) (by omega)) (ha _ (by omega) (by omega))]
      exact hp

theorem StoredIn.lo_le {mem : Memory} {numDim lo hi : ℕ} {t : DimTree} {dim pos : ℕ}
    (h : t.StoredIn mem numDim lo hi dim pos) : lo ≤ pos := by
  cases t with
  | mono values tid => exact h.2.1
  | last v child => exact h.2.1
  | entry v child rest => exact h.2.1

/-- A stored tuple identifier leaves the top bit free. -/
theorem StoredIn.tid_lt {mem : Memory} {numDim lo hi : ℕ} {t : DimTree} {dim pos : ℕ}
    (h : t.StoredIn mem numDim lo hi dim pos) : ∀ r ∈ t.rows, r.2 < 2^31 := by
  induction t generalizing dim pos with
  | mono values tid =>
    intro r hr
    rw [rows,List.mem_singleton] at hr
    subst hr
    rw [← h.2.2.2.2,and_recoverMask]
    exact Nat.mod_lt _ (Nat.two_pow_pos 31)
  | last v child ih =>
    obtain ⟨_,_,_,_,off,_,_,hc⟩ := h
    intro r hr
    obtain ⟨r',hr',rfl⟩ := List.mem_map.mp hr
    exact ih hc r' hr'
  | entry v child rest ihc ihr =>
    obtain ⟨_,_,_,_,⟨off,_,_,hc⟩,hr⟩ := h
    intro r hm
    rcases List.mem_append.mp hm with hm | hm
    · obtain ⟨r',hr',rfl⟩ := List.mem_map.mp hm
      exact ihc hc r' hr'
    · exact ihr hr r hm

theorem StoredIn.rows_length {mem : Memory} {numDim lo hi : ℕ} {t : DimTree} {dim pos : ℕ}
    (h : t.StoredIn mem numDim lo hi dim pos) : ∀ r ∈ t.rows, dim+r.1.length = numDim := by
  have hcons : ∀ (dim v : ℕ) (child : DimTree),
      (∀ r ∈ child.rows, dim+1+r.1.length = numDim) →
      ∀ r ∈ child.rows.map (fun r => (v :: r.1,r.2)), dim+r.1.length = numDim := by
    intro dim v child hchild r hr
    obtain ⟨r',hr',rfl⟩ := List.mem_map.mp hr
    have := hchild r' hr'
    rw [List.length_cons]
    omega
  induction t generalizing dim pos with
  | mono values tid =>
    intro r hr
    rw [rows,List.mem_singleton] at hr
    subst hr
    exact h.1
  | last v child ih =>
    obtain ⟨_,_,_,_,off,_,_,hc⟩ := h
    exact hcons dim v child (ih hc)
  | entry v child rest ihc ihr =>
    obtain ⟨_,_,_,_,⟨off,_,_,hc⟩,hr⟩ := h
    intro r hm
    rcases List.mem_append.mp hm with hm | hm
    · exact hcons dim v child (ihc hc) r hm
    · exact ihr hr r hm

/-! ## Search -/

theorem search_mono (q : Query) (dim tid : ℕ) (values : List ℕ) :
    (mono values tid).search q dim = if q.selects dim values then [tid] else [] := by
  unfold search rows
  by_cases h : q.selects dim values = true
  · simp [h]
  · simp [h]

theorem search_map (q : Query) (dim v : ℕ) (child : DimTree) :
    ((child.rows.map fun r => (v :: r.1,r.2)).filter fun r => q.selects dim r.1).map Prod.snd =
      if q.admits dim v then child.search q (dim+1) else [] := by
  rw [List.filter_map,List.map_map]
  by_cases h : q.admits dim v = true
  · simp only [h,if_true,search,Function.comp_def,Query.selects,Bool.true_and]
  · simp [h,Query.selects,Function.comp_def]

theorem search_last (q : Query) (dim v : ℕ) (child : DimTree) :
    (last v child).search q dim = if q.admits dim v then child.search q (dim+1) else [] :=
  search_map q dim v child

theorem search_entry (q : Query) (dim v : ℕ) (child rest : DimTree) :
    (entry v child rest).search q dim =
      (if q.admits dim v then child.search q (dim+1) else []) ++ rest.search q dim := by
  rw [← search_map]
  simp only [search,rows,List.filter_append,List.map_append]

/-- A list whose smallest value exceeds the upper bound has no selected row. -/
theorem search_above (q : Query) {dim : ℕ} (hsel : q.columnsForSelect dim = true) {t : DimTree}
    (ht : t.Ordered) (hl : t.isList = true) (hup : q.upperBound dim < t.firstValue) :
    t.search q dim = [] := by
  induction t with
  | mono values tid => cases hl
  | last v child =>
    have hv : q.admits dim v = false := by
      simp only [Query.admits,hsel,Bool.not_true,Bool.false_or]
      simp only [firstValue] at hup
      simp [isIn,hup]
    rw [search_last,hv]
    rfl
  | entry v child rest _ ihr =>
    obtain ⟨_,_,hr,hrl,hvr⟩ := ht
    have hv : q.admits dim v = false := by
      simp only [Query.admits,hsel,Bool.not_true,Bool.false_or]
      simp only [firstValue] at hup
      simp [isIn,hup]
    rw [search_entry,hv,ihr hr hrl (hup.trans hvr)]
    rfl

end DimTree
end ElfIndex
