import ElfIndex.Elf.Image
import ElfIndex.Lib.TaskPool

/-! # Search tasks

Both parallel searches hand lists and mono lists to a thread pool. What a task does to
the shared state is its sequence of appends to `RESULTS` and of submissions. A task is
compared with the sequential reader of the same list.
-/
namespace ElfIndex
open WordMemory Fuel TaskPool

/-- The two lambdas that are submitted, with the values they capture. -/
inductive Task where
  | partialMatch1 (dimension start : ℕ)
  | partialMatchMonoList (dimension start : ℕ)
deriving DecidableEq, Repr

abbrev SearchAction := Action ℕ Task

/-- The submission for a pointer found in dimension `dimension`. -/
def submitPointer (dimension pointer : ℕ) : SearchAction :=
  .submit (if pointer < lastEntryMask64 then .partialMatch1 (dimension+1) pointer
    else .partialMatchMonoList (dimension+1) (pointer &&& recoverMask64))

namespace Elf

variable (e : Elf)

/-- The appends of `partialMatchMonoList`, which is the sequential one. -/
def pushMonoList (q : Query) (dimension start : ℕ) : List SearchAction :=
  (e.partialMatchMonoList q dimension start []).map .emit

/-! ## What a task delivers -/

/-- The sequential reader of the list that a task searches. -/
def taskReader (q : Query) : Task → ℕ → Option (List ℕ)
  | .partialMatch1 dimension start, fuel => e.partialMatchList q fuel dimension start []
  | .partialMatchMonoList dimension start, _ => some (e.partialMatchMonoList q dimension start [])

noncomputable def taskFound (q : Query) (task : Task) : Multiset ℕ :=
  (value (e.taskReader q task) [] : List ℕ)

/-- The list of a task is a stored tree. -/
def TaskStored (lo hi : ℕ) : Task → Prop
  | .partialMatch1 dimension start =>
    ∃ t : DimTree, t.isList = true ∧ t.Ordered ∧ t.StoredIn e.elf e.numDim lo hi dimension start
  | .partialMatchMonoList dimension start =>
    ∃ t : DimTree, t.isList = false ∧ t.StoredIn e.elf e.numDim lo hi dimension start

/-- The actions submit stored tasks and deliver `rows`, tasks included. -/
structure Delivers (lo hi : ℕ) (q : Query) (acts : List SearchAction) (rows : List ℕ) : Prop where
  submits : Submits (e.TaskStored lo hi) acts
  total : total (e.taskFound q) acts = (rows : Multiset ℕ)

variable {e} {lo hi : ℕ}

theorem taskFound_list (q : Query) {t : DimTree} {dim pos : ℕ} (ho : t.Ordered)
    (hl : t.isList = true) (h : t.StoredIn e.elf e.numDim lo hi dim pos) :
    e.taskFound q (.partialMatch1 dim pos) = (t.search q dim : Multiset ℕ) := by
  have hret : Returns (e.taskReader q (.partialMatch1 dim pos)) (t.search q dim) :=
    ⟨t.size,fun fuel hfuel => partialMatchList_spec q ho h hl fuel hfuel []⟩
  rw [taskFound,hret.value_eq]

theorem partialMatchMonoList_found (q : Query) {t : DimTree} {dim pos : ℕ}
    (hl : t.isList = false) (h : t.StoredIn e.elf e.numDim lo hi dim pos) :
    e.partialMatchMonoList q dim pos [] = t.search q dim := by
  cases t with
  | mono values tid => exact partialMatchMonoList_spec q h []
  | last v child => cases hl
  | entry v child rest => cases hl

theorem taskFound_mono (q : Query) {t : DimTree} {dim pos : ℕ} (hl : t.isList = false)
    (h : t.StoredIn e.elf e.numDim lo hi dim pos) :
    e.taskFound q (.partialMatchMonoList dim pos) = (t.search q dim : Multiset ℕ) := by
  have hret : Returns (e.taskReader q (.partialMatchMonoList dim pos)) (t.search q dim) :=
    ⟨0,fun _ _ => congrArg some (partialMatchMonoList_found q hl h)⟩
  rw [taskFound,hret.value_eq]

theorem pushMonoList_delivers (q : Query) {t : DimTree} {dim pos : ℕ} (hl : t.isList = false)
    (h : t.StoredIn e.elf e.numDim lo hi dim pos) :
    e.Delivers lo hi q (e.pushMonoList q dim pos) (t.search q dim) := by
  rw [pushMonoList,partialMatchMonoList_found q hl h]
  exact ⟨Submits.emit _,total_emit _⟩

theorem Delivers.nil (q : Query) : e.Delivers lo hi q [] [] := ⟨Submits.nil,rfl⟩

theorem Delivers.append {q : Query} {acts acts' : List SearchAction} {rows rows' : List ℕ}
    (h : e.Delivers lo hi q acts rows) (h' : e.Delivers lo hi q acts' rows') :
    e.Delivers lo hi q (acts ++ acts') (rows ++ rows') := by
  refine ⟨h.submits.append h'.submits,?_⟩
  rw [total_append,h.total,h'.total,Multiset.coe_add]

/-- The submission for a pointer to a stored tree delivers the selected rows of the tree. -/
theorem submitPointer_delivers (q : Query) {t : DimTree} {dim off : ℕ} (hoff : off < 2^62)
    (ho : t.Ordered) (h : t.StoredIn e.elf e.numDim lo hi (dim+1) off) :
    e.Delivers lo hi q [submitPointer dim (t.pointer off)] (t.search q (dim+1)) := by
  have hmask : lastEntryMask64 = 2^62 := rfl
  cases hl : t.isList with
  | true =>
    rw [submitPointer,DimTree.pointer_list hl,if_pos (by omega)]
    refine ⟨?_,(add_zero _).trans (taskFound_list q ho hl h)⟩
    intro task htask
    cases List.mem_singleton.mp htask
    exact ⟨t,hl,ho,h⟩
  | false =>
    rw [submitPointer,DimTree.pointer_mono hl hoff,if_neg (by omega),DimTree.and_recoverMask64,
      Nat.add_mod_right,Nat.mod_eq_of_lt hoff]
    refine ⟨?_,(add_zero _).trans (taskFound_mono q hl h)⟩
    intro task htask
    cases List.mem_singleton.mp htask
    exact ⟨t,hl,h⟩

end Elf

namespace Image

variable (im : Image)

/-- A task on a tree of the image. -/
abbrev TaskStored : Task → Prop := im.toElf.TaskStored (2*(im.maxFirstDim+1)) im.stop

abbrev Delivers : Query → List SearchAction → List ℕ → Prop :=
  im.toElf.Delivers (2*(im.maxFirstDim+1)) im.stop

/-- The submissions for the pointers of root slots. -/
theorem submitSlots_delivers (q : Query) (slots : List ℕ) (h : ∀ v ∈ slots, v ≤ im.maxFirstDim) :
    im.Delivers q (slots.map fun v => submitPointer 0 (get64 im.elf (2*v)))
      (slots.flatMap fun v => (im.tree v).search q 1) := by
  induction slots with
  | nil => exact Elf.Delivers.nil q
  | cons v slots ih =>
    have hv := h v List.mem_cons_self
    obtain ⟨off,hoff,hptr,hst⟩ := im.stored v hv
    rw [List.map_cons,List.flatMap_cons,hptr]
    exact (Elf.submitPointer_delivers q hoff (im.ordered v hv) hst).append
      (ih fun w hw => h w (List.mem_cons_of_mem _ hw))

/-- A query with first bounds inside the directory visits some of its slots. -/
theorem slots_inside {q : Query} (hle : q.lowerBound 0 ≤ q.upperBound 0)
    (hmax : q.upperBound 0 ≤ im.maxFirstDim) :
    firstSlot q ≤ im.lastSlot q ∧ im.lastSlot q ≤ im.maxFirstDim := by
  have hlt := im.maxFirstDim_lt
  unfold firstSlot lastSlot
  split <;> omega

/-- A mono list behind the first root slot and a list of two values behind the second. -/
def twoSlots : Image where
  elf := fun p => [4,2^30,6,0,7,2,1,12,2^30,2^31+2,13,2^30,0,1].getD p 0
  numDim := 2
  maxFirstDim := 1
  tree := fun v => if v = 0 then .mono [7] 2 else .entry 1 (.mono [] 0) (.last 2 (.mono [] 1))
  stop := 14
  maxFirstDim_lt := by decide
  ordered := by
    intro v _
    split
    · trivial
    · exact ⟨by decide,trivial,⟨by decide,trivial⟩,rfl,by decide⟩
  stored := by
    intro v hv
    have hcases : v = 0 ∨ v = 1 := by omega
    rcases hcases with rfl | rfl
    · exact ⟨4,by decide,by decide,rfl,by decide,by decide,by decide,by decide⟩
    · refine ⟨6,by decide,by decide,by decide,by decide,by decide,by decide,⟨12,by decide,
        by decide,rfl,by decide,by decide,by decide,by decide⟩,by decide,by decide,by decide,
        by decide,13,by decide,by decide,rfl,by decide,by decide,by decide,by decide⟩

end Image

/-- The query without any selected column. -/
def allRows : Query := ⟨fun _ => 0,fun _ => 1,fun _ => false⟩

end ElfIndex
