import ElfIndex.Parallel.Task

/-! # Node-level parallel search

A node submits a task for each of its hits but the first one, which it searches itself at
its end. The calling thread does the same with the root slots and then waits for all
tasks by their index, those included that tasks have submitted. List walks and recursion
share one step bound.
-/
namespace ElfIndex
open WordMemory Fuel TaskPool Elf

namespace NodeLevel

variable (e : Elf)

/-- The loop of `partialMatch1`: where it stops, the first hit and the submissions. Both
branches defer the first hit in `buffer`, where 0 stands for none. -/
def scanList (q : Query) (dimension : ℕ) :
    ℕ → ℕ → ℕ → List SearchAction → Option (ℕ × ℕ × List SearchAction)
  | 0, _, _, _ => none
  | fuel+1, position, buffer, actions =>
    let toCompare := e.elf position
    let pointer := get64 e.elf (position+1)
    if toCompare < lastEntryMask then
      if q.columnsForSelect dimension then
        if isIn (q.lowerBound dimension) (q.upperBound dimension) toCompare then
          if buffer = 0 then scanList q dimension fuel (position+3) pointer actions
          else scanList q dimension fuel (position+3) buffer
            (actions ++ [submitPointer dimension pointer])
        else if q.upperBound dimension < toCompare then some (position,buffer,actions)
        else scanList q dimension fuel (position+3) buffer actions
      else
        if buffer = 0 then scanList q dimension fuel (position+3) pointer actions
        else scanList q dimension fuel (position+3) buffer
          (actions ++ [submitPointer dimension pointer])
    else some (position,buffer,actions)

/-- The code after the loop, which also runs after a `break`. -/
def lastEntry (q : Query) (dimension position : ℕ) : List SearchAction :=
  let toCompare := e.elf position &&& recoverMask
  let pointer := get64 e.elf (position+1)
  if q.columnsForSelect dimension then
    if isIn (q.lowerBound dimension) (q.upperBound dimension) toCompare then
      [submitPointer dimension pointer]
    else []
  else [submitPointer dimension pointer]

/-- The search of a deferred pointer by the same thread. -/
def visitPointer (rec : ℕ → ℕ → Option (List SearchAction)) (q : Query)
    (dimension pointer : ℕ) : Option (List SearchAction) :=
  if pointer < lastEntryMask64 then rec (dimension+1) pointer
  else some (e.pushMonoList q (dimension+1) (pointer &&& recoverMask64))

def visitBuffer (rec : ℕ → ℕ → Option (List SearchAction)) (q : Query)
    (dimension buffer : ℕ) : Option (List SearchAction) :=
  if buffer ≠ 0 then visitPointer e rec q dimension buffer else some []

def partialMatch1 (q : Query) : ℕ → ℕ → ℕ → Option (List SearchAction)
  | 0, _, _ => none
  | fuel+1, dimension, start => do
    let (position,buffer,actions) ← scanList e q dimension (fuel+1) start 0 []
    let rest ← visitBuffer e (partialMatch1 q fuel) q dimension buffer
    some (actions ++ lastEntry e q dimension position ++ rest)

def runTask (q : Query) : Task → ℕ → Option (List SearchAction)
  | .partialMatch1 dimension start, fuel => partialMatch1 e q fuel dimension start
  | .partialMatchMonoList dimension start, _ => some (e.pushMonoList q dimension start)

/-- The calling thread up to its wait. The second pointer of an empty root range does
not exist. -/
def partialMatch (q : Query) (fuel : ℕ) : Option (List SearchAction) := do
  let offsets ← rootOffsets fuel (rootLower q) (e.rootUpper q)
  match offsets.map (get64 e.elf) with
  | [] => none
  | first :: others => do
    let rest ← visitPointer e (partialMatch1 e q fuel) q 0 first
    some (others.map (submitPointer 0) ++ rest)

/-- A state of the pool during a call of `partialMatch`. -/
def Call (e : Elf) (q : Query) (workers : ℕ) (s : State ℕ Task) : Prop :=
  ∃ main, Returns (partialMatch e q) main ∧
    Reachable (fun task acts => Returns (runTask e q task) acts) workers main s

variable {e} {lo hi : ℕ}

/-- A deferred pointer and the rows behind it; `n` bounds the size of the subtree. -/
def Buffered (e : Elf) (lo hi : ℕ) (q : Query) (dim n buffer : ℕ) (rows : Multiset ℕ) : Prop :=
  buffer = 0 ∧ rows = 0 ∨ ∃ (child : DimTree) (off : ℕ), buffer = child.pointer off ∧
    0 < off ∧ off < 2^62 ∧ child.Ordered ∧ child.size < n ∧
      child.StoredIn e.elf e.numDim lo hi (dim+1) off ∧
        rows = (child.search q (dim+1) : Multiset ℕ)

/-- One entry before the last: its pointer is deferred or submitted if its value is admitted. -/
theorem scanList_entry (q : Query) (dim : ℕ) {pos v pointer : ℕ} (hval : e.elf pos = v) (hv : v < 2^31)
    (hptr : get64 e.elf (pos+1) = pointer) (fuel buffer : ℕ) (actions : List SearchAction) :
    scanList e q dim (fuel+1) pos buffer actions =
      if q.admits dim v then
        if buffer = 0 then scanList e q dim fuel (pos+3) pointer actions
        else scanList e q dim fuel (pos+3) buffer (actions ++ [submitPointer dim pointer])
      else if q.upperBound dim < v then some (pos,buffer,actions)
      else scanList e q dim fuel (pos+3) buffer actions := by
  have hlt : v < lastEntryMask := hv
  simp only [scanList,hval,hlt,if_true,hptr,Query.admits]
  by_cases hs : q.columnsForSelect dim = true
  · simp [hs]
  · simp [hs]

/-- The code after the loop sees the value without its top bit. -/
theorem lastEntry_eq (q : Query) (dim v : ℕ) {pos pointer : ℕ} (hval : e.elf pos%2^31 = v)
    (hptr : get64 e.elf (pos+1) = pointer) :
    lastEntry e q dim pos = if q.admits dim v then [submitPointer dim pointer] else [] := by
  simp only [lastEntry,DimTree.and_recoverMask,hval,hptr,Query.admits]
  by_cases hs : q.columnsForSelect dim = true
  · simp [hs]
  · simp [hs]

/-- The walk over a stored list and the code after it: the deferred rows and the
submissions make up the selected rows of the list. -/
def Scanned (e : Elf) (lo hi : ℕ) (q : Query) (dim n : ℕ) (t : DimTree) (pos buffer : ℕ)
    (rows : Multiset ℕ) (actions : List SearchAction) : Prop :=
  ∃ position buffer' new rows', (∀ fuel, t.size ≤ fuel →
      scanList e q dim fuel pos buffer actions = some (position,buffer',actions ++ new)) ∧
    Submits (e.TaskStored lo hi) (new ++ lastEntry e q dim position) ∧
    Buffered e lo hi q dim n buffer' rows' ∧
    rows' + total (e.taskFound q) (new ++ lastEntry e q dim position) =
      rows + (t.search q dim : Multiset ℕ)

variable {dim n pos buffer v off : ℕ} {child rest : DimTree} {rows : Multiset ℕ}

/-- The last entry is left to the code after the loop. -/
theorem Scanned.last (q : Query) (hv : v < 2^31) (hoc : child.Ordered)
    (hval : e.elf pos = v+2^31) (hoff : off < 2^62) (hptr : get64 e.elf (pos+1) = child.pointer off)
    (hc : child.StoredIn e.elf e.numDim lo hi (dim+1) off)
    (hb : Buffered e lo hi q dim n buffer rows) (actions : List SearchAction) :
    Scanned e lo hi q dim n (.last v child) pos buffer rows actions := by
  have hmask : lastEntryMask = 2^31 := rfl
  have hge : ¬ v+2^31 < lastEntryMask := by omega
  have hsubmit := submitPointer_delivers q hoff hoc hc
  have hlast := lastEntry_eq q dim v (by rw [hval]; omega) hptr
  refine ⟨pos,buffer,[],rows,?_,?_,hb,?_⟩
  · intro fuel hfuel
    simp only [DimTree.size] at hfuel
    obtain ⟨fuel,rfl⟩ : ∃ k, fuel = k+1 := ⟨fuel-1,by omega⟩
    simp only [scanList,hval,hge,if_false,List.append_nil]
  · rw [List.nil_append,hlast]
    split
    · exact hsubmit.submits
    · exact Submits.nil
  · rw [List.nil_append,hlast,DimTree.search_last]
    split
    · rw [hsubmit.total]
    · rfl

/-- The step of the loop over an entry needs one more unit of fuel than the rest of the list. -/
theorem scanList_fuel {q : Query} {actions : List SearchAction} {result : ℕ × ℕ × List SearchAction}
    (h : ∀ fuel, rest.size ≤ fuel → scanList e q dim (fuel+1) pos buffer actions = some result)
    (fuel : ℕ) (hfuel : (DimTree.entry v child rest).size ≤ fuel) :
    scanList e q dim fuel pos buffer actions = some result := by
  simp only [DimTree.size] at hfuel
  obtain ⟨fuel,rfl⟩ : ∃ k, fuel = k+1 := ⟨fuel-1,by omega⟩
  exact h fuel (by omega)

section entry

variable {q : Query} (hval : e.elf pos = v) (hv : v < 2^31)
  (hptr : get64 e.elf (pos+1) = child.pointer off)
include hval hv hptr

/-- The first hit is deferred. -/
theorem Scanned.defer (hin : q.admits dim v = true) {actions : List SearchAction}
    (h : Scanned e lo hi q dim n rest (pos+3) (child.pointer off)
      (child.search q (dim+1) : Multiset ℕ) actions) :
    Scanned e lo hi q dim n (.entry v child rest) pos 0 0 actions := by
  obtain ⟨position,buffer',new,rows',hgo,hnew,hb',hsum⟩ := h
  refine ⟨position,buffer',new,rows',?_,hnew,hb',?_⟩
  · refine scanList_fuel fun fuel hfuel => ?_
    rw [scanList_entry q dim hval hv hptr,if_pos hin,if_pos rfl]
    exact hgo fuel hfuel
  · rw [hsum,DimTree.search_entry,if_pos hin,zero_add,Multiset.coe_add]

/-- A later hit is submitted. -/
theorem Scanned.submit (hin : q.admits dim v = true) (hbuf : buffer ≠ 0) (hoff : off < 2^62)
    (hoc : child.Ordered) (hc : child.StoredIn e.elf e.numDim lo hi (dim+1) off)
    {actions : List SearchAction}
    (h : Scanned e lo hi q dim n rest (pos+3) buffer rows
      (actions ++ [submitPointer dim (child.pointer off)])) :
    Scanned e lo hi q dim n (.entry v child rest) pos buffer rows actions := by
  have hsubmit := submitPointer_delivers q hoff hoc hc
  obtain ⟨position,buffer',new,rows',hgo,hnew,hb',hsum⟩ := h
  refine ⟨position,buffer',[submitPointer dim (child.pointer off)] ++ new,rows',?_,?_,hb',?_⟩
  · refine scanList_fuel fun fuel hfuel => ?_
    rw [scanList_entry q dim hval hv hptr,if_pos hin,if_neg hbuf,hgo fuel hfuel,List.append_assoc]
  · rw [List.append_assoc]
    exact hsubmit.submits.append hnew
  · rw [List.append_assoc,total_append,hsubmit.total,add_left_comm,hsum,DimTree.search_entry,
      if_pos hin,← Multiset.coe_add]
    abel

/-- A value that is too large ends the loop, and the code after it submits nothing. -/
theorem Scanned.stop (hin : q.admits dim v = false) (hup : q.upperBound dim < v)
    (hor : rest.Ordered) (hrl : rest.isList = true) (hvr : v < rest.firstValue)
    (hb : Buffered e lo hi q dim n buffer rows) (actions : List SearchAction) :
    Scanned e lo hi q dim n (.entry v child rest) pos buffer rows actions := by
  have hsel : q.columnsForSelect dim = true := by
    by_contra hs
    simp [Query.admits,hs] at hin
  have hlast := lastEntry_eq q dim v (by rw [hval]; omega) hptr
  simp only [hin,Bool.false_eq_true,if_false] at hlast
  refine ⟨pos,buffer,[],rows,?_,?_,hb,?_⟩
  · refine scanList_fuel fun fuel _ => ?_
    rw [scanList_entry q dim hval hv hptr]
    simp only [hin,Bool.false_eq_true,if_false,hup,if_true,List.append_nil]
  · rw [hlast]
    exact Submits.nil
  · rw [hlast,DimTree.search_entry,DimTree.search_above q hsel hor hrl (hup.trans hvr)]
    simp [hin]

theorem Scanned.skip (hin : q.admits dim v = false) (hup : ¬ q.upperBound dim < v)
    {actions : List SearchAction} (h : Scanned e lo hi q dim n rest (pos+3) buffer rows actions) :
    Scanned e lo hi q dim n (.entry v child rest) pos buffer rows actions := by
  obtain ⟨position,buffer',new,rows',hgo,hnew,hb',hsum⟩ := h
  refine ⟨position,buffer',new,rows',?_,hnew,hb',?_⟩
  · refine scanList_fuel fun fuel hfuel => ?_
    rw [scanList_entry q dim hval hv hptr]
    simp only [hin,Bool.false_eq_true,if_false,hup]
    exact hgo fuel hfuel
  · rw [hsum,DimTree.search_entry]
    simp [hin]

end entry

theorem scanList_spec (q : Query) {t : DimTree} {dim pos n : ℕ} (hlo : 0 < lo) (ho : t.Ordered)
    (hl : t.isList = true) (h : t.StoredIn e.elf e.numDim lo hi dim pos) (hn : t.size ≤ n)
    {buffer : ℕ} {rows : Multiset ℕ} (hb : Buffered e lo hi q dim n buffer rows)
    (actions : List SearchAction) : Scanned e lo hi q dim n t pos buffer rows actions := by
  induction t generalizing pos buffer rows actions with
  | mono values tid => cases hl
  | last v child =>
    obtain ⟨_,_,_,hval,off,hoff,hptr,hc⟩ := h
    obtain ⟨hv,hoc⟩ := ho
    rw [DimTree.value_flagged hv] at hval
    exact Scanned.last q hv hoc hval hoff hptr hc hb actions
  | entry v child rest _ ihr =>
    obtain ⟨_,_,_,hval,⟨off,hoff,hptr,hc⟩,hr⟩ := h
    obtain ⟨hv,hoc,hor,hrl,hvr⟩ := ho
    simp only [DimTree.size] at hn
    by_cases hin : q.admits dim v = true
    · by_cases hbuf : buffer = 0
      · have hrows : rows = 0 := by
          rcases hb with ⟨_,hrows⟩ | ⟨child',off',hptr',hpos',hoff',_⟩
          · exact hrows
          · have := DimTree.pointer_pos (t:=child') hoff' hpos'
            omega
        have hdeferred : Buffered e lo hi q dim n (child.pointer off)
            (child.search q (dim+1) : Multiset ℕ) :=
          Or.inr ⟨child,off,rfl,hlo.trans_le hc.lo_le,hoff,hoc,by omega,hc,rfl⟩
        subst hbuf hrows
        exact Scanned.defer hval hv hptr hin (ihr hor hrl hr (by omega) hdeferred actions)
      · exact Scanned.submit hval hv hptr hin hbuf hoff hoc hc (ihr hor hrl hr (by omega) hb _)
    · rw [Bool.not_eq_true] at hin
      by_cases hup : q.upperBound dim < v
      · exact Scanned.stop hval hv hptr hin hup hor hrl hvr hb actions
      · exact Scanned.skip hval hv hptr hin hup (ihr hor hrl hr (by omega) hb actions)

/-- A thread that searches the tree behind a pointer delivers its selected rows. -/
theorem visitPointer_spec (q : Query) {rec : ℕ → ℕ → ℕ → Option (List SearchAction)}
    {t : DimTree} {dim off n : ℕ} (hoff : off < 2^62)
    (h : t.StoredIn e.elf e.numDim lo hi (dim+1) off)
    (hrec : t.isList = true → ∃ acts, (∀ fuel, n ≤ fuel → rec fuel (dim+1) off = some acts) ∧
      e.Delivers lo hi q acts (t.search q (dim+1))) :
    ∃ acts, (∀ fuel, n ≤ fuel → visitPointer e (rec fuel) q dim (t.pointer off) = some acts) ∧
      e.Delivers lo hi q acts (t.search q (dim+1)) := by
  have hmask : lastEntryMask64 = 2^62 := rfl
  cases hl : t.isList with
  | true =>
    obtain ⟨acts,hrun,hacts⟩ := hrec hl
    refine ⟨acts,?_,hacts⟩
    intro fuel hfuel
    rw [visitPointer,DimTree.pointer_list hl,if_pos (by omega)]
    exact hrun fuel hfuel
  | false =>
    refine ⟨e.pushMonoList q (dim+1) off,?_,pushMonoList_delivers q hl h⟩
    intro fuel _
    rw [visitPointer,DimTree.pointer_mono hl hoff,if_neg (by omega),DimTree.and_recoverMask64,
      Nat.add_mod_right,Nat.mod_eq_of_lt hoff]

/-- A task on a stored list delivers its selected rows; the induction is on the size of
the tree because the deferred list is searched last. -/
theorem partialMatch1_spec (q : Query) (hlo : 0 < lo) (n : ℕ) {t : DimTree} {dim pos : ℕ}
    (hn : t.size ≤ n) (ho : t.Ordered) (hl : t.isList = true)
    (h : t.StoredIn e.elf e.numDim lo hi dim pos) :
    ∃ acts, (∀ fuel, n ≤ fuel → partialMatch1 e q fuel dim pos = some acts) ∧
      e.Delivers lo hi q acts (t.search q dim) := by
  induction n generalizing t dim pos with
  | zero => cases t <;> simp only [DimTree.size] at hn <;> omega
  | succ n ih =>
    obtain ⟨position,buffer,new,rows,hscan,hsub,hb,hsum⟩ :=
      scanList_spec q hlo ho hl h hn (Or.inl ⟨rfl,rfl⟩) []
    rw [zero_add] at hsum
    -- the deferred list, if any, has the rows that are still missing
    obtain ⟨rest,hvisit,hrest,htotal⟩ : ∃ rest, (∀ fuel, n ≤ fuel →
        visitBuffer e (partialMatch1 e q fuel) q dim buffer = some rest) ∧
        Submits (e.TaskStored lo hi) rest ∧ total (e.taskFound q) rest = rows := by
      rcases hb with ⟨hbuf,hrows⟩ | ⟨child,off,hptr,hpos,hoff,hoc,hsize,hst,hrows⟩
      · refine ⟨[],fun fuel _ => ?_,Submits.nil,hrows.symm⟩
        rw [visitBuffer,if_neg (fun hne => hne hbuf)]
      · obtain ⟨rest,hvisit,hdel⟩ := visitPointer_spec q hoff hst
          fun hcl => ih (Nat.le_of_lt_succ hsize) hoc hcl hst
        have hne : buffer ≠ 0 := by
          have := DimTree.pointer_pos (t:=child) hoff hpos
          omega
        refine ⟨rest,fun fuel hfuel => ?_,hdel.submits,hdel.total.trans hrows.symm⟩
        rw [visitBuffer,if_pos hne,hptr]
        exact hvisit fuel hfuel
    refine ⟨new ++ lastEntry e q dim position ++ rest,?_,hsub.append hrest,?_⟩
    · intro fuel hfuel
      obtain ⟨fuel,rfl⟩ : ∃ k, fuel = k+1 := ⟨fuel-1,by omega⟩
      rw [partialMatch1,hscan (fuel+1) (hn.trans hfuel)]
      simp only [Option.bind_eq_bind,Option.bind_some,hvisit fuel (by omega),List.nil_append]
    · rw [total_append,htotal,← hsum,add_comm]

theorem runTask_spec (q : Query) (hlo : 0 < lo) {task : Task} (h : e.TaskStored lo hi task)
    {acts : List SearchAction} (hrun : Returns (runTask e q task) acts) :
    Submits (e.TaskStored lo hi) acts ∧ total (e.taskFound q) acts = e.taskFound q task := by
  cases task with
  | partialMatch1 dim pos =>
    obtain ⟨t,hl,ho,hst⟩ := h
    obtain ⟨acts',hgo,hdel⟩ := partialMatch1_spec q hlo t.size le_rfl ho hl hst
    rw [hrun.unique ⟨t.size,hgo⟩,taskFound_list q ho hl hst]
    exact ⟨hdel.submits,hdel.total⟩
  | partialMatchMonoList dim pos =>
    obtain ⟨t,hl,hst⟩ := h
    have hdel := pushMonoList_delivers q hl hst
    rw [hrun.unique ⟨0,fun _ _ => rfl⟩,taskFound_mono q hl hst]
    exact ⟨hdel.submits,hdel.total⟩

/-! ## The whole search -/

/-- The calling thread delivers the rows of all visited slots. -/
theorem partialMatch_delivers (im : Image) (q : Query)
    (hle : Image.firstSlot q ≤ im.lastSlot q) (hmax : im.lastSlot q ≤ im.maxFirstDim)
    (hlast : im.lastSlot q < 2^31-1) :
    ∃ main, Returns (partialMatch im.toElf q) main ∧ Submits im.TaskStored main ∧
      total (im.taskFound q) main =
        (im.searchSlots q (Image.firstSlot q) (im.lastSlot q) : Multiset ℕ) := by
  obtain ⟨bound,hroot⟩ := im.rootOffsets_returns q hlast
  obtain ⟨k,hk⟩ : ∃ k, im.lastSlot q+1-Image.firstSlot q = k+1 :=
    ⟨im.lastSlot q-Image.firstSlot q,by omega⟩
  simp only [hk,List.range'_succ,List.map_cons] at hroot
  obtain ⟨off,hoff,hptr,hst⟩ := im.stored (Image.firstSlot q) (hle.trans hmax)
  have hord := im.ordered (Image.firstSlot q) (hle.trans hmax)
  obtain ⟨rest,hvisit,hrest⟩ := visitPointer_spec q hoff hst
    (n:=(im.tree (Image.firstSlot q)).size) fun hl =>
      partialMatch1_spec q (by omega) _ le_rfl hord hl hst
  have hothers := im.submitSlots_delivers q (List.range' (Image.firstSlot q+1) k) (by
    intro v hv
    have := List.mem_range'_1.mp hv
    omega)
  refine ⟨_,⟨max bound (im.tree (Image.firstSlot q)).size,?_⟩,
    hothers.submits.append hrest.submits,?_⟩
  · intro fuel hfuel
    rw [partialMatch,hroot fuel (by omega)]
    simp only [Option.bind_eq_bind,Option.bind_some,List.map_cons,hptr,
      hvisit fuel (by omega),List.map_map,Function.comp_def]
  · rw [total_append,hothers.total,hrest.total,Image.searchSlots,hk,List.range'_succ,
      List.flatMap_cons,Multiset.coe_add,Multiset.coe_eq_coe]
    exact List.perm_append_comm

/-- When the node-level search returns, all tasks have finished and the results are those
of the sequential search up to their order. -/
theorem matchNodeLevel_agrees (im : Image) (q : Query) (hle : q.lowerBound 0 ≤ q.upperBound 0)
    (hmax : q.upperBound 0 ≤ im.maxFirstDim) (workers : ℕ) (s : State ℕ Task)
    (h : Call im.toElf q workers s) (hret : s.returned = true) :
    (∀ job ∈ s.jobs, job = .finished) ∧
      ∃ found, Returns (im.partialMatch q) found ∧ s.output.Perm found := by
  obtain ⟨main,hmain,hreach⟩ := h
  obtain ⟨hslots,hdir⟩ := im.slots_inside hle hmax
  have hlast : im.lastSlot q < 2^31-1 := by
    obtain ⟨bound,hbound⟩ := hmain
    have hrun := hbound bound le_rfl
    rw [partialMatch,Option.bind_eq_bind,Option.bind_eq_some_iff] at hrun
    obtain ⟨offsets,hroot,_⟩ := hrun
    exact im.rootOffsets_ends q hroot
  obtain ⟨main',hmain',hsub,htotal⟩ := partialMatch_delivers im q hslots hdir hlast
  rw [hmain.unique hmain'] at hreach
  obtain ⟨hfinished,houtput⟩ := returned_spec
    (fun task acts hstored hrun => runTask_spec q (by omega) hstored hrun) hsub hreach hret
  refine ⟨hfinished,_,im.partialMatch_returns q hlast fun _ => hdir,?_⟩
  rw [← Multiset.coe_eq_coe,houtput,htotal]

/-- A run in which the second slot's task submits a task of its own. -/
theorem matchNodeLevel_agrees_twoSlots :
    (∀ job ∈ [Job.finished,Job.finished], job = (.finished : Job ℕ Task)) ∧
      ∃ found, Returns (Image.twoSlots.partialMatch allRows) found ∧ [2,0,1].Perm found := by
  refine matchNodeLevel_agrees Image.twoSlots allRows (by decide) (by decide) 1
    ⟨[],2,true,[.finished,.finished],[2,0,1]⟩ ⟨[.submit (.partialMatch1 1 6),.emit 2],?_,?_⟩ rfl
  · refine ⟨4,fun fuel hfuel => ?_⟩
    obtain ⟨fuel,rfl⟩ : ∃ k, fuel = k+4 := ⟨fuel-4,by omega⟩
    rfl
  · have htask : Returns (runTask Image.twoSlots.toElf allRows (.partialMatch1 1 6))
        [.submit (.partialMatchMonoList 2 13),.emit 0] := by
      refine ⟨4,fun fuel hfuel => ?_⟩
      obtain ⟨fuel,rfl⟩ : ∃ k, fuel = k+4 := ⟨fuel-4,by omega⟩
      rfl
    have hmono : Returns (runTask Image.twoSlots.toElf allRows (.partialMatchMonoList 2 13))
        [.emit 1] := ⟨0,fun _ _ => rfl⟩
    apply Relation.ReflTransGen.head (.ownerSubmit rfl)
    apply Relation.ReflTransGen.head (.start (i:=0) rfl rfl (by decide) htask)
    apply Relation.ReflTransGen.head (.submit (i:=0) rfl)
    apply Relation.ReflTransGen.head (.ownerEmit rfl)
    apply Relation.ReflTransGen.head (.emit (i:=0) rfl)
    apply Relation.ReflTransGen.head (.finish (i:=0) rfl)
    apply Relation.ReflTransGen.head (.await rfl rfl)
    apply Relation.ReflTransGen.head (.start (i:=1) rfl rfl (by decide) hmono)
    apply Relation.ReflTransGen.head (.emit (i:=1) rfl)
    apply Relation.ReflTransGen.head (.finish (i:=1) rfl)
    apply Relation.ReflTransGen.head (.await rfl rfl)
    exact Relation.ReflTransGen.single (.leave rfl (by decide))

end NodeLevel
end ElfIndex
