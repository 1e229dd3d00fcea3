import ElfIndex.Parallel.Task

/-! # Sub-tree parallel search

The calling thread submits one task for each root slot and waits for all of them. A task
is the sequential recursion, whose appends to the shared results interleave with those
of the other tasks.
-/
namespace ElfIndex
open WordMemory Fuel TaskPool Elf

namespace SubTree

variable (e : Elf)

/-- The recursion is the sequential one; its effects are its appends, one by one. -/
def partialMatch1 (q : Query) (fuel dimension start : ℕ) : Option (List SearchAction) :=
  (e.partialMatchList q fuel dimension start []).map (List.map .emit)

def runTask (q : Query) : Task → ℕ → Option (List SearchAction)
  | .partialMatch1 dimension start, fuel => partialMatch1 e q fuel dimension start
  | .partialMatchMonoList dimension start, _ => some (e.pushMonoList q dimension start)

/-- The calling thread up to its wait. -/
def partialMatch (q : Query) (fuel : ℕ) : Option (List SearchAction) := do
  let offsets ← rootOffsets fuel (rootLower q) (e.rootUpper q)
  some (offsets.map fun offset => submitPointer 0 (get64 e.elf offset))

/-- A state of the pool during a call of `partialMatch`. -/
def Call (e : Elf) (q : Query) (workers : ℕ) (s : State ℕ Task) : Prop :=
  ∃ main, Returns (partialMatch e q) main ∧
    Reachable (fun task acts => Returns (runTask e q task) acts) workers main s

variable {e} {lo hi : ℕ}

theorem runTask_spec (q : Query) {task : Task} (h : e.TaskStored lo hi task)
    {acts : List SearchAction} (hrun : Returns (runTask e q task) acts) :
    Submits (e.TaskStored lo hi) acts ∧ total (e.taskFound q) acts = e.taskFound q task := by
  cases task with
  | partialMatch1 dim pos =>
    obtain ⟨t,hl,ho,hst⟩ := h
    have hgo : Returns (runTask e q (.partialMatch1 dim pos)) ((t.search q dim).map .emit) := by
      refine ⟨t.size,fun fuel hfuel => ?_⟩
      rw [runTask,partialMatch1,partialMatchList_spec q ho hst hl fuel hfuel]
      rfl
    rw [hrun.unique hgo,taskFound_list q ho hl hst]
    exact ⟨Submits.emit _,total_emit _⟩
  | partialMatchMonoList dim pos =>
    obtain ⟨t,hl,hst⟩ := h
    have hdel := pushMonoList_delivers q hl hst
    rw [hrun.unique ⟨0,fun _ _ => rfl⟩,taskFound_mono q hl hst]
    exact ⟨hdel.submits,hdel.total⟩

/-- When the sub-tree search returns, all tasks have finished and the results are those of
the sequential search up to their order. -/
theorem matchSubTree_agrees (im : Image) (q : Query) (hle : q.lowerBound 0 ≤ q.upperBound 0)
    (hmax : q.upperBound 0 ≤ im.maxFirstDim) (workers : ℕ) (s : State ℕ Task)
    (h : Call im.toElf q workers s) (hret : s.returned = true) :
    (∀ job ∈ s.jobs, job = .finished) ∧
      ∃ found, Returns (im.partialMatch q) found ∧ s.output.Perm found := by
  obtain ⟨main,hmain,hreach⟩ := h
  obtain ⟨hslots,hdir⟩ := im.slots_inside hle hmax
  have hlast : im.lastSlot q < 2^31-1 := by
    obtain ⟨bound,hbound⟩ := hmain
    have hrun := hbound bound le_rfl
    rw [partialMatch,Option.bind_eq_bind,Option.bind_eq_some_iff] at hrun
    obtain ⟨offsets,hroot,_⟩ := hrun
    exact im.rootOffsets_ends q hroot
  have hdel := im.submitSlots_delivers q
    (List.range' (Image.firstSlot q) (im.lastSlot q+1-Image.firstSlot q)) (by
      intro v hv
      have := List.mem_range'_1.mp hv
      omega)
  have hmain' : Returns (partialMatch im.toElf q)
      ((List.range' (Image.firstSlot q) (im.lastSlot q+1-Image.firstSlot q)).map
        fun v => submitPointer 0 (get64 im.elf (2*v))) := by
    obtain ⟨bound,hroot⟩ := im.rootOffsets_returns q hlast
    dsimp only at hroot
    refine ⟨bound,fun fuel hfuel => ?_⟩
    rw [partialMatch,hroot fuel hfuel]
    simp only [Option.bind_eq_bind,Option.bind_some,List.map_map,Function.comp_def]
  rw [hmain.unique hmain'] at hreach
  obtain ⟨hfinished,houtput⟩ := returned_spec
    (fun task acts hstored hrun => runTask_spec q hstored hrun) hdel.submits hreach hret
  refine ⟨hfinished,_,im.partialMatch_returns q hlast fun _ => hdir,?_⟩
  rw [← Multiset.coe_eq_coe,houtput,hdel.total]
  rfl

/-- Two workers append in turn: the rows of the second slot surround that of the first. -/
theorem matchSubTree_agrees_twoSlots :
    (∀ job ∈ [Job.finished,Job.finished], job = (.finished : Job ℕ Task)) ∧
      ∃ found, Returns (Image.twoSlots.partialMatch allRows) found ∧ [0,2,1].Perm found := by
  refine matchSubTree_agrees Image.twoSlots allRows (by decide) (by decide) 2
    ⟨[],2,true,[.finished,.finished],[0,2,1]⟩
    ⟨[.submit (.partialMatchMonoList 1 4),.submit (.partialMatch1 1 6)],?_,?_⟩ rfl
  · refine ⟨4,fun fuel hfuel => ?_⟩
    obtain ⟨fuel,rfl⟩ : ∃ k, fuel = k+4 := ⟨fuel-4,by omega⟩
    rfl
  · have hmono : Returns (runTask Image.twoSlots.toElf allRows (.partialMatchMonoList 1 4))
        [.emit 2] := ⟨0,fun _ _ => rfl⟩
    have htask : Returns (runTask Image.twoSlots.toElf allRows (.partialMatch1 1 6))
        [.emit 0,.emit 1] := by
      refine ⟨4,fun fuel hfuel => ?_⟩
      obtain ⟨fuel,rfl⟩ : ∃ k, fuel = k+4 := ⟨fuel-4,by omega⟩
      rfl
    apply Relation.ReflTransGen.head (.ownerSubmit rfl)
    apply Relation.ReflTransGen.head (.ownerSubmit rfl)
    apply Relation.ReflTransGen.head (.start (i:=0) rfl rfl (by decide) hmono)
    apply Relation.ReflTransGen.head (.start (i:=1) rfl rfl (by decide) htask)
    apply Relation.ReflTransGen.head (.emit (i:=1) rfl)
    apply Relation.ReflTransGen.head (.emit (i:=0) rfl)
    apply Relation.ReflTransGen.head (.emit (i:=1) rfl)
    apply Relation.ReflTransGen.head (.finish (i:=1) rfl)
    apply Relation.ReflTransGen.head (.finish (i:=0) rfl)
    apply Relation.ReflTransGen.head (.await rfl rfl)
    apply Relation.ReflTransGen.head (.await rfl rfl)
    exact Relation.ReflTransGen.single (.leave rfl (by decide))

end SubTree
end ElfIndex
