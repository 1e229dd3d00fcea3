import ElfIndex.Parallel.ThreadPool
import Mathlib.Data.List.Count

/-! # Where the tasks are

Every submitted task is in the queue, with one worker, or finished, and the queue holds an
interval of task numbers. The runs include the wakeups of `wait` without a notification, after
which a worker may find the queue empty and keeps the `func` of its last task.
-/
namespace ElfIndex
open Tally

/-- The positions between a `dequeue` and the return of `func`. -/
def WorkerPc.holdsTask : WorkerPc → Bool
  | .unlock | .testDequeued | .running | .notifying => true
  | _ => false

/-- The positions inside of `func`. -/
def WorkerPc.runsTask : WorkerPc → Bool
  | .running | .notifying => true
  | _ => false

namespace ThreadWorker

/-- The worker has taken the task out of the queue and has not returned from it. -/
def holds (task : ℕ) (w : ThreadWorker) : Bool :=
  w.dequeued && w.pc.holdsTask && w.func == some task

/-- A `dequeue` that returns true sets `func`, and nothing else leads to `func()`. -/
structure Loaded (w : ThreadWorker) : Prop where
  func : w.dequeued = true → w.func.isSome = true
  dequeued : w.pc.runsTask = true → w.dequeued = true

end ThreadWorker

namespace ThreadPool

variable {n m : ℕ}

/-- A step of a thread, or a return from `wait` without a notification. -/
inductive PoolStep : ThreadPool n m → ThreadPool n m → Prop
  | step {s s' : ThreadPool n m} (h : Step s s') : PoolStep s s'
  | spurious {s : ThreadPool n m} {w : Fin n} (h : s.pc w = .blocked) :
      PoolStep s (s.goto w .notified)

def PoolReachable (s : ThreadPool n m) : Prop := Relation.ReflTransGen PoolStep (initial n m) s

/-- The number of places of a task. -/
def places (s : ThreadPool n m) (task : ℕ) : ℕ :=
  s.mQueue.count task + tally (·.holds task) s.workers + s.finished.count task

/-- Every submitted task has one place, and the queue holds the last submitted tasks in the
order of their submission. -/
structure Accounted (s : ThreadPool n m) : Prop where
  places : ∀ task, s.places task = if task < s.submitted then 1 else 0
  queue : ∃ first ≤ s.submitted, s.mQueue = List.range' first (s.submitted-first)
  loaded : ∀ w, (s.workers w).Loaded

variable {s s' : ThreadPool n m} {w : Fin n}

theorem Accounted.initial : (initial n m).Accounted := by
  refine ⟨?_,⟨0,le_rfl,rfl⟩,fun w => ⟨fun h => (by cases h),fun h => (by cases h)⟩⟩
  intro task
  have hnone : tally (·.holds task) (ThreadPool.initial n m).workers = 0 :=
    tally_eq_zero.mpr fun _ => rfl
  rw [ThreadPool.places,hnone]
  rfl

/-! ## Steps -/

theorem Accounted.congr (h : s.Accounted) (hworkers : s'.workers = s.workers)
    (hqueue : s'.mQueue = s.mQueue) (hsubmitted : s'.submitted = s.submitted)
    (hfinished : s'.finished = s.finished) : s'.Accounted := by
  refine ⟨?_,?_,?_⟩
  · intro task
    rw [ThreadPool.places,hworkers,hqueue,hfinished,hsubmitted]
    exact h.places task
  · rw [hqueue,hsubmitted]
    exact h.queue
  · rw [hworkers]
    exact h.loaded

theorem loaded_update (h : ∀ v, (s.workers v).Loaded) {x : ThreadWorker} (hx : x.Loaded)
    (w v : Fin n) : (Function.update s.workers w x v).Loaded := by
  by_cases hv : v = w
  · subst hv
    rw [Function.update_self]
    exact hx
  · rw [Function.update_of_ne hv]
    exact h v

/-- A worker changes its local variables but not the task it holds. -/
theorem Accounted.worker (h : s.Accounted) {x : ThreadWorker} (hx : x.Loaded)
    (hholds : ∀ task, x.holds task = (s.workers w).holds task) :
    Accounted {s with workers := Function.update s.workers w x} := by
  refine ⟨?_,h.queue,loaded_update h.loaded hx w⟩
  intro task
  have htally := tally_update (·.holds task) s.workers w x
  rw [hholds task] at htally
  rw [ThreadPool.places,Nat.add_right_cancel htally]
  exact h.places task

/-- A worker goes on to a position in which it holds the same task. -/
theorem Accounted.move (h : s.Accounted) {p : WorkerPc}
    (hholds : p.holdsTask = (s.pc w).holdsTask ∨ (s.workers w).dequeued = false)
    (hruns : p.runsTask = true → (s.workers w).dequeued = true) : (s.goto w p).Accounted := by
  refine h.worker ⟨(h.loaded w).func,hruns⟩ ?_
  intro task
  rcases hholds with heq | hfalse
  · simp only [ThreadWorker.holds,heq]
    rfl
  · simp only [ThreadWorker.holds,hfalse,Bool.false_and]

theorem Accounted.enqueue (h : s.Accounted) : s.enqueue.Accounted := by
  obtain ⟨first,hle,hqueue⟩ := h.queue
  refine ⟨?_,⟨first,Nat.le_succ_of_le hle,?_⟩,h.loaded⟩
  · intro task
    have hold : s.mQueue.count task + tally (·.holds task) s.workers + s.finished.count task =
        if task < s.submitted then 1 else 0 := h.places task
    change (s.mQueue ++ [s.submitted]).count task + tally (·.holds task) s.workers +
      s.finished.count task = if task < s.submitted+1 then 1 else 0
    rw [List.count_append,List.count_singleton]
    simp only [beq_iff_eq]
    split at hold <;> split <;> split <;> omega
  · change s.mQueue ++ [s.submitted] = List.range' first (s.submitted+1-first)
    have hlast : first+1*(s.submitted-first) = s.submitted := by omega
    rw [hqueue,Nat.succ_sub hle,List.range'_concat,hlast]

theorem Accounted.dequeued_of_runs (h : s.Accounted) {p : WorkerPc} (hpc : s.pc w = p)
    (hp : p.runsTask = true) : (s.workers w).dequeued = true :=
  (h.loaded w).dequeued (by rw [← hpc] at hp; exact hp)

/-- A worker takes the first task of the queue. -/
theorem Accounted.dequeue (h : s.Accounted) (hpc : s.pc w = .dequeue) :
    ((s.dequeue w).goto w .unlock).Accounted := by
  have hnone : ∀ task, (s.workers w).holds task = false := by
    intro task
    have hpc' : (s.workers w).pc = .dequeue := hpc
    rw [ThreadWorker.holds,hpc']
    simp [WorkerPc.holdsTask]
  cases hqueue : s.mQueue with
  | nil =>
    have hstate : (s.dequeue w).goto w .unlock =
        {s with workers := Function.update s.workers w ⟨.unlock,(s.workers w).func,false⟩} := by
      simp [ThreadPool.dequeue,goto,hqueue]
    rw [hstate]
    refine h.worker ⟨fun hd => (by cases hd),fun hr => (by cases hr)⟩ ?_
    intro task
    rw [hnone task]
    rfl
  | cons task rest =>
    have hstate : (s.dequeue w).goto w .unlock =
        {s with
          mQueue := rest
          workers := Function.update s.workers w ⟨.unlock,some task,true⟩} := by
      simp [ThreadPool.dequeue,goto,hqueue]
    rw [hstate]
    have hnew : ∀ other, ThreadWorker.holds other ⟨.unlock,some task,true⟩ =
        decide (task = other) := by
      intro other
      rw [Bool.eq_iff_iff]
      simp [ThreadWorker.holds,WorkerPc.holdsTask]
    refine ⟨?_,?_,loaded_update h.loaded ⟨fun _ => rfl,fun _ => rfl⟩ w⟩
    · intro other
      have hold : s.mQueue.count other + tally (·.holds other) s.workers +
          s.finished.count other = if other < s.submitted then 1 else 0 := h.places other
      have htally := tally_update (·.holds other) s.workers w ⟨.unlock,some task,true⟩
      rw [hnone other,hnew other] at htally
      rw [hqueue,List.count_cons] at hold
      simp only [beq_iff_eq,decide_eq_true_eq,Bool.false_eq_true,if_false] at hold htally
      change rest.count other + tally (·.holds other)
        (Function.update s.workers w ⟨.unlock,some task,true⟩) + s.finished.count other =
          if other < s.submitted then 1 else 0
      rw [← hold]
      omega
    · obtain ⟨first,hle,hrange⟩ := h.queue
      rw [hqueue] at hrange
      have hlen := congrArg List.length hrange
      rw [List.length_cons,List.length_range'] at hlen
      rw [← hlen,List.range'_succ,List.cons.injEq] at hrange
      have hrest : rest.length = s.submitted-(first+1) := by omega
      have hle' : first+1 ≤ s.submitted := by omega
      refine ⟨first+1,hle',?_⟩
      change rest = List.range' (first+1) (s.submitted-(first+1))
      rw [← hrest]
      exact hrange.2

/-- The task of a worker is finished when it returns. -/
theorem Accounted.finish (h : s.Accounted) (hpc : s.pc w = .running) :
    ((s.finish w).goto w .testShutdown).Accounted := by
  have hpc' : (s.workers w).pc = .running := hpc
  have hdequeued := h.dequeued_of_runs hpc rfl
  obtain ⟨task,hfunc⟩ := Option.isSome_iff_exists.mp ((h.loaded w).func hdequeued)
  have hold : ∀ other, (s.workers w).holds other = decide (task = other) := by
    intro other
    rw [Bool.eq_iff_iff]
    simp [ThreadWorker.holds,WorkerPc.holdsTask,hpc',hdequeued,hfunc]
  have hstate : (s.finish w).goto w .testShutdown =
      {s with
        finished := s.finished ++ [task]
        workers := Function.update s.workers w ⟨.testShutdown,some task,true⟩} := by
    simp [ThreadPool.finish,goto,hfunc,hdequeued]
  rw [hstate]
  refine ⟨?_,h.queue,loaded_update h.loaded ⟨fun _ => rfl,fun _ => rfl⟩ w⟩
  intro other
  have hplaces : s.mQueue.count other + tally (·.holds other) s.workers +
      s.finished.count other = if other < s.submitted then 1 else 0 := h.places other
  have htally := tally_update (·.holds other) s.workers w ⟨.testShutdown,some task,true⟩
  rw [hold other] at htally
  change s.mQueue.count other + tally (·.holds other)
    (Function.update s.workers w ⟨.testShutdown,some task,true⟩) +
      (s.finished ++ [task]).count other = if other < s.submitted then 1 else 0
  rw [← hplaces,List.count_append,List.count_singleton]
  simp only [ThreadWorker.holds,WorkerPc.holdsTask,Bool.and_false,Bool.false_and,beq_iff_eq,
    decide_eq_true_eq,Bool.false_eq_true,if_false] at htally ⊢
  omega

theorem NotifyOne.accounted (hn : NotifyOne s s') (h : s.Accounted) : s'.Accounted := by
  cases hn with
  | wake hpc => exact h.move (Or.inl (by rw [hpc]; rfl)) fun hr => by cases hr
  | none _ => exact h

/-- A worker that is not blocked does not notice a notification. -/
theorem NotifyOne.workers_eq (hn : NotifyOne s s') (hw : s.pc w ≠ .blocked) :
    s'.workers w = s.workers w := by
  cases hn with
  | @wake v hpc =>
    have hne : w ≠ v := fun heq => hw (heq ▸ hpc)
    exact Function.update_of_ne hne _ _
  | none _ => rfl

theorem Accounted.notifyAll (h : s.Accounted) : s.notifyAll.Accounted := by
  have hsame : ∀ task v, (s.notifyAll.workers v).holds task = (s.workers v).holds task := by
    intro task v
    simp only [ThreadPool.notifyAll]
    split
    · have hpc : (s.workers v).pc = .blocked := ‹s.pc v = .blocked›
      simp [ThreadWorker.holds,WorkerPc.holdsTask,hpc]
    · rfl
  refine ⟨?_,h.queue,?_⟩
  · intro task
    have htally : tally (·.holds task) s.notifyAll.workers = tally (·.holds task) s.workers :=
      Finset.sum_congr rfl fun v _ => by simp only [hsame]
    rw [ThreadPool.places,htally]
    exact h.places task
  · intro v
    simp only [ThreadPool.notifyAll]
    split
    · exact ⟨(h.loaded v).func,fun hr => (by cases hr)⟩
    · exact h.loaded v

theorem Accounted.step (h : s.Accounted) (hstep : Step s s') : s'.Accounted := by
  cases hstep with
  | testShutdown hpc =>
    refine h.move (Or.inl ?_) ?_
    · rw [hpc]
      split <;> rfl
    · split <;> exact fun hr => by cases hr
  | lock hpc _ =>
    have hmove := h.move (p:=.testEmpty) (Or.inl (by rw [hpc]; rfl)) fun hr => by cases hr
    exact hmove.congr rfl rfl rfl rfl
  | testEmpty hpc =>
    refine h.move (Or.inl ?_) ?_
    · rw [hpc]
      split <;> rfl
    · split <;> exact fun hr => by cases hr
  | wait hwait =>
    obtain ⟨hpc,rfl⟩ := hwait
    have hmove := h.move (p:=.blocked) (Or.inl (by rw [hpc]; rfl)) fun hr => by cases hr
    exact hmove.congr rfl rfl rfl rfl
  | relock hpc _ =>
    have hmove := h.move (p:=.dequeue) (Or.inl (by rw [hpc]; rfl)) fun hr => by cases hr
    exact hmove.congr rfl rfl rfl rfl
  | dequeue hpc => exact h.dequeue hpc
  | unlock hpc =>
    have hmove := h.move (p:=.testDequeued) (Or.inl (by rw [hpc]; rfl)) fun hr => by cases hr
    exact hmove.congr rfl rfl rfl rfl
  | @testDequeued w hpc =>
    by_cases hd : (s.workers w).dequeued = true
    · rw [if_pos hd]
      exact h.move (Or.inl (by rw [hpc]; rfl)) fun _ => hd
    · rw [if_neg hd]
      exact h.move (Or.inr (Bool.not_eq_true _ ▸ hd)) fun hr => by cases hr
  | finish hpc => exact h.finish hpc
  | @taskEnqueue w hpc =>
    exact h.enqueue.move (Or.inl (by rw [enqueue_pc,hpc]; rfl))
      fun _ => h.dequeued_of_runs hpc rfl
  | @taskNotify s' w hpc hnotify =>
    have hsame := hnotify.workers_eq (w:=w) (by rw [hpc]; exact WorkerPc.noConfusion)
    have hpc' : s'.pc w = .notifying := by rw [pc,hsame]; exact hpc
    exact (hnotify.accounted h).move (Or.inl (by rw [hpc']; rfl))
      fun _ => (hnotify.accounted h).dequeued_of_runs hpc' rfl
  | enqueue _ => exact h.enqueue.congr rfl rfl rfl rfl
  | notify _ hnotify => exact (hnotify.accounted h).congr rfl rfl rfl rfl
  | shutdown _ => exact h.congr rfl rfl rfl rfl
  | notifyAll _ => exact h.notifyAll.congr rfl rfl rfl rfl
  | join _ _ => exact h.congr rfl rfl rfl rfl

theorem PoolReachable.accounted (h : s.PoolReachable) : s.Accounted := by
  induction h with
  | refl => exact .initial
  | tail _ hstep ih =>
    cases hstep with
    | step hstep => exact ih.step hstep
    | spurious hpc => exact ih.move (Or.inl (by rw [hpc]; rfl)) fun hr => by cases hr

/-! ## Results -/

/-- A step leaves the queue, appends the task that is submitted or removes the first task. -/
def QueueStep (s s' : ThreadPool n m) : Prop :=
  s'.mQueue = s.mQueue ∨ s'.mQueue = s.mQueue ++ [s.submitted] ∨
    ∃ task, s.mQueue = task :: s'.mQueue

theorem NotifyOne.mQueue_eq (hn : NotifyOne s s') : s'.mQueue = s.mQueue := by
  cases hn with
  | wake _ => rfl
  | none _ => rfl

theorem PoolStep.queueStep (h : PoolStep s s') : QueueStep s s' := by
  cases h with
  | spurious _ => exact Or.inl rfl
  | step hstep =>
    cases hstep with
    | wait hwait =>
      obtain ⟨-,rfl⟩ := hwait
      exact Or.inl rfl
    | @dequeue w _ =>
      change QueueStep s (s.dequeue w)
      unfold QueueStep ThreadPool.dequeue
      cases hqueue : s.mQueue with
      | nil => exact Or.inl rfl
      | cons task rest => exact Or.inr (Or.inr ⟨task,rfl⟩)
    | taskEnqueue _ => exact Or.inr (Or.inl rfl)
    | enqueue _ => exact Or.inr (Or.inl rfl)
    | taskNotify _ hnotify => exact Or.inl hnotify.mQueue_eq
    | notify _ hnotify => exact Or.inl hnotify.mQueue_eq
    | _ => exact Or.inl rfl

theorem Accounted.submitted_lt {task : ℕ} (h : s.Accounted) (hplaces : 0 < s.places task) :
    task < s.submitted := by
  rw [h.places] at hplaces
  by_contra hge
  rw [if_neg hge] at hplaces
  exact Nat.lt_irrefl 0 hplaces

/-- A submitted task is in the queue, with exactly one worker, or finished. -/
theorem Accounted.place (h : s.Accounted) {task : ℕ} (htask : task < s.submitted) :
    (s.mQueue.count task = 1 ∧ (∀ w, (s.workers w).holds task = false) ∧ task ∉ s.finished) ∨
      (task ∉ s.mQueue ∧ (∃! w, (s.workers w).holds task = true) ∧ task ∉ s.finished) ∨
      (task ∉ s.mQueue ∧ (∀ w, (s.workers w).holds task = false) ∧
        s.finished.count task = 1) := by
  have hplaces := h.places task
  rw [if_pos htask,ThreadPool.places] at hplaces
  have hcases : s.mQueue.count task = 1 ∧ tally (·.holds task) s.workers = 0 ∧
      s.finished.count task = 0 ∨
      s.mQueue.count task = 0 ∧ tally (·.holds task) s.workers = 1 ∧ s.finished.count task = 0 ∨
      s.mQueue.count task = 0 ∧ tally (·.holds task) s.workers = 0 ∧
        s.finished.count task = 1 := by omega
  rcases hcases with ⟨hq,hw,hf⟩ | ⟨hq,hw,hf⟩ | ⟨hq,hw,hf⟩
  · exact Or.inl ⟨hq,tally_eq_zero.mp hw,List.count_eq_zero.mp hf⟩
  · exact Or.inr (Or.inl ⟨List.count_eq_zero.mp hq,tally_eq_one hw,List.count_eq_zero.mp hf⟩)
  · exact Or.inr (Or.inr ⟨List.count_eq_zero.mp hq,tally_eq_zero.mp hw,hf⟩)

/-- A worker inside of `func()` has the task of a `dequeue` that returned true, and no run of
the task is finished. -/
theorem Accounted.running_task (h : s.Accounted) (hpc : (s.pc w).runsTask = true) :
    (s.workers w).dequeued = true ∧ ∃ task < s.submitted,
      (s.workers w).func = some task ∧ task ∉ s.finished := by
  have hdequeued := h.dequeued_of_runs rfl hpc
  obtain ⟨task,hfunc⟩ := Option.isSome_iff_exists.mp ((h.loaded w).func hdequeued)
  have hheld : (s.pc w).holdsTask = true := by
    cases hp : s.pc w <;> rw [hp] at hpc <;> first | rfl | cases hpc
  have hholds : (s.workers w).holds task = true := by
    rw [ThreadWorker.holds,hdequeued,hfunc]
    simpa [pc] using hheld
  have htally : 0 < tally (·.holds task) s.workers := tally_pos.mpr ⟨w,hholds⟩
  have hlt : task < s.submitted := by
    apply h.submitted_lt
    unfold ThreadPool.places
    omega
  refine ⟨hdequeued,task,hlt,hfunc,?_⟩
  have hplaces := h.places task
  rw [if_pos hlt,ThreadPool.places] at hplaces
  exact List.count_eq_zero.mp (by omega)

/-- In every reachable state each submitted task has exactly one place and no other task has
any; the queue is an interval of task numbers whose first one is the next to leave; and a
worker whose `dequeue` returned false is not inside of `func()`. -/
theorem tasks_in_one_place (h : s.PoolReachable) :
    (∀ task < s.submitted,
      (s.mQueue.count task = 1 ∧ (∀ w, (s.workers w).holds task = false) ∧ task ∉ s.finished) ∨
      (task ∉ s.mQueue ∧ (∃! w, (s.workers w).holds task = true) ∧ task ∉ s.finished) ∨
      (task ∉ s.mQueue ∧ (∀ w, (s.workers w).holds task = false) ∧
        s.finished.count task = 1)) ∧
    (∀ task, s.submitted ≤ task → task ∉ s.mQueue ∧
      (∀ w, (s.workers w).holds task = false) ∧ task ∉ s.finished) ∧
    (∃ first ≤ s.submitted, s.mQueue = List.range' first (s.submitted-first)) ∧
    (∀ s', PoolStep s s' → QueueStep s s') ∧
    ∀ w, (s.pc w).runsTask = true → (s.workers w).dequeued = true ∧ ∃ task < s.submitted,
      (s.workers w).func = some task ∧ task ∉ s.finished := by
  have hacc := h.accounted
  refine ⟨fun task htask => hacc.place htask,?_,hacc.queue,fun _ hstep => hstep.queueStep,
    fun w hpc => hacc.running_task hpc⟩
  intro task hge
  have hplaces := hacc.places task
  rw [if_neg (Nat.not_lt.mpr hge),ThreadPool.places] at hplaces
  have htally : tally (·.holds task) s.workers = 0 := by omega
  exact ⟨List.count_eq_zero.mp (by omega),tally_eq_zero.mp htally,
    List.count_eq_zero.mp (by omega)⟩

/-- A worker runs the only task. -/
theorem tasks_in_one_place_single :
    ∃ s : ThreadPool 1 1, s.PoolReachable ∧ s.pc 0 = .running ∧
      (∃ first ≤ s.submitted, s.mQueue = List.range' first (s.submitted-first)) ∧
      ∃ task < s.submitted, (s.workers 0).func = some task ∧ task ∉ s.finished := by
  have hrun : ∀ {s s' : ThreadPool 1 1}, s.PoolReachable → Step s s' → s'.PoolReachable :=
    fun h hstep => h.tail (.step hstep)
  have hreach := hrun (hrun (hrun (hrun (hrun (hrun (hrun .refl (.enqueue (c:=0) rfl))
    (.testShutdown (w:=0) rfl)) (.lock (w:=0) rfl rfl)) (.testEmpty (w:=0) rfl))
    (.dequeue (w:=0) rfl)) (.unlock (w:=0) rfl)) (.testDequeued (w:=0) rfl)
  have hplaces := tasks_in_one_place hreach
  exact ⟨_,hreach,rfl,hplaces.2.2.1,(hplaces.2.2.2.2 0 rfl).2⟩

end ThreadPool
end ElfIndex
