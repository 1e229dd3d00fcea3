import ElfIndex.Lib.TaskPool
import Mathlib.Logic.Relation

/-! # The thread pool

The state holds where every thread stands in `ThreadWorker::operator()`, `submit` or
`shutdown`, and each statement on shared data is one step. Tasks are numbered in the
order of their submission.
-/
namespace ElfIndex
open Tally

/-- Where a worker stands: before a statement, blocked in `wait` or woken from it, inside
the task or between its two updates of a `submit` call of the task. -/
inductive WorkerPc where
  | testShutdown
  | lock
  | testEmpty
  | callWait
  | blocked
  | notified
  | dequeue
  | unlock
  | testDequeued
  | running
  | notifying
  | exited
deriving DecidableEq, Repr

/-- The positions inside the scope of the `unique_lock`. -/
def WorkerPc.holdsMutex : WorkerPc → Bool
  | .testEmpty | .callWait | .dequeue | .unlock => true
  | _ => false

/-- The local variables of a worker with its position. -/
structure ThreadWorker where
  pc : WorkerPc
  func : Option ℕ
  dequeued : Bool
deriving DecidableEq, Repr

/-- Where another thread stands: outside of the pool, before `notify_one` in `submit`,
before `notify_all` in `shutdown`, or in the loop that joins the workers. -/
inductive ClientPc where
  | idle
  | notifying
  | notifyingAll
  | joining
deriving DecidableEq, Repr

/-- A pool of `n` workers and `m` other threads. The mutex is free or held by a worker. -/
structure ThreadPool (n m : ℕ) where
  mShutdown : Bool
  mQueue : List ℕ
  mConditionalMutex : Option (Fin n)
  workers : Fin n → ThreadWorker
  clients : Fin m → ClientPc
  submitted : ℕ
  finished : List ℕ

namespace ThreadPool

variable {n m : ℕ}

def initial (n m : ℕ) : ThreadPool n m where
  mShutdown := false
  mQueue := []
  mConditionalMutex := none
  workers := fun _ => ⟨.testShutdown,none,false⟩
  clients := fun _ => .idle
  submitted := 0
  finished := []

def pc (s : ThreadPool n m) (w : Fin n) : WorkerPc := (s.workers w).pc

/-- Worker `w` goes on to `pc`. -/
def goto (s : ThreadPool n m) (w : Fin n) (pc : WorkerPc) : ThreadPool n m :=
  {s with workers := Function.update s.workers w {s.workers w with pc := pc}}

def gotoClient (s : ThreadPool n m) (c : Fin m) (pc : ClientPc) : ThreadPool n m :=
  {s with clients := Function.update s.clients c pc}

/-- `m_queue.enqueue(wrapper_func)` -/
def enqueue (s : ThreadPool n m) : ThreadPool n m :=
  {s with mQueue := s.mQueue ++ [s.submitted], submitted := s.submitted+1}

/-- `m_queue.dequeue(func)` on an empty queue leaves `func` as it was. -/
def dequeue (s : ThreadPool n m) (w : Fin n) : ThreadPool n m :=
  match s.mQueue with
  | [] => {s with workers := Function.update s.workers w {s.workers w with dequeued := false}}
  | task :: rest => {s with
      mQueue := rest
      workers := Function.update s.workers w
        {s.workers w with func := some task, dequeued := true}}

/-- `func()` returns. -/
def finish (s : ThreadPool n m) (w : Fin n) : ThreadPool n m :=
  {s with finished := s.finished ++ (s.workers w).func.toList}

/-- `m_conditional_lock.notify_one()` wakes one blocked worker, if there is any. -/
inductive NotifyOne : ThreadPool n m → ThreadPool n m → Prop
  | wake {s : ThreadPool n m} {w : Fin n} (h : s.pc w = .blocked) :
      NotifyOne s (s.goto w .notified)
  | none {s : ThreadPool n m} (h : ∀ w, s.pc w ≠ .blocked) : NotifyOne s s

/-- `m_conditional_lock.notify_all()` -/
def notifyAll (s : ThreadPool n m) : ThreadPool n m :=
  {s with workers := fun w =>
    if s.pc w = .blocked then {s.workers w with pc := .notified} else s.workers w}

/-- Worker `w` calls `wait`, which releases the mutex and blocks. -/
def Waits (s : ThreadPool n m) (w : Fin n) (s' : ThreadPool n m) : Prop :=
  s.pc w = .callWait ∧ s' = {s.goto w .blocked with mConditionalMutex := none}

/-- One atomic step of some thread. -/
inductive Step : ThreadPool n m → ThreadPool n m → Prop
  | testShutdown {s : ThreadPool n m} {w : Fin n} (h : s.pc w = .testShutdown) :
      Step s (s.goto w (if s.mShutdown then .exited else .lock))
  | lock {s : ThreadPool n m} {w : Fin n} (h : s.pc w = .lock)
      (hfree : s.mConditionalMutex = none) :
      Step s {s.goto w .testEmpty with mConditionalMutex := some w}
  | testEmpty {s : ThreadPool n m} {w : Fin n} (h : s.pc w = .testEmpty) :
      Step s (s.goto w (if s.mQueue = [] then .callWait else .dequeue))
  | wait {s s' : ThreadPool n m} {w : Fin n} (h : s.Waits w s') : Step s s'
  | relock {s : ThreadPool n m} {w : Fin n} (h : s.pc w = .notified)
      (hfree : s.mConditionalMutex = none) :
      Step s {s.goto w .dequeue with mConditionalMutex := some w}
  | dequeue {s : ThreadPool n m} {w : Fin n} (h : s.pc w = .dequeue) :
      Step s ((s.dequeue w).goto w .unlock)
  | unlock {s : ThreadPool n m} {w : Fin n} (h : s.pc w = .unlock) :
      Step s {s.goto w .testDequeued with mConditionalMutex := none}
  | testDequeued {s : ThreadPool n m} {w : Fin n} (h : s.pc w = .testDequeued) :
      Step s (s.goto w (if (s.workers w).dequeued then .running else .testShutdown))
  | finish {s : ThreadPool n m} {w : Fin n} (h : s.pc w = .running) :
      Step s ((s.finish w).goto w .testShutdown)
  | taskEnqueue {s : ThreadPool n m} {w : Fin n} (h : s.pc w = .running) :
      Step s (s.enqueue.goto w .notifying)
  | taskNotify {s s' : ThreadPool n m} {w : Fin n} (h : s.pc w = .notifying)
      (hnotify : NotifyOne s s') : Step s (s'.goto w .running)
  | enqueue {s : ThreadPool n m} {c : Fin m} (h : s.clients c = .idle) :
      Step s (s.enqueue.gotoClient c .notifying)
  | notify {s s' : ThreadPool n m} {c : Fin m} (h : s.clients c = .notifying)
      (hnotify : NotifyOne s s') : Step s (s'.gotoClient c .idle)
  | shutdown {s : ThreadPool n m} {c : Fin m} (h : s.clients c = .idle) :
      Step s {s.gotoClient c .notifyingAll with mShutdown := true}
  | notifyAll {s : ThreadPool n m} {c : Fin m} (h : s.clients c = .notifyingAll) :
      Step s (s.notifyAll.gotoClient c .joining)
  | join {s : ThreadPool n m} {c : Fin m} (h : s.clients c = .joining)
      (hexited : ∀ w, s.pc w = .exited) : Step s (s.gotoClient c .idle)

def Reachable (s : ThreadPool n m) : Prop := Relation.ReflTransGen Step (initial n m) s

/-! ## Moves of one thread -/

@[simp] theorem goto_pc (s : ThreadPool n m) (w : Fin n) (p : WorkerPc) :
    (s.goto w p).pc = Function.update s.pc w p := by
  funext v
  by_cases hv : v = w
  · subst hv
    simp [pc,goto]
  · simp [pc,goto,Function.update_of_ne hv]

@[simp] theorem dequeue_pc (s : ThreadPool n m) (w : Fin n) : (s.dequeue w).pc = s.pc := by
  funext v
  by_cases hv : v = w
  · subst hv
    unfold dequeue
    split <;> simp [pc]
  · unfold dequeue
    split <;> simp [pc,Function.update_of_ne hv]

@[simp] theorem notifyAll_pc (s : ThreadPool n m) (v : Fin n) :
    s.notifyAll.pc v = if s.pc v = .blocked then .notified else s.pc v :=
  apply_ite ThreadWorker.pc _ _ _

@[simp] theorem enqueue_pc (s : ThreadPool n m) : s.enqueue.pc = s.pc := rfl

@[simp] theorem gotoClient_pc (s : ThreadPool n m) (c : Fin m) (p : ClientPc) :
    (s.gotoClient c p).pc = s.pc := rfl

/-- `dequeue` only touches the queue and the local variables of the worker. -/
theorem dequeue_frame (s : ThreadPool n m) (w : Fin n) :
    (s.dequeue w).mShutdown = s.mShutdown ∧ (s.dequeue w).clients = s.clients ∧
      (s.dequeue w).mConditionalMutex = s.mConditionalMutex := by
  unfold dequeue
  split <;> exact ⟨rfl,rfl,rfl⟩

/-! ## The mutex -/

/-- A worker inside the critical section holds the mutex. -/
def Locked (s : ThreadPool n m) : Prop :=
  ∀ w, (s.pc w).holdsMutex = true → s.mConditionalMutex = some w

theorem Locked.congr {s s' : ThreadPool n m} (h : s.Locked) (hpc : s'.pc = s.pc)
    (hmutex : s'.mConditionalMutex = s.mConditionalMutex) : s'.Locked := by
  intro v hv
  rw [hpc] at hv
  rw [hmutex]
  exact h v hv

theorem Locked.move {s : ThreadPool n m} (h : s.Locked) {w : Fin n} {p : WorkerPc}
    (hp : p.holdsMutex = true → (s.pc w).holdsMutex = true) : (s.goto w p).Locked := by
  intro v hv
  rw [goto_pc] at hv
  by_cases hvw : v = w
  · subst hvw
    rw [Function.update_self] at hv
    exact h v (hp hv)
  · rw [Function.update_of_ne hvw] at hv
    exact h v hv

theorem Locked.acquire {s : ThreadPool n m} (h : s.Locked) (w : Fin n) (p : WorkerPc)
    (hfree : s.mConditionalMutex = none) :
    Locked {s.goto w p with mConditionalMutex := some w} := by
  intro v hv
  change ((s.goto w p).pc v).holdsMutex = true at hv
  by_cases hvw : v = w
  · rw [hvw]
  · rw [goto_pc,Function.update_of_ne hvw] at hv
    rw [h v hv] at hfree
    cases hfree

theorem Locked.release {s : ThreadPool n m} (h : s.Locked) {w : Fin n} {p : WorkerPc}
    (hw : (s.pc w).holdsMutex = true) (hp : p.holdsMutex = false) :
    Locked {s.goto w p with mConditionalMutex := none} := by
  intro v hv
  change ((s.goto w p).pc v).holdsMutex = true at hv
  rw [goto_pc] at hv
  by_cases hvw : v = w
  · rw [hvw,Function.update_self,hp] at hv
    cases hv
  · rw [Function.update_of_ne hvw] at hv
    exact absurd (Option.some.inj ((h v hv).symm.trans (h w hw))) hvw

theorem NotifyOne.locked {s s' : ThreadPool n m} (hn : NotifyOne s s') (h : s.Locked) :
    s'.Locked := by
  cases hn with
  | wake _ => exact h.move fun hp => by cases hp
  | none _ => exact h

theorem Locked.step {s s' : ThreadPool n m} (h : s.Locked) (hstep : Step s s') : s'.Locked := by
  cases hstep with
  | testShutdown _ =>
    refine h.move fun hp => ?_
    split at hp <;> cases hp
  | lock _ hfree => exact h.acquire _ _ hfree
  | testEmpty hpc => exact h.move fun _ => by rw [hpc]; rfl
  | wait hwait =>
    obtain ⟨hpc,rfl⟩ := hwait
    exact h.release (by rw [hpc]; rfl) rfl
  | relock _ hfree => exact h.acquire _ _ hfree
  | @dequeue w hpc =>
    refine (h.congr (dequeue_pc s w) (dequeue_frame s w).2.2).move fun _ => ?_
    rw [dequeue_pc,hpc]
    rfl
  | unlock hpc => exact h.release (by rw [hpc]; rfl) rfl
  | testDequeued _ =>
    refine h.move fun hp => ?_
    split at hp <;> cases hp
  | @finish w _ =>
    have hsame : (s.finish w).Locked := h.congr rfl rfl
    exact hsame.move fun hp => by cases hp
  | taskEnqueue _ =>
    have hsame : s.enqueue.Locked := h.congr rfl rfl
    exact hsame.move fun hp => by cases hp
  | taskNotify _ hnotify => exact (hnotify.locked h).move fun hp => by cases hp
  | enqueue _ => exact h.congr rfl rfl
  | notify _ hnotify => exact (hnotify.locked h).congr rfl rfl
  | shutdown _ => exact h.congr rfl rfl
  | notifyAll _ =>
    intro v hv
    rw [gotoClient_pc,notifyAll_pc] at hv
    split at hv
    · cases hv
    · exact h v hv
  | join _ _ => exact h.congr rfl rfl

theorem Locked.initial : (initial n m).Locked := fun _ h => by cases h

end ThreadPool
end ElfIndex
