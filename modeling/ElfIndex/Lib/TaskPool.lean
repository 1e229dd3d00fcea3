import Mathlib.Algebra.BigOperators.Fin
import Mathlib.Algebra.BigOperators.Group.Multiset.Basic
import Mathlib.Algebra.Order.BigOperators.Group.Finset
import Mathlib.Logic.Relation
import Mathlib.Tactic.Abel

/-! # A task pool and its owner

The owner of a pool and the tasks in it emit outputs and submit tasks. The workers serve
the submitted tasks in the order of submission. When the owner has no actions left it
waits for the tasks in this order, also for those submitted meanwhile, and returns. Last come
sums over the threads of such a system.
-/
namespace ElfIndex.TaskPool

variable {α τ : Type*}

inductive Action (α τ : Type*) where
  | emit (a : α)
  | submit (t : τ)

/-- A submitted task: in the queue, with its remaining actions, or at its end. -/
inductive Job (α τ : Type*) where
  | queued (t : τ)
  | running (rest : List (Action α τ))
  | finished

/-- The jobs stand in the order of their submission. -/
structure State (α τ : Type*) where
  owner : List (Action α τ)
  awaited : ℕ
  returned : Bool
  jobs : List (Job α τ)
  output : List α

def Job.isRunning : Job α τ → Bool
  | .running _ => true
  | _ => false

def Job.isQueued : Job α τ → Bool
  | .queued _ => true
  | _ => false

def initial (main : List (Action α τ)) : State α τ := ⟨main,0,false,[],[]⟩

/-- One atomic step. A worker without a task takes the oldest task of the queue. -/
inductive Step (body : τ → List (Action α τ) → Prop) (workers : ℕ) :
    State α τ → State α τ → Prop
  | ownerEmit {s : State α τ} {a : α} {rest : List (Action α τ)}
      (h : s.owner = .emit a :: rest) :
      Step body workers s {s with owner := rest, output := s.output ++ [a]}
  | ownerSubmit {s : State α τ} {t : τ} {rest : List (Action α τ)}
      (h : s.owner = .submit t :: rest) :
      Step body workers s {s with owner := rest, jobs := s.jobs ++ [.queued t]}
  | await {s : State α τ} (howner : s.owner = []) (h : s.jobs[s.awaited]? = some .finished) :
      Step body workers s {s with awaited := s.awaited+1}
  | leave {s : State α τ} (howner : s.owner = []) (hend : s.jobs.length ≤ s.awaited) :
      Step body workers s {s with returned := true}
  | start {s : State α τ} {i : ℕ} {t : τ} {acts : List (Action α τ)}
      (h : s.jobs[i]? = some (.queued t)) (hfirst : (s.jobs.take i).any Job.isQueued = false)
      (hfree : s.jobs.countP Job.isRunning < workers) (hbody : body t acts) :
      Step body workers s {s with jobs := s.jobs.set i (.running acts)}
  | emit {s : State α τ} {i : ℕ} {a : α} {rest : List (Action α τ)}
      (h : s.jobs[i]? = some (.running (.emit a :: rest))) :
      Step body workers s
        {s with jobs := s.jobs.set i (.running rest), output := s.output ++ [a]}
  | submit {s : State α τ} {i : ℕ} {t : τ} {rest : List (Action α τ)}
      (h : s.jobs[i]? = some (.running (.submit t :: rest))) :
      Step body workers s {s with jobs := s.jobs.set i (.running rest) ++ [.queued t]}
  | finish {s : State α τ} {i : ℕ} (h : s.jobs[i]? = some (.running [])) :
      Step body workers s {s with jobs := s.jobs.set i .finished}

def Reachable (body : τ → List (Action α τ) → Prop) (workers : ℕ) (main : List (Action α τ)) :
    State α τ → Prop :=
  Relation.ReflTransGen (Step body workers) (initial main)

/-! ## Outputs -/

/-- The outputs of an action when each submitted task delivers its own. -/
def Action.delivers (out : τ → Multiset α) : Action α τ → Multiset α
  | .emit a => {a}
  | .submit t => out t

def total (out : τ → Multiset α) (acts : List (Action α τ)) : Multiset α :=
  (acts.map (Action.delivers out)).sum

/-- The outputs that a job still owes. -/
def Job.due (out : τ → Multiset α) : Job α τ → Multiset α
  | .queued t => out t
  | .running rest => total out rest
  | .finished => 0

/-- The tasks that a list of actions submits all satisfy `good`. -/
def Submits (good : τ → Prop) (acts : List (Action α τ)) : Prop := ∀ t, .submit t ∈ acts → good t

def Job.Good (good : τ → Prop) : Job α τ → Prop
  | .queued t => good t
  | .running rest => Submits good rest
  | .finished => True

variable {out : τ → Multiset α} {good : τ → Prop}

@[simp] theorem total_nil : total out ([] : List (Action α τ)) = 0 := rfl

@[simp] theorem total_cons (act : Action α τ) (acts : List (Action α τ)) :
    total out (act :: acts) = act.delivers out + total out acts := by
  simp only [total,List.map_cons,List.sum_cons]

@[simp] theorem total_append (acts acts' : List (Action α τ)) :
    total out (acts ++ acts') = total out acts + total out acts' := by
  simp only [total,List.map_append,List.sum_append]

theorem total_emit (l : List α) : total out (l.map fun a => (.emit a : Action α τ)) = l := by
  induction l with
  | nil => rfl
  | cons a l ih =>
    rw [List.map_cons,total_cons,ih]
    rfl

theorem Submits.nil : Submits good ([] : List (Action α τ)) := fun _ h => by cases h

theorem Submits.tail {act : Action α τ} {acts : List (Action α τ)}
    (h : Submits good (act :: acts)) : Submits good acts :=
  fun t ht => h t (List.mem_cons_of_mem _ ht)

theorem Submits.append {acts acts' : List (Action α τ)} (h : Submits good acts)
    (h' : Submits good acts') : Submits good (acts ++ acts') := by
  intro t ht
  rcases List.mem_append.mp ht with ht | ht
  · exact h t ht
  · exact h' t ht

theorem Submits.emit (l : List α) : Submits good (l.map fun a => (.emit a : Action α τ)) := by
  intro t ht
  obtain ⟨a,_,ha⟩ := List.mem_map.mp ht
  cases ha

/-! ## The invariant -/

/-- Nothing is lost or doubled: what was emitted and what is still owed make up `goal`. -/
structure Inv (out : τ → Multiset α) (good : τ → Prop) (goal : Multiset α) (s : State α τ) :
    Prop where
  outputs : s.output + total out s.owner + (s.jobs.map (Job.due out)).sum = goal
  owner : Submits good s.owner
  jobs : ∀ job ∈ s.jobs, job.Good good
  awaited : ∀ i < s.awaited, s.jobs[i]? = some .finished
  returned : s.returned = true → s.owner = [] ∧ s.jobs.length ≤ s.awaited

/-- A list around one of its entries. -/
theorem split_at {β : Type*} {l : List β} {i : ℕ} {x : β} (h : l[i]? = some x) :
    ∃ l1 l2, l = l1 ++ x :: l2 ∧ l1.length = i ∧ ∀ y, l.set i y = l1 ++ y :: l2 := by
  obtain ⟨hi,hx⟩ := List.getElem?_eq_some_iff.mp h
  have hlen : (l.take i).length = i := by
    rw [List.length_take]
    omega
  refine ⟨l.take i,l.drop (i+1),?_,hlen,?_⟩
  · rw [← hx,← List.drop_eq_getElem_cons hi,List.take_append_drop]
  · intro y
    rw [List.set_eq_take_append_cons_drop,if_pos hi]

/-- A job of the pool goes on: it owes what it now submits and emits, no more, no less. -/
theorem Inv.advance {goal : Multiset α} {s : State α τ} (h : Inv out good goal s) {i : ℕ}
    {job : Job α τ} (hjob : s.jobs[i]? = some job) (hopen : job ≠ .finished) (job' : Job α τ)
    (hgood : job'.Good good) (emitted : List α) (added : List (Job α τ))
    (hadded : ∀ new ∈ added, new.Good good)
    (hdue : job.due out = (emitted : Multiset α) + job'.due out + (added.map (Job.due out)).sum) :
    Inv out good goal
      {s with jobs := s.jobs.set i job' ++ added, output := s.output ++ emitted} := by
  obtain ⟨l1,l2,hl,hlen,hset⟩ := split_at hjob
  have hlater : s.awaited ≤ i := by
    by_contra hlt
    rw [h.awaited i (by omega)] at hjob
    exact hopen (Option.some.inj hjob).symm
  refine ⟨?_,h.owner,?_,?_,?_⟩
  · have hsum := h.outputs
    rw [hl] at hsum
    rw [← hsum,hset job']
    simp only [List.map_append,List.map_cons,List.sum_append,List.sum_cons,hdue,
      ← Multiset.coe_add]
    abel
  · intro new hnew
    rcases List.mem_append.mp hnew with hnew | hnew
    · rcases List.mem_or_eq_of_mem_set hnew with hnew | rfl
      · exact h.jobs new hnew
      · exact hgood
    · exact hadded new hnew
  · intro j hj
    have hold := h.awaited j hj
    have hjl : j < s.jobs.length := (List.getElem?_eq_some_iff.mp hold).1
    have hij : i ≠ j := (Nat.lt_of_lt_of_le hj hlater).ne'
    rw [List.getElem?_append_left (by rwa [List.length_set]),List.getElem?_set_ne hij]
    exact hold
  · intro hret
    have hend := (h.returned hret).2
    have hi : i < s.jobs.length := (List.getElem?_eq_some_iff.mp hjob).1
    omega

variable {body : τ → List (Action α τ) → Prop} {workers : ℕ}

/-- Every step of the owner or of a worker keeps the invariant. -/
theorem Inv.step {goal : Multiset α} {s s' : State α τ} (h : Inv out good goal s)
    (hbody : ∀ t acts, good t → body t acts → Submits good acts ∧ total out acts = out t)
    (hstep : Step body workers s s') : Inv out good goal s' := by
  cases hstep with
  | ownerEmit howner =>
    have hsum := h.outputs
    rw [howner,total_cons] at hsum
    refine ⟨?_,?_,h.jobs,h.awaited,?_⟩
    · rw [← hsum,← Multiset.coe_add]
      simp only [Action.delivers,Multiset.coe_singleton]
      abel
    · exact (howner ▸ h.owner).tail
    · intro hret
      rw [(h.returned hret).1] at howner
      cases howner
  | @ownerSubmit t _ howner =>
    have hsum := h.outputs
    have hgood := h.owner
    rw [howner] at hsum hgood
    rw [total_cons] at hsum
    refine ⟨?_,hgood.tail,?_,?_,?_⟩
    · rw [← hsum]
      simp only [List.map_append,List.map_cons,List.map_nil,List.sum_append,List.sum_cons,
        List.sum_nil,Action.delivers,Job.due]
      abel
    · intro job hjob
      rcases List.mem_append.mp hjob with hjob | hjob
      · exact h.jobs job hjob
      · rw [List.mem_singleton.mp hjob]
        exact hgood t List.mem_cons_self
    · intro i hi
      have hold := h.awaited i hi
      rw [List.getElem?_append_left (List.getElem?_eq_some_iff.mp hold).1]
      exact hold
    · intro hret
      rw [(h.returned hret).1] at howner
      cases howner
  | await howner hfin =>
    refine ⟨h.outputs,h.owner,h.jobs,?_,?_⟩
    · intro i hi
      rcases Nat.lt_succ_iff_lt_or_eq.mp hi with hlt | rfl
      · exact h.awaited i hlt
      · exact hfin
    · intro hret
      have hend := (h.returned hret).2
      exact ⟨howner,Nat.le_succ_of_le hend⟩
  | leave howner hend => exact ⟨h.outputs,h.owner,h.jobs,h.awaited,fun _ => ⟨howner,hend⟩⟩
  | @start i t acts hjob _ _ hrun =>
    obtain ⟨hsub,htotal⟩ := hbody t acts (h.jobs _ (List.mem_of_getElem? hjob)) hrun
    have := h.advance hjob (fun he => by cases he) (.running acts) hsub [] []
      (fun _ hn => by cases hn) (by simp [Job.due,htotal])
    simpa only [List.append_nil] using this
  | @emit i a rest hjob =>
    have hsub : Submits good rest := (h.jobs _ (List.mem_of_getElem? hjob)).tail
    have := h.advance hjob (fun he => by cases he) (.running rest) hsub [a] []
      (fun _ hn => by cases hn) (by simp [Job.due,Action.delivers])
    simpa only [List.append_nil] using this
  | @submit i t rest hjob =>
    have hgood : Submits good (.submit t :: rest) := h.jobs _ (List.mem_of_getElem? hjob)
    have := h.advance hjob (fun he => by cases he) (.running rest) hgood.tail []
      [.queued t] (fun new hn => ?_) (by simp [Job.due,Action.delivers,add_comm])
    · simpa only [List.append_nil] using this
    · rw [List.mem_singleton.mp hn]
      exact hgood t List.mem_cons_self
  | @finish i hjob =>
    have := h.advance hjob (fun he => by cases he) (.finished) trivial [] []
      (fun _ hn => by cases hn) (by simp [Job.due])
    simpa only [List.append_nil] using this

theorem Inv.reachable {main : List (Action α τ)} {s : State α τ}
    (hbody : ∀ t acts, good t → body t acts → Submits good acts ∧ total out acts = out t)
    (hmain : Submits good main) (h : Reachable body workers main s) :
    Inv out good (total out main) s := by
  induction h with
  | refl =>
    refine ⟨by simp [initial],hmain,?_,?_,?_⟩
    · intro job hjob
      cases hjob
    · intro i hi
      exact absurd hi (Nat.not_lt_zero i)
    · intro hret
      cases hret
  | tail _ hstep ih => exact ih.step hbody hstep

/-- When the owner has returned, every submitted task has finished and the outputs are
those that the owner's actions deliver. -/
theorem returned_spec {main : List (Action α τ)} {s : State α τ}
    (hbody : ∀ t acts, good t → body t acts → Submits good acts ∧ total out acts = out t)
    (hmain : Submits good main) (h : Reachable body workers main s) (hret : s.returned = true) :
    (∀ job ∈ s.jobs, job = .finished) ∧ (s.output : Multiset α) = total out main := by
  have hinv := Inv.reachable hbody hmain h
  obtain ⟨howner,hend⟩ := hinv.returned hret
  have hfinished : ∀ job ∈ s.jobs, job = .finished := by
    intro job hjob
    obtain ⟨i,hi,rfl⟩ := List.mem_iff_getElem.mp hjob
    have hat := hinv.awaited i (by omega)
    rw [List.getElem?_eq_getElem hi] at hat
    exact Option.some.inj hat
  refine ⟨hfinished,?_⟩
  have hdue : (s.jobs.map (Job.due out)).sum = 0 := by
    apply List.sum_eq_zero
    intro m hm
    obtain ⟨job,hjob,rfl⟩ := List.mem_map.mp hm
    rw [hfinished job hjob]
    rfl
  rw [← hinv.outputs,howner,hdue,total_nil,add_zero,add_zero]

end ElfIndex.TaskPool

/-! ## Counting processes

A system of finitely many processes is a function from their indices to their states. The
number of processes with some property changes by at most one when one process moves.
-/
namespace ElfIndex.Tally

variable {n : ℕ} {β : Type*}

/-- The number of indices whose state satisfies `p`. -/
def tally (p : β → Bool) (f : Fin n → β) : ℕ := ∑ i, if p (f i) then 1 else 0

/-- One process moves to the state `x`. -/
theorem tally_update (p : β → Bool) (f : Fin n → β) (i : Fin n) (x : β) :
    tally p (Function.update f i x) + (if p (f i) then 1 else 0) =
      tally p f + (if p x then 1 else 0) := by
  have hrest : ∑ j ∈ Finset.univ.erase i, (if p (Function.update f i x j) then 1 else 0) =
      ∑ j ∈ Finset.univ.erase i, (if p (f j) then 1 else 0) := by
    apply Finset.sum_congr rfl
    intro j hj
    rw [Function.update_of_ne (Finset.ne_of_mem_erase hj)]
  have hold := Finset.add_sum_erase Finset.univ (fun j => if p (f j) then 1 else 0)
    (Finset.mem_univ i)
  have hnew := Finset.add_sum_erase Finset.univ
    (fun j => if p (Function.update f i x j) then 1 else 0) (Finset.mem_univ i)
  rw [hrest] at hnew
  simp only [Function.update_self] at hnew
  rw [tally,tally,← hold,← hnew]
  omega

theorem tally_eq_zero {p : β → Bool} {f : Fin n → β} :
    tally p f = 0 ↔ ∀ i, p (f i) = false := by
  rw [tally,Finset.sum_eq_zero_iff]
  simp

theorem tally_pos {p : β → Bool} {f : Fin n → β} : 0 < tally p f ↔ ∃ i, p (f i) = true := by
  rw [Nat.pos_iff_ne_zero,Ne,tally_eq_zero,not_forall]
  simp

theorem tally_eq_one {p : β → Bool} {f : Fin n → β} (h : tally p f = 1) :
    ∃! i, p (f i) = true := by
  rw [tally,← Finset.card_filter,Finset.card_eq_one] at h
  obtain ⟨i,hi⟩ := h
  have hmem : ∀ j, p (f j) = true ↔ j = i := by
    intro j
    simpa using Finset.ext_iff.mp hi j
  exact ⟨i,(hmem i).mpr rfl,fun j hj => (hmem j).mp hj⟩

end ElfIndex.Tally
