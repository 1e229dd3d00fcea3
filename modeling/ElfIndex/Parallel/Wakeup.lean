import ElfIndex.Parallel.ThreadPool

/-! # Wakeups of the thread pool

The queue and the shutdown flag change outside of the mutex under which a worker tests
them, so a notification can pass before the worker blocks. The results say at which
`wait` calls this does no harm, and that every other one leaves a worker behind.
-/
namespace ElfIndex
open Tally

namespace ThreadPool

variable {n m : ℕ}

def blockedWorkers (s : ThreadPool n m) : ℕ := tally (fun p => decide (p = .blocked)) s.pc

/-- The `submit` calls before their `notify_one`. -/
def notifyOnes (s : ThreadPool n m) : ℕ :=
  tally (fun p => decide (p = .notifying)) s.pc +
    tally (fun p => decide (p = .notifying)) s.clients

/-- The `shutdown` calls before their `notify_all`. -/
def notifyAlls (s : ThreadPool n m) : ℕ :=
  tally (fun p => decide (p = .notifyingAll)) s.clients

/-- No `submit` or `shutdown` call is between its update and its notification. -/
structure Quiescent (s : ThreadPool n m) : Prop where
  workers : ∀ w, s.pc w ≠ .notifying
  clients : ∀ c, s.clients c ≠ .notifying ∧ s.clients c ≠ .notifyingAll

structure NoLostWakeup (s : ThreadPool n m) : Prop where
  task : s.mQueue ≠ [] → ∃ w, s.pc w ≠ .blocked
  shutdown : s.mShutdown = true → ∀ w, s.pc w ≠ .blocked

/-- A worker that calls `wait` here is woken for every task and for the shutdown. -/
structure Covered (s : ThreadPool n m) : Prop where
  task : n = 1 → s.mQueue ≠ [] → 0 < s.notifyOnes+s.notifyAlls
  shutdown : s.mShutdown = true → 0 < s.notifyAlls ∨ s.blockedWorkers < s.notifyOnes

/-- A step that is no `wait` call, or one in a covered state. -/
def CoveredStep (s s' : ThreadPool n m) : Prop := Step s s' ∧ ∀ w, s.Waits w s' → s.Covered

/-! ## Counts -/

theorem goto_blockedWorkers (s : ThreadPool n m) (w : Fin n) (p : WorkerPc) :
    (s.goto w p).blockedWorkers + (if s.pc w = .blocked then 1 else 0) =
      s.blockedWorkers + (if p = .blocked then 1 else 0) := by
  have h := tally_update (fun p => decide (p = WorkerPc.blocked)) s.pc w p
  simpa only [blockedWorkers,goto_pc,decide_eq_true_eq] using h

theorem goto_notifyOnes (s : ThreadPool n m) (w : Fin n) (p : WorkerPc) :
    (s.goto w p).notifyOnes + (if s.pc w = .notifying then 1 else 0) =
      s.notifyOnes + (if p = .notifying then 1 else 0) := by
  have h := tally_update (fun p => decide (p = WorkerPc.notifying)) s.pc w p
  simp only [decide_eq_true_eq] at h
  have hclients : (s.goto w p).clients = s.clients := rfl
  simp only [notifyOnes,goto_pc,hclients]
  omega

theorem gotoClient_notifyOnes (s : ThreadPool n m) (c : Fin m) (p : ClientPc) :
    (s.gotoClient c p).notifyOnes + (if s.clients c = .notifying then 1 else 0) =
      s.notifyOnes + (if p = .notifying then 1 else 0) := by
  have h := tally_update (fun p => decide (p = ClientPc.notifying)) s.clients c p
  simp only [decide_eq_true_eq] at h
  have hclients : (s.gotoClient c p).clients = Function.update s.clients c p := rfl
  simp only [notifyOnes,gotoClient_pc,hclients]
  omega

theorem gotoClient_notifyAlls (s : ThreadPool n m) (c : Fin m) (p : ClientPc) :
    (s.gotoClient c p).notifyAlls + (if s.clients c = .notifyingAll then 1 else 0) =
      s.notifyAlls + (if p = .notifyingAll then 1 else 0) := by
  have h := tally_update (fun p => decide (p = ClientPc.notifyingAll)) s.clients c p
  simpa only [notifyAlls,gotoClient,decide_eq_true_eq] using h

theorem blockedWorkers_eq_zero {s : ThreadPool n m} :
    s.blockedWorkers = 0 ↔ ∀ w, s.pc w ≠ .blocked := by
  simp only [blockedWorkers,tally_eq_zero,decide_eq_false_iff_not,ne_eq]

theorem quiescent_iff {s : ThreadPool n m} :
    s.Quiescent ↔ s.notifyOnes = 0 ∧ s.notifyAlls = 0 := by
  simp only [notifyOnes,notifyAlls,Nat.add_eq_zero_iff,tally_eq_zero,decide_eq_false_iff_not]
  constructor
  · intro h
    exact ⟨⟨h.workers,fun c => (h.clients c).1⟩,fun c => (h.clients c).2⟩
  · rintro ⟨⟨hw,hc⟩,ha⟩
    exact ⟨hw,fun c => ⟨hc c,ha c⟩⟩

/-! ## The invariant -/

/-- A worker at `p` looks at the queue again before it blocks; a single worker counts as
long as it does not block. -/
def Alert (n : ℕ) (p : WorkerPc) : Prop := p ≠ .blocked ∧ (p = .callWait → n = 1)

structure Guarded (s : ThreadPool n m) : Prop where
  locked : s.Locked
  attended : s.mQueue ≠ [] → 0 < s.notifyOnes+s.notifyAlls ∨ ∃ w, Alert n (s.pc w)
  woken : s.mShutdown = true → 0 < s.notifyAlls ∨ s.blockedWorkers ≤ s.notifyOnes

/-- The mutex lets only one worker stand before `wait`. -/
theorem exists_alert {s : ThreadPool n m} (hn : 1 ≤ n) (hlocked : s.Locked)
    (h : ∀ w, s.pc w ≠ .blocked) : ∃ w, Alert n (s.pc w) := by
  by_contra hno
  rw [not_exists] at hno
  have hall : ∀ w, s.pc w = .callWait ∧ n ≠ 1 := by
    intro w
    by_contra hw
    refine hno w ⟨h w,fun hwait => ?_⟩
    by_contra hne
    exact hw ⟨hwait,hne⟩
  have hn1 := (hall ⟨0,hn⟩).2
  have hmutex : ∀ w, s.mConditionalMutex = some w := fun w =>
    hlocked w (by rw [(hall w).1]; rfl)
  have h01 := (hmutex ⟨0,hn⟩).symm.trans (hmutex ⟨1,by omega⟩)
  cases h01

/-- A worker moves between two positions at which it is neither blocked nor about to
notify. -/
theorem Guarded.quiet {s s' : ThreadPool n m} (h : s.Guarded) (hlocked : s'.Locked) {w : Fin n}
    {p : WorkerPc} (hpc : s'.pc = Function.update s.pc w p) (hclients : s'.clients = s.clients)
    (hflag : s'.mShutdown = s.mShutdown) (hw : s.pc w ≠ .blocked ∧ s.pc w ≠ .notifying)
    (hp : p ≠ .blocked ∧ p ≠ .notifying) (halert : p = .callWait → s'.mQueue = []) :
    s'.Guarded := by
  have hb : s'.blockedWorkers = s.blockedWorkers := by
    have := goto_blockedWorkers s w p
    rw [if_neg hw.1,if_neg hp.1] at this
    rw [blockedWorkers,hpc,← goto_pc]
    exact this
  have ho : s'.notifyOnes = s.notifyOnes := by
    have := goto_notifyOnes s w p
    rw [if_neg hw.2,if_neg hp.2] at this
    rw [notifyOnes,hpc,← goto_pc,hclients]
    exact this
  have ha : s'.notifyAlls = s.notifyAlls := by rw [notifyAlls,hclients,notifyAlls]
  refine ⟨hlocked,?_,?_⟩
  · intro hq
    refine Or.inr ⟨w,?_⟩
    rw [hpc,Function.update_self]
    exact ⟨hp.1,fun hwait => absurd (halert hwait) hq⟩
  · rw [hflag,hb,ho,ha]
    exact h.woken

/-- A covered `wait` call. -/
theorem Guarded.wait {s s' : ThreadPool n m} (h : s.Guarded) {w : Fin n} (hcov : s.Covered)
    (hwait : s.Waits w s') (hlocked : s'.Locked) : s'.Guarded := by
  obtain ⟨hpc,rfl⟩ := hwait
  have hb := goto_blockedWorkers s w .blocked
  have ho := goto_notifyOnes s w .blocked
  rw [hpc,if_neg (by decide),if_pos rfl] at hb
  rw [hpc,if_neg (by decide),if_neg (by decide),Nat.add_zero,Nat.add_zero] at ho
  refine ⟨hlocked,?_,?_⟩
  · intro hq
    change 0 < (s.goto w .blocked).notifyOnes+s.notifyAlls ∨
      ∃ v, Alert n ((s.goto w .blocked).pc v)
    rw [ho]
    by_cases h1 : n = 1
    · exact Or.inl (hcov.task h1 hq)
    · rcases h.attended hq with hsignal | ⟨v,hv⟩
      · exact Or.inl hsignal
      · have hvw : v ≠ w := by
          rintro rfl
          exact h1 (hv.2 hpc)
        refine Or.inr ⟨v,?_⟩
        rw [goto_pc,Function.update_of_ne hvw]
        exact hv
  · intro hflag
    change 0 < s.notifyAlls ∨ (s.goto w .blocked).blockedWorkers ≤ (s.goto w .blocked).notifyOnes
    have := hcov.shutdown hflag
    omega

/-- With no worker blocked there is nobody to wake. -/
theorem Guarded.of_none_blocked {s : ThreadPool n m} (hn : 1 ≤ n) (hlocked : s.Locked)
    (hnone : ∀ w, s.pc w ≠ .blocked) : s.Guarded := by
  refine ⟨hlocked,fun _ => Or.inr (exists_alert hn hlocked hnone),fun _ => Or.inr ?_⟩
  rw [blockedWorkers_eq_zero.mpr hnone]
  exact Nat.zero_le _

/-- What `notify_one` does: it wakes one worker, or none is blocked. -/
theorem NotifyOne.effect {s s' : ThreadPool n m} (h : NotifyOne s s') :
    s'.clients = s.clients ∧ s'.mShutdown = s.mShutdown ∧ s'.notifyOnes = s.notifyOnes ∧
      (∀ v, s.pc v = .notifying → s'.pc v = .notifying) ∧
      (s'.blockedWorkers+1 = s.blockedWorkers ∧ (∃ w, s'.pc w = .notified) ∨
        s'.blockedWorkers = 0) := by
  cases h with
  | @wake w hw =>
    have hb := goto_blockedWorkers s w .notified
    have ho := goto_notifyOnes s w .notified
    rw [if_pos hw,if_neg (by decide)] at hb
    rw [hw,if_neg (by decide),if_neg (by decide)] at ho
    refine ⟨rfl,rfl,ho,?_,Or.inl ⟨hb,w,?_⟩⟩
    · intro v hv
      rw [goto_pc,Function.update_of_ne]
      · exact hv
      · rintro rfl
        rw [hv] at hw
        cases hw
    · rw [goto_pc,Function.update_self]
  | none hnone =>
    exact ⟨rfl,rfl,rfl,fun _ hv => hv,Or.inr (blockedWorkers_eq_zero.mpr hnone)⟩

/-! ## One step -/

theorem Guarded.taskEnqueue {s : ThreadPool n m} (h : s.Guarded) {w : Fin n}
    (hpc : s.pc w = .running) (hlocked : (s.enqueue.goto w .notifying).Locked) :
    (s.enqueue.goto w .notifying).Guarded := by
  have hb := goto_blockedWorkers s.enqueue w .notifying
  have ho := goto_notifyOnes s.enqueue w .notifying
  rw [enqueue_pc,hpc,if_neg (by decide),if_neg (by decide)] at hb
  rw [enqueue_pc,hpc,if_neg (by decide),if_pos rfl] at ho
  refine ⟨hlocked,fun _ => Or.inl (by omega),?_⟩
  intro hflag
  have hold := h.woken hflag
  change 0 < s.notifyAlls ∨ _
  change _ = s.blockedWorkers+0 at hb
  change _ = s.notifyOnes+1 at ho
  omega

theorem Guarded.taskNotify {s s' : ThreadPool n m} (h : s.Guarded) {w : Fin n}
    (hpc : s.pc w = .notifying) (hnotify : NotifyOne s s')
    (hlocked : (s'.goto w .running).Locked) : (s'.goto w .running).Guarded := by
  obtain ⟨hclients,hflag,hones,hkeep,hwake⟩ := hnotify.effect
  have hb := goto_blockedWorkers s' w .running
  have ho := goto_notifyOnes s' w .running
  rw [hkeep w hpc,if_neg (by decide),if_neg (by decide)] at hb
  rw [hkeep w hpc,if_pos rfl,if_neg (by decide)] at ho
  have ha : (s'.goto w .running).notifyAlls = s.notifyAlls := by
    change tally _ s'.clients = _
    rw [hclients,notifyAlls]
  refine ⟨hlocked,fun _ => Or.inr ⟨w,?_⟩,?_⟩
  · rw [goto_pc,Function.update_self]
    exact ⟨by decide,fun he => by cases he⟩
  · intro hf
    have hold := h.woken (hflag.symm.trans hf)
    rw [ha]
    rcases hwake with ⟨hone,_⟩ | hzero
    · omega
    · omega

theorem Guarded.enqueue {s : ThreadPool n m} (h : s.Guarded) {c : Fin m}
    (hidle : s.clients c = .idle) (hlocked : (s.enqueue.gotoClient c .notifying).Locked) :
    (s.enqueue.gotoClient c .notifying).Guarded := by
  have ho := gotoClient_notifyOnes s.enqueue c .notifying
  have ha := gotoClient_notifyAlls s.enqueue c .notifying
  change _ + (if s.clients c = _ then 1 else 0) = s.notifyOnes+_ at ho
  change _ + (if s.clients c = _ then 1 else 0) = s.notifyAlls+_ at ha
  rw [hidle,if_neg (by decide),if_pos rfl] at ho
  rw [hidle,if_neg (by decide),if_neg (by decide)] at ha
  refine ⟨hlocked,fun _ => Or.inl (by omega),?_⟩
  intro hflag
  have hold := h.woken hflag
  change _ ∨ s.blockedWorkers ≤ _
  omega

theorem Guarded.notify {s s' : ThreadPool n m} (hn : 1 ≤ n) (h : s.Guarded) {c : Fin m}
    (hclient : s.clients c = .notifying) (hnotify : NotifyOne s s')
    (hlocked : (s'.gotoClient c .idle).Locked) : (s'.gotoClient c .idle).Guarded := by
  obtain ⟨hclients,hflag,hones,_,hwake⟩ := hnotify.effect
  have ho := gotoClient_notifyOnes s' c .idle
  have ha := gotoClient_notifyAlls s' c .idle
  rw [hclients,hclient,if_pos rfl,if_neg (by decide)] at ho
  rw [hclients,hclient,if_neg (by decide),if_neg (by decide)] at ha
  have halls : s'.notifyAlls = s.notifyAlls := by rw [notifyAlls,hclients,notifyAlls]
  refine ⟨hlocked,fun _ => Or.inr ?_,?_⟩
  · rcases hwake with ⟨_,v,hv⟩ | hzero
    · refine ⟨v,?_⟩
      rw [gotoClient_pc,hv]
      exact ⟨by decide,fun he => by cases he⟩
    · exact exists_alert hn hlocked (blockedWorkers_eq_zero.mp hzero)
  · intro hf
    have hold := h.woken (hflag.symm.trans hf)
    change _ ∨ s'.blockedWorkers ≤ _
    rcases hwake with ⟨hone,_⟩ | hzero
    · omega
    · omega

/-- The pending `notify_all` wakes everybody. -/
theorem Guarded.shutdown {s : ThreadPool n m} {c : Fin m} (hidle : s.clients c = .idle)
    (hlocked : ({s.gotoClient c .notifyingAll with mShutdown := true} : ThreadPool n m).Locked) :
    ({s.gotoClient c .notifyingAll with mShutdown := true} : ThreadPool n m).Guarded := by
  have ha := gotoClient_notifyAlls s c .notifyingAll
  rw [hidle,if_neg (by decide),if_pos rfl] at ha
  have hpos : 0 < (s.gotoClient c .notifyingAll).notifyAlls := by omega
  exact ⟨hlocked,fun _ => Or.inl (Nat.lt_of_lt_of_le hpos (Nat.le_add_left _ _)),
    fun _ => Or.inl hpos⟩

/-- Covered steps keep the invariant. -/
theorem Guarded.step {s s' : ThreadPool n m} (hn : 1 ≤ n) (h : s.Guarded)
    (hstep : CoveredStep s s') : s'.Guarded := by
  obtain ⟨hstep,hcovered⟩ := hstep
  have hlocked := h.locked.step hstep
  cases hstep with
  | @testShutdown w hpc =>
    refine h.quiet hlocked (goto_pc _ _ _) rfl rfl (by simp [hpc]) ?_ ?_
    · split <;> simp
    · split <;> simp
  | @lock w hpc _ =>
    exact h.quiet hlocked (goto_pc s w _) rfl rfl (by simp [hpc]) (by simp) (by simp)
  | @testEmpty w hpc =>
    refine h.quiet hlocked (goto_pc _ _ _) rfl rfl (by simp [hpc]) ?_ ?_
    · split <;> simp
    · intro hwait
      by_contra hq
      change ¬ s.mQueue = [] at hq
      rw [if_neg hq] at hwait
      cases hwait
  | wait hwait => exact h.wait (hcovered _ hwait) hwait hlocked
  | @relock w hpc _ =>
    exact h.quiet hlocked (goto_pc s w _) rfl rfl (by simp [hpc]) (by simp) (by simp)
  | @dequeue w hpc =>
    obtain ⟨hflag,hclients,_⟩ := dequeue_frame s w
    have hmoved : ((s.dequeue w).goto w .unlock).pc = Function.update s.pc w .unlock := by
      rw [goto_pc,dequeue_pc]
    exact h.quiet hlocked hmoved hclients hflag (by simp [hpc]) (by simp) (by simp)
  | @unlock w hpc =>
    exact h.quiet hlocked (goto_pc s w _) rfl rfl (by simp [hpc]) (by simp) (by simp)
  | @testDequeued w hpc =>
    refine h.quiet hlocked (goto_pc _ _ _) rfl rfl (by simp [hpc]) ?_ ?_
    · split <;> simp
    · split <;> simp
  | @finish w hpc =>
    exact h.quiet hlocked (goto_pc (s.finish w) w _) rfl rfl (by simp [hpc]) (by simp) (by simp)
  | taskEnqueue hpc => exact h.taskEnqueue hpc hlocked
  | taskNotify hpc hnotify => exact h.taskNotify hpc hnotify hlocked
  | enqueue hidle => exact h.enqueue hidle hlocked
  | notify hclient hnotify => exact Guarded.notify hn h hclient hnotify hlocked
  | shutdown hidle => exact Guarded.shutdown hidle hlocked
  | @notifyAll c hclient =>
    have hnone : ∀ w, (s.notifyAll.gotoClient c .joining).pc w ≠ .blocked := by
      intro w
      rw [gotoClient_pc,notifyAll_pc]
      split
      · decide
      · assumption
    exact Guarded.of_none_blocked hn hlocked hnone
  | @join c hclient hexited =>
    have hnone : ∀ w, (s.gotoClient c .idle).pc w ≠ .blocked := by
      intro w
      rw [gotoClient_pc,hexited w]
      decide
    exact Guarded.of_none_blocked hn hlocked hnone

theorem Guarded.initial : (initial n m).Guarded := by
  refine ⟨Locked.initial,?_,?_⟩
  · intro hq
    exact absurd rfl hq
  · intro hflag
    cases hflag

theorem Guarded.noLostWakeup {s : ThreadPool n m} (h : s.Guarded) (hquiet : s.Quiescent) :
    s.NoLostWakeup := by
  obtain ⟨hones,halls⟩ := quiescent_iff.mp hquiet
  refine ⟨?_,?_⟩
  · intro hq
    rcases h.attended hq with hsignal | ⟨w,hw⟩
    · omega
    · exact ⟨w,hw.1⟩
  · intro hflag
    have := h.woken hflag
    exact blockedWorkers_eq_zero.mp (by omega)

/-! ## Uncovered waits -/

/-- After the shutdown the open notifications cannot wake more workers than they are. -/
theorem shutdown_leaves_blocked (k : ℕ) {s : ThreadPool n m} (hflag : s.mShutdown = true)
    (halls : s.notifyAlls = 0) (hones : s.notifyOnes = k) (hb : k < s.blockedWorkers) :
    ∃ s', Relation.ReflTransGen Step s s' ∧ s'.Quiescent ∧ ¬ s'.NoLostWakeup := by
  induction k generalizing s with
  | zero =>
    refine ⟨s,.refl,quiescent_iff.mpr ⟨hones,halls⟩,fun hlost => ?_⟩
    rw [blockedWorkers_eq_zero.mpr (hlost.shutdown hflag)] at hb
    cases hb
  | succ k ih =>
    obtain ⟨w,hw⟩ := tally_pos.mp (Nat.zero_lt_of_lt hb)
    have hblocked : s.pc w = .blocked := of_decide_eq_true hw
    have hwake : NotifyOne s (s.goto w .notified) := .wake hblocked
    have hb1 := goto_blockedWorkers s w .notified
    have ho1 := goto_notifyOnes s w .notified
    rw [if_pos hblocked,if_neg (by decide)] at hb1
    rw [hblocked,if_neg (by decide),if_neg (by decide)] at ho1
    have hsome : (∃ v, s.pc v = .notifying) ∨ ∃ c, s.clients c = .notifying := by
      by_contra hno
      rw [not_or,not_exists,not_exists] at hno
      have hzero : s.notifyOnes = 0 := by
        simp only [notifyOnes,Nat.add_eq_zero_iff,tally_eq_zero,decide_eq_false_iff_not]
        exact hno
      omega
    rcases hsome with ⟨v,hv⟩ | ⟨c,hc⟩
    · have hb2 := goto_blockedWorkers (s.goto w .notified) v .running
      have ho2 := goto_notifyOnes (s.goto w .notified) v .running
      have hkeep := hwake.effect.2.2.2.1 v hv
      rw [hkeep,if_neg (by decide),if_neg (by decide)] at hb2
      rw [hkeep,if_pos rfl,if_neg (by decide)] at ho2
      obtain ⟨s',hrun,hend⟩ := ih (s:=(s.goto w .notified).goto v .running) hflag halls
        (by omega) (by omega)
      exact ⟨s',.head (.taskNotify hv hwake) hrun,hend⟩
    · have ho2 := gotoClient_notifyOnes (s.goto w .notified) c .idle
      have ha2 := gotoClient_notifyAlls (s.goto w .notified) c .idle
      change _ + (if s.clients c = _ then 1 else 0) = _ at ho2
      change _ + (if s.clients c = _ then 1 else 0) = s.notifyAlls+_ at ha2
      rw [hc,if_pos rfl,if_neg (by decide)] at ho2
      rw [hc,if_neg (by decide),if_neg (by decide)] at ha2
      obtain ⟨s',hrun,hend⟩ := ih (s:=(s.goto w .notified).gotoClient c .idle) hflag
        (by omega) (by omega) (by change k < (s.goto w .notified).blockedWorkers; omega)
      exact ⟨s',.head (.notify hc hwake) hrun,hend⟩

/-- A `wait` call in a state that is not covered leads to a lost wakeup. -/
theorem uncovered_wait_loses {s s' : ThreadPool n m} {w : Fin n} (hwait : s.Waits w s')
    (huncovered : ¬ s.Covered) :
    ∃ s'', Relation.ReflTransGen Step s' s'' ∧ s''.Quiescent ∧ ¬ s''.NoLostWakeup := by
  obtain ⟨hpc,rfl⟩ := hwait
  have hb := goto_blockedWorkers s w .blocked
  have ho := goto_notifyOnes s w .blocked
  rw [hpc,if_neg (by decide),if_pos rfl] at hb
  rw [hpc,if_neg (by decide),if_neg (by decide),Nat.add_zero,Nat.add_zero] at ho
  by_cases hshut : s.mShutdown = true → 0 < s.notifyAlls ∨ s.blockedWorkers < s.notifyOnes
  · -- a single worker blocks in front of a task
    have htask : ¬ (n = 1 → s.mQueue ≠ [] → 0 < s.notifyOnes+s.notifyAlls) :=
      fun htask => huncovered ⟨htask,hshut⟩
    rw [Classical.not_imp,Classical.not_imp] at htask
    obtain ⟨h1,hq,hsignals⟩ := htask
    refine ⟨_,.refl,quiescent_iff.mpr ⟨?_,?_⟩,fun hlost => ?_⟩
    · change (s.goto w .blocked).notifyOnes = 0
      omega
    · change s.notifyAlls = 0
      omega
    · obtain ⟨v,hv⟩ := hlost.task hq
      have hvw : v = w := by
        subst h1
        exact Subsingleton.elim v w
      apply hv
      change (s.goto w .blocked).pc v = .blocked
      rw [goto_pc,hvw,Function.update_self]
  · rw [Classical.not_imp,not_or] at hshut
    obtain ⟨hflag,halls,hones⟩ := hshut
    refine shutdown_leaves_blocked s.notifyOnes hflag (Nat.eq_zero_of_not_pos halls) ho ?_
    change s.notifyOnes < (s.goto w .blocked).blockedWorkers
    omega

/-- No wakeup is lost in any run whose `wait` calls are covered, and each other `wait`
call loses one in some continuation. -/
theorem noLostWakeup_covered (hn : 1 ≤ n) :
    (∀ s : ThreadPool n m, Relation.ReflTransGen CoveredStep (initial n m) s →
      s.Quiescent → s.NoLostWakeup) ∧
    ∀ (s s' : ThreadPool n m) (w : Fin n), s.Waits w s' → ¬ s.Covered →
      ∃ s'', Relation.ReflTransGen Step s' s'' ∧ s''.Quiescent ∧ ¬ s''.NoLostWakeup := by
  refine ⟨?_,fun _ _ _ hwait huncovered => uncovered_wait_loses hwait huncovered⟩
  intro s hrun hquiet
  have hguarded : s.Guarded := by
    clear hquiet
    induction hrun with
    | refl => exact Guarded.initial
    | tail _ hstep ih => exact ih.step hn hstep
  exact hguarded.noLostWakeup hquiet

theorem noLostWakeup_covered_pair :
    (∀ s : ThreadPool 2 1, Relation.ReflTransGen CoveredStep (initial 2 1) s →
      s.Quiescent → s.NoLostWakeup) ∧
    ∀ (s s' : ThreadPool 2 1) (w : Fin 2), s.Waits w s' → ¬ s.Covered →
      ∃ s'', Relation.ReflTransGen Step s' s'' ∧ s''.Quiescent ∧ ¬ s''.NoLostWakeup :=
  noLostWakeup_covered (by decide)

/-- One worker finds the queue empty. Before it calls `wait`, a task is submitted, or the
pool is shut down, and the notification wakes nobody. -/
theorem wakeup_lost :
    (∃ s : ThreadPool 1 1, s.Reachable ∧ s.Quiescent ∧ s.mQueue ≠ [] ∧
      ∀ w, s.pc w = .blocked) ∧
    ∃ s : ThreadPool 1 1, s.Reachable ∧ s.Quiescent ∧ s.mShutdown = true ∧
      ∃ w, s.pc w = .blocked := by
  constructor
  · refine ⟨_,.head (.testShutdown (w:=0) rfl) <| .head (.lock (w:=0) rfl rfl) <|
      .head (.testEmpty (w:=0) rfl) <| .head (.enqueue (c:=0) rfl) <|
      .head (.notify (c:=0) rfl (.none (by decide))) <|
      .single (.wait (w:=0) ⟨rfl,rfl⟩),⟨by decide,by decide⟩,by decide,by decide⟩
  · refine ⟨_,.head (.testShutdown (w:=0) rfl) <| .head (.lock (w:=0) rfl rfl) <|
      .head (.testEmpty (w:=0) rfl) <| .head (.shutdown (c:=0) rfl) <|
      .head (.notifyAll (c:=0) rfl) <|
      .single (.wait (w:=0) ⟨rfl,rfl⟩),⟨by decide,by decide⟩,rfl,0,rfl⟩

end ThreadPool
end ElfIndex
