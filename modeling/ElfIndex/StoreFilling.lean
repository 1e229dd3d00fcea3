import ElfIndex.Lib.Buffer
import ElfIndex.Store

/-! # Filling a store

A new store counts its points from -1 on in an unsigned word, and the bulk load uses the
counter as its loop variable. In front of and behind a bulk load the counter is never the
number of a row, so only bulk loads fill a store.
-/
namespace ElfIndex

/-- The members of a store while it is filled. The entries of `STORE` are pointers to rows,
and arbitrary ones before they are set. -/
structure FillingStore (ρ : Type*) where
  numPoints : ℕ
  currentTID : ℕ
  store : Buffer ρ

namespace FillingStore

variable {ρ : Type*}

/-- The constructor. -/
def create (size : ℕ) (cell : ℕ → ρ) : FillingStore ρ := ⟨size,2^32-1,⟨size,cell⟩⟩

/-- `return currentTID++;` -/
def getNextTID (s : FillingStore ρ) : ℕ × FillingStore ρ :=
  (s.currentTID,{s with currentTID := (s.currentTID+1)%2^32})

def insert (s : FillingStore ρ) (toInsert : ρ) : Option (ℕ × FillingStore ρ) := do
  let (tid,s) := s.getNextTID
  let store ← s.store.set tid toInsert
  some (tid,{s with store := store})

def getPoint (s : FillingStore ρ) (tid : ℕ) : Option ρ := s.store.get tid

/-- The loop of the bulk load. -/
def bulkLoop (data : ℕ → ρ) : ℕ → FillingStore ρ → Option (FillingStore ρ)
  | 0, _ => none
  | fuel+1, s =>
    if s.currentTID < s.numPoints then do
      let store ← s.store.set s.currentTID (data s.currentTID)
      bulkLoop data fuel {s with store := store, currentTID := (s.currentTID+1)%2^32}
    else some s

def bulkInsertWithoutCheck (s : FillingStore ρ) (data : ℕ → ρ) : Option (FillingStore ρ) :=
  bulkLoop data (s.numPoints+1) {s with currentTID := 0}

/-! ## Runs -/

inductive Op (ρ : Type*) where
  | insert (toInsert : ρ)
  | bulkInsertWithoutCheck (data : ℕ → ρ)

def Op.isInsert : Op ρ → Bool
  | .insert _ => true
  | .bulkInsertWithoutCheck _ => false

/-- One operation with the TID it returns, if it returns one. -/
def step (s : FillingStore ρ) : Op ρ → Option (Option ℕ × FillingStore ρ)
  | .insert toInsert => (s.insert toInsert).map fun r => (some r.1,r.2)
  | .bulkInsertWithoutCheck data => (s.bulkInsertWithoutCheck data).map fun s => (none,s)

/-- An operation of a run, the TID it returned and the store behind it. -/
structure Event (ρ : Type*) where
  op : Op ρ
  tid : Option ℕ
  store : FillingStore ρ

/-- A run; an operation that writes outside of the array stops it. -/
def trace (s : FillingStore ρ) : List (Op ρ) → Option (List (Event ρ))
  | [] => some []
  | op :: ops => do
    let (tid,s) ← s.step op
    let events ← trace s ops
    some (⟨op,tid,s⟩ :: events)

/-- The TIDs of a run are rows of the store, no two are equal, an inserted point stays behind
its TID during the inserts that follow, and a bulk load sets all rows. -/
structure Sound (numPoints : ℕ) (events : List (Event ρ)) : Prop where
  tid_lt : ∀ e ∈ events, ∀ tid ∈ e.tid, tid < numPoints
  tid_unique : (events.filterMap Event.tid).Nodup
  insert_stays : ∀ (i : ℕ) (e : Event ρ) (toInsert : ρ) (tid : ℕ), events[i]? = some e →
    e.op = .insert toInsert → e.tid = some tid →
    ∀ (j : ℕ) (later : Event ρ), i ≤ j → events[j]? = some later →
      (∀ (k : ℕ) (between : Event ρ), i < k → k ≤ j → events[k]? = some between →
        between.op.isInsert = true) →
      later.store.getPoint tid = some toInsert
  bulk_sets : ∀ e ∈ events, ∀ data, e.op = .bulkInsertWithoutCheck data →
    ∀ i < numPoints, e.store.getPoint i = some (data i)

/-! ## The counter -/

/-- The counter is no row of the store. -/
structure Beyond (numPoints : ℕ) (s : FillingStore ρ) : Prop where
  numPoints_eq : s.numPoints = numPoints
  size_eq : s.store.size = numPoints
  tid_ge : numPoints ≤ s.currentTID

variable {numPoints : ℕ} {s : FillingStore ρ}

theorem create_beyond (h : numPoints < 2^32) (cell : ℕ → ρ) : Beyond numPoints (create numPoints cell) :=
  ⟨rfl,rfl,Nat.le_sub_one_of_lt h⟩

/-- The row that an insert would set does not exist. -/
theorem Beyond.insert_eq_none (h : Beyond numPoints s) (toInsert : ρ) :
    s.insert toInsert = none := by
  have hout : s.store.set s.currentTID toInsert = none := by
    refine if_neg ?_
    rw [h.size_eq]
    exact not_lt.mpr h.tid_ge
  simp only [insert,getNextTID,hout,Option.bind_eq_bind,Option.bind_none]

theorem bulkLoop_spec (hnum : numPoints < 2^32) (data : ℕ → ρ) (fuel : ℕ)
    (s : FillingStore ρ) (hs : s.numPoints = numPoints) (hsize : s.store.size = numPoints)
    (htid : s.currentTID ≤ numPoints) (hfuel : numPoints-s.currentTID < fuel) :
    ∃ s', bulkLoop data fuel s = some s' ∧ Beyond numPoints s' ∧
      ∀ i, s'.store.cell i = if s.currentTID ≤ i ∧ i < numPoints then data i
        else s.store.cell i := by
  induction fuel generalizing s with
  | zero => omega
  | succ fuel ih =>
    by_cases hlt : s.currentTID < numPoints
    · have hnext : (s.currentTID+1)%2^32 = s.currentTID+1 := Nat.mod_eq_of_lt (by omega)
      have hset := Buffer.set_eq (show s.currentTID < s.store.size by omega) (data s.currentTID)
      obtain ⟨s',hrun,hbeyond,hcell⟩ := ih ⟨s.numPoints,s.currentTID+1,
        ⟨s.store.size,Function.update s.store.cell s.currentTID (data s.currentTID)⟩⟩ hs hsize hlt
        (by dsimp only; omega)
      refine ⟨s',?_,hbeyond,?_⟩
      · rw [bulkLoop,hs,if_pos hlt,hset,Option.bind_eq_bind,Option.bind_some,hnext]
        exact hs ▸ hrun
      · intro i
        rw [hcell]
        dsimp only
        by_cases hi : i = s.currentTID
        · rw [if_neg (by omega),if_pos (by omega),hi,Function.update_self]
        · rw [Function.update_of_ne hi]
          by_cases hin : s.currentTID+1 ≤ i ∧ i < numPoints
          · rw [if_pos hin,if_pos (by omega)]
          · rw [if_neg hin,if_neg (by omega)]
    · refine ⟨s,?_,⟨hs,hsize,not_lt.mp hlt⟩,?_⟩
      · rw [bulkLoop,hs,if_neg hlt]
      · intro i
        rw [if_neg (by omega)]

/-- A bulk load sets every row and leaves the counter behind the last one. -/
theorem Beyond.bulk (h : Beyond numPoints s) (hnum : numPoints < 2^32) (data : ℕ → ρ) :
    ∃ s', s.bulkInsertWithoutCheck data = some s' ∧ Beyond numPoints s' ∧
      ∀ i < numPoints, s'.getPoint i = some (data i) := by
  obtain ⟨s',hrun,hbeyond,hcell⟩ := bulkLoop_spec hnum data (s.numPoints+1) {s with currentTID := 0}
    h.numPoints_eq h.size_eq (Nat.zero_le _) (by rw [h.numPoints_eq]; exact Nat.lt_succ_self _)
  refine ⟨s',hrun,hbeyond,?_⟩
  intro i hi
  rw [getPoint,Buffer.get_eq (hbeyond.size_eq ▸ hi),hcell,if_pos ⟨Nat.zero_le _,hi⟩]

/-! ## Runs of bulk loads -/

/-- What a bulk load leaves in the run. -/
def Event.Loaded (numPoints : ℕ) (e : Event ρ) : Prop :=
  e.tid = none ∧ ∃ data, e.op = .bulkInsertWithoutCheck data ∧
    ∀ i < numPoints, e.store.getPoint i = some (data i)

theorem trace_cons {op : Op ρ} {tid : Option ℕ} {s' : FillingStore ρ}
    (h : s.step op = some (tid,s')) (ops : List (Op ρ)) :
    s.trace (op :: ops) = (s'.trace ops).map (⟨op,tid,s'⟩ :: ·) := by
  rw [trace,h,Option.bind_eq_bind,Option.bind_some,Option.map_eq_bind]
  rfl

theorem Beyond.step_bulk (h : Beyond numPoints s) (hnum : numPoints < 2^32) (data : ℕ → ρ) :
    ∃ s', s.step (.bulkInsertWithoutCheck data) = some (none,s') ∧ Beyond numPoints s' ∧
      ∀ i < numPoints, s'.getPoint i = some (data i) := by
  obtain ⟨s',hrun,hrest⟩ := h.bulk hnum data
  exact ⟨s',by rw [step,hrun,Option.map_some],hrest⟩

theorem Beyond.trace_bulk (h : Beyond numPoints s) (hnum : numPoints < 2^32) {ops : List (Op ρ)}
    (hops : ∀ op ∈ ops, op.isInsert = false) :
    ∃ events, s.trace ops = some events ∧ ∀ e ∈ events, e.Loaded numPoints := by
  induction ops generalizing s with
  | nil => exact ⟨[],rfl,fun e he => absurd he List.not_mem_nil⟩
  | cons op ops ih =>
    obtain ⟨hop,hrest⟩ := List.forall_mem_cons.mp hops
    cases op with
    | insert toInsert => cases hop
    | bulkInsertWithoutCheck data =>
      obtain ⟨s',hstep,hbeyond,hpoints⟩ := h.step_bulk hnum data
      obtain ⟨events,htrace,hloaded⟩ := ih hbeyond hrest
      refine ⟨⟨.bulkInsertWithoutCheck data,none,s'⟩ :: events,?_,?_⟩
      · rw [trace_cons hstep,htrace,Option.map_some]
      · exact List.forall_mem_cons.mpr ⟨⟨rfl,data,rfl,hpoints⟩,hloaded⟩

/-- A run with an insert stops there, at the latest. -/
theorem Beyond.trace_insert (h : Beyond numPoints s) (hnum : numPoints < 2^32) {ops : List (Op ρ)}
    {op : Op ρ} (hop : op ∈ ops) (hinsert : op.isInsert = true) : s.trace ops = none := by
  induction ops generalizing s with
  | nil => cases hop
  | cons first ops ih =>
    cases first with
    | insert toInsert =>
      rw [trace,step,h.insert_eq_none]
      rfl
    | bulkInsertWithoutCheck data =>
      obtain ⟨s',hstep,hbeyond,-⟩ := h.step_bulk hnum data
      have hrest : op ∈ ops := by
        rcases List.mem_cons.mp hop with rfl | hrest
        · cases hinsert
        · exact hrest
      rw [trace_cons hstep,ih hbeyond hrest,Option.map_none]

theorem sound_of_loaded {events : List (Event ρ)} (h : ∀ e ∈ events, e.Loaded numPoints) :
    Sound numPoints events := by
  refine ⟨?_,?_,?_,?_⟩
  · intro e he tid htid
    rw [(h e he).1] at htid
    cases htid
  · have hnil : events.filterMap Event.tid = [] :=
      List.filterMap_eq_nil_iff.mpr fun e he => (h e he).1
    rw [hnil]
    exact List.nodup_nil
  · intro i e toInsert tid hi _ htid
    rw [(h e (List.mem_of_getElem? hi)).1] at htid
    cases htid
  · intro e he data hdata
    obtain ⟨-,data',hdata',hpoints⟩ := h e he
    rw [hdata] at hdata'
    cases hdata'
    exact hpoints

/-- A run on a new store goes through and is sound exactly when no point is inserted by
itself: the counter starts beyond the rows, and a bulk load leaves it there. -/
theorem create_sound_iff (hnum : numPoints < 2^32) (cell : ℕ → ρ) (ops : List (Op ρ)) :
    (∃ events, (create numPoints cell).trace ops = some events ∧ Sound numPoints events) ↔
      ∀ op ∈ ops, op.isInsert = false := by
  constructor
  · rintro ⟨events,htrace,-⟩ op hop
    by_contra hinsert
    rw [(create_beyond hnum cell).trace_insert hnum hop (Bool.not_eq_false _ ▸ hinsert)] at htrace
    cases htrace
  · intro hops
    obtain ⟨events,htrace,hloaded⟩ := (create_beyond hnum cell).trace_bulk hnum hops
    exact ⟨events,htrace,sound_of_loaded hloaded⟩

/-- Two bulk loads of a store with two points. -/
theorem create_sound_twice :
    ∃ events, (create 2 fun _ => 0).trace
        [.bulkInsertWithoutCheck fun i => i,.bulkInsertWithoutCheck fun i => 7*i] = some events ∧
      Sound 2 events :=
  (create_sound_iff (by decide) (fun _ => 0) _).mpr (by
    intro op hop
    simp only [List.mem_cons,List.not_mem_nil,or_false] at hop
    rcases hop with rfl | rfl <;> rfl)

/-- The first insert into a store of one point gets the TID `2^32-1`, and its write is
outside of the array. -/
theorem create_insert_outside :
    (create 1 fun _ => 0).getNextTID.1 = 2^32-1 ∧ (create 1 fun _ => 0).insert 5 = none ∧
      ¬ ∃ events, (create 1 fun _ => 0).trace [.insert 5] = some events ∧ Sound 1 events := by
  have hnone : (create 1 fun _ => 0).insert 5 = none :=
    (create_beyond (by decide) _).insert_eq_none 5
  refine ⟨rfl,hnone,?_⟩
  rintro ⟨events,htrace,-⟩
  rw [trace,step,hnone] at htrace
  cases htrace

/-- The filled table of the indexes is what a bulk load of its rows leaves. -/
theorem bulk_getPoint (table : Store) (cell : ℕ → List ℕ) :
    ∃ s, (create table.numPoints cell).bulkInsertWithoutCheck (fun i => table.store.getD i []) =
        some s ∧ ∀ tid, s.getPoint tid = table.getPoint tid := by
  have hnum : table.numPoints < 2^32 := table.numPoints_le.trans_lt (by decide)
  obtain ⟨s,hrun,hbeyond,hpoints⟩ := (create_beyond hnum cell).bulk hnum _
  refine ⟨s,hrun,fun tid => ?_⟩
  by_cases htid : tid < table.store.length
  · rw [hpoints tid htid,Store.getPoint,List.getD_eq_getElem?_getD,List.getElem?_eq_getElem htid,
      Option.getD_some]
  · rw [Store.getPoint,List.getElem?_eq_none (not_lt.mp htid),getPoint,Buffer.get,if_neg]
    rw [hbeyond.size_eq]
    exact htid

end FillingStore
end ElfIndex
