import Mathlib.Algebra.Order.Ring.Nat
import Mathlib.Data.List.Sort

/-! # Slots and insertion sort

A slot is a tuple identifier with its row buffer. The sorting engine never moves a
buffer: it copies identifiers and the columns from `dim` on between the buffers.
On rows that agree before `dim` such a copy carries the whole row.
-/
namespace ElfIndex.SortingEngine

/-- The struct `TID` of the sorting engine. -/
structure TID where
  tid : ℕ
  value : List ℕ
deriving DecidableEq, Repr

/-- The column the sort looks at. -/
def TID.key (dim : ℕ) (t : TID) : ℕ := t.value.getD dim 0

/-- Copy into `save`: its value array starts with column `dim`. -/
def TID.load (dim size : ℕ) (src : TID) : TID := ⟨src.tid,(src.value.drop dim).take (size-dim)⟩

/-- Copy `save` into a slot: columns before `dim` and behind `size` stay. -/
def TID.store (dim size : ℕ) (dst save : TID) : TID :=
  ⟨save.tid,dst.value.take dim ++ save.value.take (size-dim) ++ dst.value.drop size⟩

/-- The inner loop of `insertion`, with the hole at position `j`. -/
def insertionShift (dim size : ℕ) (save : TID) : ℕ → List TID → Option (List TID)
  | 0, data => do
    let dst ← data[0]?
    some (data.set 0 (dst.store dim size save))
  | j+1, data => do
    let prev ← data[j]?
    let dst ← data[j+1]?
    if prev.key dim > save.value.getD 0 0 then
      insertionShift dim size save j (data.set (j+1) (dst.store dim size (prev.load dim size)))
    else some (data.set (j+1) (dst.store dim size save))

def insertion (dim size n : ℕ) (data : List TID) : Option (List TID) :=
  (List.range' 1 (n-1)).foldlM (fun data i => do
    let cur ← data[i]?
    insertionShift dim size (cur.load dim size) i data) data

/-- `introsort` has its quicksort call commented out. -/
def introsort (dim size n : ℕ) (data : List TID) : Option (List TID) := insertion dim size n data

/-- Rows of one size that agree on the columns before `dim`. -/
def Agree (dim size : ℕ) (pre : List ℕ) (data : List TID) : Prop :=
  ∀ t ∈ data, t.value.length = size ∧ t.value.take dim = pre

def SortedBy (dim : ℕ) (data : List TID) : Prop :=
  data.Pairwise fun a b => a.key dim ≤ b.key dim

variable {dim size : ℕ} {pre : List ℕ} {data : List TID}

theorem sortedBy_short (h : data.length < 2) : SortedBy dim data := by
  cases data with
  | nil => exact List.Pairwise.nil
  | cons t rest =>
    have hrest : rest = [] := by
      rw [List.length_cons] at h
      exact List.length_eq_zero_iff.mp (by omega)
    rw [hrest]
    exact List.pairwise_singleton _ _

theorem store_load {dst src : TID} (hd : dst.value.length = size ∧ dst.value.take dim = pre)
    (hs : src.value.length = size ∧ src.value.take dim = pre) :
    dst.store dim size (src.load dim size) = src := by
  obtain ⟨tid,value⟩ := src
  have hdrop : dst.value.drop size = [] := List.drop_eq_nil_of_le hd.1.le
  have hlen : (value.drop dim).length ≤ size-dim := by
    rw [List.length_drop]
    exact Nat.sub_le_sub_right hs.1.le dim
  simp only [TID.store,TID.load,hdrop,List.append_nil,
    List.take_of_length_le hlen,hd.2,TID.mk.injEq,true_and]
  rw [← hs.2]
  exact List.take_append_drop dim value

theorem load_head {src : TID} (hdim : dim < size) :
    (src.load dim size).value.getD 0 0 = src.key dim := by
  simp only [TID.load,TID.key,List.getD_eq_getElem?_getD]
  rw [List.getElem?_take_of_lt (by omega),List.getElem?_drop,Nat.add_zero]

theorem Agree.perm {data' : List TID} (h : Agree dim size pre data) (hp : data'.Perm data) :
    Agree dim size pre data' := fun t ht => h t (hp.mem_iff.mp ht)

theorem Agree.sublist {data' : List TID} (h : Agree dim size pre data) (hs : data' ⊆ data) :
    Agree dim size pre data' := fun t ht => h t (hs ht)

/-- Place `x` behind the last element that is not larger. -/
def place (dim : ℕ) (x : TID) : List TID → List TID
  | [] => [x]
  | y :: ys => if y.key dim ≤ x.key dim then y :: place dim x ys else x :: y :: ys

theorem place_perm (x : TID) (ys : List TID) : (place dim x ys).Perm (x :: ys) := by
  induction ys with
  | nil => rfl
  | cons y ys ih =>
    unfold place
    split
    · exact (ih.cons y).trans (List.Perm.swap x y ys)
    · rfl

theorem place_sorted (x : TID) {ys : List TID} (h : SortedBy dim ys) :
    SortedBy dim (place dim x ys) := by
  induction ys with
  | nil => simp [place,SortedBy]
  | cons y ys ih =>
    obtain ⟨hy,hys⟩ := List.pairwise_cons.mp h
    unfold place
    split
    · rename_i hyx
      refine List.pairwise_cons.mpr ⟨?_,ih hys⟩
      intro z hz
      rcases List.mem_cons.mp ((place_perm x ys).mem_iff.mp hz) with rfl | hz
      · exact hyx
      · exact hy z hz
    · rename_i hyx
      refine List.pairwise_cons.mpr ⟨?_,h⟩
      intro z hz
      rcases List.mem_cons.mp hz with rfl | hz
      · omega
      · exact (Nat.le_of_lt (Nat.lt_of_not_le hyx)).trans (hy z hz)

theorem place_append_small (x : TID) {ys : List TID} (h : ∀ y ∈ ys, y.key dim ≤ x.key dim) :
    place dim x ys = ys ++ [x] := by
  induction ys with
  | nil => rfl
  | cons y ys ih =>
    rw [place,if_pos (h y List.mem_cons_self),ih (fun z hz => h z (List.mem_cons_of_mem _ hz)),
      List.cons_append]

theorem place_append_large (x y : TID) (ys : List TID) (h : x.key dim < y.key dim) :
    place dim x (ys ++ [y]) = place dim x ys ++ [y] := by
  induction ys with
  | nil => simp [place,Nat.not_le.mpr h]
  | cons z ys ih =>
    simp only [List.cons_append,place,ih]
    split <;> simp

theorem take_succ_eq {α : Type*} {l : List α} {j : ℕ} (h : j < l.length) :
    l.take (j+1) = l.take j ++ [l[j]] := by
  rw [List.take_add_one,List.getElem?_eq_getElem h,Option.toList_some]

/-- The inner loop fills the hole and the prefix in front of it with the placed
element; everything behind the hole stays. -/
theorem insertionShift_eq (hdim : dim < size) {x : TID} (hx : x.value.length = size ∧
    x.value.take dim = pre) (j : ℕ) (data : List TID) (hj : j < data.length)
    (ha : Agree dim size pre data) (hsorted : SortedBy dim (data.take j)) :
    insertionShift dim size (x.load dim size) j data =
      some (place dim x (data.take j) ++ data.drop (j+1)) := by
  induction j generalizing data with
  | zero =>
    have h0 := ha _ (List.getElem_mem hj)
    simp only [insertionShift,List.getElem?_eq_getElem hj,Option.bind_eq_bind,Option.bind_some,
      store_load h0 hx,List.take_zero,place]
    rw [List.set_eq_take_append_cons_drop,if_pos hj]
    rfl
  | succ j ih =>
    have hj' : j < data.length := by omega
    have hprev := ha _ (List.getElem_mem hj')
    have hdst := ha _ (List.getElem_mem hj)
    simp only [insertionShift,List.getElem?_eq_getElem hj,List.getElem?_eq_getElem hj',
      Option.bind_eq_bind,Option.bind_some,load_head hdim]
    rw [take_succ_eq hj'] at hsorted ⊢
    split
    · rename_i hgt
      have hset : data.set (j+1) data[j] =
          data.take (j+1) ++ data[j] :: data.drop (j+2) := by
        rw [List.set_eq_take_append_cons_drop,if_pos hj]
      have hlen : (data.take (j+1)).length = j+1 := by rw [List.length_take]; omega
      rw [store_load hdst hprev,ih _ (by rw [List.length_set]; omega)]
      · rw [place_append_large _ _ _ hgt,List.append_assoc]
        have htake : (data.set (j+1) data[j]).take j = data.take j := by
          rw [List.take_set_of_le (by omega)]
        have hdrop : (data.set (j+1) data[j]).drop (j+1) = data[j] :: data.drop (j+2) := by
          rw [hset,List.drop_left' hlen]
        rw [htake,hdrop]
        rfl
      · intro t ht
        rcases List.mem_or_eq_of_mem_set ht with ht | rfl
        · exact ha t ht
        · exact hprev
      · rw [List.take_set_of_le (by omega)]
        exact (List.pairwise_append.mp hsorted).1
    · rename_i hle
      have hsmall : ∀ y ∈ data.take j ++ [data[j]], y.key dim ≤ x.key dim := by
        intro y hy
        rcases List.mem_append.mp hy with hy | hy
        · exact ((List.pairwise_append.mp hsorted).2.2 y hy _ List.mem_cons_self).trans
            (Nat.le_of_not_lt hle)
        · rw [List.mem_singleton.mp hy]
          exact Nat.le_of_not_lt hle
      rw [store_load hdst hx,place_append_small _ hsmall,← take_succ_eq hj',
        List.set_eq_take_append_cons_drop,if_pos hj,List.append_assoc]
      rfl

/-- The state of `insertion` after `i` positions: the prefix is sorted and the
whole array is a rearrangement. -/
theorem insertion_prefix (hdim : dim < size) (ha : Agree dim size pre data) (i : ℕ)
    (hi : i+1 ≤ data.length) :
    ∃ out, (List.range' 1 i).foldlM (fun data i => do
        let cur ← data[i]?
        insertionShift dim size (cur.load dim size) i data) data = some out ∧
      out.Perm data ∧ SortedBy dim (out.take (i+1)) := by
  induction i with
  | zero =>
    refine ⟨data,rfl,List.Perm.refl _,?_⟩
    cases data with
    | nil => simp [SortedBy]
    | cons t data => simp [SortedBy]
  | succ i ih =>
    obtain ⟨mid,hmid,hp,hs⟩ := ih (by omega)
    have hlen : i+1 < mid.length := by rw [hp.length_eq]; omega
    have hma := ha.perm hp
    have hx := hma _ (List.getElem_mem hlen)
    have hshift := insertionShift_eq hdim hx (i+1) mid hlen hma hs
    have hperm : (place dim mid[i+1] (mid.take (i+1)) ++ mid.drop (i+2)).Perm mid := by
      apply ((place_perm _ _).append_right _).trans
      rw [List.cons_append]
      refine (List.perm_middle.symm).trans (List.Perm.of_eq ?_)
      rw [List.getElem_cons_drop,List.take_append_drop]
    refine ⟨place dim mid[i+1] (mid.take (i+1)) ++ mid.drop (i+2),?_,hperm.trans hp,?_⟩
    · rw [List.range'_concat,List.foldlM_append,hmid]
      simp only [Nat.one_mul,Nat.add_comm 1 i,List.foldlM_cons,List.foldlM_nil,
        Option.bind_eq_bind,Option.bind_some,List.getElem?_eq_getElem hlen,hshift]
      rfl
    · have hplen : (place dim mid[i+1] (mid.take (i+1))).length = i+1+1 := by
        rw [(place_perm _ _).length_eq,List.length_cons,List.length_take]
        omega
      rw [List.take_left' hplen]
      exact place_sorted _ hs

/-- Insertion sort returns a sorted rearrangement of whole slots. -/
theorem insertion_spec (hdim : dim < size) (ha : Agree dim size pre data) :
    ∃ out, insertion dim size data.length data = some out ∧ out.Perm data ∧ SortedBy dim out := by
  rcases Nat.eq_zero_or_pos data.length with h0 | hpos
  · have hnil : data = [] := List.length_eq_zero_iff.mp h0
    subst hnil
    exact ⟨[],rfl,List.Perm.refl _,List.Pairwise.nil⟩
  · obtain ⟨out,hout,hp,hs⟩ := insertion_prefix hdim ha (data.length-1) (by omega)
    refine ⟨out,hout,hp,?_⟩
    have hl := hp.length_eq
    rwa [List.take_of_length_le (by omega)] at hs

end ElfIndex.SortingEngine
