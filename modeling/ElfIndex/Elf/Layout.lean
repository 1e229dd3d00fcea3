import ElfIndex.Elf.Builder
import ElfIndex.Elf.DimTree
import ElfIndex.SortingEngine.Engine

/-! # The layout that the sorting builder writes

The builder splits the sorted slots of a list into groups of one value. It writes the
values of all groups, then the sub-list of each group behind its own pointer. Every word
outside the list and its sub-lists is left alone, so the finished groups stay as they
are while the later ones are written.
-/
namespace ElfIndex
open WordMemory SortingEngine

/-! ## Groups of one value -/

/-- The groups that the scan finds in `ts` when it has collected `group` so far. -/
def groupsFrom (dim cur : ℕ) (group : List TID) : List TID → List (List TID)
  | [] => [group]
  | t :: ts =>
    if cur ≠ t.key dim then group :: groupsFrom dim (t.key dim) [t] ts
    else groupsFrom dim cur (group ++ [t]) ts

def groupKey (dim : ℕ) (g : List TID) : ℕ := (g.headD ⟨0,[]⟩).key dim

/-- Nonempty groups of equal values, the values increasing. -/
structure Grouped (dim : ℕ) (gs : List (List TID)) : Prop where
  group : ∀ g ∈ gs, g ≠ [] ∧ ∀ t ∈ g, t.key dim = groupKey dim g
  increasing : gs.Pairwise fun g h => groupKey dim g < groupKey dim h

variable {dim : ℕ}

section Front

variable {data g : List TID} {gs : List (List TID)} {begin : ℕ}

theorem take_front (h : data.drop begin = (g :: gs).flatten) :
    (data.drop begin).take g.length = g := by
  rw [h,List.flatten_cons,List.take_left]

theorem drop_front (h : data.drop begin = (g :: gs).flatten) :
    data.drop (begin+g.length) = gs.flatten := by
  rw [← List.drop_drop,h,List.flatten_cons,List.drop_left]

end Front

theorem groupsFrom_ne_nil (cur : ℕ) (group ts : List TID) : groupsFrom dim cur group ts ≠ [] := by
  induction ts generalizing cur group with
  | nil => exact List.cons_ne_nil _ _
  | cons t ts ih =>
    unfold groupsFrom
    split
    · exact List.cons_ne_nil _ _
    · exact ih cur (group ++ [t])

theorem groupsFrom_flatten (cur : ℕ) (group ts : List TID) :
    (groupsFrom dim cur group ts).flatten = group ++ ts := by
  induction ts generalizing cur group with
  | nil => simp [groupsFrom]
  | cons t ts ih =>
    unfold groupsFrom
    split
    · rw [List.flatten_cons,ih]
      rfl
    · rw [ih,List.append_assoc]
      rfl

theorem groupKey_eq {g : List TID} {cur : ℕ} (hne : g ≠ []) (h : ∀ t ∈ g, t.key dim = cur) :
    groupKey dim g = cur := by
  cases g with
  | nil => exact absurd rfl hne
  | cons t g => exact h t List.mem_cons_self

theorem groupsFrom_grouped {cur : ℕ} {group ts : List TID} (hne : group ≠ [])
    (hkey : ∀ t ∈ group, t.key dim = cur) (hs : SortedBy dim (group ++ ts)) :
    Grouped dim (groupsFrom dim cur group ts) := by
  induction ts generalizing cur group with
  | nil =>
    unfold groupsFrom
    refine ⟨?_,List.pairwise_singleton _ _⟩
    intro g hg
    rw [List.mem_singleton] at hg
    subst hg
    exact ⟨hne,fun t ht => (hkey t ht).trans (groupKey_eq hne hkey).symm⟩
  | cons t ts ih =>
    have hsorted : SortedBy dim (t :: ts) := (List.pairwise_append.mp hs).2.1
    unfold groupsFrom
    split
    · rename_i hcur
      have hrest : Grouped dim (groupsFrom dim (t.key dim) [t] ts) :=
        ih (List.cons_ne_nil _ _) (fun u hu => by rw [List.mem_singleton.mp hu]) hsorted
      refine ⟨?_,List.pairwise_cons.mpr ⟨?_,hrest.increasing⟩⟩
      · intro g hg
        rcases List.mem_cons.mp hg with rfl | hg
        · exact ⟨hne,fun u hu => (hkey u hu).trans (groupKey_eq hne hkey).symm⟩
        · exact hrest.group g hg
      · intro h hh
        obtain ⟨hhne,_⟩ := hrest.group h hh
        obtain ⟨u,h',rfl⟩ := List.exists_cons_of_ne_nil hhne
        have hu : u ∈ t :: ts := by
          have hm : u ∈ (groupsFrom dim (t.key dim) [t] ts).flatten :=
            List.mem_flatten.mpr ⟨_,hh,List.mem_cons_self⟩
          rwa [groupsFrom_flatten] at hm
        obtain ⟨s,group',rfl⟩ := List.exists_cons_of_ne_nil hne
        have hst : s.key dim ≤ t.key dim :=
          (List.pairwise_append.mp hs).2.2 s List.mem_cons_self t List.mem_cons_self
        have hsc : s.key dim = cur := hkey s List.mem_cons_self
        have htu : t.key dim ≤ u.key dim := by
          rcases List.mem_cons.mp hu with rfl | hu
          · exact le_rfl
          · exact (List.pairwise_cons.mp hsorted).1 u hu
        change s.key dim < u.key dim
        omega
    · rename_i hcur
      refine ih (by simp) ?_ (by simpa using hs)
      intro u hu
      rcases List.mem_append.mp hu with hu | hu
      · exact hkey u hu
      · rw [List.mem_singleton.mp hu]
        omega

/-- A group is a single slot or has several. -/
theorem single_or_several {g : List TID} (hne : g ≠ []) : (∃ s, g = [s]) ∨ 1 < g.length := by
  have hpos := List.length_pos_of_ne_nil hne
  rcases Nat.lt_or_eq_of_le hpos with hlt | heq
  · exact Or.inr hlt
  · exact Or.inl (List.length_eq_one_iff.mp heq.symm)

theorem Grouped.tail {g : List TID} {gs : List (List TID)} (h : Grouped dim (g :: gs)) :
    Grouped dim gs :=
  ⟨fun g' hg' => h.group g' (List.mem_cons_of_mem _ hg'),(List.pairwise_cons.mp h.increasing).2⟩

/-! ## The values of a list -/

/-- The list entries of the groups when the first value is written at `pos`. -/
def entriesFrom (pos begin : ℕ) : List (List TID) → List ListEntry
  | [] => []
  | g :: gs => ⟨pos+1,begin,g.length⟩ :: entriesFrom (pos+3) (begin+g.length) gs

/-- The values of the groups stand at `pos, pos+3, ..`, the last one flagged. -/
def Headers (dim : ℕ) (mem : Memory) : ℕ → List (List TID) → Prop
  | _, [] => True
  | pos, [g] => mem pos = groupKey dim g ||| lastEntryMask
  | pos, g :: g' :: gs => mem pos = groupKey dim g ∧ Headers dim mem (pos+3) (g' :: gs)

theorem Headers.congr {mem mem' : Memory} {pos : ℕ} {gs : List (List TID)}
    (h : Headers dim mem pos gs) (ha : AgreesOn mem mem' pos (pos+3*gs.length)) :
    Headers dim mem' pos gs := by
  induction gs generalizing pos with
  | nil => trivial
  | cons g gs ih =>
    have hpos : mem' pos = mem pos := ha pos le_rfl (by simp)
    cases gs with
    | nil =>
      rw [Headers] at h ⊢
      rw [hpos,h]
    | cons g' gs =>
      rw [Headers] at h ⊢
      refine ⟨hpos.trans h.1,ih h.2 (ha.mono (by omega) ?_)⟩
      simp only [List.length_cons]
      omega

/-- The scan writes the values of all groups and notes where their pointers go. -/
theorem scanLists_spec (group ts : List TID) (i : ℕ) (st : ListScan) (hne : group ≠ [])
    (hkey : ∀ t ∈ group, t.key dim = st.cur) (hi : st.begin+group.length = i) :
    let gs := groupsFrom dim st.cur group ts
    (scanLists dim ts i st).writePointer = st.writePointer+3*gs.length ∧
      (scanLists dim ts i st).lists = st.lists ++ entriesFrom st.writePointer st.begin gs ∧
      Headers dim (scanLists dim ts i st).elf st.writePointer gs ∧
      ChangesOnly st.elf (scanLists dim ts i st).elf st.writePointer
        (st.writePointer+3*gs.length) := by
  intro gs
  induction ts generalizing group i st with
  | nil =>
    have hlen : i-st.begin = group.length := by omega
    have hback : st.writePointer+3-3 = st.writePointer := by omega
    simp only [gs,groupsFrom,scanLists,ListScan.close,hlen,hback,List.length_singleton,Headers,
      entriesFrom,true_and,Nat.mul_one,flagWord,write_same]
    refine ⟨by rw [groupKey_eq hne hkey],?_⟩
    exact (write_changesOnly le_rfl (by omega)).trans (write_changesOnly le_rfl (by omega))
  | cons t ts ih =>
    have hlen : i-st.begin = group.length := by omega
    by_cases hcur : st.cur = t.key dim
    · have hgs : gs = groupsFrom dim st.cur (group ++ [t]) ts := by
        simp only [gs,groupsFrom,hcur,ne_eq,not_true_eq_false,if_false]
      rw [scanLists,if_neg (by simpa using hcur),hgs]
      refine ih (group ++ [t]) (i+1) st (by simp) ?_ ?_
      · intro u hu
        rcases List.mem_append.mp hu with hu | hu
        · exact hkey u hu
        · rw [List.mem_singleton.mp hu,hcur]
      · simp only [List.length_append,List.length_singleton]
        omega
    · have hgs : gs = group :: groupsFrom dim (t.key dim) [t] ts := by
        simp only [gs,groupsFrom,ne_eq,hcur,not_false_eq_true,if_true]
      obtain ⟨h1,h2,h3,h4⟩ := ih [t] (i+1) {st.close i with begin := i, cur := t.key dim}
        (List.cons_ne_nil _ _) (fun u hu => by rw [List.mem_singleton.mp hu]) rfl
      rw [scanLists,if_pos hcur,hgs]
      simp only [ListScan.close] at h1 h2 h3 h4 ⊢
      have hhead : (scanLists dim ts (i+1)
          {elf := write st.elf st.writePointer st.cur, writePointer := st.writePointer+3,
            begin := i, cur := t.key dim,
            lists := st.lists ++ [⟨st.writePointer+1,st.begin,i-st.begin⟩]}).elf st.writePointer =
          groupKey dim group := by
        rw [h4 _ (by omega),write_same,groupKey_eq hne hkey]
      refine ⟨?_,?_,?_,?_⟩
      · rw [h1,List.length_cons]
        omega
      · rw [h2,entriesFrom,hlen,hi,List.append_assoc]
        rfl
      · obtain ⟨g',gs',hg⟩ := List.exists_cons_of_ne_nil (groupsFrom_ne_nil (t.key dim) [t] ts)
        rw [hg] at h3 ⊢
        exact ⟨hhead,h3⟩
      · refine (write_changesOnly le_rfl ?_).trans (h4.mono (by omega) ?_)
        · simp only [List.length_cons]
          omega
        · simp only [List.length_cons]
          omega

/-! ## Sub-lists -/

/-- The tree holds rows of the slots only, and each row of the slots at least once. -/
def DimTree.Covers (dim : ℕ) (t : DimTree) (data : List TID) : Prop :=
  (∀ r ∈ t.rows, ∃ s ∈ data, r = (s.value.drop dim,s.tid)) ∧
    ∀ s ∈ data, ∃ tid, (s.value.drop dim,tid) ∈ t.rows

/-- What writing the sub-list of the group `g` does, with its pointer at `ptr`. -/
structure GroupWritten (numDim dim : ℕ) (g : List TID) (ptr : ℕ) (mem : Memory) (wp : ℕ)
    (mem' : Memory) (wp' : ℕ) : Prop where
  le : wp ≤ wp'
  frame : ∀ p, p ≠ ptr → p ≠ ptr+1 → (p < wp ∨ wp' ≤ p) → mem' p = mem p
  cost : 2*(wp'+3) ≤ 2*wp+g.length*(3*(numDim-dim)+5)
  child : wp' ≤ 2^62 → ∃ (t : DimTree) (off : ℕ), off < 2^62 ∧ get64 mem' ptr = t.pointer off ∧
    t.Ordered ∧ t.StoredIn mem' numDim wp wp' (dim+1) off ∧ t.Covers (dim+1) g

/-- What writing a dimension list of the slots `data` at `wp` does. -/
structure ListWritten (numDim dim : ℕ) (data : List TID) (mem : Memory) (wp : ℕ)
    (mem' : Memory) (wp' : ℕ) : Prop where
  le : wp ≤ wp'
  frame : ChangesOnly mem mem' wp wp'
  cost : 2*wp' ≤ 2*wp+data.length*(3*(numDim-dim)+5)
  tree : wp' ≤ 2^62 → ∃ t : DimTree, t.isList = true ∧ t.Ordered ∧
    t.StoredIn mem' numDim wp wp' dim wp ∧ t.Covers dim data

theorem DimTree.Covers.perm {t : DimTree} {data data' : List TID} (h : t.Covers dim data)
    (hp : data.Perm data') : t.Covers dim data' := by
  constructor
  · intro r hr
    obtain ⟨s,hs,he⟩ := h.1 r hr
    exact ⟨s,hp.mem_iff.mp hs,he⟩
  · intro s hs
    exact h.2 s (hp.mem_iff.mpr hs)

variable {numDim : ℕ}

theorem ListWritten.perm {data data' : List TID} {mem mem' : Memory} {wp wp' : ℕ}
    (h : ListWritten numDim dim data mem wp mem' wp') (hp : data.Perm data') :
    ListWritten numDim dim data' mem wp mem' wp' := by
  refine ⟨h.le,h.frame,?_,?_⟩
  · rw [← hp.length_eq]
    exact h.cost
  · intro hbig
    obtain ⟨t,hl,ho,hst,hcov⟩ := h.tree hbig
    exact ⟨t,hl,ho,hst,hcov.perm hp⟩

theorem drop_eq_key_cons {s : TID} (hlen : s.value.length = numDim) (hdim : dim < numDim) :
    s.value.drop dim = s.key dim :: s.value.drop (dim+1) := by
  have hl : dim < s.value.length := by omega
  rw [List.drop_eq_getElem_cons hl,TID.key,List.getD_eq_getElem?_getD,
    List.getElem?_eq_getElem hl,Option.getD_some]

/-- Prefixing the common value of a group turns the sub-tree's rows into rows of the list. -/
theorem covers_cons {t : DimTree} {g : List TID} (hdim : dim < numDim)
    (hlen : ∀ s ∈ g, s.value.length = numDim) (hkey : ∀ s ∈ g, s.key dim = groupKey dim g)
    (h : t.Covers (dim+1) g) :
    (∀ r ∈ t.rows.map (fun r => (groupKey dim g :: r.1,r.2)),
      ∃ s ∈ g, r = (s.value.drop dim,s.tid)) ∧
    ∀ s ∈ g, ∃ tid, (s.value.drop dim,tid) ∈ t.rows.map fun r => (groupKey dim g :: r.1,r.2) := by
  constructor
  · intro r hr
    obtain ⟨r',hr',rfl⟩ := List.mem_map.mp hr
    obtain ⟨s,hs,rfl⟩ := h.1 r' hr'
    refine ⟨s,hs,?_⟩
    rw [drop_eq_key_cons (hlen s hs) hdim,hkey s hs]
  · intro s hs
    obtain ⟨tid,hr⟩ := h.2 s hs
    refine ⟨tid,List.mem_map.mpr ⟨_,hr,?_⟩⟩
    rw [drop_eq_key_cons (hlen s hs) hdim,hkey s hs]

theorem covers_append {child rest : DimTree} {v : ℕ} {g data : List TID}
    (h : (∀ r ∈ child.rows.map (fun r => (v :: r.1,r.2)), ∃ s ∈ g, r = (s.value.drop dim,s.tid)) ∧
      ∀ s ∈ g, ∃ tid, (s.value.drop dim,tid) ∈ child.rows.map fun r => (v :: r.1,r.2))
    (hrest : rest.Covers dim data) : (DimTree.entry v child rest).Covers dim (g ++ data) := by
  constructor
  · intro r hr
    rcases List.mem_append.mp hr with hr | hr
    · obtain ⟨s,hs,he⟩ := h.1 r hr
      exact ⟨s,List.mem_append_left _ hs,he⟩
    · obtain ⟨s,hs,he⟩ := hrest.1 r hr
      exact ⟨s,List.mem_append_right _ hs,he⟩
  · intro s hs
    rcases List.mem_append.mp hs with hs | hs
    · obtain ⟨tid,hr⟩ := h.2 s hs
      exact ⟨tid,List.mem_append_left _ hr⟩
    · obtain ⟨tid,hr⟩ := hrest.2 s hs
      exact ⟨tid,List.mem_append_right _ hr⟩

namespace GroupWritten

variable {g : List TID} {ptr wp wp' pos hi : ℕ} {mem mem1 mem2 : Memory}

/-- A flagged value in front of a written group is a list of this group alone. -/
theorem last_entry (h : GroupWritten numDim dim g (pos+1) mem wp mem1 wp') (hdim : dim < numDim)
    (hglen : ∀ s ∈ g, s.value.length = numDim) (hgkey : ∀ s ∈ g, s.key dim = groupKey dim g)
    (hgval : groupKey dim g < 2^31) (hwp : pos+3 ≤ wp)
    (hhead : mem pos = groupKey dim g ||| lastEntryMask) (hbig : wp' ≤ 2^62) :
    ∃ t : DimTree, t.isList = true ∧ t.Ordered ∧ t.firstValue = groupKey dim g ∧
      t.StoredIn mem1 numDim pos wp' dim pos ∧ t.Covers dim g := by
  obtain ⟨t,off,hoff,hptr,hord,hst,hcov⟩ := h.child hbig
  have hle := h.le
  have hhead1 : mem1 pos = groupKey dim g ||| lastEntryMask := by
    rw [h.frame pos (by omega) (by omega) (by omega)]
    exact hhead
  refine ⟨.last (groupKey dim g) t,rfl,⟨hgval,hord⟩,rfl,?_,covers_cons hdim hglen hgkey hcov⟩
  exact ⟨hdim,le_rfl,by omega,hhead1,off,hoff,hptr,hst.mono (by omega) le_rfl⟩

/-- A value in front of a written group continues the list of the later groups, which are
written behind the words of the group. -/
theorem front_entry (h : GroupWritten numDim dim g (pos+1) mem wp mem1 wp') (hdim : dim < numDim)
    (hglen : ∀ s ∈ g, s.value.length = numDim) (hgkey : ∀ s ∈ g, s.key dim = groupKey dim g)
    (hgval : groupKey dim g < 2^31) (hwp : pos+3 ≤ wp) (hhead : mem pos = groupKey dim g)
    (hle : wp' ≤ hi) (hbig : hi ≤ 2^62)
    (hkeep : ∀ p, p < pos+3 ∨ wp ≤ p ∧ p < wp' → mem2 p = mem1 p)
    {rest : DimTree} {data : List TID} (hlist : rest.isList = true) (hrord : rest.Ordered)
    (hlt : groupKey dim g < rest.firstValue)
    (hrst : rest.StoredIn mem2 numDim (pos+3) hi dim (pos+3)) (hrcov : rest.Covers dim data) :
    ∃ t : DimTree, t.isList = true ∧ t.Ordered ∧ t.firstValue = groupKey dim g ∧
      t.StoredIn mem2 numDim pos hi dim pos ∧ t.Covers dim (g ++ data) := by
  obtain ⟨t,off,hoff,hptr,hord,hst,hcov⟩ := h.child (hle.trans hbig)
  have hwp' := h.le
  have hhead2 : mem2 pos = groupKey dim g := by
    rw [hkeep pos (by omega),h.frame pos (by omega) (by omega) (by omega)]
    exact hhead
  have hagree : AgreesOn mem1 mem2 wp wp' := fun p hp hp' => hkeep p (by omega)
  have hptr2 : get64 mem2 (pos+1) = t.pointer off := by
    rw [get64_congr (hkeep _ (by omega)) (hkeep _ (by omega)),hptr]
  refine ⟨.entry (groupKey dim g) t rest,rfl,⟨hgval,hord,hrord,hlist,hlt⟩,rfl,?_,?_⟩
  · exact ⟨hdim,le_rfl,by omega,hhead2,
      ⟨off,hoff,hptr2,(hst.congr hagree).mono (by omega) hle⟩,hrst.mono (by omega) le_rfl⟩
  · exact covers_append (covers_cons hdim hglen hgkey hcov) hrcov

end GroupWritten

/-- The loop over the lists writes the chain of all groups. -/
theorem forLists_spec {body : ListEntry → Memory → ℕ → Option (Memory × ℕ)} {data : List TID}
    (hdim : dim < numDim) (gs : List (List TID)) {pos begin wp : ℕ} {mem : Memory}
    (hne : gs ≠ []) (hgs : Grouped dim gs) (hdata : data.drop begin = gs.flatten)
    (hlen : ∀ s ∈ gs.flatten, s.value.length = numDim)
    (hval : ∀ s ∈ gs.flatten, s.key dim < 2^31)
    (hbody : ∀ g ∈ gs, ∀ ptr begin mem wp, (data.drop begin).take g.length = g → ptr+2 ≤ wp →
      ∃ mem' wp', body ⟨ptr,begin,g.length⟩ mem wp = some (mem',wp') ∧
        GroupWritten numDim dim g ptr mem wp mem' wp')
    (hhead : Headers dim mem pos gs) (hwp : pos+3*gs.length ≤ wp) :
    ∃ mem' wp', forLists body (entriesFrom pos begin gs) mem wp = some (mem',wp') ∧ wp ≤ wp' ∧
      (∀ p, p < pos ∨ pos+3*gs.length ≤ p ∧ p < wp ∨ wp' ≤ p → mem' p = mem p) ∧
      2*(wp'+3*gs.length) ≤ 2*wp+gs.flatten.length*(3*(numDim-dim)+5) ∧
      (wp' ≤ 2^62 → ∃ t : DimTree, t.isList = true ∧ t.Ordered ∧
        t.firstValue = groupKey dim (gs.headD []) ∧
        t.StoredIn mem' numDim pos wp' dim pos ∧ t.Covers dim gs.flatten) := by
  induction gs generalizing pos begin wp mem with
  | nil => exact absurd rfl hne
  | cons g gs ih =>
    obtain ⟨hgne,hgkey⟩ := hgs.group g List.mem_cons_self
    have hglen : ∀ s ∈ g, s.value.length = numDim := fun s hs =>
      hlen s (List.mem_flatten.mpr ⟨g,List.mem_cons_self,hs⟩)
    have hgval : groupKey dim g < 2^31 := by
      obtain ⟨s,g',rfl⟩ := List.exists_cons_of_ne_nil hgne
      exact hval s (by simp)
    have htake : (data.drop begin).take g.length = g := take_front hdata
    simp only [List.length_cons] at hwp
    obtain ⟨mem1,wp1,hrun,hw⟩ := hbody g List.mem_cons_self (pos+1) begin mem wp htake (by omega)
    have hle1 := hw.le
    cases gs with
    | nil =>
      refine ⟨mem1,wp1,by simp only [entriesFrom,forLists,hrun,Option.bind_eq_bind,
        Option.bind_some],hw.le,?_,?_,?_⟩
      · intro p hp
        simp only [List.length_cons,List.length_nil] at hp
        exact hw.frame p (by omega) (by omega) (by omega)
      · have hcost := hw.cost
        simp only [List.length_cons,List.length_nil,List.flatten_cons,List.flatten_nil,
          List.append_nil]
        omega
      · intro hbig
        rw [List.flatten_cons,List.flatten_nil,List.append_nil]
        exact hw.last_entry hdim hglen hgkey hgval hwp hhead hbig
    | cons g' gs =>
      have hrestLen : ∀ s ∈ (g' :: gs).flatten, s.value.length = numDim := fun s hs =>
        hlen s (by rw [List.flatten_cons]; exact List.mem_append_right g hs)
      have hrestVal : ∀ s ∈ (g' :: gs).flatten, s.key dim < 2^31 := fun s hs =>
        hval s (by rw [List.flatten_cons]; exact List.mem_append_right g hs)
      have hrestData : data.drop (begin+g.length) = (g' :: gs).flatten := drop_front hdata
      have hrestHead : Headers dim mem1 (pos+3) (g' :: gs) := by
        apply hhead.2.congr
        intro p hp hp'
        simp only [List.length_cons] at hp' hwp
        exact hw.frame p (by omega) (by omega) (by omega)
      have hrestWp : pos+3+3*(g' :: gs).length ≤ wp1 := by omega
      obtain ⟨mem2,wp2,hrun2,hle2,hframe2,hcost2,htree2⟩ := ih (List.cons_ne_nil _ _) hgs.tail
        hrestData hrestLen hrestVal (fun h hh => hbody h (List.mem_cons_of_mem _ hh)) hrestHead
        hrestWp
      refine ⟨mem2,wp2,?_,hle1.trans hle2,?_,?_,?_⟩
      · rw [entriesFrom,forLists,hrun,Option.bind_eq_bind,Option.bind_some]
        exact hrun2
      · intro p hp
        simp only [List.length_cons] at hp hframe2 hwp hrestWp
        rw [hframe2 p (by omega)]
        exact hw.frame p (by omega) (by omega) (by omega)
      · have hcost := hw.cost
        simp only [List.length_cons,List.flatten_cons,List.length_append,Nat.add_mul] at hcost2 ⊢
        omega
      · intro hbig
        obtain ⟨rest,hlist,hord,hfirst,hst,hcov⟩ := htree2 hbig
        have hlt : groupKey dim g < rest.firstValue := by
          rw [hfirst]
          exact (List.pairwise_cons.mp hgs.increasing).1 g' List.mem_cons_self
        exact hw.front_entry hdim hglen hgkey hgval (by omega) hhead.1 hle2 hbig
          (fun p hp => hframe2 p (by omega)) hlist hord hlt hst hcov

end ElfIndex
