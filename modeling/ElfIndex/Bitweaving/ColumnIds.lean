import Mathlib.Data.List.Nodup
import ElfIndex.Bitweaving.TableRuns

/-! # Ids of the columns

A table gives a new column the id that was freed first, or the next number. As long as no
name is added twice while an id is free, the ids of the columns and the free ones are the numbers
below `GetMaxColumnId`. A failed `AddColumn` drops a free id.
-/
namespace ElfIndex.Bitweaving.TableRep

variable {t t' : TableRep} {words : Memory} {name : String}

/-- The ids of the columns, then the free ones. -/
def ids (t : TableRep) : List ℕ := t.map.map (·.2.id) ++ t.freeColumnIds

/-- The ids of the table are the numbers below the largest one, each of them once. -/
structure Numbered (t : TableRep) : Prop where
  perm : t.ids.Perm (List.range t.getMaxColumnId)
  names : (t.map.map (·.1)).Nodup

/-- `AddColumn` does not fail while an id is free. -/
def Tidy (t : TableRep) : TableOp → Prop
  | .addColumn name _ _ => t.freeColumnIds = [] ∨ t.getColumn name = none
  | _ => True

theorem length_ids (t : TableRep) : t.ids.length = t.getMaxColumnId := by
  rw [ids,List.length_append,List.length_map,getMaxColumnId]

theorem getColumn_eq_none_iff : t.getColumn name = none ↔ name ∉ t.map.map (·.1) := by
  rw [getColumn,Option.map_eq_none_iff,List.find?_eq_none,List.mem_map]
  constructor
  · rintro h ⟨e,he,rfl⟩
    exact h e he (beq_self_eq_true e.1)
  · intro h e he hname
    exact h ⟨e,he,eq_of_beq hname⟩

/-- Columns that keep their names and ids. -/
theorem Numbered.congr (h : t.Numbered) (hfree : t'.freeColumnIds = t.freeColumnIds)
    (hmap : t'.map.map (fun e => (e.1,e.2.id)) = t.map.map fun e => (e.1,e.2.id)) :
    t'.Numbered := by
  have hids := congrArg (List.map Prod.snd) hmap
  have hnames := congrArg (List.map Prod.fst) hmap
  simp only [List.map_map,Function.comp_def] at hids hnames
  have hsame : t'.ids = t.ids := by rw [ids,ids,hids,hfree]
  refine ⟨?_,by rw [hnames]; exact h.names⟩
  rw [← length_ids,hsame,length_ids]
  exact h.perm

theorem numbered_create : create.Numbered := ⟨.refl _,List.nodup_nil⟩

theorem map_resize {num : ℕ} (h : t.resize words num = some t') :
    t'.freeColumnIds = t.freeColumnIds ∧
      t'.map.map (fun e => (e.1,e.2.id)) = t.map.map fun e => (e.1,e.2.id) := by
  unfold resize at h
  split at h
  · obtain ⟨map,hmap,h⟩ := Option.bind_eq_some_iff.mp h
    obtain rfl := Option.some.inj h
    refine ⟨rfl,?_⟩
    have hrel := Related.forall₂_of_mapM (r:=fun e e' => (e'.1,e'.2.id) = (e.1,e.2.id)) hmap (by
      intro e e' he
      obtain ⟨c,hc,rfl⟩ := Option.map_eq_some_iff.mp he
      obtain ⟨_,_,rfl⟩ := Option.map_eq_some_iff.mp hc
      rfl)
    have hsame : List.Forall₂ (· = ·) (map.map fun e => (e.1,e.2.id))
        (t.map.map fun e => (e.1,e.2.id)) := by
      rw [List.forall₂_map_left_iff,List.forall₂_map_right_iff]
      exact List.Forall₂.flip hrel
    rwa [List.forall₂_eq_eq_eq] at hsame
  · obtain rfl := Option.some.inj h
    exact ⟨rfl,rfl⟩

theorem free_bulkload {codes : List ℕ} {pos : ℕ} (h : t.bulkload words name codes pos = some t') :
    t'.freeColumnIds = t.freeColumnIds := by
  obtain ⟨c,_,h⟩ := Option.bind_eq_some_iff.mp h
  split at h
  · cases h
  · obtain ⟨t1,ht1,h⟩ := Option.bind_eq_some_iff.mp h
    obtain ⟨c1,_,h⟩ := Option.bind_eq_some_iff.mp h
    obtain ⟨rest,_,h⟩ := Option.bind_eq_some_iff.mp h
    obtain rfl := Option.some.inj h
    split at ht1
    · exact (map_resize ht1).1
    · exact Option.some.inj ht1 ▸ rfl

/-- The column of a name is the only one of that name. -/
theorem Numbered.eq_of_getColumn (h : (t.map.map (·.1)).Nodup) {c : ColumnRep}
    (hc : t.getColumn name = some c) {e : String × ColumnRep} (he : e ∈ t.map)
    (hname : e.1 = name) : e.2 = c := by
  obtain ⟨e',he',hname',rfl⟩ := getColumn_mem hc
  exact congrArg Prod.snd (List.inj_on_of_nodup_map h he he' (hname.trans hname'.symm))

theorem map_setColumn (h : (t.map.map (·.1)).Nodup) {c c' : ColumnRep}
    (hc : t.getColumn name = some c) (hid : c'.id = c.id) :
    (t.setColumn name c').map.map (fun e => (e.1,e.2.id)) = t.map.map fun e => (e.1,e.2.id) := by
  rw [setColumn,List.map_map]
  refine List.map_congr_left fun e he => ?_
  by_cases hname : e.1 = name
  · have hsame := Numbered.eq_of_getColumn h hc he hname
    simp [hname,hid,hsame]
  · simp [hname]

theorem Numbered.addColumn (h : t.Numbered) {type : ColumnType} {codeSize : ℕ}
    (htidy : t.Tidy (.addColumn name type codeSize)) {r : Status × TableRep}
    (hr : t.addColumn words name type codeSize = some r) : r.2.Numbered := by
  unfold TableRep.addColumn at hr
  dsimp only at hr
  have hsame : ∀ free, TableRep.getColumn ⟨t.num,t.map,free⟩ name = t.getColumn name :=
    fun _ => rfl
  rw [hsame] at hr
  split at hr
  · rename_i hold
    obtain rfl := Option.some.inj hr
    have hfree : t.freeColumnIds = [] := htidy.resolve_right fun hnone => by
      rw [hnone] at hold
      cases hold
    exact h.congr (by rw [hfree]; rfl) rfl
  · rename_i hnew
    obtain ⟨c,hc,hr⟩ := Option.bind_eq_some_iff.mp hr
    obtain rfl := Option.some.inj hr
    obtain ⟨blocks,_,rfl⟩ := Option.map_eq_some_iff.mp hc
    have hnone : name ∉ t.map.map (·.1) := by
      rw [← getColumn_eq_none_iff]
      simpa using hnew
    have hmap : ∀ c : ColumnRep, (insert t.map name c).Perm ((name,c)::t.map) := by
      intro c
      have hmid : (insert t.map name c).Perm ((name,c)::(t.map.takeWhile (·.1 < name) ++
          t.map.dropWhile (·.1 < name))) := List.perm_middle
      rwa [List.takeWhile_append_dropWhile] at hmid
    refine ⟨?_,?_⟩
    · have hperm := ((hmap ⟨t.freeColumnIds.headD t.map.length,type,codeSize,blocks⟩).map
        (·.2.id)).append_right t.freeColumnIds.tail
      refine hperm.trans ?_
      rw [← length_ids,ids,List.length_append,List.length_map,(hmap _).length_eq,
        List.length_cons,List.map_cons]
      have hold := h.perm
      rw [ids,getMaxColumnId] at hold
      cases hfree : t.freeColumnIds with
      | nil =>
        rw [hfree,List.append_nil,List.length_nil,Nat.add_zero] at hold
        simp only [List.headD_nil,List.tail_nil,List.append_nil,List.length_nil,Nat.add_zero]
        rw [List.range_succ]
        exact (hold.cons _).trans (List.perm_append_singleton _ _).symm
      | cons i free =>
        rw [hfree,List.length_cons] at hold
        simp only [List.headD_cons,List.tail_cons]
        rw [Nat.add_right_comm]
        exact List.perm_middle.symm.trans hold
    · refine (((hmap _).map (·.1)).nodup_iff).mpr ?_
      rw [List.map_cons]
      exact List.nodup_cons.mpr ⟨hnone,h.names⟩

/-- A failed `AddColumn` takes the first free id away for good, unless it is the largest one. -/
theorem numbered_addColumn_iff (h : t.Numbered) {type : ColumnType} {codeSize i : ℕ}
    {free : List ℕ} (hfree : t.freeColumnIds = i::free) (hold : t.getColumn name ≠ none) :
    ∃ r, t.addColumn words name type codeSize = some r ∧
      r.1 = .usageError "The column name exists in the table." ∧
      (r.2.Numbered ↔ i = r.2.getMaxColumnId) := by
  have hsame : TableRep.getColumn ⟨t.num,t.map,free⟩ name = t.getColumn name := rfl
  refine ⟨(.usageError "The column name exists in the table.",⟨t.num,t.map,free⟩),?_,rfl,?_⟩
  · unfold TableRep.addColumn
    dsimp only
    rw [hfree,List.tail_cons,hsame,if_pos (Option.isSome_iff_ne_none.mpr hold)]
  · have hperm := h.perm
    rw [ids,hfree,getMaxColumnId,hfree,List.length_cons,← Nat.add_assoc,List.range_succ] at hperm
    have hperm := (List.perm_middle.symm.trans hperm).trans (List.perm_append_singleton _ _)
    constructor
    · intro hnum
      have hrest := hnum.perm
      by_contra hne
      have hmem : t.map.length+free.length ∈ List.range (t.map.length+free.length) := by
        refine hrest.subset ?_
        have hmem := hperm.symm.subset List.mem_cons_self
        rcases List.mem_cons.mp hmem with heq | hmem
        · exact absurd heq.symm hne
        · exact hmem
      exact absurd (List.mem_range.mp hmem) (Nat.lt_irrefl _)
    · rintro rfl
      exact ⟨hperm.cons_inv,h.names⟩

/-- Two columns without tuples. -/
def pairTable : TableRep := ⟨0,[("a",⟨0,.kNaive,4,[]⟩),("b",⟨1,.kNaive,4,[]⟩)],[]⟩

/-- A table without tuples, whose column 0 is gone. -/
def gapTable : TableRep := ⟨0,[("b",⟨1,.kNaive,4,[]⟩)],[0]⟩

/-- The id 0 is lost. -/
theorem numbered_addColumn_gap :
    ∃ r, gapTable.addColumn (fun _ _ _ => 0#64) "b" .kNaive 4 = some r ∧ ¬r.2.Numbered := by
  have hnum : gapTable.Numbered := ⟨by decide,List.nodup_singleton _⟩
  obtain ⟨r,hrun,_,hiff⟩ := @numbered_addColumn_iff gapTable (fun _ _ _ => 0#64) "b" hnum .kNaive 4
    0 [] rfl (by simp [gapTable,getColumn])
  have hfailed : gapTable.addColumn (fun _ _ _ => 0#64) "b" .kNaive 4 =
      some (.usageError "The column name exists in the table.",⟨0,[("b",⟨1,.kNaive,4,[]⟩)],[]⟩) := rfl
  refine ⟨r,hrun,hiff.not.mpr ?_⟩
  rw [hrun] at hfailed
  rw [Option.some.inj hfailed]
  decide

theorem Numbered.removeColumn (h : t.Numbered) (name : String) :
    (t.removeColumn name).2.Numbered := by
  unfold TableRep.removeColumn
  split
  · rename_i c hc
    obtain ⟨e,he,hname,rfl⟩ := getColumn_mem hc
    obtain ⟨l,l',hl⟩ := List.append_of_mem he
    have hnames := h.names
    rw [hl,List.map_append,List.map_cons,List.nodup_append,List.nodup_cons] at hnames
    obtain ⟨hfront,⟨hnot,hback⟩,hdisjoint⟩ := hnames
    -- no other column has the name
    have hfilter : t.map.filter (·.1 != name) = l ++ l' := by
      rw [hl,List.filter_append,List.filter_cons_of_neg (by simp [hname]),
        List.filter_eq_self.mpr,List.filter_eq_self.mpr]
      · intro x hx
        have hne : x.1 ≠ e.1 := fun heq => hnot (heq ▸ List.mem_map_of_mem hx)
        simpa [hname] using hne
      · intro x hx
        have hne : x.1 ≠ e.1 := hdisjoint _ (List.mem_map_of_mem hx) _ List.mem_cons_self
        simpa [hname] using hne
    have hperm := h.perm
    rw [ids,getMaxColumnId,hl] at hperm
    refine ⟨?_,?_⟩
    · rw [ids,getMaxColumnId]
      dsimp only
      rw [hfilter]
      simp only [List.map_append,List.map_cons,List.length_append,List.length_cons,
        List.length_nil] at hperm ⊢
      have hcount : l.length+l'.length+(t.freeColumnIds.length+(0+1)) =
          l.length+(l'.length+1)+t.freeColumnIds.length := by omega
      rw [hcount]
      refine List.Perm.trans ?_ hperm
      rw [← List.append_assoc]
      refine (List.perm_append_singleton _ _).trans ?_
      rw [List.append_assoc,List.append_assoc,List.cons_append]
      exact List.perm_middle.symm
    · dsimp only
      rw [hfilter,List.map_append,List.nodup_append]
      exact ⟨hfront,hback,fun a ha b hb => hdisjoint a ha b (List.mem_cons_of_mem _ hb)⟩
  · exact h

theorem step_numbered (h : t.Numbered) {op : TableOp} (htidy : t.Tidy op)
    (hstep : t.step words op = some t') : t'.Numbered := by
  cases op with
  | addColumn name type codeSize =>
    obtain ⟨r,hr,rfl⟩ := Option.map_eq_some_iff.mp hstep
    exact h.addColumn htidy hr
  | removeColumn name => exact Option.some.inj hstep ▸ h.removeColumn name
  | resize num =>
    obtain ⟨hfree,hmap⟩ := map_resize hstep
    exact h.congr hfree hmap
  | bulkload name codes pos =>
    obtain ⟨c,hc,hload⟩ := Option.bind_eq_some_iff.mp hstep
    split at hload
    · cases hload
    · obtain ⟨t1,ht1,hload⟩ := Option.bind_eq_some_iff.mp hload
      obtain ⟨c1,hc1,hload⟩ := Option.bind_eq_some_iff.mp hload
      obtain ⟨rest,_,hload⟩ := Option.bind_eq_some_iff.mp hload
      obtain rfl := Option.some.inj hload
      have h1 : t1.Numbered := by
        split at ht1
        · obtain ⟨hfree,hmap⟩ := map_resize ht1
          exact h.congr hfree hmap
        · exact Option.some.inj ht1 ▸ h
      exact h1.congr rfl (map_setColumn h1.names hc1 rfl)
  | setCode name pos code =>
    obtain ⟨c,hc,hset⟩ := Option.bind_eq_some_iff.mp hstep
    obtain ⟨r,hr,hset⟩ := Option.bind_eq_some_iff.mp hset
    obtain rfl := Option.some.inj hset
    obtain ⟨b,_,rfl⟩ := Option.map_eq_some_iff.mp hr
    exact h.congr rfl (map_setColumn h.names hc rfl)

theorem Runs.numbered (h : Runs Tidy t) : t.Numbered :=
  Runs.invariant numbered_create (fun _ _ _ _ h htidy hstep => step_numbered h htidy hstep) h

/-! ## Columns by their id -/

/-- The iterators of the columns, one for each id; there is none for an id without a column. -/
def columnsOfIds (t : TableRep) : Option (List ColumnRep) :=
  (List.range t.getMaxColumnId).mapM t.getColumnOfId

theorem Numbered.getColumnOfId_isSome_iff (h : t.Numbered) {i : ℕ} (hi : i < t.getMaxColumnId) :
    (t.getColumnOfId i).isSome = true ↔ i ∉ t.freeColumnIds := by
  have hnodup : t.ids.Nodup := h.perm.nodup_iff.mpr List.nodup_range
  rw [ids,List.nodup_append] at hnodup
  have hmem : i ∈ t.ids := h.perm.symm.subset (List.mem_range.mpr hi)
  rw [getColumnOfId,if_pos hi,Option.isSome_map,List.find?_isSome]
  constructor
  · rintro ⟨e,he,hid⟩ hfree
    exact hnodup.2.2 _ (List.mem_map_of_mem he) _ hfree (eq_of_beq hid)
  · intro hfree
    rcases List.mem_append.mp hmem with hmem | hmem
    · obtain ⟨e,he,hid⟩ := List.mem_map.mp hmem
      exact ⟨e,he,beq_iff_eq.mpr hid⟩
    · exact absurd hmem hfree

/-- Every id has a column if and only if no id is free. -/
theorem Numbered.columnsOfIds_isSome_iff (h : t.Numbered) :
    t.columnsOfIds.isSome = true ↔ t.freeColumnIds = [] := by
  constructor
  · intro hsome
    obtain ⟨l,hl⟩ := Option.isSome_iff_exists.mp hsome
    by_contra hne
    obtain ⟨i,hi⟩ := List.exists_mem_of_ne_nil _ hne
    have hlt : i < t.getMaxColumnId :=
      List.mem_range.mp (h.perm.subset (List.mem_append_right _ hi))
    have hrel := Related.forall₂_of_mapM (r:=fun i c => t.getColumnOfId i = some c) hl
      fun _ _ h => h
    obtain ⟨k,hk,heq⟩ := List.mem_iff_getElem.mp (List.mem_range.mpr hlt)
    have hget := (List.forall₂_iff_get.mp hrel).2 k hk (hrel.length_eq ▸ hk)
    refine (h.getColumnOfId_isSome_iff hlt).mp ?_ hi
    rw [← heq]
    exact Option.isSome_of_eq_some hget
  · intro hfree
    obtain ⟨l,hl,_⟩ := Related.mapM (l:=List.range t.getMaxColumnId) (f:=t.getColumnOfId)
      (r:=fun _ _ => True) (by
      intro i hi
      have hsome := (h.getColumnOfId_isSome_iff (List.mem_range.mp hi)).mpr (by
        rw [hfree]
        exact List.not_mem_nil)
      obtain ⟨c,hc⟩ := Option.isSome_iff_exists.mp hsome
      exact ⟨c,hc,trivial⟩)
    rw [columnsOfIds,hl]
    rfl

/-- In every run in which no `AddColumn` fails while an id is free, the iterator of a table finds
the columns of all ids exactly if no id is free. -/
theorem iterator_columns_iff (h : Runs Tidy t) :
    t.columnsOfIds.isSome = true ↔ t.freeColumnIds = [] :=
  (Runs.numbered h).columnsOfIds_isSome_iff

theorem runs_pairTable : Runs Tidy pairTable := by
  have hfirst : Runs Tidy ⟨0,[("a",⟨0,.kNaive,4,[]⟩)],[]⟩ :=
    .step (fun _ _ _ => 0#64) (.addColumn "a" .kNaive 4) .create (.inl rfl) rfl
  exact .step (fun _ _ _ => 0#64) (.addColumn "b" .kNaive 4) hfirst (.inl rfl) rfl

theorem runs_gapTable : Runs Tidy gapTable :=
  .step (fun _ _ _ => 0#64) (.removeColumn "a") runs_pairTable trivial rfl

/-- Two columns are found by their ids; there is none for the id 0 when the first one is removed. -/
theorem iterator_columns_gap :
    [TableOp.addColumn "a" .kNaive 4,.addColumn "b" .kNaive 4].foldlM
        (·.step (fun _ _ _ => 0#64)) TableRep.create = some pairTable ∧
      pairTable.columnsOfIds.isSome = true ∧
      pairTable.step (fun _ _ _ => 0#64) (.removeColumn "a") = some gapTable ∧
      gapTable.columnsOfIds = none := by
  refine ⟨rfl,(iterator_columns_iff runs_pairTable).mpr rfl,rfl,?_⟩
  have hfree : gapTable.freeColumnIds ≠ [] := List.cons_ne_nil _ _
  exact Option.not_isSome_iff_eq_none.mp ((iterator_columns_iff runs_gapTable).not.mpr hfree)

end ElfIndex.Bitweaving.TableRep
