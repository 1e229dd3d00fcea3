import ElfIndex.Imprint.Encoder

/-! # The dictionary arrays of a column

`imprints_create` writes into two arrays with any contents, and goes back to the dictionary
line that it wrote last. The written parts of the arrays are the lists of the encoder, so they
expand to one mask for each cache line.
-/
namespace ElfIndex
open WordMemory

/-- The arrays and variables of `imprints_create`. The values that go into a `cnt` field are
noted in `stored`. -/
structure DictState where
  dict : ℕ → DictLine
  im : ℕ → Mask
  dcnt : ℕ
  icnt : ℕ
  prvmask : Mask
  stored : List ℕ

namespace DictState

/-- `imprints->dict[i].cnt = cnt` -/
def setCnt (st : DictState) (i cnt : ℕ) : DictState :=
  {st with
    dict := Function.update st.dict i {st.dict i with cnt := cnt}
    stored := st.stored ++ [cnt]}

/-- `imprints->dict[i].repeat = isRepeat` -/
def setRepeat (st : DictState) (i : ℕ) (isRepeat : Bool) : DictState :=
  {st with dict := Function.update st.dict i {st.dict i with isRepeat := isRepeat}}

/-- `imprints->dict[i].cnt++` -/
def incCnt (st : DictState) (i : ℕ) : DictState := st.setCnt i (Encoder.countUp (st.dict i)).cnt

/-- `imprints->dict[dcnt-1]` -/
def last (st : DictState) : DictLine := st.dict (st.dcnt-1)

/-- The branch for one more line with the mask of the line before it. -/
def repeatLast (st : DictState) : DictState :=
  let st :=
    if st.last.isRepeat = false then
      let st :=
        if st.last.cnt > 1 then
          let st := st.setCnt (st.dcnt-1) (st.last.cnt-1)
          let st := {st with dcnt := st.dcnt+1}
          st.setCnt (st.dcnt-1) 1
        else st
      st.setRepeat (st.dcnt-1) true
    else st
  st.incCnt (st.dcnt-1)

/-- The branch for a new mask, which has no limit on the count. -/
def newImprint (st : DictState) (mask : Mask) : DictState :=
  let st := {st with im := Function.update st.im st.icnt mask, icnt := st.icnt+1}
  if st.dcnt > 0 ∧ st.last.isRepeat = false then st.incCnt (st.dcnt-1)
  else
    let st := st.setCnt st.dcnt 1
    let st := st.setRepeat st.dcnt false
    {st with dcnt := st.dcnt+1}

/-- The code at the end of a cache line; a read of `dict[-1]` yields `none`. -/
def addLine (st : DictState) (mask : Mask) : Option DictState :=
  if st.prvmask = mask then
    if st.dcnt = 0 then none
    else if st.last.cnt < impsMaxCnt-1 then some st.repeatLast
    else some {st.newImprint mask with prvmask := mask}
  else some {st.newImprint mask with prvmask := mask}

/-- The copy of this code for the last cache line. -/
def addLastLine (st : DictState) (mask : Mask) : DictState :=
  if st.prvmask = mask ∧ st.dcnt > 0 ∧ st.last.cnt < impsMaxCnt-1 then st.repeatLast
  else st.newImprint mask

/-- `imprints_create` on arrays with any contents; `dictcnt` and `impcnt` are `dcnt` and `icnt`
of the result. -/
def imprintsCreate (bins : Bins) (col : Memory) (numPoints : ℕ) (dict : ℕ → DictLine)
    (im : ℕ → Mask) : Option DictState := do
  let st := (List.range numPoints).foldl
    (tupleStep bins col fun st mask => st.bind (DictState.addLine · mask))
    (some ⟨dict,im,0,0,0#64,[]⟩,0#64)
  let writer ← st.1
  some (writer.addLastLine st.2)

/-! ## Expansion -/

/-- A line without the repeat flag consumes `cnt` imprints, and a line with it stands for `cnt`
copies of one imprint. -/
def expandLine (im : ℕ → Mask) (st : ℕ × List Mask) (line : DictLine) : ℕ × List Mask :=
  if line.isRepeat then (st.1+1,st.2 ++ List.replicate line.cnt (im st.1))
  else (st.1+line.cnt,st.2 ++ (List.range' st.1 line.cnt).map im)

/-- The number of consumed imprints and the masks of the cache lines. -/
def expand (st : DictState) : ℕ × List Mask :=
  ((List.range st.dcnt).map st.dict).foldl (expandLine st.im) (0,[])

/-! ## The written parts of the arrays -/

def toEncoder (st : DictState) : Encoder where
  dict := (List.range st.dcnt).map st.dict
  imps := (List.range st.icnt).map st.im
  prvmask := st.prvmask

theorem map_range_succ {α : Type*} (f : ℕ → α) (n : ℕ) :
    (List.range (n+1)).map f = (List.range n).map f ++ [f n] := by
  rw [List.range_succ,List.map_append]
  rfl

theorem map_range_update {α : Type*} (f : ℕ → α) {n i : ℕ} (h : n ≤ i) (v : α) :
    (List.range n).map (Function.update f i v) = (List.range n).map f := by
  apply List.map_congr_left
  intro j hj
  have := List.mem_range.mp hj
  exact Function.update_of_ne (by omega) _ _

theorem getLast?_toEncoder (st : DictState) :
    st.toEncoder.dict.getLast? = if st.dcnt = 0 then none else some st.last := by
  cases h : st.dcnt with
  | zero => simp [toEncoder,h]
  | succ n => simp [toEncoder,h,map_range_succ,last]

theorem toEncoder_repeatLast (st : DictState) (h : st.dcnt ≠ 0) :
    st.repeatLast.toEncoder =
      {st.toEncoder with dict := Encoder.repeatLast st.toEncoder.dict st.last} := by
  obtain ⟨n,hn⟩ := Nat.exists_eq_succ_of_ne_zero h
  obtain ⟨dict,im,dcnt,icnt,prvmask,stored⟩ := st
  simp only at hn
  subst hn
  by_cases hrepeat : (dict n).isRepeat = false
  · by_cases hcnt : (dict n).cnt > 1
    · simp [repeatLast,toEncoder,Encoder.repeatLast,last,incCnt,setCnt,setRepeat,hrepeat,hcnt,
        map_range_succ,map_range_update,Encoder.countUp]
    · simp [repeatLast,toEncoder,Encoder.repeatLast,last,incCnt,setCnt,setRepeat,hrepeat,hcnt,
        map_range_succ,map_range_update,Encoder.countUp]
  · simp [repeatLast,toEncoder,Encoder.repeatLast,last,incCnt,setCnt,hrepeat,
      map_range_succ,map_range_update,Encoder.countUp]

theorem toEncoder_newImprint (st : DictState) (mask : Mask) :
    (st.newImprint mask).toEncoder =
      ⟨Encoder.newImprint st.toEncoder.dict,st.toEncoder.imps ++ [mask],st.prvmask⟩ := by
  obtain ⟨dict,im,dcnt,icnt,prvmask,stored⟩ := st
  cases dcnt with
  | zero =>
    simp [newImprint,toEncoder,Encoder.newImprint,setCnt,setRepeat,map_range_succ,map_range_update]
  | succ n =>
    by_cases hrepeat : (dict n).isRepeat = false
    · simp [newImprint,toEncoder,Encoder.newImprint,last,incCnt,setCnt,hrepeat,map_range_succ,
        map_range_update,Encoder.countUp]
    · simp [newImprint,toEncoder,Encoder.newImprint,last,setCnt,setRepeat,hrepeat,map_range_succ,
        map_range_update]

theorem toEncoder_addLine (st : DictState) (mask : Mask) :
    (st.addLine mask).map toEncoder = st.toEncoder.addLine mask := by
  have hnew : ({st.newImprint mask with prvmask := mask} : DictState).toEncoder =
      ⟨Encoder.newImprint st.toEncoder.dict,st.toEncoder.imps ++ [mask],mask⟩ :=
    congrArg (fun e : Encoder => {e with prvmask := mask}) (toEncoder_newImprint st mask)
  have hprv : st.toEncoder.prvmask = st.prvmask := rfl
  rw [addLine,Encoder.addLine,getLast?_toEncoder,hprv]
  by_cases hsame : st.prvmask = mask
  · rw [if_pos hsame,if_pos hsame]
    by_cases hempty : st.dcnt = 0
    · rw [if_pos hempty,if_pos hempty]
      rfl
    · rw [if_neg hempty,if_neg hempty]
      by_cases hcnt : st.last.cnt < impsMaxCnt-1
      · simp only [if_pos hcnt,Option.map_some,toEncoder_repeatLast st hempty]
        rfl
      · simp only [if_neg hcnt,Option.map_some,hnew]
  · rw [if_neg hsame,if_neg hsame,Option.map_some,hnew]

theorem toEncoder_addLastLine (st : DictState) (mask : Mask) :
    (st.addLastLine mask).toEncoder = st.toEncoder.addLastLine mask := by
  have hnew := toEncoder_newImprint st mask
  have hprv : st.toEncoder.prvmask = st.prvmask := rfl
  rw [addLastLine,Encoder.addLastLine,getLast?_toEncoder,hprv]
  by_cases hempty : st.dcnt = 0
  · rw [if_pos hempty,if_neg (by omega)]
    exact hnew
  · rw [if_neg hempty]
    by_cases hsame : st.prvmask = mask ∧ st.last.cnt < impsMaxCnt-1
    · rw [if_pos ⟨hsame.1,Nat.pos_of_ne_zero hempty,hsame.2⟩,toEncoder_repeatLast st hempty]
      simp only [if_pos hsame]
      rfl
    · rw [if_neg fun h => hsame ⟨h.1,h.2.2⟩]
      simp only [if_neg hsame]
      exact hnew

/-- The written parts of the arrays are the lists of the encoder. -/
theorem imprintsCreate_toEncoder (bins : Bins) (col : Memory) (n : ℕ) (dict : ℕ → DictLine)
    (im : ℕ → Mask) :
    (imprintsCreate bins col n dict im).map (fun st =>
      (⟨bins,st.toEncoder.imps,st.toEncoder.dict⟩ : ImprintPerColumn)) =
      ElfIndex.imprintsCreate bins col n := by
  have hstep : ∀ (st : Option DictState × Mask) tid,
      tupleStep bins col (fun st mask => st.bind (Encoder.addLine · mask))
        (st.1.map toEncoder,st.2) tid =
      ((tupleStep bins col (fun st mask => st.bind (DictState.addLine · mask)) st tid).1.map
        toEncoder,
        (tupleStep bins col (fun st mask => st.bind (DictState.addLine · mask)) st tid).2) := by
    intro st tid
    unfold tupleStep
    split
    · obtain ⟨st,mask⟩ := st
      cases st with
      | none => rfl
      | some st => simp only [Option.map_some,Option.bind_some,toEncoder_addLine]
    · rfl
  have hfold : ∀ (l : List ℕ) (st : Option DictState × Mask),
      l.foldl (tupleStep bins col fun st mask => st.bind (Encoder.addLine · mask))
        (st.1.map toEncoder,st.2) = _ := fun _ _ =>
    List.foldl_hom (fun st : Option DictState × Mask => (st.1.map toEncoder,st.2)) hstep
  have hrun : (List.range n).foldl
      (tupleStep bins col fun st mask => st.bind (Encoder.addLine · mask))
      (some ⟨[],[],0#64⟩,0#64) = _ :=
    hfold (List.range n) (some ⟨dict,im,0,0,0#64,[]⟩,0#64)
  simp only [imprintsCreate,ElfIndex.imprintsCreate,hrun]
  generalize (List.range n).foldl (tupleStep bins col fun st mask =>
    st.bind (DictState.addLine · mask)) (some ⟨dict,im,0,0,0#64,[]⟩,0#64) = st
  obtain ⟨st,mask⟩ := st
  cases st with
  | none => rfl
  | some st =>
    simp only [Option.bind_eq_bind,Option.bind_some,Option.map_some,toEncoder_addLastLine]

end DictState

namespace Expands

variable {dict : List DictLine} {imps masks : List Mask}

theorem cnt_pos (h : Expands dict imps masks) : ∀ line ∈ dict, 1 ≤ line.cnt := by
  induction h with
  | nil => intro line hline; cases hline
  | literal _ new hnew ih =>
    intro line hline
    rcases List.mem_append.mp hline with hline | hline
    · exact ih line hline
    · rw [List.mem_singleton.mp hline]
      exact List.length_pos_of_ne_nil hnew
  | repeated _ mask cnt hcnt ih =>
    intro line hline
    rcases List.mem_append.mp hline with hline | hline
    · exact ih line hline
    · rw [List.mem_singleton.mp hline]
      exact hcnt

/-- The expansion consumes all imprints and yields the masks. -/
theorem foldl_expandLine (h : Expands dict imps masks) {im : ℕ → Mask}
    (him : (List.range imps.length).map im = imps) :
    dict.foldl (DictState.expandLine im) (0,[]) = (imps.length,masks) := by
  induction h with
  | nil => rfl
  | @literal dict imps masks h new hnew ih =>
    rw [List.length_append,List.range_add,List.map_append] at him
    obtain ⟨hold,hrest⟩ := List.append_inj him (by simp)
    have hnew' : (List.range' imps.length new.length).map im = new := by
      rw [List.range'_eq_map_range]
      exact hrest
    rw [List.foldl_append,ih hold,List.foldl_cons,List.foldl_nil,DictState.expandLine,
      List.length_append]
    simp only [Bool.false_eq_true,if_false,hnew']
  | @repeated dict imps masks h mask cnt hcnt ih =>
    rw [List.length_append,List.length_singleton,DictState.map_range_succ] at him
    obtain ⟨hold,hrest⟩ := List.append_inj him (by simp)
    rw [List.foldl_append,ih hold,List.foldl_cons,List.foldl_nil,DictState.expandLine,
      List.length_append]
    simp only [if_true,List.singleton_inj.mp hrest,List.length_singleton]

end Expands

namespace DictState

/-- With at most `2^24-2` cache lines the dictionary is read and written inside its array, and
it expands to the bins of all lines, whatever the borders are. -/
theorem imprintsCreate_lossless (bins : Bins) (col : Memory) {n : ℕ} (hn : 1 ≤ n)
    (hlines : (n+15)/16 ≤ 2^24-2) (dict : ℕ → DictLine) (im : ℕ → Mask) :
    ∃ st masks, imprintsCreate bins col n dict im = some st ∧ st.expand = (st.icnt,masks) ∧
      masks.length = (n+15)/16 ∧
      (∀ line < (n+15)/16, ∀ bin, (masks.getD line 0#64).getLsbD bin = true ↔
        ∃ tid, 16*line ≤ tid ∧ tid < 16*line+16 ∧ tid < n ∧ getBin64 (col tid) bins = bin) ∧
      ∀ i < st.dcnt, 1 ≤ (st.dict i).cnt := by
  obtain ⟨imprints,hcreate,-,hexpands⟩ := imprintsCreate_expands bins col hn hlines
  rw [← imprintsCreate_toEncoder bins col n dict im] at hcreate
  obtain ⟨st,hst,rfl⟩ := Option.map_eq_some_iff.mp hcreate
  have hlen : st.toEncoder.imps.length = st.icnt := by
    rw [toEncoder,List.length_map,List.length_range]
  refine ⟨st,lineMasks bins col n,hst,?_,length_lineMasks,?_,?_⟩
  · have hrun : st.expand = (st.toEncoder.imps.length,_) :=
      hexpands.foldl_expandLine (by rw [hlen]; rfl)
    rwa [hlen] at hrun
  · intro line hline bin
    have hlt : line < (lineMasks bins col n).length := by rwa [length_lineMasks]
    rw [List.getD_eq_getElem _ _ hlt]
    simp only [lineMasks,List.getElem_map,List.getElem_range,getLsbD_lineMask]
    constructor
    · rintro ⟨tid,hlo,hhi,hbin⟩
      exact ⟨tid,hlo,by omega,by omega,hbin⟩
    · rintro ⟨tid,hlo,hhi,hlast,hbin⟩
      exact ⟨tid,hlo,by omega,hbin⟩
  · intro i hi
    exact hexpands.cnt_pos _ (List.mem_map.mpr ⟨i,List.mem_range.mpr hi,rfl⟩)

/-- Three lines of 40 values, the first two with the same bins. -/
theorem imprintsCreate_lossless_lines :
    ∃ st masks, imprintsCreate (fun w => w) (fun tid => tid/32) 40 (fun _ => ⟨5,true⟩)
        (fun _ => 7#64) = some st ∧ st.expand = (st.icnt,masks) ∧ masks.length = 3 ∧
      ∀ i < st.dcnt, 1 ≤ (st.dict i).cnt := by
  obtain ⟨st,masks,hst,hexpand,hlen,-,hcnt⟩ := imprintsCreate_lossless (fun w => w)
    (fun tid => tid/32) (show 1 ≤ 40 by decide) (by decide) (fun _ => ⟨5,true⟩) (fun _ => 7#64)
  exact ⟨st,masks,hst,hexpand,hlen,hcnt⟩

end DictState
end ElfIndex
