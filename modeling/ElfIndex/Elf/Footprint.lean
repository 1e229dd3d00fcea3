import ElfIndex.Elf.EndToEnd
import ElfIndex.SortingEngine.InPlace

/-! # The words that the build writes

The builder decides nothing by a word of the ELF, so the indices it writes are a function of
its slots. A footprint is the list of these indices with the write pointer. The footprint of
a build goes on where a read of the builder is undefined, with any tuple identifier and any
slots of the same number.
-/
namespace ElfIndex
open WordMemory SortingEngine

/-- What the calls of the sorting engine leave in the slots: the result where there is one,
and any slots of the same number where the run is undefined. -/
structure Arrangement (b : Builder) where
  arrange : ℕ → List TID → List TID
  length_arrange : ∀ dim data, (arrange dim data).length = data.length
  arrange_sort : ∀ {dim data out}, sort b.pastEnd dim b.store.numDim b.maxDims data = some out →
    arrange dim data = out

/-- The engine leaves the slots alone when it is undefined. -/
def Arrangement.still (b : Builder) : Arrangement b where
  arrange := fun dim data => (sort b.pastEnd dim b.store.numDim b.maxDims data).getD data
  length_arrange := by
    intro dim data
    cases h : sort b.pastEnd dim b.store.numDim b.maxDims data with
    | none => rfl
    | some out => exact sort_length h
  arrange_sort := fun h => by rw [h,Option.getD_some]

structure Footprint where
  written : List ℕ
  writePointer : ℕ

/-- The variables of the loop that writes the values of a dimension list. -/
structure ScanFootprint where
  foot : Footprint
  begin : ℕ
  cur : ℕ
  lists : List ListEntry

namespace Footprint

/-- `ELF[position] = ..`, and also `ELF[position] |= ..` -/
def write (f : Footprint) (position : ℕ) : Footprint :=
  {f with written := f.written ++ [position]}

def set64 (f : Footprint) (position : ℕ) : Footprint := (f.write position).write (position+1)

/-- `writePointer += words` -/
def advance (f : Footprint) (words : ℕ) : Footprint := {f with writePointer := f.writePointer+words}

/-- `memcpy(&(ELF[writePointer]), .., sizeof (uint32_t)*words)` -/
def memcpy (f : Footprint) (words : ℕ) : Footprint :=
  {f with written := f.written ++ List.range' f.writePointer words}

def linearizeElfMono (numDim : ℕ) (f : Footprint) (dimension : ℕ) : Footprint :=
  let f := (f.memcpy (numDim-dimension)).advance (numDim-dimension)
  (f.write f.writePointer).advance 1

/-- Write `cur` and leave room for its pointer. -/
def close (st : ScanFootprint) (i : ℕ) : ScanFootprint :=
  {st with
    foot := (st.foot.write st.foot.writePointer).advance 3
    lists := st.lists ++ [⟨st.foot.writePointer+1,st.begin,i-st.begin⟩]}

/-- The loop over `data_array[i..]` with the step behind it. -/
def scanLists (dim : ℕ) : List TID → ℕ → ScanFootprint → ScanFootprint
  | [], i, st =>
    let st := close st i
    {st with foot := st.foot.write (st.foot.writePointer-3)}
  | t :: ts, i, st =>
    if st.cur ≠ t.key dim then
      scanLists dim ts (i+1) {close st i with begin := i, cur := t.key dim}
    else scanLists dim ts (i+1) st

/-- One list of a dimension before the last one. -/
def writeList (numDim : ℕ) (create : List TID → Footprint → Footprint) (dim : ℕ)
    (data : List TID) (f : Footprint) (l : ListEntry) : Footprint :=
  let temp := (data.drop l.begin).take l.length
  let f := f.set64 l.nextListPosition
  if l.length > 1 then create temp f
  else
    let f := f.linearizeElfMono numDim (dim+1)
    f.write (f.writePointer-1)

/-- The loop over the points of one list of the last dimension. -/
def writePoints (numDim dim position : ℕ) : List TID → Footprint → Footprint
  | [], f => f
  | _ :: ts, f =>
    writePoints numDim dim position ts ((f.set64 position).linearizeElfMono numDim (dim+1))

/-- One list of the last dimension. -/
def writeLastList (numDim dim : ℕ) (data : List TID) (f : Footprint) (l : ListEntry) : Footprint :=
  let points := (data.drop l.begin).take l.length
  let f := writePoints numDim dim l.nextListPosition points f
  f.write (f.writePointer-1)

variable {b : Builder} (a : Arrangement b)

def createDimListSorting (data : List TID) (dim : ℕ) (f : Footprint) : Footprint :=
  let data := a.arrange dim data
  let st := scanLists dim (data.drop 1) 1 ⟨f,0,(data.headD ⟨0,[]⟩).key dim,[]⟩
  if dim+1 < b.store.numDim then
    st.lists.foldl (writeList b.store.numDim
      (fun temp f => createDimListSorting temp (dim+1) f) dim data) st.foot
  else st.lists.foldl (writeLastList b.store.numDim dim data) st.foot
termination_by b.store.numDim-dim

/-- The list of one root slot. -/
def writeRoot (data : List TID) (begin size : ℕ) (f : Footprint) (pos : ℕ) : Footprint :=
  let temp := (data.drop begin).take size
  let f := f.set64 (pos*2)
  if size > 1 then createDimListSorting a temp 1 f else f.linearizeElfMono b.store.numDim 1

/-- The loop over `data_array[i..]` with the step behind it. -/
def scanRoot (data : List TID) : List TID → (i begin cur pos : ℕ) → Footprint → Footprint
  | [], i, begin, _, pos, f => writeRoot a data begin (i-begin) f pos
  | t :: ts, i, begin, cur, pos, f =>
    if cur ≠ t.key 0 then
      scanRoot data ts (i+1) i (t.key 0) (pos+1) (writeRoot a data begin (i-begin) f pos)
    else scanRoot data ts (i+1) begin cur pos f

/-- All words that `buildFromDataSorting` writes, and the write pointer it returns. -/
def buildFromDataSorting : Footprint :=
  let data := a.arrange 0 b.dataArray
  let maxFirstDim := (data.getD (b.store.numPoints-1) ⟨0,[]⟩).key 0
  scanRoot a data (data.drop 1) 1 0 ((data.headD ⟨0,[]⟩).key 0) 0 ⟨[],(maxFirstDim+1)*2%2^32⟩

/-! ## The footprint of a run of the builder -/

/-- A run that started with `elf` has written at most the footprint. -/
structure Tracks (elf : Memory) (f : Footprint) (elf' : Memory) (writePointer : ℕ) : Prop where
  writePointer : writePointer = f.writePointer
  unchanged : ∀ p, p ∉ f.written → elf' p = elf p

variable {elf elf' : Memory} {f : Footprint} {wp : ℕ} {dim numDim : ℕ} {data : List TID}

theorem Tracks.write (h : Tracks elf f elf' wp) (position value : ℕ) :
    Tracks elf (f.write position) (WordMemory.write elf' position value) wp := by
  refine ⟨h.writePointer,?_⟩
  intro p hp
  simp only [Footprint.write,List.mem_append,List.mem_singleton,not_or] at hp
  rw [write_other hp.2,h.unchanged p hp.1]

theorem Tracks.set64 (h : Tracks elf f elf' wp) (position value : ℕ) :
    Tracks elf (f.set64 position) (WordMemory.set64 elf' position value) wp :=
  (h.write position _).write (position+1) _

theorem Tracks.flagWord (h : Tracks elf f elf' wp) (position : ℕ) :
    Tracks elf (f.write position) (ElfIndex.flagWord elf' position) wp := h.write position _

theorem Tracks.memcpy (h : Tracks elf f elf' wp) {words : ℕ} (vs : List ℕ)
    (hlen : vs.length ≤ words) : Tracks elf (f.memcpy words) (writeAll elf' wp vs) wp := by
  refine ⟨h.writePointer,?_⟩
  intro p hp
  simp only [Footprint.memcpy,List.mem_append,List.mem_range'_1,not_or,← h.writePointer] at hp
  rw [writeAll_other vs (by omega),h.unchanged p hp.1]

theorem Tracks.advance (h : Tracks elf f elf' wp) (words : ℕ) :
    Tracks elf (f.advance words) elf' (wp+words) :=
  ⟨congrArg (·+words) h.writePointer,h.unchanged⟩

theorem Tracks.linearizeElfMono (h : Tracks elf f elf' wp) {tid : ℕ} {r : Memory × ℕ}
    (hrun : b.linearizeElfMono elf' wp tid dim = some r) :
    Tracks elf (f.linearizeElfMono b.store.numDim dim) r.1 r.2 := by
  simp only [Builder.linearizeElfMono,Option.bind_eq_bind,Option.bind_eq_some_iff] at hrun
  obtain ⟨point,-,hr⟩ := hrun
  cases hr
  have hcopy := (h.memcpy ((point.drop dim).take (b.store.numDim-dim))
    (List.length_take_le _ _)).advance (b.store.numDim-dim)
  have hwrite := hcopy.write (wp+(b.store.numDim-dim)) tid
  simp only [Footprint.linearizeElfMono,← hcopy.writePointer]
  exact hwrite.advance 1

theorem Tracks.close {st : ScanFootprint} (h : Tracks elf st.foot elf' wp) (i : ℕ) :
    Tracks elf (close st i).foot (WordMemory.write elf' wp st.cur) (wp+3) := by
  have hw := (h.write wp st.cur).advance 3
  rwa [h.writePointer] at hw ⊢

theorem Tracks.scanLists (st : ScanFootprint) (h : Tracks elf st.foot elf' wp) (dim : ℕ)
    (ts : List TID) (i : ℕ) :
    let run := ElfIndex.scanLists dim ts i ⟨elf',wp,st.begin,st.cur,st.lists⟩
    Tracks elf (scanLists dim ts i st).foot run.elf run.writePointer ∧
      run.lists = (scanLists dim ts i st).lists := by
  intro run
  induction ts generalizing st elf' wp i with
  | nil =>
    have hclose := h.close i
    refine ⟨?_,?_⟩
    · have hflag := hclose.flagWord (wp+3-3)
      unfold scanLists
      simp only [← hclose.writePointer]
      exact hflag
    · simp only [run,ElfIndex.scanLists,ListScan.close,scanLists,Footprint.close,h.writePointer]
  | cons t ts ih =>
    by_cases hcur : st.cur = t.key dim
    · have hstay := ih st h (i+1)
      simp only [run,ElfIndex.scanLists,scanLists,ne_eq,hcur,not_true_eq_false,if_false]
      rwa [hcur] at hstay
    · have hnext := ih {Footprint.close st i with begin := i, cur := t.key dim} (h.close i) (i+1)
      simp only [run,ElfIndex.scanLists,scanLists,ne_eq,hcur,not_false_eq_true,if_true]
      simp only [Footprint.close,← h.writePointer] at hnext ⊢
      exact hnext

theorem Tracks.forLists {body : ListEntry → Memory → ℕ → Option (Memory × ℕ)}
    {step : Footprint → ListEntry → Footprint}
    (hbody : ∀ l f elf' wp r, Tracks elf f elf' wp → body l elf' wp = some r →
      Tracks elf (step f l) r.1 r.2)
    (h : Tracks elf f elf' wp) {ls : List ListEntry} {r : Memory × ℕ}
    (hrun : forLists body ls elf' wp = some r) : Tracks elf (ls.foldl step f) r.1 r.2 := by
  induction ls generalizing f elf' wp with
  | nil =>
    cases hrun
    exact h
  | cons l ls ih =>
    simp only [ElfIndex.forLists,Option.bind_eq_bind,Option.bind_eq_some_iff] at hrun
    obtain ⟨mid,hmid,hrun⟩ := hrun
    exact ih (hbody l f elf' wp mid h hmid) hrun

theorem Tracks.writeList (h : Tracks elf f elf' wp)
    {create : List TID → Memory → ℕ → Option (Memory × ℕ)}
    {footprint : List TID → Footprint → Footprint}
    (hcreate : ∀ temp f elf' wp r, Tracks elf f elf' wp → create temp elf' wp = some r →
      Tracks elf (footprint temp f) r.1 r.2) {l : ListEntry} {r : Memory × ℕ}
    (hrun : b.writeList create dim data l elf' wp = some r) :
    Tracks elf (writeList b.store.numDim footprint dim data f l) r.1 r.2 := by
  unfold Builder.writeList at hrun
  simp only [Footprint.writeList]
  split at hrun
  · rename_i hlen
    rw [if_pos hlen]
    exact hcreate _ _ _ _ r (h.set64 _ _) hrun
  · rename_i hlen
    rw [if_neg hlen]
    simp only [Option.bind_eq_bind,Option.bind_eq_some_iff] at hrun
    obtain ⟨first,-,mid,hmid,hr⟩ := hrun
    cases hr
    have hmono := (h.set64 l.nextListPosition _).linearizeElfMono hmid
    rw [← hmono.writePointer]
    exact hmono.flagWord _

theorem Tracks.writePoints {position : ℕ} {ts : List TID} (h : Tracks elf f elf' wp)
    {r : Memory × ℕ} (hrun : b.writePoints dim position ts elf' wp = some r) :
    Tracks elf (writePoints b.store.numDim dim position ts f) r.1 r.2 := by
  induction ts generalizing f elf' wp with
  | nil =>
    cases hrun
    exact h
  | cons t ts ih =>
    simp only [Builder.writePoints,Option.bind_eq_bind,Option.bind_eq_some_iff] at hrun
    obtain ⟨mid,hmid,hrun⟩ := hrun
    exact ih ((h.set64 position _).linearizeElfMono hmid) hrun

theorem Tracks.writeLastList (h : Tracks elf f elf' wp) {l : ListEntry} {r : Memory × ℕ}
    (hrun : b.writeLastList dim data l elf' wp = some r) :
    Tracks elf (writeLastList b.store.numDim dim data f l) r.1 r.2 := by
  simp only [Builder.writeLastList,Option.bind_eq_bind,Option.bind_eq_some_iff] at hrun
  obtain ⟨mid,hmid,hr⟩ := hrun
  cases hr
  have hpoints := h.writePoints hmid
  simp only [Footprint.writeLastList,← hpoints.writePointer]
  exact hpoints.flagWord _

theorem headD_eq {ts : List TID} {t d : TID} (h : ts[0]? = some t) : ts.headD d = t := by
  cases ts with
  | nil => cases h
  | cons u ts => exact Option.some.inj h

theorem Tracks.createDimListSorting (h : Tracks elf f elf' wp) {r : Memory × ℕ}
    (hrun : b.createDimListSorting data dim elf' wp = some r) :
    Tracks elf (createDimListSorting a data dim f) r.1 r.2 := by
  induction hk : b.store.numDim-dim using Nat.strongRecOn generalizing dim data f elf' wp r with
  | ind k ih =>
    rw [Builder.createDimListSorting] at hrun
    simp only [Option.bind_eq_bind,Option.bind_eq_some_iff] at hrun
    obtain ⟨out,hsort,first,hfirst,hrun⟩ := hrun
    obtain ⟨hscan,hlists⟩ := h.scanLists ⟨f,0,first.key dim,[]⟩ dim (out.drop 1) 1
    rw [Footprint.createDimListSorting]
    simp only [a.arrange_sort hsort,headD_eq hfirst]
    rw [← hlists]
    split at hrun
    · rename_i hnext
      rw [if_pos hnext]
      refine hscan.forLists ?_ hrun
      intro l f elf' wp r h hr
      refine h.writeList ?_ hr
      intro temp f elf' wp r h hr
      exact ih (b.store.numDim-(dim+1)) (by omega) h hr rfl
    · rename_i hnext
      rw [if_neg hnext]
      refine hscan.forLists ?_ hrun
      intro l f elf' wp r h hr
      exact h.writeLastList hr

theorem Tracks.writeRoot (h : Tracks elf f elf' wp) {begin size first pos : ℕ} {r : Memory × ℕ}
    (hrun : b.writeRoot data begin size first elf' pos wp = some r) :
    Tracks elf (writeRoot a data begin size f pos) r.1 r.2 := by
  unfold Builder.writeRoot at hrun
  simp only [Footprint.writeRoot]
  split at hrun
  · rename_i hsize
    rw [if_pos hsize]
    exact (h.set64 _ _).createDimListSorting a hrun
  · rename_i hsize
    rw [if_neg hsize]
    simp only [Option.bind_eq_bind,Option.bind_eq_some_iff] at hrun
    obtain ⟨slot,-,hrun⟩ := hrun
    exact (h.set64 _ _).linearizeElfMono hrun

theorem Tracks.scanRoot (h : Tracks elf f elf' wp) {ts : List TID} {i begin cur pos : ℕ}
    {r : Memory × ℕ} (hrun : b.scanRoot data ts i begin cur pos elf' wp = some r) :
    Tracks elf (scanRoot a data ts i begin cur pos f) r.1 r.2 := by
  induction ts generalizing i begin cur pos f elf' wp with
  | nil => exact h.writeRoot a hrun
  | cons t ts ih =>
    unfold Builder.scanRoot at hrun
    unfold Footprint.scanRoot
    split at hrun
    · rename_i hcur
      simp only [Option.bind_eq_bind,Option.bind_eq_some_iff] at hrun
      obtain ⟨mid,hmid,hrun⟩ := hrun
      rw [if_pos hcur]
      exact ih (h.writeRoot a hmid) hrun
    · rename_i hcur
      rw [if_neg hcur]
      exact ih h hrun

/-- A finished build returns the write pointer of its footprint and leaves every word outside
the footprint alone. -/
theorem buildFromDataSorting_tracks {e : Elf}
    (hrun : b.buildFromDataSorting elf = some (e,wp)) :
    Tracks elf (buildFromDataSorting a) e.elf wp := by
  simp only [Builder.buildFromDataSorting,Option.bind_eq_bind,Option.bind_eq_some_iff] at hrun
  obtain ⟨out,hsort,last,hlast,first,hfirst,mid,hmid,hr⟩ := hrun
  cases hr
  have hstart : Tracks elf ⟨[],(last.key 0+1)*2%2^32⟩ elf ((last.key 0+1)*2%2^32) :=
    ⟨rfl,fun _ _ => rfl⟩
  have hlast' : out.getD (b.store.numPoints-1) ⟨0,[]⟩ = last := by
    rw [List.getD_eq_getElem?_getD,hlast,Option.getD_some]
  simp only [buildFromDataSorting,a.arrange_sort hsort,headD_eq hfirst,hlast']
  exact hstart.scanRoot a hmid

/-! ## The room that the footprint takes -/

/-- Every written word is below the write pointer. -/
def Below (f : Footprint) : Prop := ∀ p ∈ f.written, p < f.writePointer

/-- The step from `f` to `f'` writes below the write pointer and leaves `left` of its `room`;
both count half words. -/
structure Grows (f f' : Footprint) (left room : ℕ) : Prop where
  le : f.writePointer ≤ f'.writePointer
  below : f.Below → f'.Below
  cost : 2*f'.writePointer+left ≤ 2*f.writePointer+room

variable {f' f'' : Footprint} {left left' room room' : ℕ}

theorem Grows.trans (h : Grows f f' left room) (h' : Grows f' f'' left' room') :
    Grows f f'' (left+left') (room+room') := by
  refine ⟨h.le.trans h'.le,fun hf => h'.below (h.below hf),?_⟩
  have hcost := h.cost
  have hcost' := h'.cost
  omega

theorem Grows.weaken (h : Grows f f' left room) (hroom : room+left' ≤ room'+left) :
    Grows f f' left' room' := by
  refine ⟨h.le,h.below,?_⟩
  have hcost := h.cost
  omega

theorem write_grows {position : ℕ} (h : position < f.writePointer) :
    Grows f (f.write position) 0 0 := by
  refine ⟨le_rfl,?_,le_rfl⟩
  intro hf p hp
  rcases List.mem_append.mp hp with hp | hp
  · exact hf p hp
  · rw [List.mem_singleton.mp hp]
    exact h

theorem set64_grows {position : ℕ} (h : position+2 ≤ f.writePointer) :
    Grows f (f.set64 position) 0 0 :=
  (write_grows (Nat.lt_of_succ_lt h)).trans (write_grows h)

theorem linearizeElfMono_grows (numDim : ℕ) (f : Footprint) (dim : ℕ) :
    Grows f (f.linearizeElfMono numDim dim) 0 (2*(numDim-dim+1)) := by
  have hwp : (f.linearizeElfMono numDim dim).writePointer = f.writePointer+(numDim-dim)+1 := rfl
  refine ⟨by omega,?_,by omega⟩
  intro hf p hp
  rw [hwp]
  rcases List.mem_append.mp hp with hp | hp
  · rcases List.mem_append.mp hp with hp | hp
    · have := hf p hp
      omega
    · have := (List.mem_range'_1.mp hp).2
      omega
  · have : p = f.writePointer+(numDim-dim) := List.mem_singleton.mp hp
    omega

theorem close_below {st : ScanFootprint} (h : st.foot.Below) (i : ℕ) : (close st i).foot.Below := by
  intro p hp
  change p < st.foot.writePointer+3
  rcases List.mem_append.mp hp with hp | hp
  · have := h p hp
    omega
  · have : p = st.foot.writePointer := List.mem_singleton.mp hp
    omega

theorem scanLists_below (st : ScanFootprint) (h : st.foot.Below) (ts : List TID) (i : ℕ) :
    (scanLists dim ts i st).foot.Below := by
  induction ts generalizing st i with
  | nil =>
    have hclose := close_below h i
    refine (write_grows ?_).below hclose
    change st.foot.writePointer+3-3 < st.foot.writePointer+3
    omega
  | cons t ts ih =>
    unfold scanLists
    split
    · exact ih {close st i with begin := i, cur := t.key dim} (close_below h i) (i+1)
    · exact ih st h (i+1)

/-- The scan takes three words for each group. -/
theorem scanLists_grows (dim : ℕ) (f : Footprint) (t : TID) (ts : List TID) :
    let st := scanLists dim ts 1 ⟨f,0,t.key dim,[]⟩
    let gs := groupsFrom dim (t.key dim) [t] ts
    Grows f st.foot 0 (6*gs.length) ∧ st.lists = entriesFrom f.writePointer 0 gs ∧
      st.foot.writePointer = f.writePointer+3*gs.length := by
  intro st gs
  have htrack : Tracks (fun _ => 0) f (fun _ => 0) f.writePointer := ⟨rfl,fun _ _ => rfl⟩
  obtain ⟨hscan,hlists⟩ := htrack.scanLists ⟨f,0,t.key dim,[]⟩ dim ts 1
  obtain ⟨hwp,hentries,-,-⟩ := ElfIndex.scanLists_spec [t] ts 1
    ⟨fun _ => 0,f.writePointer,0,t.key dim,[]⟩ (List.cons_ne_nil _ _)
    (fun u hu => by rw [List.mem_singleton.mp hu]) rfl
  have hpointer : st.foot.writePointer = f.writePointer+3*gs.length :=
    hscan.writePointer.symm.trans hwp
  exact ⟨⟨by omega,fun hf => scanLists_below ⟨f,0,t.key dim,[]⟩ hf ts 1,by omega⟩,hlists.symm.trans hentries,hpointer⟩

/-- Lists that leave the room of their value and their pointer pay for the scan. -/
theorem foldl_entries_grows {step : Footprint → ListEntry → Footprint} {c : ℕ}
    (gs : List (List TID)) (hstep : ∀ g ∈ gs, ∀ ptr begin f, (data.drop begin).take g.length = g →
      ptr+2 ≤ f.writePointer → Grows f (step f ⟨ptr,begin,g.length⟩) 6 (g.length*c))
    {pos begin : ℕ} (f : Footprint) (hdata : data.drop begin = gs.flatten)
    (hwp : pos+3*gs.length ≤ f.writePointer) :
    Grows f ((entriesFrom pos begin gs).foldl step f) (6*gs.length) (gs.flatten.length*c) := by
  induction gs generalizing pos begin f with
  | nil => exact ⟨le_rfl,id,by simp [entriesFrom]⟩
  | cons g gs ih =>
    simp only [List.length_cons] at hwp
    have htake : (data.drop begin).take g.length = g := take_front hdata
    have hrest : data.drop (begin+g.length) = gs.flatten := drop_front hdata
    have hfirst := hstep g List.mem_cons_self (pos+1) begin f htake (by omega)
    have hle := hfirst.le
    have htail := ih (fun h hh => hstep h (List.mem_cons_of_mem _ hh))
      (step f ⟨pos+1,begin,g.length⟩) hrest (show pos+3+3*gs.length ≤ _ by omega)
    refine (hfirst.trans htail).weaken ?_
    simp only [List.length_cons,List.flatten_cons,List.length_append,Nat.add_mul]
    omega

theorem writeList_grows {create : List TID → Footprint → Footprint} {g : List TID} {ptr begin : ℕ}
    (hnext : dim+1 < numDim) (hg : g ≠ []) (htake : (data.drop begin).take g.length = g)
    (hptr : ptr+2 ≤ f.writePointer)
    (hcreate : ∀ f, Grows f (create g f) 0 (g.length*(3*(numDim-(dim+1))+5))) :
    Grows f (writeList numDim create dim data f ⟨ptr,begin,g.length⟩) 6
      (g.length*(3*(numDim-dim)+5)) := by
  have hset := set64_grows hptr
  simp only [writeList,htake]
  split
  · rename_i hlen
    refine (hset.trans (hcreate _)).weaken ?_
    have hroom : 3*(numDim-dim)+5 = 3*(numDim-(dim+1))+5+3 := by omega
    rw [hroom,Nat.mul_add g.length (3*(numDim-(dim+1))+5) 3]
    omega
  · rename_i hlen
    have hone : g.length = 1 := by
      have := List.length_pos_of_ne_nil hg
      omega
    have hmono := hset.trans (linearizeElfMono_grows numDim (f.set64 ptr) (dim+1))
    have hle := hmono.le
    refine (hmono.trans (write_grows (by omega))).weaken ?_
    rw [hone]
    omega

theorem writePoints_grows {position : ℕ} (hlast : numDim ≤ dim+1) (ts : List TID) (f : Footprint)
    (hptr : position+2 ≤ f.writePointer) :
    Grows f (writePoints numDim dim position ts f) 0 (2*ts.length) := by
  induction ts generalizing f with
  | nil => exact ⟨le_rfl,id,le_rfl⟩
  | cons t ts ih =>
    have hpoint := (set64_grows hptr).trans
      (linearizeElfMono_grows numDim (f.set64 position) (dim+1))
    have hle := hpoint.le
    refine (hpoint.trans (ih _ (by omega))).weaken ?_
    rw [List.length_cons]
    omega

theorem writeLastList_grows {g : List TID} {ptr begin : ℕ} (hdim : dim < numDim)
    (hlast : ¬ dim+1 < numDim) (hg : g ≠ []) (htake : (data.drop begin).take g.length = g)
    (hptr : ptr+2 ≤ f.writePointer) :
    Grows f (writeLastList numDim dim data f ⟨ptr,begin,g.length⟩) 6
      (g.length*(3*(numDim-dim)+5)) := by
  have hpoints := writePoints_grows (Nat.le_of_not_lt hlast) g f hptr
  have hle := hpoints.le
  have hpos := List.length_pos_of_ne_nil hg
  simp only [writeLastList,htake]
  refine (hpoints.trans (write_grows (by omega))).weaken ?_
  have hroom : 3*(numDim-dim)+5 = 8 := by omega
  rw [hroom]
  omega

theorem groupsFrom_group_ne_nil {cur : ℕ} {group ts : List TID} (hne : group ≠ []) :
    ∀ g ∈ groupsFrom dim cur group ts, g ≠ [] := by
  induction ts generalizing cur group with
  | nil =>
    intro g hg
    rw [List.mem_singleton.mp hg]
    exact hne
  | cons t ts ih =>
    unfold groupsFrom
    split
    · intro g hg
      rcases List.mem_cons.mp hg with rfl | hg
      · exact hne
      · exact ih (List.cons_ne_nil _ _) g hg
    · exact ih (by simp)

/-- A dimension list of `n` slots takes less than three words for each two slots and column. -/
theorem createDimListSorting_grows (hdim : dim < b.store.numDim) (hne : data ≠ [])
    (f : Footprint) : Grows f (createDimListSorting a data dim f) 0
      (data.length*(3*(b.store.numDim-dim)+5)) := by
  induction hk : b.store.numDim-dim using Nat.strongRecOn generalizing dim data f with
  | ind k ih =>
    have hlen := a.length_arrange dim data
    have hout : a.arrange dim data ≠ [] := by
      intro he
      rw [he,List.length_nil] at hlen
      exact hne (List.length_eq_zero_iff.mp hlen.symm)
    obtain ⟨t,ts,hts⟩ := List.exists_cons_of_ne_nil hout
    have hflat : (groupsFrom dim (t.key dim) [t] ts).flatten = t :: ts :=
      groupsFrom_flatten (t.key dim) [t] ts
    have hgroup : ∀ g ∈ groupsFrom dim (t.key dim) [t] ts, g ≠ [] :=
      groupsFrom_group_ne_nil (List.cons_ne_nil _ _)
    obtain ⟨hscan,hlists,hwp⟩ := scanLists_grows dim f t ts
    have hsize : data.length = (groupsFrom dim (t.key dim) [t] ts).flatten.length := by
      rw [hflat,← hts,hlen]
    rw [createDimListSorting,hsize,← hk]
    simp only [hts,List.drop_succ_cons,List.drop_zero,List.headD_cons,hlists]
    have hfold : ∀ step : Footprint → ListEntry → Footprint,
        (∀ g ∈ groupsFrom dim (t.key dim) [t] ts, ∀ ptr begin f,
          ((t :: ts).drop begin).take g.length = g → ptr+2 ≤ f.writePointer →
          Grows f (step f ⟨ptr,begin,g.length⟩) 6 (g.length*(3*(b.store.numDim-dim)+5))) →
        Grows f (List.foldl step (scanLists dim ts 1 ⟨f,0,t.key dim,[]⟩).foot
          (entriesFrom f.writePointer 0 (groupsFrom dim (t.key dim) [t] ts))) 0
          ((groupsFrom dim (t.key dim) [t] ts).flatten.length*(3*(b.store.numDim-dim)+5)) := by
      intro step hstep
      refine (hscan.trans (foldl_entries_grows _ hstep _
        (show (t :: ts).drop 0 = _ from hflat.symm) hwp.ge)).weaken ?_
      omega
    split
    · rename_i hnext
      refine hfold _ ?_
      intro g hg ptr begin f htake hptr
      refine writeList_grows hnext (hgroup g hg) htake hptr ?_
      intro f
      exact ih (b.store.numDim-(dim+1)) (by omega) hnext (hgroup g hg) f rfl
    · rename_i hlast
      refine hfold _ ?_
      intro g hg ptr begin f htake hptr
      exact writeLastList_grows hdim hlast (hgroup g hg) htake hptr

theorem writeRoot_grows (hdim : 1 < b.store.numDim) {g : List TID} (hg : g ≠ [])
    {begin pos : ℕ} (htake : (data.drop begin).take g.length = g) (f : Footprint)
    (hpos : pos*2+2 ≤ f.writePointer) :
    Grows f (writeRoot a data begin g.length f pos) 0 (g.length*(3*b.store.numDim+2)) := by
  have hset := set64_grows hpos
  simp only [writeRoot,htake]
  split
  · have hroom : 3*(b.store.numDim-1)+5 = 3*b.store.numDim+2 := by omega
    rw [← hroom]
    exact (hset.trans (createDimListSorting_grows a hdim hg _)).weaken (by omega)
  · have hone : g.length = 1 := by
      have := List.length_pos_of_ne_nil hg
      omega
    rw [hone]
    exact (hset.trans (linearizeElfMono_grows _ _ 1)).weaken (by omega)

/-- The scan writes one root slot for each group, and all root slots are in front of the
lists. -/
theorem scanRoot_grows (hdim : 1 < b.store.numDim) {group ts : List TID} (hne : group ≠ [])
    {i begin cur pos : ℕ} (hdata : data.drop begin = group ++ ts) (hi : begin+group.length = i)
    (f : Footprint) (hpos : (pos+(groupsFrom 0 cur group ts).length)*2 ≤ f.writePointer) :
    Grows f (scanRoot a data ts i begin cur pos f) 0
      ((group ++ ts).length*(3*b.store.numDim+2)) := by
  have htake : (data.drop begin).take group.length = group := by rw [hdata,List.take_left]
  have hsize : i-begin = group.length := by omega
  induction ts generalizing group i begin cur pos f with
  | nil =>
    rw [scanRoot,hsize,List.append_nil]
    refine writeRoot_grows a hdim hne htake f ?_
    simp only [groupsFrom,List.length_singleton] at hpos
    omega
  | cons t ts ih =>
    unfold scanRoot
    unfold groupsFrom at hpos
    split at hpos
    · rename_i hcur
      rw [List.length_cons] at hpos
      have hslot : pos*2+2 ≤ f.writePointer := by omega
      have hroot := writeRoot_grows a hdim hne htake f hslot
      have hle := hroot.le
      have hrest : data.drop i = [t] ++ ts := by
        rw [← hi,← List.drop_drop,hdata,List.drop_left]
        rfl
      rw [if_pos hcur,hsize]
      refine (hroot.trans (ih (List.cons_ne_nil t []) hrest rfl _ ?_ ?_ ?_)).weaken ?_
      · omega
      · rw [hrest,List.take_left]
      · simp
      · simp only [List.length_append,List.length_cons,List.length_nil,Nat.add_mul]
        omega
    · rename_i hcur
      have hmore : group ++ t :: ts = (group ++ [t]) ++ ts := by simp
      have hlen : begin+(group ++ [t]).length = i+1 := by
        rw [List.length_append,List.length_singleton]
        omega
      rw [if_neg hcur,hmore]
      refine ih (by simp) (hdata.trans hmore) hlen f hpos ?_ (by omega)
      rw [hdata,hmore,List.take_left]

/-- `requiredInts` of `buildIndex`, which allocates two words for each. -/
def requiredInts (s : Store) : ℕ := s.numPoints*((s.numDim+3)%2^32)%2^64

theorem two_mul_requiredInts {s : Store} (h : s.numDim+3 < 2^32) :
    2*requiredInts s = 2*s.numPoints*(s.numDim+3) := by
  have hN : s.numPoints < 2^32 := Nat.lt_of_le_of_lt s.numPoints_le (by decide)
  have hprod : s.numPoints*(s.numDim+3) < 2^32*2^32 := Nat.mul_lt_mul'' hN h
  rw [requiredInts,Nat.mod_eq_of_lt h,Nat.mod_eq_of_lt (by omega),Nat.mul_assoc]

/-- Every word that the build of a store with a dense first column writes, and the returned
write pointer, stay inside the words that `buildIndex` allocates. -/
theorem buildFromDataSorting_inside (h : b.FirstColumn) :
    let f := buildFromDataSorting a
    let allocated := 2*b.store.numPoints*(b.store.numDim+3)
    (∀ p ∈ f.written, p < allocated) ∧ f.writePointer ≤ allocated ∧
      (b.store.numDim+3 < 2^32 → allocated = 2*requiredInts b.store) ∧
      ∀ elf e wp, b.buildFromDataSorting elf = some (e,wp) →
        wp = f.writePointer ∧ ∀ p, p ∉ f.written → e.elf p = elf p := by
  intro f allocated
  obtain ⟨out,gs,hroot⟩ := h.rootGroups
  obtain ⟨t,ts,hts,hgs⟩ := hroot.first
  obtain ⟨l,hlast,hkey⟩ := hroot.last
  have hlen : out.length = b.store.numPoints := by rw [← hroot.numPoints,hroot.flatten]
  have hle := hroot.length_le
  have hN : b.store.numPoints ≤ 2^31-1 := b.store.numPoints_le
  have hwp : (l.key 0+1)*2%2^32 = gs.length*2 := by omega
  have hlast' : out.getD (b.store.numPoints-1) ⟨0,[]⟩ = l := by
    rw [List.getD_eq_getElem?_getD,hlast,Option.getD_some]
  have hrun : f = scanRoot a out ts 1 0 (t.key 0) 0 ⟨[],gs.length*2⟩ := by
    simp only [f,buildFromDataSorting,a.arrange_sort hroot.sorted,hlast',hwp]
    rw [hts]
    rfl
  have hpos : (0+(groupsFrom 0 (t.key 0) [t] ts).length)*2 ≤ gs.length*2 := by
    rw [← hgs]
    omega
  have hgrows : Grows ⟨[],gs.length*2⟩ f 0 (([t] ++ ts).length*(3*b.store.numDim+2)) := by
    rw [hrun]
    have hdata : out.drop 0 = [t] ++ ts := hts
    exact scanRoot_grows a h.numDim (List.cons_ne_nil t []) hdata rfl _ hpos
  have hcost := hgrows.cost
  have hsize : ([t] ++ ts).length = b.store.numPoints := by rw [← hlen,hts]; rfl
  have hroom : f.writePointer ≤ allocated := by
    simp only [allocated,Nat.mul_assoc,Nat.mul_add]
    simp only [hsize,Nat.mul_add,Nat.mul_left_comm _ 3] at hcost
    omega
  refine ⟨?_,hroom,fun hwide => (two_mul_requiredInts hwide).symm,?_⟩
  · intro p hp
    have hbelow := hgrows.below (fun p hp => absurd hp List.not_mem_nil) p hp
    omega
  · intro elf e wp hbuild
    have htrack := buildFromDataSorting_tracks a hbuild
    exact ⟨htrack.writePointer,htrack.unchanged⟩

/-- The build of three points ends, and that of two points is undefined in its last step; both
stay inside. -/
theorem buildFromDataSorting_inside_dense :
    (∃ (e : Elf) (wp : ℕ),
      Builder.denseBuilder.buildFromDataSorting (fun _ => 7) = some (e,wp) ∧
      (∀ p ∈ (buildFromDataSorting (Arrangement.still Builder.denseBuilder)).written, p < 30) ∧
      wp = (buildFromDataSorting (Arrangement.still Builder.denseBuilder)).writePointer ∧
      wp ≤ 30 ∧ e.elf 29 = 7) ∧
    (∀ p ∈ (buildFromDataSorting (Arrangement.still Builder.stairBuilder)).written, p < 20) ∧
      (buildFromDataSorting (Arrangement.still Builder.stairBuilder)).writePointer ≤ 20 := by
  have hstair := buildFromDataSorting_inside (Arrangement.still Builder.stairBuilder)
    Builder.stairBuilder_input.firstColumn
  obtain ⟨hwritten,hend,_,htrack⟩ := buildFromDataSorting_inside
    (Arrangement.still Builder.denseBuilder) Builder.denseBuilder_input.firstColumn
  obtain ⟨⟨e,wp⟩,hbuild⟩ : ∃ r,
      Builder.denseBuilder.buildFromDataSorting (fun _ => 7) = some r :=
    Option.isSome_iff_exists.mp (by decide +kernel)
  obtain ⟨hwp,hkept⟩ := htrack (fun _ => 7) e wp hbuild
  refine ⟨⟨e,wp,hbuild,hwritten,hwp,hwp ▸ hend,hkept 29 ?_⟩,hstair.1,hstair.2.1⟩
  decide +kernel

end Footprint
end ElfIndex
