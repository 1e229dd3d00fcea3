import ElfIndex.Elf.Written
import ElfIndex.Elf.Image

/-! # The root directory that the sorting builder writes

The scan over the first column writes one root slot for each group of equal first
values. The last group is written by the step behind the loop; when it is a single
point, that step indexes the slots a second time by the start of the group, so it reads
behind the array unless the group is the whole array.
-/
namespace ElfIndex
open WordMemory SortingEngine

namespace Builder

variable {b : Builder} {data : List TID}

/-- The scan of the first column by groups. -/
def writeRoots (b : Builder) (data : List TID) :
    List (List TID) → (begin pos : ℕ) → Memory → ℕ → Option (Memory × ℕ)
  | [], _, _, _, _ => none
  | [g], begin, pos, elf, wp => b.writeRoot data begin g.length begin elf pos wp
  | g :: g' :: gs, begin, pos, elf, wp =>
    (b.writeRoot data begin g.length 0 elf pos wp).bind fun r =>
      writeRoots b data (g' :: gs) (begin+g.length) (pos+1) r.1 r.2

theorem scanRoot_eq (group ts : List TID) {i begin cur pos wp : ℕ} {elf : Memory}
    (hi : begin+group.length = i) :
    b.scanRoot data ts i begin cur pos elf wp =
      b.writeRoots data (groupsFrom 0 cur group ts) begin pos elf wp := by
  induction ts generalizing group i begin cur pos wp elf with
  | nil =>
    have hlen : i-begin = group.length := by omega
    rw [scanRoot,groupsFrom,writeRoots,hlen]
  | cons t ts ih =>
    have hlen : i-begin = group.length := by omega
    rw [scanRoot,groupsFrom]
    split
    · obtain ⟨g',gs',hg⟩ := List.exists_cons_of_ne_nil (groupsFrom_ne_nil (t.key 0) [t] ts)
      rw [hg,writeRoots,hlen,← hg]
      apply congrArg (Option.bind _)
      funext r
      rw [hi]
      exact ih [t] rfl
    · apply ih (group ++ [t])
      rw [List.length_append,List.length_singleton]
      omega

/-- One root slot whose list is long, or whose single point is indexed from its start. -/
theorem writeRoot_spec {w : ℕ} (hpast : b.pastEnd = some w)
    (hrange : ∀ d < b.store.numDim, b.maxDims d < 2^31) (hdim : 1 < b.store.numDim)
    {g : List TID} (h : b.Slots 1 g) (hne : g ≠ []) {begin first pos wp : ℕ} (mem : Memory)
    (htake : (data.drop begin).take g.length = g) (hfirst : 1 < g.length ∨ first = 0)
    (hwp : pos*2+2 ≤ wp) :
    ∃ mem' wp', b.writeRoot data begin g.length first mem pos wp = some (mem',wp') ∧
      GroupWritten b.store.numDim 0 g (pos*2) mem wp mem' wp' := by
  rcases single_or_several hne with ⟨s,rfl⟩ | hlen
  · have hf : first = 0 := by
      rcases hfirst with hfirst | hfirst
      · exact absurd hfirst (Nat.lt_irrefl 1)
      · exact hfirst
    subst hf
    obtain ⟨mem1,hrun,hgroup,_⟩ := linearizeElfMono_group (Nat.lt_of_succ_lt hdim)
      h hwp
    have hslot : data[begin+0]? = some s := by
      have h0 : ((data.drop begin).take 1)[0]? = some s := by
        rw [show (data.drop begin).take 1 = [s] from htake]
        rfl
      rwa [List.getElem?_take_of_lt Nat.one_pos,List.getElem?_drop] at h0
    refine ⟨_,_,?_,hgroup⟩
    simp only [writeRoot,List.length_singleton,gt_iff_lt,Nat.lt_irrefl,if_false,hslot,
      Option.bind_eq_bind,Option.bind_some]
    exact hrun
  · obtain ⟨mem',wp',hrun,hw⟩ := createDimListSorting_spec hpast (fun d _ => hrange d) hdim h hne
      (set64 mem (pos*2) wp) wp
    refine ⟨mem',wp',?_,list_group hdim hlen hwp hw⟩
    simp only [writeRoot,hlen,if_true,htake]
    exact hrun

/-- The slots of all groups are written when the last group is long or the only one. -/
theorem writeRoots_spec {w : ℕ} (hpast : b.pastEnd = some w)
    (hrange : ∀ d < b.store.numDim, b.maxDims d < 2^31) (hdim : 1 < b.store.numDim)
    (gs : List (List TID)) (hne : gs ≠ []) (hgs : ∀ g ∈ gs, g ≠ [] ∧ b.Slots 1 g)
    {begin pos wp : ℕ} (mem : Memory) (hdata : data.drop begin = gs.flatten)
    (hlast : 1 < (gs.getLast hne).length ∨ gs.length = 1 ∧ begin = 0)
    (hwp : (pos+gs.length)*2 ≤ wp) :
    ∃ mem' wp', b.writeRoots data gs begin pos mem wp = some (mem',wp') ∧ wp ≤ wp' ∧
      (∀ p, p < pos*2 ∨ (pos+gs.length)*2 ≤ p ∧ p < wp ∨ wp' ≤ p → mem' p = mem p) ∧
      2*(wp'+3*gs.length) ≤ 2*wp+gs.flatten.length*(3*b.store.numDim+5) ∧
      (wp' ≤ 2^62 → ∀ j g, gs[j]? = some g → ∃ (t : DimTree) (off : ℕ), off < 2^62 ∧
        get64 mem' ((pos+j)*2) = t.pointer off ∧ t.Ordered ∧
        t.StoredIn mem' b.store.numDim wp wp' 1 off ∧ t.Covers 1 g) := by
  induction gs generalizing begin pos wp mem with
  | nil => exact absurd rfl hne
  | cons g gs ih =>
    obtain ⟨hgne,hgslots⟩ := hgs g List.mem_cons_self
    have htake : (data.drop begin).take g.length = g := take_front hdata
    simp only [List.length_cons] at hwp
    cases gs with
    | nil =>
      have hfirst : 1 < g.length ∨ begin = 0 := by
        rcases hlast with h | h
        · exact Or.inl h
        · exact Or.inr h.2
      obtain ⟨mem1,wp1,hrun,hw⟩ := writeRoot_spec hpast hrange hdim hgslots hgne mem htake
        hfirst (show pos*2+2 ≤ wp by simp only [List.length_nil] at hwp; omega)
      have hle1 := hw.le
      refine ⟨mem1,wp1,hrun,hle1,?_,?_,?_⟩
      · intro p hp
        simp only [List.length_cons,List.length_nil] at hp hwp
        exact hw.frame p (by omega) (by omega) (by omega)
      · have hcost := hw.cost
        simp only [List.length_cons,List.length_nil,List.flatten_cons,List.flatten_nil,
          List.append_nil,Nat.sub_zero] at hcost ⊢
        omega
      · intro hbig j g' hj
        cases j with
        | zero =>
          cases Option.some.inj hj
          exact hw.child hbig
        | succ j => simp at hj
    | cons g' gs =>
      have hrestLast : 1 < ((g' :: gs).getLast (List.cons_ne_nil _ _)).length ∨
          (g' :: gs).length = 1 ∧ begin+g.length = 0 := by
        rcases hlast with h | h
        · rw [List.getLast_cons (List.cons_ne_nil _ _)] at h
          exact Or.inl h
        · simp at h
      have hrestData : data.drop (begin+g.length) = (g' :: gs).flatten := drop_front hdata
      simp only [List.length_cons] at hwp
      obtain ⟨mem1,wp1,hrun,hw⟩ := writeRoot_spec hpast hrange hdim hgslots hgne mem htake
        (Or.inr rfl) (show pos*2+2 ≤ wp by omega)
      have hle1 := hw.le
      obtain ⟨mem2,wp2,hrun2,hle2,hframe2,hcost2,htree2⟩ := ih (List.cons_ne_nil _ _)
        (fun h hh => hgs h (List.mem_cons_of_mem _ hh)) mem1 hrestData hrestLast
        (show (pos+1+(g' :: gs).length)*2 ≤ wp1 by simp only [List.length_cons]; omega)
      simp only [List.length_cons] at hframe2
      refine ⟨mem2,wp2,?_,hle1.trans hle2,?_,?_,?_⟩
      · rw [writeRoots,hrun,Option.bind_some]
        exact hrun2
      · intro p hp
        simp only [List.length_cons] at hp
        rw [hframe2 p (by omega)]
        exact hw.frame p (by omega) (by omega) (by omega)
      · have hcost := hw.cost
        simp only [List.length_cons,List.flatten_cons,List.length_append,Nat.add_mul,
          Nat.sub_zero] at hcost hcost2 ⊢
        omega
      · intro hbig j h hj
        cases j with
        | zero =>
          cases Option.some.inj hj
          obtain ⟨t,off,hoff,hptr,hord,hst,hcov⟩ := hw.child (hle2.trans hbig)
          have hkeep : AgreesOn mem1 mem2 wp wp1 := fun p hp hp' => hframe2 p (by omega)
          refine ⟨t,off,hoff,?_,hord,(hst.congr hkeep).mono le_rfl hle2,hcov⟩
          rw [Nat.add_zero,get64_congr (hframe2 _ (by omega)) (hframe2 _ (by omega)),hptr]
        | succ j =>
          obtain ⟨t,off,hoff,hptr,hord,hst,hcov⟩ := htree2 hbig j h hj
          have hpos : pos+1+j = pos+(j+1) := by omega
          rw [hpos] at hptr
          exact ⟨t,off,hoff,hptr,hord,hst.mono hle1 le_rfl,hcov⟩

/-- A single last point of several is read behind the array. -/
theorem writeRoots_none (gs : List (List TID)) (hne : gs ≠ []) {begin pos wp : ℕ} {mem : Memory}
    (hdata : data.length = begin+gs.flatten.length) (hlast : (gs.getLast hne).length = 1)
    (htwo : 2 ≤ data.length) : b.writeRoots data gs begin pos mem wp = none := by
  induction gs generalizing begin pos wp mem with
  | nil => exact absurd rfl hne
  | cons g gs ih =>
    cases gs with
    | nil =>
      have hg : g.length = 1 := hlast
      simp only [List.flatten_cons,List.flatten_nil,List.append_nil,hg] at hdata
      have hslot : data[begin+begin]? = none := List.getElem?_eq_none (by omega)
      simp only [writeRoots,writeRoot,hg,gt_iff_lt,Nat.lt_irrefl,if_false,hslot,
        Option.bind_eq_bind,Option.bind_none]
    | cons g' gs =>
      rw [List.getLast_cons (List.cons_ne_nil _ _)] at hlast
      unfold writeRoots
      cases hrun : b.writeRoot data begin g.length 0 mem pos wp with
      | none => rfl
      | some r =>
        rw [Option.bind_some]
        refine ih (List.cons_ne_nil _ _) ?_ hlast
        rw [hdata,List.flatten_cons,List.length_append,Nat.add_assoc]

end Builder
end ElfIndex
