import ElfIndex.Imprint.Dictionary

/-! # The counts of the dictionary lines

A line with the imprint of the line before it is counted under a limit, and a line with a new
imprint is not. The count of a dictionary line overflows after a change of imprints that is
followed by changes only, until the limit is passed. The results say for which columns this
happens.
-/
namespace ElfIndex
open WordMemory

namespace DictState

/-! ## What one cache line does -/

/-- The code for a cache line, in the loop and behind it. -/
def step (st : DictState) (mask : Mask) : DictState := {st.addLastLine mask with prvmask := mask}

variable {st : DictState} {mask : Mask}

theorem prvmask_repeatLast (st : DictState) : st.repeatLast.prvmask = st.prvmask := by
  unfold repeatLast
  dsimp only
  split_ifs <;> rfl

theorem addLine_eq_step (h : st.prvmask = mask → st.dcnt ≠ 0) :
    st.addLine mask = some (st.step mask) := by
  unfold addLine step addLastLine
  by_cases hsame : st.prvmask = mask
  · have hpos := Nat.pos_of_ne_zero (h hsame)
    rw [if_pos hsame,if_neg (h hsame)]
    by_cases hcnt : st.last.cnt < impsMaxCnt-1
    · rw [if_pos hcnt,if_pos ⟨hsame,hpos,hcnt⟩,← hsame,← prvmask_repeatLast st]
    · rw [if_neg hcnt,if_neg fun h => hcnt h.2.2]
  · rw [if_neg hsame,if_neg fun h => hsame h.1]

/-- A repetition ends with a repeat line and stores counts up to the new one. -/
theorem repeatLast_spec (h : st.dcnt ≠ 0) (hpos : 1 ≤ st.last.cnt)
    (hlt : st.last.cnt+1 < 2^24) :
    st.repeatLast.dcnt ≠ 0 ∧
      st.repeatLast.last = ⟨if st.last.isRepeat then st.last.cnt+1 else 2,true⟩ ∧
      ∃ new, st.repeatLast.stored = st.stored ++ new ∧ ∀ v ∈ new, 1 ≤ v ∧ v ≤ st.last.cnt+1 := by
  obtain ⟨n,hn⟩ := Nat.exists_eq_succ_of_ne_zero h
  obtain ⟨dict,im,dcnt,icnt,prvmask,stored⟩ := st
  simp only at hn
  subst hn
  simp only [last,Nat.succ_sub_one] at hpos hlt
  cases hrepeat : (dict n).isRepeat with
  | false =>
    by_cases hcnt : (dict n).cnt > 1
    · refine ⟨?_,?_,[(dict n).cnt-1,1,2],?_,?_⟩
      · simp [repeatLast,last,incCnt,setCnt,setRepeat,hrepeat,hcnt]
      · simp [repeatLast,last,incCnt,setCnt,setRepeat,hrepeat,hcnt,Encoder.countUp]
      · simp [repeatLast,last,incCnt,setCnt,setRepeat,hrepeat,hcnt,Encoder.countUp]
      · simp only [last,Nat.succ_sub_one,List.mem_cons,List.not_mem_nil,or_false]
        omega
    · have hone : (dict n).cnt = 1 := by omega
      refine ⟨?_,?_,[2],?_,?_⟩
      · simp [repeatLast,last,incCnt,setCnt,setRepeat,hrepeat,hone]
      · simp [repeatLast,last,incCnt,setCnt,setRepeat,hrepeat,hone,Encoder.countUp]
      · simp [repeatLast,last,incCnt,setCnt,setRepeat,hrepeat,hone,Encoder.countUp]
      · simp only [last,Nat.succ_sub_one,List.mem_cons,List.not_mem_nil,or_false]
        omega
  | true =>
    refine ⟨?_,?_,[(dict n).cnt+1],?_,?_⟩
    · simp [repeatLast,last,incCnt,setCnt,hrepeat]
    · simpa [repeatLast,last,incCnt,setCnt,hrepeat,Encoder.countUp] using hlt
    · simpa [repeatLast,last,incCnt,setCnt,hrepeat,Encoder.countUp] using hlt
    · simp only [last,Nat.succ_sub_one,List.mem_cons,List.not_mem_nil,or_false]
      omega

/-- A new imprint ends with a line without repeats and stores its count. -/
theorem newImprint_spec (st : DictState) (mask : Mask) :
    (st.newImprint mask).dcnt ≠ 0 ∧
      (st.newImprint mask).last = ⟨if st.dcnt ≠ 0 ∧ st.last.isRepeat = false then
        (st.last.cnt+1)%2^24 else 1,false⟩ ∧
      (st.newImprint mask).stored = st.stored ++ [(st.newImprint mask).last.cnt] := by
  obtain ⟨dict,im,dcnt,icnt,prvmask,stored⟩ := st
  cases dcnt with
  | zero => simp [newImprint,last,setCnt,setRepeat]
  | succ n =>
    cases hrepeat : (dict n).isRepeat with
    | false => simp [newImprint,last,incCnt,setCnt,hrepeat,Encoder.countUp]
    | true => simp [newImprint,last,setCnt,setRepeat,hrepeat]

end DictState

/-! ## Runs of equal lines -/

section Runs
variable (same : ℕ → Prop) [DecidablePred same]

/-- The number of equal lines in a row that end with line `k`, where `same k` says that the
lines `k` and `k+1` are equal. -/
def runLength : ℕ → ℕ
  | 0 => 1
  | k+1 => if same k then runLength k+1 else 1

/-- Line `k` is the `cnt`-th line from a line on whose imprint was written, and up to the limit
only changes followed that line. -/
def Changing (k cnt : ℕ) : Prop :=
  1 ≤ cnt ∧ ∃ i, i+cnt = k+1 ∧ runLength same i%(2^24-2) = 1 ∧
    ∀ j, i ≤ j → j < k → j+1 < i+(2^24-2) → ¬ same j

/-- Some imprint is written and followed by changes only, until a count passes the limit. -/
def Overflows (lines : ℕ) : Prop :=
  ∃ i, i+2^24 ≤ lines ∧ runLength same i%(2^24-2) = 1 ∧
    ∀ j, i ≤ j → j+1 < i+(2^24-2) → ¬ same j

variable {same} {k cnt : ℕ}

theorem Changing.runLength_mod (h : Changing same k cnt) (hcnt : cnt < 2^24-2) :
    runLength same k%(2^24-2) = 1 := by
  obtain ⟨hpos,i,hi,hrun,hchange⟩ := h
  rcases Nat.eq_or_lt_of_le hpos with hone | hlt
  · obtain rfl : i = k := by omega
    exact hrun
  · obtain ⟨l,rfl⟩ : ∃ l, k = l+1 := ⟨k-1,by omega⟩
    rw [runLength,if_neg (hchange l (by omega) (Nat.lt_succ_self l) (by omega))]
    rfl

theorem Changing.succ (h : Changing same k cnt) (hnext : cnt < 2^24-2 → ¬ same k) :
    Changing same (k+1) (cnt+1) := by
  obtain ⟨hpos,i,hi,hrun,hchange⟩ := h
  refine ⟨Nat.succ_pos cnt,i,by omega,hrun,?_⟩
  intro j hij hjk hj
  rcases Nat.lt_succ_iff_lt_or_eq.mp hjk with hlt | rfl
  · exact hchange j hij hlt hj
  · exact hnext (by omega)

theorem Changing.start (h : runLength same k%(2^24-2) = 1) : Changing same k 1 :=
  ⟨le_rfl,k,rfl,h,fun _ hkj hjk _ => absurd hjk (Nat.not_lt.mpr hkj)⟩

end Runs

namespace DictState

/-! ## The invariant -/

/-- The last dictionary line after line `k` counts either the rest of the run of equal lines
or the lines since a written imprint. -/
def LineCount (same : ℕ → Prop) [DecidablePred same] (k : ℕ) : DictLine → Prop
  | ⟨cnt,true⟩ => 2 ≤ cnt ∧ cnt ≤ 2^24-2 ∧ runLength same k%(2^24-2) = cnt%(2^24-2)
  | ⟨cnt,false⟩ => cnt ≤ impsMaxCnt ∧ Changing same k cnt

/-- The stored counts after line `k` are in range. -/
structure Counted (m : ℕ → Mask) (same : ℕ → Prop) [DecidablePred same] (k : ℕ)
    (st : DictState) : Prop where
  prvmask : st.prvmask = m k
  dcnt : st.dcnt ≠ 0
  stored : ∀ v ∈ st.stored, 1 ≤ v ∧ v ≤ impsMaxCnt
  last : LineCount same k st.last

variable {m : ℕ → Mask} {same : ℕ → Prop} [DecidablePred same] {k : ℕ} {st : DictState}

theorem LineCount.cnt_pos {line : DictLine} (h : LineCount same k line) : 1 ≤ line.cnt := by
  obtain ⟨cnt,isRepeat⟩ := line
  cases isRepeat with
  | false => exact h.2.1
  | true => exact Nat.le_of_succ_le h.1

theorem stored_append {old new : List ℕ} (hold : ∀ v ∈ old, 1 ≤ v ∧ v ≤ impsMaxCnt)
    (hnew : ∀ v ∈ new, 1 ≤ v ∧ v ≤ impsMaxCnt) : ∀ v ∈ old ++ new, 1 ≤ v ∧ v ≤ impsMaxCnt := by
  intro v hv
  rcases List.mem_append.mp hv with hv | hv
  · exact hold v hv
  · exact hnew v hv

/-- After a repetition the last line counts the run. -/
theorem Counted.repeatLast (h : Counted m same k st) (hs : same k)
    (hcnt : st.last.cnt < impsMaxCnt-1) :
    Counted m same (k+1) {st.repeatLast with prvmask := m (k+1)} := by
  have hmax : impsMaxCnt = 2^24-1 := rfl
  have hrun : runLength same (k+1) = runLength same k+1 := if_pos hs
  have hline := h.last
  obtain ⟨hdcnt,hlast,new,hstored,hnew⟩ := repeatLast_spec h.dcnt hline.cnt_pos (by omega)
  refine ⟨rfl,hdcnt,?_,?_⟩
  · change ∀ v ∈ st.repeatLast.stored, 1 ≤ v ∧ v ≤ impsMaxCnt
    rw [hstored]
    refine stored_append h.stored fun v hv => ?_
    have := hnew v hv
    omega
  · change LineCount same (k+1) st.repeatLast.last
    rw [hlast]
    generalize st.last = line at hline hcnt
    obtain ⟨cnt,isRepeat⟩ := line
    simp only at hcnt
    cases isRepeat with
    | false =>
      have hmod := hline.2.runLength_mod (by omega)
      change LineCount same (k+1) ⟨2,true⟩
      exact ⟨le_rfl,by decide,by rw [hrun]; omega⟩
    | true =>
      obtain ⟨htwo,hle,hmod⟩ := hline
      change LineCount same (k+1) ⟨cnt+1,true⟩
      exact ⟨by omega,by omega,by rw [hrun]; omega⟩

/-- After a new imprint the last line counts the changes, if its count was not full. -/
theorem Counted.newImprint {st' : DictState} (hdcnt : st'.dcnt ≠ 0)
    (hold : ∀ v ∈ st.stored, 1 ≤ v ∧ v ≤ impsMaxCnt) {cnt : ℕ} (hlast : st'.last = ⟨cnt,false⟩)
    (hstored : st'.stored = st.stored ++ [st'.last.cnt]) (hle : cnt ≤ impsMaxCnt)
    (hchange : Changing same k cnt) : Counted m same k {st' with prvmask := m k} := by
  refine ⟨rfl,hdcnt,?_,?_⟩
  · change ∀ v ∈ st'.stored, 1 ≤ v ∧ v ≤ impsMaxCnt
    rw [hstored,hlast]
    refine stored_append hold fun v hv => ?_
    rw [List.mem_singleton.mp hv]
    exact ⟨hchange.1,hle⟩
  · change LineCount same k st'.last
    rw [hlast]
    exact ⟨hle,hchange⟩

theorem Counted.initial (hzero : m 0 ≠ 0#64) (dict : ℕ → DictLine) (im : ℕ → Mask) :
    Counted m same 0 (DictState.step ⟨dict,im,0,0,0#64,[]⟩ (m 0)) := by
  obtain ⟨hdcnt,hlast,hstored⟩ := newImprint_spec ⟨dict,im,0,0,0#64,[]⟩ (m 0)
  have hone : (DictState.newImprint ⟨dict,im,0,0,0#64,[]⟩ (m 0)).last = ⟨1,false⟩ := hlast
  rw [DictState.step,addLastLine,if_neg fun h => hzero h.1.symm]
  exact Counted.newImprint hdcnt (fun v hv => absurd hv List.not_mem_nil) hone hstored
    (by decide) (Changing.start rfl)

/-- One more line keeps the invariant, or the full count of a line without repeats overflows. -/
theorem Counted.step (h : Counted m same k st) (hsame : same k ↔ m k = m (k+1)) :
    Counted m same (k+1) (st.step (m (k+1))) ∨
      (st.last = ⟨impsMaxCnt,false⟩ ∧ 0 ∈ (st.step (m (k+1))).stored) := by
  have hmax : impsMaxCnt = 2^24-1 := rfl
  unfold DictState.step addLastLine
  by_cases hrep : st.prvmask = m (k+1) ∧ st.dcnt > 0 ∧ st.last.cnt < impsMaxCnt-1
  · have hmask := h.prvmask.symm.trans hrep.1
    rw [if_pos hrep]
    exact Or.inl (h.repeatLast (hsame.mpr hmask) hrep.2.2)
  · have hfull : same k → 2^24-2 ≤ st.last.cnt := by
      intro hs
      by_contra hlt
      exact hrep ⟨h.prvmask.trans (hsame.mp hs),Nat.pos_of_ne_zero h.dcnt,by omega⟩
    obtain ⟨hdcnt,hlast,hstored⟩ := newImprint_spec st (m (k+1))
    have hold := h.last
    rw [if_neg hrep]
    generalize hline : st.last = line at hold hfull hlast
    obtain ⟨cnt,isRepeat⟩ := line
    simp only at hfull
    cases isRepeat with
    | true =>
      obtain ⟨htwo,hle,hmod⟩ := hold
      rw [if_neg fun h => Bool.noConfusion h.2] at hlast
      refine Or.inl (Counted.newImprint hdcnt h.stored hlast hstored (by decide) ?_)
      apply Changing.start
      unfold runLength
      split
      · rename_i hs
        have := hfull hs
        omega
      · rfl
    | false =>
      obtain ⟨hle,hchange⟩ := hold
      rw [if_pos ⟨h.dcnt,rfl⟩] at hlast
      rcases Nat.eq_or_lt_of_le hle with rfl | hlt
      · refine Or.inr ⟨rfl,?_⟩
        change 0 ∈ (st.newImprint (m (k+1))).stored
        rw [hstored,hlast]
        exact List.mem_append_right _ (List.mem_singleton.mpr rfl)
      · have hmod : (cnt+1)%2^24 = cnt+1 := by omega
        rw [hmod] at hlast
        refine Or.inl (Counted.newImprint hdcnt h.stored hlast hstored hlt (hchange.succ ?_))
        intro hlt hs
        have := hfull hs
        omega

/-! ## Runs of the encoder -/

/-- The lines `0, .., lines-1` with the imprints `m`. -/
def run (m : ℕ → Mask) (init : DictState) (lines : ℕ) : DictState :=
  (List.range lines).foldl (fun st line => st.step (m line)) init

theorem run_succ (m : ℕ → Mask) (init : DictState) (lines : ℕ) :
    run m init (lines+1) = (run m init lines).step (m lines) := by
  rw [run,List.range_succ,List.foldl_append]
  rfl

theorem foldl_step_map (m : ℕ → Mask) (init : DictState) (lines : ℕ) :
    ((List.range lines).map m).foldl step init = run m init lines := List.foldl_map

theorem stored_repeatLast (st : DictState) : st.stored <+: st.repeatLast.stored := by
  unfold repeatLast
  dsimp only
  split_ifs <;> simp [incCnt,setCnt,setRepeat]

theorem stored_step (st : DictState) (mask : Mask) : st.stored <+: (st.step mask).stored := by
  unfold step addLastLine
  split
  · exact stored_repeatLast st
  · change st.stored <+: (st.newImprint mask).stored
    rw [(newImprint_spec st mask).2.2]
    exact List.prefix_append _ _

theorem stored_run (m : ℕ → Mask) (init : DictState) {lines lines' : ℕ} (h : lines ≤ lines') :
    (run m init lines).stored <+: (run m init lines').stored := by
  induction h with
  | refl => exact List.prefix_rfl
  | step _ ih =>
    rw [run_succ]
    exact ih.trans (stored_step _ _)

section Exact
variable {dict : ℕ → DictLine} {im : ℕ → Mask}

/-- After every line the counts are in range, or one of them has overflowed. -/
theorem counted_or_overflows (hzero : m 0 ≠ 0#64) (hsame : ∀ k, same k ↔ m k = m (k+1)) (k : ℕ) :
    Counted m same k (run m ⟨dict,im,0,0,0#64,[]⟩ (k+1)) ∨
      (0 ∈ (run m ⟨dict,im,0,0,0#64,[]⟩ (k+1)).stored ∧ Overflows same (k+1)) := by
  have hmax : impsMaxCnt = 2^24-1 := rfl
  induction k with
  | zero => exact Or.inl (Counted.initial hzero dict im)
  | succ k ih =>
    rw [run_succ]
    rcases ih with hcounted | ⟨hmem,i,hi,hrun,hchange⟩
    · rcases hcounted.step (hsame k) with hnext | ⟨hfull,hmem⟩
      · exact Or.inl hnext
      · have hline := hcounted.last
        rw [hfull] at hline
        obtain ⟨-,-,i,hi,hrun,hchange⟩ := hline
        exact Or.inr ⟨hmem,i,by omega,hrun,fun j hij hj => hchange j hij (by omega) hj⟩
    · exact Or.inr ⟨(stored_step _ _).subset hmem,i,by omega,hrun,hchange⟩

/-- While only changes follow, or the limit is reached, the last line takes every new line. -/
theorem Counted.step_last (h : Counted m same k st) (hsame : same k ↔ m k = m (k+1)) {cnt : ℕ}
    (hlast : st.last = ⟨cnt,false⟩) (hfull : same k → 2^24-2 ≤ cnt) :
    (st.step (m (k+1))).last = ⟨(cnt+1)%2^24,false⟩ := by
  have hmax : impsMaxCnt = 2^24-1 := rfl
  have hnew := (newImprint_spec st (m (k+1))).2.1
  rw [hlast,if_pos ⟨h.dcnt,rfl⟩] at hnew
  unfold DictState.step addLastLine
  rw [if_neg ?_]
  · exact hnew
  · rintro ⟨hmask,-,hcnt⟩
    rw [hlast] at hcnt
    have := hfull (hsame.mpr (h.prvmask.symm.trans hmask))
    simp only at hcnt
    omega

/-- From line `i` on every line is counted in one dictionary line. -/
theorem last_of_changes {init : DictState} {lines i : ℕ}
    (hcounted : ∀ k < lines, Counted m same k (run m init (k+1)))
    (hsame : ∀ k, same k ↔ m k = m (k+1)) (hrun : runLength same i%(2^24-2) = 1)
    (hchange : ∀ j, i ≤ j → j+1 < i+(2^24-2) → ¬ same j) (t : ℕ) (hlt : i+t < lines) :
    ∃ cnt, t+1 ≤ cnt ∧ cnt ≤ impsMaxCnt ∧ (run m init (i+t+1)).last = ⟨cnt,false⟩ := by
  have hmax : impsMaxCnt = 2^24-1 := rfl
  induction t with
  | zero =>
    have hline := (hcounted i hlt).last
    rw [Nat.add_zero]
    generalize (run m init (i+1)).last = line at hline
    obtain ⟨cnt,isRepeat⟩ := line
    cases isRepeat with
    | false => exact ⟨cnt,hline.2.1,hline.1,rfl⟩
    | true =>
      obtain ⟨htwo,hle,hmod⟩ := hline
      omega
  | succ t ih =>
    obtain ⟨cnt,hcnt,hcap,hlast⟩ := ih (by omega)
    have hold := hcounted (i+t) (by omega)
    have hnext := hold.step_last (hsame (i+t)) hlast (by
      intro hs
      by_contra hfull
      exact hchange (i+t) (by omega) (by omega) hs)
    rw [← run_succ] at hnext
    have hpos := (hcounted (i+t+1) (by omega)).last.cnt_pos
    rw [hnext] at hpos
    simp only at hpos
    exact ⟨(cnt+1)%2^24,by omega,by omega,hnext⟩

/-- The counts are in range exactly when no count overflows. -/
theorem stored_iff (hzero : m 0 ≠ 0#64) (hsame : ∀ k, same k ↔ m k = m (k+1)) {lines : ℕ}
    (hlines : 1 ≤ lines) :
    (∀ v ∈ (run m ⟨dict,im,0,0,0#64,[]⟩ lines).stored, 1 ≤ v ∧ v ≤ impsMaxCnt) ↔
      ¬ Overflows same lines := by
  constructor
  · rintro hrange ⟨i,hi,hrun,hchange⟩
    have hcounted : ∀ k < lines, Counted m same k (run m ⟨dict,im,0,0,0#64,[]⟩ (k+1)) := by
      intro k hk
      rcases counted_or_overflows hzero hsame k with hcounted | ⟨hmem,-⟩
      · exact hcounted
      · have := hrange 0 ((stored_run m _ hk).subset hmem)
        omega
    have hmax : impsMaxCnt+1 = 2^24 := rfl
    have hlt : i+impsMaxCnt < lines := by omega
    obtain ⟨cnt,hcnt,hcap,-⟩ := last_of_changes hcounted hsame hrun hchange impsMaxCnt hlt
    omega
  · intro hno
    obtain ⟨k,rfl⟩ := Nat.exists_eq_add_of_le' hlines
    rcases counted_or_overflows hzero hsame k with hcounted | ⟨-,hover⟩
    · exact hcounted.stored
    · exact absurd hover hno

end Exact

/-! ## The counts of the written lines -/

/-- The counts of the first `n` lines have been stored. -/
def StoredBelow (st : DictState) (n : ℕ) : Prop := ∀ i < n, (st.dict i).cnt ∈ st.stored

theorem setCnt_storedBelow {n i : ℕ} (cnt : ℕ)
    (h : ∀ j < n, j ≠ i → (st.dict j).cnt ∈ st.stored) : (st.setCnt i cnt).StoredBelow n := by
  intro j hj
  simp only [setCnt,Function.update_apply]
  split
  · exact List.mem_append_right _ (List.mem_singleton.mpr rfl)
  · rename_i hne
    exact List.mem_append_left _ (h j hj hne)

theorem StoredBelow.setRepeat {n : ℕ} (h : st.StoredBelow n) (i : ℕ) (isRepeat : Bool) :
    (st.setRepeat i isRepeat).StoredBelow n := by
  intro j hj
  simp only [DictState.setRepeat,Function.update_apply]
  split
  · rename_i he
    exact he ▸ h j hj
  · exact h j hj

theorem StoredBelow.incCnt {n : ℕ} (h : st.StoredBelow n) (i : ℕ) :
    (st.incCnt i).StoredBelow n := setCnt_storedBelow _ fun j hj _ => h j hj

theorem StoredBelow.repeatLast (h : st.StoredBelow st.dcnt) :
    st.repeatLast.StoredBelow st.repeatLast.dcnt := by
  unfold DictState.repeatLast
  dsimp only
  split
  · split
    · -- the new line gets its count before it is read
      refine StoredBelow.incCnt (StoredBelow.setRepeat (setCnt_storedBelow 1 ?_) _ _) _
      intro j hj hne
      have hold : (st.setCnt (st.dcnt-1) (st.last.cnt-1)).StoredBelow st.dcnt :=
        setCnt_storedBelow _ fun j hj _ => h j hj
      have hj' : j < st.dcnt+1 := hj
      have hne' : j ≠ st.dcnt+1-1 := hne
      exact hold j (by omega)
    · exact (h.setRepeat _ _).incCnt _
  · exact h.incCnt _

theorem StoredBelow.newImprint (h : st.StoredBelow st.dcnt) (mask : Mask) :
    (st.newImprint mask).StoredBelow (st.newImprint mask).dcnt := by
  have him : ({st with im := Function.update st.im st.icnt mask, icnt := st.icnt+1} :
    DictState).StoredBelow st.dcnt := h
  unfold DictState.newImprint
  dsimp only
  split
  · exact him.incCnt _
  · have hset : (({st with im := Function.update st.im st.icnt mask, icnt := st.icnt+1} :
        DictState).setCnt st.dcnt 1).StoredBelow (st.dcnt+1) := by
      refine setCnt_storedBelow 1 ?_
      intro j hj hne
      exact him j (by omega)
    exact hset.setRepeat _ _

theorem StoredBelow.addLastLine (h : st.StoredBelow st.dcnt) (mask : Mask) :
    (st.addLastLine mask).StoredBelow (st.addLastLine mask).dcnt := by
  unfold DictState.addLastLine
  split
  · exact h.repeatLast
  · exact h.newImprint mask

theorem StoredBelow.foldl (h : st.StoredBelow st.dcnt) (masks : List Mask) :
    (masks.foldl DictState.step st).StoredBelow (masks.foldl DictState.step st).dcnt := by
  induction masks generalizing st with
  | nil => exact h
  | cons mask masks ih => exact ih (h.addLastLine mask)

/-! ## The counts of a column -/

theorem dcnt_step (st : DictState) (mask : Mask) : (st.step mask).dcnt ≠ 0 := by
  have hrepeat : st.dcnt ≤ st.repeatLast.dcnt := by
    unfold repeatLast
    dsimp only
    split_ifs <;> simp [incCnt,setCnt,setRepeat]
  unfold step addLastLine
  split
  · rename_i h
    change st.repeatLast.dcnt ≠ 0
    omega
  · exact (newImprint_spec st mask).1

theorem foldl_addLine (st : DictState) {masks : List Mask} (hmasks : ∀ mask ∈ masks, mask ≠ 0#64)
    (h : st.dcnt = 0 → st.prvmask = 0#64) :
    masks.foldl (fun st mask => st.bind (DictState.addLine · mask)) (some st) =
      some (masks.foldl step st) := by
  induction masks generalizing st with
  | nil => rfl
  | cons mask masks ih =>
    have hstep : st.addLine mask = some (st.step mask) := by
      apply addLine_eq_step
      intro hsame hempty
      exact hmasks mask List.mem_cons_self (hsame ▸ h hempty)
    rw [List.foldl_cons,Option.bind_some,hstep,List.foldl_cons]
    exact ih (st.step mask) (fun m hm => hmasks m (List.mem_cons_of_mem _ hm))
      fun h => absurd h (dcnt_step st mask)

/-- `imprints_create` returns, and leaves what a run over the imprints of all lines leaves, the
previous mask apart. -/
theorem imprintsCreate_run (bins : Bins) (col : Memory) {n : ℕ} (hn : 1 ≤ n)
    (dict : ℕ → DictLine) (im : ℕ → Mask) :
    ∃ st last, imprintsCreate bins col n dict im = some st ∧ st.StoredBelow st.dcnt ∧
      run (fun line => lineMask bins col (16*line) (min 16 (n-16*line)))
        ⟨dict,im,0,0,0#64,[]⟩ ((n+15)/16) = {st with prvmask := last} := by
  obtain ⟨full,last,hmasks,hrun⟩ := tupleStep_run bins col
    (fun st mask => st.bind (DictState.addLine · mask)) (some ⟨dict,im,0,0,0#64,[]⟩) hn
  have hzero : ∀ mask ∈ full, mask ≠ 0#64 := fun mask hmask =>
    lineMasks_ne_zero mask (hmasks ▸ List.mem_append_left _ hmask)
  have hfull := foldl_addLine ⟨dict,im,0,0,0#64,[]⟩ hzero fun _ => rfl
  have hbelow : StoredBelow ⟨dict,im,0,0,0#64,[]⟩ 0 := fun i hi => absurd hi (Nat.not_lt_zero i)
  refine ⟨_,last,by rw [imprintsCreate,hrun,hfull]; rfl,(hbelow.foldl full).addLastLine last,?_⟩
  rw [← foldl_step_map]
  change (lineMasks bins col n).foldl step _ = _
  rw [hmasks,List.foldl_append]
  rfl

/-- The bins of the values in a cache line. -/
def lineBins (bins : Bins) (col : Memory) (n line : ℕ) : Finset ℕ :=
  ((List.range' (16*line) (min 16 (n-16*line))).map fun tid => getBin64 (col tid) bins).toFinset

/-- Two lines have one imprint exactly when their values have the same bins. -/
theorem lineBins_eq_iff (bins : Bins) (col : Memory) (n line line' : ℕ) :
    lineBins bins col n line = lineBins bins col n line' ↔
      lineMask bins col (16*line) (min 16 (n-16*line)) =
        lineMask bins col (16*line') (min 16 (n-16*line')) := by
  have hmem : ∀ line bin, bin ∈ lineBins bins col n line ↔
      (lineMask bins col (16*line) (min 16 (n-16*line))).getLsbD bin = true := by
    intro line bin
    rw [getLsbD_lineMask]
    simp only [lineBins,List.mem_toFinset,List.mem_map,List.mem_range'_1,and_assoc]
  constructor
  · intro h
    refine BitVec.eq_of_getLsbD_eq fun bin _ => ?_
    rw [Bool.eq_iff_iff,← hmem,← hmem,h]
  · intro h
    ext bin
    rw [hmem,hmem,h]

/-- The bins of two lines in a row are the same. -/
def SameBins (bins : Bins) (col : Memory) (n line : ℕ) : Prop :=
  lineBins bins col n line = lineBins bins col n (line+1)

instance (bins : Bins) (col : Memory) (n : ℕ) : DecidablePred (SameBins bins col n) :=
  fun _ => decEq _ _

/-- The counts of the run over all lines are in range exactly when no count overflows. -/
theorem stored_lines_iff (bins : Bins) (col : Memory) {n : ℕ} (hn : 1 ≤ n) (dict : ℕ → DictLine)
    (im : ℕ → Mask) :
    (∀ v ∈ (run (fun line => lineMask bins col (16*line) (min 16 (n-16*line)))
      ⟨dict,im,0,0,0#64,[]⟩ ((n+15)/16)).stored, 1 ≤ v ∧ v ≤ impsMaxCnt) ↔
      ¬ Overflows (SameBins bins col n) ((n+15)/16) := by
  have hfirst : lineMask bins col (16*0) (min 16 (n-16*0)) ≠ 0#64 :=
    lineMasks_ne_zero _ (List.mem_map.mpr ⟨0,List.mem_range.mpr (by omega),rfl⟩)
  exact stored_iff hfirst (fun line => lineBins_eq_iff bins col n line (line+1)) (by omega)

/-- The counts that are stored for a column are in range exactly when the column has no imprint
that is written and followed by changes only, up to the limit and for two lines more. Then no
written line has the count zero. -/
theorem imprintsCreate_counts_iff (bins : Bins) (col : Memory) {n : ℕ} (hn : 1 ≤ n)
    (dict : ℕ → DictLine) (im : ℕ → Mask) :
    (∃ st, imprintsCreate bins col n dict im = some st ∧
      (∀ v ∈ st.stored, 1 ≤ v ∧ v ≤ impsMaxCnt) ∧ ∀ i < st.dcnt, 1 ≤ (st.dict i).cnt) ↔
      ¬ Overflows (SameBins bins col n) ((n+15)/16) := by
  obtain ⟨st,last,hst,hbelow,hlines⟩ := imprintsCreate_run bins col hn dict im
  rw [← stored_lines_iff bins col hn dict im,hlines]
  constructor
  · rintro ⟨st',hst',hrange,-⟩
    rw [hst] at hst'
    cases hst'
    exact hrange
  · intro hrange
    exact ⟨st,hst,hrange,fun i hi => (hrange _ (hbelow i hi)).1⟩

theorem imprintsCreate_counts_lines :
    ∃ st, imprintsCreate (fun w => w) (fun tid => tid/32) 40 (fun _ => ⟨5,true⟩)
        (fun _ => 7#64) = some st ∧
      (∀ v ∈ st.stored, 1 ≤ v ∧ v ≤ impsMaxCnt) ∧ ∀ i < st.dcnt, 1 ≤ (st.dict i).cnt := by
  refine (imprintsCreate_counts_iff (fun w => w) (fun tid => tid/32) (by decide) _ _).mpr ?_
  rintro ⟨i,hi,-⟩
  omega

/-! ## The meaning of counts in range -/

/-- A line that is written with counts in range is added to what the dictionary stands for. -/
theorem step_wrote {masks : List Mask} (hw : st.toEncoder.Wrote masks)
    (hbelow : st.StoredBelow st.dcnt)
    (hrange : ∀ v ∈ (st.step mask).stored, 1 ≤ v ∧ v ≤ impsMaxCnt) :
    (st.step mask).toEncoder.Wrote (masks ++ [mask]) := by
  have hmax : impsMaxCnt = 2^24-1 := rfl
  have hprevious : mask = (masks ++ [mask]).getLastD 0#64 := by simp
  refine ⟨?_,hprevious⟩
  unfold step addLastLine at hrange ⊢
  split
  · rename_i h
    obtain ⟨hsame,hpos,hcnt⟩ := h
    have hempty : st.dcnt ≠ 0 := by omega
    have hlast : st.toEncoder.dict.getLast? = some st.last := by
      rw [getLast?_toEncoder,if_neg hempty]
    have hexp := hw.expands.repeatLast hlast (hw.getLast hlast) hcnt
    change Expands st.repeatLast.toEncoder.dict st.repeatLast.toEncoder.imps _
    rw [toEncoder_repeatLast st hempty,← hsame]
    exact hexp
  · rename_i h
    rw [if_neg h] at hrange
    obtain ⟨_,hlast,hstored⟩ := newImprint_spec st mask
    change ∀ v ∈ (st.newImprint mask).stored, 1 ≤ v ∧ v ≤ impsMaxCnt at hrange
    change Expands (st.newImprint mask).toEncoder.dict (st.newImprint mask).toEncoder.imps _
    rw [toEncoder_newImprint]
    refine hw.expands.newImprint mask ?_
    intro last hget hrepeat
    rw [getLast?_toEncoder] at hget
    split at hget
    · cases hget
    · rename_i hempty
      obtain rfl := Option.some.inj hget
      -- the count has room, since its successor is not stored as zero
      rw [hlast] at hstored
      simp only [if_pos (And.intro hempty hrepeat)] at hstored
      rw [hstored] at hrange
      have hold := hrange _ (List.mem_append_left _ (hbelow (st.dcnt-1) (by omega)))
      have hnew := hrange _ (List.mem_append_right _ (List.mem_singleton.mpr rfl))
      change 1 ≤ st.last.cnt ∧ st.last.cnt ≤ impsMaxCnt at hold
      omega

theorem run_wrote (m : ℕ → Mask) (dict : ℕ → DictLine) (im : ℕ → Mask) (lines : ℕ)
    (hrange : ∀ v ∈ (run m ⟨dict,im,0,0,0#64,[]⟩ lines).stored, 1 ≤ v ∧ v ≤ impsMaxCnt) :
    (run m ⟨dict,im,0,0,0#64,[]⟩ lines).toEncoder.Wrote ((List.range lines).map m) ∧
      (run m ⟨dict,im,0,0,0#64,[]⟩ lines).StoredBelow (run m ⟨dict,im,0,0,0#64,[]⟩ lines).dcnt := by
  induction lines with
  | zero => exact ⟨⟨.nil,rfl⟩,fun i hi => absurd hi (Nat.not_lt_zero i)⟩
  | succ k ih =>
    rw [run_succ] at hrange ⊢
    obtain ⟨hw,hbelow⟩ := ih fun v hv => hrange v ((stored_step _ _).subset hv)
    rw [List.range_succ,List.map_append]
    exact ⟨step_wrote hw hbelow hrange,hbelow.addLastLine (m k)⟩

/-- With counts in range the dictionary stands for the imprints of all lines. -/
theorem imprintsCreate_expands_of_counts {bins : Bins} {col : Memory} {n : ℕ} (hn : 1 ≤ n)
    {dict : ℕ → DictLine} {im : ℕ → Mask} (hst : imprintsCreate bins col n dict im = some st)
    (hrange : ∀ v ∈ st.stored, 1 ≤ v ∧ v ≤ impsMaxCnt) :
    Expands st.toEncoder.dict st.toEncoder.imps (lineMasks bins col n) := by
  obtain ⟨st',last,hst',-,hlines⟩ := imprintsCreate_run bins col hn dict im
  rw [hst] at hst'
  obtain rfl := Option.some.inj hst'
  have hw := (run_wrote (fun line => lineMask bins col (16*line) (min 16 (n-16*line))) dict im
    ((n+15)/16) (by rw [hlines]; exact hrange)).1.expands
  rw [hlines] at hw
  exact hw

/-! ## A column that changes with every line -/

/-- The lines hold the values 0 and 1 by turns. -/
def alternatingColumn : Memory := fun tid => tid/16%2

theorem lineBins_alternating {n line : ℕ} (h : 16*line+16 ≤ n) :
    lineBins (fun w => w) alternatingColumn n line = {getBin64 (line%2) fun w => w} := by
  ext bin
  have hlen : min 16 (n-16*line) = 16 := by omega
  simp only [lineBins,hlen,List.mem_toFinset,List.mem_map,List.mem_range'_1,Finset.mem_singleton,
    alternatingColumn]
  constructor
  · rintro ⟨tid,htid,rfl⟩
    have hline : tid/16 = line := by omega
    rw [hline]
  · rintro rfl
    refine ⟨16*line,by omega,?_⟩
    rw [Nat.mul_div_cancel_left line (by decide)]

theorem alternating_changes {n line : ℕ} (h : 16*(line+1)+16 ≤ n) :
    ¬ SameBins (fun w => w) alternatingColumn n line := by
  have hbin : getBin64 0 (fun w => w) ≠ getBin64 1 fun w => w := by decide
  rw [SameBins,lineBins_alternating (by omega),lineBins_alternating h,Finset.singleton_inj]
  rcases Nat.mod_two_eq_zero_or_one line with hline | hline
  · have hnext : (line+1)%2 = 1 := by omega
    rw [hline,hnext]
    exact hbin
  · have hnext : (line+1)%2 = 0 := by omega
    rw [hline,hnext]
    exact hbin.symm

theorem alternating_overflows {n : ℕ} (hn : 16*2^24 ≤ n) (dict : ℕ → DictLine) (im : ℕ → Mask) :
    ¬ ∃ st, imprintsCreate (fun w => w) alternatingColumn n dict im = some st ∧
      (∀ v ∈ st.stored, 1 ≤ v ∧ v ≤ impsMaxCnt) ∧ ∀ i < st.dcnt, 1 ≤ (st.dict i).cnt := by
  rintro ⟨st,hst,hrange,-⟩
  obtain ⟨st',last,hst',-,hlines⟩ := imprintsCreate_run (fun w => w) alternatingColumn
    (show 1 ≤ n by omega) dict im
  rw [hst,Option.some.injEq] at hst'
  subst hst'
  have hcounts := stored_lines_iff (fun w => w) alternatingColumn (show 1 ≤ n by omega) dict im
  rw [hlines] at hcounts
  refine hcounts.mp hrange ⟨0,by omega,rfl,?_⟩
  intro j _ hj
  exact alternating_changes (by omega)

/-- `2^28` tuples in `2^24` lines that alternate between two imprints. -/
theorem alternatingColumn_overflows :
    ¬ ∃ st, imprintsCreate (fun w => w) alternatingColumn (2^28) (fun _ => ⟨0,false⟩)
        (fun _ => 0#64) = some st ∧
      (∀ v ∈ st.stored, 1 ≤ v ∧ v ≤ impsMaxCnt) ∧ ∀ i < st.dcnt, 1 ≤ (st.dict i).cnt :=
  alternating_overflows (show 16*2^24 ≤ 2^28 by decide) _ _

end DictState
end ElfIndex
