import ElfIndex.Imprint.Lines

/-! # The compressed imprints of a column

A dictionary line stands for a number of imprints, or for a number of cache lines with
one common imprint. The encoder changes the line it wrote last when the next mask comes.
-/
namespace ElfIndex
open WordMemory

def impsMaxCnt : ℕ := 2^24-1

/-- A line of the cache dictionary; `cnt` is a field of 24 bits. -/
structure DictLine where
  cnt : ℕ
  isRepeat : Bool
deriving DecidableEq, Repr

/-- The variables of `imprints_create`; `dcnt` and `icnt` are the two lengths. -/
structure Encoder where
  dict : List DictLine
  imps : List Mask
  prvmask : Mask

namespace Encoder

/-- `imprints->dict[dcnt-1].cnt++` -/
def countUp (line : DictLine) : DictLine := {line with cnt := (line.cnt+1)%2^24}

theorem countUp_eq (cnt : ℕ) (h : cnt+1 < 2^24) (isRepeat : Bool) :
    countUp ⟨cnt,isRepeat⟩ = ⟨cnt+1,isRepeat⟩ := by
  simp only [countUp,Nat.mod_eq_of_lt h]

/-- The last line takes one more cache line with the imprint that it ends with. -/
def repeatLast (dict : List DictLine) (last : DictLine) : List DictLine :=
  if last.isRepeat = false then
    if last.cnt > 1 then dict.dropLast ++ [{last with cnt := last.cnt-1},countUp ⟨1,true⟩]
    else dict.dropLast ++ [countUp {last with isRepeat := true}]
  else dict.dropLast ++ [countUp last]

/-- The dictionary after one more imprint was written. -/
def newImprint (dict : List DictLine) : List DictLine :=
  match dict.getLast? with
  | some last => if last.isRepeat = false then dict.dropLast ++ [countUp last]
    else dict ++ [⟨1,false⟩]
  | none => dict ++ [⟨1,false⟩]

/-- The code at the end of a cache line; there is no line before the first one. -/
def addLine (st : Encoder) (mask : Mask) : Option Encoder :=
  if st.prvmask = mask then
    match st.dict.getLast? with
    | none => none
    | some last =>
      if last.cnt < impsMaxCnt-1 then some {st with dict := repeatLast st.dict last}
      else some ⟨newImprint st.dict,st.imps ++ [mask],mask⟩
  else some ⟨newImprint st.dict,st.imps ++ [mask],mask⟩

/-- The code for the last cache line, which first asks for a line before it. -/
def addLastLine (st : Encoder) (mask : Mask) : Encoder :=
  match st.dict.getLast? with
  | some last =>
    if st.prvmask = mask ∧ last.cnt < impsMaxCnt-1 then {st with dict := repeatLast st.dict last}
    else {st with dict := newImprint st.dict, imps := st.imps ++ [mask]}
  | none => {st with dict := newImprint st.dict, imps := st.imps ++ [mask]}

end Encoder

/-- A column with its dictionary. -/
structure ImprintPerColumn where
  bins : Bins
  imps : List Mask
  dict : List DictLine

def imprintsCreate (bins : Bins) (col : Memory) (numPoints : ℕ) : Option ImprintPerColumn := do
  let st := (List.range numPoints).foldl
    (tupleStep bins col fun st mask => st.bind (Encoder.addLine · mask)) (some ⟨[],[],0#64⟩,0#64)
  let encoder ← st.1
  let encoder := encoder.addLastLine st.2
  some ⟨bins,encoder.imps,encoder.dict⟩

/-! ## The meaning of a dictionary -/

/-- The dictionary and its imprints stand for a list of masks, one for each cache line. -/
inductive Expands : List DictLine → List Mask → List Mask → Prop
  | nil : Expands [] [] []
  | literal {dict : List DictLine} {imps masks : List Mask} (h : Expands dict imps masks)
      (new : List Mask) (hnew : new ≠ []) :
      Expands (dict ++ [⟨new.length,false⟩]) (imps ++ new) (masks ++ new)
  | repeated {dict : List DictLine} {imps masks : List Mask} (h : Expands dict imps masks)
      (mask : Mask) (cnt : ℕ) (hcnt : 1 ≤ cnt) :
      Expands (dict ++ [⟨cnt,true⟩]) (imps ++ [mask]) (masks ++ List.replicate cnt mask)

namespace Expands

variable {dict : List DictLine} {imps masks : List Mask}

theorem eq_nil_iff (h : Expands dict imps masks) : dict = [] ↔ masks = [] := by
  cases h with
  | nil => exact ⟨fun _ => rfl,fun _ => rfl⟩
  | literal _ new hnew => simp [hnew]
  | repeated _ mask cnt hcnt =>
    have hne : cnt ≠ 0 := by omega
    simp [hne]

theorem imps_le (h : Expands dict imps masks) : imps.length ≤ masks.length := by
  induction h with
  | nil => exact le_rfl
  | literal _ new _ ih =>
    rw [List.length_append,List.length_append]
    omega
  | repeated _ mask cnt hcnt ih =>
    rw [List.length_append,List.length_append,List.length_singleton,List.length_replicate]
    omega

/-- A line stands for no more cache lines than the dictionary. -/
theorem cnt_le {last : DictLine} (h : Expands dict imps masks) (hlast : dict.getLast? = some last) :
    last.cnt ≤ masks.length := by
  cases h with
  | nil => cases hlast
  | literal h new hnew =>
    rw [List.getLast?_concat,Option.some.injEq] at hlast
    subst hlast
    rw [List.length_append]
    exact Nat.le_add_left _ _
  | repeated h mask cnt hcnt =>
    rw [List.getLast?_concat,Option.some.injEq] at hlast
    subst hlast
    rw [List.length_append,List.length_replicate]
    exact Nat.le_add_left _ _

/-- One more imprint is appended to the last line, which has room for it, or starts a new one. -/
theorem newImprint (h : Expands dict imps masks) (mask : Mask)
    (hroom : ∀ last, dict.getLast? = some last → last.isRepeat = false → last.cnt+1 < 2^24) :
    Expands (Encoder.newImprint dict) (imps ++ [mask]) (masks ++ [mask]) := by
  cases h with
  | nil => exact .literal .nil [mask] (List.cons_ne_nil _ _)
  | @literal dict imps masks h new hnew =>
    have hcount := Encoder.countUp_eq new.length (hroom _ List.getLast?_concat rfl) false
    have hline := h.literal (new ++ [mask]) (List.append_ne_nil_of_right_ne_nil _ (by simp))
    rw [List.length_append,List.length_singleton,← List.append_assoc,← List.append_assoc] at hline
    simpa [Encoder.newImprint,hcount] using hline
  | @repeated dict imps masks h old cnt hcnt =>
    have hline := (h.repeated old cnt hcnt).literal [mask] (List.cons_ne_nil _ _)
    simpa [Encoder.newImprint] using hline

/-- The last mask comes once more and no imprint is written. -/
theorem repeatLast {last : DictLine} (h : Expands dict imps masks) (hlast : dict.getLast? = some last)
    {mask : Mask} (hmask : masks.getLast? = some mask) (hroom : last.cnt < impsMaxCnt-1) :
    Expands (Encoder.repeatLast dict last) imps (masks ++ [mask]) := by
  have hmax : impsMaxCnt = 2^24-1 := rfl
  cases h with
  | nil => cases hlast
  | @literal dict imps masks h new hnew =>
    rw [List.getLast?_concat,Option.some.injEq] at hlast
    subst hlast
    obtain ⟨init,x,rfl⟩ : ∃ init x, new = init ++ [x] :=
      ⟨new.dropLast,new.getLast hnew,(List.dropLast_append_getLast hnew).symm⟩
    rw [← List.append_assoc,List.getLast?_concat,Option.some.injEq] at hmask
    subst hmask
    rcases init with _ | ⟨y,ys⟩
    · have hline := h.repeated x 2 (by decide)
      simpa [Encoder.repeatLast,Encoder.countUp,List.replicate] using hline
    · have hline := (h.literal (y :: ys) (List.cons_ne_nil _ _)).repeated x 2 (by decide)
      simpa [Encoder.repeatLast,Encoder.countUp,List.replicate] using hline
  | @repeated dict imps masks h old cnt hcnt =>
    rw [List.getLast?_concat,Option.some.injEq] at hlast
    subst hlast
    have hold : (masks ++ List.replicate cnt old).getLast? = some old := by
      obtain ⟨k,rfl⟩ : ∃ k, cnt = k+1 := ⟨cnt-1,by omega⟩
      rw [List.replicate_succ',← List.append_assoc,List.getLast?_concat]
    rw [hold,Option.some.injEq] at hmask
    subst hmask
    have hcount := Encoder.countUp_eq cnt (by simp only at hroom; omega) true
    have hline := h.repeated old (cnt+1) (Nat.succ_pos cnt)
    rw [List.replicate_succ',← List.append_assoc] at hline
    simpa [Encoder.repeatLast,hcount] using hline

end Expands

/-! ## The encoder -/

/-- The encoder has written the masks of the finished lines. -/
structure Encoder.Wrote (st : Encoder) (masks : List Mask) : Prop where
  expands : Expands st.dict st.imps masks
  previous : st.prvmask = masks.getLastD 0#64

namespace Encoder

theorem Wrote.getLast {st : Encoder} {masks : List Mask} (h : st.Wrote masks) {last : DictLine}
    (hlast : st.dict.getLast? = some last) : masks.getLast? = some st.prvmask := by
  have hne : masks ≠ [] := by
    intro hnil
    rw [h.expands.eq_nil_iff.mpr hnil] at hlast
    cases hlast
  rw [h.previous,List.getLast?_eq_some_getLast hne,List.getLastD_eq_getLast?,
    List.getLast?_eq_some_getLast hne,Option.getD_some]

theorem addLine_wrote {st : Encoder} {masks : List Mask} (h : st.Wrote masks) {mask : Mask}
    (hmask : mask ≠ 0#64) (hlen : masks.length+1 < 2^24) :
    ∃ st', st.addLine mask = some st' ∧ st'.Wrote (masks ++ [mask]) := by
  have hprevious : mask = (masks ++ [mask]).getLastD 0#64 := by simp
  have hroom : ∀ last, st.dict.getLast? = some last → last.isRepeat = false → last.cnt+1 < 2^24 := by
    intro last hlast _
    have := h.expands.cnt_le hlast
    omega
  have hnew : Wrote ⟨newImprint st.dict,st.imps ++ [mask],mask⟩ (masks ++ [mask]) :=
    ⟨h.expands.newImprint mask hroom,hprevious⟩
  unfold addLine
  by_cases hsame : st.prvmask = mask
  · rw [if_pos hsame]
    cases hlast : st.dict.getLast? with
    | none =>
      have hnil := h.expands.eq_nil_iff.mp (List.getLast?_eq_none_iff.mp hlast)
      have := h.previous
      rw [hnil,hsame] at this
      exact absurd this hmask
    | some last =>
      by_cases hcnt : last.cnt < impsMaxCnt-1
      · refine ⟨_,if_pos hcnt,?_,?_⟩
        · exact h.expands.repeatLast hlast (hsame ▸ h.getLast hlast) hcnt
        · exact hsame.trans hprevious
      · exact ⟨_,if_neg hcnt,hnew⟩
  · rw [if_neg hsame]
    exact ⟨_,rfl,hnew⟩

theorem Wrote.foldl_addLine {st : Encoder} {masks l : List Mask} (h : st.Wrote masks)
    (hl : ∀ mask ∈ l, mask ≠ 0#64) (hlen : masks.length+l.length < 2^24) :
    ∃ st', l.foldl (fun st mask => st.bind (Encoder.addLine · mask)) (some st) = some st' ∧
      st'.Wrote (masks ++ l) := by
  induction l generalizing masks st with
  | nil => exact ⟨st,rfl,by rwa [List.append_nil]⟩
  | cons mask l ih =>
    rw [List.length_cons] at hlen
    obtain ⟨st1,hadd,hst1⟩ := addLine_wrote h (hl mask List.mem_cons_self) (by omega)
    obtain ⟨st2,hrest,hst2⟩ := ih hst1 (fun m hm => hl m (List.mem_cons_of_mem _ hm))
      (by rw [List.length_append,List.length_singleton]; omega)
    refine ⟨st2,?_,?_⟩
    · rw [List.foldl_cons,Option.bind_some,hadd]
      exact hrest
    · rwa [List.append_assoc] at hst2

theorem addLastLine_expands {st : Encoder} {masks : List Mask} (h : st.Wrote masks) (mask : Mask)
    (hlen : masks.length+1 < 2^24) :
    Expands (st.addLastLine mask).dict (st.addLastLine mask).imps (masks ++ [mask]) := by
  have hnew := h.expands.newImprint mask fun last hlast _ =>
    (Nat.succ_le_succ (h.expands.cnt_le hlast)).trans_lt hlen
  unfold addLastLine
  cases hlast : st.dict.getLast? with
  | none => exact hnew
  | some last =>
    by_cases hsame : st.prvmask = mask ∧ last.cnt < impsMaxCnt-1
    · simp only [if_pos hsame]
      exact h.expands.repeatLast hlast (hsame.1 ▸ h.getLast hlast) hsame.2
    · simp only [if_neg hsame]
      exact hnew

end Encoder

theorem lineMasks_ne_zero {bins : Bins} {col : Memory} {n : ℕ} :
    ∀ mask ∈ lineMasks bins col n, mask ≠ 0#64 := by
  intro mask hmask hzero
  obtain ⟨line,hline,rfl⟩ := List.mem_map.mp hmask
  have hlt := List.mem_range.mp hline
  have hbit := (getLsbD_lineMask bins col (16*line) (min 16 (n-16*line))
    (getBin64 (col (16*line)) bins)).mpr ⟨16*line,le_rfl,by omega,rfl⟩
  rw [hzero,BitVec.getLsbD_zero] at hbit
  cases hbit

/-- Up to `2^24-2` cache lines the dictionary stands for the imprints of all lines. -/
theorem imprintsCreate_expands (bins : Bins) (col : Memory) {n : ℕ} (hn : 1 ≤ n)
    (hlines : (n+15)/16 ≤ 2^24-2) :
    ∃ imprints, imprintsCreate bins col n = some imprints ∧ imprints.bins = bins ∧
      Expands imprints.dict imprints.imps (lineMasks bins col n) := by
  obtain ⟨full,last,hmasks,hrun⟩ := tupleStep_run bins col
    (fun st mask => st.bind (Encoder.addLine · mask)) (some ⟨[],[],0#64⟩) hn
  have hlen : full.length+1 = (n+15)/16 := by
    have hlength := congrArg List.length hmasks
    rw [length_lineMasks,List.length_append,List.length_singleton] at hlength
    exact hlength.symm
  have hnonzero : ∀ mask ∈ full, mask ≠ 0#64 := fun mask hmask =>
    lineMasks_ne_zero mask (hmasks ▸ List.mem_append_left _ hmask)
  have hinit : Encoder.Wrote ⟨[],[],0#64⟩ [] := ⟨.nil,rfl⟩
  obtain ⟨st,hst,hwrote⟩ := hinit.foldl_addLine hnonzero (by rw [List.length_nil]; omega)
  rw [List.nil_append] at hwrote
  refine ⟨⟨bins,(st.addLastLine last).imps,(st.addLastLine last).dict⟩,?_,rfl,?_⟩
  · rw [imprintsCreate,hrun,hst]
    rfl
  · rw [hmasks]
    exact Encoder.addLastLine_expands hwrote last (by omega)

end ElfIndex
