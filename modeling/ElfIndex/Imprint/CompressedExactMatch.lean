import ElfIndex.Imprint.Compressed
import ElfIndex.Imprint.Counts
import ElfIndex.Lib.Search

/-! # Point lookup in the compressed imprints

The walk of `exactMatch` takes the position of a cache line from two counters. A repeat line
raises both of them, so that every repeat line moves the lines behind it by one line.
-/
namespace ElfIndex
open WordMemory Search

namespace ImprintIndex

/-- The counters of `exactMatch`, with the tuple that it has returned. -/
structure ExactWalk where
  numImprintsProcessed : ℕ
  skippedCacheLines : ℕ
  returned : Option ℕ

section Walk
variable (imps : List Mask) (mask : Mask) (test : ℕ → Bool)

/-- The loop over the tuples of the cache lines `first, .., bound-1`, behind the mask test. -/
def testLines (imprint : Mask) (first bound : ℕ) : Option ℕ :=
  if imprint &&& mask ≠ 0#64 then (List.range' (first*16) (bound*16-first*16)).find? test
  else none

/-- One imprint of a line without repeats. -/
def exactImprint (st : ExactWalk) : Option ExactWalk :=
  if st.returned.isSome then some st else do
    let imprint ← imps[st.numImprintsProcessed]?
    let line := st.numImprintsProcessed+st.skippedCacheLines
    some ⟨st.numImprintsProcessed+1,st.skippedCacheLines,testLines mask test imprint line (line+1)⟩

/-- One line of the dictionary. -/
def exactDictLine (st : ExactWalk) (line : DictLine) : Option ExactWalk :=
  if st.returned.isSome then some st
  else if line.isRepeat = false then
    (List.range line.cnt).foldlM (fun st _ => exactImprint imps mask test st) st
  else do
    let imprint ← imps[st.numImprintsProcessed]?
    let first := st.numImprintsProcessed+st.skippedCacheLines
    let bound := st.numImprintsProcessed+line.cnt+st.skippedCacheLines
    some ⟨st.numImprintsProcessed+1,st.skippedCacheLines+line.cnt,
      testLines mask test imprint first bound⟩

end Walk

def exactMatch (s : Store) (ix : ImprintIndex) (query : ℕ → ℕ) : Option ℕ := do
  let imprints ← ix.imps[0]?
  let mask := makeMaskExact imprints.bins (query 0)
  let st ← imprints.dict.foldlM
    (exactDictLine imprints.imps mask (isEqualCStore ix.cols query s.numDim)) ⟨0,0,none⟩
  some (st.returned.getD notFound)

/-! ## The tested lines -/

/-- The number of repeat lines of a dictionary. -/
def repeats (dict : List DictLine) : ℕ := dict.countP (·.isRepeat)

/-- The number of repeat lines of the dictionary that end at or before a cache line. -/
def repeatsBefore : List DictLine → ℕ → ℕ
  | [], _ => 0
  | d :: dict, line => if d.cnt ≤ line then d.isRepeat.toNat+repeatsBefore dict (line-d.cnt) else 0

theorem repeats_cons (d : DictLine) (dict : List DictLine) :
    repeats (d :: dict) = d.isRepeat.toNat+repeats dict := by
  rw [repeats,List.countP_cons,repeats,Nat.add_comm]
  cases d.isRepeat <;> rfl

theorem repeats_append (dict rest : List DictLine) :
    repeats (dict ++ rest) = repeats dict+repeats rest := List.countP_append

theorem repeatsBefore_append (dict rest : List DictLine) (line : ℕ) :
    repeatsBefore (dict ++ rest) line =
      if line < (dict.map (·.cnt)).sum then repeatsBefore dict line
      else repeats dict+repeatsBefore rest (line-(dict.map (·.cnt)).sum) := by
  induction dict generalizing line with
  | nil => simp [repeats]
  | cons d dict ih =>
    rw [List.cons_append,repeatsBefore,repeatsBefore,ih,List.map_cons,List.sum_cons,repeats_cons]
    by_cases hle : d.cnt ≤ line
    · rw [if_pos hle,if_pos hle,Nat.sub_sub]
      by_cases hlt : line-d.cnt < (dict.map (·.cnt)).sum
      · rw [if_pos hlt,if_pos (by omega)]
      · rw [if_neg hlt,if_neg (by omega),Nat.add_assoc]
    · rw [if_neg hle,if_neg hle,if_pos (by omega)]

theorem repeatsBefore_mono (dict : List DictLine) : Monotone (repeatsBefore dict) := by
  induction dict with
  | nil => exact fun _ _ _ => le_rfl
  | cons d dict ih =>
    intro a b hab
    rw [repeatsBefore,repeatsBefore]
    by_cases ha : d.cnt ≤ a
    · rw [if_pos ha,if_pos (ha.trans hab)]
      exact Nat.add_le_add_left (ih (Nat.sub_le_sub_right hab _)) _
    · rw [if_neg ha]
      exact Nat.zero_le _

section Lines
variable (mask : Mask)

/-- The lines from `first` on whose imprints hit the mask. -/
def hitLines (first : ℕ) (masks : List Mask) : List ℕ :=
  ((List.range masks.length).filter fun j => masks.getD j 0#64 &&& mask ≠ 0#64).map (first+·)

/-- The positions at which the walk looks for the lines that hit the mask. -/
def testedLines (dict : List DictLine) (masks : List Mask) : List ℕ :=
  ((List.range masks.length).filter fun j => masks.getD j 0#64 &&& mask ≠ 0#64).map
    fun line => line+repeatsBefore dict line

theorem hitLines_cons (first : ℕ) (imprint : Mask) (masks : List Mask) :
    hitLines mask first (imprint :: masks) =
      (if imprint &&& mask ≠ 0#64 then [first] else []) ++ hitLines mask (first+1) masks := by
  rw [hitLines,List.length_cons,List.range_succ_eq_map,List.filter_cons,List.filter_map,hitLines]
  have hrest : ∀ l : List ℕ, (l.map Nat.succ).map (first+·) = l.map (first+1+·) := by
    intro l
    rw [List.map_map]
    refine List.map_congr_left fun j _ => ?_
    simp only [Function.comp_apply]
    omega
  by_cases himprint : imprint &&& mask = 0#64
  · simp [himprint,hrest,Function.comp_def]
  · simp [himprint,hrest,Function.comp_def]

theorem hitLines_replicate (first n : ℕ) (imprint : Mask) :
    hitLines mask first (List.replicate n imprint) =
      if imprint &&& mask ≠ 0#64 then List.range' first n else [] := by
  induction n generalizing first with
  | zero => simp [hitLines]
  | succ n ih =>
    rw [List.replicate_succ,hitLines_cons,ih,List.range'_succ]
    by_cases himprint : imprint &&& mask = 0#64
    · simp [himprint]
    · simp [himprint]

/-- A dictionary line moves the lines behind it, and not its own lines. -/
theorem testedLines_append {dict : List DictLine} {masks new : List Mask} {d : DictLine}
    (hsum : (dict.map (·.cnt)).sum = masks.length) (hd : d.cnt = new.length) :
    testedLines mask (dict ++ [d]) (masks ++ new) =
      testedLines mask dict masks ++ hitLines mask (masks.length+repeats dict) new := by
  rw [testedLines,List.length_append,List.range_add,List.filter_append,List.map_append]
  congr 1
  · have hfilter : (List.range masks.length).filter
        (fun j => (masks ++ new).getD j 0#64 &&& mask ≠ 0#64) =
        (List.range masks.length).filter fun j => masks.getD j 0#64 &&& mask ≠ 0#64 := by
      refine List.filter_congr fun j hj => ?_
      rw [List.getD_append _ _ _ _ (List.mem_range.mp hj)]
    rw [hfilter,testedLines]
    refine List.map_congr_left fun j hj => ?_
    have hlt := List.mem_range.mp (List.mem_filter.mp hj).1
    rw [repeatsBefore_append,hsum,if_pos hlt]
  · rw [List.filter_map,List.map_map,hitLines]
    have hfilter : (List.range new.length).filter
        ((fun j => decide ((masks ++ new).getD j 0#64 &&& mask ≠ 0#64)) ∘ (masks.length+·)) =
        (List.range new.length).filter fun j => new.getD j 0#64 &&& mask ≠ 0#64 := by
      refine List.filter_congr fun j _ => ?_
      rw [Function.comp_apply,List.getD_append_right _ _ _ _ (Nat.le_add_right _ _),
        Nat.add_sub_cancel_left]
    rw [hfilter]
    refine List.map_congr_left fun j hj => ?_
    have hlt := List.mem_range.mp (List.mem_filter.mp hj).1
    have hlast : repeatsBefore [d] (masks.length+j-masks.length) = 0 := by
      rw [repeatsBefore,if_neg (by omega)]
    rw [Function.comp_apply,repeatsBefore_append,hsum,if_neg (by omega),hlast]
    omega

theorem testedLines_ascending (dict : List DictLine) (masks : List Mask) :
    (testedLines mask dict masks).Pairwise (· < ·) := by
  rw [testedLines,List.pairwise_map]
  refine (List.pairwise_lt_range.filter _).imp ?_
  intro a b hab
  exact Nat.add_lt_add_of_lt_of_le hab (repeatsBefore_mono dict hab.le)

theorem mem_testedLines {dict : List DictLine} {masks : List Mask} {position : ℕ} :
    position ∈ testedLines mask dict masks ↔
      ∃ line < masks.length, masks.getD line 0#64 &&& mask ≠ 0#64 ∧
        line+repeatsBefore dict line = position := by
  simp only [testedLines,List.mem_map,List.mem_filter,List.mem_range,decide_eq_true_eq,and_assoc]

end Lines

/-! ## The walk -/

section Run
variable {imps : List Mask} {mask : Mask} {test : ℕ → Bool}

theorem testLines_eq (imprint : Mask) (first n : ℕ) :
    testLines mask test imprint first (first+n) =
      (lineTids 16 (hitLines mask first (List.replicate n imprint))).find? test := by
  rw [testLines,hitLines_replicate]
  by_cases himprint : imprint &&& mask ≠ 0#64
  · have hlen : (first+n)*16-first*16 = n*16 := by omega
    rw [if_pos himprint,if_pos himprint,lineTids_range',hlen]
  · rw [if_neg himprint,if_neg himprint]
    rfl

/-- The walk has tested the tuples `tids`; if it goes on, the counters are the given ones. -/
structure Walked (test : ℕ → Bool) (tids : List ℕ) (processed skipped : ℕ) (st : ExactWalk) :
    Prop where
  returned : st.returned = tids.find? test
  counters : st.returned = none →
    st.numImprintsProcessed = processed ∧ st.skippedCacheLines = skipped

theorem Walked.append {tids tids' : List ℕ} {p k p' k' : ℕ} {st st' : ExactWalk}
    (h : Walked test tids p k st) (hstay : st.returned.isSome → st' = st)
    (hgo : st.returned = none → Walked test tids' p' k' st') :
    Walked test (tids ++ tids') p' k' st' := by
  cases hret : st.returned with
  | some tid =>
    rw [hstay (by rw [hret]; rfl)]
    have htids := h.returned
    rw [hret] at htids
    refine ⟨?_,fun hnone => ?_⟩
    · rw [List.find?_append,← htids,hret]
      rfl
    · rw [hret] at hnone
      cases hnone
  | none =>
    have htids := h.returned
    rw [hret] at htids
    refine ⟨?_,(hgo hret).counters⟩
    rw [List.find?_append,← htids,(hgo hret).returned]
    rfl

theorem exactImprint_walked (mask : Mask) {st : ExactWalk} {tids : List ℕ} {processed skipped : ℕ}
    (h : Walked test tids processed skipped st) {imprint : Mask}
    (hget : imps[processed]? = some imprint) :
    ∃ st', exactImprint imps mask test st = some st' ∧
      Walked test (tids ++ lineTids 16 (hitLines mask (processed+skipped) [imprint]))
        (processed+1) skipped st' := by
  unfold exactImprint
  by_cases hret : st.returned.isSome = true
  · refine ⟨st,if_pos hret,h.append (fun _ => rfl) fun hnone => ?_⟩
    rw [hnone] at hret
    cases hret
  · rw [Option.not_isSome_iff_eq_none] at hret
    obtain ⟨hp,hk⟩ := h.counters hret
    rw [if_neg (by rw [hret]; simp),hp,hk,hget]
    refine ⟨_,rfl,h.append (fun hsome => ?_) fun _ => ⟨testLines_eq imprint _ 1,fun _ => ⟨rfl,rfl⟩⟩⟩
    rw [hret] at hsome
    cases hsome

/-- The imprints of a line without repeats. -/
theorem exactImprints_walked (mask : Mask) (old new rest : List Mask) (k : ℕ) {skipped : ℕ} {st : ExactWalk}
    {tids : List ℕ} (h : Walked test tids old.length skipped st) :
    ∃ st', (List.range' k new.length).foldlM
        (fun st _ => exactImprint (old ++ new ++ rest) mask test st) st = some st' ∧
      Walked test (tids ++ lineTids 16 (hitLines mask (old.length+skipped) new))
        (old.length+new.length) skipped st' := by
  induction new generalizing old k st tids with
  | nil => exact ⟨st,rfl,by simpa [hitLines,lineTids] using h⟩
  | cons imprint new ih =>
    have hget : (old ++ imprint :: new ++ rest)[old.length]? = some imprint := by
      rw [List.append_assoc,List.getElem?_append_right le_rfl,Nat.sub_self]
      rfl
    obtain ⟨st1,hstep,h1⟩ := exactImprint_walked mask h hget
    have hlen : (old ++ [imprint]).length = old.length+1 := by simp
    obtain ⟨st2,hrun,h2⟩ := ih (old ++ [imprint]) (k+1) (by rwa [hlen])
    rw [List.append_assoc old,List.singleton_append] at hrun
    have hlines : hitLines mask (old.length+skipped) (imprint :: new) =
        hitLines mask (old.length+skipped) [imprint] ++
          hitLines mask (old.length+1+skipped) new := by
      have hnext : old.length+1+skipped = old.length+skipped+1 := by omega
      rw [hitLines_cons,hitLines_cons,hnext]
      simp [hitLines]
    have hcount : old.length+1+new.length = old.length+(new.length+1) := by omega
    refine ⟨st2,?_,?_⟩
    · rw [List.length_cons,List.range'_succ,List.foldlM_cons,hstep]
      exact hrun
    · rwa [hlen,List.append_assoc,← lineTids_append,← hlines,hcount] at h2

theorem exactDictLine_returned {st : ExactWalk} (h : st.returned.isSome = true) (line : DictLine) :
    exactDictLine imps mask test st line = some st := if_pos h

theorem sum_cnt {dict : List DictLine} {masks : List Mask} (h : Expands dict imps masks) :
    (dict.map (·.cnt)).sum = masks.length := by
  induction h with
  | nil => rfl
  | literal h new hnew ih => rw [List.map_append,List.sum_append,ih,List.length_append]; simp
  | repeated h mask cnt hcnt ih => rw [List.map_append,List.sum_append,ih,List.length_append]; simp

/-- The walk over a dictionary tests the lines that hit the mask, each one at its position moved
by the repeat lines before it. -/
theorem exactDict_walked (mask : Mask) (test : ℕ → Bool) {dict : List DictLine} {masks : List Mask}
    (h : Expands dict imps masks) (rest : List Mask) :
    ∃ st skipped, dict.foldlM (exactDictLine (imps ++ rest) mask test) ⟨0,0,none⟩ = some st ∧
      imps.length+skipped = masks.length+repeats dict ∧
      Walked test (lineTids 16 (testedLines mask dict masks)) imps.length skipped st := by
  induction h generalizing rest with
  | nil => exact ⟨⟨0,0,none⟩,0,rfl,rfl,rfl,fun _ => ⟨rfl,rfl⟩⟩
  | @literal dict imps masks h new hnew ih =>
    obtain ⟨st,skipped,hrun,hpos,hst⟩ := ih (new ++ rest)
    rw [← List.append_assoc] at hrun
    rw [testedLines_append mask (sum_cnt h) rfl,lineTids_append,← hpos,List.foldlM_append,hrun,
      Option.bind_eq_bind,Option.bind_some,List.foldlM_cons]
    have hcount : (imps ++ new).length+skipped =
        (masks ++ new).length+repeats (dict ++ [⟨new.length,false⟩]) := by
      rw [repeats_append,List.length_append,List.length_append]
      change _ = _+(repeats dict+0)
      omega
    obtain ⟨st',hstep,hst'⟩ := exactImprints_walked mask imps new rest 0 hst
    rw [← List.range_eq_range'] at hstep
    by_cases hret : st.returned.isSome = true
    · refine ⟨st,skipped,by rw [exactDictLine_returned hret]; rfl,hcount,
        hst.append (fun _ => rfl) fun hnone => ?_⟩
      rw [hnone] at hret
      cases hret
    · refine ⟨st',skipped,?_,hcount,by rwa [List.length_append]⟩
      rw [exactDictLine,if_neg hret,if_pos rfl,hstep]
      rfl
  | @repeated dict imps masks h imprint cnt hcnt ih =>
    obtain ⟨st,skipped,hrun,hpos,hst⟩ := ih ([imprint] ++ rest)
    rw [← List.append_assoc] at hrun
    rw [testedLines_append mask (sum_cnt h) (by rw [List.length_replicate]),lineTids_append,← hpos,
      List.foldlM_append,hrun,Option.bind_eq_bind,Option.bind_some,List.foldlM_cons]
    have hcount : (imps ++ [imprint]).length+(skipped+cnt) =
        (masks ++ List.replicate cnt imprint).length+repeats (dict ++ [⟨cnt,true⟩]) := by
      rw [repeats_append,List.length_append,List.length_append,List.length_replicate,
        List.length_singleton]
      change _ = _+(repeats dict+1)
      omega
    by_cases hret : st.returned.isSome = true
    · refine ⟨st,skipped+cnt,by rw [exactDictLine_returned hret]; rfl,hcount,
        hst.append (fun _ => rfl) fun hnone => ?_⟩
      rw [hnone] at hret
      cases hret
    · have hnone : st.returned = none := Option.not_isSome_iff_eq_none.mp hret
      obtain ⟨hp,hk⟩ := hst.counters hnone
      have hget : (imps ++ [imprint] ++ rest)[imps.length]? = some imprint := by
        rw [List.append_assoc,List.getElem?_append_right le_rfl,Nat.sub_self]
        rfl
      have hbound : imps.length+cnt+skipped = imps.length+skipped+cnt := by omega
      refine ⟨⟨imps.length+1,skipped+cnt,testLines mask test imprint (imps.length+skipped)
        (imps.length+skipped+cnt)⟩,skipped+cnt,?_,hcount,hst.append (fun hsome => absurd hsome hret)
        fun _ => ⟨testLines_eq imprint _ cnt,fun _ => ⟨by simp,rfl⟩⟩⟩
      rw [exactDictLine,if_neg hret,if_neg (by simp),hp,hk,hget,hbound]
      rfl

end Run

/-! ## The answer -/

variable {s : Store} {bins : Bins} {padding : ℕ → ℕ → ℕ} {ix : ImprintIndex} {query : ℕ → ℕ}

/-- The first tuple of the tested lines that equals the query. -/
theorem exactMatch_eq {dict : List DictLine} {imps : List Mask} (hcols : ix.cols = column s padding)
    (himps : ix.imps[0]? = some ⟨bins,imps,dict⟩)
    (h : Expands dict imps (lineMasks bins (column s padding 0) s.numPoints)) :
    exactMatch s ix query = some (((lineTids 16 (testedLines (makeMaskExact bins (query 0)) dict
      (lineMasks bins (column s padding 0) s.numPoints))).find?
        (isEqualCStore (column s padding) query s.numDim)).getD notFound) := by
  obtain ⟨st,_,hrun,_,hst⟩ := exactDict_walked (makeMaskExact bins (query 0))
    (isEqualCStore (column s padding) query s.numDim) h []
  rw [List.append_nil] at hrun
  simp only [exactMatch,himps,hcols,Option.bind_eq_bind,Option.bind_some,hrun,hst.returned]

/-- If some point equals the query, the walk finds the first such point exactly when the line of
that point is the position at which it looks for some line with a value in the query's bin. -/
theorem compressedExactMatch_iff {dict : ℕ → DictLine} {im : ℕ → Mask} {st : DictState}
    (hst : DictState.imprintsCreate bins (column s padding 0) s.numPoints dict im = some st)
    (hrange : ∀ v ∈ st.stored, 1 ≤ v ∧ v ≤ impsMaxCnt) (hcols : ix.cols = column s padding)
    (himps : ix.imps[0]? = some ⟨bins,st.toEncoder.imps,st.toEncoder.dict⟩)
    (hpoint : ∃ tid < s.numPoints, isEqual (s.value tid) query s.numDim = true) :
    exactMatch s ix query = some (SeqScan.exactMatch s query) ↔
      ∃ tid < s.numPoints, getBin64 (s.value tid 0) bins = getBin64 (query 0) bins ∧
        tid/16+repeatsBefore st.toEncoder.dict (tid/16) = SeqScan.exactMatch s query/16 := by
  obtain ⟨hlt,heq,hfirst⟩ := SeqScan.exactMatch_first hpoint
  have hnotFound := s.numPoints_lt_notFound
  generalize SeqScan.exactMatch s query = first at hlt heq hfirst ⊢
  have hexp := DictState.imprintsCreate_expands_of_counts (Nat.zero_lt_of_lt hlt) hst hrange
  have htest : ∀ tid < s.numPoints, isEqualCStore (column s padding) query s.numDim tid =
      isEqual (s.value tid) query s.numDim := fun tid htid => isEqualCStore_column htid
  -- the first copy is returned if its line is tested
  have hfound : exactMatch s ix query = some first ↔
      first ∈ lineTids 16 (testedLines (makeMaskExact bins (query 0)) st.toEncoder.dict
        (lineMasks bins (column s padding 0) s.numPoints)) := by
    rw [exactMatch_eq hcols himps hexp,Option.some.injEq]
    refine find?_getD_eq_iff_mem (lineTids_ascending (testedLines_ascending _ _ _)) (by omega)
      ((htest first hlt).trans heq) ?_
    intro tid htid
    exact (htest tid (htid.trans hlt)).trans (hfirst tid htid)
  rw [hfound,mem_lineTids (by decide),mem_testedLines,length_lineMasks]
  constructor
  · rintro ⟨line,hline,hhit,hposition⟩
    obtain ⟨tid,htid,hdiv,hbin⟩ := (lineMasks_hit bins _ hline (query 0)).mp hhit
    rw [column,if_pos htid] at hbin
    exact ⟨tid,htid,hbin,by rwa [hdiv]⟩
  · rintro ⟨tid,htid,hbin,hposition⟩
    refine ⟨tid/16,by omega,?_,hposition⟩
    refine (lineMasks_hit bins _ (by omega) (query 0)).mpr ⟨tid,htid,rfl,?_⟩
    rw [column,if_pos htid]
    exact hbin

/-- The dictionary arrays of a column with the borders `0, .., 63`, and the index of it. -/
def dictOf (s : Store) : Option DictState :=
  DictState.imprintsCreate (fun w => w) (column s (fun _ _ => 0) 0) s.numPoints
    (fun _ => ⟨0,false⟩) fun _ => 0#64

def indexOf (s : Store) (st : DictState) : ImprintIndex :=
  ⟨column s fun _ _ => 0,[⟨fun w => w,st.toEncoder.imps,st.toEncoder.dict⟩],fun _ _ => 0#8⟩

/-- Two equal lines and one more tuple. -/
def lateStore : Store := .ofRows 1 0 7 (List.replicate 32 [0] ++ [[1]]) (by decide)

/-- The two equal lines are one repeat line. -/
theorem compressedExactMatch_late :
    ∃ st, dictOf lateStore = some st ∧ repeatsBefore st.toEncoder.dict 2 = 1 ∧
      (exactMatch lateStore (indexOf lateStore st) (fun _ => 0) =
          some (SeqScan.exactMatch lateStore fun _ => 0) ↔
        ∃ tid < 33, getBin64 (lateStore.value tid 0) (fun w => w) = getBin64 0 (fun w => w) ∧
          tid/16+repeatsBefore st.toEncoder.dict (tid/16) =
            (SeqScan.exactMatch lateStore fun _ => 0)/16) ∧
      (exactMatch lateStore (indexOf lateStore st) (fun _ => 1) =
          some (SeqScan.exactMatch lateStore fun _ => 1) ↔
        ∃ tid < 33, getBin64 (lateStore.value tid 0) (fun w => w) = getBin64 1 (fun w => w) ∧
          tid/16+repeatsBefore st.toEncoder.dict (tid/16) =
            (SeqScan.exactMatch lateStore fun _ => 1)/16) := by
  have hdict : dictOf lateStore = some ((dictOf lateStore).get (by decide)) :=
    (Option.some_get _).symm
  refine ⟨(dictOf lateStore).get (by decide),hdict,by decide,?_,?_⟩
  · exact compressedExactMatch_iff hdict (by decide) rfl rfl ⟨0,by decide⟩
  · exact compressedExactMatch_iff hdict (by decide) rfl rfl ⟨32,by decide⟩

/-- The repeat line moves the last line away from its tuple. -/
theorem lateStore_missed :
    ∃ st, dictOf lateStore = some st ∧ (∀ v ∈ st.stored, 1 ≤ v ∧ v ≤ impsMaxCnt) ∧
      exactMatch lateStore (indexOf lateStore st) (fun _ => 1) = some notFound ∧
      SeqScan.exactMatch lateStore (fun _ => 1) = 32 :=
  ⟨(dictOf lateStore).get (by decide),(Option.some_get _).symm,by decide,by decide,by decide⟩

end ImprintIndex
end ElfIndex
