import ElfIndex.Imprint.SIMD
import ElfIndex.Lib.Search
import ElfIndex.Scan.SIMDSeqScan

/-! # Point lookup in the columns

Four indexes look for a point in whole lines of the columns. The last lines reach behind the
last row, where the words are padding, and nothing excludes the tuples that stand there.
-/
namespace ElfIndex
open WordMemory Bitmap Search

/-- One line of the loops of `exactMatch`, behind the tuple that was returned before. -/
def exactLine (imps : List Mask) (mask : Mask) (test : ℕ → Bool) (found : Option ℕ)
    (curCacheLine : ℕ) : Option ℕ :=
  found.or (if imps.getD curCacheLine 0#64 &&& mask ≠ 0#64 then
    (List.range' (curCacheLine*16) 16).find? test else none)

namespace ImprintIndexWithoutCompression

def exactMatch (s : Store) (ix : ImprintIndexWithoutCompression) (query : ℕ → ℕ) : ℕ :=
  let imprints := ix.columnImprints 0
  let mask := makeMaskExact imprints.bins (query 0)
  ((List.range ((s.numPoints+15)/16)).foldl
    (exactLine imprints.imps mask (isEqualCStore ix.cols query s.numDim)) none).getD notFound

end ImprintIndexWithoutCompression

namespace ImprintSIMDIndexWithoutCompression

/-- The loop of the scalar index. -/
def exactMatch (s : Store) (ix : ImprintIndexWithoutCompression) (query : ℕ → ℕ) : ℕ :=
  ImprintIndexWithoutCompression.exactMatch s ix query

end ImprintSIMDIndexWithoutCompression

namespace ImprintSIMD64IndexWithoutCompression

/-- One pair of lines. -/
def exactPair (imps : List Mask) (mask : Mask) (test : ℕ → Bool) (found : Option ℕ)
    (curCacheLine : ℕ) : Option ℕ :=
  let curSIMDImprint := imps.getD (2*curCacheLine+1) 0#64 ++ imps.getD (2*curCacheLine) 0#64
  found.or (if curSIMDImprint &&& (mask ++ mask) ≠ 0#128 then
    (List.range' (curCacheLine*32) 32).find? test else none)

/-- The loop over the pairs and the loop over the line that is left. -/
def exactMatch (s : Store) (ix : ImprintIndexWithoutCompression) (query : ℕ → ℕ) : ℕ :=
  let imprints := ix.columnImprints 0
  let mask := makeMaskExact imprints.bins (query 0)
  let test := isEqualCStore ix.cols query s.numDim
  let numCacheLines := (s.numPoints+15)/16
  let curCacheLine := numCacheLines/2
  let found := (List.range curCacheLine).foldl (exactPair imprints.imps mask test) none
  let curCacheLine := curCacheLine*2
  ((List.range' curCacheLine (numCacheLines-curCacheLine)).foldl
    (exactLine imprints.imps mask test) found).getD notFound

end ImprintSIMD64IndexWithoutCompression

namespace SIMDSeqScan

/-- The eight comparisons of `_mm_cmpeq_epi32` with the first word of the query. -/
def equalMask (col : Memory) (simdLine value : ℕ) : BitVec 32 :=
  (List.range 8).foldl (fun toAdd i =>
    toAdd ||| (packBits 32 4 (fun j => col (4*(simdLine+i)+j) == value) <<< (4*i))) 0#32

def exactBlock (col : Memory) (value : ℕ) (test : ℕ → Bool) (found : Option ℕ) (simdLine : ℕ) :
    Option ℕ :=
  found.or (if equalMask col simdLine value ≠ 0#32 then
    (List.range' (simdLine*4) 32).find? test else none)

/-- The first loop stops at the first multiple of 8 that is not below `(NUM_POINTS+7)/4`. -/
def exactMatch (s : Store) (ix : SIMDSeqScan) (query : ℕ → ℕ) : ℕ :=
  let test := isEqualCStore ix.cols query s.numDim
  let passes := ((s.numPoints+7)/4+7)/8
  let found := ((List.range passes).map (8*·)).foldl (exactBlock (ix.cols 0) (query 0) test) none
  let simdLine := 8*passes
  (found.or ((List.range' (simdLine*4) (s.numPoints+7-simdLine*4)).find? test)).getD notFound

end SIMDSeqScan

/-! ## Sound answers -/

/-- An answer other than `NOT_FOUND` is a tuple of the store that equals the query. -/
def Sound (s : Store) (query : ℕ → ℕ) (answer : ℕ) : Prop :=
  answer ≠ notFound → answer < s.numPoints ∧ isEqual (s.value answer) query s.numDim = true

/-- Some point of the store equals the query. -/
def Occurs (s : Store) (query : ℕ → ℕ) : Prop :=
  ∃ tid < s.numPoints, isEqual (s.value tid) query s.numDim = true

/-- The tuples of an ascending search, among them all that equal the query. -/
structure Tested (s : Store) (query : ℕ → ℕ) (tids : List ℕ) : Prop where
  ascending : tids.Pairwise (· < ·)
  bounded : ∀ tid ∈ tids, tid < notFound
  covers : ∀ tid < s.numPoints, isEqual (s.value tid) query s.numDim = true → tid ∈ tids

variable {s : Store} {query : ℕ → ℕ} {padding : ℕ → ℕ → ℕ}

/-- The rows of padding have identifiers below `NOT_FOUND`. -/
theorem Store.lt_notFound {tid : ℕ} (h : tid < s.numPoints+64) : tid < notFound := by
  have hmax : notFound = 2^32-1 := rfl
  have hle : s.numPoints ≤ 2^31-1 := s.numPoints_le
  omega

/-- A search of `front` and, behind it, of `back`. -/
theorem Tested.append {front back : List ℕ} {m : ℕ} (hfront : front.Pairwise (· < ·))
    (hback : back.Pairwise (· < ·)) (hm : m ≤ s.numPoints+64) (hlt : ∀ tid ∈ front, tid < m)
    (hge : ∀ tid ∈ back, m ≤ tid ∧ tid < s.numPoints+64)
    (hcovers : ∀ tid < s.numPoints, isEqual (s.value tid) query s.numDim = true →
      tid ∈ front ++ back) : Tested s query (front ++ back) := by
  refine ⟨List.pairwise_append.mpr ⟨hfront,hback,?_⟩,?_,hcovers⟩
  · intro x hx y hy
    exact (hlt x hx).trans_le (hge y hy).1
  · intro tid htid
    rcases List.mem_append.mp htid with hmem | hmem
    · exact Store.lt_notFound ((hlt tid hmem).trans_le hm)
    · exact Store.lt_notFound (hge tid hmem).2

/-- The search is only wrong for a query that equals no point but a row of padding. -/
theorem Tested.sound_iff {tids : List ℕ} (h : Tested s query tids) :
    Sound s query ((tids.find? (isEqualCStore (column s padding) query s.numDim)).getD notFound) ↔
      Occurs s query ∨ ∀ tid ∈ tids, s.numPoints ≤ tid →
        isEqual (fun dim => padding dim tid) query s.numDim = false := by
  have hpadding : ∀ tid, s.numPoints ≤ tid → isEqualCStore (column s padding) query s.numDim tid =
      isEqual (fun dim => padding dim tid) query s.numDim := by
    intro tid htid
    simp only [isEqualCStore,column,if_neg (Nat.not_lt.mpr htid)]
  constructor
  · intro hsound
    by_contra hnot
    rw [not_or] at hnot
    obtain ⟨hoccurs,hrow⟩ := hnot
    push Not at hrow
    obtain ⟨tid,hmem,htid,heq⟩ := hrow
    obtain ⟨found,hfound⟩ : ∃ found,
        tids.find? (isEqualCStore (column s padding) query s.numDim) = some found := by
      refine Option.isSome_iff_exists.mp (List.find?_isSome.mpr ⟨tid,hmem,?_⟩)
      rw [hpadding tid htid]
      simpa using heq
    rw [hfound,Option.getD_some] at hsound
    have hlt := h.bounded found (List.mem_of_find?_eq_some hfound)
    obtain ⟨hstored,hequal⟩ := hsound (Nat.ne_of_lt hlt)
    exact hoccurs ⟨found,hstored,hequal⟩
  · rintro (hoccurs | hrow) hfound
    · obtain ⟨hlt,heq,hfirst⟩ := SeqScan.exactMatch_first hoccurs
      have hanswer := (find?_getD_eq_iff_mem h.ascending
        (s.numPoints_lt_notFound.trans' hlt).ne' ((isEqualCStore_column hlt).trans heq)
        (p:=isEqualCStore (column s padding) query s.numDim) fun tid htid =>
          (isEqualCStore_column (htid.trans hlt)).trans (hfirst tid htid)).mpr (h.covers _ hlt heq)
      rw [hanswer]
      exact ⟨hlt,heq⟩
    · cases hsearch : tids.find? (isEqualCStore (column s padding) query s.numDim) with
      | none =>
        rw [hsearch] at hfound
        exact absurd rfl hfound
      | some tid =>
        have hmem := List.mem_of_find?_eq_some hsearch
        have htest := List.find?_some hsearch
        rw [Option.getD_some]
        rcases Nat.lt_or_ge tid s.numPoints with hlt | hge
        · exact ⟨hlt,(isEqualCStore_column hlt).symm.trans htest⟩
        · rw [hpadding tid hge,hrow tid hmem hge] at htest
          cases htest

/-! ## Lines that are looked into -/

/-- Some value of the unit of `w` tuples is in the bin of the query. -/
def UnitHit (s : Store) (bins : Bins) (query : ℕ → ℕ) (w unit : ℕ) : Prop :=
  ∃ tid < s.numPoints, tid/w = unit ∧ getBin64 (s.value tid 0) bins = getBin64 (query 0) bins

/-- The query equals a row of padding in the last line, whose unit is looked into. -/
def HitPadding (s : Store) (bins : Bins) (padding : ℕ → ℕ → ℕ) (query : ℕ → ℕ) (w : ℕ) : Prop :=
  ∃ tid, s.numPoints ≤ tid ∧ tid < 16*((s.numPoints+15)/16) ∧ UnitHit s bins query w (tid/w) ∧
    isEqual (fun dim => padding dim tid) query s.numDim = true

/-- The mask of a point against the imprint of a line. -/
abbrev LineMask (s : Store) (bins : Bins) (padding : ℕ → ℕ → ℕ) (query : ℕ → ℕ) (line : ℕ) : Mask :=
  (lineMasks bins (column s padding 0) s.numPoints).getD line 0#64 &&& makeMaskExact bins (query 0)

variable {bins : Bins}

theorem lineMask_ne_zero {line : ℕ} (hline : line < (s.numPoints+15)/16) :
    LineMask s bins padding query line ≠ 0#64 ↔ UnitHit s bins query 16 line := by
  rw [LineMask,lineMasks_hit bins _ hline]
  constructor
  · rintro ⟨tid,htid,hdiv,hbin⟩
    rw [column,if_pos htid] at hbin
    exact ⟨tid,htid,hdiv,hbin⟩
  · rintro ⟨tid,htid,hdiv,hbin⟩
    refine ⟨tid,htid,hdiv,?_⟩
    rw [column,if_pos htid]
    exact hbin

/-- The tuples of the lines that are looked into. -/
theorem mem_lineTids_hit {lines : List ℕ} (hlines : ∀ line ∈ lines, line < (s.numPoints+15)/16)
    {tid : ℕ} :
    tid ∈ lineTids 16 (lines.filter fun line => LineMask s bins padding query line ≠ 0#64) ↔
      tid/16 ∈ lines ∧ UnitHit s bins query 16 (tid/16) := by
  rw [mem_lineTids (by decide),List.mem_filter,decide_eq_true_eq]
  exact and_congr_right fun hline => lineMask_ne_zero (hlines _ hline)

theorem linePair_ne_zero {pair : ℕ} (hpair : pair < (s.numPoints+15)/16/2) :
    ((lineMasks bins (column s padding 0) s.numPoints).getD (2*pair+1) 0#64 ++
      (lineMasks bins (column s padding 0) s.numPoints).getD (2*pair) 0#64) &&&
        (makeMaskExact bins (query 0) ++ makeMaskExact bins (query 0)) ≠ 0#128 ↔
      UnitHit s bins query 32 pair := by
  rw [Ne,append_and_eq_zero,not_and_or]
  change LineMask s bins padding query (2*pair+1) ≠ 0#64 ∨
    LineMask s bins padding query (2*pair) ≠ 0#64 ↔ _
  rw [lineMask_ne_zero (by omega),lineMask_ne_zero (by omega)]
  constructor
  · rintro (⟨tid,htid,hdiv,hbin⟩ | ⟨tid,htid,hdiv,hbin⟩)
    · exact ⟨tid,htid,by omega,hbin⟩
    · exact ⟨tid,htid,by omega,hbin⟩
  · rintro ⟨tid,htid,hdiv,hbin⟩
    have hline : tid/16 = 2*pair+1 ∨ tid/16 = 2*pair := by omega
    rcases hline with hline | hline
    · exact Or.inl ⟨tid,htid,hline,hbin⟩
    · exact Or.inr ⟨tid,htid,hline,hbin⟩

/-- A point equal to the query has its bin. -/
theorem unitHit_of_equal (hdim : 1 ≤ s.numDim) {tid : ℕ} (htid : tid < s.numPoints)
    (heq : isEqual (s.value tid) query s.numDim = true) (w : ℕ) :
    UnitHit s bins query w (tid/w) :=
  ⟨tid,htid,rfl,congrArg (getBin64 · bins) (isEqual_iff.mp heq 0 hdim)⟩

theorem Tested.sound_iff_hit {tids : List ℕ} (h : Tested s query tids) {w : ℕ}
    (hmem : ∀ tid, s.numPoints ≤ tid → (tid ∈ tids ↔
      tid < 16*((s.numPoints+15)/16) ∧ UnitHit s bins query w (tid/w))) :
    Sound s query ((tids.find? (isEqualCStore (column s padding) query s.numDim)).getD notFound) ↔
      Occurs s query ∨ ¬ HitPadding s bins padding query w := by
  rw [h.sound_iff]
  refine or_congr_right ?_
  constructor
  · rintro hrow ⟨tid,hge,hlt,hhit,heq⟩
    rw [hrow tid ((hmem tid hge).mpr ⟨hlt,hhit⟩) hge] at heq
    cases heq
  · intro hnot tid htid hge
    obtain ⟨hlt,hhit⟩ := (hmem tid hge).mp htid
    rw [← Bool.not_eq_true]
    exact fun heq => hnot ⟨tid,hge,hlt,hhit,heq⟩

/-- Every block of the first loop with a tuple that has the first word of the query. -/
theorem SIMDSeqScan.equalMask_ne_zero {col : Memory} {simdLine value tid : ℕ}
    (hblock : tid/32 = simdLine) (htid : col tid = value) :
    equalMask col (8*simdLine) value ≠ 0#32 := by
  intro hzero
  have hbit := getLsbD_packNibbles (fun i j => col (4*(8*simdLine+i)+j) == value)
    (Nat.mod_lt tid (show 0 < 32 by decide))
  have hpos : 4*(8*simdLine+tid%32/4)+tid%32%4 = tid := by omega
  rw [hpos,htid,beq_self_eq_true] at hbit
  change (equalMask col (8*simdLine) value).getLsbD (tid%32) = true at hbit
  rw [hzero,BitVec.getLsbD_zero] at hbit
  cases hbit

/-! ## The four searches -/

section Searches
variable (hn : 1 ≤ s.numPoints) (hdim : 1 ≤ s.numDim)
include hn hdim

/-- The lines of the scalar index. -/
theorem ImprintIndexWithoutCompression.exactMatch_sound_iff (bins : ℕ → Bins)
    (padding : ℕ → ℕ → ℕ) (result : Bitmap) :
    Sound s query (exactMatch s (buildIndex s bins padding result) query) ↔
      Occurs s query ∨ ¬ HitPadding s (bins 0) padding query 16 := by
  have hmem : ∀ tid, tid ∈ lineTids 16 ((List.range ((s.numPoints+15)/16)).filter
      fun line => LineMask s (bins 0) padding query line ≠ 0#64) ↔
      tid < 16*((s.numPoints+15)/16) ∧ UnitHit s (bins 0) query 16 (tid/16) := by
    intro tid
    have hline : tid/16 < (s.numPoints+15)/16 ↔ tid < 16*((s.numPoints+15)/16) := by omega
    rw [mem_lineTids_hit fun line => List.mem_range.mp,List.mem_range,hline]
  have htested : Tested s query (lineTids 16 ((List.range ((s.numPoints+15)/16)).filter
      fun line => LineMask s (bins 0) padding query line ≠ 0#64)) := by
    refine ⟨lineTids_ascending (List.pairwise_lt_range.filter _),?_,?_⟩
    · intro tid htid
      have hlt := ((hmem tid).mp htid).1
      exact Store.lt_notFound (s:=s) (by omega)
    · intro tid htid heq
      exact (hmem tid).mpr ⟨by omega,unitHit_of_equal hdim htid heq 16⟩
  have hfound : (List.range ((s.numPoints+15)/16)).foldl (exactLine
      (lineMasks (bins 0) (column s padding 0) s.numPoints) (makeMaskExact (bins 0) (query 0))
      (isEqualCStore (column s padding) query s.numDim)) none = _ :=
    foldl_find? (fun line => LineMask s (bins 0) padding query line ≠ 0#64) _ none
  rw [Option.none_or] at hfound
  simp only [exactMatch,buildIndex,createColumnImprint_eq _ _ hn,hfound]
  exact htested.sound_iff_hit fun tid _ => hmem tid

/-- The pairs of lines and the line that is left. -/
theorem ImprintSIMD64IndexWithoutCompression.exactMatch_sound_iff (bins : ℕ → Bins)
    (padding : ℕ → ℕ → ℕ) (result : Bitmap) :
    Sound s query (exactMatch s (buildIndex s bins padding result) query) ↔
      Occurs s query ∨ ¬ HitPadding s (bins 0) padding query
        (if (s.numPoints+15)/16%2 = 0 then 32 else 16) := by
  let lines := (s.numPoints+15)/16
  let imps := lineMasks (bins 0) (column s padding 0) s.numPoints
  let mask := makeMaskExact (bins 0) (query 0)
  let pairs := lineTids 32 ((List.range (lines/2)).filter fun pair =>
    (imps.getD (2*pair+1) 0#64 ++ imps.getD (2*pair) 0#64) &&& (mask ++ mask) ≠ 0#128)
  let rest := lineTids 16 ((List.range' (lines/2*2) (lines-lines/2*2)).filter fun line =>
    LineMask s (bins 0) padding query line ≠ 0#64)
  have hlines : lines = (s.numPoints+15)/16 := rfl
  have hpairs : ∀ tid, tid ∈ pairs ↔ tid/32 < lines/2 ∧ UnitHit s (bins 0) query 32 (tid/32) := by
    intro tid
    rw [mem_lineTids (by decide),List.mem_filter,List.mem_range,decide_eq_true_eq]
    exact and_congr_right fun hlt => linePair_ne_zero hlt
  have hrest : ∀ tid, tid ∈ rest ↔
      (lines/2*2 ≤ tid/16 ∧ tid/16 < lines) ∧ UnitHit s (bins 0) query 16 (tid/16) := by
    intro tid
    have hline : ∀ line, line ∈ List.range' (lines/2*2) (lines-lines/2*2) ↔
        lines/2*2 ≤ line ∧ line < lines := by
      intro line
      rw [List.mem_range'_1]
      omega
    rw [mem_lineTids_hit fun line h => ((hline line).mp h).2,hline]
  have htested : Tested s query (pairs ++ rest) := by
    refine .append (m:=32*(lines/2)) (lineTids_ascending (List.pairwise_lt_range.filter _))
      (lineTids_ascending (List.Pairwise.filter _ List.pairwise_lt_range')) (by omega) ?_ ?_ ?_
    · intro tid htid
      have := ((hpairs tid).mp htid).1
      omega
    · intro tid htid
      have := ((hrest tid).mp htid).1
      omega
    · intro tid htid heq
      rw [List.mem_append,hpairs,hrest]
      by_cases hpair : tid/32 < lines/2
      · exact Or.inl ⟨hpair,unitHit_of_equal hdim htid heq 32⟩
      · exact Or.inr ⟨by omega,unitHit_of_equal hdim htid heq 16⟩
  have hfirst : (List.range (lines/2)).foldl (exactPair imps mask
      (isEqualCStore (column s padding) query s.numDim)) none = _ :=
    foldl_find? (fun pair => (imps.getD (2*pair+1) 0#64 ++ imps.getD (2*pair) 0#64) &&&
      (mask ++ mask) ≠ 0#128) _ none
  have hsecond : ∀ found, (List.range' (lines/2*2) (lines-lines/2*2)).foldl (exactLine imps mask
      (isEqualCStore (column s padding) query s.numDim)) found = _ :=
    foldl_find? (fun line => LineMask s (bins 0) padding query line ≠ 0#64) _
  have hanswer : exactMatch s (buildIndex s bins padding result) query =
      ((pairs ++ rest).find? (isEqualCStore (column s padding) query s.numDim)).getD notFound := by
    simp only [exactMatch,buildIndex,ImprintIndexWithoutCompression.buildIndex,
      ImprintIndexWithoutCompression.createColumnImprint_eq _ _ hn]
    rw [hfirst,hsecond,Option.none_or,List.find?_append]
  rw [hanswer]
  refine htested.sound_iff_hit fun tid htid => ?_
  rw [List.mem_append,hpairs,hrest]
  split
  · rename_i heven
    constructor
    · rintro (⟨hlt,hhit⟩ | ⟨⟨hlo,hhi⟩,_⟩)
      · exact ⟨by omega,hhit⟩
      · omega
    · rintro ⟨hlt,hhit⟩
      exact Or.inl ⟨by omega,hhit⟩
  · rename_i hodd
    constructor
    · rintro (⟨hlt,_⟩ | ⟨⟨_,hhi⟩,hhit⟩)
      · omega
      · exact ⟨by omega,hhit⟩
    · rintro ⟨hlt,hhit⟩
      exact Or.inr ⟨by omega,hhit⟩

/-- The blocks of the first loop and the tuples of the second one. -/
theorem SIMDSeqScan.exactMatch_sound_iff (padding : ℕ → ℕ → ℕ) (result : Bitmap) :
    Sound s query (exactMatch s (buildIndex s padding result) query) ↔
      Occurs s query ∨ ∀ tid, s.numPoints ≤ tid →
        tid < max (32*(((s.numPoints+7)/4+7)/8)) (s.numPoints+7) →
          isEqual (fun dim => padding dim tid) query s.numDim = false := by
  let passes := ((s.numPoints+7)/4+7)/8
  let col := column s padding 0
  let blocks := lineTids 32 ((List.range passes).filter fun block =>
    equalMask col (8*block) (query 0) ≠ 0#32)
  let rest := List.range' (8*passes*4) (s.numPoints+7-8*passes*4)
  have hpasses : passes = ((s.numPoints+7)/4+7)/8 := rfl
  have hblocks : ∀ tid, tid ∈ blocks ↔
      tid/32 < passes ∧ equalMask col (8*(tid/32)) (query 0) ≠ 0#32 := by
    intro tid
    rw [mem_lineTids (by decide),List.mem_filter,List.mem_range,decide_eq_true_eq]
  have hrest : ∀ tid, tid ∈ rest ↔ 32*passes ≤ tid ∧ tid < s.numPoints+7 := by
    intro tid
    rw [List.mem_range'_1]
    omega
  -- a tuple that equals the query is tested, wherever it stands
  have hequal : ∀ tid, tid < max (32*passes) (s.numPoints+7) →
      isEqualCStore (column s padding) query s.numDim tid = true → tid ∈ blocks ++ rest := by
    intro tid hlt heq
    rw [List.mem_append,hblocks,hrest]
    by_cases hblock : tid/32 < passes
    · exact Or.inl ⟨hblock,equalMask_ne_zero rfl (isEqual_iff.mp heq 0 hdim)⟩
    · exact Or.inr (by omega)
  have hbound : ∀ tid ∈ blocks ++ rest, tid < max (32*passes) (s.numPoints+7) := by
    intro tid htid
    rcases List.mem_append.mp htid with hmem | hmem
    · have := ((hblocks tid).mp hmem).1
      omega
    · have := (hrest tid).mp hmem
      omega
  have htested : Tested s query (blocks ++ rest) := by
    refine ⟨?_,?_,?_⟩
    · refine List.pairwise_append.mpr ⟨lineTids_ascending (List.pairwise_lt_range.filter _),
        List.pairwise_lt_range',?_⟩
      intro x hx y hy
      have := ((hblocks x).mp hx).1
      have := ((hrest y).mp hy).1
      omega
    · intro tid htid
      have hlt := hbound tid htid
      have hmax : notFound = 2^32-1 := rfl
      have hle : s.numPoints ≤ 2^31-1 := s.numPoints_le
      omega
    · intro tid htid heq
      exact hequal tid (by omega) ((isEqualCStore_column htid).trans heq)
  have hfirst : ((List.range passes).map (8*·)).foldl (exactBlock col (query 0)
      (isEqualCStore (column s padding) query s.numDim)) none =
      (blocks.find? (isEqualCStore (column s padding) query s.numDim)) := by
    have hfold : (List.range passes).foldl _ none = _ := foldl_find? (w:=32)
      (fun block => equalMask col (8*block) (query 0) ≠ 0#32)
      (isEqualCStore (column s padding) query s.numDim) none
    rw [Option.none_or] at hfold
    rw [List.foldl_map,← hfold]
    congr 1
    funext found block
    have hstart : 8*block*4 = block*32 := by omega
    rw [exactBlock,hstart]
  have hanswer : exactMatch s (buildIndex s padding result) query =
      ((blocks ++ rest).find? (isEqualCStore (column s padding) query s.numDim)).getD notFound := by
    simp only [exactMatch,buildIndex]
    rw [hfirst,List.find?_append]
  rw [hanswer,htested.sound_iff]
  refine or_congr_right ⟨fun hrow tid hge hlt => ?_,fun hrow tid htid hge => hrow tid hge (hbound tid htid)⟩
  rw [← Bool.not_eq_true]
  intro heq
  have htid : isEqualCStore (column s padding) query s.numDim tid = true := by
    simpa only [isEqualCStore,column,if_neg (Nat.not_lt.mpr hge)] using heq
  rw [hrow tid (hequal tid hlt htid) hge] at heq
  cases heq

end Searches

/-- A lookup in the columns is sound exactly when the query equals a point of the store or none
of the rows of padding that it looks at. The imprint indexes look at the padding of the last line,
or of the last pair of lines, if a value there has the bin of the query, and the SIMD scan at the
padding of its last block and at seven rows behind the store. -/
theorem columnExactMatch_sound_iff (s : Store) (hn : 1 ≤ s.numPoints) (hdim : 1 ≤ s.numDim)
    (bins : ℕ → Bins) (padding : ℕ → ℕ → ℕ) (result : Bitmap) (query : ℕ → ℕ) :
    (Sound s query (ImprintIndexWithoutCompression.exactMatch s
        (ImprintIndexWithoutCompression.buildIndex s bins padding result) query) ↔
      Occurs s query ∨ ¬ HitPadding s (bins 0) padding query 16) ∧
    (Sound s query (ImprintSIMDIndexWithoutCompression.exactMatch s
        (ImprintSIMDIndexWithoutCompression.buildIndex s bins padding result) query) ↔
      Occurs s query ∨ ¬ HitPadding s (bins 0) padding query 16) ∧
    (Sound s query (ImprintSIMD64IndexWithoutCompression.exactMatch s
        (ImprintSIMD64IndexWithoutCompression.buildIndex s bins padding result) query) ↔
      Occurs s query ∨ ¬ HitPadding s (bins 0) padding query
        (if (s.numPoints+15)/16%2 = 0 then 32 else 16)) ∧
    (Sound s query (SIMDSeqScan.exactMatch s (SIMDSeqScan.buildIndex s padding result) query) ↔
      Occurs s query ∨ ∀ tid, s.numPoints ≤ tid →
        tid < max (32*(((s.numPoints+7)/4+7)/8)) (s.numPoints+7) →
          isEqual (fun dim => padding dim tid) query s.numDim = false) :=
  ⟨ImprintIndexWithoutCompression.exactMatch_sound_iff hn hdim bins padding result,
    ImprintIndexWithoutCompression.exactMatch_sound_iff hn hdim bins padding result,
    ImprintSIMD64IndexWithoutCompression.exactMatch_sound_iff hn hdim bins padding result,
    SIMDSeqScan.exactMatch_sound_iff hn hdim padding result⟩

theorem columnExactMatch_sound_grid :
    Sound gridStore (fun dim => if dim = 0 then 5 else 0)
        (ImprintIndexWithoutCompression.exactMatch gridStore
          (ImprintIndexWithoutCompression.buildIndex gridStore (fun _ w => w/9) (fun _ _ => 9)
            fun _ => 7#8) fun dim => if dim = 0 then 5 else 0) ∧
      Sound gridStore (fun dim => if dim = 0 then 5 else 0)
        (SIMDSeqScan.exactMatch gridStore (SIMDSeqScan.buildIndex gridStore (fun _ _ => 9)
          fun _ => 7#8) fun dim => if dim = 0 then 5 else 0) := by
  have h := columnExactMatch_sound_iff gridStore (by decide) (by decide) (fun _ w => w/9)
    (fun _ _ => 9) (fun _ => 7#8) fun dim => if dim = 0 then 5 else 0
  have hoccurs : Occurs gridStore fun dim => if dim = 0 then 5 else 0 := ⟨3,by decide⟩
  exact ⟨h.1.mpr (Or.inl hoccurs),h.2.2.2.mpr (Or.inl hoccurs)⟩

/-- The row behind the four points of the grid is padding, and it is what the query asks for. -/
theorem columnExactMatch_phantom :
    ImprintIndexWithoutCompression.exactMatch gridStore
        (ImprintIndexWithoutCompression.buildIndex gridStore (fun _ _ => 0) (fun _ _ => 9)
          fun _ => 0#8) (fun _ => 9) = 4 ∧
      ImprintSIMDIndexWithoutCompression.exactMatch gridStore
        (ImprintSIMDIndexWithoutCompression.buildIndex gridStore (fun _ _ => 0) (fun _ _ => 9)
          fun _ => 0#8) (fun _ => 9) = 4 ∧
      ImprintSIMD64IndexWithoutCompression.exactMatch gridStore
        (ImprintSIMD64IndexWithoutCompression.buildIndex gridStore (fun _ _ => 0) (fun _ _ => 9)
          fun _ => 0#8) (fun _ => 9) = 4 ∧
      SIMDSeqScan.exactMatch gridStore
        (SIMDSeqScan.buildIndex gridStore (fun _ _ => 9) fun _ => 0#8) (fun _ => 9) = 4 ∧
      ¬ Sound gridStore (fun _ => 9) 4 := by
  refine ⟨by decide,by decide,by decide,by decide,?_⟩
  intro hsound
  exact absurd (hsound (by decide)).1 (by decide)

end ElfIndex
