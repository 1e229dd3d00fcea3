import ElfIndex.Imprint.Kernels
import ElfIndex.Imprint.Lines

/-! # Imprints without compression

One imprint per cache line. The result bitmap starts with all bits set and each column of
the query only clears bits; it is padded to whole lines.
-/
namespace ElfIndex
open WordMemory Bitmap

structure ColumnImprint where
  bins : Bins
  imps : List Mask

/-- The members of the index; the result bitmap keeps what the last query left. -/
structure ImprintIndexWithoutCompression where
  cols : ℕ → Memory
  columnImprints : ℕ → ColumnImprint
  result : Bitmap

namespace ImprintIndexWithoutCompression

/-- The imprint vector of a column. -/
def createColumnImprint (bins : Bins) (col : Memory) (numPoints : ℕ) : ColumnImprint :=
  let st := (List.range numPoints).foldl
    (tupleStep bins col fun imps mask => imps ++ [mask]) ([],0#64)
  ⟨bins,st.1 ++ [st.2]⟩

/-- The index of a store, for any borders of the columns. -/
def buildIndex (s : Store) (bins : ℕ → Bins) (padding : ℕ → ℕ → ℕ) (result : Bitmap) :
    ImprintIndexWithoutCompression where
  cols := column s padding
  columnImprints := fun dim => createColumnImprint (bins dim) (column s padding dim) s.numPoints
  result := result

/-- One line of the loop of `range_select_column`. -/
def selectLine (imps : List Mask) (mask innermask : Mask) (col : Memory) (lower upper : ℕ)
    (result : Bitmap) (curCacheLine : ℕ) : Bitmap :=
  let curImprint := imps.getD curCacheLine 0#64
  let tid := 16*curCacheLine
  if curImprint &&& mask ≠ 0#64 then
    if curImprint &&& innermask ≠ 0#64 then checkTidsAnd col tid result lower upper else result
  else setByte (setByte result (tid/8) 0#8) (tid/8+1) 0#8

def rangeSelectColumn (s : Store) (ix : ImprintIndexWithoutCompression) (curDim lower upper : ℕ)
    (result : Bitmap) : Bitmap :=
  let imprints := ix.columnImprints curDim
  let (mask,tempInnermask) := makeMask s imprints.bins lower upper
  (List.range ((s.numPoints+15)/16)).foldl
    (selectLine imprints.imps mask (~~~tempInnermask) (ix.cols curDim) lower upper) result

/-- `memset(this->result,255,(STORE->NUM_POINTS+7)/8)` -/
def setAll (s : Store) (result : Bitmap) : Bitmap := fun i =>
  if i < (s.numPoints+7)/8 then 255#8 else result i

def partialMatch (s : Store) (ix : ImprintIndexWithoutCompression) (q : Query) :
    Option (List ℕ) :=
  let result := (List.range s.numDim).foldl (fun result dim =>
    if q.columnsForSelect dim then
      rangeSelectColumn s ix dim (q.lowerBound dim) (q.upperBound dim) result
    else result) (setAll s ix.result)
  returnTids result s.numPoints

def windowQuery (s : Store) (ix : ImprintIndexWithoutCompression) (lowerBound upperBound : ℕ → ℕ) :
    Option (List ℕ) :=
  let result := (List.range s.numDim).foldl (fun result dim =>
    rangeSelectColumn s ix dim (lowerBound dim) (upperBound dim) result) (setAll s ix.result)
  returnTids result s.numPoints

/-! ## Correctness -/

theorem createColumnImprint_eq (bins : Bins) (col : Memory) {n : ℕ} (hn : 1 ≤ n) :
    createColumnImprint bins col n = ⟨bins,lineMasks bins col n⟩ := by
  obtain ⟨full,last,hmasks,hrun⟩ :=
    tupleStep_run bins col (fun imps mask => imps ++ [mask]) [] hn
  have hfull : ∀ (l init : List Mask), l.foldl (fun imps mask => imps ++ [mask]) init = init ++ l := by
    intro l
    induction l with
    | nil => intro init; rw [List.foldl_nil,List.append_nil]
    | cons mask l ih =>
      intro init
      rw [List.foldl_cons,ih,List.append_assoc]
      rfl
  rw [createColumnImprint,hrun,hfull,hmasks]
  rfl

variable {s : Store} {lower upper : ℕ}

/-- One line clears the bits of its tuples that are not between the bounds. -/
theorem bit_selectLine {bins : Bins} {col : Memory} (hbins : Monotone bins) (hlu : lower ≤ upper)
    (hv : ∀ tid < s.numPoints, s.dimMin ≤ col tid ∧ col tid ≤ s.dimMax) (result : Bitmap)
    (line : ℕ) {tid : ℕ} (htid : tid < s.numPoints) :
    bit (selectLine (lineMasks bins col s.numPoints) (makeMask s bins lower upper).1
      (~~~(makeMask s bins lower upper).2) col lower upper result line) tid =
      (bit result tid && if tid/16 = line then isIn lower upper (col tid) else true) := by
  simp only [selectLine,ne_eq,ite_not]
  by_cases hmiss : (lineMasks bins col s.numPoints).getD line 0#64 &&&
      (makeMask s bins lower upper).1 = 0#64
  · rw [if_pos hmiss,bit_setLine]
    by_cases hline : tid/16 = line
    · have hin := lineMasks_miss hbins htid (hline ▸ hmiss)
      rw [if_pos hline,if_pos hline,hin,Bool.and_false,ite_self]
      exact BitVec.getLsbD_zero
    · rw [if_neg hline,if_neg hline,Bool.and_true]
  · rw [if_neg hmiss]
    by_cases hinner : (lineMasks bins col s.numPoints).getD line 0#64 &&&
        ~~~(makeMask s bins lower upper).2 = 0#64
    · rw [if_pos hinner]
      by_cases hline : tid/16 = line
      · have hin := lineMasks_inner hbins hlu (hv tid htid) htid (hline ▸ hinner)
        rw [if_pos hline,hin,Bool.and_true]
      · rw [if_neg hline,Bool.and_true]
    · rw [if_neg hinner,bit_checkTidsAnd]

/-- A column clears exactly the bits of the tuples that are not between the bounds. -/
theorem bit_rangeSelectColumn (hn : 1 ≤ s.numPoints) {bins : ℕ → Bins} {padding : ℕ → ℕ → ℕ}
    {dim : ℕ} (hbins : Monotone (bins dim)) (hlu : lower ≤ upper)
    (hv : ∀ tid < s.numPoints, s.dimMin ≤ s.value tid dim ∧ s.value tid dim ≤ s.dimMax)
    (old result : Bitmap) {tid : ℕ} (htid : tid < s.numPoints) :
    bit (rangeSelectColumn s (buildIndex s bins padding old) dim lower upper result) tid =
      (bit result tid && isIn lower upper (s.value tid dim)) := by
  have hcol : ∀ t < s.numPoints, column s padding dim t = s.value t dim := fun t ht => if_pos ht
  have hline : ∀ res line, bit (selectLine (lineMasks (bins dim) (column s padding dim) s.numPoints)
      (makeMask s (bins dim) lower upper).1 (~~~(makeMask s (bins dim) lower upper).2)
      (column s padding dim) lower upper res line) tid =
      (bit res tid && if tid/16 = line then isIn lower upper (s.value tid dim) else true) := by
    intro res line
    rw [bit_selectLine hbins hlu (fun t ht => by rw [hcol t ht]; exact hv t ht) res line htid,
      hcol tid htid]
  simp only [rangeSelectColumn,buildIndex,createColumnImprint_eq _ _ hn,List.range_eq_range']
  rw [bit_foldBlocks hline,if_pos (by omega)]

theorem bit_setAll (result : Bitmap) {tid : ℕ} (htid : tid < s.numPoints) :
    bit (setAll s result) tid = true := bit_memset_ones result (by omega)

theorem partialMatch_eq (hvalues : ∀ tid < s.numPoints, ∀ dim < s.numDim,
      s.dimMin ≤ s.value tid dim ∧ s.value tid dim ≤ s.dimMax)
    {bins : ℕ → Bins} (hbins : ∀ dim < s.numDim, Monotone (bins dim)) (padding : ℕ → ℕ → ℕ)
    (result : Bitmap) {q : Query} (hq : ∀ dim < s.numDim, q.columnsForSelect dim = true →
      q.lowerBound dim ≤ q.upperBound dim) :
    partialMatch s (buildIndex s bins padding result) q = some (SeqScan.partialMatch s q) := by
  have hselect : ∀ dim < s.numDim, q.columnsForSelect dim = true → ∀ res, ∀ tid < s.numPoints,
      bit (rangeSelectColumn s (buildIndex s bins padding result) dim (q.lowerBound dim)
        (q.upperBound dim) res) tid =
        (bit res tid && isIn (q.lowerBound dim) (q.upperBound dim) (s.value tid dim)) := by
    intro dim hdim hs res tid htid
    exact bit_rangeSelectColumn (by omega) (hbins dim hdim) (hq dim hdim hs)
      (fun t ht => hvalues t ht dim hdim) result res htid
  exact returnTids_foldColumns hselect fun tid htid => bit_setAll result htid

/-- Partial-match and window queries on the uncompressed imprints answer like the row scan,
whatever the padding words and the old result bitmap hold. -/
theorem uncompressed_exact (s : Store) (_hn : 1 ≤ s.numPoints)
    (hvalues : ∀ tid < s.numPoints, ∀ dim < s.numDim,
      s.dimMin ≤ s.value tid dim ∧ s.value tid dim ≤ s.dimMax)
    (bins : ℕ → Bins) (hbins : ∀ dim < s.numDim, Monotone (bins dim)) (padding : ℕ → ℕ → ℕ)
    (result : Bitmap) :
    (∀ q : Query, (∀ dim < s.numDim, q.columnsForSelect dim = true →
        q.lowerBound dim ≤ q.upperBound dim) →
      partialMatch s (buildIndex s bins padding result) q = some (SeqScan.partialMatch s q)) ∧
    ∀ lowerBound upperBound : ℕ → ℕ, (∀ dim < s.numDim, lowerBound dim ≤ upperBound dim) →
      windowQuery s (buildIndex s bins padding result) lowerBound upperBound =
        some (SeqScan.windowQuery s lowerBound upperBound) := by
  refine ⟨fun q hq => partialMatch_eq hvalues hbins padding result hq,?_⟩
  intro lowerBound upperBound hlu
  have hwindow : windowQuery s (buildIndex s bins padding result) lowerBound upperBound =
      partialMatch s (buildIndex s bins padding result) (Query.window lowerBound upperBound) := by
    simp only [windowQuery,partialMatch,Query.window,if_true]
  rw [hwindow]
  exact partialMatch_eq hvalues hbins padding result fun dim hdim _ => hlu dim hdim

theorem uncompressed_exact_grid :
    (∀ q : Query, (∀ dim < 2, q.columnsForSelect dim = true →
        q.lowerBound dim ≤ q.upperBound dim) →
      partialMatch gridStore (buildIndex gridStore (fun _ w => w/9) (fun _ _ => 9) fun _ => 7#8) q =
        some (SeqScan.partialMatch gridStore q)) ∧
    ∀ lowerBound upperBound : ℕ → ℕ, (∀ dim < 2, lowerBound dim ≤ upperBound dim) →
      windowQuery gridStore (buildIndex gridStore (fun _ w => w/9) (fun _ _ => 9) fun _ => 7#8)
        lowerBound upperBound = some (SeqScan.windowQuery gridStore lowerBound upperBound) :=
  uncompressed_exact gridStore (by decide) (by decide) (fun _ w => w/9)
    (fun _ _ v w h => Nat.div_le_div_right h) (fun _ _ => 9) fun _ => 7#8

end ImprintIndexWithoutCompression
end ElfIndex
