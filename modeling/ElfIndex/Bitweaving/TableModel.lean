import ElfIndex.Bitweaving.TableStates

/-! # What a table shows

A table shows a number of tuples and for each column name the codes of its positions, as far as
they do not come from the memory of naive blocks. The operations are defined on this model alone,
without blocks, words and column ids, and the tables of the library refine it: they fail at the
same operations, and what the model knows of a code is what is read and scanned.
-/
namespace ElfIndex.Bitweaving

structure ColumnModel where
  type : ColumnType
  codeSize : ℕ
  codes : ℕ → Option ℕ

structure TableModel where
  num : ℕ
  columns : String → Option ColumnModel

/-- The code at a new position. -/
def ColumnType.fresh (type : ColumnType) : Option ℕ := if type = .kNaive then none else some 0

/-- What is known behind a write. -/
def ColumnType.putKnown (type : ColumnType) (old : Option ℕ) (code : ℕ) : Option ℕ :=
  if type = .kBitWeavingH then old.map (· ||| code) else some code

theorem ColumnType.fresh_eq_some {type : ColumnType} {code : ℕ} (h : type.fresh = some code) :
    type ≠ .kNaive ∧ code = 0 := by
  cases type with
  | kNaive => cases h
  | kBitWeavingH => exact ⟨by decide,(Option.some.inj h).symm⟩
  | kBitWeavingV => exact ⟨by decide,(Option.some.inj h).symm⟩

namespace ColumnModel

/-- Positions keep their code as long as their block is there. -/
def resize (m : ColumnModel) (num num' : ℕ) : ColumnModel :=
  {m with codes := fun pos =>
    if pos/kNumCodesPerBlock < numColumnBlocks num ∧ pos/kNumCodesPerBlock < numColumnBlocks num'
    then m.codes pos else m.type.fresh}

def write (m : ColumnModel) (pos : ℕ) (codes : List ℕ) : ColumnModel :=
  {m with codes := fun p =>
    if pos ≤ p ∧ p < pos+codes.length then m.type.putKnown (m.codes p) (codes.getD (p-pos) 0)
    else m.codes p}

theorem type_mk (type : ColumnType) (codeSize : ℕ) (codes : ℕ → Option ℕ) :
    (ColumnModel.mk type codeSize codes).type = type := rfl

theorem codeSize_mk (type : ColumnType) (codeSize : ℕ) (codes : ℕ → Option ℕ) :
    (ColumnModel.mk type codeSize codes).codeSize = codeSize := rfl

-- `rfl` would compare the codes of both models first
theorem type_resize (m : ColumnModel) (num num' : ℕ) : (m.resize num num').type = m.type := by
  rw [resize,type_mk]

theorem codeSize_resize (m : ColumnModel) (num num' : ℕ) :
    (m.resize num num').codeSize = m.codeSize := by
  rw [resize,codeSize_mk]

theorem codes_resize (m : ColumnModel) (num num' pos : ℕ) : (m.resize num num').codes pos =
    if pos/kNumCodesPerBlock < numColumnBlocks num ∧ pos/kNumCodesPerBlock < numColumnBlocks num'
    then m.codes pos else m.type.fresh := rfl

theorem codes_write (m : ColumnModel) (pos : ℕ) (codes : List ℕ) (p : ℕ) :
    (m.write pos codes).codes p = if pos ≤ p ∧ p < pos+codes.length
      then m.type.putKnown (m.codes p) (codes.getD (p-pos) 0) else m.codes p := rfl

end ColumnModel

namespace TableModel

def create : TableModel := ⟨0,fun _ => none⟩

def resize (m : TableModel) (num : ℕ) : TableModel :=
  ⟨num,fun name => (m.columns name).map (·.resize m.num num)⟩

def setColumn (m : TableModel) (name : String) (column : Option ColumnModel) : TableModel :=
  {m with columns := Function.update m.columns name column}

theorem columns_setColumn (m : TableModel) (name : String) (column : Option ColumnModel) :
    (m.setColumn name column).columns name = column := by
  rw [setColumn]
  dsimp only
  rw [Function.update_self]

theorem columns_setColumn_of_ne (m : TableModel) {name name' : String} (h : name' ≠ name)
    (column : Option ColumnModel) :
    (m.setColumn name column).columns name' = m.columns name' := by
  rw [setColumn]
  dsimp only
  rw [Function.update_of_ne h]

def step (m : TableModel) : TableOp → Option TableModel
  | .addColumn name type codeSize =>
    if (m.columns name).isSome then some m
    else some (m.setColumn name (some ⟨type,codeSize,fun _ => type.fresh⟩))
  | .removeColumn name => some (m.setColumn name none)
  | .resize num => some (m.resize num)
  | .bulkload name codes pos => do
    let column ← m.columns name
    let num := max m.num (pos+codes.length)
    if codes = [] ∨ pos+codes.length ≤ room num then
      some ((m.resize num).setColumn name (some ((column.resize m.num num).write pos codes)))
    else none
  | .setCode name pos code => do
    let column ← m.columns name
    if pos/kNumCodesPerBlock < numColumnBlocks m.num then
      some (if pos < room m.num then m.setColumn name (some (column.write pos [code])) else m)
    else none

/-- The codes fit the column they are for, and no position leaves the machine words. -/
def Fits (m : TableModel) : TableOp → Prop
  | .addColumn _ _ codeSize => 0 < codeSize ∧ codeSize ≤ 32
  | .bulkload name codes pos => pos+codes.length < 2^64 ∧
      ∀ c, m.columns name = some c → ∀ code ∈ codes, code < 2^c.codeSize
  | .setCode name _ code => ∀ c, m.columns name = some c → code < 2^c.codeSize
  | _ => True

/-- All operations of a run fit. -/
def FitsAll : TableModel → List TableOp → Prop
  | _, [] => True
  | m, op::ops => m.Fits op ∧ ∀ m', m.step op = some m' → FitsAll m' ops

end TableModel

/-! ## Refinement -/

/-- The column holds the codes that are known. -/
structure ColumnRep.Shows (c : ColumnRep) (m : ColumnModel) : Prop where
  type : c.type = m.type
  codeSize : c.codeSize = m.codeSize
  code : ∀ pos code, m.codes pos = some code → c.code pos = code

structure TableRep.Refines (t : TableRep) (m : TableModel) : Prop where
  sound : t.Sound
  num : t.num = m.num
  columns : ∀ name, Option.Rel ColumnRep.Shows (t.getColumn name) (m.columns name)

variable {N : ℕ} {t : TableRep} {m : TableModel} {words : Memory} {c c' : ColumnRep}
  {cm : ColumnModel} {name : String}

theorem ColumnRep.code_of_behind (h : c.Sound N) {pos : ℕ}
    (hpos : numColumnBlocks N ≤ pos/kNumCodesPerBlock) : c.code pos = 0 := by
  rw [ColumnRep.code,codeAt,List.getElem?_eq_none (h.shaped.length ▸ hpos)]

namespace ColumnRep

theorem Shows.resize {num num' : ℕ} (h : c.Shows cm) (hres : c.Resized num num' c') :
    c'.Shows (cm.resize num num') := by
  refine ⟨?_,?_,fun pos code hcode => ?_⟩
  · rw [ColumnModel.type_resize,hres.type,h.type]
  · rw [ColumnModel.codeSize_resize,hres.codeSize,h.codeSize]
  · rw [ColumnModel.codes_resize] at hcode
    by_cases hboth : pos/kNumCodesPerBlock < numColumnBlocks num ∧
        pos/kNumCodesPerBlock < numColumnBlocks num'
    · rw [if_pos hboth] at hcode
      rw [hres.kept pos hboth.2 hboth.1,h.code pos code hcode]
    · rw [if_neg hboth] at hcode
      obtain ⟨hpacked,hzero⟩ := ColumnType.fresh_eq_some hcode
      rw [hzero]
      by_cases hold : pos/kNumCodesPerBlock < numColumnBlocks num
      · exact code_of_behind hres.sound (Nat.not_lt.mp fun hnew => hboth ⟨hold,hnew⟩)
      · have hpacked : c.type ≠ .kNaive := by
          rw [h.type]
          exact hpacked
        exact hres.zero hpacked pos (Nat.not_lt.mp hold)

/-- A write puts its code on top of what is known. -/
theorem putKnown_sound {type : ColumnType} {old : ℕ} {known : Option ℕ} {code new : ℕ}
    (hknown : ∀ x, known = some x → old = x) (h : type.putKnown known code = some new) :
    type.put old code = new := by
  cases type with
  | kBitWeavingH =>
    obtain ⟨x,hx,rfl⟩ := Option.map_eq_some_iff.mp h
    rw [hknown x hx]
    rfl
  | kNaive => exact Option.some.inj h
  | kBitWeavingV => exact Option.some.inj h

theorem Shows.write (h : c.Shows cm) {pos : ℕ} {codes : List ℕ} (htype : c'.type = c.type)
    (hsize : c'.codeSize = c.codeSize)
    (hcode : ∀ p, c'.code p = if pos ≤ p ∧ p < pos+codes.length
      then c.type.put (c.code p) (codes.getD (p-pos) 0) else c.code p) :
    c'.Shows (cm.write pos codes) := by
  refine ⟨htype.trans h.type,hsize.trans h.codeSize,fun p code hp => ?_⟩
  rw [ColumnModel.codes_write] at hp
  rw [hcode]
  by_cases hin : pos ≤ p ∧ p < pos+codes.length
  · rw [if_pos hin] at hp ⊢
    rw [h.type]
    exact putKnown_sound (h.code p) hp
  · rw [if_neg hin] at hp ⊢
    exact h.code p code hp

/-- `SetCode` writes one position that the blocks have room for. -/
theorem setCode_spec (h : c.Sound N) {pos code : ℕ} (hcode : code < 2^c.codeSize) :
    (pos/kNumCodesPerBlock < numColumnBlocks N →
      ∃ r, c.setCode pos code = some r ∧ r.2.type = c.type ∧ r.2.codeSize = c.codeSize ∧
        ∀ p, r.2.code p = if p = pos ∧ pos < room N then c.type.put (c.code p) code
          else c.code p) ∧
      (numColumnBlocks N ≤ pos/kNumCodesPerBlock → c.setCode pos code = none) := by
  refine ⟨fun hblock => ?_,fun hblock => ?_⟩
  · have hlen := h.shaped.length
    obtain ⟨b,hb⟩ : ∃ b, c.blocks[pos/kNumCodesPerBlock]? = some b :=
      ⟨_,List.getElem?_eq_getElem (hlen ▸ hblock)⟩
    have hroom := lt_blockNum_iff hblock
    rw [← h.shaped.num _ b hb] at hroom
    refine ⟨_,by rw [setCode,hb,Option.map_some],rfl,rfl,fun p => ?_⟩
    dsimp only [ColumnRep.code]
    have hdiv := Nat.div_add_mod' p kNumCodesPerBlock
    have hdiv' := Nat.div_add_mod' pos kNumCodesPerBlock
    rw [codeAt_set (hlen ▸ hblock)]
    by_cases hsame : p/kNumCodesPerBlock = pos/kNumCodesPerBlock
    · have hold : codeAt c.blocks p = b.code (p%kNumCodesPerBlock) :=
        codeAt_of_getElem? (by rw [hsame,hb])
      have heq : p = pos ↔ p%kNumCodesPerBlock = pos%kNumCodesPerBlock := by
        constructor
        · rintro rfl
          rfl
        · intro hmod
          rw [← hdiv,← hdiv',hsame,hmod]
      rw [if_pos hsame,hold]
      by_cases hlt : pos < room N
      · rw [(ColumnBlock.setCode_spec h.le (hroom.mpr hlt) hcode).code,
          h.shaped.columnType b (List.mem_of_getElem? hb)]
        simp only [heq,hlt,and_true]
      · rw [ColumnBlock.setCode_overflow (Nat.not_lt.mp (hroom.not.mpr hlt)),if_neg (by tauto)]
    · rw [if_neg hsame,if_neg]
      rintro ⟨rfl,_⟩
      exact hsame rfl
  · rw [setCode,List.getElem?_eq_none (h.shaped.length ▸ hblock)]
    rfl

end ColumnRep

namespace TableRep

theorem getColumn_removeColumn (t : TableRep) (name name' : String) :
    (t.removeColumn name).2.getColumn name' = if name' = name then none else t.getColumn name' := by
  cases hc : t.getColumn name with
  | none =>
    have hsame : (t.removeColumn name).2 = t := by rw [removeColumn,hc]
    rw [hsame]
    split
    · rename_i heq
      rw [heq,hc]
    · rfl
  | some c =>
    have hmap : (t.removeColumn name).2.map = t.map.filter (·.1 != name) := by rw [removeColumn,hc]
    rw [getColumn,hmap,getColumn,List.find?_filter]
    by_cases heq : name' = name
    · have hnone : t.map.find? (fun e => decide ((e.1 != name) = true ∧ (e.1 == name') = true)) =
          none := by
        refine List.find?_eq_none.mpr fun e _ => ?_
        simp [heq]
      rw [if_pos heq,hnone]
      rfl
    · rw [if_neg heq]
      congr 2
      funext e
      by_cases he : e.1 = name'
      · simp [he,heq]
      · simp [he]

theorem addColumn_exists (h : t.getColumn name ≠ none) (type : ColumnType) (codeSize : ℕ)
    (words : Memory) : t.addColumn words name type codeSize =
      some (.usageError "The column name exists in the table.",
        ⟨t.num,t.map,t.freeColumnIds.tail⟩) := by
  have hsome : (TableRep.getColumn ⟨t.num,t.map,t.freeColumnIds.tail⟩ name).isSome = true :=
    Option.isSome_iff_ne_none.mpr h
  unfold addColumn
  dsimp only
  rw [hsome,if_pos rfl]

theorem Refines.getColumn_eq_none (h : t.Refines m) (hm : m.columns name = none) :
    t.getColumn name = none :=
  (Related.eq_none_iff (h.columns name)).mpr hm

theorem Refines.fits (h : t.Refines m) {op : TableOp} (hfit : m.Fits op) : t.Fits op := by
  have hsize : ∀ name c, t.getColumn name = some c →
      ∃ cm, m.columns name = some cm ∧ cm.codeSize = c.codeSize := by
    intro name c hc
    obtain ⟨cm,hcm,hshows⟩ := Related.exists_related (h.columns name) hc
    exact ⟨cm,hcm,hshows.codeSize.symm⟩
  cases op with
  | addColumn name type codeSize => exact hfit
  | removeColumn name => trivial
  | resize num => trivial
  | bulkload name codes pos =>
    refine ⟨hfit.1,fun c hc code hcode => ?_⟩
    obtain ⟨cm,hcm,hcs⟩ := hsize name c hc
    exact hcs ▸ hfit.2 cm hcm code hcode
  | setCode name pos code =>
    intro c hc
    obtain ⟨cm,hcm,hcs⟩ := hsize name c hc
    exact hcs ▸ hfit cm hcm

/-- A column of the table and of the model after a resize. -/
theorem shows_resized {num num' : ℕ} {x y : Option ColumnRep} {z : Option ColumnModel}
    (h : Option.Rel ColumnRep.Shows x z)
    (hres : Option.Rel (fun d d' => d.Resized num num' d') x y) :
    Option.Rel ColumnRep.Shows y (z.map (·.resize num num')) := by
  cases h with
  | none =>
    cases hres
    exact .none
  | some hshows =>
    cases hres with
    | some hd => exact .some (hshows.resize hd)

theorem Refines.setColumn (h : t.Refines m) {t' : TableRep} {x : Option ColumnModel}
    (hsound : t'.Sound) (hnum : t'.num = t.num)
    (hname : Option.Rel ColumnRep.Shows (t'.getColumn name) x)
    (hothers : ∀ name' ≠ name, t'.getColumn name' = t.getColumn name') :
    t'.Refines (m.setColumn name x) := by
  refine ⟨hsound,hnum.trans h.num,fun name' => ?_⟩
  by_cases heq : name' = name
  · subst heq
    rw [TableModel.columns_setColumn]
    exact hname
  · rw [TableModel.columns_setColumn_of_ne m heq,hothers name' heq]
    exact h.columns name'

theorem refines_create : create.Refines TableModel.create :=
  ⟨sound_create,rfl,fun _ => .none⟩

/-! ## Steps -/

theorem refines_addColumn (h : t.Refines m) (type : ColumnType) {codeSize : ℕ}
    (hpos : 0 < codeSize) (hle : codeSize ≤ 32) (words : Memory) (name : String) :
    Option.Rel Refines (t.step words (.addColumn name type codeSize))
      (m.step (.addColumn name type codeSize)) := by
  rw [step,TableModel.step]
  cases hm : m.columns name with
  | some cm =>
    obtain ⟨c,hc,_⟩ := Related.exists_eq_some (h.columns name) hm
    have hold : t.getColumn name ≠ none := by
      rw [hc]
      exact Option.some_ne_none c
    rw [addColumn_exists hold,Option.isSome_some,if_pos rfl]
    exact .some ⟨h.sound,h.num,h.columns⟩
  | none =>
    obtain ⟨t',c,hrun,hnum,htype,hsize,hzero,hget⟩ :=
      addColumn_spec t type hpos hle words (h.getColumn_eq_none hm)
    obtain ⟨r,hr,hsound,_⟩ := sound_addColumn h.sound type hpos hle words name
    rw [hrun] at hr
    obtain rfl := Option.some.inj hr
    rw [hrun,Option.isSome_none,if_neg Bool.false_ne_true]
    refine .some (h.setColumn hsound hnum ?_ fun name' hname => ?_)
    · rw [hget,if_pos rfl]
      refine .some ⟨htype,hsize,fun pos code hcode => ?_⟩
      obtain ⟨hpacked,hcode⟩ := ColumnType.fresh_eq_some hcode
      rw [hcode,hzero hpacked]
    · rw [hget,if_neg hname]

theorem refines_removeColumn (h : t.Refines m) (name : String) :
    (t.removeColumn name).2.Refines (m.setColumn name none) := by
  have hnum : (t.removeColumn name).2.num = t.num := by
    unfold removeColumn
    split <;> rfl
  refine h.setColumn (sound_removeColumn h.sound name) hnum ?_ fun name' hname => ?_
  · rw [getColumn_removeColumn,if_pos rfl]
    exact .none
  · rw [getColumn_removeColumn,if_neg hname]

theorem refines_resize (h : t.Refines m) (words : Memory) (num : ℕ) :
    Option.Rel Refines (t.resize words num) (some (m.resize num)) := by
  obtain ⟨t1,hrun,hnum,_,hmap⟩ := resize_spec h.sound words num
  rw [hrun]
  refine .some ⟨sound_of_forall₂ hmap hnum,hnum,fun name => ?_⟩
  rw [TableModel.resize,← h.num]
  exact shows_resized (h.columns name) (getColumn_forall₂ hmap name)

/-- A bulk load fails in the table and in the model alike. -/
theorem refines_bulkload (h : t.Refines m) {codes : List ℕ} {pos : ℕ}
    (hfit : m.Fits (.bulkload name codes pos)) (words : Memory) :
    Option.Rel Refines (t.bulkload words name codes pos) (m.step (.bulkload name codes pos)) := by
  have hfit' := h.fits hfit
  rw [TableModel.step]
  cases hm : m.columns name with
  | none =>
    have hnone : t.bulkload words name codes pos = none := by
      rw [bulkload,h.getColumn_eq_none hm]
      rfl
    rw [hnone]
    exact .none
  | some cm =>
    obtain ⟨c,hc,hshows⟩ := Related.exists_eq_some (h.columns name) hm
    have hnum : t.loadedNum codes pos = max m.num (pos+codes.length) := by rw [loadedNum,h.num]
    rw [Option.bind_eq_bind,Option.bind_some,← hnum]
    by_cases hroom : codes = [] ∨ pos+codes.length ≤ room (t.loadedNum codes pos)
    · obtain ⟨t',c1,c',hrun,hsound,hnum',hres,hc',_,htype,hsize,hcode,hothers⟩ :=
        bulkload_some h.sound hc hfit' words hroom
      rw [hrun,if_pos hroom]
      have hwritten := (hshows.resize hres).write (htype.trans hres.type.symm)
        (hsize.trans hres.codeSize.symm) (fun p => by rw [hcode p,hres.type])
      have hresized : ∀ name' ≠ name, Option.Rel ColumnRep.Shows (t'.getColumn name')
          ((m.resize (t.loadedNum codes pos)).columns name') := by
        intro name' hname
        rw [TableModel.resize,← hnum',← h.num]
        exact shows_resized (h.columns name') (hothers name' hname)
      rw [hnum',h.num] at hwritten
      refine .some ⟨hsound,hnum',fun name' => ?_⟩
      by_cases hname : name' = name
      · subst hname
        rw [TableModel.columns_setColumn,hc']
        exact .some hwritten
      · rw [TableModel.columns_setColumn_of_ne _ hname]
        exact hresized name' hname
    · obtain ⟨hnil,hover⟩ := not_or.mp hroom
      rw [if_neg hroom,bulkload_none h.sound hc hfit' words hnil (Nat.not_le.mp hover)]
      exact .none

theorem refines_setCode (h : t.Refines m) {pos code : ℕ} (hfit : m.Fits (.setCode name pos code))
    (words : Memory) :
    Option.Rel Refines (t.step words (.setCode name pos code)) (m.step (.setCode name pos code)) := by
  have hfit' := h.fits hfit
  rw [step,TableModel.step]
  cases hm : m.columns name with
  | none =>
    rw [h.getColumn_eq_none hm]
    exact .none
  | some cm =>
    obtain ⟨c,hc,hshows⟩ := Related.exists_eq_some (h.columns name) hm
    obtain ⟨hwrites,hbehind⟩ := @ColumnRep.setCode_spec t.num c (h.sound.getColumn hc) pos code
      (hfit' c hc)
    rw [hc,Option.bind_eq_bind,Option.bind_some,Option.bind_eq_bind,Option.bind_eq_bind,
      Option.bind_some,← h.num]
    by_cases hblock : pos/kNumCodesPerBlock < numColumnBlocks t.num
    · obtain ⟨r,hr,htype,hsize,hcode⟩ := hwrites hblock
      have hsound := sound_setCode h.sound hc (hfit' c hc) hr
      rw [hr,if_pos hblock,Option.bind_some]
      have hget : (t.setColumn name r.2).getColumn name = some r.2 := by
        rw [getColumn_setColumn,if_pos rfl,hc]
        rfl
      have hothers : ∀ name' ≠ name, (t.setColumn name r.2).getColumn name' =
          t.getColumn name' := fun name' hname => by rw [getColumn_setColumn,if_neg hname]
      by_cases hlt : pos < room t.num
      · rw [if_pos hlt]
        refine .some (h.setColumn (sound_setColumn h.sound hsound name) rfl ?_ hothers)
        rw [hget]
        refine .some (hshows.write htype hsize fun p => ?_)
        rw [hcode,List.length_singleton]
        by_cases heq : p = pos
        · subst heq
          rw [if_pos ⟨rfl,hlt⟩,if_pos ⟨le_rfl,Nat.lt_succ_self p⟩,Nat.sub_self]
          rfl
        · rw [if_neg (fun h => heq h.1),if_neg (by omega)]
      · rw [if_neg hlt]
        have hsame : ∀ p, r.2.code p = c.code p := fun p => by
          rw [hcode,if_neg (fun h => hlt h.2)]
        refine .some ⟨sound_setColumn h.sound hsound name,h.num,fun name' => ?_⟩
        by_cases hname : name' = name
        · rw [hname,hget,hm]
          refine .some ⟨htype.trans hshows.type,hsize.trans hshows.codeSize,fun p v hv => ?_⟩
          rw [hsame,hshows.code p v hv]
        · rw [hothers name' hname]
          exact h.columns name'
    · rw [hbehind (Nat.not_lt.mp hblock),if_neg hblock]
      exact .none

/-- An operation ends in the table exactly if it does in the model, and the results agree. -/
theorem step_refines (h : t.Refines m) {op : TableOp} (hfit : m.Fits op) (words : Memory) :
    Option.Rel Refines (t.step words op) (m.step op) := by
  cases op with
  | addColumn name type codeSize => exact refines_addColumn h type hfit.1 hfit.2 words name
  | removeColumn name => exact .some (refines_removeColumn h name)
  | resize num => exact refines_resize h words num
  | bulkload name codes pos => exact refines_bulkload h hfit words
  | setCode name pos code => exact refines_setCode h hfit words

/-! ## Runs -/

/-- Operations one after the other, each with the memory of its new naive blocks. -/
def run (t : TableRep) (ops : List (Memory × TableOp)) : Option TableRep :=
  ops.foldlM (fun t op => t.step op.1 op.2) t

theorem run_refines {ops : List (Memory × TableOp)} (h : t.Refines m)
    (hfit : m.FitsAll (ops.map (·.2))) :
    Option.Rel Refines (t.run ops) ((ops.map (·.2)).foldlM TableModel.step m) := by
  induction ops generalizing t m with
  | nil => exact .some h
  | cons op ops ih =>
    have hrun : t.run (op::ops) = (t.step op.1 op.2).bind (·.run ops) := by
      rw [run,List.foldlM_cons]
      rfl
    have hstep := step_refines h hfit.1 op.1
    rw [hrun,List.map_cons,List.foldlM_cons]
    cases hm : m.step op.2 with
    | none =>
      rw [(Related.eq_none_iff hstep).mpr hm]
      exact .none
    | some m' =>
      obtain ⟨t',ht,h'⟩ := Related.exists_eq_some hstep hm
      rw [ht]
      exact ih h' (hfit.2 m' hm)

end TableRep

/-! ## Packed columns -/

/-- All codes of a packed column are known. -/
def ColumnModel.Known (m : ColumnModel) : Prop :=
  m.type ≠ .kNaive → ∀ pos, ∃ code, m.codes pos = some code ∧ code < 2^m.codeSize

def TableModel.Known (m : TableModel) : Prop :=
  ∀ name cm, m.columns name = some cm → cm.Known

theorem ColumnType.exists_fresh {type : ColumnType} (h : type ≠ .kNaive) (codeSize : ℕ) :
    ∃ code, type.fresh = some code ∧ code < 2^codeSize :=
  ⟨0,if_neg h,Nat.two_pow_pos codeSize⟩

namespace ColumnModel

theorem Known.resize (h : cm.Known) (num num' : ℕ) : (cm.resize num num').Known := by
  intro hpacked pos
  rw [type_resize] at hpacked
  rw [codes_resize,codeSize_resize]
  by_cases hboth : pos/kNumCodesPerBlock < numColumnBlocks num ∧
      pos/kNumCodesPerBlock < numColumnBlocks num'
  · rw [if_pos hboth]
    exact h hpacked pos
  · rw [if_neg hboth]
    exact ColumnType.exists_fresh hpacked cm.codeSize

theorem Known.write (h : cm.Known) {codes : List ℕ} (hc : ∀ code ∈ codes, code < 2^cm.codeSize)
    (pos : ℕ) : (cm.write pos codes).Known := by
  intro hpacked p
  obtain ⟨old,hold,hlt⟩ := h hpacked p
  rw [codes_write]
  by_cases hin : pos ≤ p ∧ p < pos+codes.length
  · have hcode : codes.getD (p-pos) 0 < 2^cm.codeSize := by
      rw [List.getD_eq_getElem _ _ (show p-pos < codes.length by omega)]
      exact hc _ (List.getElem_mem _)
    rw [if_pos hin,hold,ColumnType.putKnown]
    by_cases hor : cm.type = .kBitWeavingH
    · rw [if_pos hor]
      exact ⟨_,rfl,Nat.or_lt_two_pow hlt hcode⟩
    · rw [if_neg hor]
      exact ⟨_,rfl,hcode⟩
  · rw [if_neg hin]
    exact ⟨old,hold,hlt⟩

end ColumnModel

namespace TableModel

theorem Known.setColumn (h : m.Known) {x : Option ColumnModel} (hx : ∀ cm, x = some cm → cm.Known)
    (name : String) : (m.setColumn name x).Known := by
  intro name' cm hcm
  by_cases heq : name' = name
  · subst heq
    rw [columns_setColumn] at hcm
    exact hx cm hcm
  · rw [columns_setColumn_of_ne m heq] at hcm
    exact h name' cm hcm

theorem Known.resize (h : m.Known) (num : ℕ) : (m.resize num).Known := by
  intro name cm hcm
  obtain ⟨cm',hcm',rfl⟩ := Option.map_eq_some_iff.mp hcm
  exact (h name cm' hcm').resize m.num num

theorem step_known (h : m.Known) {m' : TableModel} {op : TableOp} (hfit : m.Fits op)
    (hstep : m.step op = some m') : m'.Known := by
  cases op with
  | addColumn name type codeSize =>
    rw [step] at hstep
    split at hstep
    · exact Option.some.inj hstep ▸ h
    · obtain rfl := Option.some.inj hstep
      refine h.setColumn (fun cm hcm => ?_) name
      obtain rfl := Option.some.inj hcm
      exact fun hpacked _ => ColumnType.exists_fresh hpacked codeSize
  | removeColumn name =>
    obtain rfl := Option.some.inj hstep
    exact h.setColumn (fun _ hcm => absurd hcm.symm (Option.some_ne_none _)) name
  | resize num =>
    obtain rfl := Option.some.inj hstep
    exact h.resize num
  | bulkload name codes pos =>
    obtain ⟨cm,hcm,hstep⟩ := Option.bind_eq_some_iff.mp hstep
    dsimp only at hstep
    by_cases hroom : codes = [] ∨ pos+codes.length ≤ room (max m.num (pos+codes.length))
    · rw [if_pos hroom] at hstep
      obtain rfl := Option.some.inj hstep
      refine (h.resize _).setColumn (fun cm' hcm' => ?_) name
      obtain rfl := Option.some.inj hcm'
      refine ((h name cm hcm).resize _ _).write (fun code hcode => ?_) pos
      rw [ColumnModel.codeSize_resize]
      exact hfit.2 cm hcm code hcode
    · rw [if_neg hroom] at hstep
      cases hstep
  | setCode name pos code =>
    obtain ⟨cm,hcm,hstep⟩ := Option.bind_eq_some_iff.mp hstep
    by_cases hblock : pos/kNumCodesPerBlock < numColumnBlocks m.num
    · rw [if_pos hblock] at hstep
      obtain rfl := Option.some.inj hstep
      by_cases hlt : pos < room m.num
      · rw [if_pos hlt]
        refine h.setColumn (fun cm' hcm' => ?_) name
        obtain rfl := Option.some.inj hcm'
        refine (h name cm hcm).write (fun c hc => ?_) pos
        obtain rfl := List.mem_singleton.mp hc
        exact hfit cm hcm
      · rw [if_neg hlt]
        exact h
    · rw [if_neg hblock] at hstep
      cases hstep

theorem run_known {ops : List TableOp} (h : m.Known) (hfit : m.FitsAll ops) {m' : TableModel}
    (hrun : ops.foldlM step m = some m') : m'.Known := by
  induction ops generalizing m with
  | nil => exact Option.some.inj hrun ▸ h
  | cons op ops ih =>
    rw [List.foldlM_cons] at hrun
    obtain ⟨m1,hm1,hrun⟩ := Option.bind_eq_some_iff.mp hrun
    exact ih (step_known h hfit.1 hm1) (hfit.2 m1 hm1) hrun

end TableModel

/-! ## What runs show -/

namespace TableRep

/-- A run of operations on the table ends exactly if it does on the model, and then the table
shows what the model knows. -/
theorem table_refines_model {ops : List (Memory × TableOp)}
    (hfit : TableModel.create.FitsAll (ops.map (·.2))) :
    Option.Rel Refines (create.run ops)
      ((ops.map (·.2)).foldlM TableModel.step TableModel.create) :=
  run_refines refines_create hfit

/-- Reads and scans of a table answer for the codes that the model of its run knows. -/
theorem run_answers {ops : List (Memory × TableOp)}
    (hfit : TableModel.create.FitsAll (ops.map (·.2)))
    (hrun : (ops.map (·.2)).foldlM TableModel.step TableModel.create = some m)
    (hcm : m.columns name = some cm) :
    ∃ t c, create.run ops = some t ∧ t.getColumn name = some c ∧
      (∀ pos < room m.num, ∀ code, cm.codes pos = some code →
        c.getCode pos = some (.ok (code%2^32))) ∧
      ∀ comparator literal opt bv, cm.type.fits cm.codeSize literal = true →
        bv.map (·.num) = BitVector.blockNums m.num →
        ∃ bv', c.scan literal comparator opt bv = some (scanStatus cm.type.clears m.num,bv') ∧
          ∀ blockId k, k < kNumCodesPerBlock → blockId*kNumCodesPerBlock+k < room m.num →
            ∀ code, cm.codes (blockId*kNumCodesPerBlock+k) = some code →
              BitVector.bit bv' blockId k =
                opt.combine (BitVector.bit bv blockId k) (comparator.test literal code) := by
  obtain ⟨t,ht,h⟩ := Related.exists_eq_some (run_refines refines_create hfit) hrun
  obtain ⟨c,hc,hshows⟩ := Related.exists_eq_some (h.columns name) hcm
  have hsound := h.sound.getColumn hc
  refine ⟨t,c,ht,hc,fun pos hpos code hcode => ?_,fun comparator literal opt bv hfits hbv => ?_⟩
  · rw [ColumnRep.getCode_eq hsound (h.num ▸ hpos),hshows.code pos code hcode]
  · rw [← h.num] at hbv
    rw [← hshows.type,← hshows.codeSize] at hfits
    obtain ⟨bv',hscan,hs⟩ := ColumnRep.scan_spec hsound hbv comparator hfits opt
    rw [h.num,hshows.type] at hscan
    refine ⟨bv',hscan,fun blockId k hk hlt code hcode => ?_⟩
    rw [hs.bit blockId k hk (h.num ▸ hlt),hshows.code _ code hcode]

/-- Tables of the same columns, whose packed ones hold the same codes, all of the column's size. -/
structure SamePacked (t t' : TableRep) : Prop where
  num : t.num = t'.num
  columns : ∀ name, Option.Rel (fun c c' : ColumnRep => c.type = c'.type ∧
      c.codeSize = c'.codeSize ∧
      (c.type ≠ .kNaive → ∀ pos, c.code pos = c'.code pos ∧ c.code pos < 2^c.codeSize))
    (t.getColumn name) (t'.getColumn name)

/-- The same operations on other memory make the same packed columns. -/
theorem packed_codes_same {ops ops' : List (Memory × TableOp)}
    (hsame : ops.map (·.2) = ops'.map (·.2))
    (hfit : TableModel.create.FitsAll (ops.map (·.2))) :
    Option.Rel SamePacked (create.run ops) (create.run ops') := by
  have h := run_refines refines_create hfit
  have h' : Option.Rel Refines (create.run ops')
      ((ops'.map (·.2)).foldlM TableModel.step TableModel.create) :=
    run_refines refines_create (hsame ▸ hfit)
  rw [← hsame] at h'
  cases hm : (ops.map (·.2)).foldlM TableModel.step TableModel.create with
  | none =>
    rw [(Related.eq_none_iff h).mpr hm,(Related.eq_none_iff h').mpr hm]
    exact .none
  | some m =>
    have hknown := TableModel.run_known (fun _ _ hcm => by cases hcm) hfit hm
    obtain ⟨t,ht,h⟩ := Related.exists_eq_some h hm
    obtain ⟨t',ht',h'⟩ := Related.exists_eq_some h' hm
    rw [ht,ht']
    refine .some ⟨h.num.trans h'.num.symm,fun name => ?_⟩
    cases hcm : m.columns name with
    | none =>
      rw [h.getColumn_eq_none hcm,h'.getColumn_eq_none hcm]
      exact .none
    | some cm =>
      obtain ⟨c,hc,hshows⟩ := Related.exists_eq_some (h.columns name) hcm
      obtain ⟨c',hc',hshows'⟩ := Related.exists_eq_some (h'.columns name) hcm
      rw [hc,hc']
      refine .some ⟨hshows.type.trans hshows'.type.symm,
        hshows.codeSize.trans hshows'.codeSize.symm,fun hpacked pos => ?_⟩
      obtain ⟨code,hcode,hlt⟩ := hknown name cm hcm (hshows.type ▸ hpacked) pos
      rw [hshows.code pos code hcode,hshows'.code pos code hcode,hshows.codeSize]
      exact ⟨rfl,hlt⟩

/-- A BitWeaving/H column with two codes; the second load adds to the first code. -/
def pairOps (words : Memory) : List (Memory × TableOp) :=
  [(words,.addColumn "a" .kBitWeavingH 3),(words,.bulkload "a" [1,2] 0),(words,.bulkload "a" [4] 0)]

theorem pairOps_fit (words : Memory) : TableModel.create.FitsAll ((pairOps words).map (·.2)) := by
  refine ⟨⟨by decide,by decide⟩,fun m hm => ⟨⟨by decide,fun cm hcm => ?_⟩,fun m' hm' =>
    ⟨⟨by decide,fun cm hcm => ?_⟩,fun _ _ => trivial⟩⟩⟩
  · obtain rfl := Option.some.inj hm
    obtain rfl := Option.some.inj hcm
    decide
  · obtain rfl := Option.some.inj hm
    obtain rfl := Option.some.inj hm'
    obtain rfl := Option.some.inj hcm
    decide

theorem pairOps_model (words : Memory) :
    ∃ m cm, ((pairOps words).map (·.2)).foldlM TableModel.step TableModel.create = some m ∧
      m.columns "a" = some cm ∧ m.num = 2 ∧ cm.codes 0 = some 5 ∧ cm.codes 1 = some 2 := by
  refine ⟨_,_,rfl,TableModel.columns_setColumn _ "a" _,rfl,?_,?_⟩
  · decide +kernel
  · decide +kernel

theorem table_refines_pair :
    ∃ t m, create.run (pairOps fun _ _ _ => 7#64) = some t ∧ t.Refines m := by
  have hrel := table_refines_model (pairOps_fit fun _ _ _ => 7#64)
  obtain ⟨t,ht,h⟩ := Related.exists_eq_some hrel rfl
  exact ⟨t,_,ht,h⟩

theorem run_answers_pair :
    ∃ t c, create.run (pairOps fun _ _ _ => 7#64) = some t ∧ t.getColumn "a" = some c ∧
      c.getCode 0 = some (.ok 5) ∧ c.getCode 1 = some (.ok 2) := by
  obtain ⟨m,cm,hrun,hcm,hnum,h0,h1⟩ := pairOps_model fun _ _ _ => 7#64
  obtain ⟨t,c,ht,hc,hcode,_⟩ := run_answers (pairOps_fit fun _ _ _ => 7#64) hrun hcm
  rw [hnum] at hcode
  exact ⟨t,c,ht,hc,hcode 0 (by decide) 5 h0,hcode 1 (by decide) 2 h1⟩

theorem packed_codes_same_pair :
    Option.Rel SamePacked (create.run (pairOps fun _ _ _ => 7#64))
      (create.run (pairOps fun _ _ _ => 0#64)) :=
  packed_codes_same rfl (pairOps_fit fun _ _ _ => 7#64)

end TableRep

end ElfIndex.Bitweaving
