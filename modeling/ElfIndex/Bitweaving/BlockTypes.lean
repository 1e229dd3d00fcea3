import Mathlib.Data.List.Induction
import ElfIndex.Bitweaving.NaiveColumnBlock
import ElfIndex.Bitweaving.BwHScan
import ElfIndex.Bitweaving.BwVScan

/-! # Column blocks of all types

The operations of a block by its type. What a block of any type shows is the code at each
position: writes change it there and nowhere else, and scans answer for it. The types differ
in what a write makes of the old code and in the literals they accept.
-/
namespace ElfIndex.Bitweaving

inductive ColumnType
  | kNaive
  | kBitWeavingH
  | kBitWeavingV
deriving DecidableEq, Repr

inductive ColumnBlock (codeSize : ℕ)
  | naive (b : NaiveColumnBlock)
  | bwH (b : BwHColumnBlock codeSize)
  | bwV (b : BwVColumnBlock codeSize)

namespace ColumnBlock

variable {n n' : ℕ}

def columnType : ColumnBlock n → ColumnType
  | naive _ => .kNaive
  | bwH _ => .kBitWeavingH
  | bwV _ => .kBitWeavingV

def num : ColumnBlock n → ℕ
  | naive b => b.num
  | bwH b => b.num
  | bwV b => b.num

/-- `CreateColumnBlock`; `words` is what the memory of a naive block holds. -/
def create (n : ℕ) (type : ColumnType) (words : ℕ → WordUnit) : ColumnBlock n :=
  match type with
  | .kNaive => naive (NaiveColumnBlock.create words)
  | .kBitWeavingH => bwH (BwHColumnBlock.create n)
  | .kBitWeavingV => bwV (BwVColumnBlock.create n)

def resize (b : ColumnBlock n) (num : ℕ) : Option (ColumnBlock n) :=
  match b with
  | naive b => (b.resize num).map naive
  | bwH b => (b.resize num).map bwH
  | bwV b => (b.resize num).map bwV

def getCode (b : ColumnBlock n) (pos : ℕ) : Except String ℕ :=
  match b with
  | naive b => b.getCode pos
  | bwH b => b.getCode pos
  | bwV b => b.getCode pos

def setCode (b : ColumnBlock n) (pos code : ℕ) : Status × ColumnBlock n :=
  match b with
  | naive b => ((b.setCode pos code).1,naive (b.setCode pos code).2)
  | bwH b => ((b.setCode pos code).1,bwH (b.setCode pos code).2)
  | bwV b => ((b.setCode pos code).1,bwV (b.setCode pos code).2)

def bulkload (b : ColumnBlock n) (codes : List ℕ) (startTupleId : ℕ) : Option (ColumnBlock n) :=
  match b with
  | naive b => (b.bulkload codes startTupleId).map naive
  | bwH b => (b.bulkload codes startTupleId).map bwH
  | bwV b => (b.bulkload codes startTupleId).map bwV

def scan (b : ColumnBlock n) (comparator : Comparator) (literal : ℕ) (bitvector : BitVectorBlock)
    (opt : BitVectorOpt) : Option (Status × BitVectorBlock) :=
  match b with
  | naive b => b.scan comparator literal bitvector opt
  | bwH b => b.scan comparator literal bitvector opt
  | bwV b => b.scan comparator literal bitvector opt

def scanBetween (b : ColumnBlock n) (literal1 literal2 : ℕ) (bitvector : BitVectorBlock)
    (opt : BitVectorOpt) : Option (Status × BitVectorBlock) :=
  match b with
  | naive b => b.scanBetween literal1 literal2 bitvector opt
  | bwH b => b.scanBetween literal1 literal2 bitvector opt
  | bwV b => b.scanBetween literal1 literal2 bitvector opt

/-- The text is the same for both types of packed blocks. -/
def typeError : Status := .invalidArgument
  "Column type does not match. Input column should be in BitWeaving/H format."

def scanColumn (b : ColumnBlock n) (comparator : Comparator) (columnBlock : ColumnBlock n')
    (stale : ℕ → ℕ) (bitvector : BitVectorBlock) (opt : BitVectorOpt) :
    Option (Status × BitVectorBlock) :=
  match b with
  | naive b => b.scanColumn comparator columnBlock.num columnBlock.getCode stale bitvector opt
  | bwH b =>
    if bitvector.num ≠ b.num then
      some (.invalidArgument "Bit vector length does not match column length.",bitvector)
    else if columnBlock.num ≠ b.num then
      some (.invalidArgument "Column length does not match.",bitvector)
    else
      match columnBlock with
      | bwH b' =>
        if h : n' = n then b.scanColumn comparator (h ▸ b') bitvector opt
        else some (.invalidArgument "Code size does not match.",bitvector)
      | _ => some (typeError,bitvector)
  | bwV b =>
    if bitvector.num ≠ b.num then
      some (.invalidArgument "Bit vector length does not match column length.",bitvector)
    else if columnBlock.num ≠ b.num then
      some (.invalidArgument "Column length does not match.",bitvector)
    else
      match columnBlock with
      | bwV b' =>
        if h : n' = n then b.scanColumn comparator (h ▸ b') bitvector opt
        else some (.invalidArgument "Code size does not match.",bitvector)
      | _ => some (typeError,bitvector)

/-! ## Codes -/

/-- The code that the scans compare. -/
def code : ColumnBlock n → ℕ → ℕ
  | naive b => b.code
  | bwH b => b.code
  | bwV b => b.code

/-- What the scans rely on. -/
def Valid : ColumnBlock n → Prop
  | naive _ => True
  | bwH b => b.Sized ∧ b.Clean
  | bwV b => b.Sized

end ColumnBlock

/-- A write of a BitWeaving/H block adds the bits of the code. -/
def ColumnType.put : ColumnType → ℕ → ℕ → ℕ
  | .kBitWeavingH, old, code => old ||| code
  | _, _, code => code

theorem ColumnType.put_zero (type : ColumnType) (code : ℕ) : type.put 0 code = code := by
  cases type with
  | kBitWeavingH => exact Nat.zero_or code
  | kNaive => rfl
  | kBitWeavingV => rfl

/-- Only packed blocks check their literals. -/
def ColumnType.fits (type : ColumnType) (codeSize literal : ℕ) : Bool :=
  match type with
  | .kNaive => true
  | _ => decide (literal < 2^codeSize)

/-- Only naive blocks without codes clear their part of the bit vector. -/
def ColumnType.clears (type : ColumnType) : Bool := type = .kNaive

@[simp] theorem ColumnType.clears_iff {type : ColumnType} : type.clears = true ↔ type = .kNaive :=
  decide_eq_true_iff

theorem ColumnType.packed_of_fits {type : ColumnType} {codeSize literal : ℕ}
    (h : type.fits codeSize literal = false) : type ≠ .kNaive := by
  rintro rfl
  exact Bool.noConfusion h

namespace ColumnBlock

variable {n n' : ℕ} {b : ColumnBlock n}

theorem valid_create (hn : n ≤ 32) (type : ColumnType) (words : ℕ → WordUnit) :
    (create n type words).Valid := by
  cases type
  · trivial
  · exact ⟨BwHColumnBlock.sized_create hn,BwHColumnBlock.clean_create n⟩
  · exact BwVColumnBlock.sized_create n

/-- A packed block starts with codes that are all zero. -/
theorem code_create (type : ColumnType) (hpacked : type ≠ .kNaive) (words : ℕ → WordUnit) (pos : ℕ) :
    (create n type words).code pos = 0 := by
  cases type
  · exact absurd rfl hpacked
  · simp [create,code,BwHColumnBlock.code,BwHColumnBlock.create]
  · refine Nat.eq_of_testBit_eq fun i => ?_
    rw [Nat.zero_testBit]
    by_cases hi : i < n
    · refine (BwVColumnBlock.testBit_code _ pos hi).trans ?_
      exact BitVec.getLsbD_zero
    · exact Nat.testBit_lt_two_pow ((BwVColumnBlock.code_lt _ pos).trans_le
        (Nat.pow_le_pow_right Nat.two_pos (Nat.not_lt.mp hi)))

/-- The reads and resizes of a block leave its codes alone. -/
theorem resize_spec {num : ℕ} (hb : b.Valid) (hnum : num ≤ kNumCodesPerBlock) :
    ∃ b', b.resize num = some b' ∧ b'.Valid ∧ b'.num = num ∧ b'.columnType = b.columnType ∧
      b'.code = b.code := by
  cases b with
  | naive b =>
    exact ⟨naive ⟨num,b.data⟩,by rw [resize,b.resize_eq hnum]; rfl,trivial,rfl,rfl,rfl⟩
  | bwH b =>
    obtain ⟨b',hresize,hsized,hb',hdata⟩ := b.resize_eq hnum
    refine ⟨bwH b',by rw [resize,hresize]; rfl,⟨hsized,?_⟩,hb',rfl,?_⟩
    · intro id p hp
      rw [hdata]
      exact hb.2 id p hp
    · funext pos
      simp only [code,BwHColumnBlock.code,hdata]
  | bwV b =>
    obtain ⟨b',hresize,hsized,hb',hdata⟩ := b.resize_eq hnum
    refine ⟨bwV b',by rw [resize,hresize]; rfl,hsized,hb',rfl,?_⟩
    funext pos
    simp only [code,BwVColumnBlock.code,BwVColumnBlock.plane,hdata]

theorem getCode_eq (hn : n ≤ 32) {pos : ℕ} (hpos : pos < b.num) :
    b.getCode pos = .ok (b.code pos%2^32) := by
  have hsmall : ∀ {c : ℕ}, c < 2^n → c%2^32 = c := fun h =>
    Nat.mod_eq_of_lt (h.trans_le (Nat.pow_le_pow_right Nat.two_pos hn))
  cases b with
  | naive b => exact (if_neg (Nat.not_le.mpr hpos)).trans (by rw [BitVec.toNat_setWidth]; rfl)
  | bwH b =>
    refine (BwHColumnBlock.getCode_eq hn b hpos).trans ?_
    exact congrArg _ (hsmall (BwHColumnBlock.code_lt b pos)).symm
  | bwV b =>
    refine (BwVColumnBlock.getCode_eq hn b hpos).trans ?_
    exact congrArg _ (hsmall (BwVColumnBlock.code_lt b pos)).symm

/-- One write. -/
structure Written (b : ColumnBlock n) (pos c : ℕ) (b' : ColumnBlock n) : Prop where
  valid : b.Valid → b'.Valid
  num : b'.num = b.num
  columnType : b'.columnType = b.columnType
  code : ∀ pos', b'.code pos' = if pos' = pos then b.columnType.put (b.code pos') c else b.code pos'

theorem setCode_spec (hn : n ≤ 32) {pos c : ℕ} (hpos : pos < b.num) (hc : c < 2^n) :
    Written b pos c (b.setCode pos c).2 := by
  cases b with
  | naive b =>
    refine ⟨fun _ => trivial,?_,rfl,?_⟩
    · have hnum : (b.setCode pos c).2.num = b.num := by rw [b.setCode_eq hpos]
      exact hnum
    · exact b.code_setCode hpos (hc.trans_le (Nat.pow_le_pow_right Nat.two_pos (by omega)))
  | bwH b =>
    exact ⟨fun h => ⟨BwHColumnBlock.sized_setCode h.1 pos c,
      BwHColumnBlock.clean_setCode hn h.2 hpos hc⟩,BwHColumnBlock.num_setCode b pos c,rfl,
      BwHColumnBlock.code_setCode hn b hpos hc⟩
  | bwV b =>
    exact ⟨fun h => BwVColumnBlock.sized_setCode h pos c,BwVColumnBlock.num_setCode b pos c,rfl,
      BwVColumnBlock.code_setCode hn b hpos hc⟩

/-- A write behind the end does nothing. -/
theorem setCode_overflow {pos : ℕ} (hpos : b.num ≤ pos) (c : ℕ) : (b.setCode pos c).2 = b := by
  cases b with
  | naive b =>
    have hsame : (b.setCode pos c).2 = b := congrArg Prod.snd (if_pos hpos)
    exact congrArg naive hsame
  | bwH b =>
    have hsame : (b.setCode pos c).2 = b := congrArg Prod.snd (if_pos hpos)
    exact congrArg bwH hsame
  | bwV b =>
    have hsame : (b.setCode pos c).2 = b := congrArg Prod.snd (if_pos hpos)
    exact congrArg bwV hsame

/-! ## Runs of writes -/

/-- `SetCode` for positions and codes; the statuses are dropped. -/
def setCodes (b : ColumnBlock n) (writes : List (ℕ × ℕ)) : ColumnBlock n :=
  writes.foldl (fun b w => (b.setCode w.1 w.2).2) b

/-- The codes that are written to a position, the first one first. -/
def writtenAt (writes : List (ℕ × ℕ)) (pos : ℕ) : List ℕ :=
  (writes.filter (·.1 == pos)).map (·.2)

/-- A run of writes puts the codes of a position on top of each other. -/
theorem setCodes_spec (hn : n ≤ 32) (writes : List (ℕ × ℕ)) (hc : ∀ w ∈ writes, w.2 < 2^n) :
    (b.Valid → (b.setCodes writes).Valid) ∧ (b.setCodes writes).num = b.num ∧
      (b.setCodes writes).columnType = b.columnType ∧ ∀ pos < b.num,
        (b.setCodes writes).code pos =
          (writtenAt writes pos).foldl b.columnType.put (b.code pos) := by
  induction writes generalizing b with
  | nil => exact ⟨id,rfl,rfl,fun _ _ => rfl⟩
  | cons w writes ih =>
    obtain ⟨pos,c⟩ := w
    have hc' := fun w hw => hc w (List.mem_cons_of_mem _ hw)
    rcases Nat.lt_or_ge pos b.num with hpos | hpos
    · have hstep := setCode_spec (b:=b) hn hpos (hc _ List.mem_cons_self)
      obtain ⟨hvalid,hnum,htype,hcode⟩ := ih (b:=(b.setCode pos c).2) hc'
      refine ⟨hvalid ∘ hstep.valid,hnum.trans hstep.num,htype.trans hstep.columnType,?_⟩
      intro pos' hpos'
      refine (hcode pos' (hstep.num ▸ hpos')).trans ?_
      rw [hstep.columnType,hstep.code,writtenAt,writtenAt,List.filter_cons]
      by_cases hsame : pos' = pos
      · subst hsame
        simp
      · have hne : ((pos == pos') : Bool) = false := beq_false_of_ne (Ne.symm hsame)
        simp [hsame,hne]
    · have hsame : (b.setCode pos c).2 = b := setCode_overflow hpos c
      have hrun : b.setCodes ((pos,c)::writes) = b.setCodes writes := by
        rw [setCodes,List.foldl_cons,hsame]
        rfl
      rw [hrun]
      obtain ⟨hvalid,hnum,htype,hcode⟩ := ih (b:=b) hc'
      refine ⟨hvalid,hnum,htype,fun pos' hpos' => ?_⟩
      have hne : ((pos == pos') : Bool) = false := beq_false_of_ne (by omega)
      rw [hcode pos' hpos',writtenAt,writtenAt,List.filter_cons_of_neg (by simp [hne])]

/-- Nothing is written behind the codes of the block. -/
theorem setCodes_behind (hn : n ≤ 32) (writes : List (ℕ × ℕ)) (hc : ∀ w ∈ writes, w.2 < 2^n)
    {pos : ℕ} (hpos : b.num ≤ pos) : (b.setCodes writes).code pos = b.code pos := by
  induction writes generalizing b with
  | nil => rfl
  | cons w writes ih =>
    have hc' := fun w hw => hc w (List.mem_cons_of_mem _ hw)
    rw [setCodes,List.foldl_cons]
    rcases Nat.lt_or_ge w.1 b.num with hlt | hge
    · have hstep := setCode_spec hn hlt (hc w List.mem_cons_self)
      refine (ih hc' (hstep.num ▸ hpos)).trans ?_
      rw [hstep.code,if_neg (by omega)]
    · have hsame : (b.setCode w.1 w.2).2 = b := setCode_overflow hge w.2
      rw [hsame]
      exact ih hc' hpos

/-- What is read after a run of writes. -/
theorem getCode_setCodes (hn : n ≤ 32) (b : ColumnBlock n) (writes : List (ℕ × ℕ))
    (hc : ∀ w ∈ writes, w.2 < 2^n) {pos : ℕ} (hpos : pos < b.num) :
    (b.setCodes writes).getCode pos =
      .ok ((writtenAt writes pos).foldl b.columnType.put (b.code pos)%2^32) := by
  obtain ⟨_,hnum,_,hcode⟩ := setCodes_spec (b:=b) hn writes hc
  rw [getCode_eq hn (hnum.symm ▸ hpos),hcode pos hpos]

/-- Two writes to one position of a BitWeaving/H block. -/
theorem getCode_setCodes_twice :
    ∃ b : ColumnBlock 3, (create 3 .kBitWeavingH fun _ => 0#64).resize 4 = some b ∧
      (b.setCodes [(1,2),(1,5)]).getCode 1 = .ok 7 := by
  have hvalid := valid_create (show 3 ≤ 32 by decide) .kBitWeavingH fun _ => 0#64
  obtain ⟨b,hrun,_,hnum,htype,hcode⟩ := resize_spec hvalid (show 4 ≤ kNumCodesPerBlock by decide)
  refine ⟨b,hrun,?_⟩
  rw [getCode_setCodes (by decide) b [(1,2),(1,5)] (by decide) (by rw [hnum]; decide),htype,hcode,
    code_create .kBitWeavingH (by decide)]
  rfl

/-- The writes of a bulk load. -/
def bulkWrites (codes : List ℕ) (start : ℕ) : List (ℕ × ℕ) :=
  codes.zipIdx.map fun c => (start+c.2,c.1)

theorem bulkWrites_concat (codes : List ℕ) (c start : ℕ) :
    bulkWrites (codes ++ [c]) start = bulkWrites codes start ++ [(start+codes.length,c)] := by
  simp [bulkWrites,List.zipIdx_append]

theorem writtenAt_bulkWrites (codes : List ℕ) (start pos : ℕ) :
    writtenAt (bulkWrites codes start) pos =
      if start ≤ pos ∧ pos < start+codes.length then [codes.getD (pos-start) 0] else [] := by
  induction codes using List.reverseRecOn with
  | nil => rw [if_neg (by simp)]; rfl
  | append_singleton codes c ih =>
    have hlast : writtenAt [(start+codes.length,c)] pos =
        if pos = start+codes.length then [c] else [] := by
      by_cases hpos : pos = start+codes.length
      · simp [writtenAt,hpos]
      · simp [writtenAt,hpos,Ne.symm hpos]
    have happend : writtenAt (bulkWrites (codes ++ [c]) start) pos =
        writtenAt (bulkWrites codes start) pos ++ writtenAt [(start+codes.length,c)] pos := by
      rw [bulkWrites_concat,writtenAt,List.filter_append,List.map_append]
      rfl
    rw [happend,ih,hlast,List.length_append,List.length_singleton]
    by_cases hold : start ≤ pos ∧ pos < start+codes.length
    · rw [if_pos hold,if_neg (by omega),if_pos (by omega),List.append_nil,
        List.getD_append _ _ _ _ (by omega)]
    · rw [if_neg hold]
      by_cases hpos : pos = start+codes.length
      · rw [if_pos hpos,if_pos (by omega),List.nil_append,List.getD_append_right _ _ _ _ (by omega)]
        simp [hpos]
      · rw [if_neg hpos,if_neg (by omega),List.nil_append]

theorem bulkload_eq (b : ColumnBlock n) {codes : List ℕ} {start : ℕ}
    (h : start+codes.length ≤ b.num) :
    b.bulkload codes start = some (b.setCodes (bulkWrites codes start)) := by
  cases b with
  | naive b =>
    have hrun : ∀ l : List ℕ, start+l.length ≤ b.num →
        setCodes (n:=n) (naive b) (bulkWrites l start) = naive {b with
          data := l.zipIdx.foldl (fun data c =>
            Function.update data (start+c.2) (BitVec.ofNat 64 c.1)) b.data} := by
      intro l hl
      induction l using List.reverseRecOn with
      | nil => rfl
      | append_singleton l c ih =>
        rw [List.length_append,List.length_singleton] at hl
        have hlast : ∀ b : ColumnBlock n, b.setCodes (bulkWrites (l ++ [c]) start) =
            ((b.setCodes (bulkWrites l start)).setCode (start+l.length) c).2 := by
          intro b
          rw [bulkWrites_concat,setCodes,List.foldl_append]
          rfl
        rw [hlast,ih (by omega),List.zipIdx_append,List.foldl_append,Nat.zero_add]
        refine congrArg naive (NaiveColumnBlock.setCode_eq _ ?_ c)
        dsimp only
        omega
    rw [hrun codes h]
    exact congrArg (Option.map naive) (if_pos h)
  | bwH b =>
    have hrun : setCodes (bwH b) (bulkWrites codes start) =
        bwH (codes.zipIdx.foldl (fun b c => (b.setCode (start+c.2) c.1).2) b) := by
      rw [setCodes,bulkWrites,List.foldl_map]
      exact List.foldl_hom bwH fun _ _ => rfl
    rw [hrun]
    exact congrArg (Option.map bwH) (if_pos h)
  | bwV b =>
    have hrun : setCodes (bwV b) (bulkWrites codes start) =
        bwV (codes.zipIdx.foldl (fun b c => (b.setCode (start+c.2) c.1).2) b) := by
      rw [setCodes,bulkWrites,List.foldl_map]
      exact List.foldl_hom bwV fun _ _ => rfl
    rw [hrun]
    exact congrArg (Option.map bwV) (if_pos h)

theorem bulkload_none {codes : List ℕ} {start : ℕ} (h : b.num < start+codes.length) :
    b.bulkload codes start = none := by
  have hlong := Nat.not_le.mpr h
  cases b with
  | naive b => exact congrArg (Option.map naive) (if_neg hlong)
  | bwH b => exact congrArg (Option.map bwH) (if_neg hlong)
  | bwV b => exact congrArg (Option.map bwV) (if_neg hlong)

/-- A bulk load puts its codes on top of the old ones. -/
theorem bulkload_spec (hn : n ≤ 32) (b : ColumnBlock n) {codes : List ℕ}
    (hc : ∀ c ∈ codes, c < 2^n) {start : ℕ} (h : start+codes.length ≤ b.num) :
    ∃ b', b.bulkload codes start = some b' ∧ (b.Valid → b'.Valid) ∧ b'.num = b.num ∧
      b'.columnType = b.columnType ∧ ∀ pos, b'.code pos =
        if start ≤ pos ∧ pos < start+codes.length then
          b.columnType.put (b.code pos) (codes.getD (pos-start) 0)
        else b.code pos := by
  have hwrites : ∀ w ∈ bulkWrites codes start, w.2 < 2^n := by
    intro w hw
    obtain ⟨c,hmem,rfl⟩ := List.mem_map.mp hw
    exact hc _ (List.fst_mem_of_mem_zipIdx hmem)
  obtain ⟨hvalid,hnum,htype,hcode⟩ := setCodes_spec (b:=b) hn (bulkWrites codes start) hwrites
  refine ⟨_,bulkload_eq b h,hvalid,hnum,htype,fun pos => ?_⟩
  rcases Nat.lt_or_ge pos b.num with hpos | hpos
  · rw [hcode pos hpos,writtenAt_bulkWrites]
    split <;> rfl
  · rw [setCodes_behind hn _ hwrites hpos,if_neg (by omega)]

/-! ## Scans -/

def lengthError : Status :=
  .invalidArgument "Bit vector length does not match column length."

/-- Packed blocks refuse bit vectors of another length. -/
theorem scan_length (b : ColumnBlock n) (block : BitVectorBlock) (comparator : Comparator)
    (literal : ℕ) (opt : BitVectorOpt) (hpacked : b.columnType ≠ .kNaive)
    (hnum : block.num ≠ b.num) :
    b.scan comparator literal block opt = some (lengthError,block) := by
  cases b with
  | naive b => exact absurd rfl hpacked
  | bwH b => exact if_pos hnum
  | bwV b => exact if_pos hnum

theorem scanBetween_length (b : ColumnBlock n) (block : BitVectorBlock) (literal1 literal2 : ℕ)
    (opt : BitVectorOpt) (hpacked : b.columnType ≠ .kNaive) (hnum : block.num ≠ b.num) :
    b.scanBetween literal1 literal2 block opt = some (lengthError,block) := by
  cases b with
  | naive b => exact absurd rfl hpacked
  | bwH b => exact if_pos hnum
  | bwV b => exact if_pos hnum

/-- A block without codes and a bit vector that has bits. -/
theorem scan_empty (b : ColumnBlock n) (block : BitVectorBlock) (comparator : Comparator)
    (literal : ℕ) (opt : BitVectorOpt) (hempty : b.num = 0) (hne : block.num ≠ 0) :
    b.scan comparator literal block opt =
      if b.columnType.clears then some (.ok,block.setZeros) else some (lengthError,block) := by
  by_cases hpacked : b.columnType = .kNaive
  · cases b with
    | naive b =>
      change b.num = 0 at hempty
      have hrun := b.scanWith_empty (fun id => comparator.test literal (b.data id).toNat) block opt
      rw [scan,NaiveColumnBlock.scan,hempty,hrun]
      rfl
    | bwH b => cases hpacked
    | bwV b => cases hpacked
  · rw [scan_length b block comparator literal opt hpacked (by omega),if_neg (by simpa using hpacked)]

theorem scanBetween_empty (b : ColumnBlock n) (block : BitVectorBlock) (literal1 literal2 : ℕ)
    (opt : BitVectorOpt) (hempty : b.num = 0) (hne : block.num ≠ 0) :
    b.scanBetween literal1 literal2 block opt =
      if b.columnType.clears then some (.ok,block.setZeros) else some (lengthError,block) := by
  by_cases hpacked : b.columnType = .kNaive
  · cases b with
    | naive b =>
      change b.num = 0 at hempty
      have hrun := b.scanWith_empty (fun id => isIn literal1 literal2 (b.data id).toNat) block opt
      rw [scanBetween,NaiveColumnBlock.scanBetween,hempty,hrun]
      rfl
    | bwH b => cases hpacked
    | bwV b => cases hpacked
  · rw [scanBetween_length b block literal1 literal2 opt hpacked (by omega),
      if_neg (by simpa using hpacked)]

section Scans

variable (hn : n ≤ 32) (hvalid : b.Valid) {bitvector : BitVectorBlock}
  (hnum : bitvector.num = b.num) (opt : BitVectorOpt)

include hn hvalid hnum

theorem scan_answered (comparator : Comparator) {literal : ℕ}
    (hfits : b.columnType.fits n literal = true) :
    ∃ out, b.scan comparator literal bitvector opt = some (.ok,out) ∧
      Answered opt (fun k => comparator.test literal (b.code k)) bitvector out := by
  cases b with
  | naive b => exact NaiveColumnBlock.scan_answered hnum opt comparator literal
  | bwH b =>
    exact BwHColumnBlock.scan_answered hn hvalid.1 hvalid.2 hnum opt comparator
      (of_decide_eq_true hfits)
  | bwV b =>
    exact BwVColumnBlock.scan_answered hn hvalid hnum comparator (of_decide_eq_true hfits) opt

theorem scanBetween_answered {literal1 literal2 : ℕ}
    (h1 : b.columnType.fits n literal1 = true) (h2 : b.columnType.fits n literal2 = true) :
    ∃ out, b.scanBetween literal1 literal2 bitvector opt = some (.ok,out) ∧
      Answered opt (fun k => isIn literal1 literal2 (b.code k)) bitvector out := by
  cases b with
  | naive b => exact NaiveColumnBlock.scanBetween_answered hnum opt literal1 literal2
  | bwH b =>
    exact BwHColumnBlock.scanBetween_answered hn hvalid.1 hvalid.2 hnum opt
      (of_decide_eq_true h1) (of_decide_eq_true h2)
  | bwV b =>
    exact BwVColumnBlock.scanBetween_answered hn hvalid hnum (of_decide_eq_true h1)
      (of_decide_eq_true h2) opt

omit hn hvalid in
/-- A literal that does not fit leaves the bit vector alone. -/
theorem scan_rejected (comparator : Comparator) {literal : ℕ}
    (hfits : b.columnType.fits n literal = false) :
    b.scan comparator literal bitvector opt =
      some (.invalidArgument "The code in predicate overflows.",bitvector) := by
  cases b with
  | naive b => exact absurd hfits Bool.noConfusion
  | bwH b =>
    have hliteral := of_decide_eq_false hfits
    refine (if_neg (not_not.mpr hnum)).trans (if_pos (Nat.not_lt.mp hliteral))
  | bwV b =>
    have hliteral := of_decide_eq_false hfits
    refine (if_neg (not_not.mpr hnum)).trans (if_pos (Nat.not_lt.mp hliteral))

omit hn hvalid in
theorem scanBetween_rejected {literal1 literal2 : ℕ}
    (hfits : (b.columnType.fits n literal1 && b.columnType.fits n literal2) = false) :
    ∃ text, b.scanBetween literal1 literal2 bitvector opt =
      some (.invalidArgument text,bitvector) := by
  have hpacked : ∀ {literal1 literal2 : ℕ} {x : Option (Status × BitVectorBlock)},
      (decide (literal1 < 2^n) && decide (literal2 < 2^n)) = false →
      ∃ text, (if literal1 ≥ 2^n then
          some (.invalidArgument "The code in predicate 1 overflows.",bitvector)
        else if literal2 ≥ 2^n then
          some (.invalidArgument "The code in predicate 2 overflows.",bitvector)
        else x) = some (.invalidArgument text,bitvector) := by
    intro literal1 literal2 x h
    by_cases h1 : literal1 ≥ 2^n
    · exact ⟨_,if_pos h1⟩
    · rw [decide_eq_true (Nat.not_le.mp h1),Bool.true_and,decide_eq_false_iff_not] at h
      exact ⟨_,(if_neg h1).trans (if_pos (Nat.not_lt.mp h))⟩
  cases b with
  | naive b => exact absurd hfits Bool.noConfusion
  | bwH b =>
    obtain ⟨text,h⟩ := hpacked hfits
    exact ⟨text,(if_neg (not_not.mpr hnum)).trans h⟩
  | bwV b =>
    obtain ⟨text,h⟩ := hpacked hfits
    exact ⟨text,(if_neg (not_not.mpr hnum)).trans h⟩

end Scans

/-! ## Scans against another block -/

section Blocks

variable {b' : ColumnBlock n'} {bitvector : BitVectorBlock} (stale : ℕ → ℕ)

theorem scanColumn_length (b : ColumnBlock n) (b' : ColumnBlock n') (comparator : Comparator)
    (opt : BitVectorOpt) (hnum : bitvector.num ≠ b.num) :
    b.scanColumn comparator b' stale bitvector opt = some (lengthError,bitvector) := by
  cases b with
  | naive b => exact if_pos hnum
  | bwH b => exact if_pos hnum
  | bwV b => exact if_pos hnum

variable (hnum : bitvector.num = b.num) (hlength : b'.num = b.num) (comparator : Comparator)
  (opt : BitVectorOpt)

include hnum hlength

/-- A naive block is compared with any block, a packed one with one of its type and code size. -/
theorem scanColumn_answered (hn : n ≤ 32) (hn' : n' ≤ 32) (hvalid : b.Valid) (hvalid' : b'.Valid)
    (h : b.columnType = .kNaive ∨ b'.columnType = b.columnType ∧ n' = n) :
    ∃ out, b.scanColumn comparator b' stale bitvector opt = some (.ok,out) ∧
      Answered opt (fun k => comparator.test (b'.code k%2^32) (b.code k)) bitvector out := by
  have hsmall : ∀ {c : ℕ}, c < 2^n' → c%2^32 = c := fun h =>
    Nat.mod_eq_of_lt (h.trans_le (Nat.pow_le_pow_right Nat.two_pos hn'))
  cases b with
  | naive b =>
    change bitvector.num = b.num at hnum
    change b'.num = b.num at hlength
    obtain ⟨out,hrun,hout⟩ := NaiveColumnBlock.scanWith_answered hnum (fun id =>
      comparator.test (NaiveColumnBlock.readCode (b'.getCode id) (stale id)) (b.data id).toNat) opt
    refine ⟨out,?_,hout.num,fun k hk => (hout.bit k hk).trans ?_,hout.finalized,hout.rest⟩
    · rw [scanColumn,NaiveColumnBlock.scanColumn,if_neg (not_not.mpr hnum),hlength,min_self]
      exact congrArg (Option.map _) hrun
    · rw [getCode_eq hn' (by omega)]
      rfl
  | bwH b =>
    obtain ⟨htype,rfl⟩ := h.resolve_left (fun h => by cases h)
    cases b' with
    | naive b' => cases htype
    | bwV b' => cases htype
    | bwH b' =>
      obtain ⟨out,hrun,hout⟩ := BwHColumnBlock.scanColumn_answered hn hvalid.1 hvalid.2 hnum opt
        comparator hvalid'.1 hvalid'.2 hlength
      refine ⟨out,?_,hout.num,fun k hk => (hout.bit k hk).trans ?_,hout.finalized,hout.rest⟩
      · refine (if_neg (not_not.mpr hnum)).trans ((if_neg (not_not.mpr hlength)).trans ?_)
        exact (dif_pos rfl).trans hrun
      · simp only [code,hsmall (BwHColumnBlock.code_lt b' k)]
  | bwV b =>
    obtain ⟨htype,rfl⟩ := h.resolve_left (fun h => by cases h)
    cases b' with
    | naive b' => cases htype
    | bwH b' => cases htype
    | bwV b' =>
      obtain ⟨out,hrun,hout⟩ := BwVColumnBlock.scanColumn_answered hn hvalid hnum comparator hlength
        opt
      refine ⟨out,?_,hout.num,fun k hk => (hout.bit k hk).trans ?_,hout.finalized,hout.rest⟩
      · refine (if_neg (not_not.mpr hnum)).trans ((if_neg (not_not.mpr hlength)).trans ?_)
        exact (dif_pos rfl).trans hrun
      · simp only [code,hsmall (BwVColumnBlock.code_lt b' k)]

/-- Every other pair is refused. -/
theorem scanColumn_rejected
    (h : ¬(b.columnType = .kNaive ∨ b'.columnType = b.columnType ∧ n' = n)) :
    ∃ text, b.scanColumn comparator b' stale bitvector opt =
      some (.invalidArgument text,bitvector) := by
  obtain ⟨hpacked,hother⟩ := not_or.mp h
  cases b with
  | naive b => exact absurd rfl hpacked
  | bwH b =>
    have hskip : ∀ {x y z : Option (Status × BitVectorBlock)},
        (if bitvector.num ≠ b.num then x else if b'.num ≠ b.num then y else z) = z :=
      (if_neg (not_not.mpr hnum)).trans (if_neg (not_not.mpr hlength))
    cases b' with
    | naive b' => exact ⟨_,hskip⟩
    | bwV b' => exact ⟨_,hskip⟩
    | bwH b' => exact ⟨_,hskip.trans (dif_neg fun hsize => hother ⟨rfl,hsize⟩)⟩
  | bwV b =>
    have hskip : ∀ {x y z : Option (Status × BitVectorBlock)},
        (if bitvector.num ≠ b.num then x else if b'.num ≠ b.num then y else z) = z :=
      (if_neg (not_not.mpr hnum)).trans (if_neg (not_not.mpr hlength))
    cases b' with
    | naive b' => exact ⟨_,hskip⟩
    | bwH b' => exact ⟨_,hskip⟩
    | bwV b' => exact ⟨_,hskip.trans (dif_neg fun hsize => hother ⟨rfl,hsize⟩)⟩

end Blocks

/-! ## Blocks of two types -/

theorem fits_of_lt (type : ColumnType) {literal : ℕ} (h : literal < 2^n) :
    type.fits n literal = true := by
  cases type
  · rfl
  · exact decide_eq_true h
  · exact decide_eq_true h

/-- Codes loaded into a new block are the codes that its scans compare, whatever its type. -/
theorem loaded_spec (hn : n ≤ 32) (type : ColumnType) (words : ℕ → WordUnit) {codes : List ℕ}
    (hlen : codes.length ≤ kNumCodesPerBlock) (hc : ∀ c ∈ codes, c < 2^n) :
    ∃ b, ((create n type words).resize codes.length).bind (·.bulkload codes 0) = some b ∧
      b.Valid ∧ b.num = codes.length ∧ b.columnType = type ∧
      ∀ pos < codes.length, b.code pos = codes.getD pos 0 := by
  obtain ⟨b,hresize,hvalid,hnum,htype,hcode⟩ := resize_spec (valid_create hn type words) hlen
  obtain ⟨b',hload,hvalid',hnum',htype',hcode'⟩ := bulkload_spec hn b hc
    (show 0+codes.length ≤ b.num by omega)
  have hcreate : (create n type words).columnType = type := by cases type <;> rfl
  refine ⟨b',by rw [hresize]; exact hload,hvalid' hvalid,hnum'.trans hnum,
    htype'.trans (htype.trans hcreate),fun pos hpos => ?_⟩
  rw [hcode' pos,if_pos ⟨Nat.zero_le _,by omega⟩,htype,hcreate,hcode,Nat.sub_zero]
  cases type with
  | kNaive => rfl
  | kBitWeavingV => rfl
  | kBitWeavingH =>
    rw [code_create .kBitWeavingH (by decide)]
    exact Nat.zero_or _

/-- Blocks of any two types that are loaded with the same codes give the same bit vectors in
every scan whose literals are codes. -/
theorem loaded_scan_eq (hn : n ≤ 32) (type type' : ColumnType) (words words' : ℕ → WordUnit)
    {codes : List ℕ} (hlen : codes.length ≤ kNumCodesPerBlock) (hc : ∀ c ∈ codes, c < 2^n) :
    ∃ b b', ((create n type words).resize codes.length).bind (·.bulkload codes 0) = some b ∧
      ((create n type' words').resize codes.length).bind (·.bulkload codes 0) = some b' ∧
      ∀ block : BitVectorBlock, block.num = codes.length → block.Finalized → ∀ opt,
        (∀ comparator literal, literal < 2^n →
          b.scan comparator literal block opt = b'.scan comparator literal block opt) ∧
        ∀ literal1 literal2, literal1 < 2^n → literal2 < 2^n →
          b.scanBetween literal1 literal2 block opt = b'.scanBetween literal1 literal2 block opt := by
  obtain ⟨b,hrun,hvalid,hnum,htype,hcode⟩ := loaded_spec hn type words hlen hc
  obtain ⟨b',hrun',hvalid',hnum',htype',hcode'⟩ := loaded_spec hn type' words' hlen hc
  refine ⟨b,b',hrun,hrun',fun block hblock hfinal opt => ?_⟩
  have hsame : ∀ k < block.num, b'.code k = b.code k := by
    intro k hk
    rw [hcode k (hblock ▸ hk),hcode' k (hblock ▸ hk)]
  refine ⟨fun comparator literal hlit => ?_,fun literal1 literal2 h1 h2 => ?_⟩
  · obtain ⟨out,hscan,hout⟩ := scan_answered hn hvalid (hblock.trans hnum.symm) opt comparator
      (fits_of_lt b.columnType hlit)
    obtain ⟨out',hscan',hout'⟩ := scan_answered hn hvalid' (hblock.trans hnum'.symm) opt comparator
      (fits_of_lt b'.columnType hlit)
    have hout' : Answered opt (fun k => comparator.test literal (b.code k)) block out' :=
      ⟨hout'.num,fun k hk => (hout'.bit k hk).trans (by rw [hsame k hk]),hout'.finalized,hout'.rest⟩
    rw [hscan,hscan',hout.unique hout' hfinal]
  · obtain ⟨out,hscan,hout⟩ := scanBetween_answered hn hvalid (hblock.trans hnum.symm) opt
      (fits_of_lt b.columnType h1) (fits_of_lt b.columnType h2)
    obtain ⟨out',hscan',hout'⟩ := scanBetween_answered hn hvalid' (hblock.trans hnum'.symm) opt
      (fits_of_lt b'.columnType h1) (fits_of_lt b'.columnType h2)
    have hout' : Answered opt (fun k => isIn literal1 literal2 (b.code k)) block out' :=
      ⟨hout'.num,fun k hk => (hout'.bit k hk).trans (by rw [hsame k hk]),hout'.finalized,hout'.rest⟩
    rw [hscan,hscan',hout.unique hout' hfinal]

/-- Three codes in a BitWeaving/V and a naive block. -/
theorem loaded_scan_eq_three :
    ∃ (b b' : ColumnBlock 5),
      ((create 5 .kBitWeavingV fun _ => 0#64).resize 3).bind (·.bulkload [1,17,30] 0) = some b ∧
      ((create 5 .kNaive fun _ => 3#64).resize 3).bind (·.bulkload [1,17,30] 0) = some b' ∧
      b.scan .kLess 17 (BitVectorBlock.setOnes ⟨3,fun _ => 9#64⟩) .kAnd =
        b'.scan .kLess 17 (BitVectorBlock.setOnes ⟨3,fun _ => 9#64⟩) .kAnd := by
  obtain ⟨b,b',hrun,hrun',hscans⟩ := loaded_scan_eq (show 5 ≤ 32 by decide) .kBitWeavingV .kNaive
    (fun _ => 0#64) (fun _ => 3#64) (show [1,17,30].length ≤ kNumCodesPerBlock by decide) (by decide)
  refine ⟨b,b',hrun,hrun',?_⟩
  exact (hscans _ (BitVectorBlock.num_setOnes 3 _) (BitVectorBlock.finalized_finalize _) .kAnd).1
    .kLess 17 (by decide)

end ColumnBlock
end ElfIndex.Bitweaving
