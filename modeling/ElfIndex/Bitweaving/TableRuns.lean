import ElfIndex.Bitweaving.ColumnRuns

/-! # Runs of operations on a table

In every run of operations whose codes fit their columns, the blocks of all columns are sound
and have the sizes of the number of tuples, so a scan answers for the codes that `GetCode`
returns. Only where the number of tuples is a multiple of the block size does a bulk load run
past the blocks, and a scan miss the last one.
-/
namespace ElfIndex.Bitweaving

variable {n N : ℕ} {type : ColumnType} {blocks : List (ColumnBlock n)}

/-! ## Capacity -/

theorem fullBlocks_of_getElem? (h : ∀ i b, blocks[i]? = some b →
      b.num ≤ kNumCodesPerBlock ∧ (i+1 < blocks.length → b.num = kNumCodesPerBlock)) :
    FullBlocks blocks := by
  induction blocks with
  | nil => trivial
  | cons b blocks ih =>
    obtain ⟨hnum,hlast⟩ := h 0 b rfl
    refine ⟨hnum,fun hne => hlast ?_,ih fun i b hb => ?_⟩
    · have := List.length_pos_iff.mpr hne
      rw [List.length_cons]
      omega
    · obtain ⟨hnum,hlast⟩ := h (i+1) b hb
      exact ⟨hnum,fun hi => hlast (by rw [List.length_cons]; omega)⟩

theorem capacity_fullBlocks (h : FullBlocks blocks) (hne : blocks ≠ []) :
    capacity blocks = (blocks.length-1)*kNumCodesPerBlock+(blocks.getLast hne).num := by
  induction blocks with
  | nil => exact absurd rfl hne
  | cons b blocks ih =>
    obtain ⟨_,hlast,hfull⟩ := h
    have hcap : capacity (b::blocks) = b.num+capacity blocks := by
      simp only [capacity,List.map_cons,List.sum_cons]
    rw [hcap]
    by_cases hblocks : blocks = []
    · subst hblocks
      simp [capacity]
    · have hlen := List.length_pos_iff.mpr hblocks
      have hsucc : blocks.length = blocks.length-1+1 := by omega
      rw [hlast hblocks,ih hfull hblocks,List.getLast_cons hblocks,List.length_cons,
        Nat.add_sub_cancel]
      conv_rhs => rw [hsucc,Nat.succ_mul]
      omega

/-- The codes that a column over `num` tuples has room for. -/
def room (num : ℕ) : ℕ := if num%kNumCodesPerBlock = 0 then num-kNumCodesPerBlock else num

theorem Shaped.full (h : Shaped type N blocks) : FullBlocks blocks := by
  refine fullBlocks_of_getElem? fun i b hb => ⟨?_,fun hi => ?_⟩
  · rw [h.num i b hb]
    exact blockNum_le N i
  · rw [h.num i b hb,blockNum,if_neg (by rw [← h.length]; omega)]

theorem Shaped.capacity (h : Shaped type N blocks) : capacity blocks = room N := by
  have hlen := h.length
  by_cases hne : blocks = []
  · have hzero : N = 0 := by
      rw [hne,List.length_nil,numColumnBlocks] at hlen
      simp only [kNumCodesPerBlock] at hlen
      omega
    simp [hne,hzero,ElfIndex.Bitweaving.capacity,room]
  · have hpos := List.length_pos_iff.mpr hne
    have hlast : (blocks.getLast hne).num = N%kNumCodesPerBlock := by
      have hget : blocks[blocks.length-1]? = some (blocks.getLast hne) := by
        rw [List.getLast_eq_getElem,List.getElem?_eq_getElem]
      rw [h.num _ _ hget,blockNum,if_pos (by omega)]
    rw [capacity_fullBlocks h.full hne,hlast,room]
    by_cases hmod : N%kNumCodesPerBlock = 0
    · rw [if_pos hmod]
      simp only [numColumnBlocks,kNumCodesPerBlock] at hlen hmod ⊢
      omega
    · rw [if_neg hmod]
      simp only [numColumnBlocks,kNumCodesPerBlock] at hlen hmod ⊢
      omega

/-! ## Bulk loads at a position -/

theorem Shaped.of_nums {blocks' : List (ColumnBlock n)} (h : Shaped type N blocks)
    (hvalid : ∀ b ∈ blocks', b.Valid) (htype : ∀ b ∈ blocks', b.columnType = type)
    (hnums : blocks'.map (·.num) = blocks.map (·.num)) : Shaped type N blocks' := by
  refine ⟨⟨hvalid,htype,fun i b hb => ?_⟩,?_⟩
  · have hget := congrArg (·[i]?) hnums
    simp only [List.getElem?_map,hb,Option.map_some] at hget
    obtain ⟨b',hb',heq⟩ := Option.map_eq_some_iff.mp hget.symm
    rw [← heq,h.num i b' hb']
  · have hlen := congrArg List.length hnums
    rw [List.length_map,List.length_map] at hlen
    exact hlen.trans h.length

theorem FullBlocks.drop (h : FullBlocks blocks) (i : ℕ) : FullBlocks (blocks.drop i) := by
  induction blocks generalizing i with
  | nil => rw [List.drop_nil]; trivial
  | cons b blocks ih =>
    cases i with
    | zero => exact h
    | succ i => exact ih h.2.2 i

/-- The blocks in front of a block are full. -/
theorem FullBlocks.capacity_drop (h : FullBlocks blocks) {i : ℕ} (hi : i < blocks.length) :
    capacity blocks = i*kNumCodesPerBlock+capacity (blocks.drop i) := by
  induction blocks generalizing i with
  | nil => exact absurd hi (Nat.not_lt_zero _)
  | cons b blocks ih =>
    cases i with
    | zero => rw [Nat.zero_mul,Nat.zero_add,List.drop_zero]
    | succ i =>
      rw [List.length_cons] at hi
      have hne : blocks ≠ [] := List.ne_nil_of_length_pos (by omega)
      have hcap : capacity (b::blocks) = b.num+capacity blocks := by
        simp only [capacity,List.map_cons,List.sum_cons]
      rw [hcap,h.2.1 hne,ih (i:=i) h.2.2 (by omega),List.drop_succ_cons,Nat.succ_mul]
      omega

theorem FullBlocks.capacity_le (h : FullBlocks blocks) :
    capacity blocks ≤ blocks.length*kNumCodesPerBlock := by
  induction blocks with
  | nil => exact Nat.zero_le _
  | cons b blocks ih =>
    have hcap : capacity (b::blocks) = b.num+capacity blocks := by
      simp only [capacity,List.map_cons,List.sum_cons]
    have hrest := ih h.2.2
    have hnum := h.1
    rw [hcap,List.length_cons,Nat.succ_mul]
    omega

theorem codeAt_append (l r : List (ColumnBlock n)) (pos : ℕ) :
    codeAt (l ++ r) pos = if pos/kNumCodesPerBlock < l.length then codeAt l pos
      else codeAt r (pos-l.length*kNumCodesPerBlock) := by
  by_cases hpos : pos/kNumCodesPerBlock < l.length
  · rw [if_pos hpos,codeAt,codeAt,List.getElem?_append_left hpos]
  · have hge := Nat.not_lt.mp hpos
    have hle : l.length*kNumCodesPerBlock ≤ pos :=
      (Nat.mul_le_mul_right _ hge).trans (Nat.div_mul_le_self _ _)
    have hdiv := Nat.sub_mul_div pos kNumCodesPerBlock l.length
    have hmod := Nat.sub_mul_mod (n:=kNumCodesPerBlock) (k:=l.length) (x:=pos)
      (by rw [Nat.mul_comm]; exact hle)
    rw [Nat.mul_comm] at hdiv hmod
    rw [if_neg hpos,codeAt,codeAt,List.getElem?_append_right hge,hdiv,hmod]

section Bulk

variable {codes : List ℕ} {pos : ℕ}

/-- A position that the part of the blocks behind it has room for. -/
theorem room_drop (h : Shaped type N blocks) (hnil : codes ≠ []) :
    pos%kNumCodesPerBlock+codes.length ≤ capacity (blocks.drop (pos/kNumCodesPerBlock)) ↔
      pos+codes.length ≤ room N := by
  have hlen := List.length_pos_iff.mpr hnil
  have hpos := Nat.div_add_mod' pos kNumCodesPerBlock
  rw [← h.capacity]
  by_cases hi : pos/kNumCodesPerBlock < blocks.length
  · rw [h.full.capacity_drop hi]
    omega
  · have hge := Nat.not_lt.mp hi
    have hle := h.full.capacity_le.trans (Nat.mul_le_mul_right kNumCodesPerBlock hge)
    have hnone : capacity (blocks.drop (pos/kNumCodesPerBlock)) = 0 := by
      rw [List.drop_eq_nil_of_le hge]
      rfl
    rw [hnone]
    omega

theorem bulkloadAt_some (hn : n ≤ 32) (h : Shaped type N blocks) (hc : ∀ c ∈ codes, c < 2^n)
    (hroom : codes = [] ∨ pos+codes.length ≤ room N) :
    ∃ rest, bulkloadBlocks (blocks.drop (pos/kNumCodesPerBlock)) codes
        (pos%kNumCodesPerBlock) = some rest ∧
      Shaped type N (blocks.take (pos/kNumCodesPerBlock) ++ rest) ∧
      ∀ p, codeAt (blocks.take (pos/kNumCodesPerBlock) ++ rest) p =
        if pos ≤ p ∧ p < pos+codes.length then type.put (codeAt blocks p) (codes.getD (p-pos) 0)
        else codeAt blocks p := by
  obtain ⟨i,hi⟩ : ∃ i, i = pos/kNumCodesPerBlock := ⟨_,rfl⟩
  have hpos := Nat.div_add_mod' pos kNumCodesPerBlock
  have hmod := Nat.mod_lt pos kNumCodesPerBlock_pos
  have hfits : codes = [] ∨
      pos%kNumCodesPerBlock+codes.length ≤ capacity (blocks.drop (pos/kNumCodesPerBlock)) := by
    by_cases hnil : codes = []
    · exact .inl hnil
    · exact .inr ((room_drop h hnil).mpr (hroom.resolve_left hnil))
  rw [← hi] at hpos hfits ⊢
  obtain ⟨rest,hrun,hvalid,htype,hnums,hcodes⟩ := bulkloadBlocks_some hn
    (fun b hb => h.valid b (List.mem_of_mem_drop hb))
    (fun b hb => h.columnType b (List.mem_of_mem_drop hb)) (h.full.drop i) hc hmod hfits
  refine ⟨rest,hrun,h.of_nums ?_ ?_ ?_,fun p => ?_⟩
  · exact fun b hb => (List.mem_append.mp hb).elim
      (fun hb => h.valid b (List.mem_of_mem_take hb)) (hvalid b)
  · exact fun b hb => (List.mem_append.mp hb).elim
      (fun hb => h.columnType b (List.mem_of_mem_take hb)) (htype b)
  · rw [List.map_append,hnums,← List.map_append,List.take_append_drop]
  · by_cases hlen : i ≤ blocks.length
    · have htake : (blocks.take i).length = i := by
        rw [List.length_take]
        omega
      have hsplit := codeAt_append (blocks.take i) (blocks.drop i) p
      rw [List.take_append_drop,htake] at hsplit
      rw [codeAt_append,htake,hsplit]
      have hdiv : p/kNumCodesPerBlock < i ↔ p < i*kNumCodesPerBlock :=
        Nat.div_lt_iff_lt_mul kNumCodesPerBlock_pos
      by_cases hfront : p/kNumCodesPerBlock < i
      · have hlow := hdiv.mp hfront
        rw [if_pos hfront,if_pos hfront,if_neg (by omega)]
      · have hhigh := Nat.not_lt.mp (hdiv.not.mp hfront)
        have hidx : p-i*kNumCodesPerBlock-pos%kNumCodesPerBlock = p-pos := by omega
        rw [if_neg hfront,if_neg hfront,hcodes,hidx]
        by_cases hin : pos ≤ p ∧ p < pos+codes.length
        · rw [if_pos hin,if_pos (by omega)]
        · rw [if_neg hin,if_neg (by omega)]
    · -- behind the blocks there is nothing to load
      have hle := Nat.le_of_not_le hlen
      have hdrop : blocks.drop i = [] := List.drop_eq_nil_of_le hle
      have hnil : rest = [] := by
        have hmap := hnums
        rw [hdrop,List.map_nil] at hmap
        exact List.map_eq_nil_iff.mp hmap
      have hcodes : codes.length = 0 := by
        rw [hdrop] at hfits
        rcases hfits with rfl | hfits
        · rfl
        · simp only [capacity,List.map_nil,List.sum_nil] at hfits
          omega
      rw [hnil,List.append_nil,List.take_of_length_le hle,if_neg (by omega)]

theorem bulkloadAt_none (hn : n ≤ 32) (h : Shaped type N blocks) (hc : ∀ c ∈ codes, c < 2^n)
    (hword : pos+codes.length < 2^64) (hnil : codes ≠ []) (hroom : room N < pos+codes.length) :
    bulkloadBlocks (blocks.drop (pos/kNumCodesPerBlock)) codes (pos%kNumCodesPerBlock) = none := by
  have hmod := Nat.mod_le pos kNumCodesPerBlock
  refine bulkloadBlocks_none hn (h.full.drop _) hc (Nat.mod_lt pos kNumCodesPerBlock_pos)
    (by omega) hnil ?_
  exact Nat.not_le.mp ((room_drop h hnil).not.mpr (Nat.not_le.mpr hroom))

end Bulk

/-! ## Tables -/

/-- The codes of the column fit its blocks, which have the sizes for `num` tuples. -/
structure ColumnRep.Sound (c : ColumnRep) (num : ℕ) : Prop where
  pos : 0 < c.codeSize
  le : c.codeSize ≤ 32
  shaped : Shaped c.type num c.blocks

/-- The code at a position of a column. -/
def ColumnRep.code (c : ColumnRep) (pos : ℕ) : ℕ := codeAt c.blocks pos

/-- `c'` is `c` at another number of tuples. -/
structure ColumnRep.Resized (c : ColumnRep) (num num' : ℕ) (c' : ColumnRep) : Prop where
  sound : c'.Sound num'
  id : c'.id = c.id
  type : c'.type = c.type
  codeSize : c'.codeSize = c.codeSize
  kept : ∀ pos, pos/kNumCodesPerBlock < numColumnBlocks num' →
    pos/kNumCodesPerBlock < numColumnBlocks num → c'.code pos = c.code pos
  zero : c.type ≠ .kNaive → ∀ pos, numColumnBlocks num ≤ pos/kNumCodesPerBlock → c'.code pos = 0

def TableRep.Sound (t : TableRep) : Prop := ∀ e ∈ t.map, e.2.Sound t.num

namespace TableRep

variable {t t' : TableRep} {words : Memory} {c : ColumnRep} {name : String} {num num' : ℕ}

theorem resize_column (h : c.Sound num) (words : ℕ → ℕ → WordUnit) (num' : ℕ) :
    ∃ c', c.resize words num' = some c' ∧ c.Resized num num' c' := by
  obtain ⟨blocks',hrun,hshaped,hkept,hzero⟩ := resizeBlocks_spec h.pos h.le h.shaped words num'
  refine ⟨{c with blocks := blocks'},congrArg (Option.map _) hrun,
    ⟨⟨h.pos,h.le,hshaped⟩,rfl,rfl,rfl,?_,?_⟩⟩
  · intro pos hp hp'
    exact hkept pos (hshaped.length ▸ hp) (h.shaped.length ▸ hp')
  · intro hpacked pos hp
    exact hzero hpacked pos (h.shaped.length ▸ hp)

theorem resized_self (h : c.Sound num) : c.Resized num num c := by
  refine ⟨h,rfl,rfl,rfl,fun _ _ _ => rfl,fun _ pos hp => ?_⟩
  rw [ColumnRep.code,codeAt,List.getElem?_eq_none (h.shaped.length ▸ hp)]

/-- A resize of a table resizes all its columns. -/
theorem resize_spec (h : t.Sound) (words : Memory) (num : ℕ) :
    ∃ t', t.resize words num = some t' ∧ t'.num = num ∧ t'.freeColumnIds = t.freeColumnIds ∧
      List.Forall₂ (fun e e' => e'.1 = e.1 ∧ e.2.Resized t.num num e'.2) t.map t'.map := by
  by_cases hsame : t.num = num
  · subst hsame
    refine ⟨t,if_neg (fun h => h rfl),rfl,rfl,List.forall₂_same.mpr fun e he => ?_⟩
    exact ⟨rfl,resized_self (h e he)⟩
  · obtain ⟨map,hrun,hmap⟩ := Related.mapM (l:=t.map)
      (f:=fun e => (e.2.resize (words e.2.id) num).map fun c => (e.1,c))
      (r:=fun e e' => e'.1 = e.1 ∧ e.2.Resized t.num num e'.2) (by
      intro e he
      obtain ⟨c',hresize,hc'⟩ := resize_column (h e he) (words e.2.id) num
      exact ⟨(e.1,c'),by rw [hresize]; rfl,rfl,hc'⟩)
    refine ⟨{t with num := num, map := map},?_,rfl,rfl,hmap⟩
    rw [resize,if_pos hsame,hrun]
    rfl

theorem sound_of_forall₂ {map : List (String × ColumnRep)}
    (h : List.Forall₂ (fun e e' => e'.1 = e.1 ∧ e.2.Resized num num' e'.2) map t'.map)
    (hnum : t'.num = num') : t'.Sound := by
  intro e' he'
  obtain ⟨i,hi,rfl⟩ := List.mem_iff_getElem.mp he'
  rw [hnum]
  exact ((List.forall₂_iff_get.mp h).2 i (h.length_eq ▸ hi) hi).2.sound

theorem getColumn_mem (h : t.getColumn name = some c) : ∃ e ∈ t.map, e.1 = name ∧ e.2 = c := by
  obtain ⟨e,hfind,rfl⟩ := Option.map_eq_some_iff.mp h
  exact ⟨e,List.mem_of_find?_eq_some hfind,by simpa using List.find?_some hfind,rfl⟩

theorem Sound.getColumn (h : t.Sound) (hc : t.getColumn name = some c) : c.Sound t.num := by
  obtain ⟨e,he,_,rfl⟩ := getColumn_mem hc
  exact h e he

/-- The column of a name after a resize. -/
theorem getColumn_forall₂ {l l' : List (String × ColumnRep)} {r : ColumnRep → ColumnRep → Prop}
    (h : List.Forall₂ (fun e e' => e'.1 = e.1 ∧ r e.2 e'.2) l l') (name : String) :
    Option.Rel r ((l.find? (·.1 == name)).map (·.2)) ((l'.find? (·.1 == name)).map (·.2)) := by
  induction h with
  | nil => exact .none
  | @cons e e' l l' hee' _ ih =>
    rw [List.find?_cons,List.find?_cons,hee'.1]
    cases e.1 == name with
    | true => exact .some hee'.2
    | false => exact ih

theorem sound_setColumn (h : t.Sound) (hc : c.Sound t.num) (name : String) :
    (t.setColumn name c).Sound := by
  intro e he
  obtain ⟨e',he',rfl⟩ := List.mem_map.mp he
  split
  · exact hc
  · exact h e' he'

theorem getColumn_setColumn (t : TableRep) (name name' : String) (c : ColumnRep) :
    (t.setColumn name c).getColumn name' =
      if name' = name then (t.getColumn name).map fun _ => c else t.getColumn name' := by
  simp only [getColumn,setColumn]
  induction t.map with
  | nil => split <;> rfl
  | cons e l ih =>
    rw [List.map_cons,List.find?_cons,List.find?_cons,List.find?_cons]
    by_cases hname : name' = name
    · subst hname
      rw [if_pos rfl] at ih ⊢
      by_cases he : e.1 = name'
      · simp [he]
      · have hne : (e.1 == name') = false := beq_false_of_ne he
        simp only [hne,Bool.false_eq_true,if_false]
        exact ih
    · rw [if_neg hname] at ih ⊢
      by_cases he : e.1 = name
      · have hne : (e.1 == name') = false := beq_false_of_ne (fun h => hname (h.symm.trans he))
        have hne' : (name == name') = false := beq_false_of_ne (Ne.symm hname)
        simp only [he,beq_self_eq_true,if_true,hne']
        exact ih
      · have hne : (e.1 == name) = false := beq_false_of_ne he
        simp only [hne,Bool.false_eq_true,if_false]
        cases e.1 == name'
        · exact ih
        · rfl

/-! ## Steps -/

/-- The codes fit the column they are for, and no position leaves the machine words. -/
def Fits (t : TableRep) : TableOp → Prop
  | .addColumn _ _ codeSize => 0 < codeSize ∧ codeSize ≤ 32
  | .bulkload name codes pos => pos+codes.length < 2^64 ∧
      ∀ c, t.getColumn name = some c → ∀ code ∈ codes, code < 2^c.codeSize
  | .setCode name _ code => ∀ c, t.getColumn name = some c → code < 2^c.codeSize
  | _ => True

theorem sound_create : create.Sound := fun _ he => absurd he List.not_mem_nil

theorem sound_addColumn (h : t.Sound) (type : ColumnType) {codeSize : ℕ}
    (hpos : 0 < codeSize) (hle : codeSize ≤ 32) (words : Memory) (name : String) :
    ∃ r, t.addColumn words name type codeSize = some r ∧ r.2.Sound ∧ r.2.num = t.num := by
  unfold addColumn
  dsimp only
  split
  · exact ⟨_,rfl,h,rfl⟩
  · have hnil : ColumnRep.Sound ⟨t.freeColumnIds.headD t.map.length,type,codeSize,[]⟩ 0 :=
      ⟨hpos,hle,shaped_nil type⟩
    obtain ⟨c,hresize,hc⟩ := resize_column hnil (words (t.freeColumnIds.headD t.map.length)) t.num
    refine ⟨(.ok,⟨t.num,insert t.map name c,t.freeColumnIds.tail⟩),?_,fun e he => ?_,rfl⟩
    · rw [hresize]
      rfl
    · rcases List.mem_append.mp he with he | he
      · exact h e (List.takeWhile_subset _ he)
      · rcases List.mem_cons.mp he with rfl | he
        · exact hc.sound
        · exact h e (List.dropWhile_subset _ he)

/-- A new name is found at its place and no other one is hidden. -/
theorem find?_insert {map : List (String × ColumnRep)} (hnew : map.find? (·.1 == name) = none)
    (c : ColumnRep) (name' : String) :
    ((insert map name c).find? (·.1 == name')).map (·.2) =
      if name' = name then some c else (map.find? (·.1 == name')).map (·.2) := by
  have hsplit : map.takeWhile (·.1 < name) ++ map.dropWhile (·.1 < name) = map :=
    List.takeWhile_append_dropWhile
  by_cases hname : name' = name
  · subst hname
    have hfront : (map.takeWhile (·.1 < name')).find? (·.1 == name') = none := by
      rw [List.find?_eq_none] at hnew ⊢
      exact fun e he => hnew e (List.takeWhile_subset _ he)
    rw [insert,List.find?_append,hfront,List.find?_cons_of_pos (by simp),if_pos rfl]
    rfl
  · have hne : (name == name') = false := beq_false_of_ne (Ne.symm hname)
    rw [if_neg hname]
    conv_rhs => rw [← hsplit]
    rw [insert,List.find?_append,List.find?_append,List.find?_cons_of_neg (by simp [hne])]

/-- `AddColumn` of a new name; the codes of a packed column start with zero. -/
theorem addColumn_spec (t : TableRep) (type : ColumnType) {codeSize : ℕ} (hpos : 0 < codeSize)
    (hle : codeSize ≤ 32) (words : Memory) (hnew : t.getColumn name = none) :
    ∃ (t' : TableRep) (c : ColumnRep), t.addColumn words name type codeSize = some (.ok,t') ∧
      t'.num = t.num ∧ c.type = type ∧ c.codeSize = codeSize ∧
      (type ≠ .kNaive → ∀ pos, c.code pos = 0) ∧
      ∀ name', t'.getColumn name' = if name' = name then some c else t.getColumn name' := by
  have hnil : ColumnRep.Sound ⟨t.freeColumnIds.headD t.map.length,type,codeSize,[]⟩ 0 :=
    ⟨hpos,hle,shaped_nil type⟩
  obtain ⟨c,hresize,hc⟩ :=
    resize_column hnil (words (t.freeColumnIds.headD t.map.length)) t.num
  refine ⟨⟨t.num,insert t.map name c,t.freeColumnIds.tail⟩,c,?_,rfl,hc.type,hc.codeSize,?_,?_⟩
  · have hnone : (TableRep.getColumn ⟨t.num,t.map,t.freeColumnIds.tail⟩ name).isSome = false := by
      rw [getColumn] at hnew ⊢
      rw [hnew]
      rfl
    unfold addColumn
    dsimp only
    rw [hnone,if_neg Bool.false_ne_true,hresize]
    rfl
  · intro hpacked pos
    have hzero : numColumnBlocks 0 = 0 := (shaped_nil (n:=0) type).length.symm
    exact hc.zero hpacked pos (by rw [hzero]; exact Nat.zero_le _)
  · intro name'
    exact find?_insert (Option.map_eq_none_iff.mp hnew) c name'

theorem free_addColumn {type : ColumnType} {codeSize : ℕ} {r : Status × TableRep}
    (h : t.addColumn words name type codeSize = some r) :
    r.2.freeColumnIds = t.freeColumnIds.tail := by
  unfold addColumn at h
  dsimp only at h
  split at h
  · obtain rfl := Option.some.inj h
    rfl
  · obtain ⟨c,_,h⟩ := Option.bind_eq_some_iff.mp h
    obtain rfl := Option.some.inj h
    rfl

theorem sound_removeColumn (h : t.Sound) (name : String) : (t.removeColumn name).2.Sound := by
  unfold removeColumn
  split
  · exact fun e he => h e (List.mem_of_mem_filter he)
  · exact h

theorem sound_setCode (h : t.Sound) (hc : t.getColumn name = some c) {pos code : ℕ}
    (hcode : code < 2^c.codeSize) {r : Status × ColumnRep} (hr : c.setCode pos code = some r) :
    r.2.Sound t.num := by
  obtain ⟨b,hb,rfl⟩ := Option.map_eq_some_iff.mp hr
  have hsound := h.getColumn hc
  have hmem := List.mem_of_getElem? hb
  -- behind the end of the block nothing is written
  have hwritten : ((b.setCode (pos%kNumCodesPerBlock) code).2.Valid) ∧
      (b.setCode (pos%kNumCodesPerBlock) code).2.num = b.num ∧
      (b.setCode (pos%kNumCodesPerBlock) code).2.columnType = b.columnType := by
    rcases Nat.lt_or_ge (pos%kNumCodesPerBlock) b.num with hlt | hge
    · have hspec := ColumnBlock.setCode_spec hsound.le hlt hcode
      exact ⟨hspec.valid (hsound.shaped.valid b hmem),hspec.num,hspec.columnType⟩
    · rw [ColumnBlock.setCode_overflow hge]
      exact ⟨hsound.shaped.valid b hmem,rfl,rfl⟩
  refine ⟨hsound.pos,hsound.le,hsound.shaped.of_nums ?_ ?_ ?_⟩
  · intro x hx
    rcases List.mem_or_eq_of_mem_set hx with hx | rfl
    · exact hsound.shaped.valid x hx
    · exact hwritten.1
  · intro x hx
    rcases List.mem_or_eq_of_mem_set hx with hx | rfl
    · exact hsound.shaped.columnType x hx
    · exact hwritten.2.2.trans (hsound.shaped.columnType b hmem)
  · obtain ⟨hi,hget⟩ := List.getElem?_eq_some_iff.mp hb
    rw [List.map_set,hwritten.2.1,← hget,← List.getElem_map (f:=fun b : ColumnBlock c.codeSize => b.num)
      (h:=by rw [List.length_map]; exact hi),List.set_getElem_self]

/-- The number of tuples that a bulk load leaves. -/
def loadedNum (t : TableRep) (codes : List ℕ) (pos : ℕ) : ℕ := max t.num (pos+codes.length)

/-- A bulk load resizes the table and loads the blocks of its column. -/
theorem bulkload_eq (h : t.Sound) (hc : t.getColumn name = some c) (words : Memory)
    (codes : List ℕ) (pos : ℕ) :
    ∃ (t1 : TableRep) (c1 : ColumnRep), t1.Sound ∧ t1.num = t.loadedNum codes pos ∧
      t1.getColumn name = some c1 ∧
      (∀ name', Option.Rel (fun d d' => d.Resized t.num (t.loadedNum codes pos) d')
        (t.getColumn name') (t1.getColumn name')) ∧
      c.Resized t.num (t.loadedNum codes pos) c1 ∧
      t.bulkload words name codes pos =
        (bulkloadBlocks (c1.blocks.drop (pos/kNumCodesPerBlock)) codes (pos%kNumCodesPerBlock)).map
          fun rest => t1.setColumn name
            {c1 with blocks := c1.blocks.take (pos/kNumCodesPerBlock) ++ rest} := by
  obtain ⟨t1,hrun,hnum,_,hmap⟩ := resize_spec h words (t.loadedNum codes pos)
  have hgrow : (if pos+codes.length > t.num then t.resize words (pos+codes.length) else some t) =
      some t1 := by
    by_cases hmore : pos+codes.length > t.num
    · rw [if_pos hmore,← hrun,loadedNum,max_eq_right hmore.le]
    · rw [if_neg hmore,← hrun,loadedNum,max_eq_left (Nat.not_lt.mp hmore)]
      exact (if_neg (fun h => h rfl)).symm
  have hrel : ∀ name', Option.Rel (fun d d' => d.Resized t.num (t.loadedNum codes pos) d')
      (t.getColumn name') (t1.getColumn name') := getColumn_forall₂ hmap
  obtain ⟨c1,hc1,hresized⟩ := Related.exists_related (hrel name) hc
  have hlength := (h.getColumn hc).shaped.length
  refine ⟨t1,c1,sound_of_forall₂ hmap hnum,hnum,hc1,hrel,hresized,?_⟩
  rw [bulkload,hc,Option.bind_eq_bind,Option.bind_some,if_neg (not_not.mpr hlength.symm),hgrow,
    Option.bind_eq_bind,Option.bind_some,hc1,Option.bind_some,Option.map_eq_bind]
  rfl

section Load

variable {codes : List ℕ} {pos : ℕ}

/-- A bulk load that the blocks for the new number of tuples have room for puts its codes on top
of those of the resized column, and only resizes the others. -/
theorem bulkload_some (h : t.Sound) (hc : t.getColumn name = some c)
    (hfit : t.Fits (.bulkload name codes pos)) (words : Memory)
    (hroom : codes = [] ∨ pos+codes.length ≤ room (t.loadedNum codes pos)) :
    ∃ (t' : TableRep) (c1 c' : ColumnRep), t.bulkload words name codes pos = some t' ∧ t'.Sound ∧
      t'.num = t.loadedNum codes pos ∧ c.Resized t.num t'.num c1 ∧
      t'.getColumn name = some c' ∧ c'.id = c.id ∧ c'.type = c.type ∧ c'.codeSize = c.codeSize ∧
      (∀ p, c'.code p =
        if pos ≤ p ∧ p < pos+codes.length then c.type.put (c1.code p) (codes.getD (p-pos) 0)
        else c1.code p) ∧
      ∀ name' ≠ name, Option.Rel (fun d d' => d.Resized t.num t'.num d') (t.getColumn name')
        (t'.getColumn name') := by
  obtain ⟨t1,c1,hsound,hnum,hc1,hrel,hresized,hload⟩ := bulkload_eq h hc words codes pos
  obtain ⟨rest,hrest,hshaped,hcode⟩ := bulkloadAt_some hresized.sound.le
    hresized.sound.shaped (by rw [hresized.codeSize]; exact hfit.2 c hc) hroom
  have hblocks : ColumnRep.Sound {c1 with
      blocks := c1.blocks.take (pos/kNumCodesPerBlock) ++ rest} t1.num :=
    ⟨hresized.sound.pos,hresized.sound.le,hnum ▸ hshaped⟩
  refine ⟨t1.setColumn name {c1 with blocks := c1.blocks.take (pos/kNumCodesPerBlock) ++ rest},c1,
    {c1 with blocks := c1.blocks.take (pos/kNumCodesPerBlock) ++ rest},?_,
    sound_setColumn hsound hblocks name,hnum,?_,?_,hresized.id,hresized.type,hresized.codeSize,?_,?_⟩
  · rw [hload,hrest]
    rfl
  · exact hnum.symm ▸ hresized
  · rw [getColumn_setColumn,if_pos rfl,hc1]
    rfl
  · intro p
    rw [← hresized.type]
    exact hcode p
  · intro name' hname
    rw [getColumn_setColumn,if_neg hname]
    exact hnum.symm ▸ hrel name'

/-- Every other bulk load fails an assertion. -/
theorem bulkload_none (h : t.Sound) (hc : t.getColumn name = some c)
    (hfit : t.Fits (.bulkload name codes pos)) (words : Memory) (hnil : codes ≠ [])
    (hroom : room (t.loadedNum codes pos) < pos+codes.length) :
    t.bulkload words name codes pos = none := by
  obtain ⟨t1,c1,_,_,_,_,hresized,hload⟩ := bulkload_eq h hc words codes pos
  rw [hload,bulkloadAt_none hresized.sound.le hresized.sound.shaped
    (by rw [hresized.codeSize]; exact hfit.2 c hc) hfit.1 hnil hroom]
  rfl

/-- A bulk load behind the end of the table, such as the first one, succeeds exactly if it does
not leave the table with full blocks only. -/
theorem bulkload_grows_iff (h : t.Sound) (hc : t.getColumn name = some c)
    (hfit : t.Fits (.bulkload name codes pos)) (words : Memory)
    (hgrow : t.num < pos+codes.length) (hnil : codes ≠ []) :
    (t.bulkload words name codes pos).isSome = true ↔ (pos+codes.length)%kNumCodesPerBlock ≠ 0 := by
  have hnum : t.loadedNum codes pos = pos+codes.length := max_eq_right hgrow.le
  by_cases hmod : (pos+codes.length)%kNumCodesPerBlock = 0
  · have hroom : room (t.loadedNum codes pos) < pos+codes.length := by
      rw [hnum,room,if_pos hmod]
      have := kNumCodesPerBlock_pos
      omega
    rw [bulkload_none h hc hfit words hnil hroom]
    simp [hmod]
  · obtain ⟨t',_,_,hrun,_⟩ := bulkload_some h hc hfit words (.inr (by rw [hnum,room,if_neg hmod]))
    rw [hrun]
    simp [hmod]

end Load

theorem step_sound (h : t.Sound) {op : TableOp} (hfit : t.Fits op)
    (hstep : t.step words op = some t') : t'.Sound := by
  cases op with
  | addColumn name type codeSize =>
    obtain ⟨r,hr,hsound,_⟩ := sound_addColumn h type hfit.1 hfit.2 words name
    rw [step,hr] at hstep
    exact Option.some.inj hstep ▸ hsound
  | removeColumn name => exact Option.some.inj hstep ▸ sound_removeColumn h name
  | resize num =>
    obtain ⟨t1,hrun,hnum,_,hmap⟩ := resize_spec h words num
    rw [step,hrun] at hstep
    exact Option.some.inj hstep ▸ sound_of_forall₂ hmap hnum
  | bulkload name codes pos =>
    cases hc : t.getColumn name with
    | none => simp [step,bulkload,hc] at hstep
    | some c =>
      rw [step] at hstep
      by_cases hroom : codes = [] ∨ pos+codes.length ≤ room (t.loadedNum codes pos)
      · obtain ⟨t1,_,_,hrun,hsound,_⟩ := bulkload_some h hc hfit words hroom
        rw [hrun] at hstep
        exact Option.some.inj hstep ▸ hsound
      · obtain ⟨hnil,hover⟩ := not_or.mp hroom
        rw [bulkload_none h hc hfit words hnil (Nat.not_le.mp hover)] at hstep
        cases hstep
  | setCode name pos code =>
    cases hc : t.getColumn name with
    | none => simp [step,hc] at hstep
    | some c =>
      simp only [step,hc,Option.bind_eq_bind,Option.bind_some] at hstep
      obtain ⟨r,hr,hset⟩ := Option.bind_eq_some_iff.mp hstep
      exact Option.some.inj hset ▸ sound_setColumn h (sound_setCode h hc (hfit c hc) hr) name

/-- The tables that runs of allowed operations make of the new one. -/
inductive Runs (allowed : TableRep → TableOp → Prop) : TableRep → Prop
  | create : Runs allowed create
  | step {t t' : TableRep} (words : Memory) (op : TableOp) (h : Runs allowed t)
      (hallowed : allowed t op) (hstep : t.step words op = some t') : Runs allowed t'

/-- What holds at the start and is kept by every operation holds after every run. -/
theorem Runs.invariant {allowed : TableRep → TableOp → Prop} {p : TableRep → Prop}
    (hcreate : p TableRep.create) (hstep : ∀ t t' words op, p t → allowed t op →
      t.step words op = some t' → p t') (h : Runs allowed t) : p t := by
  induction h with
  | create => exact hcreate
  | step words op _ hallowed hrun ih => exact hstep _ _ words op ih hallowed hrun

theorem Runs.mono {allowed allowed' : TableRep → TableOp → Prop}
    (hle : ∀ t op, allowed t op → allowed' t op) (h : Runs allowed t) : Runs allowed' t := by
  induction h with
  | create => exact .create
  | step words op _ hallowed hrun ih => exact .step words op ih (hle _ _ hallowed) hrun

/-- Runs whose codes fit their columns. -/
abbrev Reachable : TableRep → Prop := Runs Fits

theorem Reachable.sound (h : Reachable t) : t.Sound :=
  Runs.invariant sound_create (fun _ _ _ _ h hfit hstep => step_sound h hfit hstep) h

end TableRep

end ElfIndex.Bitweaving
