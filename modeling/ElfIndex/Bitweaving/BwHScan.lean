import ElfIndex.Bitweaving.BwHWords

/-! # Scans of a BitWeaving/H block

The answers of a segment are those of its codes in order. The stream of the segments fills
the words of the bit vector one after the other, whatever part of a word a segment has.
-/
namespace ElfIndex.Bitweaving

namespace BwHColumnBlock
open Bitmap PackedFields

variable {n : ℕ}

/-! ## Segments -/

/-- The loops over the words of a segment count through all of them. -/
theorem segmentBitvector_eq (n : ℕ) (word : ℕ → WordUnit) (segmentOffset : ℕ) :
    segmentBitvector n word segmentOffset = (List.range (n+1)).foldl (fun segment w =>
      segment ||| (word (segmentOffset+w) >>> w)) 0#64 := by
  have hrun : ∀ (m k : ℕ) (s : WordUnit), (List.range m).foldl (fun (s : WordUnit × ℕ) _ =>
      (s.1 ||| (word (segmentOffset+s.2) >>> s.2),s.2+1)) (s,k) =
        ((List.range m).foldl (fun s w => s ||| (word (segmentOffset+(k+w)) >>> (k+w))) s,k+m) := by
    intro m k s
    induction m with
    | zero => rfl
    | succ m ih =>
      rw [List.range_succ,List.foldl_append,List.foldl_append,ih]
      rfl
  have hsplit : n+1 = kNumWordGroups n*kNumWordsPerWordGroup+kNumUngroupedWords n := by
    simp only [kNumWordGroups,kNumUngroupedWords,kNumWordsPerWordGroup,kNumWordsPerSegment]
    omega
  have hgroups := Blocks.foldl_range_mul (fun (s : WordUnit × ℕ) _ =>
    (s.1 ||| (word (segmentOffset+s.2) >>> s.2),s.2+1)) (kNumWordGroups n) kNumWordsPerWordGroup
    (0#64,0)
  unfold segmentBitvector
  dsimp only
  rw [← hgroups,hrun,hrun,hsplit,List.range_add,List.foldl_append,List.foldl_map]
  simp only [Nat.zero_add]

/-- Words of answers, shifted by their numbers, do not meet: bit `p` comes from one word. -/
theorem getLsbD_segment {word : ℕ → WordUnit} {answer : ℕ → ℕ → Bool}
    (h : ∀ id, Answers n (word id) (answer id)) (segmentOffset p : ℕ) :
    (segmentBitvector n word segmentOffset).getLsbD p =
      (decide (p < kNumCodesPerSegment n) && answer (segmentOffset+(n-p%(n+1))) (p/(n+1))) := by
  have hmod : p%(n+1) < n+1 := Nat.mod_lt p (Nat.succ_pos n)
  have hfirst : ∀ m ≤ n+1, ((List.range m).foldl (fun segment w =>
      segment ||| (word (segmentOffset+w) >>> w)) 0#64).getLsbD p =
        (decide (n-p%(n+1) < m) && (decide (p < kNumCodesPerSegment n) &&
          answer (segmentOffset+(n-p%(n+1))) (p/(n+1)))) := by
    intro m hm
    induction m with
    | zero => simp
    | succ m ih =>
      rw [List.range_succ,List.foldl_append,List.foldl_cons,List.foldl_nil,BitVec.getLsbD_or,
        ih (by omega),BitVec.getLsbD_ushiftRight,h]
      have hdiv := Nat.div_add_mod p (n+1)
      by_cases hword : n-p%(n+1) = m
      · -- the spare bit of the field of `p` is `n-p%(n+1)` bits ahead
        have hpos : m+p = (n+1)*(p/(n+1))+n := by omega
        have hfield : (m+p)/(n+1) = p/(n+1) := by
          rw [hpos,Nat.mul_add_div (Nat.succ_pos n),Nat.div_eq_of_lt (Nat.lt_succ_self n),
            Nat.add_zero]
        have hspare : (m+p)%(n+1) = n := by
          rw [hpos,Nat.mul_add_mod,Nat.mod_eq_of_lt (Nat.lt_succ_self n)]
        have hlt : m+p < kNumCodesPerSegment n ↔ p < kNumCodesPerSegment n := by
          rw [kNumCodesPerSegment_eq,Nat.mul_comm,← Nat.div_lt_iff_lt_mul (Nat.succ_pos n),hfield,
            Nat.div_lt_iff_lt_mul (Nat.succ_pos n)]
        rw [hword,hfield,decide_eq_false (Nat.lt_irrefl m),decide_eq_true (Nat.lt_succ_self m),
          Bool.false_and,Bool.false_or,Bool.true_and]
        congr 1
        exact decide_eq_decide.mpr (by rw [hlt]; exact and_iff_left hspare)
      · have hspare : (m+p)%(n+1) ≠ n := by
          rw [Nat.add_mod,Nat.mod_eq_of_lt (show m < n+1 by omega)]
          rcases Nat.lt_or_ge (m+p%(n+1)) (n+1) with hlt | hge
          · rw [Nat.mod_eq_of_lt hlt]
            omega
          · rw [Nat.mod_eq_sub_mod hge,Nat.mod_eq_of_lt (by omega)]
            omega
        rw [decide_eq_false (not_and_of_not_right _ hspare),Bool.false_and,Bool.or_false]
        congr 1
        exact decide_eq_decide.mpr (by omega)
  rw [segmentBitvector_eq,hfirst _ le_rfl,decide_eq_true (by omega),Bool.true_and]

/-! ## The stream of answers -/

/-- The first `m` bits of word `id` of a stream. -/
def streamWord (stream : ℕ → Bool) (id m : ℕ) : WordUnit :=
  packBits 64 64 fun p => decide (63-p < m) && stream (id*64+(63-p))

theorem getLsbD_streamWord (stream : ℕ → Bool) (id m : ℕ) {p : ℕ} (hp : p < 64) :
    (streamWord stream id m).getLsbD p = (decide (63-p < m) && stream (id*64+(63-p))) := by
  rw [streamWord,getLsbD_packBits 64 64 _ hp,decide_eq_true hp,Bool.true_and]

/-- The first `i` segments of the stream are in the words. -/
structure Streamed (n : ℕ) (opt : BitVectorOpt) (stream : ℕ → Bool) (block : BitVectorBlock) (i : ℕ)
    (s : Output) : Prop where
  total : i*kNumCodesPerSegment n = s.outputWordId*64+s.outputOffset
  offset : s.outputOffset < 64
  word : s.outputBitvector = streamWord stream s.outputWordId s.outputOffset
  bitvector : s.bitvector = BitVectorBlock.written opt (fun id => streamWord stream id 64) s.outputWordId block
  reach : s.outputWordId ≤ block.numWordUnits

section Step

variable {opt : BitVectorOpt} {stream : ℕ → Bool} {block : BitVectorBlock} {segment : WordUnit}
  {i w o : ℕ}

/-- The bits of a segment go behind those that are in the word. -/
theorem streamWord_append (hsegment : ∀ p, segment.getLsbD p =
      (decide (p < kNumCodesPerSegment n) &&
        stream (i*kNumCodesPerSegment n+(kNumCodesPerSegment n-1-p))))
    (htotal : i*kNumCodesPerSegment n = w*64+o) (m : ℕ) (hm : m = min 64 (o+kNumCodesPerSegment n)) :
    streamWord stream w o ||| ((segment <<< kNumEmptyBits n) >>> o) = streamWord stream w m := by
  have hle := kNumCodesPerSegment_le n
  have hempty : kNumEmptyBits n = 64-kNumCodesPerSegment n := by
    rw [kNumEmptyBits,kNumCodesPerSegment,Nat.mul_comm]
    rfl
  refine BitVec.eq_of_getLsbD_eq fun p hp => ?_
  rw [BitVec.getLsbD_or,getLsbD_streamWord _ _ _ hp,getLsbD_streamWord _ _ _ hp,
    BitVec.getLsbD_ushiftRight,BitVec.getLsbD_shiftLeft,hsegment,hempty]
  by_cases hold : 63-p < o
  · rw [decide_eq_true hold,decide_eq_true (show 63-p < m by omega),
      decide_eq_false (show ¬o+p < 64 by omega)]
    simp
  · by_cases hnew : 63-p < m
    · have hpos : i*kNumCodesPerSegment n+
          (kNumCodesPerSegment n-1-(o+p-(64-kNumCodesPerSegment n))) = w*64+(63-p) := by omega
      rw [hpos,decide_eq_false hold,decide_eq_true hnew,decide_eq_true (show o+p < 64 by omega),
        decide_eq_false (show ¬o+p < 64-kNumCodesPerSegment n by omega),
        decide_eq_true (show o+p-(64-kNumCodesPerSegment n) < kNumCodesPerSegment n by omega)]
      simp
    · rw [decide_eq_false hold,decide_eq_false hnew,
        decide_eq_true (show o+p < 64-kNumCodesPerSegment n by omega)]
      simp

/-- The rest of a segment starts the next word. -/
theorem streamWord_rest (hsegment : ∀ p, segment.getLsbD p =
      (decide (p < kNumCodesPerSegment n) &&
        stream (i*kNumCodesPerSegment n+(kNumCodesPerSegment n-1-p))))
    (htotal : i*kNumCodesPerSegment n = w*64+o) (ho : o < 64) {r : ℕ}
    (hr : o+kNumCodesPerSegment n = 64+r) :
    (segment <<< ((64-r)%64)) &&& (0#64-if 64-r ≠ 64 then 1#64 else 0#64) =
      streamWord stream (w+1) r := by
  have hle := kNumCodesPerSegment_le n
  refine BitVec.eq_of_getLsbD_eq fun p hp => ?_
  rw [getLsbD_streamWord _ _ _ hp,BitVec.getLsbD_and]
  by_cases hzero : r = 0
  · rw [if_neg (by omega),decide_eq_false (show ¬63-p < r by omega),BitVec.sub_zero,
      BitVec.getLsbD_zero,Bool.and_false,Bool.false_and]
  · have hones : 0#64-1#64 = BitVec.allOnes 64 := by decide
    rw [if_pos (by omega),hones,BitVec.getLsbD_allOnes,BitVec.getLsbD_shiftLeft,hsegment,
      Nat.mod_eq_of_lt (show 64-r < 64 by omega),decide_eq_true hp]
    by_cases hnew : 63-p < r
    · have hpos : i*kNumCodesPerSegment n+(kNumCodesPerSegment n-1-(p-(64-r))) =
          (w+1)*64+(63-p) := by omega
      rw [hpos,decide_eq_true hnew,decide_eq_false (show ¬p < 64-r by omega),
        decide_eq_true (show p-(64-r) < kNumCodesPerSegment n by omega)]
      simp
    · rw [decide_eq_false hnew,decide_eq_true (show p < 64-r by omega)]
      simp

theorem outputSegment_streamed (hsegment : ∀ p, segment.getLsbD p =
      (decide (p < kNumCodesPerSegment n) &&
        stream (i*kNumCodesPerSegment n+(kNumCodesPerSegment n-1-p))))
    {s : Output} (h : Streamed n opt stream block i s) (hi : i*kNumCodesPerSegment n < block.num) :
    ∃ s', outputSegment n opt segment s = some s' ∧ Streamed n opt stream block (i+1) s' := by
  obtain ⟨bitvector,word,o,w⟩ := s
  obtain ⟨htotal,ho,hword,hbitvector,hreach⟩ := h
  dsimp only at htotal ho hword hbitvector hreach
  have hle := kNumCodesPerSegment_le n
  have hunits : w < block.numWordUnits := by
    simp only [BitVectorBlock.numWordUnits,kNumBitsPerWord]
    omega
  have happend := streamWord_append hsegment htotal _ rfl
  have hnext : (i+1)*kNumCodesPerSegment n = w*64+(o+kNumCodesPerSegment n) := by
    rw [Nat.succ_mul,htotal,Nat.add_assoc]
  rw [hword,hbitvector]
  unfold outputSegment
  dsimp only
  rw [happend]
  have hbits : kNumBitsPerWord = 64 := rfl
  rw [hbits]
  by_cases hfull : o+kNumCodesPerSegment n ≥ 64
  · rw [if_pos hfull,min_eq_left hfull,BitVectorBlock.store_written opt (fun id => streamWord stream id 64) hunits]
    refine ⟨_,rfl,⟨?_,?_,?_,rfl,hunits⟩⟩
    · dsimp only
      omega
    · dsimp only
      omega
    · exact streamWord_rest hsegment htotal ho (by omega)
  · rw [if_neg hfull,min_eq_right (by omega)]
    refine ⟨⟨_,_,_,_⟩,rfl,⟨hnext,?_,?_,?_,hreach⟩⟩
    · dsimp only
      omega
    · dsimp only
    · dsimp only

end Step

/-- A run over segments that all have codes. -/
theorem run_streamed (opt : BitVectorOpt) {stream : ℕ → Bool} (block : BitVectorBlock)
    {segment : ℕ → WordUnit} (m : ℕ) (hsegment : ∀ i p, (segment i).getLsbD p =
      (decide (p < kNumCodesPerSegment n) &&
        stream (i*kNumCodesPerSegment n+(kNumCodesPerSegment n-1-p))))
    (hm : ∀ i < m, i*kNumCodesPerSegment n < block.num) :
    ∃ s, (List.range m).foldlM (fun s i => outputSegment n opt (segment i) s) ⟨block,0#64,0,0⟩ =
      some s ∧ Streamed n opt stream block m s := by
  induction m with
  | zero =>
    refine ⟨⟨block,0#64,0,0⟩,rfl,⟨by simp,?_,?_,?_,Nat.zero_le _⟩⟩
    · dsimp only
      omega
    · refine BitVec.eq_of_getLsbD_eq fun p hp => ?_
      rw [getLsbD_streamWord _ _ _ hp]
      simp
    · rfl
  | succ m ih =>
    obtain ⟨s,hrun,hs⟩ := ih fun i hi => hm i (by omega)
    obtain ⟨s',hstep,hs'⟩ := outputSegment_streamed (hsegment m) hs (hm m (Nat.lt_succ_self m))
    refine ⟨s',?_,hs'⟩
    rw [List.range_succ,List.foldlM_append,hrun]
    simpa using hstep

/-! ## Answers -/

/-- The number of words follows the number of codes. -/
def Sized (b : BwHColumnBlock n) : Prop :=
  b.numUsedWords = (b.num+kNumCodesPerSegment n-1)/kNumCodesPerSegment n*kNumWordsPerSegment n

theorem sized_create (hn : n ≤ 32) : (create n).Sized := by
  have hpos := kNumCodesPerSegment_pos hn
  simp only [Sized,create]
  rw [Nat.div_eq_of_lt (by omega),Nat.zero_mul]

theorem resize_eq (b : BwHColumnBlock n) {num : ℕ} (h : num ≤ kNumCodesPerBlock) :
    ∃ b', b.resize num = some b' ∧ b'.Sized ∧ b'.num = num ∧ b'.data = b.data :=
  ⟨_,if_pos h,rfl,rfl,rfl⟩

theorem sized_setCode {b : BwHColumnBlock n} (h : b.Sized) (pos c : ℕ) :
    (b.setCode pos c).2.Sized := by
  rw [Sized,num_setCode,numUsedWords_setCode]
  exact h

/-- The answer for the code at a place of a word. -/
theorem stream_pos (hn : n ≤ 32) {i p : ℕ} (hp : p < kNumCodesPerSegment n) :
    wordId n (i*kNumCodesPerSegment n+(kNumCodesPerSegment n-1-p)) =
        i*kNumWordsPerSegment n+(n-p%(n+1)) ∧
      place n (i*kNumCodesPerSegment n+(kNumCodesPerSegment n-1-p)) = p/(n+1) := by
  have hpos := kNumCodesPerSegment_pos hn
  have hcodeId : kNumCodesPerSegment n-1-p =
      (n+1)*(kNumCodesPerWord n-1-p/(n+1))+(n-p%(n+1)) := by
    have hdiv := Nat.div_add_mod p (n+1)
    have hmod : p%(n+1) < n+1 := Nat.mod_lt p (Nat.succ_pos n)
    have hfield := Nat.mul_le_mul_left (n+1) (Nat.succ_le_of_lt (field_of_bit hp))
    rw [kNumCodesPerSegment_eq,Nat.mul_sub,Nat.mul_sub]
    rw [Nat.mul_succ] at hfield
    omega
  have hsegment : (i*kNumCodesPerSegment n+(kNumCodesPerSegment n-1-p))/kNumCodesPerSegment n = i := by
    rw [Nat.mul_comm,Nat.mul_add_div hpos,Nat.div_eq_of_lt (by omega),Nat.add_zero]
  have hid : (i*kNumCodesPerSegment n+(kNumCodesPerSegment n-1-p))%kNumCodesPerSegment n =
      kNumCodesPerSegment n-1-p := by
    rw [Nat.mul_comm,Nat.mul_add_mod,Nat.mod_eq_of_lt (by omega)]
  have hrest : n-p%(n+1) < n+1 := by omega
  have hword : (kNumCodesPerSegment n-1-p)%(n+1) = n-p%(n+1) := by
    rw [hcodeId,Nat.mul_add_mod,Nat.mod_eq_of_lt hrest]
  have hquotient : (kNumCodesPerSegment n-1-p)/(n+1) = kNumCodesPerWord n-1-p/(n+1) := by
    rw [hcodeId,Nat.mul_add_div (Nat.succ_pos n),Nat.div_eq_of_lt hrest,Nat.add_zero]
  have hfield := field_of_bit hp
  constructor
  · rw [wordId,hsegment,hid,kNumWordsPerSegment,hword]
  · rw [place,hid,hquotient]
    exact Nat.sub_sub_self (Nat.le_sub_one_of_lt hfield)

variable {b : BwHColumnBlock n} {bitvector : BitVectorBlock}

theorem Streamed.covers (hn : n ≤ 32) {opt : BitVectorOpt} {stream : ℕ → Bool} {N : ℕ} {s : Output}
    (h : Streamed n opt stream bitvector ((N+kNumCodesPerSegment n-1)/kNumCodesPerSegment n) s) :
    N ≤ s.outputWordId*64+s.outputOffset := by
  have hlt := Nat.lt_div_mul_add (a:=N+kNumCodesPerSegment n-1) (kNumCodesPerSegment_pos hn)
  have htotal := h.total
  omega

/-- The last word is stored if codes of the block are in it. -/
theorem storeLast_streamed (hn : n ≤ 32) (hsized : b.Sized) (hnum : bitvector.num = b.num)
    {opt : BitVectorOpt} {stream : ℕ → Bool} {s : Output}
    (h : Streamed n opt stream bitvector
      ((b.num+kNumCodesPerSegment n-1)/kNumCodesPerSegment n) s) :
    b.storeLast opt s = some (BitVectorBlock.written opt (fun id => streamWord stream id
      (if id < s.outputWordId then 64 else s.outputOffset)) bitvector.numWordUnits bitvector) := by
  have hcover := h.covers hn
  obtain ⟨htotal,ho,hlast,hbitvector,hreach⟩ := h
  have hfull : s.bitvector = BitVectorBlock.written opt (fun id => streamWord stream id
      (if id < s.outputWordId then 64 else s.outputOffset)) s.outputWordId bitvector :=
    hbitvector.trans (BitVectorBlock.written_congr (fun id hid => by rw [if_pos hid]) bitvector)
  have hused : b.numUsedWords*kNumCodesPerWord n = s.outputWordId*64+s.outputOffset := by
    rw [← htotal,hsized,kNumWordsPerSegment,Nat.mul_assoc,← kNumCodesPerSegment_eq]
  have hunits : bitvector.numWordUnits = (b.num+64-1)/64 := by
    rw [BitVectorBlock.numWordUnits,hnum]
    rfl
  unfold storeLast
  dsimp only
  rw [hused]
  by_cases hmore : s.outputWordId*64 < b.num
  · have hnext : bitvector.numWordUnits = s.outputWordId+1 := by omega
    have hword : s.outputBitvector = streamWord stream s.outputWordId
        (if s.outputWordId < s.outputWordId then 64 else s.outputOffset) := by
      rw [if_neg (Nat.lt_irrefl _),hlast]
    rw [if_pos (by omega),hnext,hfull,hword]
    exact BitVectorBlock.store_written opt (fun id => streamWord stream id
      (if id < s.outputWordId then 64 else s.outputOffset)) (by omega)
  · have hnext : bitvector.numWordUnits = s.outputWordId := by omega
    rw [if_neg (by omega),hnext,hfull]

/-- The loop over the segments answers for all codes of the block. -/
theorem scanWords_answered (hn : n ≤ 32) (hsized : b.Sized) (hnum : bitvector.num = b.num)
    (opt : BitVectorOpt) {word : ℕ → WordUnit} (test : ℕ → Bool) {answer : ℕ → ℕ → Bool}
    (hword : ∀ id, Answers n (word id) (answer id))
    (htest : ∀ k, answer (wordId n k) (place n k) = test k) :
    ∃ out, b.scanWords opt word b.numUsedWords bitvector = some out ∧
      Answered opt test bitvector out := by
  have hpos := kNumCodesPerSegment_pos hn
  have hcount : (b.numUsedWords+kNumWordsPerSegment n-1)/kNumWordsPerSegment n =
      (b.num+kNumCodesPerSegment n-1)/kNumCodesPerSegment n := by
    rw [hsized,kNumWordsPerSegment,← Nat.add_assoc,Nat.add_sub_cancel,Nat.mul_comm,
      Nat.mul_add_div (Nat.succ_pos n),Nat.div_eq_of_lt (Nat.lt_succ_self n),Nat.add_zero]
  have hsegment : ∀ i p, (segmentBitvector n word (i*kNumWordsPerSegment n)).getLsbD p =
      (decide (p < kNumCodesPerSegment n) &&
        test (i*kNumCodesPerSegment n+(kNumCodesPerSegment n-1-p))) := by
    intro i p
    rw [getLsbD_segment hword]
    by_cases hp : p < kNumCodesPerSegment n
    · obtain ⟨hid,hplace⟩ := stream_pos (i:=i) hn hp
      rw [← htest,hid,hplace]
    · rw [decide_eq_false hp,Bool.false_and,Bool.false_and]
  obtain ⟨s,hrun,hs⟩ := run_streamed opt bitvector
    ((b.num+kNumCodesPerSegment n-1)/kNumCodesPerSegment n) hsegment (by
      intro i hi
      have hle := Nat.div_mul_le_self (b.num+kNumCodesPerSegment n-1) (kNumCodesPerSegment n)
      have hstep := Nat.mul_le_mul_right (kNumCodesPerSegment n) (Nat.succ_le_of_lt hi)
      rw [Nat.succ_mul] at hstep
      omega)
  refine ⟨(bitvector.mapWords fun id word => opt.output (streamWord test id
    (if id < s.outputWordId then 64 else s.outputOffset)) word).finalize,?_,
    BitVectorBlock.answered_finalize fun id j hj hlt => ?_⟩
  · rw [scanWords,hcount,hrun]
    dsimp only [Option.bind_eq_bind,Option.bind_some]
    rw [storeLast_streamed hn hsized hnum hs]
    rfl
  · have hbits : kNumBitsPerWord = 64 := rfl
    rw [hbits] at hj hlt ⊢
    have hback : 63-(63-j) = j := by omega
    have hin : j < if id < s.outputWordId then 64 else s.outputOffset := by
      have hcover := hs.covers hn
      split <;> omega
    rw [wordBit_eq,wordBit_eq]
    rw [opt.getLsbD_output,getLsbD_streamWord _ _ _ (by omega),hback,decide_eq_true hin,Bool.true_and]

theorem Clean.fields (h : b.Clean) (id : ℕ) :
    Fields n (b.data id) (field (n+1) (b.data id).toNat) :=
  ⟨(packed_field (Nat.succ_pos n) (h.toNat_lt id)).symm,fun i _ => h.field_lt id i⟩

section Scans

variable (hn : n ≤ 32) (hsized : b.Sized) (hclean : b.Clean) (hnum : bitvector.num = b.num)
  (opt : BitVectorOpt)

include hn hsized hclean hnum

/-- A scan with a literal. -/
theorem scan_answered (comparator : Comparator) {literal : ℕ} (hliteral : literal < 2^n) :
    ∃ out, b.scan comparator literal bitvector opt = some (.ok,out) ∧
      Answered opt (fun k => comparator.test literal (b.code k)) bitvector out := by
  obtain ⟨out,hrun,hout⟩ := scanWords_answered hn hsized hnum opt
    (fun k => comparator.test literal (b.code k))
    (fun id => answers_literalWord hn (hclean.fields id) comparator hliteral)
    (fun k => by rw [hclean.field_eq k])
  refine ⟨out,?_,hout⟩
  rw [scan,if_neg (not_not.mpr hnum),if_neg (Nat.not_le.mpr hliteral),hrun]
  rfl

theorem scanBetween_answered {literal1 literal2 : ℕ} (h1 : literal1 < 2^n) (h2 : literal2 < 2^n) :
    ∃ out, b.scanBetween literal1 literal2 bitvector opt = some (.ok,out) ∧
      Answered opt (fun k => isIn literal1 literal2 (b.code k)) bitvector out := by
  obtain ⟨out,hrun,hout⟩ := scanWords_answered hn hsized hnum opt
    (fun k => isIn literal1 literal2 (b.code k))
    (fun id => answers_betweenWord hn (hclean.fields id) h1 h2)
    (fun k => by rw [hclean.field_eq k])
  refine ⟨out,?_,hout⟩
  rw [scanBetween,if_neg (not_not.mpr hnum),if_neg (Nat.not_le.mpr h1),if_neg (Nat.not_le.mpr h2),
    hrun]
  rfl

/-- A scan against another block compares the codes of the same position. -/
theorem scanColumn_answered (comparator : Comparator) {columnBlock : BwHColumnBlock n}
    (hsized' : columnBlock.Sized) (hclean' : columnBlock.Clean)
    (hlength : columnBlock.num = b.num) :
    ∃ out, b.scanColumn comparator columnBlock bitvector opt = some (.ok,out) ∧
      Answered opt (fun k => comparator.test (columnBlock.code k) (b.code k)) bitvector out := by
  have hused : min b.numUsedWords columnBlock.numUsedWords = b.numUsedWords := by
    rw [hsized,hsized',hlength,min_self]
  obtain ⟨out,hrun,hout⟩ := scanWords_answered hn hsized hnum opt
    (fun k => comparator.test (columnBlock.code k) (b.code k))
    (fun id => answers_columnWord hn (hclean.fields id) (hclean'.fields id) comparator)
    (fun k => by rw [hclean.field_eq k,hclean'.field_eq k])
  refine ⟨out,?_,hout⟩
  rw [scanColumn,if_neg (not_not.mpr hnum),if_neg (not_not.mpr hlength),hused,hrun]
  rfl

end Scans

end BwHColumnBlock
end ElfIndex.Bitweaving
