import ElfIndex.KDTree

/-! # Point lookup in the k-d tree

The loop of `exactMatch` goes to one child of each node. All copies of a point lie on that
path, and an earlier tuple stands above a later one, so the first copy that the walk meets
is the one that the row scan finds.
-/
namespace ElfIndex
namespace KDTree
open WordMemory Fuel

/-- The comparison at a node. The row is read only behind an equal column. -/
def isMatch (s : Store) (query : ℕ → ℕ) (dimForCompare value tid : ℕ) : Option Bool :=
  if query dimForCompare = value then do
    let point ← s.getPoint tid
    some (isEqual query (fun dim => point.getD dim 0) s.numDim)
  else some false

/-- The loop of `exactMatch`. -/
def exactMatchLoop (s : Store) (kd : KDTree) (query : ℕ → ℕ) : ℕ → ℕ → ℕ → Option ℕ
  | 0, _, _ => none
  | fuel+1, node, dimForCompare => do
    let value := kd.getDimValue node
    let tid := getTID node
    let found ← isMatch s query dimForCompare value tid
    if found then some tid
    else
      let node := if query dimForCompare ≤ value
        then kd.getLeftChildOffset node else kd.getRightChildOffset node
      let dimForCompare := nextDimForCompare s.numDim dimForCompare
      if node ≠ hasNoChild then exactMatchLoop s kd query fuel node dimForCompare
      else some notFound

def exactMatch (s : Store) (kd : KDTree) (query : ℕ → ℕ) (fuel : ℕ) : Option ℕ :=
  exactMatchLoop s kd query fuel rootOffset 0

variable {s : Store}

/-- The walk on the tree that the loop performs. -/
abbrev lookup (s : Store) (query : ℕ → ℕ) (t : SplitTree ℕ) (dim : ℕ) : Option ℕ :=
  t.lookup (coord s) (nextDimForCompare s.numDim) query
    (fun tid => isEqual (s.value tid) query s.numDim) dim

theorem isMatch_eq (query : ℕ → ℕ) {tid dim : ℕ} (hlt : tid < s.numPoints) (hdim : dim < s.numDim) :
    isMatch s query dim (s.value tid dim) tid = some (isEqual (s.value tid) query s.numDim) := by
  obtain ⟨point,hpoint,_,_,hvalue⟩ := Store.getPoint_eq_some hlt
  have hrow : (fun d => point.getD d 0) = s.value tid := funext fun d => (hvalue d).symm
  rw [isMatch]
  by_cases heq : query dim = s.value tid dim
  · rw [if_pos heq,hpoint,Option.bind_eq_bind,Option.bind_some,hrow,isEqual_comm]
  · rw [if_neg heq]
    have hne : isEqual (s.value tid) query s.numDim = false := by
      rw [← Bool.not_eq_true,isEqual_iff]
      exact fun he => heq (he dim hdim).symm
    rw [hne]

/-- One step of the loop at a stored node. -/
theorem exactMatchLoop_node {kd : KDTree} (query : ℕ → ℕ) {tid dim : ℕ} {left right : SplitTree ℕ}
    (h : Stored s kd.tree (.node tid left right) dim) (hlt : tid < s.numPoints)
    (hdim : dim < s.numDim) (fuel : ℕ) :
    exactMatchLoop s kd query (fuel+1) (3*tid) dim =
      if isEqual (s.value tid) query s.numDim then some tid
      else if (if query dim ≤ s.value tid dim then link left else link right) ≠ hasNoChild then
        exactMatchLoop s kd query fuel
          (if query dim ≤ s.value tid dim then link left else link right)
          (nextDimForCompare s.numDim dim)
      else some notFound := by
  obtain ⟨h0,h1,h2,_,_⟩ := h
  have htid : getTID (3*tid) = tid := by
    simp only [getTID,nodeSize]
    omega
  simp only [exactMatchLoop,getDimValue,getLeftChildOffset,getRightChildOffset,h0,h1,h2,htid,
    isMatch_eq query hlt hdim,Option.bind_eq_bind,Option.bind_some]

theorem exactMatchLoop_spec {kd : KDTree} (query : ℕ → ℕ) {t : SplitTree ℕ} {dim : ℕ}
    (h : Stored s kd.tree t dim) (hne : t ≠ .nil) (hlt : ∀ c ∈ t.elements, c < s.numPoints)
    (hpos : ∀ c ∈ t.elements.tail, 0 < c) (hdim : dim < s.numDim) (fuel : ℕ)
    (hfuel : t.size ≤ fuel) :
    exactMatchLoop s kd query fuel (link t) dim = some ((lookup s query t dim).getD notFound) := by
  induction t generalizing dim fuel with
  | nil => exact absurd rfl hne
  | node tid left right ihl ihr =>
    simp only [SplitTree.size] at hfuel
    obtain ⟨fuel,rfl⟩ : ∃ k, fuel = k+1 := ⟨fuel-1,by omega⟩
    have hstep := exactMatchLoop_node query h (hlt tid List.mem_cons_self) hdim fuel
    obtain ⟨_,_,_,hl,hr⟩ := h
    have hposl : ∀ c ∈ left.elements, 0 < c := fun c hc => hpos c (List.mem_append_left _ hc)
    have hposr : ∀ c ∈ right.elements, 0 < c := fun c hc => hpos c (List.mem_append_right _ hc)
    -- a missing child ends the loop, another one continues it
    have hchild : ∀ u : SplitTree ℕ, (∀ c ∈ u.elements, 0 < c) →
        (u ≠ .nil → exactMatchLoop s kd query fuel (link u) (nextDimForCompare s.numDim dim) =
          some ((lookup s query u (nextDimForCompare s.numDim dim)).getD notFound)) →
        (if link u ≠ hasNoChild then
          exactMatchLoop s kd query fuel (link u) (nextDimForCompare s.numDim dim)
        else some notFound) =
          some ((lookup s query u (nextDimForCompare s.numDim dim)).getD notFound) := by
      intro u hu hrec
      by_cases hnil : u = .nil
      · subst hnil
        rfl
      · rw [if_pos (link_ne_hasNoChild hnil hu)]
        exact hrec hnil
    have hleft := hchild left hposl fun hnil => ihl hl hnil
      (fun c hc => hlt c (List.mem_cons_of_mem _ (List.mem_append_left _ hc)))
      (fun c hc => hposl c (List.mem_of_mem_tail hc)) (nextDimForCompare_lt hdim) fuel (by omega)
    have hright := hchild right hposr fun hnil => ihr hr hnil
      (fun c hc => hlt c (List.mem_cons_of_mem _ (List.mem_append_right _ hc)))
      (fun c hc => hposr c (List.mem_of_mem_tail hc)) (nextDimForCompare_lt hdim) fuel (by omega)
    change exactMatchLoop s kd query (fuel+1) (3*tid) dim = _
    rw [hstep,lookup,SplitTree.lookup]
    by_cases heq : isEqual (s.value tid) query s.numDim = true
    · rw [if_pos heq,if_pos heq,Option.getD_some]
    · rw [if_neg heq,if_neg heq]
      by_cases hle : query dim ≤ s.value tid dim
      · simp only [if_pos hle]
        exact hleft
      · simp only [if_neg hle]
        exact hright

/-- Tuples are inserted in the order of their identifiers. -/
theorem grown_layered (m : ℕ) {k : ℕ} {t : SplitTree ℕ} (h : t.Layered (· < ·))
    (hlt : ∀ c ∈ t.elements, c < k) : (grown s t k m).Layered (· < ·) := by
  induction m generalizing k t with
  | zero => exact h
  | succ m ih =>
    have hstep : (inserted s t k 0).Layered (· < ·) := SplitTree.insert_layered h hlt
    refine ih (k:=k+1) hstep ?_
    intro c hc
    rcases SplitTree.mem_elements_insert.mp hc with rfl | hc
    · exact Nat.lt_succ_self _
    · exact (hlt c hc).trans (Nat.lt_succ_self k)

theorem indexTree_layered : (indexTree s).Layered (· < ·) := by
  refine grown_layered (s.numPoints-1) ?_ ?_
  · exact ⟨by simp [SplitTree.elements],by simp [SplitTree.elements],trivial,trivial⟩
  · simp [SplitTree.elements]

/-- The first copy of a point on the path is the first one in the store. -/
theorem Built.lookup_eq {kd : KDTree} {t : SplitTree ℕ} (h : Built s kd t s.numPoints)
    (hlayers : t.Layered (· < ·)) (hdim : 1 ≤ s.numDim) (query : ℕ → ℕ) :
    (lookup s query t 0).getD notFound = SeqScan.exactMatch s query := by
  have hmem : ∀ tid, tid ∈ t.elements ↔ tid < s.numPoints := by
    intro tid
    rw [h.elements.mem_iff,List.mem_range]
  have haccept : ∀ tid dim, isEqual (s.value tid) query s.numDim = true → dim < s.numDim →
      coord s dim tid = query dim := fun tid dim he hd => isEqual_iff.mp he dim hd
  have hnext : ∀ dim, dim < s.numDim → nextDimForCompare s.numDim dim < s.numDim :=
    fun _ => nextDimForCompare_lt
  cases hfound : lookup s query t 0 with
  | none =>
    have hnone := SplitTree.lookup_eq_none hnext haccept hdim h.ordered hfound
    rw [SeqScan.exactMatch_eq_notFound fun tid ht => hnone tid ((hmem tid).mpr ht)]
    rfl
  | some tid =>
    obtain ⟨htid,heq,hfirst⟩ :=
      SplitTree.lookup_eq_some hnext haccept hdim h.ordered hlayers hfound
    have hlt := (hmem tid).mp htid
    rw [SeqScan.exactMatch_eq_of_first hlt heq ?_,Option.getD_some]
    intro t' ht'
    rw [← Bool.not_eq_true]
    intro he
    rcases hfirst t' ((hmem t').mpr (ht'.trans hlt)) he with rfl | hbefore
    · exact Nat.lt_irrefl _ ht'
    · exact Nat.lt_asymm ht' hbefore

/-- Point lookup on the finished tree answers like the row scan. -/
theorem kdTree_exactMatch (s : Store) (hn : 1 ≤ s.numPoints) (hdim : 1 ≤ s.numDim)
    (hsize : 3*s.numPoints < 2^32) (tree : Memory) :
    ∃ kd, Returns (buildIndex s tree) kd ∧
      ∀ query, Returns (exactMatch s kd query) (SeqScan.exactMatch s query) := by
  obtain ⟨kd,hbuild,hb⟩ := buildIndex_spec hn hsize tree
  refine ⟨kd,hbuild,?_⟩
  intro query
  refine ⟨(indexTree s).size,?_⟩
  intro fuel hfuel
  have hrun := exactMatchLoop_spec query hb.stored hb.ne_nil
    (fun c hc => List.mem_range.mp (hb.elements.mem_iff.mp hc)) hb.tail_pos hdim fuel hfuel
  rw [hb.link_eq,hb.lookup_eq indexTree_layered hdim query] at hrun
  exact hrun

theorem kdTree_exactMatch_grid :
    ∃ kd, Returns (buildIndex gridStore fun _ => 9) kd ∧
      ∀ query, Returns (exactMatch gridStore kd query) (SeqScan.exactMatch gridStore query) :=
  kdTree_exactMatch gridStore (by decide) (by decide) (by decide) fun _ => 9

end KDTree
end ElfIndex
