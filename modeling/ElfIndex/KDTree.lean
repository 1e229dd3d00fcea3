import ElfIndex.Store
import ElfIndex.Lib.Fuel
import ElfIndex.Lib.SplitTree
import ElfIndex.Lib.WordMemory

/-! # The k-d tree

A node is three words: the value of its point in the node's column and the offsets of
the two children. The offset of a node is three times its tuple identifier, and offset 0
in a child word stands for no child. Loops and recursion have a step bound.
-/
namespace ElfIndex
open WordMemory Fuel

def rootOffset : ℕ := 0
def hasNoChild : ℕ := 0
def nodeSize : ℕ := 3

/-- The members of `MyKDTreeSmall` that change. -/
structure KDTree where
  tree : Memory
  nextNodeOffset : ℕ

/-- `(dim != NUM_DIM-1) ? dim+1 : 0` -/
def nextDimForCompare (numDim dim : ℕ) : ℕ := if dim ≠ numDim-1 then (dim+1)%2^32 else 0

namespace KDTree

def getDimValue (kd : KDTree) (offset : ℕ) : ℕ := kd.tree offset
def getTID (offset : ℕ) : ℕ := offset/nodeSize
def getLeftChildOffset (kd : KDTree) (offset : ℕ) : ℕ := kd.tree (offset+1)
def getRightChildOffset (kd : KDTree) (offset : ℕ) : ℕ := kd.tree (offset+2)

def setDimValue (kd : KDTree) (offset value : ℕ) : KDTree :=
  {kd with tree := write kd.tree offset value}
def setLeftChildOffset (kd : KDTree) (offset child : ℕ) : KDTree :=
  {kd with tree := write kd.tree (offset+1) child}
def setRightChildOffset (kd : KDTree) (offset child : ℕ) : KDTree :=
  {kd with tree := write kd.tree (offset+2) child}

/-- The new node stands at the old `nextNodeOffset`. -/
def newKDNode (kd : KDTree) (point : List ℕ) (dimForCompare : ℕ) : KDTree :=
  let myOffset := kd.nextNodeOffset
  let kd := {kd with nextNodeOffset := (kd.nextNodeOffset+nodeSize)%2^32}
  ((kd.setDimValue myOffset (point.getD dimForCompare 0)).setLeftChildOffset myOffset
    hasNoChild).setRightChildOffset myOffset hasNoChild

/-- The loop of `insert`: the last node of the path and its column. -/
def descend (numDim : ℕ) (kd : KDTree) (point : List ℕ) : ℕ → ℕ → ℕ → Option (ℕ × ℕ)
  | 0, _, _ => none
  | fuel+1, parent, dimForCompare =>
    let dimForCompare := nextDimForCompare numDim dimForCompare
    let nextNode := if point.getD dimForCompare 0 ≤ kd.getDimValue parent
      then kd.getLeftChildOffset parent else kd.getRightChildOffset parent
    if nextNode ≠ hasNoChild then descend numDim kd point fuel nextNode dimForCompare
    else some (parent,dimForCompare)

/-- The new node below the last node of the path. -/
def attach (numDim : ℕ) (kd : KDTree) (point : List ℕ) (parent dimForCompare : ℕ) : KDTree :=
  let offset := kd.nextNodeOffset
  let kd := kd.newKDNode point (nextDimForCompare numDim dimForCompare)
  if point.getD dimForCompare 0 ≤ kd.getDimValue parent
  then kd.setLeftChildOffset parent offset else kd.setRightChildOffset parent offset

/-- The column counter starts at `-1`, whose successor is 0. -/
def insert (numDim : ℕ) (kd : KDTree) (point : List ℕ) (fuel : ℕ) : Option KDTree := do
  let (parent,dimForCompare) ← descend numDim kd point fuel rootOffset (2^32-1)
  some (kd.attach numDim point parent dimForCompare)

/-- `buildIndex` on an array with any contents. -/
def buildIndex (s : Store) (tree : Memory) (fuel : ℕ) : Option KDTree := do
  let first ← s.getPoint 0
  let kd := newKDNode ⟨tree,rootOffset⟩ first 0
  (List.range' 1 (s.numPoints-1)).foldlM (fun kd tid => do
    let point ← s.getPoint tid
    insert s.numDim kd point fuel) kd

/-- Go to a child if its side is entered and it exists. -/
def visitChild (enter : Prop) [Decidable enter] (child : ℕ)
    (visit : ℕ → List ℕ → Option (List ℕ)) (results : List ℕ) : Option (List ℕ) :=
  if enter ∧ child ≠ hasNoChild then visit child results else some results

def windowQueryNode (s : Store) (kd : KDTree) (lowerBound upperBound : ℕ → ℕ) :
    ℕ → ℕ → ℕ → List ℕ → Option (List ℕ)
  | 0, _, _, _ => none
  | fuel+1, node, dimForCompare, results => do
    let tid := getTID node
    let point ← s.getPoint tid
    let results := if isInPoint (fun dim => point.getD dim 0) lowerBound upperBound s.numDim
      then results ++ [tid] else results
    let nextDim := nextDimForCompare s.numDim dimForCompare
    let compValue := kd.getDimValue node
    let visit child := windowQueryNode s kd lowerBound upperBound fuel child nextDim
    let results ← visitChild (lowerBound dimForCompare ≤ compValue)
      (kd.getLeftChildOffset node) visit results
    visitChild (upperBound dimForCompare ≥ compValue) (kd.getRightChildOffset node) visit results

def windowQuery (s : Store) (kd : KDTree) (lowerBound upperBound : ℕ → ℕ) (fuel : ℕ) :
    Option (List ℕ) := windowQueryNode s kd lowerBound upperBound fuel rootOffset 0 []

def partialMatchNode (s : Store) (kd : KDTree) (q : Query) :
    ℕ → ℕ → ℕ → List ℕ → Option (List ℕ)
  | 0, _, _, _ => none
  | fuel+1, node, dimForCompare, results => do
    let tid := getTID node
    let point ← s.getPoint tid
    let results := if isPartiallyIn (fun dim => point.getD dim 0) q s.numDim
      then results ++ [tid] else results
    let nextDim := nextDimForCompare s.numDim dimForCompare
    let compValue := kd.getDimValue node
    let visit child := partialMatchNode s kd q fuel child nextDim
    let results ← visitChild
      (q.lowerBound dimForCompare ≤ compValue ∨ q.columnsForSelect dimForCompare = false)
      (kd.getLeftChildOffset node) visit results
    visitChild (q.upperBound dimForCompare ≥ compValue ∨ q.columnsForSelect dimForCompare = false)
      (kd.getRightChildOffset node) visit results

def partialMatch (s : Store) (kd : KDTree) (q : Query) (fuel : ℕ) : Option (List ℕ) :=
  partialMatchNode s kd q fuel rootOffset 0 []

/-! ## Stored trees -/

/-- The offset that stands for a tree. -/
def link : SplitTree ℕ → ℕ
  | .nil => hasNoChild
  | .node tid _ _ => 3*tid

/-- The words of the nodes hold the tree whose root splits on column `dim`. -/
def Stored (s : Store) (mem : Memory) : SplitTree ℕ → ℕ → Prop
  | .nil, _ => True
  | .node tid left right, dim =>
    mem (3*tid) = s.value tid dim ∧ mem (3*tid+1) = link left ∧ mem (3*tid+2) = link right ∧
      Stored s mem left (nextDimForCompare s.numDim dim) ∧
        Stored s mem right (nextDimForCompare s.numDim dim)

variable {s : Store}

/-- The points split on their columns. -/
abbrev coord (s : Store) (dim tid : ℕ) : ℕ := s.value tid dim

theorem Stored.congr {mem mem' : Memory} {t : SplitTree ℕ} {dim : ℕ} (h : Stored s mem t dim)
    (hsame : ∀ tid ∈ t.elements, ∀ i < 3, mem' (3*tid+i) = mem (3*tid+i)) :
    Stored s mem' t dim := by
  induction t generalizing dim with
  | nil => trivial
  | node tid left right ihl ihr =>
    obtain ⟨h0,h1,h2,hl,hr⟩ := h
    have hroot := hsame tid List.mem_cons_self
    refine ⟨(hroot 0 (by omega)).trans h0,(hroot 1 (by omega)).trans h1,
      (hroot 2 (by omega)).trans h2,ihl hl ?_,ihr hr ?_⟩
    · intro c hc
      exact hsame c (List.mem_cons_of_mem _ (List.mem_append_left _ hc))
    · intro c hc
      exact hsame c (List.mem_cons_of_mem _ (List.mem_append_right _ hc))

/-- The words after a new node is attached below node `tid`. -/
theorem attach_tree {kd : KDTree} (point : List ℕ) (d : ℕ) {n tid : ℕ}
    (hoff : kd.nextNodeOffset = 3*n) (hne : tid ≠ n) :
    (∀ c, c ≠ n → c ≠ tid → ∀ i < 3,
      (kd.attach s.numDim point (3*tid) d).tree (3*c+i) = kd.tree (3*c+i)) ∧
    (kd.attach s.numDim point (3*tid) d).tree (3*n) =
      point.getD (nextDimForCompare s.numDim d) 0 ∧
    (kd.attach s.numDim point (3*tid) d).tree (3*n+1) = 0 ∧
    (kd.attach s.numDim point (3*tid) d).tree (3*n+2) = 0 ∧
    (kd.attach s.numDim point (3*tid) d).tree (3*tid) = kd.tree (3*tid) ∧
    (kd.attach s.numDim point (3*tid) d).tree (3*tid+1) =
      (if point.getD d 0 ≤ kd.tree (3*tid) then 3*n else kd.tree (3*tid+1)) ∧
    (kd.attach s.numDim point (3*tid) d).tree (3*tid+2) =
      (if point.getD d 0 ≤ kd.tree (3*tid) then kd.tree (3*tid+2) else 3*n) := by
  have hnew : ∀ p, (kd.newKDNode point (nextDimForCompare s.numDim d)).tree p =
      if p = 3*n+2 then 0 else if p = 3*n+1 then 0
        else if p = 3*n then point.getD (nextDimForCompare s.numDim d) 0 else kd.tree p := by
    intro p
    simp only [newKDNode,setDimValue,setLeftChildOffset,setRightChildOffset,write,hoff,hasNoChild,
      Function.update_apply]
  have hvalue : (kd.newKDNode point (nextDimForCompare s.numDim d)).getDimValue (3*tid) =
      kd.tree (3*tid) := by
    rw [getDimValue,hnew,if_neg (by omega),if_neg (by omega),if_neg (by omega)]
  have hattach : ∀ p, (kd.attach s.numDim point (3*tid) d).tree p =
      if p = (if point.getD d 0 ≤ kd.tree (3*tid) then 3*tid+1 else 3*tid+2) then 3*n
        else (kd.newKDNode point (nextDimForCompare s.numDim d)).tree p := by
    intro p
    simp only [attach,hvalue]
    split <;>
      simp only [setLeftChildOffset,setRightChildOffset,write,hoff,Function.update_apply]
  simp only [hattach,hnew]
  refine ⟨?_,?_,?_,?_,?_,?_,?_⟩
  · intro c hc hct i hi
    split <;> simp (disch := omega) only [if_neg]
  · split <;> simp (disch := omega) only [if_neg,if_true]
  · split <;> simp (disch := omega) only [if_neg,if_true]
  · split <;> simp (disch := omega) only [if_neg,if_true]
  · split <;> simp (disch := omega) only [if_neg]
  · split <;> simp (disch := omega) only [if_neg,if_true]
  · split <;> simp (disch := omega) only [if_neg,if_true]

/-! ## Insertion -/

/-- The tree that an insertion below the root leaves. -/
abbrev inserted (s : Store) (t : SplitTree ℕ) (n dim : ℕ) : SplitTree ℕ :=
  t.insert (coord s) (nextDimForCompare s.numDim) n dim

theorem link_inserted {t : SplitTree ℕ} (h : t ≠ .nil) (n dim : ℕ) :
    link (inserted s t n dim) = link t := by
  cases t with
  | nil => exact absurd rfl h
  | node tid left right =>
    rw [inserted,SplitTree.insert]
    split <;> rfl

/-- Another tree in the place of the left child, behind the same offset. -/
theorem Stored.set_left {mem mem' : Memory} {left' left right : SplitTree ℕ} {tid dim : ℕ}
    (h : Stored s mem (.node tid left right) dim)
    (hst : Stored s mem' left' (nextDimForCompare s.numDim dim)) (hlink : link left' = link left)
    (hnode : ∀ i < 3, mem' (3*tid+i) = mem (3*tid+i))
    (hright : ∀ c ∈ right.elements, ∀ i < 3, mem' (3*c+i) = mem (3*c+i)) :
    Stored s mem' (.node tid left' right) dim := by
  obtain ⟨h0,h1,h2,_,hr⟩ := h
  refine ⟨(hnode 0 (by omega)).trans h0,?_,(hnode 2 (by omega)).trans h2,hst,hr.congr hright⟩
  rw [hlink]
  exact (hnode 1 (by omega)).trans h1

/-- Another tree in the place of the right child, behind the same offset. -/
theorem Stored.set_right {mem mem' : Memory} {right' left right : SplitTree ℕ} {tid dim : ℕ}
    (h : Stored s mem (.node tid left right) dim)
    (hst : Stored s mem' right' (nextDimForCompare s.numDim dim)) (hlink : link right' = link right)
    (hnode : ∀ i < 3, mem' (3*tid+i) = mem (3*tid+i))
    (hleft : ∀ c ∈ left.elements, ∀ i < 3, mem' (3*c+i) = mem (3*c+i)) :
    Stored s mem' (.node tid left right') dim := by
  obtain ⟨h0,h1,h2,hl,_⟩ := h
  refine ⟨(hnode 0 (by omega)).trans h0,(hnode 1 (by omega)).trans h1,?_,hl.congr hleft,hst⟩
  rw [hlink]
  exact (hnode 2 (by omega)).trans h2

/-- Only the root slot stands for a missing child. -/
theorem link_ne_hasNoChild {t : SplitTree ℕ} (h : t ≠ .nil) (hpos : ∀ c ∈ t.elements, 0 < c) :
    link t ≠ hasNoChild := by
  cases t with
  | nil => exact absurd rfl h
  | node c left right =>
    have := hpos c List.mem_cons_self
    simp only [link,hasNoChild]
    omega

/-- One step of the walk to the new node's parent. -/
theorem descend_node {kd : KDTree} {point : List ℕ} {n tid dim prev : ℕ}
    (hpoint : ∀ dim, s.value n dim = point.getD dim 0)
    (hprev : nextDimForCompare s.numDim prev = dim) {left right : SplitTree ℕ}
    (h : Stored s kd.tree (.node tid left right) dim) (fuel : ℕ) :
    descend s.numDim kd point (fuel+1) (3*tid) prev =
      if (if s.value n dim ≤ s.value tid dim then link left else link right) ≠ hasNoChild
      then descend s.numDim kd point fuel
        (if s.value n dim ≤ s.value tid dim then link left else link right) dim
      else some (3*tid,dim) := by
  obtain ⟨h0,h1,h2,_,_⟩ := h
  simp only [descend,getDimValue,getLeftChildOffset,getRightChildOffset,hprev,h0,h1,h2,← hpoint]

section Attach
variable {kd : KDTree} {point : List ℕ} {n tid dim : ℕ}
  (hpoint : ∀ dim, s.value n dim = point.getD dim 0) (hoff : kd.nextNodeOffset = 3*n)
include hpoint hoff

/-- The new node becomes the missing left child. -/
theorem Stored.attach_left {right : SplitTree ℕ} (h : Stored s kd.tree (.node tid .nil right) dim)
    (hle : s.value n dim ≤ s.value tid dim) (htn : tid ≠ n) (hn : n ∉ right.elements)
    (htid : tid ∉ right.elements) :
    Stored s (kd.attach s.numDim point (3*tid) dim).tree (.node tid (.node n .nil .nil) right)
      dim := by
  obtain ⟨h0,_,h2,_,hr⟩ := h
  obtain ⟨hframe,hv,hzl,hzr,ht0,ht1,ht2⟩ := attach_tree (s:=s) point dim hoff htn
  rw [← hpoint,h0,if_pos hle] at ht1 ht2
  refine ⟨ht0.trans h0,ht1,ht2.trans h2,⟨?_,hzl,hzr,trivial,trivial⟩,hr.congr ?_⟩
  · rw [hv,← hpoint]
  · intro c hc
    exact hframe c (fun he => hn (he ▸ hc)) fun he => htid (he ▸ hc)

/-- The new node becomes the missing right child. -/
theorem Stored.attach_right {left : SplitTree ℕ} (h : Stored s kd.tree (.node tid left .nil) dim)
    (hle : ¬ s.value n dim ≤ s.value tid dim) (htn : tid ≠ n) (hn : n ∉ left.elements)
    (htid : tid ∉ left.elements) :
    Stored s (kd.attach s.numDim point (3*tid) dim).tree (.node tid left (.node n .nil .nil))
      dim := by
  obtain ⟨h0,h1,_,hl,_⟩ := h
  obtain ⟨hframe,hv,hzl,hzr,ht0,ht1,ht2⟩ := attach_tree (s:=s) point dim hoff htn
  rw [← hpoint,h0,if_neg hle] at ht1 ht2
  refine ⟨ht0.trans h0,ht1.trans h1,ht2,hl.congr ?_,⟨?_,hzl,hzr,trivial,trivial⟩⟩
  · intro c hc
    exact hframe c (fun he => hn (he ▸ hc)) fun he => htid (he ▸ hc)
  · rw [hv,← hpoint]

/-- The walk to the new node's parent, and the stored tree after attaching it. -/
theorem descend_spec {t : SplitTree ℕ} {prev : ℕ} (hprev : nextDimForCompare s.numDim prev = dim)
    (h : Stored s kd.tree t dim) (hne : t ≠ .nil) (hnodup : t.elements.Nodup)
    (hn : n ∉ t.elements) (hpos : ∀ c ∈ t.elements.tail, 0 < c) :
    ∃ parent d, (∀ fuel, t.size ≤ fuel →
        descend s.numDim kd point fuel (link t) prev = some (parent,d)) ∧
      Stored s (kd.attach s.numDim point parent d).tree (inserted s t n dim) dim ∧
      ∀ c, c ∉ t.elements → c ≠ n → ∀ i < 3,
        (kd.attach s.numDim point parent d).tree (3*c+i) = kd.tree (3*c+i) := by
  induction t generalizing dim prev with
  | nil => exact absurd rfl hne
  | node tid left right ihl ihr =>
    obtain ⟨htid,hlr⟩ := List.nodup_cons.mp hnodup
    obtain ⟨hnl,hnr,hdisj⟩ := List.nodup_append.mp hlr
    have htn : tid ≠ n := fun he => hn (he ▸ List.mem_cons_self)
    have hnleft : n ∉ left.elements := fun hm =>
      hn (List.mem_cons_of_mem _ (List.mem_append_left _ hm))
    have hnright : n ∉ right.elements := fun hm =>
      hn (List.mem_cons_of_mem _ (List.mem_append_right _ hm))
    have htleft : tid ∉ left.elements := fun hm => htid (List.mem_append_left _ hm)
    have htright : tid ∉ right.elements := fun hm => htid (List.mem_append_right _ hm)
    have hposl : ∀ c ∈ left.elements, 0 < c := fun c hc => hpos c (List.mem_append_left _ hc)
    have hposr : ∀ c ∈ right.elements, 0 < c := fun c hc => hpos c (List.mem_append_right _ hc)
    have hleaf := (attach_tree (s:=s) point dim hoff htn).1
    have hstep := descend_node hpoint hprev h
    have hrun : ∀ {parent d : ℕ}, (∀ fuel, left.size+right.size ≤ fuel →
        descend s.numDim kd point (fuel+1) (3*tid) prev = some (parent,d)) →
        ∀ fuel, (SplitTree.node tid left right).size ≤ fuel →
          descend s.numDim kd point fuel (link (.node tid left right)) prev = some (parent,d) := by
      intro parent d hgo fuel hfuel
      simp only [SplitTree.size] at hfuel
      obtain ⟨fuel,rfl⟩ : ∃ k, fuel = k+1 := ⟨fuel-1,by omega⟩
      exact hgo fuel (by omega)
    by_cases hle : s.value n dim ≤ s.value tid dim
    · simp only [if_pos hle] at hstep
      have hins : inserted s (.node tid left right) n dim =
          .node tid (inserted s left n (nextDimForCompare s.numDim dim)) right := by
        rw [inserted,SplitTree.insert,if_pos hle]
      rw [hins]
      by_cases hnil : left = .nil
      · subst hnil
        refine ⟨3*tid,dim,hrun fun fuel _ => (hstep fuel).trans (if_neg (by simp [link])),
          h.attach_left hpoint hoff hle htn hnright htright,?_⟩
        intro c hc hcn
        exact hleaf c hcn fun he => hc (he ▸ List.mem_cons_self)
      · obtain ⟨parent,d,hgo,hst,hframe⟩ := ihl rfl h.2.2.2.1 hnil hnl hnleft
          (fun c hc => hposl c (List.mem_of_mem_tail hc))
        refine ⟨parent,d,?_,h.set_left hst (link_inserted hnil n _) (hframe tid htleft htn) ?_,?_⟩
        · refine hrun fun fuel hfuel => ?_
          rw [hstep,if_pos (link_ne_hasNoChild hnil hposl)]
          exact hgo fuel (by omega)
        · intro c hc
          exact hframe c (fun hm => hdisj c hm c hc rfl) fun he => hnright (he ▸ hc)
        · intro c hc
          exact hframe c fun hm => hc (List.mem_cons_of_mem _ (List.mem_append_left _ hm))
    · simp only [if_neg hle] at hstep
      have hins : inserted s (.node tid left right) n dim =
          .node tid left (inserted s right n (nextDimForCompare s.numDim dim)) := by
        rw [inserted,SplitTree.insert,if_neg hle]
      rw [hins]
      by_cases hnil : right = .nil
      · subst hnil
        refine ⟨3*tid,dim,hrun fun fuel _ => (hstep fuel).trans (if_neg (by simp [link])),
          h.attach_right hpoint hoff hle htn hnleft htleft,?_⟩
        intro c hc hcn
        exact hleaf c hcn fun he => hc (he ▸ List.mem_cons_self)
      · obtain ⟨parent,d,hgo,hst,hframe⟩ := ihr rfl h.2.2.2.2 hnil hnr hnright
          (fun c hc => hposr c (List.mem_of_mem_tail hc))
        refine ⟨parent,d,?_,h.set_right hst (link_inserted hnil n _) (hframe tid htright htn) ?_,?_⟩
        · refine hrun fun fuel hfuel => ?_
          rw [hstep,if_pos (link_ne_hasNoChild hnil hposr)]
          exact hgo fuel (by omega)
        · intro c hc
          exact hframe c (fun hm => hdisj c hc c hm rfl) fun he => hnleft (he ▸ hc)
        · intro c hc
          exact hframe c fun hm => hc (List.mem_cons_of_mem _ (List.mem_append_right _ hm))

end Attach

/-- The tree of the first `k` points: root slot, columns and children in place. -/
structure Built (s : Store) (kd : KDTree) (t : SplitTree ℕ) (k : ℕ) : Prop where
  root : ∃ left right, t = .node 0 left right
  stored : Stored s kd.tree t 0
  ordered : t.Ordered (coord s) (nextDimForCompare s.numDim) 0
  elements : t.elements.Perm (List.range k)
  next : kd.nextNodeOffset = 3*k

section BuiltTree
variable {kd : KDTree} {t : SplitTree ℕ} {k : ℕ}

theorem Built.ne_nil (h : Built s kd t k) : t ≠ .nil := by
  obtain ⟨left,right,ht⟩ := h.root
  intro he
  rw [ht] at he
  cases he

theorem Built.link_eq (h : Built s kd t k) : link t = rootOffset := by
  obtain ⟨left,right,ht⟩ := h.root
  rw [ht]
  rfl

theorem Built.nodup (h : Built s kd t k) : t.elements.Nodup :=
  h.elements.nodup_iff.mpr List.nodup_range

/-- Slot 0 is the root and no child. -/
theorem Built.tail_pos (h : Built s kd t k) : ∀ c ∈ t.elements.tail, 0 < c := by
  obtain ⟨left,right,ht⟩ := h.root
  have hnodup := h.nodup
  rw [ht] at hnodup ⊢
  intro c hc
  rcases Nat.eq_zero_or_pos c with rfl | hpos
  · exact absurd hc (List.nodup_cons.mp hnodup).1
  · exact hpos

end BuiltTree

theorem nextDim_start : nextDimForCompare s.numDim (2^32-1) = 0 := by
  have := s.numDim_lt
  unfold nextDimForCompare
  split <;> omega

theorem nextDimForCompare_lt {dim : ℕ} (h : dim < s.numDim) :
    nextDimForCompare s.numDim dim < s.numDim := by
  have := s.numDim_lt
  unfold nextDimForCompare
  split <;> omega

theorem Built.insert {kd : KDTree} {t : SplitTree ℕ} {n : ℕ} (h : Built s kd t n)
    (hn : n < s.numPoints) (hpos : 0 < n) (hsize : 3*s.numPoints < 2^32) :
    ∃ point kd', s.getPoint n = some point ∧ (∀ fuel, s.numPoints ≤ fuel →
      KDTree.insert s.numDim kd point fuel = some kd') ∧ Built s kd' (inserted s t n 0) (n+1) := by
  obtain ⟨point,hpoint,_,_,hvalue⟩ := Store.getPoint_eq_some hn
  have hfresh : n ∉ t.elements := by
    rw [h.elements.mem_iff,List.mem_range]
    exact Nat.lt_irrefl n
  have hlen : t.size ≤ s.numPoints := by
    rw [SplitTree.size_eq_length,h.elements.length_eq,List.length_range]
    omega
  obtain ⟨parent,d,hrun,hst,_⟩ := descend_spec hvalue h.next nextDim_start h.stored h.ne_nil
    h.nodup hfresh h.tail_pos
  rw [h.link_eq] at hrun
  refine ⟨point,_,hpoint,?_,?_,hst,SplitTree.insert_ordered h.ordered,?_,?_⟩
  · intro fuel hfuel
    rw [KDTree.insert,hrun fuel (hlen.trans hfuel)]
    rfl
  · obtain ⟨left,right,ht⟩ := h.root
    rw [ht,inserted,SplitTree.insert]
    split
    · exact ⟨_,_,rfl⟩
    · exact ⟨_,_,rfl⟩
  · rw [List.range_succ]
    apply SplitTree.elements_insert_perm.trans
    exact (h.elements.cons n).trans (List.perm_append_singleton n (List.range n)).symm
  · have hoff := h.next
    simp only [attach,newKDNode,setDimValue,setLeftChildOffset,setRightChildOffset,nodeSize,hoff]
    split
    · simp only
      omega
    · simp only
      omega

theorem Built.first (tree : Memory) {point : List ℕ} (hpoint : s.getPoint 0 = some point) :
    Built s (newKDNode ⟨tree,rootOffset⟩ point 0) (.node 0 .nil .nil) 1 := by
  obtain ⟨row,hrow,_,_,hvalue⟩ := Store.getPoint_eq_some (Store.getPoint_lt hpoint)
  rw [hpoint] at hrow
  cases Option.some.inj hrow
  refine ⟨⟨_,_,rfl⟩,⟨?_,?_,?_,trivial,trivial⟩,?_,List.Perm.refl _,rfl⟩
  · rw [hvalue]
    rfl
  · rfl
  · rfl
  · exact ⟨by simp [SplitTree.elements],by simp [SplitTree.elements],trivial,trivial⟩

/-- The tree after the points `k, .., k+m-1` in order. -/
def grown (s : Store) (t : SplitTree ℕ) (k m : ℕ) : SplitTree ℕ :=
  (List.range' k m).foldl (fun t n => inserted s t n 0) t

/-- Inserting the points `k, .., k+m-1` in order. -/
theorem Built.insertAll (hsize : 3*s.numPoints < 2^32) (m : ℕ) {k : ℕ} {kd : KDTree}
    {t : SplitTree ℕ} (h : Built s kd t k) (hk : 0 < k) (hkm : k+m ≤ s.numPoints) :
    ∃ kd', (∀ fuel, s.numPoints ≤ fuel → (List.range' k m).foldlM (fun kd tid => do
        let point ← s.getPoint tid
        KDTree.insert s.numDim kd point fuel) kd = some kd') ∧
      Built s kd' (grown s t k m) (k+m) := by
  induction m generalizing k kd t with
  | zero => exact ⟨kd,fun _ _ => rfl,h⟩
  | succ m ih =>
    obtain ⟨point,kd1,hpoint,hrun,h1⟩ := h.insert (by omega) hk hsize
    obtain ⟨kd2,hrest,h2⟩ := ih h1 (Nat.succ_pos k) (by omega)
    have hcount : k+1+m = k+(m+1) := by omega
    refine ⟨kd2,?_,hcount ▸ h2⟩
    intro fuel hfuel
    have hstep : (do
        let point ← s.getPoint k
        KDTree.insert s.numDim kd point fuel) = some kd1 := by
      rw [hpoint]
      exact hrun fuel hfuel
    rw [List.range'_succ,List.foldlM_cons,hstep]
    exact hrest fuel hfuel

/-- The tree of the finished index. -/
def indexTree (s : Store) : SplitTree ℕ := grown s (.node 0 .nil .nil) 1 (s.numPoints-1)

theorem buildIndex_spec (hn : 1 ≤ s.numPoints) (hsize : 3*s.numPoints < 2^32) (tree : Memory) :
    ∃ kd, Returns (buildIndex s tree) kd ∧ Built s kd (indexTree s) s.numPoints := by
  obtain ⟨point,hpoint,_⟩ := Store.getPoint_eq_some (s:=s) hn
  obtain ⟨kd,hrun,hb⟩ := (Built.first tree hpoint).insertAll hsize (s.numPoints-1) Nat.one_pos
    (by omega)
  have hcount : 1+(s.numPoints-1) = s.numPoints := by omega
  rw [hcount] at hb
  refine ⟨kd,⟨s.numPoints,?_⟩,hb⟩
  intro fuel hfuel
  rw [buildIndex,hpoint]
  exact hrun fuel hfuel

/-! ## Queries -/

/-- The search on the tree that the traversal of a query performs. -/
abbrev found (s : Store) (q : Query) (t : SplitTree ℕ) (dim : ℕ) : List ℕ :=
  t.search (coord s) (nextDimForCompare s.numDim) q.lowerBound q.upperBound q.columnsForSelect
    (fun tid => isPartiallyIn (s.value tid) q s.numDim) dim

theorem partialMatchNode_spec {kd : KDTree} (q : Query) {t : SplitTree ℕ} {dim : ℕ}
    (h : Stored s kd.tree t dim) (hne : t ≠ .nil) (hlt : ∀ c ∈ t.elements, c < s.numPoints)
    (hpos : ∀ c ∈ t.elements.tail, 0 < c) (fuel : ℕ) (hfuel : t.size ≤ fuel)
    (results : List ℕ) :
    partialMatchNode s kd q fuel (link t) dim results = some (results ++ found s q t dim) := by
  induction t generalizing dim fuel results with
  | nil => exact absurd rfl hne
  | node tid left right ihl ihr =>
    obtain ⟨h0,h1,h2,hl,hr⟩ := h
    simp only [SplitTree.size] at hfuel
    obtain ⟨fuel,rfl⟩ : ∃ k, fuel = k+1 := ⟨fuel-1,by omega⟩
    obtain ⟨point,hpoint,_,_,hvalue⟩ := Store.getPoint_eq_some (hlt tid List.mem_cons_self)
    have hrow : (fun d => point.getD d 0) = s.value tid := funext fun d => (hvalue d).symm
    have htid : getTID (3*tid) = tid := by
      simp only [getTID,nodeSize]
      omega
    have hposl : ∀ c ∈ left.elements, 0 < c := fun c hc =>
      hpos c (List.mem_append_left _ hc)
    have hposr : ∀ c ∈ right.elements, 0 < c := fun c hc =>
      hpos c (List.mem_append_right _ hc)
    -- a child that is entered adds its search result, a missing one adds nothing
    have hchild : ∀ (u : SplitTree ℕ) (enter : Prop) [Decidable enter],
        (∀ c ∈ u.elements, 0 < c) →
        (u ≠ .nil → ∀ acc, partialMatchNode s kd q fuel (link u) (nextDimForCompare s.numDim dim) acc =
          some (acc ++ found s q u (nextDimForCompare s.numDim dim))) → ∀ acc,
        visitChild enter (link u)
          (fun child => partialMatchNode s kd q fuel child (nextDimForCompare s.numDim dim)) acc =
          some (acc ++ if enter then found s q u (nextDimForCompare s.numDim dim) else []) := by
      intro u enter _ hu hrec acc
      unfold visitChild
      cases u with
      | nil =>
        rw [if_neg (fun he => he.2 rfl)]
        split <;> simp [found,SplitTree.search]
      | node c l r =>
        have hlink := link_ne_hasNoChild (t:=.node c l r) (fun hn => by cases hn) hu
        by_cases he : enter
        · rw [if_pos ⟨he,hlink⟩,if_pos he]
          exact hrec (fun hn => by cases hn) acc
        · rw [if_neg (fun hn => he hn.1),if_neg he,List.append_nil]
    have hleft := hchild left (q.lowerBound dim ≤ s.value tid dim ∨ q.columnsForSelect dim = false)
      hposl fun hnil acc => ihl hl hnil
        (fun c hc => hlt c (List.mem_cons_of_mem _ (List.mem_append_left _ hc)))
        (fun c hc => hposl c (List.mem_of_mem_tail hc)) fuel (by omega) acc
    have hright := hchild right (q.upperBound dim ≥ s.value tid dim ∨ q.columnsForSelect dim = false)
      hposr fun hnil acc => ihr hr hnil
        (fun c hc => hlt c (List.mem_cons_of_mem _ (List.mem_append_right _ hc)))
        (fun c hc => hposr c (List.mem_of_mem_tail hc)) fuel (by omega) acc
    have hroot : link (.node tid left right) = 3*tid := rfl
    rw [partialMatchNode,hroot,htid,hpoint]
    simp only [Option.bind_eq_bind,Option.bind_some,getDimValue,getLeftChildOffset,
      getRightChildOffset,h0,h1,h2,hleft,hright,hrow]
    simp only [found,SplitTree.search]
    by_cases hin : isPartiallyIn (s.value tid) q s.numDim = true
    · simp only [hin,if_true,List.append_assoc]
    · rw [Bool.not_eq_true] at hin
      simp only [hin,Bool.false_eq_true,if_false,List.append_assoc,List.nil_append]

/-- The window traversal is the partial-match traversal with every column selected. -/
theorem windowQueryNode_eq (s : Store) (kd : KDTree) (lowerBound upperBound : ℕ → ℕ) (fuel : ℕ) :
    windowQueryNode s kd lowerBound upperBound fuel =
      partialMatchNode s kd (Query.window lowerBound upperBound) fuel := by
  induction fuel with
  | zero => rfl
  | succ fuel ih =>
    funext node dim results
    simp only [windowQueryNode,partialMatchNode,ih,isInPoint_eq_isPartiallyIn]
    simp [Query.window,visitChild]

theorem Built.partialMatch {kd : KDTree} {t : SplitTree ℕ} (h : Built s kd t s.numPoints)
    (hdim : 1 ≤ s.numDim) (q : Query) :
    ∃ found, Returns (partialMatch s kd q) found ∧ found.Perm (SeqScan.partialMatch s q) := by
  have hvalid : ∀ dim, dim < s.numDim → nextDimForCompare s.numDim dim < s.numDim :=
    fun _ => nextDimForCompare_lt
  have haccept : ∀ tid dim, isPartiallyIn (s.value tid) q s.numDim = true → dim < s.numDim →
      q.columnsForSelect dim = true →
        q.lowerBound dim ≤ coord s dim tid ∧ coord s dim tid ≤ q.upperBound dim := by
    intro tid dim hin hlt hused
    have hadmits := isPartiallyIn_iff.mp hin dim hlt
    rw [Query.admits,hused,Bool.not_true,Bool.false_or,isIn_iff] at hadmits
    exact hadmits
  have hsearch : found s q t 0 =
      t.elements.filter fun tid => isPartiallyIn (s.value tid) q s.numDim :=
    SplitTree.search_eq_filter hvalid haccept hdim h.ordered
  refine ⟨found s q t 0,⟨t.size,?_⟩,?_⟩
  · intro fuel hfuel
    have hrun := partialMatchNode_spec q h.stored h.ne_nil
      (fun c hc => List.mem_range.mp (h.elements.mem_iff.mp hc)) h.tail_pos fuel hfuel []
    rw [h.link_eq] at hrun
    exact hrun
  · rw [hsearch]
    exact h.elements.filter _

/-- Range queries on the finished tree answer like the row scan. -/
theorem kdTree_exact (s : Store) (hn : 1 ≤ s.numPoints) (hdim : 1 ≤ s.numDim)
    (hsize : 3*s.numPoints < 2^32) (tree : Memory) :
    ∃ kd, Returns (buildIndex s tree) kd ∧
      (∀ q, ∃ found, Returns (partialMatch s kd q) found ∧
        found.Perm (SeqScan.partialMatch s q)) ∧
      ∀ lowerBound upperBound, ∃ found, Returns (windowQuery s kd lowerBound upperBound) found ∧
        found.Perm (SeqScan.windowQuery s lowerBound upperBound) := by
  obtain ⟨kd,hbuild,hb⟩ := buildIndex_spec hn hsize tree
  refine ⟨kd,hbuild,hb.partialMatch hdim,?_⟩
  intro lowerBound upperBound
  obtain ⟨found,hret,hperm⟩ := hb.partialMatch hdim (Query.window lowerBound upperBound)
  refine ⟨found,?_,hperm⟩
  have heq : windowQuery s kd lowerBound upperBound =
      KDTree.partialMatch s kd (Query.window lowerBound upperBound) :=
    funext fun fuel => by rw [windowQuery,windowQueryNode_eq]; rfl
  rw [heq]
  exact hret

theorem kdTree_exact_grid :
    ∃ kd, Returns (buildIndex gridStore fun _ => 9) kd ∧
      (∀ q, ∃ found, Returns (partialMatch gridStore kd q) found ∧
        found.Perm (SeqScan.partialMatch gridStore q)) ∧
      ∀ lowerBound upperBound,
        ∃ found, Returns (windowQuery gridStore kd lowerBound upperBound) found ∧
          found.Perm (SeqScan.windowQuery gridStore lowerBound upperBound) :=
  kdTree_exact gridStore (by decide) (by decide) (by decide) fun _ => 9

end KDTree
end ElfIndex
