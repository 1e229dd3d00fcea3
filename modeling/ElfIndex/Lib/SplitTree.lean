import Mathlib.Data.List.Basic
import Mathlib.Order.Lattice

/-! # Trees that split along changing axes

A node splits the points below it by its own coordinate on one axis: the points on the
left are not larger, the points on the right are larger. The axis changes from level to
level by a fixed rule. A range search that skips one side of a node loses nothing. The
points of one position lie on one path, in the order of their insertion.
-/
namespace ElfIndex

inductive SplitTree (α : Type*) where
  | nil
  | node (point : α) (left right : SplitTree α)

namespace SplitTree

variable {α κ δ : Type*} [LinearOrder κ]

/-- The points in the order in which a search visits them. -/
def elements : SplitTree α → List α
  | nil => []
  | node p left right => p :: (left.elements ++ right.elements)

def size : SplitTree α → ℕ
  | nil => 0
  | node _ left right => left.size+right.size+1

/-- Each node splits its subtrees on the axis of its level. -/
def Ordered (coord : δ → α → κ) (next : δ → δ) : SplitTree α → δ → Prop
  | nil, _ => True
  | node p left right, axis =>
    (∀ x ∈ left.elements, coord axis x ≤ coord axis p) ∧
      (∀ x ∈ right.elements, coord axis p < coord axis x) ∧
        Ordered coord next left (next axis) ∧ Ordered coord next right (next axis)

def insert (coord : δ → α → κ) (next : δ → δ) (x : α) : SplitTree α → δ → SplitTree α
  | nil, _ => node x nil nil
  | node p left right, axis =>
    if coord axis x ≤ coord axis p then node p (insert coord next x left (next axis)) right
    else node p left (insert coord next x right (next axis))

/-- The search that enters a side only if the bounds reach it. -/
def search (coord : δ → α → κ) (next : δ → δ) (lower upper : δ → κ) (used : δ → Bool)
    (accept : α → Bool) : SplitTree α → δ → List α
  | nil, _ => []
  | node p left right, axis =>
    (if accept p then [p] else []) ++
      ((if lower axis ≤ coord axis p ∨ used axis = false then
          search coord next lower upper used accept left (next axis) else []) ++
        if upper axis ≥ coord axis p ∨ used axis = false then
          search coord next lower upper used accept right (next axis) else [])

/-- The walk along the comparisons of one position, up to the first accepted point. -/
def lookup (coord : δ → α → κ) (next : δ → δ) (key : δ → κ) (accept : α → Bool) :
    SplitTree α → δ → Option α
  | nil, _ => none
  | node p left right, axis =>
    if accept p then some p
    else if key axis ≤ coord axis p then lookup coord next key accept left (next axis)
    else lookup coord next key accept right (next axis)

/-- Each node stands before all nodes below it. -/
def Layered (before : α → α → Prop) : SplitTree α → Prop
  | nil => True
  | node p left right =>
    (∀ x ∈ left.elements, before p x) ∧ (∀ x ∈ right.elements, before p x) ∧
      Layered before left ∧ Layered before right

variable {coord : δ → α → κ} {next : δ → δ}

theorem mem_elements_insert {x y : α} {t : SplitTree α} {axis : δ} :
    y ∈ (t.insert coord next x axis).elements ↔ y = x ∨ y ∈ t.elements := by
  induction t generalizing axis with
  | nil => simp [insert,elements]
  | node p left right ihl ihr =>
    unfold insert
    split
    · simp only [elements,List.mem_cons,List.mem_append,ihl]
      tauto
    · simp only [elements,List.mem_cons,List.mem_append,ihr]
      tauto

theorem elements_insert_perm {x : α} {t : SplitTree α} {axis : δ} :
    (t.insert coord next x axis).elements.Perm (x :: t.elements) := by
  induction t generalizing axis with
  | nil => rfl
  | node p left right ihl ihr =>
    unfold insert
    split
    · exact (List.Perm.cons p (ihl.append_right _)).trans (List.Perm.swap x p _)
    · refine (List.Perm.cons p ((ihr.append_left _).trans ?_)).trans (List.Perm.swap x p _)
      exact List.perm_middle

theorem insert_ordered {x : α} {t : SplitTree α} {axis : δ} (h : t.Ordered coord next axis) :
    (t.insert coord next x axis).Ordered coord next axis := by
  induction t generalizing axis with
  | nil => exact ⟨by simp [elements],by simp [elements],trivial,trivial⟩
  | node p left right ihl ihr =>
    obtain ⟨hl,hr,hol,hor⟩ := h
    unfold insert
    split
    · rename_i hle
      refine ⟨?_,hr,ihl hol,hor⟩
      intro y hy
      rcases mem_elements_insert.mp hy with rfl | hy
      · exact hle
      · exact hl y hy
    · rename_i hgt
      refine ⟨hl,?_,hol,ihr hor⟩
      intro y hy
      rcases mem_elements_insert.mp hy with rfl | hy
      · exact lt_of_not_ge hgt
      · exact hr y hy

theorem size_eq_length (t : SplitTree α) : t.size = t.elements.length := by
  induction t with
  | nil => rfl
  | node p left right ihl ihr =>
    rw [size,elements,List.length_cons,List.length_append,ihl,ihr]

/-- The pruned search finds every accepted point, when accepted points are in bounds on
the axes in use. -/
theorem search_eq_filter {lower upper : δ → κ} {used : δ → Bool} {accept : α → Bool}
    {valid : δ → Prop} (hnext : ∀ axis, valid axis → valid (next axis))
    (haccept : ∀ x axis, accept x = true → valid axis → used axis = true →
      lower axis ≤ coord axis x ∧ coord axis x ≤ upper axis)
    {t : SplitTree α} {axis : δ} (hvalid : valid axis) (h : t.Ordered coord next axis) :
    t.search coord next lower upper used accept axis = t.elements.filter accept := by
  induction t generalizing axis with
  | nil => rfl
  | node p left right ihl ihr =>
    obtain ⟨hl,hr,hol,hor⟩ := h
    have hleft : (if lower axis ≤ coord axis p ∨ used axis = false then
        left.search coord next lower upper used accept (next axis) else []) =
        left.elements.filter accept := by
      split
      · exact ihl (hnext axis hvalid) hol
      · rename_i hskip
        rw [not_or,Bool.not_eq_false,not_le] at hskip
        symm
        rw [List.filter_eq_nil_iff]
        intro x hx hxa
        exact absurd ((haccept x axis hxa hvalid hskip.2).1.trans (hl x hx)) (not_le_of_gt hskip.1)
    have hright : (if upper axis ≥ coord axis p ∨ used axis = false then
        right.search coord next lower upper used accept (next axis) else []) =
        right.elements.filter accept := by
      split
      · exact ihr (hnext axis hvalid) hor
      · rename_i hskip
        rw [not_or,Bool.not_eq_false,ge_iff_le,not_le] at hskip
        symm
        rw [List.filter_eq_nil_iff]
        intro x hx hxa
        exact absurd (haccept x axis hxa hvalid hskip.2).2
          (not_le_of_gt (hskip.1.trans (hr x hx)))
    rw [search,hleft,hright,elements,List.filter_cons,List.filter_append]
    split <;> rfl

/-- A point that comes after all others goes below them. -/
theorem insert_layered {before : α → α → Prop} {x : α} {t : SplitTree α} {axis : δ}
    (h : t.Layered before) (hx : ∀ y ∈ t.elements, before y x) :
    (t.insert coord next x axis).Layered before := by
  induction t generalizing axis with
  | nil => exact ⟨by simp [elements],by simp [elements],trivial,trivial⟩
  | node p left right ihl ihr =>
    obtain ⟨hl,hr,hll,hlr⟩ := h
    have hp : before p x := hx p List.mem_cons_self
    unfold insert
    split
    · refine ⟨?_,hr,?_,hlr⟩
      · intro y hy
        rcases mem_elements_insert.mp hy with rfl | hy
        · exact hp
        · exact hl y hy
      · exact ihl hll fun y hy => hx y (List.mem_cons_of_mem _ (List.mem_append_left _ hy))
    · refine ⟨hl,?_,hll,?_⟩
      · intro y hy
        rcases mem_elements_insert.mp hy with rfl | hy
        · exact hp
        · exact hr y hy
      · exact ihr hlr fun y hy => hx y (List.mem_cons_of_mem _ (List.mem_append_right _ hy))

section Lookup
variable {key : δ → κ} {accept : α → Bool} {valid : δ → Prop}
  (hnext : ∀ axis, valid axis → valid (next axis))
  (haccept : ∀ x axis, accept x = true → valid axis → coord axis x = key axis)
include hnext haccept

/-- No accepted point lies off the path. -/
theorem lookup_eq_none {t : SplitTree α} {axis : δ} (hvalid : valid axis)
    (h : t.Ordered coord next axis) (hnone : t.lookup coord next key accept axis = none) :
    ∀ x ∈ t.elements, accept x = false := by
  induction t generalizing axis with
  | nil => simp [elements]
  | node p left right ihl ihr =>
    obtain ⟨hl,hr,hol,hor⟩ := h
    unfold lookup at hnone
    split at hnone
    · cases hnone
    · rename_i hp
      intro x hx
      rw [elements,List.mem_cons,List.mem_append] at hx
      by_contra hxa
      rw [Bool.not_eq_false] at hxa
      have hcoord := haccept x axis hxa hvalid
      split at hnone
      · rename_i hle
        rcases hx with rfl | hx | hx
        · exact hp hxa
        · rw [ihl (hnext axis hvalid) hol hnone x hx] at hxa
          cases hxa
        · exact not_lt_of_ge (hcoord.le.trans hle) (hr x hx)
      · rename_i hgt
        rcases hx with rfl | hx | hx
        · exact hp hxa
        · exact hgt (hcoord.ge.trans (hl x hx))
        · rw [ihr (hnext axis hvalid) hor hnone x hx] at hxa
          cases hxa

/-- The walk ends at the first accepted point. -/
theorem lookup_eq_some {before : α → α → Prop} {t : SplitTree α} {axis : δ} {x : α}
    (hvalid : valid axis) (h : t.Ordered coord next axis) (hlayers : t.Layered before)
    (hsome : t.lookup coord next key accept axis = some x) :
    x ∈ t.elements ∧ accept x = true ∧ ∀ y ∈ t.elements, accept y = true → y = x ∨ before x y := by
  induction t generalizing axis with
  | nil => cases hsome
  | node p left right ihl ihr =>
    obtain ⟨hl,hr,hol,hor⟩ := h
    obtain ⟨hbl,hbr,hll,hlr⟩ := hlayers
    unfold lookup at hsome
    split at hsome
    · rename_i hp
      obtain rfl := Option.some.inj hsome
      refine ⟨List.mem_cons_self,hp,?_⟩
      intro y hy _
      rcases List.mem_cons.mp hy with rfl | hy
      · exact Or.inl rfl
      · rcases List.mem_append.mp hy with hy | hy
        · exact Or.inr (hbl y hy)
        · exact Or.inr (hbr y hy)
    · rename_i hp
      split at hsome
      · rename_i hle
        obtain ⟨hmem,hx,hfirst⟩ := ihl (hnext axis hvalid) hol hll hsome
        refine ⟨List.mem_cons_of_mem _ (List.mem_append_left _ hmem),hx,?_⟩
        intro y hy hya
        rw [elements,List.mem_cons,List.mem_append] at hy
        rcases hy with rfl | hy | hy
        · exact absurd hya hp
        · exact hfirst y hy hya
        · exact absurd (hr y hy) (not_lt_of_ge ((haccept y axis hya hvalid).le.trans hle))
      · rename_i hgt
        obtain ⟨hmem,hx,hfirst⟩ := ihr (hnext axis hvalid) hor hlr hsome
        refine ⟨List.mem_cons_of_mem _ (List.mem_append_right _ hmem),hx,?_⟩
        intro y hy hya
        rw [elements,List.mem_cons,List.mem_append] at hy
        rcases hy with rfl | hy | hy
        · exact absurd hya hp
        · exact absurd ((haccept y axis hya hvalid).ge.trans (hl y hy)) hgt
        · exact hfirst y hy hya

end Lookup
end SplitTree
end ElfIndex
