import Mathlib.Data.List.Basic
import Mathlib.Data.Int.Notation
import Mathlib.Logic.Function.Basic
import Mathlib.Tactic.Common

/-! The tree with check boxes. Items are numbered as they are appended, and a list has the parent of each; the
root is `none`. -/
namespace PgAdmin.ctlCheckTreeView

section Tree
variable (parents : List (Option ℕ))

def children (node : Option ℕ) : List ℕ :=
  (List.range parents.length).filter fun i => parents[i]? = some node

theorem mem_children {node : Option ℕ} {i : ℕ} : i ∈ children parents node ↔ parents[i]? = some node := by
  rw [children, List.mem_filter, List.mem_range, decide_eq_true_iff]
  exact ⟨And.right, fun parent => ⟨(List.getElem?_eq_some_iff.mp parent).1, parent⟩⟩

/- What GetItemImage gives: 0 for an empty box, 1 for a checked one, -1 without an image. -/
abbrev Images := Option ℕ → ℤ

def SetParentAndChildImage : ℕ → Option ℕ → ℤ → Images → Images
  | 0, _, _, images => images
  | fuel + 1, node, newimage, images =>
    (children parents node).foldl (fun images child => SetParentAndChildImage fuel (some child) newimage images)
      (Function.update images node newimage)

def GetItemParent (node : Option ℕ) : Option (Option ℕ) := node.bind fun i => parents[i]?

def SetParentImage : ℕ → Option ℕ → ℤ → Images → Images
  | 0, _, _, images => images
  | fuel + 1, node, newimage, images =>
    match GetItemParent parents node with
    | none => Function.update images node newimage
    | some parent => SetParentImage fuel parent newimage (Function.update images node newimage)

def depth : ℕ := parents.length + 2

def OnLeftClick (images : Images) (node : Option ℕ) : Images :=
  let newimage : ℤ := if images node = 0 then 1 else if images node = 1 then 0 else 0
  let images := SetParentAndChildImage parents (depth parents) node newimage images
  if newimage = 1 then SetParentImage parents (depth parents) node newimage images else images

end Tree

section Marks
variable {parents : List (Option ℕ)} {fuel : ℕ} {node x : Option ℕ} {v : ℤ} {images : Images}

def Within (parents : List (Option ℕ)) : ℕ → Option ℕ → Option ℕ → Prop
  | 0, _, _ => False
  | fuel + 1, node, x => x = node ∨ ∃ child, parents[child]? = some node ∧ Within parents fuel (some child) x

def Chain (parents : List (Option ℕ)) : ℕ → Option ℕ → Option ℕ → Prop
  | 0, _, _ => False
  | fuel + 1, node, x => x = node ∨ ∃ parent, GetItemParent parents node = some parent ∧
      Chain parents fuel parent x

theorem setOutside (outside : ¬ Within parents fuel node x) :
    SetParentAndChildImage parents fuel node v images x = images x := by
  induction fuel generalizing node images with
  | zero => rfl
  | succ fuel ih =>
    obtain ⟨other, none⟩ := not_or.mp outside
    have keeps : ∀ (nodes : List ℕ) (images : Images), (∀ child ∈ nodes, parents[child]? = some node) →
        nodes.foldl (fun images child => SetParentAndChildImage parents fuel (some child) v images) images x =
          images x := by
      intro nodes
      induction nodes with
      | nil => exact fun images _ => rfl
      | cons child nodes rest =>
        intro images all
        rw [List.foldl_cons, rest _ fun c member => all c (List.mem_cons_of_mem child member)]
        exact ih fun below => none ⟨child, all child List.mem_cons_self, below⟩
    rw [SetParentAndChildImage, keeps _ _ fun child member => (mem_children parents).mp member,
      Function.update_of_ne other]

theorem setWithin (inside : Within parents fuel node x) :
    SetParentAndChildImage parents fuel node v images x = v := by
  induction fuel generalizing node images with
  | zero => exact inside.elim
  | succ fuel ih =>
    have keeps : ∀ (nodes : List ℕ) (images : Images), images x = v → nodes.foldl
        (fun images child => SetParentAndChildImage parents fuel (some child) v images) images x = v := by
      intro nodes
      induction nodes with
      | nil => exact fun images same => same
      | cons child nodes rest =>
        intro images same
        refine rest _ ?_
        by_cases below : Within parents fuel (some child) x
        · exact ih below
        · exact (setOutside below).trans same
    rw [SetParentAndChildImage]
    rcases inside with rfl | ⟨child, parent, below⟩
    · exact keeps _ _ (Function.update_self ..)
    · obtain ⟨front, back, split⟩ := List.append_of_mem ((mem_children parents).mpr parent)
      rw [split, List.foldl_append, List.foldl_cons]
      exact keeps _ _ (ih below)

theorem setChain (above : Chain parents fuel node x) : SetParentImage parents fuel node v images x = v := by
  induction fuel generalizing node images with
  | zero => exact above.elim
  | succ fuel ih =>
    have keeps : ∀ {fuel : ℕ} {node : Option ℕ} {images : Images}, images x = v →
        SetParentImage parents fuel node v images x = v := by
      intro fuel
      induction fuel with
      | zero => exact fun same => same
      | succ fuel rest =>
        intro node images same
        have updated : Function.update images node v x = v := by
          by_cases here : x = node
          · rw [here, Function.update_self]
          · rw [Function.update_of_ne here, same]
        rw [SetParentImage]
        cases GetItemParent parents node with
        | none => exact updated
        | some parent => exact rest updated
    rcases above with rfl | ⟨parent, found, above⟩
    · have updated : Function.update images x v x = v := Function.update_self ..
      rw [SetParentImage]
      cases GetItemParent parents x with
      | none => exact updated
      | some parent => exact keeps updated
    · rw [SetParentImage, found]
      exact ih above

theorem setBeside (beside : ¬ Chain parents fuel node x) :
    SetParentImage parents fuel node v images x = images x := by
  induction fuel generalizing node images with
  | zero => rfl
  | succ fuel ih =>
    obtain ⟨other, none⟩ := not_or.mp beside
    rw [SetParentImage]
    cases found : GetItemParent parents node with
    | none => exact Function.update_of_ne other ..
    | some parent => exact (ih fun above => none ⟨parent, found, above⟩).trans (Function.update_of_ne other ..)

theorem withinParent {i : ℕ} {parent : Option ℕ} (inside : Within parents fuel node (some i))
    (below : some i ≠ node) (found : parents[i]? = some parent) : Within parents fuel node parent := by
  induction fuel generalizing node with
  | zero => exact inside.elim
  | succ fuel ih =>
    rcases inside with same | ⟨child, here, inside⟩
    · exact absurd same below
    · by_cases same : some i = some child
      · cases same
        cases here.symm.trans found
        exact .inl rfl
      · exact .inr ⟨child, here, ih inside same⟩

end Marks

section Shallow
variable {parents : List (Option ℕ)}

def Shallow (parents : List (Option ℕ)) : Prop :=
  ∀ i parent : ℕ, parents[i]? = some (some parent) → parents[parent]? = some none

theorem withinTop {fuel c p : ℕ} (inside : Within parents fuel (some c) (some p)) (top : parents[p]? = some none) :
    p = c := by
  have below : ∀ {fuel : ℕ} {node : Option ℕ}, Within parents fuel node (some p) → node = some p ∨ node = none := by
    intro fuel
    induction fuel with
    | zero => exact fun inside => inside.elim
    | succ fuel ih =>
      rintro node (same | ⟨child, parent, inside⟩)
      · exact .inl same.symm
      · rcases ih inside with same | none
        · cases same
          exact .inr (Option.some.inj (parent.symm.trans top))
        · cases none
  rcases below inside with same | none
  · exact (Option.some.inj same).symm
  · cases none

theorem withinChild (shallow : Shallow parents) {node : Option ℕ} {i parent : ℕ}
    (found : parents[i]? = some (some parent)) (inside : Within parents (depth parents) node (some parent)) :
    Within parents (depth parents) node (some i) := by
  have top := shallow i parent found
  obtain ⟨n, length⟩ : ∃ n, depth parents = n + 3 := by
    have bound := (List.getElem?_eq_some_iff.mp found).1
    exact ⟨parents.length - 1, by unfold depth; omega⟩
  rw [length] at inside ⊢
  have child : ∀ m, Within parents (m + 2) (some parent) (some i) := fun m => .inr ⟨i, found, .inl rfl⟩
  rcases inside with rfl | ⟨c, here, inside⟩
  · exact child _
  · cases withinTop inside top
    exact .inr ⟨parent, here, child n⟩

theorem chainParent (shallow : Shallow parents) {node : Option ℕ} {i parent : ℕ}
    (found : parents[i]? = some (some parent)) (above : Chain parents (depth parents) node (some i)) :
    Chain parents (depth parents) node (some parent) := by
  have up : ∀ {fuel : ℕ} {node : Option ℕ}, Chain parents fuel node (some i) → node = some i ∨
      ∃ j : ℕ, parents[j]? = some (some i) := by
    intro fuel
    induction fuel with
    | zero => exact fun above => above.elim
    | succ fuel ih =>
      rintro node (same | ⟨next, here, above⟩)
      · exact .inl same.symm
      · rcases ih above with rfl | later
        · obtain ⟨j, -, below⟩ := Option.bind_eq_some_iff.mp here
          exact .inr ⟨j, below⟩
        · exact .inr later
  rcases up above with rfl | ⟨j, below⟩
  · exact .inr ⟨some parent, found, .inl rfl⟩
  · cases (shallow j i below).symm.trans found

def Upward (parents : List (Option ℕ)) (images : Images) : Prop :=
  ∀ i parent : ℕ, parents[i]? = some (some parent) → images (some i) = 1 → images (some parent) = 1

def Boxes (images : Images) : Prop := ∀ i : ℕ, images (some i) = 0 ∨ images (some i) = 1

def opened : Images := fun node => node.elim (-1) fun _ => 1

theorem clickUpward (shallow : Shallow parents) {images : Images} (upward : Upward parents images)
    (node : Option ℕ) : Upward parents (OnLeftClick parents images node) := by
  intro i parent found
  have outside : ¬ Within parents (depth parents) node (some parent) → some i ≠ node →
      ¬ Within parents (depth parents) node (some i) := fun free other inside =>
    free (withinParent inside other found)
  simp only [OnLeftClick]
  by_cases empty : images node = 0
  · rw [if_pos empty, if_pos rfl]
    intro checked
    by_cases above : Chain parents (depth parents) node (some parent)
    · exact setChain above
    · have beside : ¬ Chain parents (depth parents) node (some i) := fun chain =>
        above (chainParent shallow found chain)
      rw [setBeside above]
      rw [setBeside beside] at checked
      by_cases inside : Within parents (depth parents) node (some parent)
      · exact setWithin inside
      · have other : some i ≠ node := fun same => beside (.inl same)
        rw [setOutside (outside inside other)] at checked
        rw [setOutside inside]
        exact upward i parent found checked
  · have image : (if images node = 0 then (1 : ℤ) else if images node = 1 then 0 else 0) = 0 := by
      rw [if_neg empty, ite_self]
    rw [image, if_neg (by decide)]
    intro checked
    by_cases inside : Within parents (depth parents) node (some i)
    · rw [setWithin inside] at checked
      cases checked
    · have free : ¬ Within parents (depth parents) node (some parent) := fun above =>
        inside (withinChild shallow found above)
      rw [setOutside inside] at checked
      rw [setOutside free]
      exact upward i parent found checked

theorem clickBoxes {images : Images} (boxes : Boxes images) (node : Option ℕ) :
    Boxes (OnLeftClick parents images node) := by
  intro i
  have below : ∀ v : ℤ, v = 0 ∨ v = 1 → SetParentAndChildImage parents (depth parents) node v images (some i) = 0 ∨
      SetParentAndChildImage parents (depth parents) node v images (some i) = 1 := by
    intro v either
    by_cases inside : Within parents (depth parents) node (some i)
    · rwa [setWithin inside]
    · rw [setOutside inside]
      exact boxes i
  simp only [OnLeftClick]
  by_cases empty : images node = 0
  · rw [if_pos empty, if_pos rfl]
    by_cases above : Chain parents (depth parents) node (some i)
    · exact .inr (setChain above)
    · rw [setBeside above]
      exact below 1 (.inr rfl)
  · have image : (if images node = 0 then (1 : ℤ) else if images node = 1 then 0 else 0) = 0 := by
      rw [if_neg empty, ite_self]
    rw [image, if_neg (by decide)]
    exact below 0 (.inl rfl)

theorem clicksUpward (shallow : Shallow parents) (clicks : List (Option ℕ)) :
    Upward parents (clicks.foldl (OnLeftClick parents) opened) ∧ Boxes (clicks.foldl (OnLeftClick parents) opened) := by
  have run : ∀ images : Images, Upward parents images → Boxes images →
      Upward parents (clicks.foldl (OnLeftClick parents) images) ∧
        Boxes (clicks.foldl (OnLeftClick parents) images) := by
    induction clicks with
    | nil => exact fun images upward boxes => ⟨upward, boxes⟩
    | cons node clicks ih =>
      exact fun images upward boxes => ih _ (clickUpward shallow upward node) (clickBoxes boxes node)
  exact run opened (fun _ _ _ _ => rfl) fun _ => .inr rfl

def Deep (parents : List (Option ℕ)) (x : ℕ) : Prop :=
  ∃ p q : ℕ, parents[x]? = some (some p) ∧ parents[p]? = some (some q)

theorem withinDeep {fuel n x : ℕ} (deep : Deep parents n) (inside : Within parents fuel (some n) (some x)) :
    Deep parents x := by
  induction fuel generalizing n with
  | zero => exact inside.elim
  | succ fuel ih =>
    rcases inside with same | ⟨child, below, inside⟩
    · cases same
      exact deep
    · obtain ⟨p, q, parent, -⟩ := deep
      exact ih ⟨n, p, below, parent⟩ inside

end Shallow
end PgAdmin.ctlCheckTreeView
