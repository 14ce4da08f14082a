import PgAdmin.RestoreToc

/-! How the tree of a backup grows line by line: as long as each entry finds its node, each item has the line
that it was made for. -/
namespace PgAdmin.frmRestore
open PgsObjects (Text)
open ctlCheckTreeView

def Loading.destination (s : Loading) (e : TocEntry) : Option (Option ℕ) :=
  match e.kind with
  | .comment => (s.extensionNode e).1.map some
  | .member => (s.enterSchema e).currentSchemaNode.map some
  | _ => some none

def Entry (line : Text) : Prop := line.head? ≠ some ';' ∧ firstType line ≠ "DATABASE".toList

instance (line : Text) : Decidable (Entry line) := inferInstanceAs (Decidable (_ ∧ _))

def entries (lines : List Text) : List Text := lines.filter (Entry ·)

/- A line of the list is a comment or begins with the number of an entry. -/
def TocLine (line : Text) : Prop := line.head? = some ';' ∨ ∃ c, line.head? = some c ∧ c.isDigit

section Steps
variable {word : Text} {s : Loading} {e : TocEntry} {line : Text}

theorem modifyLast {α : Type} (xs : List α) (x : α) (f : α → α) : (xs ++ [x]).modify xs.length f = xs ++ [f x] := by
  induction xs with
  | nil => rfl
  | cons y xs ih => exact congrArg (y :: ·) ih

theorem findChildOf {node : Option ℕ} {text : Text} {i : ℕ} (found : (s.findChild node text).1 = some i) :
    s.parents[i]? = some node := by
  simp only [Loading.findChild] at found
  split at found
  · exact (mem_children _).mp (List.mem_of_getElem? found)
  · cases found

theorem findExtensionInside {start : Option (Option ℕ)} {text : Text} {cookie i : ℕ}
    (found : (s.findExtension start text cookie).1 = some i) : ∃ parent, s.parents[i]? = some parent := by
  simp only [Loading.findExtension] at found
  cases start with
  | none => cases found
  | some node =>
    have inside : ∀ j ∈ children s.parents node, ∃ parent, s.parents[j]? = some parent := fun j member =>
      ⟨node, (mem_children _).mp member⟩
    cases nodes : children s.parents node with
    | nil =>
      simp only [nodes] at found
      cases found
    | cons first others =>
      simp only [nodes] at found inside
      split_ifs at found
      · cases found
        exact inside i List.mem_cons_self
      · split at found
        · exact inside i (List.drop_subset _ _ (List.mem_of_getElem? found))
        · cases found

theorem enterSchemaSpec : (s.enterSchema e).items = s.items ∧
    (s.enterSchema e).numberOfTOCItems = s.numberOfTOCItems ∧
    ∀ i, (s.enterSchema e).currentSchemaNode = some i → s.currentSchemaNode = some i ∨ s.parents[i]? = some none := by
  unfold Loading.enterSchema
  split_ifs
  · split
    · rename_i node cookie found
      refine ⟨rfl, rfl, fun i same => .inr ?_⟩
      cases same
      exact findChildOf (congrArg Prod.fst found)
    · exact ⟨rfl, rfl, fun i => .inl⟩
  · exact ⟨rfl, rfl, fun i => .inl⟩

theorem enterSpec : (s.enter word e).numberOfTOCItems = s.numberOfTOCItems ∧
    ((∃ parent, s.destination e = some parent ∧
      (s.enter word e).items = s.items ++ [⟨parent, e.text word, none⟩] ∧
      (s.enter word e).lastItem = some s.items.length) ∨
    s.destination e = none ∧ (s.enter word e).items = s.items ∧
      ((s.enter word e).lastItem = none ∨ (s.enter word e).lastItem = s.lastItem)) := by
  obtain ⟨items, number, -⟩ := @enterSchemaSpec s e
  unfold Loading.enter Loading.destination
  cases e.kind with
  | comment =>
    cases node : (s.extensionNode e).1 with
    | none => simp [node]
    | some i => simp [node, Loading.AppendItem]
  | member =>
    cases node : (s.enterSchema e).currentSchemaNode with
    | none => simp [node, Loading.AppendItem, items, number]
    | some i => simp [node, Loading.AppendItem, items, number]
  | _ => simp [Loading.AppendItem]

theorem enterSchemaNode {i : ℕ} (current : (s.enter word e).currentSchemaNode = some i) :
    s.currentSchemaNode = some i ∨ (s.enter word e).parents[i]? = some none := by
  obtain ⟨items, -, top⟩ := @enterSchemaSpec s e
  unfold Loading.enter at current ⊢
  cases kind : e.kind with
  | comment =>
    simp only [kind] at current
    cases node : (s.extensionNode e).1 with
    | none => rw [node] at current; exact .inl current
    | some j => exact .inl (by simpa [node, Loading.AppendItem] using current)
  | member =>
    simp only [kind] at current ⊢
    have same : (s.enterSchema e).currentSchemaNode = some i := by
      cases node : (s.enterSchema e).currentSchemaNode with
      | none => simp [node, Loading.AppendItem] at current
      | some j => simpa [node, Loading.AppendItem] using current
    refine (top i same).imp id fun here => ?_
    have length := (List.getElem?_eq_some_iff.mp here).1
    simp only [same, Option.map_some, Loading.AppendItem, Loading.parents, items, List.map_append]
    exact (List.getElem?_append_left length).trans here
  | schema =>
    simp only [kind] at current ⊢
    right
    cases current
    simp [Loading.AppendItem, Loading.parents]
  | language => simp only [kind] at current; exact .inl current
  | acl => simp only [kind] at current; exact .inl current
  | cast => simp only [kind] at current; exact .inl current
  | extension => simp only [kind] at current; exact .inl current

theorem readSpec (toc : TocLine line) (entry : Entry line) (entered : readEntry line = some e) :
    s.read word line = { (s.enter word e).SetItemData (s.numberOfTOCItems, line) with
      numberOfTOCItems := s.numberOfTOCItems + 1 } := by
  have number : ((s.enter word e).SetItemData (s.numberOfTOCItems, line)).numberOfTOCItems = s.numberOfTOCItems := by
    unfold Loading.SetItemData
    split
    · exact enterSpec.1
    · exact enterSpec.1
  obtain ⟨c, first, digit⟩ := toc.resolve_left entry.1
  have head : line.take 1 = [c] := by
    obtain ⟨rest, rfl⟩ := List.head?_eq_some_iff.mp first
    rfl
  have plain : ¬ (line.take 1 = ";".toList ∨ line.take 1 = "P".toList) := by
    rw [head]
    rintro (same | same)
    · cases same
      exact absurd digit (by decide)
    · cases same
      exact absurd digit (by decide)
  rw [Loading.read, if_neg plain, if_neg entry.2, entered]
  simp only [number]

theorem readOther (other : ¬ Entry line) : s.read word line = s := by
  rw [Loading.read]
  rcases not_and_or.mp other with comment | database
  · obtain ⟨rest, rfl⟩ := List.head?_eq_some_iff.mp (not_not.mp comment)
    exact if_pos (.inl rfl)
  · rw [if_pos (not_not.mp database), ite_self]

theorem readRefused (refused : readEntry line = none) : s.read word line = s := by
  rw [Loading.read, refused]
  split_ifs <;> rfl

def Places (s : Loading) (line : Text) : Prop :=
  ∃ e parent, readEntry line = some e ∧ s.destination e = some parent ∧
    ∀ node ∈ parent, s.parents[node]? = some none

structure Grown (s : Loading) (done : List Text) : Prop where
  number : s.numberOfTOCItems = done.length
  data : s.items.map TocItem.data = done.zipIdx.map fun (line, i) => some (i, line)
  shallow : Shallow s.parents
  last : ∀ i, s.lastItem = some i → i + 1 = done.length
  schema : ∀ i, s.currentSchemaNode = some i → s.parents[i]? = some none

variable {done : List Text}

theorem Grown.length (grown : Grown s done) : s.items.length = done.length := by
  simpa using congrArg List.length grown.data

theorem Grown.parentsLength (grown : Grown s done) : s.parents.length = done.length := by
  rw [Loading.parents, List.length_map, grown.length]

theorem destinationInside (grown : Grown s done) {node : ℕ} (here : s.destination e = some (some node)) :
    ∃ parent, s.parents[node]? = some parent := by
  unfold Loading.destination at here
  split at here
  · obtain ⟨i, found, same⟩ := Option.map_eq_some_iff.mp here
    cases same
    unfold Loading.extensionNode at found
    split_ifs at found
    · have inside : node < s.parents.length := by
        rw [grown.parentsLength, ← grown.last node found]
        exact Nat.lt_succ_self node
      exact ⟨_, List.getElem?_eq_getElem inside⟩
    · exact findExtensionInside found
  · obtain ⟨i, found, same⟩ := Option.map_eq_some_iff.mp here
    cases same
    rcases (@enterSchemaSpec s e).2.2 node found with same | top
    · exact ⟨_, grown.schema node same⟩
    · exact ⟨_, top⟩
  · cases here

theorem readPlaced (toc : TocLine line) (entry : Entry line) (entered : readEntry line = some e)
    {parent : Option ℕ} (here : s.destination e = some parent) :
    (s.read word line).items = s.items ++ [⟨parent, e.text word, some (s.numberOfTOCItems, line)⟩] ∧
      (s.read word line).lastItem = some s.items.length ∧
      (s.read word line).currentSchemaNode = (s.enter word e).currentSchemaNode := by
  have placed : (s.enter word e).items = s.items ++ [⟨parent, e.text word, none⟩] ∧
      (s.enter word e).lastItem = some s.items.length := by
    rcases (@enterSpec word s e).2 with ⟨other, same, items, last⟩ | ⟨none, -⟩
    · cases same.symm.trans here
      exact ⟨items, last⟩
    · cases none.symm.trans here
  rw [readSpec toc entry entered, Loading.SetItemData, placed.2]
  refine ⟨?_, rfl, rfl⟩
  show (s.enter word e).items.modify _ _ = _
  rw [placed.1, modifyLast]

theorem Grown.entered (grown : Grown s done) (toc : TocLine line) (entry : Entry line)
    (places : Places s line) : Grown (s.read word line) (done ++ [line]) := by
  obtain ⟨e, parent, entered, here, top⟩ := places
  obtain ⟨items, last, schema⟩ := @readPlaced word s e line toc entry entered parent here
  have parents : (s.read word line).parents = s.parents ++ [parent] := by
    rw [Loading.parents, items, List.map_append]
    rfl
  have keeps : ∀ {i : ℕ} {p : Option ℕ}, s.parents[i]? = some p → (s.read word line).parents[i]? = some p :=
    fun found => by
      rw [parents, List.getElem?_append_left (List.getElem?_eq_some_iff.mp found).1]
      exact found
  refine ⟨?_, ?_, fun i p found => ?_, fun i found => ?_, fun i found => ?_⟩
  · rw [readSpec toc entry entered, List.length_append]
    exact congrArg (· + 1) grown.number
  · rw [items, List.map_append, grown.data, List.zipIdx_append, List.map_append, grown.number]
    simp
  · rw [parents] at found
    rcases Nat.lt_trichotomy i s.parents.length with inside | rfl | beyond
    · rw [List.getElem?_append_left inside] at found
      exact keeps (grown.shallow i p found)
    · rw [List.getElem?_concat_length] at found
      cases found
      exact keeps (top p rfl)
    · rw [List.getElem?_eq_none (by simpa using beyond)] at found
      cases found
  · cases last.symm.trans found
    rw [grown.length, List.length_append]
    rfl
  · rw [schema] at found
    rcases enterSchemaNode found with same | here'
    · exact keeps (grown.schema i same)
    · have same : (s.enter word e).parents = (s.read word line).parents := by
        rcases (@enterSpec word s e).2 with ⟨other, same, items, -⟩ | ⟨none, -⟩
        · cases same.symm.trans here
          rw [parents, Loading.parents, items, List.map_append]
          rfl
        · cases none.symm.trans here
      rwa [same] at here'

end Steps

section Losses
variable {word : Text} {s : Loading} {e : TocEntry} {line str : Text}

def Lost (s : Loading) (line : Text) : Prop := ∀ item ∈ s.items, item.data.map Prod.snd ≠ some line

theorem setDataSpec (s : Loading) (d : ℕ × Text) : (s.SetItemData d).parents = s.parents ∧
    ∀ item ∈ (s.SetItemData d).items, item ∈ s.items ∨ item.data = some d := by
  unfold Loading.SetItemData
  cases s.lastItem with
  | none => exact ⟨rfl, fun item => .inl⟩
  | some i =>
    constructor
    · simp only [Loading.parents]
      refine List.ext_getElem? fun j => ?_
      rw [List.getElem?_map, List.getElem?_map, List.getElem?_modify]
      simp only [Option.map_eq_map, Option.map_map]
      congr 1
      funext item
      by_cases here : i = j
      · simp [here]
      · simp [here]
    · intro item member
      obtain ⟨j, found⟩ := List.mem_iff_getElem?.mp member
      rw [List.getElem?_modify] at found
      obtain ⟨old, there, rfl⟩ := Option.map_eq_some_iff.mp found
      by_cases here : i = j
      · exact .inr (by simp [here])
      · exact .inl (by simpa [here] using List.mem_of_getElem? there)

theorem readKeeps (word : Text) (s : Loading) (str : Text) :
    s.parents <+: (s.read word str).parents ∧ (str ≠ line → Lost s line → Lost (s.read word str) line) := by
  unfold Loading.read
  split_ifs
  · exact ⟨List.prefix_rfl, fun _ lost => lost⟩
  · exact ⟨List.prefix_rfl, fun _ lost => lost⟩
  · cases readEntry str with
    | none => exact ⟨List.prefix_rfl, fun _ lost => lost⟩
    | some e =>
      obtain ⟨parents, data⟩ := setDataSpec (s.enter word e) (s.numberOfTOCItems, str)
      have entered : s.parents <+: (s.enter word e).parents ∧
          ∀ item ∈ (s.enter word e).items, item ∈ s.items ∨ item.data = none := by
        rcases (@enterSpec word s e).2 with ⟨parent, -, items, -⟩ | ⟨-, items, -⟩
        · refine ⟨?_, fun item member => ?_⟩
          · simp only [Loading.parents, items, List.map_append]
            exact List.prefix_append ..
          · rw [items] at member
            rcases List.mem_append.mp member with old | new
            · exact .inl old
            · cases List.mem_singleton.mp new
              exact .inr rfl
        · refine ⟨?_, fun item member => .inl (items ▸ member)⟩
          simp only [Loading.parents, items]
          exact List.prefix_rfl
      refine ⟨?_, fun other lost item member same => ?_⟩
      · rw [← parents] at entered
        exact entered.1
      · rcases data item member with old | new
        · rcases entered.2 item old with old | none
          · exact lost item old same
          · rw [none] at same
            cases same
        · rw [new] at same
          exact other (Option.some.inj same)

theorem restKeeps (word : Text) (s : Loading) (lines : List Text) :
    s.parents <+: (lines.foldl (Loading.read word) s).parents ∧
      (line ∉ lines → Lost s line → Lost (lines.foldl (Loading.read word) s) line) := by
  induction lines generalizing s with
  | nil => exact ⟨List.prefix_rfl, fun _ lost => lost⟩
  | cons str lines ih =>
    obtain ⟨here, keeps⟩ := @readKeeps line word s str
    obtain ⟨later, rest⟩ := ih (s.read word str)
    refine ⟨here.trans later, fun other lost => rest (fun inside => other (List.mem_cons_of_mem _ inside)) ?_⟩
    exact keeps (fun same => other (same ▸ List.mem_cons_self)) lost

theorem Grown.dataAt {done : List Text} (grown : Grown s done) {item : TocItem} {i : ℕ}
    (here : s.items[i]? = some item) : ∃ line, done[i]? = some line ∧ item.data = some (i, line) := by
  have data := congrArg (·[i]?) grown.data
  simp only [List.getElem?_map, here, List.getElem?_zipIdx, Option.map_map, Option.map_some] at data
  obtain ⟨line, there, same⟩ := Option.map_eq_some_iff.mp data.symm
  exact ⟨line, there, by simpa using same.symm⟩

theorem Grown.lost {done : List Text} (grown : Grown s done) (fresh : line ∉ done) : Lost s line := by
  intro item member same
  obtain ⟨i, here⟩ := List.mem_iff_getElem?.mp member
  obtain ⟨other, there, data⟩ := grown.dataAt here
  rw [data] at same
  cases same
  exact fresh (List.mem_of_getElem? there)

theorem misplaced {done : List Text} (grown : Grown s done) (toc : TocLine line) (entry : Entry line)
    (fresh : line ∉ done) (distinct : done.Nodup)
    (nowhere : ∀ e parent, readEntry line = some e → s.destination e ≠ some parent) :
    ∃ gone, gone ∈ done ++ [line] ∧ Lost (s.read word line) gone := by
  have self : line ∈ done ++ [line] := List.mem_append_right _ (List.mem_singleton_self _)
  cases entered : readEntry line with
  | none => exact ⟨line, self, readRefused entered ▸ grown.lost fresh⟩
  | some e =>
    have unplaced : s.destination e = none :=
      Option.eq_none_iff_forall_ne_some.mpr fun parent => nowhere e parent entered
    have entering : (s.enter word e).items = s.items ∧
        ((s.enter word e).lastItem = none ∨ (s.enter word e).lastItem = s.lastItem) := by
      rcases (@enterSpec word s e).2 with ⟨parent, here, -⟩ | ⟨-, all⟩
      · cases unplaced.symm.trans here
      · exact all
    obtain ⟨items, last⟩ := entering
    have read : (s.read word line).items =
        ((s.enter word e).SetItemData (s.numberOfTOCItems, line)).items := by
      rw [readSpec toc entry entered]
    cases valid : (s.enter word e).lastItem with
    | none =>
      rw [Loading.SetItemData, valid] at read
      refine ⟨line, self, fun item member => ?_⟩
      rw [read, items] at member
      exact grown.lost fresh item member
    | some i =>
      rw [Loading.SetItemData, valid] at read
      have count := grown.last i ((last.resolve_left fun none => by cases none.symm.trans valid).symm.trans valid)
      have inside : i < done.length := by omega
      refine ⟨done[i], List.mem_append_left _ (List.getElem_mem inside), fun item member same => ?_⟩
      rw [read] at member
      obtain ⟨j, found⟩ := List.mem_iff_getElem?.mp member
      rw [List.getElem?_modify, items] at found
      obtain ⟨old, there, rfl⟩ := Option.map_eq_some_iff.mp found
      by_cases here : i = j
      · have replaced : line = done[i] := by simpa [here] using same
        exact fresh (replaced ▸ List.getElem_mem inside)
      · obtain ⟨other, position, data⟩ := grown.dataAt there
        have text : other = done[i] := by simpa [here, data] using same
        rw [text, ← List.getElem?_eq_getElem inside] at position
        exact here ((List.getElem?_inj inside distinct).mp position.symm)

end Losses
end PgAdmin.frmRestore
