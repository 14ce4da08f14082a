import PgAdmin.RestoreRuns

/-! Selective restore: the file passed with --use-list against what is checked in the tree. -/
namespace PgAdmin.frmRestore
open PgsObjects (Text)
open ctlCheckTreeView

section Write
variable {s : Loading} {done : List Text} {images : Images}

def written (done : List Text) (nodes : List ℕ) (restoreStrings : List Text) : List Text :=
  nodes.foldl (fun restoreStrings i => restoreStrings.set i (done.getD i [])) restoreStrings

def visits (parents : List (Option ℕ)) (images : Images) (nodes : List ℕ) : List ℕ :=
  nodes.flatMap fun i => if images (some i) = 1 then
    i :: (children parents (some i)).filter (fun j => images (some j) = 1) else []

theorem Grown.writes (grown : Grown s done) {i : ℕ} (inside : i < s.items.length) (restoreStrings : List Text) :
    writeItem s.items i restoreStrings = some (restoreStrings.set i (done.getD i [])) := by
  obtain ⟨line, there, data⟩ := grown.dataAt (List.getElem?_eq_getElem inside)
  rw [writeItem, List.getElem?_eq_getElem inside]
  simp only [bind, Option.bind_some, data, List.getD_eq_getElem?_getD, there, Option.getD_some]

theorem Grown.secondLevel (grown : Grown s done) {nodes : List ℕ} (inside : ∀ i ∈ nodes, i < s.items.length)
    (restoreStrings : List Text) (partialDump : Bool) :
    frmRestore.secondLevel s.items images nodes (restoreStrings, partialDump) =
      some (written done (nodes.filter fun i => images (some i) = 1) restoreStrings,
        partialDump || nodes.any fun i => images (some i) ≠ 1) := by
  induction nodes generalizing restoreStrings partialDump with
  | nil => simp [frmRestore.secondLevel, written]
  | cons i nodes ih =>
    have rest := fun j member => inside j (List.mem_cons_of_mem i member)
    rw [frmRestore.secondLevel]
    by_cases checked : images (some i) = 1
    · rw [if_pos checked, grown.writes (inside i List.mem_cons_self)]
      show frmRestore.secondLevel s.items images nodes _ = _
      rw [ih rest]
      simp [checked, written]
    · rw [if_neg checked, ih rest]
      simp [checked]

theorem childInside {node : Option ℕ} {i : ℕ} (child : i ∈ children s.parents node) : i < s.items.length := by
  have inside := (List.getElem?_eq_some_iff.mp ((mem_children _).mp child)).1
  rwa [Loading.parents, List.length_map] at inside

theorem Grown.firstLevel (grown : Grown s done) {nodes : List ℕ} (inside : ∀ i ∈ nodes, i < s.items.length)
    (restoreStrings : List Text) (partialDump : Bool) :
    frmRestore.firstLevel s.items images nodes (restoreStrings, partialDump) =
      some (written done (visits s.parents images nodes) restoreStrings,
        partialDump || nodes.any fun i => images (some i) ≠ 1 ∨
          ∃ j ∈ children s.parents (some i), images (some j) ≠ 1) := by
  induction nodes generalizing restoreStrings partialDump with
  | nil => simp [frmRestore.firstLevel, written, visits]
  | cons i nodes ih =>
    have rest := fun j member => inside j (List.mem_cons_of_mem i member)
    rw [frmRestore.firstLevel]
    by_cases checked : images (some i) = 1
    · rw [if_pos checked, grown.writes (inside i List.mem_cons_self)]
      have second := @Grown.secondLevel s done images grown (children s.parents (some i)) (fun j => childInside)
        (restoreStrings.set i (done.getD i [])) partialDump
      simp only [Loading.parents] at second
      have any : ((children (s.items.map TocItem.parent) (some i)).any fun j => images (some j) ≠ 1) =
          decide (∃ j ∈ children (s.items.map TocItem.parent) (some i), images (some j) ≠ 1) := by
        rw [Bool.eq_iff_iff, List.any_eq_true, decide_eq_true_iff]
        simp
      simp only [bind, Option.bind_some, second, ih rest, any]
      simp [checked, visits, written, Bool.or_assoc, Loading.parents]
    · rw [if_neg checked, ih rest]
      simp [checked, visits]

theorem writtenAt (done : List Text) (nodes : List ℕ) (restoreStrings : List Text) (k : ℕ) :
    (written done nodes restoreStrings)[k]? =
      if k ∈ nodes then restoreStrings[k]?.map fun _ => done.getD k [] else restoreStrings[k]? := by
  induction nodes generalizing restoreStrings with
  | nil => simp [written]
  | cons i nodes ih =>
    have step : written done (i :: nodes) restoreStrings =
        written done nodes (restoreStrings.set i (done.getD i [])) := rfl
    rw [step, ih, List.getElem?_set]
    by_cases here : i = k
    · by_cases inside : k < restoreStrings.length
      · simp [here, inside]
      · simp [here, inside]
    · have other : k ≠ i := fun same => here same.symm
      simp [here, other]

theorem memVisits (shallow : Shallow s.parents) (upward : Upward s.parents images) (k : ℕ) :
    k ∈ visits s.parents images (children s.parents none) ↔ k < s.items.length ∧ images (some k) = 1 := by
  have length : s.parents.length = s.items.length := List.length_map _
  rw [visits, List.mem_flatMap]
  constructor
  · rintro ⟨i, top, member⟩
    split_ifs at member with checked
    · rcases List.mem_cons.mp member with rfl | below
      · exact ⟨childInside top, checked⟩
      · obtain ⟨child, box⟩ := List.mem_filter.mp below
        exact ⟨childInside child, of_decide_eq_true box⟩
    · exact absurd member List.not_mem_nil
  · rintro ⟨inside, checked⟩
    rw [← length] at inside
    cases parent : s.parents[k] with
    | none =>
      refine ⟨k, (mem_children _).mpr (parent ▸ List.getElem?_eq_getElem inside), ?_⟩
      rw [if_pos checked]
      exact List.mem_cons_self
    | some p =>
      have found : s.parents[k]? = some (some p) := parent ▸ List.getElem?_eq_getElem inside
      refine ⟨p, (mem_children _).mpr (shallow k p found), ?_⟩
      rw [if_pos (upward k p found checked)]
      refine List.mem_cons_of_mem _ (List.mem_filter.mpr ⟨(mem_children _).mpr found, ?_⟩)
      exact decide_eq_true checked

theorem partialIff (shallow : Shallow s.parents) :
    ((children s.parents none).any fun i => images (some i) ≠ 1 ∨
      ∃ j ∈ children s.parents (some i), images (some j) ≠ 1) = true ↔
    ∃ k, k < s.items.length ∧ images (some k) ≠ 1 := by
  have length : s.parents.length = s.items.length := List.length_map _
  rw [List.any_eq_true]
  constructor
  · rintro ⟨i, top, left⟩
    rcases of_decide_eq_true left with empty | ⟨j, child, empty⟩
    · exact ⟨i, childInside top, empty⟩
    · exact ⟨j, childInside child, empty⟩
  · rintro ⟨k, inside, empty⟩
    rw [← length] at inside
    cases parent : s.parents[k] with
    | none =>
      exact ⟨k, (mem_children _).mpr (parent ▸ List.getElem?_eq_getElem inside), decide_eq_true (.inl empty)⟩
    | some p =>
      have found : s.parents[k]? = some (some p) := parent ▸ List.getElem?_eq_getElem inside
      exact ⟨p, (mem_children _).mpr (shallow k p found),
        decide_eq_true (.inr ⟨k, (mem_children _).mpr found, empty⟩)⟩

def CheckedLine (s : Loading) (images : Images) (line : Text) : Bool :=
  s.items.zipIdx.any fun (item, i) => item.data.map Prod.snd = some line ∧ images (some i) = 1

theorem Grown.checkedLine (grown : Grown s done) (distinct : done.Nodup) {k : ℕ} {line : Text}
    (here : done[k]? = some line) : CheckedLine s images line = true ↔ images (some k) = 1 := by
  rw [CheckedLine, List.any_eq_true]
  constructor
  · rintro ⟨⟨item, i⟩, member, both⟩
    obtain ⟨same, checked⟩ := of_decide_eq_true both
    obtain ⟨other, there, data⟩ := grown.dataAt (List.mem_zipIdx_iff_getElem?.mp member)
    rw [data] at same
    have text : other = line := Option.some.inj same
    rw [text, ← here] at there
    have inside := (List.getElem?_eq_some_iff.mp here).1
    cases (List.getElem?_inj inside distinct).mp there.symm
    exact checked
  · intro checked
    have inside : k < s.items.length := by
      rw [grown.length]
      exact (List.getElem?_eq_some_iff.mp here).1
    obtain ⟨other, there, data⟩ := grown.dataAt (List.getElem?_eq_getElem inside)
    cases there.symm.trans here
    refine ⟨(s.items[k], k), List.mem_zipIdx_iff_getElem?.mpr (List.getElem?_eq_getElem inside), ?_⟩
    exact decide_eq_true ⟨by rw [data]; rfl, checked⟩

theorem filterMarked (p : ℕ → Prop) [DecidablePred p] (q : Text → Bool) (restoreStrings done : List Text) (n : ℕ)
    (same : restoreStrings.length = done.length)
    (all : ∀ k line, done[k]? = some line → line ≠ [] ∧ (q line = true ↔ p (n + k)) ∧
      restoreStrings[k]? = some (if p (n + k) then line else [])) :
    restoreStrings.filter (!·.isEmpty) = done.filter q := by
  induction done generalizing restoreStrings n with
  | nil => rw [List.eq_nil_of_length_eq_zero same]; rfl
  | cons line done ih =>
    obtain ⟨first, restoreStrings, rfl⟩ := List.exists_cons_of_length_eq_add_one same
    obtain ⟨nonempty, marked, text⟩ := all 0 line rfl
    have rest := ih restoreStrings (n + 1) (Nat.succ.inj same) fun k other here => by
      have next := all (k + 1) other here
      rwa [← Nat.add_assoc, Nat.add_right_comm] at next
    have head : first = if p n then line else [] := Option.some.inj text
    rw [List.filter_cons, List.filter_cons, rest]
    by_cases here : p n
    · rw [head, if_pos here, marked.mpr here, if_pos (by simpa using nonempty), if_pos rfl]
    · have unmarked : ¬ q line = true := fun yes => here (marked.mp yes)
      rw [head, if_neg here, if_neg unmarked]
      rfl

theorem Grown.useList (grown : Grown s done) (distinct : done.Nodup) (nonempty : ∀ line ∈ done, line ≠ [])
    (upward : Upward s.parents images) (some_ : ∃ k, k < s.items.length ∧ images (some k) = 1)
    (part : ∃ k, k < s.items.length ∧ images (some k) ≠ 1) :
    frmRestore.useList s images = some (done.filter (CheckedLine s images)) := by
  have first := @Grown.firstLevel s done images grown (children s.parents none) (fun i => childInside)
    (List.replicate s.numberOfTOCItems []) false
  have file : (written done (visits s.parents images (children s.parents none))
      (List.replicate s.numberOfTOCItems [])).filter (!·.isEmpty) = done.filter (CheckedLine s images) := by
    refine filterMarked (fun k => images (some k) = 1) _ _ done 0 ?_ fun k line here => ?_
    · have length : ∀ (nodes : List ℕ) (restoreStrings : List Text),
          (written done nodes restoreStrings).length = restoreStrings.length := by
        intro nodes
        induction nodes with
        | nil => exact fun _ => rfl
        | cons i nodes ih => exact fun restoreStrings => (ih _).trans List.length_set
      rw [length, List.length_replicate, grown.number]
    · have inside := (List.getElem?_eq_some_iff.mp here).1
      rw [Nat.zero_add, writtenAt]
      refine ⟨nonempty line (List.mem_of_getElem? here), grown.checkedLine distinct here, ?_⟩
      simp only [memVisits grown.shallow upward, grown.length, inside, true_and, grown.number,
        List.getElem?_replicate, if_true, Option.map_some, List.getD_eq_getElem?_getD, here, Option.getD_some]
      split_ifs <;> rfl
  have checked : done.filter (CheckedLine s images) ≠ [] := by
    obtain ⟨k, inside, checked⟩ := some_
    rw [grown.length] at inside
    have here : done[k]? = some done[k] := List.getElem?_eq_getElem inside
    refine List.ne_nil_of_mem (List.mem_filter.mpr ⟨List.mem_of_getElem? here, ?_⟩)
    exact (grown.checkedLine distinct here).mpr checked
  rw [frmRestore.useList, first, (partialIff grown.shallow).mpr part]
  simp only [bind, Option.bind_some, file, Bool.or_true]
  exact if_pos ⟨trivial, checked⟩

theorem nothingLeft (all : ∀ x, ¬ Deep s.parents x → images (some x) = 1) :
    frmRestore.useList s images = none := by
  have top : ∀ i ∈ children s.parents none, images (some i) = 1 := fun i member =>
    all i fun ⟨p, q, parent, _⟩ => by
      cases parent.symm.trans ((mem_children _).mp member)
  have second : ∀ nodes : List ℕ, (∀ j ∈ nodes, images (some j) = 1) → ∀ restoreStrings partialDump out,
      frmRestore.secondLevel s.items images nodes (restoreStrings, partialDump) = some out → out.2 = partialDump := by
    intro nodes
    induction nodes with
    | nil =>
      intro _ restoreStrings partialDump out same
      cases same
      rfl
    | cons j nodes ih =>
      intro checked restoreStrings partialDump out same
      rw [frmRestore.secondLevel, if_pos (checked j List.mem_cons_self)] at same
      obtain ⟨restoreStrings, -, same⟩ := Option.bind_eq_some_iff.mp same
      exact ih (fun k member => checked k (List.mem_cons_of_mem j member)) _ _ _ same
  have first : ∀ nodes : List ℕ, (∀ i ∈ nodes, i ∈ children s.parents none) → ∀ restoreStrings partialDump out,
      frmRestore.firstLevel s.items images nodes (restoreStrings, partialDump) = some out → out.2 = partialDump := by
    intro nodes
    induction nodes with
    | nil =>
      intro _ restoreStrings partialDump out same
      cases same
      rfl
    | cons i nodes ih =>
      intro tops restoreStrings partialDump out same
      have here := tops i List.mem_cons_self
      rw [frmRestore.firstLevel, if_pos (top i here)] at same
      obtain ⟨restoreStrings, -, same⟩ := Option.bind_eq_some_iff.mp same
      obtain ⟨⟨strings, flag⟩, below, same⟩ := Option.bind_eq_some_iff.mp same
      have kept := second (children s.parents (some i)) (fun j member => all j fun ⟨p, q, parent, deep⟩ => by
        cases parent.symm.trans ((mem_children _).mp member)
        cases deep.symm.trans ((mem_children _).mp here)) _ _ _ below
      rw [← kept]
      exact ih (fun k member => tops k (List.mem_cons_of_mem i member)) _ _ _ same
  rw [frmRestore.useList]
  cases out : frmRestore.firstLevel s.items images (children s.parents none)
      (List.replicate s.numberOfTOCItems [], false) with
  | none => rfl
  | some out' =>
    obtain ⟨restoreStrings, partialDump⟩ := out'
    have flag : partialDump = false := first _ (fun _ member => member) _ _ _ out
    rw [flag]
    simp only [bind, Option.bind_some, Bool.false_eq_true, false_and, if_false]

end Write
section Restore
variable {word : Text} {cookie : ℕ}

/- Each entry is the data of one item, and what is checked is what is restored, if it is not all or nothing. -/
structure Restored (word : Text) (cookie : ℕ) (lines : List Text) : Prop where
  attached : ∀ line ∈ entries lines, ∃! i : ℕ, ∃ item : TocItem, (load word cookie lines).items[i]? = some item ∧
    item.data.map Prod.snd = some line
  passed : ∀ clicks : List (Option ℕ),
    let images := clicks.foldl (OnLeftClick (load word cookie lines).parents) opened
    (∃ k, k < (load word cookie lines).items.length ∧ images (some k) = 1) →
    (∃ k, k < (load word cookie lines).items.length ∧ images (some k) ≠ 1) →
    useList (load word cookie lines) images =
      some ((entries lines).filter (CheckedLine (load word cookie lines) images))

/- Each entry finds its place in the tree that the lines before it have made. -/
def EachPlaced (word : Text) (cookie : ℕ) (lines : List Text) : Prop :=
  ∀ before line after, lines = before ++ line :: after → Entry line → Places (load word cookie before) line

theorem loadSnoc (lines : List Text) (line : Text) :
    load word cookie (lines ++ [line]) = (load word cookie lines).read word line := List.foldl_concat ..

theorem entriesSnoc (lines : List Text) (line : Text) :
    entries (lines ++ [line]) = entries lines ++ if Entry line then [line] else [] := by
  rw [entries, List.filter_append]
  by_cases entry : Entry line
  · simp [entries, entry]
  · simp [entries, entry]

theorem grownStart : Grown (load word cookie []) [] where
  number := rfl
  data := rfl
  shallow := fun i p found => by cases found
  last := fun i none => by cases none
  schema := fun i none => by cases none

theorem grownRun {lines : List Text} (toc : ∀ line ∈ lines, TocLine line) (placed : EachPlaced word cookie lines) :
    Grown (load word cookie lines) (entries lines) := by
  induction lines using List.reverseRecOn with
  | nil => exact grownStart
  | append_singleton lines line ih =>
    have grown := ih (fun str member => toc str (List.mem_append_left _ member)) fun before str after split entry =>
      placed before str (after ++ [line]) (by rw [split]; simp) entry
    rw [loadSnoc, entriesSnoc]
    by_cases entry : Entry line
    · rw [if_pos entry]
      exact grown.entered (toc line (by simp)) entry (placed lines line [] rfl entry)
    · rw [if_neg entry, List.append_nil, readOther entry]
      exact grown

theorem entryNonempty {lines : List Text} (toc : ∀ line ∈ lines, TocLine line) :
    ∀ line ∈ entries lines, line ≠ [] := by
  intro line member none
  obtain ⟨inside, -⟩ := List.mem_filter.mp member
  rcases toc line inside with comment | ⟨c, digit, -⟩
  · rw [none] at comment
    cases comment
  · rw [none] at digit
    cases digit

theorem restoredOfPlaced {lines : List Text} (toc : ∀ line ∈ lines, TocLine line)
    (distinct : (entries lines).Nodup) (placed : EachPlaced word cookie lines) : Restored word cookie lines := by
  have grown := grownRun toc placed
  constructor
  · intro line member
    obtain ⟨k, here⟩ := List.mem_iff_getElem?.mp member
    have inside : k < (load word cookie lines).items.length := by
      rw [grown.length]
      exact (List.getElem?_eq_some_iff.mp here).1
    obtain ⟨other, there, data⟩ := grown.dataAt (List.getElem?_eq_getElem inside)
    cases there.symm.trans here
    refine ⟨k, ⟨_, List.getElem?_eq_getElem inside, by rw [data]; rfl⟩, ?_⟩
    rintro i ⟨item, found, same⟩
    obtain ⟨line', there', data'⟩ := grown.dataAt found
    rw [data'] at same
    have text : line' = line := Option.some.inj same
    rw [text] at there'
    have bound := (List.getElem?_eq_some_iff.mp there').1
    exact (List.getElem?_inj bound distinct).mp (there'.trans here.symm)
  · intro clicks images some_ part
    exact grown.useList distinct (entryNonempty toc) (clicksUpward grown.shallow clicks).1 some_ part

theorem deepMissed {lines : List Text} {x : ℕ} (deep : Deep (load word cookie lines).parents x)
    (above : ∀ p q : ℕ, (load word cookie lines).parents[x]? = some (some p) →
      (load word cookie lines).parents[p]? = some (some q) → (load word cookie lines).parents[q]? = some none) :
    ¬ Restored word cookie lines := by
  intro restored
  have length : (load word cookie lines).parents.length = (load word cookie lines).items.length :=
    List.length_map _
  have unchecked : OnLeftClick (load word cookie lines).parents opened (some x) =
      SetParentAndChildImage (load word cookie lines).parents (depth (load word cookie lines).parents)
        (some x) 0 opened := rfl
  have others : ∀ y, ¬ Deep (load word cookie lines).parents y →
      OnLeftClick (load word cookie lines).parents opened (some x) (some y) = 1 := fun y shallow => by
    rw [unchecked, setOutside fun inside => shallow (withinDeep deep inside)]
    rfl
  obtain ⟨p, q, parent, second⟩ := deep
  have top := above p q parent second
  have inside : ∀ {y : ℕ} {node : Option ℕ}, (load word cookie lines).parents[y]? = some node →
      y < (load word cookie lines).items.length := fun found => by
    rw [← length]
    exact (List.getElem?_eq_some_iff.mp found).1
  have passed := restored.passed [some x] ⟨q, inside top, others q fun ⟨_, _, other, _⟩ => by
      cases other.symm.trans top⟩
    ⟨x, inside parent, by
      show OnLeftClick _ opened (some x) (some x) ≠ 1
      have self : Within (load word cookie lines).parents (depth (load word cookie lines).parents) (some x)
        (some x) := Or.inl rfl
      rw [unchecked, setWithin self]
      decide⟩
  cases (nothingLeft others).symm.trans passed

theorem placedOfRestored {lines : List Text} (toc : ∀ line ∈ lines, TocLine line)
    (distinct : (entries lines).Nodup) (restored : Restored word cookie lines) : EachPlaced word cookie lines := by
  have all : ∀ n (before : List Text), before.length = n → ∀ line after, lines = before ++ line :: after →
      Entry line → Places (load word cookie before) line := by
    intro n
    induction n using Nat.strong_induction_on with
    | _ n ih =>
      rintro before rfl line after split entry
      have placed : EachPlaced word cookie before := by
        rintro first str others inner entered
        refine ih first.length ?_ first rfl str (others ++ line :: after) ?_ entered
        · rw [inner, List.length_append, List.length_cons]
          omega
        · rw [split, inner, List.append_assoc, List.cons_append]
      have tocBefore : ∀ str ∈ before, TocLine str := fun str member =>
        toc str (by rw [split]; exact List.mem_append_left _ member)
      have tocLine : TocLine line := toc line (by rw [split]; simp)
      have grown := grownRun tocBefore placed
      have listed : entries lines = entries before ++ [line] ++ entries after := by
        rw [split, entries, List.filter_append, List.filter_cons_of_pos (by simpa using entry)]
        simp [entries]
      rw [listed, List.nodup_append] at distinct
      obtain ⟨first, -, apart⟩ := distinct
      have fresh : line ∉ entries before := fun member =>
        List.disjoint_of_nodup_append first member (List.mem_singleton_self line)
      have final : load word cookie lines =
          after.foldl (Loading.read word) ((load word cookie before).read word line) := by
        rw [split, load, List.foldl_append]
        rfl
      by_contra misfit
      by_cases nowhere : ∀ e parent, readEntry line = some e → (load word cookie before).destination e ≠ some parent
      · obtain ⟨gone, member, lost⟩ := @misplaced word _ line _ grown tocLine entry fresh
          (List.nodup_append.mp first).1 nowhere
        have later : gone ∉ after := fun inside => by
          have entered : Entry gone := by
            rcases List.mem_append.mp member with old | new
            · exact of_decide_eq_true (List.mem_filter.mp old).2
            · rwa [List.mem_singleton.mp new]
          exact apart gone member gone (List.mem_filter.mpr ⟨inside, decide_eq_true entered⟩) rfl
        have still := (restKeeps word _ after).2 later lost
        rw [← final] at still
        have inside : gone ∈ entries lines := by
          rw [listed]
          exact List.mem_append_left _ member
        obtain ⟨i, ⟨item, found, same⟩, -⟩ := restored.attached gone inside
        exact still item (List.mem_of_getElem? found) same
      · push Not at nowhere
        obtain ⟨e, parent, entered, here⟩ := nowhere
        cases parent with
        | none => exact misfit ⟨e, none, entered, here, fun node none => by cases none⟩
        | some p =>
          obtain ⟨grandparent, second⟩ := destinationInside grown here
          cases grandparent with
          | none => exact misfit ⟨e, some p, entered, here, fun node same => by cases same; exact second⟩
          | some q =>
            have items := (@readPlaced word _ e line tocLine entry entered _ here).1
            have parents : ((load word cookie before).read word line).parents =
                (load word cookie before).parents ++ [some p] := by
              rw [Loading.parents, items, List.map_append]
              rfl
            have grows := (@restKeeps line word ((load word cookie before).read word line) after).1
            rw [← final, parents] at grows
            obtain ⟨rest, grows⟩ := grows
            have keeps : ∀ {i : ℕ} {node : Option ℕ}, (load word cookie before).parents[i]? = some node →
                (load word cookie lines).parents[i]? = some node := fun {i node} found => by
              rw [← grows, List.append_assoc, List.getElem?_append_left (List.getElem?_eq_some_iff.mp found).1]
              exact found
            have self : (load word cookie lines).parents[(load word cookie before).parents.length]? =
                some (some p) := by
              rw [← grows, List.append_assoc, List.getElem?_append_right (Nat.le_refl _), Nat.sub_self]
              rfl
            refine deepMissed ⟨p, q, self, keeps second⟩ ?_ restored
            intro p' q' parent' second'
            cases self.symm.trans parent'
            cases (keeps second).symm.trans second'
            exact keeps (grown.shallow p q second)
  exact fun before line after split entry => all before.length before rfl line after split entry

/- The selection is restored just when every entry finds its place. -/
theorem selectionRestored (word : Text) (cookie : ℕ) (messages : Text)
    (toc : ∀ line ∈ tocLines messages, TocLine line) (distinct : (entries (tocLines messages)).Nodup) :
    Restored word cookie (tocLines messages) ↔ EachPlaced word cookie (tocLines messages) :=
  ⟨placedOfRestored toc distinct, restoredOfPlaced toc distinct⟩

def plainMessages : Text :=
  "pg_restore\n; Archive\n1; 2615 2200 SCHEMA - public joe\n2; 1259 7 TABLE public my table joe\nok".toList

def quotedMessages : Text :=
  "pg_restore\n2; 3079 16385 EXTENSION - uuid-ossp \n3451; 0 0 COMMENT - EXTENSION \"uuid-ossp\" \nok".toList

theorem plainLines : tocLines plainMessages = ["; Archive".toList, "1; 2615 2200 SCHEMA - public joe".toList,
    "2; 1259 7 TABLE public my table joe".toList] := by decide

theorem quotedLines : tocLines quotedMessages = ["2; 3079 16385 EXTENSION - uuid-ossp ".toList,
    "3451; 0 0 COMMENT - EXTENSION \"uuid-ossp\" ".toList] := by decide

theorem plainToc : ∀ line ∈ tocLines plainMessages, TocLine line := by
  rw [plainLines]
  simp only [List.forall_mem_cons]
  exact ⟨.inl rfl, .inr ⟨'1', rfl, by decide⟩, .inr ⟨'2', rfl, by decide⟩, fun _ none => absurd none List.not_mem_nil⟩

theorem quotedToc : ∀ line ∈ tocLines quotedMessages, TocLine line := by
  rw [quotedLines]
  simp only [List.forall_mem_cons]
  exact ⟨.inr ⟨'2', rfl, by decide⟩, .inr ⟨'3', rfl, by decide⟩, fun _ none => absurd none List.not_mem_nil⟩

theorem plainRestored : Restored "owner".toList 0 (tocLines plainMessages) := by
  refine (selectionRestored "owner".toList 0 plainMessages plainToc (by rw [plainLines]; decide)).mpr ?_
  rw [plainLines]
  intro before line after split entry
  rcases before with _ | ⟨first, _ | ⟨second, _ | ⟨third, before⟩⟩⟩
  · cases split
    exact absurd entry (by decide)
  · cases split
    exact ⟨_, none, rfl, by decide, fun node none => by cases none⟩
  · cases split
    refine ⟨_, some 0, rfl, by decide, fun node same => ?_⟩
    cases same
    decide
  · have length := congrArg List.length split
    simp only [List.length_cons, List.length_append, List.length_nil] at length
    omega

/- The server prints the name in quotes in the entry of the comment only, which takes the place of the extension. -/
theorem extensionLost : ¬ ∀ (word : Text) (cookie : ℕ) (messages : Text), (∀ line ∈ tocLines messages, TocLine line) →
    (entries (tocLines messages)).Nodup → Restored word cookie (tocLines messages) := by
  intro all
  have restored := all "owner".toList 0 quotedMessages quotedToc (by rw [quotedLines]; decide)
  rw [quotedLines] at restored
  obtain ⟨i, ⟨item, found, same⟩, -⟩ := restored.attached "2; 3079 16385 EXTENSION - uuid-ossp ".toList (by decide)
  have lines : (load "owner".toList 0 ["2; 3079 16385 EXTENSION - uuid-ossp ".toList,
      "3451; 0 0 COMMENT - EXTENSION \"uuid-ossp\" ".toList]).items.map TocItem.data =
      [some (1, "3451; 0 0 COMMENT - EXTENSION \"uuid-ossp\" ".toList)] := by decide
  have member : item.data ∈ [some (1, "3451; 0 0 COMMENT - EXTENSION \"uuid-ossp\" ".toList)] := by
    rw [← lines]
    exact List.mem_map_of_mem (List.mem_of_getElem? found)
  rw [List.mem_singleton.mp member] at same
  revert same
  decide

end Restore

end PgAdmin.frmRestore
