import PgAdmin.HbaConfigSpelling

/-! What the writer of pg_hba.conf makes of a valid line spells the same entry, but for the option
of a method below ident. So the entry is read back exactly when there is no such option, and, on a
local line, the reading object holds the address that the line had. -/
namespace PgAdmin.pgHbaConfigLine
open Cursor PgsObjects

variable {l : pgHbaConfigLine} {p t : Text}

structure SameEntry (a b : pgHbaConfigLine) : Prop where
  connectType : a.connectType = b.connectType
  database : a.database = b.database
  user : a.user = b.user
  ipaddress : a.ipaddress = b.ipaddress
  method : a.method = b.method
  option : a.option = b.option
  isComment : a.isComment = b.isComment

def TakesOption (method : pgHbaMethod) : Prop := pgHbaMethod.pgcIdent.ctorIdx ≤ method.ctorIdx

instance takesOptionDecidable : DecidablePred TakesOption := fun _ => inferInstanceAs (Decidable (_ ≤ _))

def written (l : pgHbaConfigLine) : pgHbaConfigLine :=
  { l with option := if TakesOption l.method then l.option else [] }

def mark (isComment : Bool) : Text := if isComment then "# ".toList else []

theorem tabspaceBlank : Blank tabspace := by
  simp [Blank, tabspace, IsSpaceChar]

theorem tabspaceFree : NulFree tabspace := by
  simp [NulFree, tabspace]

theorem SpellsMethod.rewrite (spelled : SpellsMethod l p) (free : NulFree p) :
    ∃ name t, l.GetMethod = some name ∧
      t = name ++ (if TakesOption l.method ∧ l.option ≠ [] then tabspace ++ l.option else []) ∧
      SpellsMethod (written l) t ∧ NulFree t := by
  obtain @⟨name, gap, named, -, starts, -⟩ := spelled
  obtain ⟨⟨nameFree, -⟩, optionFree⟩ := NulFree.append.mp free |>.imp_left NulFree.append.mp
  refine ⟨name, _, named, rfl, ?_⟩
  by_cases keeps : TakesOption l.method ∧ l.option ≠ []
  · have option : (written l).option = l.option := if_pos keeps.1
    have again : SpellsMethod (written l) (name ++ tabspace ++ (written l).option) :=
      .method named tabspaceBlank.2 (option ▸ starts) (fun none => absurd none tabspaceBlank.1)
    rw [if_pos keeps]
    rw [option, List.append_assoc] at again
    exact ⟨again, NulFree.append.mpr ⟨nameFree, NulFree.append.mpr ⟨tabspaceFree, optionFree⟩⟩⟩
  · have option : (written l).option = [] := by
      rw [written]
      split
      · rename_i takes
        exact not_not.mp fun given => keeps ⟨takes, given⟩
      · rfl
    have again : SpellsMethod (written l) (name ++ [] ++ (written l).option) :=
      .method named (fun c member => nomatch member) (option ▸ fun c head => nomatch head)
        (fun _ => option)
    rw [if_neg keeps]
    rw [option, List.append_nil] at again
    exact ⟨again, by rwa [List.append_nil]⟩

theorem SpellsAddress.rewrite (spelled : SpellsAddress l p) (free : NulFree p) :
    ∃ name t, l.GetMethod = some name ∧
      t = (if l.connectType = .pgcLocal then [] else l.ipaddress ++ tabspace) ++ name ++
        (if TakesOption l.method ∧ l.option ≠ [] then tabspace ++ l.option else []) ∧
      SpellsAddress (written l) t ∧ NulFree t := by
  cases spelled with
  | none isLocal method =>
    obtain ⟨name, t, named, rfl, again, freeAgain⟩ := method.rewrite free
    refine ⟨name, _, named, rfl, ?_⟩
    rw [if_pos isLocal]
    exact ⟨.none isLocal again, freeAgain⟩
  | @address gap rest remote address blank method =>
    obtain ⟨⟨addressFree, -⟩, restFree⟩ := NulFree.append.mp free |>.imp_left NulFree.append.mp
    obtain ⟨name, t, named, rfl, again, freeAgain⟩ := method.rewrite restFree
    refine ⟨name, _, named, rfl, ?_⟩
    rw [if_neg remote, List.append_assoc _ name]
    exact ⟨.address remote address tabspaceBlank again,
      NulFree.append.mpr ⟨NulFree.append.mpr ⟨addressFree, tabspaceFree⟩, freeAgain⟩⟩

theorem getTextSpells (spelled : Spells l p) (free : NulFree p) : ∃ t,
    ({ l with changed := true } : pgHbaConfigLine).GetText = some (mark l.isComment ++ t) ∧
      Spells (written l) t ∧ NulFree t := by
  obtain @⟨name, gap, gap', gap'', rest, named, -, database, -, user, -, address⟩ := spelled
  simp only [NulFree.append] at free
  obtain ⟨⟨⟨⟨⟨⟨nameFree, -⟩, databaseFree⟩, -⟩, userFree⟩, -⟩, restFree⟩ := free
  obtain ⟨method, t, methodNamed, same, again, freeAgain⟩ := address.rewrite restFree
  refine ⟨name ++ tabspace ++ l.database ++ tabspace ++ l.user ++ tabspace ++ t, ?_,
    .entry named tabspaceBlank database tabspaceBlank user tabspaceBlank again, ?_⟩
  · have type : ({ l with changed := true } : pgHbaConfigLine).GetConnectType = some name := named
    have kind : ({ l with changed := true } : pgHbaConfigLine).GetMethod = some method :=
      methodNamed
    have flag : (!({ l with changed := true } : pgHbaConfigLine).changed) = false := rfl
    simp only [GetText, flag, type, kind, mark, Bool.false_eq_true, if_false,
      Option.bind_eq_bind, Option.bind_some]
    refine congrArg some ?_
    by_cases writes : TakesOption l.method ∧ l.option ≠ []
    · rw [if_pos (show pgHbaMethod.pgcIdent.ctorIdx ≤ l.method.ctorIdx ∧ _ from writes), same,
        if_pos writes]
      split <;> simp only [List.append_assoc, List.nil_append]
    · rw [if_neg (show ¬(pgHbaMethod.pgcIdent.ctorIdx ≤ l.method.ctorIdx ∧ _) from writes), same,
        if_neg writes]
      split <;> simp only [List.append_assoc, List.nil_append, List.append_nil]
  · simp only [NulFree.append]
    exact ⟨⟨⟨⟨⟨⟨nameFree, tabspaceFree⟩, databaseFree⟩, tabspaceFree⟩, userFree⟩, tabspaceFree⟩,
      freeAgain⟩

theorem spellsStart (spelled : Spells l p) :
    Past IsSpaceChar p ∧ p.head? ≠ some '#' := by
  obtain @⟨name, gap, gap', gap'', rest, named, -, -, -, -, -, -⟩ := spelled
  simp only [List.append_assoc]
  refine ⟨(connectTypeWord named).past _, ?_⟩
  have heads : ∀ name ∈ pgHbaConnectTypeStrings, name.head? ≠ some '#' := by
    simp [pgHbaConnectTypeStrings]
  have head := heads name (List.mem_of_getElem? named)
  obtain ⟨c, name, rfl⟩ := List.exists_cons_of_ne_nil (connectTypeWord named).1
  simpa using head

theorem markedBody (isComment : Bool) (spelled : Spells l p) (free : NulFree p) :
    body (mark isComment ++ p) = p ∧
      decide ((cStr (mark isComment ++ p)).head? = some '#') = isComment := by
  obtain ⟨start, head⟩ := spellsStart spelled
  cases isComment with
  | false =>
    have same : cStr (mark false ++ p) = p := cStrSelf free
    rw [body, same, if_neg head]
    exact ⟨rfl, decide_eq_false head⟩
  | true =>
    have same : cStr (mark true ++ p) = mark true ++ p :=
      cStrSelf (NulFree.append.mpr ⟨by simp [NulFree, mark], free⟩)
    rw [body, same]
    refine ⟨?_, rfl⟩
    change SkipSpace ([' '] ++ p) = p
    exact skipSpaceAppend (by simp [IsSpaceChar]) start

theorem bodyFree (line : Text) : NulFree (body line) := by
  have free := cStrNulFree line
  rw [body]
  split
  · exact fun member => free (List.mem_of_mem_tail ((List.dropWhile_sublist _).mem member))
  · exact free

theorem initMethodText (l : pgHbaConfigLine) (p : Text) :
    (l.initMethod p).text = l.text ∧ (l.initMethod p).changed = l.changed := by
  rw [initMethod]
  split <;> exact ⟨rfl, rfl⟩

theorem initAddressText (l : pgHbaConfigLine) (p : Text) :
    (l.initAddress p).text = l.text ∧ (l.initAddress p).changed = l.changed := by
  rw [initAddress]
  split
  · exact initMethodText l p
  · exact initMethodText { l with ipaddress := between p (skipAddress p) } _

theorem initText (l : pgHbaConfigLine) (line : Text) :
    (l.Init line).text = (if line = [] then l.text else line) ∧ (l.Init line).changed = false := by
  cases line with
  | nil => exact ⟨rfl, rfl⟩
  | cons c line =>
    rw [Init, if_neg (List.cons_ne_nil c line)]
    simp only [List.isEmpty_cons, Bool.false_eq_true, if_false]
    split
    · exact ⟨rfl, rfl⟩
    · exact initAddressText _ _

theorem getTextUnchanged (unchanged : l.changed = false) : l.GetText = some l.text := by
  simp [GetText, unchanged]

theorem initGetText (unchanged : l.changed = false) :
    ∃ text, l.GetText = some text ∧ (l.Init text).GetText = some text := by
  obtain ⟨text, after⟩ := initText l l.text
  refine ⟨l.text, getTextUnchanged unchanged, ?_⟩
  rw [getTextUnchanged after, text]
  split <;> rfl

/-- A changed valid line is written and read back as the same entry if and only if its option is
empty or its method takes one, and on a local line the object that reads it holds its address. An
unchanged line is written as it was read, and reading that keeps its text. -/
theorem entryReadBack (previous into : pgHbaConfigLine) (line : Text)
    (valid : (previous.Init line).isValid) :
    (∃ text, ({ previous.Init line with changed := true } : pgHbaConfigLine).GetText = some text ∧
      (SameEntry (into.Init text) (previous.Init line) ↔
        ((previous.Init line).option = [] ∨ TakesOption (previous.Init line).method) ∧
        ((previous.Init line).connectType = .pgcLocal →
          into.ipaddress = (previous.Init line).ipaddress))) ∧
    (previous.Init line).GetText = some line ∧
    ∀ unchanged : pgHbaConfigLine, unchanged.changed = false →
      ∃ text, unchanged.GetText = some text ∧ (unchanged.Init text).GetText = some text := by
  have spelled := initSpelled valid
  obtain ⟨t, wrote, again, free⟩ := getTextSpells spelled (bodyFree line)
  have lineText : (previous.Init line).GetText = some line := by
    obtain ⟨text, unchanged⟩ := initText previous line
    rw [getTextUnchanged unchanged, text]
    split
    · rename_i empty
      subst empty
      simp [Init] at valid
    · rfl
  refine ⟨⟨_, wrote, ?_⟩, lineText, fun l => initGetText⟩
  generalize previous.Init line = l at wrote again
  obtain ⟨sameBody, comment⟩ := markedBody l.isComment again free
  have nonempty : mark l.isComment ++ t ≠ [] := by
    obtain @⟨name, gap, gap', gap'', rest, named, -, -, -, -, -, -⟩ := again
    have word := connectTypeWord named
    simp [word.1]
  have read := initReads (l := into) nonempty (sameBody.symm ▸ again)
  rw [read, comment]
  constructor
  · intro same
    constructor
    · have option := same.option
      simp only [written] at option
      split at option
      · rename_i takes
        exact .inr takes
      · exact .inl option.symm
    · intro isLocal
      have address := same.ipaddress
      rwa [addressRead, if_pos (show (written l).connectType = .pgcLocal from isLocal)] at address
  · rintro ⟨takes, address⟩
    refine ⟨rfl, rfl, rfl, ?_, rfl, ?_, rfl⟩
    · by_cases isLocal : l.connectType = .pgcLocal
      · exact (if_pos isLocal).trans (address isLocal)
      · exact if_neg isLocal
    · simp only [written]
      split
      · rfl
      · rename_i refuses
        exact (takes.resolve_right refuses).symm

theorem entryReadBackIdent : ∃ text,
    ({ create "local all all ident map=web".toList with changed := true } :
      pgHbaConfigLine).GetText = some text ∧
    SameEntry (create text) (create "local all all ident map=web".toList) := by
  obtain ⟨⟨text, wrote, same⟩, -⟩ :=
    entryReadBack {} {} "local all all ident map=web".toList (by decide)
  exact ⟨text, wrote, same.mpr ⟨by decide, fun _ => by decide⟩⟩

def krb5Line : Text := "host all all 0.0.0.0/0 krb5 include_realm=1".toList

theorem optionLost : (create krb5Line).isValid ∧ ∃ text,
    ({ create krb5Line with changed := true } : pgHbaConfigLine).GetText = some text ∧
      ¬ SameEntry (create text) (create krb5Line) := by
  refine ⟨by decide, _, rfl, fun same => ?_⟩
  exact absurd same.option (by decide)

end PgAdmin.pgHbaConfigLine
