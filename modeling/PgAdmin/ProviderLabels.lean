import PgAdmin.ArrayText

/-! pgObject::GetProviderLabelArray: the providers of security labels and the labels, from two arrays as the server
prints them. A quote counts as the first one of an element while no letter of the element has been read, and a
comma ends an element only when there is a letter of it. -/
namespace PgAdmin.providerLabels
open PgsObjects (Text)
open wxString arrayText

def elements (tmp : Text) (wrappedInQuotes antislash : Bool) : Text → List Text × Bool
  | [] => (if tmp.isEmpty then [] else [tmp], antislash)
  | currentChar :: s =>
    if currentChar = '"' ∧ tmp = [] then elements tmp true antislash s
    else if currentChar = '\\' ∧ wrappedInQuotes = true then elements tmp wrappedInQuotes true s
    else if (currentChar = ',' ∧ wrappedInQuotes = false ∧ tmp ≠ []) ∨
        (currentChar = '"' ∧ wrappedInQuotes = true ∧ antislash = false ∧ tmp ≠ []) then
      let rest := elements [] false false s
      (tmp :: rest.1, rest.2)
    else elements (tmp ++ [currentChar]) wrappedInQuotes false s

def build : List Text → List Text → List (Option Text)
  | [], _ => []
  | provider :: providersArray, labelsArray =>
    some provider :: labelsArray.head? :: build providersArray labelsArray.tail

/- The flags are those of the loop over the labels, where they have not been given a value. -/
def GetProviderLabelArray (wrappedInQuotes antislash : Bool) (providers labels : Text) : List (Option Text) :=
  if labels.isEmpty then []
  else
    let (labelsArray, antislash) := elements [] wrappedInQuotes antislash (inside labels)
    let (providersArray, _) := elements [] false antislash (inside providers)
    build providersArray labelsArray

section Scanning
variable {tmp s : Text} {wrapped antislash : Bool} {c : Char} {word : Text → Bool}

/- An element of two letters that is printed with quotes and may be what is read of those in front of it. -/
def commaQuote : Text := [',', '"']

def Bare (word : Text → Bool) (element : Text) : Prop :=
  ¬ (element = [] ∨ element.any special ∨ word element)

instance (element : Text) : Decidable (Bare word element) := inferInstanceAs (Decidable (¬ _))

structure Told (element : Text) : Prop where
  some : element ≠ []
  noBackslash : '\\' ∉ element
  noQuote : element.head? ≠ Option.some '"'

theorem printedBare {element : Text} (bare : Bare word element) : printed word element = element := if_neg bare

theorem printedQuoted {element : Text} (quoted : ¬ Bare word element) :
    printed word element = '"' :: element.flatMap escaped ++ ['"'] := if_pos (Classical.not_not.mp quoted)

theorem bareLetter {element : Text} (bare : Bare word element) (member : c ∈ element) :
    c ≠ '"' ∧ c ≠ '\\' ∧ c ≠ ',' := by
  have ordinary : special c = false := by
    rw [Bool.eq_false_iff]
    exact fun here => bare (.inr (.inl (List.any_eq_true.mpr ⟨c, member, here⟩)))
  refine ⟨?_, ?_, ?_⟩ <;> rintro rfl <;> exact absurd ordinary (by decide)

theorem bareTold {element : Text} (bare : Bare word element) : Told element where
  some := fun none => bare (.inl none)
  noBackslash := fun member => (bareLetter bare member).2.1 rfl
  noQuote := by
    intro first
    exact (bareLetter bare (List.mem_of_mem_head? (first ▸ rfl))).1 rfl

theorem elementsOther (quote : c ≠ '"' ∨ tmp ≠ []) (noBackslash : c ≠ '\\' ∨ wrapped = false)
    (goesOn : ¬ ((c = ',' ∧ wrapped = false ∧ tmp ≠ []) ∨
      (c = '"' ∧ wrapped = true ∧ antislash = false ∧ tmp ≠ []))) :
    elements tmp wrapped antislash (c :: s) = elements (tmp ++ [c]) wrapped false s := by
  have notFirst : ¬ (c = '"' ∧ tmp = []) := fun first => quote.elim (· first.1) (· first.2)
  have notEscape : ¬ (c = '\\' ∧ wrapped = true) := by
    rintro ⟨rfl, rfl⟩
    exact noBackslash.elim (· rfl) Bool.noConfusion
  rw [elements, if_neg notFirst, if_neg notEscape, if_neg goesOn]

theorem elementsBare {element : Text} (letters : ∀ c ∈ element, c ≠ '"' ∧ c ≠ '\\' ∧ c ≠ ',') (some : element ≠ []) :
    elements tmp wrapped antislash (element ++ s) = elements (tmp ++ element) wrapped false s := by
  induction element generalizing tmp antislash with
  | nil => exact absurd rfl some
  | cons c element ih =>
    obtain ⟨quote, backslash, comma⟩ := letters c List.mem_cons_self
    have step : elements tmp wrapped antislash (c :: (element ++ s)) =
        elements (tmp ++ [c]) wrapped false (element ++ s) :=
      elementsOther (.inl quote) (.inl backslash) (by simp [quote, comma])
    rw [List.cons_append, step]
    by_cases last : element = []
    · subst last
      rfl
    · rw [ih (fun later member => letters later (List.mem_cons_of_mem c member)) last]
      simp

theorem elementsComma (some : tmp ≠ []) :
    (elements tmp false antislash (',' :: s)).1 = tmp :: (elements [] false false s).1 := by
  rw [elements, if_neg (by simp), if_neg (by simp), if_pos (.inl ⟨rfl, rfl, some⟩)]

theorem elementsEscaped {element : Text} (noBackslash : '\\' ∉ element) (some : tmp ≠ []) :
    elements tmp true false (element.flatMap escaped ++ s) = elements (tmp ++ element) true false s := by
  induction element generalizing tmp with
  | nil => simp
  | cons c element ih =>
    have backslash : c ≠ '\\' := fun same => noBackslash (same ▸ List.mem_cons_self)
    have rest := @ih (tmp ++ [c]) (fun member => noBackslash (List.mem_cons_of_mem c member)) (by simp)
    rw [List.flatMap_cons, List.append_assoc]
    by_cases quote : c = '"'
    · subst quote
      have opened : elements tmp true false ('\\' :: '"' :: (element.flatMap escaped ++ s)) =
          elements tmp true true ('"' :: (element.flatMap escaped ++ s)) := by
        rw [elements, if_neg (by simp), if_pos ⟨rfl, rfl⟩]
      have taken : elements tmp true true ('"' :: (element.flatMap escaped ++ s)) =
          elements (tmp ++ ['"']) true false (element.flatMap escaped ++ s) :=
        elementsOther (.inr some) (.inl (by decide)) (by simp)
      show elements tmp true false ('\\' :: '"' :: (element.flatMap escaped ++ s)) = _
      rw [opened, taken, rest]
      simp
    · have single : escaped c = [c] := if_neg (by simp [quote, backslash])
      have taken : elements tmp true false (c :: (element.flatMap escaped ++ s)) =
          elements (tmp ++ [c]) true false (element.flatMap escaped ++ s) :=
        elementsOther (.inl quote) (.inl backslash) (by simp [quote])
      rw [single, List.singleton_append, taken, rest]
      simp

theorem elementsQuoted {element : Text} (told : Told element) :
    (elements [] wrapped antislash ('"' :: element.flatMap escaped ++ '"' :: s)).1 =
      element :: (elements [] false false s).1 := by
  obtain ⟨c, rest, rfl⟩ := List.exists_cons_of_ne_nil told.some
  have quote : c ≠ '"' := fun same => told.noQuote (same ▸ rfl)
  have backslash : c ≠ '\\' := fun same => told.noBackslash (same ▸ List.mem_cons_self)
  have single : escaped c = [c] := if_neg (by simp [quote, backslash])
  have opened : elements [] wrapped antislash ('"' :: (c :: (rest.flatMap escaped ++ '"' :: s))) =
      elements [] true antislash (c :: (rest.flatMap escaped ++ '"' :: s)) := by
    rw [elements, if_pos ⟨rfl, rfl⟩]
  have first : elements [] true antislash (c :: (rest.flatMap escaped ++ '"' :: s)) =
      elements [c] true false (rest.flatMap escaped ++ '"' :: s) :=
    elementsOther (.inl quote) (.inl backslash) (by simp)
  have inner := @elementsEscaped [c] ('"' :: s) rest (fun member => told.noBackslash (List.mem_cons_of_mem c member))
    (List.cons_ne_nil _ _)
  have closed : (elements (c :: rest) true false ('"' :: s)).1 = (c :: rest) :: (elements [] false false s).1 := by
    rw [elements, if_neg (by simp), if_neg (by decide), if_pos (.inr ⟨rfl, rfl, rfl, List.cons_ne_nil _ _⟩)]
  have text : '"' :: (c :: rest).flatMap escaped ++ '"' :: s =
      '"' :: (c :: (rest.flatMap escaped ++ '"' :: s)) := by simp [single]
  rw [text, opened, first, inner]
  exact closed

theorem firstExtends (some : tmp ≠ []) :
    ∃ token rest, (elements tmp wrapped antislash s).1 = token :: rest ∧ tmp <+: token := by
  induction s generalizing tmp wrapped antislash with
  | nil =>
    have full : tmp.isEmpty = false := by simpa using some
    exact ⟨tmp, [], by rw [elements, full]; rfl, List.prefix_refl tmp⟩
  | cons c s ih =>
    rw [elements, if_neg fun first => some first.2]
    split
    · exact ih some
    · split
      · exact ⟨tmp, _, rfl, List.prefix_refl tmp⟩
      · obtain ⟨token, rest, first, longer⟩ := @ih (tmp ++ [c]) wrapped false (by simp)
        exact ⟨token, rest, first, (List.prefix_append tmp [c]).trans longer⟩

theorem noHead : ([] : Text).head? ≠ Option.some '"' := by simp

theorem elementsTold (start : tmp.head? ≠ Option.some '"') :
    ∀ token ∈ (elements tmp wrapped antislash s).1, token ≠ [] ∧ token.head? ≠ Option.some '"' := by
  induction s generalizing tmp wrapped antislash with
  | nil =>
    intro token member
    rw [elements] at member
    cases tmp with
    | nil => cases member
    | cons c tmp =>
      cases List.mem_singleton.mp member
      exact ⟨List.cons_ne_nil c tmp, start⟩
  | cons c s ih =>
    rw [elements]
    split
    case isTrue => exact ih start
    case isFalse notFirst =>
      split
      case isTrue => exact ih start
      case isFalse =>
        split
        case isTrue ends =>
          have some : tmp ≠ [] := ends.elim (·.2.2) (·.2.2.2)
          rw [List.forall_mem_cons]
          exact ⟨⟨some, start⟩, @ih [] _ _ noHead⟩
        case isFalse =>
          refine ih ?_
          cases tmp with
          | nil => exact fun first => notFirst ⟨Option.some.inj first, rfl⟩
          | cons d tmp => exact start

theorem quotedNoBackslash (start : '\\' ∉ tmp) :
    ∀ token ∈ (elements tmp true antislash s).1.head?, '\\' ∉ token := by
  induction s generalizing tmp antislash with
  | nil =>
    rw [elements]
    cases tmp with
    | nil => simp
    | cons c tmp => simpa using start
  | cons c s ih =>
    rw [elements]
    split
    case isTrue => exact ih start
    case isFalse =>
      split
      case isTrue => exact ih start
      case isFalse noEscape =>
        split
        case isTrue => simpa using start
        case isFalse =>
          refine ih ?_
          simpa [start] using fun same : '\\' = c => noEscape ⟨same.symm, rfl⟩

structure Aligned (word : Text → Bool) (list : List Text) : Prop where
  bare : ∀ element ∈ list.dropLast, Bare word element
  told : ∀ element ∈ list.getLast?, Told element

theorem alignedCons {element next : Text} {list : List Text} :
    Aligned word (element :: next :: list) ↔ Bare word element ∧ Aligned word (next :: list) := by
  constructor
  · intro aligned
    have bare := aligned.bare
    rw [List.dropLast_cons_cons, List.forall_mem_cons] at bare
    exact ⟨bare.1, bare.2, fun last member => aligned.told last (by rwa [List.getLast?_cons_cons])⟩
  · rintro ⟨first, aligned⟩
    refine ⟨?_, fun last member => aligned.told last (by rwa [List.getLast?_cons_cons] at member)⟩
    rw [List.dropLast_cons_cons, List.forall_mem_cons]
    exact ⟨first, aligned.bare⟩

def printedList (word : Text → Bool) (list : List Text) : Text := [','].intercalate (list.map (printed word))

theorem printedCons (element next : Text) (list : List Text) : printedList word (element :: next :: list) =
    printed word element ++ ',' :: printedList word (next :: list) := by
  rw [printedList, List.map_cons, List.map_cons, List.intercalate_cons_cons, List.append_assoc]
  rfl

theorem printedOne (element : Text) : printedList word [element] = printed word element := by
  simp [printedList]

theorem alignedRead {list : List Text} (aligned : Aligned word list) (initial : 2 ≤ list.length → wrapped = false) :
    (elements [] wrapped antislash (printedList word list)).1 = list := by
  induction list generalizing wrapped antislash with
  | nil => rfl
  | cons element list ih =>
    cases list with
    | nil =>
      have told := aligned.told element rfl
      rw [printedOne]
      by_cases bare : Bare word element
      · have whole := @elementsBare [] [] wrapped antislash element (fun c => bareLetter bare) told.some
        rw [List.append_nil, List.nil_append] at whole
        have full : element.isEmpty = false := by simpa using told.some
        rw [printedBare bare, whole, elements, full]
        rfl
      · rw [printedQuoted bare]
        exact elementsQuoted (s := []) told
    | cons next list =>
      obtain ⟨bare, later⟩ := alignedCons.mp aligned
      have clear : wrapped = false := initial (Nat.le_add_left 2 _)
      subst clear
      rw [printedCons, printedBare bare, elementsBare (fun c => bareLetter bare) (bareTold bare).some,
        List.nil_append, elementsComma (bareTold bare).some, ih later fun _ => rfl]

theorem readTold {element : Text} {rest : List Text} (quoted : ¬ Bare word element)
    (same : element :: rest <+: (elements [] wrapped antislash (printed word element ++ s)).1) : Told element := by
  have opened : elements [] wrapped antislash (printed word element ++ s) =
      elements [] true antislash (element.flatMap escaped ++ '"' :: s) := by
    rw [printedQuoted quoted]
    simp [elements]
  rw [opened] at same
  have first : element ∈ (elements [] true antislash (element.flatMap escaped ++ '"' :: s)).1.head? := by
    obtain ⟨more, whole⟩ := same
    rw [← whole]
    rfl
  obtain ⟨some, noQuote⟩ := @elementsTold [] _ _ _ noHead element (List.mem_of_mem_head? first)
  exact ⟨some, quotedNoBackslash List.not_mem_nil element first, noQuote⟩

theorem readComma {element next : Text} {list more : List Text} (quoted : ¬ Bare word element)
    (same : element :: next :: more <+:
      (elements [] wrapped antislash (printed word element ++ ',' :: printedList word (next :: list))).1) :
    next = commaQuote := by
  have told := readTold quoted ((List.prefix_append [element, next] more).trans same)
  rw [printedQuoted quoted, List.append_assoc, List.singleton_append, elementsQuoted told,
    List.cons_prefix_cons] at same
  have comma : elements [] false false (',' :: printedList word (next :: list)) =
      elements [','] false false (printedList word (next :: list)) :=
    elementsOther (.inl (by decide)) (.inl (by decide)) (by simp)
  rw [comma] at same
  obtain ⟨tail, rfl⟩ : ∃ tail, next = ',' :: tail := by
    obtain ⟨token, rest, read, longer⟩ := @firstExtends [','] (printedList word (next :: list)) false false
      (List.cons_ne_nil _ _)
    rw [read, List.cons_prefix_cons] at same
    obtain ⟨tail, whole⟩ := longer
    exact ⟨tail, same.2.1.trans whole.symm⟩
  have special : ¬ Bare word (',' :: tail) := fun bare => (bareLetter bare List.mem_cons_self).2.2 rfl
  obtain ⟨after, text⟩ : ∃ after, printedList word ((',' :: tail) :: list) = '"' :: ',' :: after := by
    cases list with
    | nil => exact ⟨_, by rw [printedOne, printedQuoted special]; rfl⟩
    | cons second list => exact ⟨_, by rw [printedCons, printedQuoted special]; rfl⟩
  have closed : (elements [','] false false ('"' :: ',' :: after)).1 =
      commaQuote :: (elements [] false false after).1 := by
    simp [elements, commaQuote]
  rw [text, closed, List.cons_prefix_cons] at same
  exact same.2.1

theorem readAligned {list : List Text} (ordinary : commaQuote ∉ list)
    (same : list <+: (elements [] wrapped antislash (printedList word list)).1) :
    Aligned word list ∧ (2 ≤ list.length → wrapped = false) := by
  induction list generalizing wrapped antislash with
  | nil => exact ⟨⟨nofun, nofun⟩, fun long => absurd long (by decide)⟩
  | cons element list ih =>
    cases list with
    | nil =>
      refine ⟨⟨nofun, fun last member => ?_⟩, fun long => absurd long (by simp)⟩
      cases Option.some.inj member
      by_cases bare : Bare word element
      · exact bareTold bare
      · rw [printedOne, ← List.append_nil (printed word element)] at same
        exact readTold bare same
    | cons next list =>
      rw [printedCons] at same
      by_cases bare : Bare word element
      · rw [printedBare bare, elementsBare (fun c => bareLetter bare) (bareTold bare).some, List.nil_append] at same
        cases wrapped with
        | true =>
          have goesOn : elements element true false (',' :: printedList word (next :: list)) =
              elements (element ++ [',']) true false (printedList word (next :: list)) :=
            elementsOther (.inl (by decide)) (.inl (by decide)) (by simp)
          obtain ⟨token, rest, read, longer⟩ := @firstExtends (element ++ [','])
            (printedList word (next :: list)) true false (by simp)
          rw [goesOn, read, List.cons_prefix_cons] at same
          have short := longer.length_le
          rw [← same.1, List.length_append] at short
          exact absurd short (Nat.not_succ_le_self _)
        | false =>
          rw [elementsComma (bareTold bare).some, List.cons_prefix_cons] at same
          obtain ⟨later, _⟩ := ih (fun member => ordinary (List.mem_cons_of_mem element member)) same.2
          exact ⟨alignedCons.mpr ⟨bare, later⟩, fun _ => rfl⟩
      · have odd := readComma bare same
        exact absurd (odd ▸ List.mem_cons_of_mem _ List.mem_cons_self) ordinary

end Scanning
def flattened (pairs : List (Text × Text)) : List (Option Text) :=
  pairs.flatMap fun (provider, label) => [some provider, some label]

theorem buildFlattened (providersArray labelsArray : List Text) (pairs : List (Text × Text)) :
    build providersArray labelsArray = flattened pairs ↔
      providersArray = pairs.map Prod.fst ∧ pairs.map Prod.snd <+: labelsArray := by
  induction pairs generalizing providersArray labelsArray with
  | nil => cases providersArray <;> simp [build, flattened]
  | cons pair pairs ih =>
    have cons : flattened (pair :: pairs) = some pair.1 :: some pair.2 :: flattened pairs := rfl
    cases providersArray with
    | nil => simp [build, cons]
    | cons provider providersArray =>
      rw [build, cons]
      cases labelsArray with
      | nil => simp
      | cons label labelsArray =>
        simp only [List.cons.injEq, Option.some.injEq, List.head?_cons, List.tail_cons, ih, List.map_cons,
          List.cons_prefix_cons, eq_comm (a := label)]
        tauto

/-- The pairs come back when of the providers, and of the labels, only the last is quoted and has its text told, and
a second label has found the flag of the quotes clear. A quoted element before the last one spoils the array
unless the next one is the comma and the quote that are read for it. -/
theorem labelsReturned (word : Text → Bool) (wrappedInQuotes antislash : Bool) (pairs : List (Text × Text)) :
    let providers := pairs.map Prod.fst
    let labels := pairs.map Prod.snd
    let returned := GetProviderLabelArray wrappedInQuotes antislash (array_out word providers) (array_out word labels) =
      flattened pairs
    let aligned := Aligned word providers ∧ Aligned word labels ∧ (2 ≤ pairs.length → wrappedInQuotes = false)
    (aligned → returned) ∧ (commaQuote ∉ providers → commaQuote ∉ labels → returned → aligned) := by
  intro providers labels returned aligned
  have whole : returned ↔
      (elements [] false (elements [] wrappedInQuotes antislash (printedList word labels)).2
        (printedList word providers)).1 = providers ∧
      labels <+: (elements [] wrappedInQuotes antislash (printedList word labels)).1 := by
    have some : (array_out word labels).isEmpty = false := rfl
    simp only [returned, GetProviderLabelArray, some, Bool.false_eq_true, if_false, insideOut, buildFlattened]
    rfl
  have length : labels.length = pairs.length := List.length_map _
  rw [whole]
  constructor
  · rintro ⟨first, second, initial⟩
    rw [← length] at initial
    exact ⟨alignedRead first fun _ => rfl, (alignedRead second initial).symm ▸ List.prefix_refl labels⟩
  · rintro ordinaryProviders ordinaryLabels ⟨first, second⟩
    have all : providers <+: (elements [] false (elements [] wrappedInQuotes antislash (printedList word labels)).2
        (printedList word providers)).1 := by rw [first]
    have providersAligned := readAligned ordinaryProviders all
    obtain ⟨labelsAligned, initial⟩ := readAligned ordinaryLabels second
    rw [length] at initial
    exact ⟨providersAligned.1, labelsAligned, initial⟩

/- The comma behind the first label is read as the start of the second one. -/
theorem quotedMisaligned : ¬ ∀ (word : Text → Bool) (wrappedInQuotes antislash : Bool) (pairs : List (Text × Text)),
    GetProviderLabelArray wrappedInQuotes antislash (array_out word (pairs.map Prod.fst))
      (array_out word (pairs.map Prod.snd)) = flattened pairs := by
  intro returned
  have read := returned (fun _ => false) false false [(['p'], ['a', ' ', 'b']), (['q'], ['c'])]
  exact absurd read (by decide)

end PgAdmin.providerLabels
