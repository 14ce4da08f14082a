import PgAdmin.PgFunctionArguments

/-! The names of the arguments, written by the server as an array and read back by cutting it at its commas. A
name comes back when the cutting leaves it as it entered it and it has no backslash. -/
namespace PgAdmin.pgFunction
open PgsObjects (Text)
open Substitution wxString misc Quoting

/- The name as it is written can be passed without a cut, and it has no backslash. -/
def NameFine (name : Text) : Prop := Clean (arrayElement name) ∧ '\\' ∉ name

instance (name : Text) : Decidable (NameFine name) := by unfold NameFine; infer_instance

def guarded (c : Char) : Text := if c = '"' ∨ c = '\\' then ['\\', c] else [c]

section Decode

theorem replaceCount (s : Text) : (replaceAll ['\\', '"'] ['"'] s).count ',' = s.count ',' := by
  induction hs : s.length using Nat.strong_induction_on generalizing s with
  | _ n ih =>
    subst hs
    cases s with
    | nil => rfl
    | cons c s =>
      by_cases hit : ['\\', '"'] <+: c :: s
      · obtain ⟨t, same⟩ := hit
        rw [← same, replaceAllHit (by simp), List.count_append, List.count_append, ih t.length _ t rfl]
        · rfl
        · rw [← same]
          simp
      · rw [replaceAllMiss hit, List.count_cons, List.count_cons, ih s.length (Nat.lt_succ_self _) s rfl]

theorem replaceLength (s : Text) : s.length ≤ (replaceAll ['\\', '"'] ['"'] s).length + s.count '"' := by
  induction hs : s.length using Nat.strong_induction_on generalizing s with
  | _ n ih =>
    subst hs
    cases s with
    | nil => exact Nat.zero_le _
    | cons c s =>
      by_cases hit : ['\\', '"'] <+: c :: s
      · obtain ⟨t, same⟩ := hit
        have shorter : t.length < (c :: s).length := by rw [← same]; simp
        have rest := ih t.length shorter t rfl
        rw [← same, replaceAllHit (by simp)]
        have count : (['\\', '"'] ++ t).count '"' = t.count '"' + 1 := by
          rw [List.count_append]
          exact Nat.add_comm ..
        rw [count]
        simp only [List.length_append, List.length_cons, List.length_nil]
        omega
      · have rest := ih s.length (Nat.lt_succ_self _) s rfl
        rw [replaceAllMiss hit, List.length_cons, List.length_cons]
        have more : s.count '"' ≤ (c :: s).count '"' := List.count_le_count_cons
        omega

theorem replaceGuarded {name : Text} (free : '\\' ∉ name) :
    replaceAll ['\\', '"'] ['"'] (name.flatMap guarded) = name := by
  induction name with
  | nil => rfl
  | cons c name ih =>
    rw [List.mem_cons, not_or] at free
    rw [List.flatMap_cons]
    by_cases quote : c = '"'
    · subst quote
      rw [show guarded '"' = ['\\', '"'] from rfl, replaceAllHit (by simp), ih free.2]
      rfl
    · have plain : guarded c = [c] := if_neg fun either => either.elim quote fun same => free.1 same.symm
      rw [plain, List.singleton_append, replaceAllMiss, ih free.2]
      intro hit
      exact free.1 (List.cons_prefix_cons.mp hit).1

theorem guardedLength (name : Text) :
    (name.flatMap guarded).length = name.length + name.count '"' + name.count '\\' := by
  induction name with
  | nil => rfl
  | cons c name ih =>
    rw [List.flatMap_cons, List.length_append, ih, List.count_cons, List.count_cons, List.length_cons, guarded]
    by_cases quote : c = '"'
    · subst quote
      simp
      omega
    · by_cases backslash : c = '\\'
      · subst backslash
        simp
        omega
      · simp [quote, backslash]
        omega

theorem guardedCount (name : Text) (c : Char) (other : c ≠ '\\') :
    (name.flatMap guarded).count c = name.count c := by
  induction name with
  | nil => rfl
  | cons d name ih =>
    rw [List.flatMap_cons, List.count_append, ih, List.count_cons, Nat.add_comm, guarded]
    split
    · rw [List.count_cons_of_ne fun same => other same.symm, List.count_singleton]
    · rw [List.count_singleton]

theorem quotedInner (inside : Text) :
    Mid ('"' :: inside ++ ['"']) 1 (('"' :: inside ++ ['"']).length - 2) = inside := by
  simp [Mid]

theorem elementShape (name : Text) : (arrayElement name = '"' :: name.flatMap guarded ++ ['"']) ∨
    (arrayElement name = name ∧ name ≠ [] ∧ ∀ c ∈ name, c ≠ '"' ∧ c ≠ '\\' ∧ c ≠ ',' ∧ isSpace c = false) := by
  rw [arrayElement]
  split
  · exact .inl rfl
  case isFalse plain =>
    simp only [not_or, Bool.not_eq_true, List.any_eq_false, Bool.or_eq_false_iff, decide_eq_false_iff_not] at plain
    refine .inr ⟨rfl, plain.1, fun c member => ?_⟩
    obtain ⟨⟨⟨⟨⟨quote, backslash⟩, -⟩, -⟩, comma⟩, space⟩ := plain.2.2 c member
    exact ⟨quote, backslash, comma, space⟩

theorem argNameElement (name : Text) : argName (arrayElement name) = name ↔ '\\' ∉ name := by
  rcases elementShape name with quoted | ⟨plain, some_, letters⟩
  · have decoded : argName (arrayElement name) = replaceAll ['\\', '"'] ['"'] (name.flatMap guarded) := by
      rw [quoted, argName, if_neg (by simp)]
      exact congrArg _ ((if_pos rfl).trans (quotedInner _))
    rw [decoded]
    refine ⟨fun same member => ?_, replaceGuarded⟩
    have longer := replaceLength (name.flatMap guarded)
    rw [same, guardedLength, guardedCount name '"' (by decide)] at longer
    have positive := List.count_pos_iff.mpr member
    omega
  · have free : '\\' ∉ name := fun member => (letters _ member).2.1 rfl
    have head : name.head? ≠ some '"' := fun here => (letters _ (List.mem_of_head? here)).1 rfl
    have same : replaceAll ['\\', '"'] ['"'] name = name := by
      have single : ∀ c ∈ name, guarded c = [c] := fun c member => if_neg fun either : c = '"' ∨ c = '\\' =>
        either.elim (letters c member).1 (letters c member).2.1
      have guardedSame : name.flatMap guarded = name :=
        (List.flatMap_congr single).trans (List.flatMap_singleton' name)
      exact (congrArg _ guardedSame.symm).trans (replaceGuarded free)
    exact ⟨fun _ => free, fun _ => by rw [plain, argName, if_neg some_, if_neg head, same]⟩

theorem argNameCommas (piece : Text) : (argName piece).count ',' ≤ piece.count ',' := by
  rw [argName]
  split
  · exact Nat.zero_le _
  · rw [replaceCount]
    split
    · exact ((List.take_sublist ..).trans (List.drop_sublist ..)).count_le _
    · exact le_rfl

theorem argNameKeeps (front : Text) (last : Char) : front.count ',' ≤ (argName (front ++ [last])).count ',' := by
  rw [argName, if_neg (by simp), replaceCount]
  split
  case isTrue quote =>
    cases front with
    | nil => exact Nat.zero_le _
    | cons c front =>
      have same : c = '"' := Option.some.inj quote
      have middle : Mid (c :: front ++ [last]) 1 ((c :: front ++ [last]).length - 2) = front := by
        simp [Mid]
      rw [middle, same, List.count_cons_of_ne (by decide)]
  case isFalse => rw [List.count_append]; exact Nat.le_add_right ..

theorem elementCommas (name : Text) : (arrayElement name).count ',' = name.count ',' := by
  rcases elementShape name with quoted | ⟨plain, -⟩
  · rw [quoted, List.count_append, List.count_cons_of_ne (by decide), guardedCount name ',' (by decide)]
    rfl
  · rw [plain]

theorem elementEnds (name : Text) : ∃ c rest, arrayElement name = c :: rest ∧ isSpace c = false ∧ c ≠ ',' ∧
    ∀ l ∈ (arrayElement name).getLast?, isSpace l = false := by
  rcases elementShape name with quoted | ⟨plain, some_, letters⟩
  · refine ⟨'"', name.flatMap guarded ++ ['"'], quoted, by decide, by decide, fun l last => ?_⟩
    rw [quoted, List.getLast?_concat] at last
    cases last
    decide
  · obtain ⟨c, rest, rfl⟩ := List.exists_cons_of_ne_nil some_
    obtain ⟨-, -, comma, space⟩ := letters c List.mem_cons_self
    exact ⟨c, rest, plain, space, comma, fun l last => (letters l (plain ▸ List.mem_of_getLast? last)).2.2.2⟩

end Decode

section Trim
variable {w : Text} {c : Char} {rest : Text}

theorem trimKept (starts : w = c :: rest) (space : isSpace c = false) (last : ∀ l ∈ w.getLast?, isSpace l = false) :
    trimBoth w = w := by
  have right : Trim w = w := by
    rw [Trim, List.rdropWhile_eq_self_iff]
    intro nonempty
    rw [last _ (List.getLast?_eq_getLast_of_ne_nil nonempty)]
    decide
  rw [trimBoth, right, starts, List.dropWhile_cons_of_neg (by rw [space]; decide)]

theorem trimReaches (front : Text) {e : Char} (ink : isSpace e = false) (s : Text) (starts : front = c :: rest)
    (space : isSpace c = false) : ∃ s', trimBoth (front ++ e :: s) = front ++ e :: s' := by
  have right : ∃ s', Trim (front ++ e :: s) = front ++ e :: s' := by
    induction s using List.reverseRecOn with
    | nil => exact ⟨[], (List.rdropWhile_concat_neg _ _ _ (by rw [ink]; decide))⟩
    | append_singleton s l ih =>
      have text : front ++ e :: (s ++ [l]) = (front ++ e :: s) ++ [l] := by simp
      rw [text, Trim]
      by_cases blank : isSpace l = true
      · rw [List.rdropWhile_concat_pos _ _ _ blank]
        exact ih
      · rw [List.rdropWhile_concat_neg _ _ _ blank]
        exact ⟨s ++ [l], text.symm⟩
  obtain ⟨s', kept⟩ := right
  refine ⟨s', ?_⟩
  rw [trimBoth, kept, starts, List.cons_append, List.dropWhile_cons_of_neg (by rw [space]; decide)]

end Trim

theorem elementTrim (name : Text) : trimBoth (arrayElement name) = arrayElement name := by
  obtain ⟨c, rest, starts, space, -, last⟩ := elementEnds name
  exact trimKept starts space last

def firstNames : ℕ → List Text → List Text
  | 0, _ => []
  | n + 1, names => argName (names.headD []) :: firstNames n names.tail

theorem uncleanName {name : Text} (unclean : ¬ Clean (arrayElement name)) (later : List Text) :
    argName ((cut out [] (arrayElement name ++
      (later.map arrayElement).flatMap (',' :: ·))).2.headD []) ≠ name := by
  intro same
  have nonempty : name ≠ [] := by
    rintro rfl
    exact unclean (by decide)
  cases through : scan out (arrayElement name) with
  | none =>
    obtain ⟨before, after, split, until_⟩ := scanCut through
    rw [split, List.append_assoc, List.cons_append, cutScan until_, cutComma] at same
    have commas := argNameCommas (trimBoth ([] ++ before))
    rw [List.headD_cons] at same
    rw [same, trimCount, ← elementCommas, split, List.nil_append, List.count_append, List.count_cons_self] at commas
    omega
  | some q =>
    have open_ : q ≠ out := fun closed => unclean (by rw [Clean, through, closed])
    rw [cutScan through] at same
    cases later with
    | nil =>
      rw [List.map_nil, List.flatMap_nil, cut, if_neg open_] at same
      exact nonempty same.symm
    | cons v later =>
      obtain ⟨e, rest, begins, ink, comma, -⟩ := elementEnds v
      obtain ⟨c, tail, starts, space, -⟩ := elementEnds name
      have text : ((v :: later).map arrayElement).flatMap (',' :: ·) =
          ',' :: e :: (rest ++ (later.map arrayElement).flatMap (',' :: ·)) := by
        rw [List.map_cons, List.flatMap_cons, begins]
        rfl
      have onward : ¬ (q.turn ',' = out ∧ e = ',') := fun both => comma both.2
      rw [text, cut, if_neg fun both => open_ both.1, cut, if_neg onward] at same
      rcases cutHead ((q.turn ',').turn e) ([] ++ arrayElement name ++ [','] ++ [e])
        (rest ++ (later.map arrayElement).flatMap (',' :: ·)) with none | ⟨s, -, head⟩
      · rw [none] at same
        exact nonempty same.symm
      · obtain ⟨s', kept⟩ := trimReaches (arrayElement name ++ [',']) ink s (by rw [starts]; rfl) space
        obtain ⟨middle, l, ended⟩ : ∃ middle l, e :: s' = middle ++ [l] :=
          ⟨_, _, (List.dropLast_append_getLast (List.cons_ne_nil e s')).symm⟩
        have piece : trimBoth ([] ++ arrayElement name ++ [','] ++ [e] ++ s) =
            (arrayElement name ++ [','] ++ middle) ++ [l] := by
          rw [List.append_assoc _ middle, ← ended, ← kept]
          simp
        rw [List.headD_eq_head?_getD, head, piece] at same
        have commas := argNameKeeps (arrayElement name ++ [','] ++ middle) l
        rw [Option.getD_some] at same
        rw [same, ← elementCommas name, List.count_append, List.count_append] at commas
        have one : [','].count ',' = 1 := rfl
        omega

theorem namesRead (names later : List Text) (head : Text) (tail : List Text)
    (all : names ++ later = head :: tail) :
    firstNames names.length (cut out [] (arrayElement head ++
      (tail.map arrayElement).flatMap (',' :: ·))).2 = names ↔ ∀ name ∈ names, NameFine name := by
  induction names generalizing head tail with
  | nil => simp [firstNames]
  | cons name names ih =>
    obtain ⟨rfl, following⟩ : name = head ∧ names ++ later = tail := List.cons.inj all
    rw [List.length_cons, firstNames, List.cons_eq_cons, List.forall_mem_cons]
    by_cases clean : Clean (arrayElement name)
    · have first : NameFine name ↔ argName (arrayElement name) = name := by
        rw [argNameElement]
        exact ⟨And.right, fun free => ⟨clean, free⟩⟩
      rw [cutClean clean]
      cases tail with
      | nil =>
        obtain ⟨rfl, -⟩ := List.append_eq_nil_iff.mp following
        simp [first, elementTrim, firstNames]
      | cons v vs =>
        rw [first, ← ih v vs following]
        simp [elementTrim]
    · constructor
      · intro same
        exact absurd same.1 (uncleanName clean _)
      · intro fine
        exact absurd fine.1.1 clean

end PgAdmin.pgFunction
