import PgAdmin.PgsExecute

/-! The loop of pgsExecute::eval against one reading of the template. -/
namespace PgAdmin.PgsObjects.PgsExecute
open Substitution Regular wxRegEx

variable {σ : Type} {host : Host σ} {vars : PgsVarMap}

section Inserting

def inserted (found value : Text) : Text :=
  value.flatMap fun c => if c = '\'' then ['\'', '\''] else if c = '&' then found else [c]

def kept (found : Text) (b : Char) : Text := if b = '&' then found else [b]

theorem escapeQuotesCons (c : Char) (value : Text) : PgsUtilities.escapeQuotes (c :: value) =
    (if c = '\\' then ['\\', '\\'] else if c = '\'' then ['\'', '\''] else [c]) ++ PgsUtilities.escapeQuotes value := by
  simp only [PgsUtilities.escapeQuotes, replaceLetter, List.flatMap_cons, List.flatMap_append]
  split_ifs with backslash quote <;> simp [*]

theorem expandEscaped (group : ℕ → Text) (value : Text) :
    expand group (PgsUtilities.escapeQuotes value) = inserted (group 0) value := by
  induction value with
  | nil => simp [PgsUtilities.escapeQuotes, inserted, expand]
  | cons c value ih =>
    rw [escapeQuotesCons, inserted, List.flatMap_cons, ← inserted, ← ih]
    split_ifs with backslash quote match_ quote match_
    · exact absurd (backslash.symm.trans quote) (by simp)
    · exact absurd (backslash.symm.trans match_) (by simp)
    · rw [backslash]
      exact expandBackslash _
    · simp [expandLetter]
    · rw [match_]
      exact expandMatch _
    · exact expandLetter backslash match_ _

theorem expandKept {group : ℕ → Text} {b : Char} (other : b ≠ '\\') (rest : Text) :
    expand group (b :: rest) = kept (group 0) b ++ expand group rest := by
  unfold kept
  split_ifs with match_
  · rw [match_]
    exact expandMatch rest
  · exact expandLetter other match_ rest

end Inserting

section Turns
variable {stmt front after : Text} {b : Char} {name : Text}

theorem turnValue (other : b ≠ '\\') (search : identifier.search stmt = some (front, b :: name, after)) {v : Variable}
    (known : vars name = some v) (fuel : ℕ) (s : σ) : substitute host vars (fuel + 1) stmt s =
      substitute host vars fuel
        (front ++ (kept (b :: name) b ++ inserted (b :: name) ((v.value host).run s).1) ++ after)
        ((v.value host).run s).2 := by
  have value : vars (identifierGroup (b :: name) 2) = some v := known
  have text (res : Text) : expand (identifierGroup (b :: name)) (identifierGroup (b :: name) 1 ++
      PgsUtilities.escapeQuotes res) = kept (b :: name) b ++ inserted (b :: name) res :=
    (expandKept other _).trans (congrArg _ (expandEscaped _ res))
  cases ran : (v.value host).run s with
  | mk res s' => simp only [substitute, search, value, ReplaceFirst, text, ran]

theorem turnUnknown (other : b ≠ '\\') (search : identifier.search stmt = some (front, b :: name, after))
    (plain : ∀ c ∈ name, c ≠ '\\' ∧ c ≠ '&') (unknown : vars name = none) (fuel : ℕ) (s : σ) :
    substitute host vars (fuel + 1) stmt s =
      substitute host vars fuel (front ++ (kept (b :: name) b ++ '\\' :: name) ++ after) s := by
  have none_ : vars (identifierGroup (b :: name) 2) = none := unknown
  have text : expand (identifierGroup (b :: name)) (identifierGroup (b :: name) 1 ++ "\\\\".toList ++
      identifierGroup (b :: name) 2) = kept (b :: name) b ++ '\\' :: name := by
    have rest : expand (identifierGroup (b :: name)) ("\\\\".toList ++ name) = '\\' :: name := by
      refine (expandBackslash name).trans ?_
      rw [expandPlain plain]
    rw [← rest]
    exact expandKept other _
  simp only [substitute, search, none_, ReplaceFirst, text]

theorem turnLast (search : identifier.search stmt = none) (fuel : ℕ) (s : σ) :
    substitute host vars (fuel + 1) stmt s = some (stmt, s) := by
  simp only [substitute, search]

theorem namePlain (letters : ∀ c ∈ name, nameLetter c) : ∀ c ∈ '@' :: name, c ≠ '\\' ∧ c ≠ '&' := by
  intro c mem
  have letter : nameLetter c := by
    rcases List.mem_cons.mp mem with rfl | mem
    · rfl
    · exact letters c mem
  exact ⟨fun same => by simp [same, nameLetter] at letter, fun same => by simp [same, nameLetter] at letter⟩

end Turns

section Past

def Past (done rest : Text) : Prop := ∀ i, MatchAt (done ++ rest) i → done.length ≤ i + 1

/- A value in which nothing is read again, neither as a name nor as an escape nor as a part of the match. -/
structure Calm (value : Text) : Prop where
  noMatch : '&' ∉ value
  apart : value.IsChain fun a b => (a = '@' → nameLetter b = false) ∧ (a = '\\' → b ≠ '@' ∧ b ≠ '\\')
  ends : value.getLast? ≠ some '\\'

variable {front done rest after value : Text} {b c : Char} {name : Text}

theorem pastStart (query : Text) : Past [] query := fun _ _ => Nat.zero_le _

theorem pastEnd (past : Past done []) (i : ℕ) : ¬ MatchAt done i := by
  rintro ⟨c, n, first, other, second, third, letter⟩
  have inside : i + 2 < done.length := (List.getElem?_eq_some_iff.mp third).1
  have bound := past i ⟨c, n, by simpa using first, other, by simpa using second, by simpa using third, letter⟩
  omega

theorem pastLetter (past : Past done (c :: rest)) (none_ : nameAt done.getLast? (c :: rest) = none) :
    Past (done ++ [c]) rest := by
  intro i found
  rw [List.append_assoc, List.singleton_append] at found
  have bound := past i found
  rw [List.length_append, List.length_singleton]
  refine Nat.succ_le_succ (Nat.le_of_lt_succ (lt_of_le_of_ne bound fun same => ?_))
  obtain ⟨b, n, first, other, second, third, letter⟩ := found
  have last : done.getLast? = some b := by
    rw [List.getLast?_eq_getElem?, ← first, show done.length - 1 = i by omega, List.getElem?_append_left (by omega)]
  rw [List.getElem?_append_right (by omega), same, Nat.sub_self] at second
  rw [List.getElem?_append_right (by omega), same, show i + 2 - (i + 1) = 1 by omega] at third
  obtain ⟨more, rfl⟩ : ∃ more, rest = n :: more := by
    cases rest with
    | nil => simp at third
    | cons d more => exact ⟨more, by simpa using third⟩
  have at_ : c = '@' := by simpa using second
  rw [last, at_, nameAt, if_pos ⟨other, by simp [letter]⟩] at none_
  contradiction

theorem pastPut (past : Past (front ++ [b]) ('@' :: rest)) (put : Text)
    (apart : ∀ j c n, (b :: put)[j]? = some c → c ≠ '\\' → put[j]? = some '@' → (put ++ after)[j + 1]? = some n →
      nameLetter n = false) : Past (front ++ [b] ++ put) after := by
  rintro i ⟨c, n, first, other, second, third, letter⟩
  by_contra small
  simp only [List.length_append, List.length_singleton] at small
  have shape : front ++ [b] ++ put ++ after = front ++ (b :: (put ++ after)) := by simp
  have before : front ++ [b] ++ '@' :: rest = front ++ (b :: '@' :: rest) := by simp
  rw [shape] at first second third
  rcases Nat.lt_or_ge i front.length with within | behind
  · have same (k : ℕ) (inside : k ≤ front.length) : (front ++ (b :: '@' :: rest))[k]? =
        (front ++ (b :: (put ++ after)))[k]? := by
      rcases Nat.lt_or_ge k front.length with within | at_
      · rw [List.getElem?_append_left within, List.getElem?_append_left within]
      · rw [show k = front.length by omega]
        simp
    have found : ∃ n, (front ++ (b :: '@' :: rest))[i + 2]? = some n ∧ nameLetter n := by
      rcases Nat.lt_or_ge (i + 1) front.length with within | at_
      · exact ⟨n, (same (i + 2) within).trans third, letter⟩
      · refine ⟨'@', ?_, rfl⟩
        rw [show i + 2 = front.length + 1 by omega]
        simp
    obtain ⟨n, third, letter⟩ := found
    have bound := past i
    rw [before] at bound
    have bound := bound ⟨c, n, (same i within.le).trans first, other, (same (i + 1) within).trans second, third, letter⟩
    simp only [List.length_append, List.length_singleton] at bound
    omega
  · obtain ⟨j, rfl⟩ := Nat.exists_eq_add_of_le behind
    have place (k : ℕ) : (front ++ (b :: (put ++ after)))[front.length + k]? = (b :: (put ++ after))[k]? := by
      rw [List.getElem?_append_right (by omega), Nat.add_sub_cancel_left]
    have inside : j < put.length := by omega
    rw [place] at first
    rw [Nat.add_assoc, place, List.getElem?_cons_succ] at second third
    rw [List.getElem?_append_left inside] at second
    rw [← List.cons_append, List.getElem?_append_left (by simp; omega)] at first
    have not := apart j c n first other second third
    rw [not] at letter
    contradiction

theorem calmNext (calm : Calm value) {j : ℕ} {a d : Char} (first : value[j]? = some a)
    (second : value[j + 1]? = some d) : (a = '@' → nameLetter d = false) ∧ (a = '\\' → d ≠ '@' ∧ d ≠ '\\') := by
  obtain ⟨inside, rfl⟩ := List.getElem?_eq_some_iff.mp second
  obtain ⟨_, rfl⟩ := List.getElem?_eq_some_iff.mp first
  exact List.isChain_iff_getElem.mp calm.apart j inside

theorem pastValue (past : Past (front ++ [b]) ('@' :: rest)) (calm : Calm value) (stops : Stops after) :
    Past (front ++ [b] ++ value) after := by
  refine pastPut past value fun j c n _ _ at_ next => ?_
  rcases Nat.lt_or_ge (j + 1) value.length with inside | end_
  · rw [List.getElem?_append_left inside] at next
    exact (calmNext calm at_ next).1 rfl
  · have last : j + 1 = value.length := le_antisymm (List.getElem?_eq_some_iff.mp at_).1 end_
    rw [List.getElem?_append_right end_, last, Nat.sub_self, ← List.head?_eq_getElem?] at next
    exact stops n next

theorem pastUnknown (past : Past (front ++ [b]) ('@' :: rest)) : Past (front ++ [b] ++ ['\\', '@']) after := by
  refine pastPut past ['\\', '@'] fun j c n first other at_ _ => ?_
  match j with
  | 0 => simp at at_
  | 1 => exact absurd (Option.some.inj first).symm other
  | j + 2 => simp at at_

end Past

section Doubling

theorem calmCons {c : Char} {value : Text} (calm : Calm (c :: value)) : c ≠ '&' ∧ Calm value := by
  refine ⟨fun same => calm.noMatch (by simp [same]), fun mem => calm.noMatch (List.mem_cons_of_mem c mem),
    calm.apart.of_cons, fun last => calm.ends ?_⟩
  cases value with
  | nil => simp at last
  | cons d value => simpa using last

theorem doubledCons (c : Char) (value : Text) :
    doubled (c :: value) = (if c = '\'' then ['\'', '\''] else [c]) ++ doubled value := List.flatMap_cons

theorem insertedCalm {found value : Text} (calm : Calm value) : inserted found value = doubled value := by
  induction value with
  | nil => rfl
  | cons c value ih =>
    obtain ⟨other, rest⟩ := calmCons calm
    rw [inserted, List.flatMap_cons, ← inserted, ih rest, doubledCons, if_neg other]

theorem doubledHead (value : Text) : (doubled value).head? = value.head? := by
  cases value with
  | nil => rfl
  | cons c value =>
    rw [doubledCons]
    split_ifs with quote <;> simp [quote]

theorem doubledLast (value : Text) : (doubled value).getLast? = value.getLast? := by
  induction value with
  | nil => rfl
  | cons c value ih =>
    rw [doubledCons, List.getLast?_append, ih, List.getLast?_cons]
    cases value.getLast? <;> split_ifs with quote <;> simp [quote]

theorem calmDoubled {value : Text} (calm : Calm value) : Calm (doubled value) := by
  have ends : (doubled value).getLast? ≠ some '\\' := by
    rw [doubledLast]
    exact calm.ends
  suffices h : '&' ∉ doubled value ∧ (doubled value).IsChain fun a b =>
      (a = '@' → nameLetter b = false) ∧ (a = '\\' → b ≠ '@' ∧ b ≠ '\\') from ⟨h.1, h.2, ends⟩
  clear ends
  induction value with
  | nil => exact ⟨by simp [doubled], by simp [doubled]⟩
  | cons c value ih =>
    obtain ⟨other, rest⟩ := calmCons calm
    obtain ⟨noMatch, apart⟩ := ih rest
    rw [doubledCons]
    split_ifs with quote
    · refine ⟨by simp [noMatch], ?_⟩
      simp only [List.cons_append, List.nil_append, List.isChain_cons]
      exact ⟨by simp, by simp, apart⟩
    · refine ⟨by simp [noMatch, Ne.symm other], ?_⟩
      rw [List.singleton_append, List.isChain_cons]
      refine ⟨fun d head => ?_, apart⟩
      rw [doubledHead] at head
      exact (List.isChain_cons.mp calm.apart).1 d head

end Doubling

section Reading

/- What one reading of a text comes to, piece by piece. -/
inductive Reads (host : Host σ) (vars : PgsVarMap) : Option Char → Text → σ → List Piece → σ → Prop where
  | nil (before : Option Char) (s : σ) : Reads host vars before [] s [] s
  | value {b : Char} {name after : Text} {v : Variable} {s last : σ} {pieces : List Piece} (other : b ≠ '\\')
      (nonempty : name ≠ []) (letters : ∀ d ∈ name, nameLetter d) (stops : Stops after)
      (known : vars ('@' :: name) = some v)
      (more : ∀ before, Reads host vars before after ((v.value host).run s).2 pieces last) :
      Reads host vars (some b) ('@' :: name ++ after) s (.value b ((v.value host).run s).1 :: pieces) last
  | unknown {b : Char} {name after : Text} {s last : σ} {pieces : List Piece} (other : b ≠ '\\')
      (nonempty : name ≠ []) (letters : ∀ d ∈ name, nameLetter d) (stops : Stops after)
      (none_ : vars ('@' :: name) = none) (more : Reads host vars (some '@') (name ++ after) s pieces last) :
      Reads host vars (some b) ('@' :: name ++ after) s (.unknown b :: pieces) last
  | escape {before : Option Char} {d : Char} {rest : Text} {s last : σ} {pieces : List Piece}
      (escapes : d = '@' ∨ d = '\\') (more : Reads host vars (some d) rest s pieces last) :
      Reads host vars before ('\\' :: d :: rest) s (.escape d :: pieces) last
  | letter {before : Option Char} {c : Char} {rest : Text} {s last : σ} {pieces : List Piece}
      (none_ : nameAt before (c :: rest) = none) (plain : c = '\\' → rest.head? ≠ some '@' ∧ rest.head? ≠ some '\\')
      (more : Reads host vars (some c) rest s pieces last) :
      Reads host vars before (c :: rest) s (.letter c :: pieces) last

theorem readSkip (before : Option Char) (skip : ℕ) (text : Text) (s : σ) :
    read host vars before skip text s = read host vars before 0 (text.drop skip) s := by
  induction text generalizing skip with
  | nil => cases skip <;> simp [read]
  | cons c text ih =>
    cases skip with
    | zero => rfl
    | succ skip => exact ih skip

theorem readBefore {text : Text} (noName : text.head? ≠ some '@') (before other : Option Char) (s : σ) :
    read host vars before 0 text s = read host vars other 0 text s := by
  cases text with
  | nil => rfl
  | cons c text =>
    have none_ (before : Option Char) : nameAt before (c :: text) = none := by
      unfold nameAt
      split
      · rename_i same
        cases same
        exact absurd rfl noName
      · rfl
    simp only [read, none_]

theorem nameAtSome {before : Option Char} {text name : Text} {b : Char} (named : nameAt before text = some (b, name)) :
    ∃ letters after, before = some b ∧ b ≠ '\\' ∧ text = '@' :: letters ++ after ∧ name = '@' :: letters ∧
      letters ≠ [] ∧ (∀ d ∈ letters, nameLetter d) ∧ Stops after := by
  unfold nameAt at named
  split at named
  · rename_i b' rest
    split_ifs at named with both
    cases named
    exact ⟨rest.takeWhile nameLetter, rest.dropWhile nameLetter, rfl, both.1, by simp, rfl, both.2, takenLetters rest,
      droppedStops rest⟩
  · contradiction

theorem escapeAtSome {text : Text} {d : Char} (escape : escapeAt text = some d) :
    (d = '@' ∨ d = '\\') ∧ ∃ rest, text = '\\' :: d :: rest := by
  unfold escapeAt at escape
  split at escape
  · cases escape
    exact ⟨.inl rfl, _, rfl⟩
  · cases escape
    exact ⟨.inr rfl, _, rfl⟩
  · contradiction

theorem escapeAtNone {c : Char} {rest : Text} (none_ : escapeAt (c :: rest) = none) :
    c = '\\' → rest.head? ≠ some '@' ∧ rest.head? ≠ some '\\' := by
  rintro rfl
  cases rest with
  | nil => simp
  | cons d rest =>
    refine ⟨fun head => ?_, fun head => ?_⟩
    · cases head
      simp [escapeAt] at none_
    · cases head
      simp [escapeAt] at none_

theorem readReads (host : Host σ) (vars : PgsVarMap) (before : Option Char) (text : Text) (s : σ) :
    Reads host vars before text s (read host vars before 0 text s).1 (read host vars before 0 text s).2 := by
  induction length : text.length using Nat.strong_induction_on generalizing before text s with
  | _ n ih =>
    subst length
    cases text with
    | nil => exact .nil before s
    | cons c rest =>
      rw [read]
      cases named : nameAt before (c :: rest) with
      | some found =>
        obtain ⟨b, name⟩ := found
        obtain ⟨letters, after, rfl, other, shape, rfl, nonempty, all, stops⟩ := nameAtSome named
        rw [List.cons_append, List.cons.injEq] at shape
        obtain ⟨rfl, rfl⟩ := shape
        have shorter : after.length < ('@' :: (letters ++ after)).length := by
          simp only [List.length_append, List.length_cons]
          omega
        cases known : vars ('@' :: letters) with
        | some v =>
          have noName : after.head? ≠ some '@' := fun head => absurd (stops '@' head) (by decide)
          have skip (s : σ) : read host vars (some b) (('@' :: letters).length - 1) (letters ++ after) s =
              read host vars (some b) 0 after s := by
            rw [readSkip]
            simp
          have more (before : Option Char) : Reads host vars before after ((v.value host).run s).2
              (read host vars (some b) 0 after ((v.value host).run s).2).1
              (read host vars (some b) 0 after ((v.value host).run s).2).2 := by
            rw [readBefore noName (some b) before]
            exact ih _ shorter before after _ rfl
          have whole := Reads.value other nonempty all stops known more
          cases ran : (v.value host).run s with
          | mk res s' =>
            rw [ran] at whole
            simp only [known, ran, skip]
            exact whole
        | none =>
          simp only [known]
          exact .unknown other nonempty all stops known (ih _ (by simp) _ _ _ rfl)
      | none =>
        cases escape : escapeAt (c :: rest) with
        | some d =>
          obtain ⟨escapes, rest', shape⟩ := escapeAtSome escape
          cases shape
          exact .escape escapes (ih _ (by simp) _ _ _ rfl)
        | none =>
          exact .letter named (escapeAtNone escape) (ih _ (by simp) _ _ _ rfl)

end Reading

section Loop

def Piece.raw : Piece → Text
  | letter c => [c]
  | escape c => ['\\', c]
  | value _ text => doubled text
  | unknown _ => ['\\', '@']

def Piece.Tame : Piece → Prop
  | letter _ => True
  | escape _ => True
  | value before text => before ≠ '&' ∧ Calm text
  | unknown before => before ≠ '&'

def Piece.Stuck : Piece → Prop
  | letter _ => False
  | escape _ => False
  | value before _ => before = '&'
  | unknown before => before = '&'

theorem lastSplit {done : Text} {b : Char} (last : done.getLast? = some b) : ∃ front, done = front ++ [b] :=
  List.getLast?_eq_some_iff.mp last

theorem searchPast {front after : Text} {b : Char} {name : Text} (past : Past (front ++ [b]) ('@' :: name ++ after))
    (other : b ≠ '\\') (nonempty : name ≠ []) (letters : ∀ d ∈ name, nameLetter d) (stops : Stops after) :
    identifier.search (front ++ [b] ++ ('@' :: name ++ after)) = some (front, b :: '@' :: name, after) := by
  have shape : front ++ [b] ++ ('@' :: name ++ after) = front ++ (b :: '@' :: name) ++ after := by simp
  rw [shape]
  refine searchFound front other nonempty letters stops fun i found => ?_
  have bound := past i (by rwa [shape])
  rw [List.length_append, List.length_singleton] at bound
  omega

theorem nameAtBackslash (text : Text) : nameAt (some '\\') text = none := by
  unfold nameAt
  split
  · rename_i same
    cases same
    exact if_neg fun both => both.1 rfl
  · rfl

theorem pastEscape {done rest : Text} {d : Char} (past : Past done ('\\' :: d :: rest)) :
    Past (done ++ ['\\', d]) rest := by
  have first := pastLetter past (by cases done.getLast? <;> rfl)
  have second := pastLetter first (by simpa using nameAtBackslash _)
  simpa using second

theorem substituteReads {before : Option Char} {rest : Text} {s last : σ} {pieces : List Piece}
    (reads : Reads host vars before rest s pieces last) (tame : ∀ p ∈ pieces, p.Tame) {done : Text}
    (same : done.getLast? = before) (past : Past done rest) {fuel : ℕ} (enough : rest.count '@' < fuel) :
    substitute host vars fuel (done ++ rest) s = some (done ++ pieces.flatMap Piece.raw, last) := by
  induction reads generalizing done fuel with
  | nil before s =>
    obtain ⟨fuel, rfl⟩ := Nat.exists_eq_succ_of_ne_zero (Nat.ne_zero_of_lt enough)
    rw [List.flatMap_nil, List.append_nil]
    exact turnLast (searchNothing (pastEnd past)) fuel s
  | @value b name after v s last pieces other nonempty letters stops known more ih =>
    obtain ⟨fuel, rfl⟩ := Nat.exists_eq_succ_of_ne_zero (Nat.ne_zero_of_lt enough)
    obtain ⟨front, rfl⟩ := lastSplit same
    obtain ⟨noMatch, calm⟩ := tame _ List.mem_cons_self
    have next := ih _ (fun p mem => tame p (List.mem_cons_of_mem _ mem)) rfl (pastValue past (calmDoubled calm) stops)
      (show after.count '@' < fuel by simp at enough; omega)
    rw [turnValue other (searchPast past other nonempty letters stops) known, insertedCalm calm, kept, if_neg noMatch]
    simpa [Piece.raw] using next
  | @unknown b name after s last pieces other nonempty letters stops none_ more ih =>
    obtain ⟨fuel, rfl⟩ := Nat.exists_eq_succ_of_ne_zero (Nat.ne_zero_of_lt enough)
    obtain ⟨front, rfl⟩ := lastSplit same
    have noMatch : b ≠ '&' := tame _ List.mem_cons_self
    have next := ih (fun p mem => tame p (List.mem_cons_of_mem _ mem)) (by simp) (pastUnknown past)
      (show (name ++ after).count '@' < fuel by simp at enough ⊢; omega)
    rw [turnUnknown other (searchPast past other nonempty letters stops) (namePlain letters) none_, kept,
      if_neg noMatch]
    simpa [Piece.raw] using next
  | @escape before d rest s last pieces escapes more ih =>
    have next := ih (fun p mem => tame p (List.mem_cons_of_mem _ mem)) (by simp) (pastEscape past)
      (show rest.count '@' < fuel by simp [List.count_cons] at enough; omega)
    simpa [Piece.raw] using next
  | @letter before c rest s last pieces none_ plain more ih =>
    have next := ih (fun p mem => tame p (List.mem_cons_of_mem _ mem)) (by simp) (pastLetter past (same ▸ none_))
      (show rest.count '@' < fuel by simp [List.count_cons] at enough; omega)
    simpa [Piece.raw] using next

end Loop

section Unescaping

def unescape : Text → Text
  | [] => []
  | '\\' :: '@' :: rest => '@' :: unescape rest
  | '\\' :: '\\' :: rest => '\\' :: unescape rest
  | c :: rest => c :: unescape rest

theorem escapedIff (w : Text) : w ∈ escaped.language ↔ w = ['\\', '@'] ∨ w = ['\\', '\\'] := by
  unfold escaped
  simp only [language]
  constructor
  · rintro ⟨_, ⟨_, backslash, rfl⟩, _, ⟨_, at_, rfl⟩ | ⟨_, at_, rfl⟩, rfl⟩
    · simp only [decide_eq_true_eq] at backslash at_
      simp [backslash, at_]
    · simp only [decide_eq_true_eq] at backslash at_
      simp [backslash, at_]
  · rintro (rfl | rfl)
    · exact ⟨['\\'], ⟨'\\', by simp, rfl⟩, ['@'], .inl ⟨'@', by simp, rfl⟩, rfl⟩
    · exact ⟨['\\'], ⟨'\\', by simp, rfl⟩, ['\\'], .inr ⟨'\\', by simp, rfl⟩, rfl⟩

theorem escapedHere {d : Char} (escapes : d = '@' ∨ d = '\\') (rest : Text) :
    escaped.longest (['\\', d] ++ rest) = some 2 := by
  refine longestOf ((escapedIff _).mpr ?_) fun w _ member => ?_
  · rcases escapes with rfl | rfl <;> simp
  · rcases (escapedIff w).mp member with rfl | rfl <;> simp

theorem escapedNot {c : Char} {rest : Text} (plain : c = '\\' → rest.head? ≠ some '@' ∧ rest.head? ≠ some '\\') :
    escaped.longest (c :: rest) = none := by
  refine longestNone.mpr fun w before member => ?_
  rcases (escapedIff w).mp member with rfl | rfl
  · obtain ⟨same, after⟩ := List.cons_prefix_cons.mp before
    obtain ⟨more, rfl⟩ := after
    exact (plain same.symm).1 rfl
  · obtain ⟨same, after⟩ := List.cons_prefix_cons.mp before
    obtain ⟨more, rfl⟩ := after
    exact (plain same.symm).2 rfl

theorem unescapeLetter {c : Char} {rest : Text}
    (plain : c = '\\' → rest.head? ≠ some '@' ∧ rest.head? ≠ some '\\') :
    unescape (c :: rest) = c :: unescape rest := by
  rw [unescape]
  · rintro more rfl rfl
    simp at plain
  · rintro more rfl rfl
    simp at plain

theorem replaceEscape {d : Char} (escapes : d = '@' ∨ d = '\\') (rest : Text) (n : ℕ) :
    replaceUpTo escaped escapedGroup "\\1".toList (n + 1) ('\\' :: d :: rest) =
      d :: replaceUpTo escaped escapedGroup "\\1".toList n rest := by
  refine (replaceHere (escapedHere escapes rest) (by simp) n).trans ?_
  rw [expandFirst]
  rfl

theorem replaceUnescapes (text : Text) {n : ℕ} (enough : text.length ≤ n) :
    replaceUpTo escaped escapedGroup "\\1".toList n text = unescape text := by
  induction text using unescape.induct generalizing n with
  | case1 => cases n <;> rfl
  | case2 rest ih =>
    obtain ⟨n, rfl⟩ := Nat.exists_eq_add_of_le' (Nat.le_trans (Nat.le_add_left 1 _) enough)
    rw [replaceEscape (.inl rfl), unescape, ih (by simp at enough; omega)]
  | case3 rest ih =>
    obtain ⟨n, rfl⟩ := Nat.exists_eq_add_of_le' (Nat.le_trans (Nat.le_add_left 1 _) enough)
    rw [replaceEscape (.inr rfl), unescape, ih (by simp at enough; omega)]
  | case4 c rest noAt noBackslash ih =>
    have plain : c = '\\' → rest.head? ≠ some '@' ∧ rest.head? ≠ some '\\' := by
      rintro rfl
      cases rest with
      | nil => simp
      | cons d rest => exact ⟨fun head => noAt rest rfl (by simpa using head),
          fun head => noBackslash rest rfl (by simpa using head)⟩
    rw [replaceLater (escapedNot plain), unescapeLetter plain, ih (by simp at enough; omega)]

theorem unescapeCalm {value : Text} (calm : Calm value) (rest : Text) :
    unescape (value ++ rest) = value ++ unescape rest := by
  induction value with
  | nil => rfl
  | cons c value ih =>
    rw [List.cons_append, unescapeLetter, ih (calmCons calm).2, List.cons_append]
    rintro rfl
    cases value with
    | nil => exact absurd rfl calm.ends
    | cons d value =>
      have apart := ((List.isChain_cons.mp calm.apart).1 d rfl).2 rfl
      exact ⟨fun same => apart.1 (Option.some.inj same), fun same => apart.2 (Option.some.inj same)⟩

theorem rawHead {before : Option Char} {text : Text} {s last : σ} {pieces : List Piece}
    (reads : Reads host vars before text s pieces last) (noAt : text.head? ≠ some '@')
    (noBackslash : text.head? ≠ some '\\') : (pieces.flatMap Piece.raw).head? = text.head? := by
  cases reads with
  | nil => rfl
  | value => exact absurd rfl noAt
  | unknown => exact absurd rfl noAt
  | escape => exact absurd rfl noBackslash
  | letter => rfl

theorem unescapeReads {before : Option Char} {text : Text} {s last : σ} {pieces : List Piece}
    (reads : Reads host vars before text s pieces last) (tame : ∀ p ∈ pieces, p.Tame) :
    unescape (pieces.flatMap Piece.raw) = pieces.flatMap Piece.sent := by
  induction reads with
  | nil before s => rfl
  | @value b name after v s last pieces other nonempty letters stops known more ih =>
    have calm : Calm ((v.value host).run s).1 := (tame _ List.mem_cons_self).2
    have next := ih none fun p mem => tame p (List.mem_cons_of_mem _ mem)
    rw [List.flatMap_cons, List.flatMap_cons, ← next]
    exact unescapeCalm (calmDoubled calm) _
  | @unknown b name after s last pieces other nonempty letters stops none_ more ih =>
    have next := ih fun p mem => tame p (List.mem_cons_of_mem _ mem)
    rw [List.flatMap_cons, List.flatMap_cons, ← next]
    rfl
  | @escape before d rest s last pieces escapes more ih =>
    have next := ih fun p mem => tame p (List.mem_cons_of_mem _ mem)
    rw [List.flatMap_cons, List.flatMap_cons, ← next]
    rcases escapes with rfl | rfl <;> rfl
  | @letter before c rest s last pieces none_ plain more ih =>
    have next := ih fun p mem => tame p (List.mem_cons_of_mem _ mem)
    rw [List.flatMap_cons, List.flatMap_cons, ← next]
    refine unescapeLetter fun backslash => ?_
    obtain ⟨noAt, noBackslash⟩ := plain backslash
    have head := rawHead more noAt noBackslash
    exact ⟨fun same => noAt (head.symm.trans same), fun same => noBackslash (head.symm.trans same)⟩

end Unescaping

section Endless

theorem stuckForever {front : Text} (fuel : ℕ) {name after : Text} (past : Past (front ++ ['&']) ('@' :: name ++ after))
    (nonempty : name ≠ []) (letters : ∀ d ∈ name, nameLetter d) (stops : Stops after) (s : σ) :
    substitute host vars fuel (front ++ ['&'] ++ ('@' :: name ++ after)) s = none := by
  induction fuel generalizing name after s with
  | zero => rfl
  | succ fuel ih =>
    have again (put : Text) (s : σ) : substitute host vars fuel (front ++ ('&' :: '@' :: name ++ put) ++ after) s =
        none := by
      have whole : '@' :: (name ++ (put ++ after)).takeWhile nameLetter ++
          (name ++ (put ++ after)).dropWhile nameLetter = '@' :: name ++ put ++ after := by simp
      have place : Past (front ++ ['&']) ('@' :: (name ++ (put ++ after)).takeWhile nameLetter ++
          (name ++ (put ++ after)).dropWhile nameLetter) := by
        simpa using pastPut past [] (by simp)
      have next := ih place ?_ (takenLetters _) (droppedStops _) s
      · rw [whole] at next
        simpa using next
      · obtain ⟨d, name, rfl⟩ := List.exists_cons_of_ne_nil nonempty
        simp [letters d List.mem_cons_self]
    have search := searchPast past (by simp) nonempty letters stops
    cases known : vars ('@' :: name) with
    | some v =>
      rw [turnValue (by simp) search known]
      exact again _ _
    | none =>
      rw [turnUnknown (by simp) search (namePlain letters) known]
      exact again _ _

theorem stuckReads {before : Option Char} {rest : Text} {s last : σ} {pieces front more : List Piece} {p : Piece}
    (reads : Reads host vars before rest s pieces last) (shape : pieces = front ++ p :: more)
    (tame : ∀ q ∈ front, q.Tame) (stuck : p.Stuck) {done : Text} (same : done.getLast? = before)
    (past : Past done rest) (fuel : ℕ) : substitute host vars fuel (done ++ rest) s = none := by
  induction reads generalizing front done fuel with
  | nil before s => simp at shape
  | @value b name after v s last pieces other nonempty letters stops known more ih =>
    obtain ⟨start, rfl⟩ := lastSplit same
    rcases List.cons_eq_append_iff.mp shape with ⟨rfl, here⟩ | ⟨front', rfl, there⟩
    · obtain rfl : b = '&' := by
        cases here
        exact stuck
      exact stuckForever fuel past nonempty letters stops s
    · cases fuel with
      | zero => rfl
      | succ fuel =>
        obtain ⟨noMatch, calm⟩ := tame _ List.mem_cons_self
        have next := ih _ there (fun p mem => tame p (List.mem_cons_of_mem _ mem)) rfl
          (pastValue past (calmDoubled calm) stops) fuel
        rw [turnValue other (searchPast past other nonempty letters stops) known, insertedCalm calm, kept,
          if_neg noMatch]
        simpa using next
  | @unknown b name after s last pieces other nonempty letters stops none_ more ih =>
    obtain ⟨start, rfl⟩ := lastSplit same
    rcases List.cons_eq_append_iff.mp shape with ⟨rfl, here⟩ | ⟨front', rfl, there⟩
    · obtain rfl : b = '&' := by
        cases here
        exact stuck
      exact stuckForever fuel past nonempty letters stops s
    · cases fuel with
      | zero => rfl
      | succ fuel =>
        have noMatch : b ≠ '&' := tame _ List.mem_cons_self
        have next := ih there (fun p mem => tame p (List.mem_cons_of_mem _ mem)) (by simp) (pastUnknown past) fuel
        rw [turnUnknown other (searchPast past other nonempty letters stops) (namePlain letters) none_, kept,
          if_neg noMatch]
        simpa using next
  | @escape before d rest s last pieces escapes more ih =>
    rcases List.cons_eq_append_iff.mp shape with ⟨rfl, here⟩ | ⟨front', rfl, there⟩
    · cases here
      exact stuck.elim
    · have next := ih there (fun p mem => tame p (List.mem_cons_of_mem _ mem)) (by simp) (pastEscape past) fuel
      simpa using next
  | @letter before c rest s last pieces none_ plain more ih =>
    rcases List.cons_eq_append_iff.mp shape with ⟨rfl, here⟩ | ⟨front', rfl, there⟩
    · cases here
      exact stuck.elim
    · have next := ih there (fun p mem => tame p (List.mem_cons_of_mem _ mem)) (by simp)
        (pastLetter past (same ▸ none_)) fuel
      simpa using next

def Names (name text : Text) : Prop :=
  ∃ front b after, text = front ++ (b :: '@' :: name) ++ after ∧ nameLetter b = false ∧ b ≠ '\\' ∧ b ≠ '&' ∧ Stops after

variable {name : Text}

theorem namesBetween {text : Text} (names : Names name text) (front : Text) {after : Text} (stops : Stops after) :
    Names name (front ++ text ++ after) := by
  obtain ⟨front', b, after', rfl, letter, other, noMatch, stops'⟩ := names
  refine ⟨front ++ front', b, after' ++ after, by simp, letter, other, noMatch, ?_⟩
  cases after' with
  | nil => exact stops
  | cons d after' => exact stops'

theorem namesInserted {found value : Text} {c : Char} (names : Names name value) (letters : ∀ d ∈ name, nameLetter d)
    (head : nameLetter c = false) : Names name (inserted (c :: found) value) := by
  obtain ⟨front, b, after, rfl, letter, other, noMatch, stops⟩ := names
  have same : inserted (c :: found) ('@' :: name) = '@' :: name := by
    refine (List.flatMap_congr fun d mem => ?_).trans (List.flatMap_singleton' _)
    have plain := namePlain letters d mem
    have letter : nameLetter d := by
      rcases List.mem_cons.mp mem with rfl | mem
      · rfl
      · exact letters d mem
    rw [if_neg (fun quote => by simp [quote, nameLetter] at letter), if_neg plain.2]
  obtain ⟨init, ends⟩ : ∃ init, inserted (c :: found) [b] = init ++ [b] := by
    simp only [inserted, List.flatMap_singleton, if_neg noMatch]
    split_ifs with quote
    · exact ⟨['\''], by rw [quote]; rfl⟩
    · exact ⟨[], rfl⟩
  have behind : Stops (inserted (c :: found) after) := by
    cases after with
    | nil => exact fun d head => by simp [inserted] at head
    | cons d after =>
      rw [inserted, List.flatMap_cons]
      split_ifs with quote match_
      · exact fun c head => by simp at head; rw [← head]; rfl
      · exact fun d first => by simpa [← show c = d by simpa using first] using head
      · exact stops
  refine ⟨inserted (c :: found) front ++ init, b, inserted (c :: found) after, ?_, letter, other, noMatch, behind⟩
  have parts : front ++ (b :: '@' :: name) ++ after = front ++ ([b] ++ (('@' :: name) ++ after)) := by simp
  have append (u v : Text) : inserted (c :: found) (u ++ v) = inserted (c :: found) u ++ inserted (c :: found) v :=
    List.flatMap_append
  rw [parts, append, append, append, same, ends]
  simp

theorem namesMatch {text : Text} (names : Names name text) (nonempty : name ≠ []) (letters : ∀ d ∈ name, nameLetter d) :
    ∃ i, MatchAt text i := by
  obtain ⟨front, b, after, rfl, letter, other, noMatch, stops⟩ := names
  obtain ⟨n, name, rfl⟩ := List.exists_cons_of_ne_nil nonempty
  refine ⟨front.length, b, n, by simp, other, ?_, ?_, letters n List.mem_cons_self⟩
  · rw [List.append_assoc, List.getElem?_append_right (by omega)]
    simp
  · rw [List.append_assoc, List.getElem?_append_right (by omega)]
    simp

theorem namesBehind {front after run : Text} {b : Char} (names : Names name (front ++ (b :: '@' :: run) ++ after))
    (letters : ∀ d ∈ run, nameLetter d) (stops : Stops after) (nonempty : name ≠ [])
    (own : ∀ d ∈ name, nameLetter d)
    (first : ∀ i, MatchAt (front ++ (b :: '@' :: run) ++ after) i → front.length ≤ i) :
    (run = name ∧ nameLetter b = false ∧ b ≠ '&') ∨ Names name after := by
  obtain ⟨front', c, after', shape, letter, other, noMatch, stops'⟩ := names
  obtain ⟨n, name, rfl⟩ := List.exists_cons_of_ne_nil nonempty
  have bound : front.length ≤ front'.length := by
    refine first _ ?_
    rw [shape]
    refine ⟨c, n, by simp, other, ?_, ?_, own n List.mem_cons_self⟩
    · rw [List.append_assoc, List.getElem?_append_right (by omega)]
      simp
    · rw [List.append_assoc, List.getElem?_append_right (by omega)]
      simp
  rw [List.append_assoc, List.append_assoc] at shape
  obtain ⟨between, rfl, rest⟩ : ∃ between, front' = front ++ between ∧
      (b :: '@' :: run) ++ after = between ++ ((c :: '@' :: n :: name) ++ after') := by
    rcases List.append_eq_append_iff.mp shape with ⟨between, rfl, rest⟩ | ⟨between, rfl, rest⟩
    · exact ⟨between, rfl, rest⟩
    · obtain rfl : between = [] := by simpa using bound
      exact ⟨[], by simp, by simpa using rest.symm⟩
  cases between with
  | nil =>
    simp only [List.cons_append, List.nil_append, List.cons.injEq, true_and] at rest
    obtain ⟨rfl, rest⟩ := rest
    have run_ := nameTaken letters stops
    rw [rest, ← List.cons_append, nameTaken own stops'] at run_
    exact .inl ⟨run_.symm, letter, noMatch⟩
  | cons d between =>
    have rest : ('@' :: run) ++ after = between ++ ((c :: '@' :: n :: name) ++ after') := congrArg List.tail rest
    rcases List.append_eq_append_iff.mp rest with ⟨more, rfl, last⟩ | ⟨more, inside, last⟩
    · exact .inr ⟨more, c, after', by simpa using last, letter, other, noMatch, stops'⟩
    · cases more with
      | nil => exact .inr ⟨[], c, after', by simpa using last.symm, letter, other, noMatch, stops'⟩
      | cons e more =>
        have same : e = c := by simp at last; exact last.1.symm
        have mem : c ∈ '@' :: run := by
          rw [inside, same]
          simp
        have good : nameLetter c := by
          rcases List.mem_cons.mp mem with rfl | mem
          · rfl
          · exact letters c mem
        rw [letter] at good
        contradiction

theorem namesForever {v : Variable} (nonempty : name ≠ []) (own : ∀ d ∈ name, nameLetter d)
    (known : vars ('@' :: name) = some v) (each : ∀ s, Names name ((v.value host).run s).1) (fuel : ℕ) {stmt : Text}
    (names : Names name stmt) (s : σ) : substitute host vars fuel stmt s = none := by
  induction fuel generalizing stmt s with
  | zero => rfl
  | succ fuel ih =>
    obtain ⟨front, b, run, after, rfl, other, -, letters, stops, first, search⟩ :=
      searchSome (namesMatch names nonempty own)
    rcases namesBehind names letters stops nonempty own first with ⟨rfl, letter, noMatch⟩ | behind
    · rw [turnValue other search known]
      refine ih ?_ _
      rw [← List.append_assoc]
      exact namesBetween (namesInserted (each s) own letter) _ stops
    · have stays (put : Text) (s : σ) : substitute host vars fuel (front ++ put ++ after) s = none := by
        have there := namesBetween behind (front ++ put) (fun d head => by simp at head : Stops [])
        rw [List.append_nil] at there
        exact ih there s
      cases found : vars ('@' :: run) with
      | some v =>
        rw [turnValue other search found]
        exact stays _ _
      | none =>
        rw [turnUnknown other search (namePlain letters) found]
        exact stays _ _

def Leads (name text : Text) : Prop :=
  ∃ front b after, text = front ++ (b :: '@' :: name) ++ after ∧ '@' ∉ front ∧ '&' ∉ front ∧ b ≠ '\\' ∧ b ≠ '&' ∧
    b ≠ '@' ∧ Stops after ∧ after.head? ≠ some '&'

theorem atApart {text front rest : Text} {b : Char} (shape : text = front ++ b :: rest) (none_ : '@' ∉ front)
    (noAt : b ≠ '@') {j : ℕ} (at_ : text[j]? = some '@') : front.length < j := by
  by_contra before
  rcases Nat.lt_or_eq_of_le (Nat.not_lt.mp before) with inside | rfl
  · rw [shape, List.getElem?_append_left inside] at at_
    exact none_ (List.mem_of_getElem? at_)
  · rw [shape, List.getElem?_append_right le_rfl, Nat.sub_self] at at_
    exact noAt (by simpa using at_)

theorem leadsFound {query : Text} (leads : Leads name query) (nonempty : name ≠ []) (own : ∀ d ∈ name, nameLetter d) :
    ∃ front b after, b ≠ '\\' ∧ b ≠ '&' ∧ Stops after ∧ query = front ++ (b :: '@' :: name) ++ after ∧
      (∀ i, MatchAt query i → front.length ≤ i) ∧ identifier.search query = some (front, b :: '@' :: name, after) := by
  obtain ⟨front, b, after, rfl, none_, -, other, noMatch, noAt, stops, -⟩ := leads
  have first : ∀ i, MatchAt (front ++ (b :: '@' :: name) ++ after) i → front.length ≤ i := by
    rintro i ⟨-, -, -, -, second, -⟩
    exact Nat.le_of_lt_succ (atApart (List.append_assoc ..) none_ noAt second)
  exact ⟨front, b, after, other, noMatch, stops, rfl, first, searchFound front other nonempty own stops first⟩

theorem leadsInserted {front after value : Text} {c : Char} (leads : Leads name value) (nonempty : name ≠ [])
    (own : ∀ d ∈ name, nameLetter d) (stops : Stops after)
    (first : ∀ i, MatchAt (front ++ (c :: '@' :: name) ++ after) i → front.length ≤ i) :
    ∃ front' b after', b ≠ '\\' ∧ b ≠ '&' ∧ Stops after' ∧
      front ++ (c :: inserted (c :: '@' :: name) value) ++ after = front' ++ (b :: '@' :: name) ++ after' ∧
      (∀ i, MatchAt (front ++ (c :: inserted (c :: '@' :: name) value) ++ after) i → front'.length ≤ i) ∧
      identifier.search (front ++ (c :: inserted (c :: '@' :: name) value) ++ after) =
        some (front', b :: '@' :: name, after') := by
  obtain ⟨before, b, more, rfl, none_, plain, other, noMatch, noAt, stops', head⟩ := leads
  let found : Text := c :: '@' :: name
  have append (u v : Text) : inserted found (u ++ v) = inserted found u ++ inserted found v := List.flatMap_append
  have same : inserted found ('@' :: name) = '@' :: name := by
    refine (List.flatMap_congr fun d mem => ?_).trans (List.flatMap_singleton' _)
    have letter : nameLetter d := by
      rcases List.mem_cons.mp mem with rfl | mem
      · rfl
      · exact own d mem
    rw [if_neg (fun quote => by simp [quote, nameLetter] at letter), if_neg (namePlain own d mem).2]
  obtain ⟨init, ends, quotes⟩ : ∃ init, inserted found [b] = init ++ [b] ∧ '@' ∉ init := by
    simp only [inserted, List.flatMap_singleton, if_neg noMatch]
    split_ifs with quote
    · exact ⟨['\''], by rw [quote]; rfl, by simp⟩
    · exact ⟨[], rfl, by simp⟩
  have noneBefore : '@' ∉ inserted found before := by
    intro mem
    obtain ⟨d, inside, here⟩ := List.mem_flatMap.mp mem
    split_ifs at here with quote amp
    · simp at here
    · exact plain (amp ▸ inside)
    · exact none_ (List.mem_singleton.mp here ▸ inside)
  have behind : Stops (inserted found more ++ after) := by
    cases more with
    | nil => exact stops
    | cons d more =>
      have noAmp : d ≠ '&' := fun amp => head (by simp [amp])
      intro e first
      rw [inserted, List.flatMap_cons, if_neg noAmp] at first
      split_ifs at first with quote
      · obtain rfl : '\'' = e := by simpa using first
        rfl
      · obtain rfl : d = e := by simpa using first
        exact stops' d rfl
  have shape : front ++ (c :: inserted found (before ++ (b :: '@' :: name) ++ more)) ++ after =
      (front ++ c :: (inserted found before ++ init)) ++ (b :: '@' :: name) ++ (inserted found more ++ after) := by
    have parts : before ++ (b :: '@' :: name) ++ more = before ++ ([b] ++ (('@' :: name) ++ more)) := by simp
    rw [parts, append, append, append, same, ends]
    simp
  have earliest : ∀ i, MatchAt (front ++ (c :: inserted found (before ++ (b :: '@' :: name) ++ more)) ++ after) i →
      (front ++ c :: (inserted found before ++ init)).length ≤ i := by
    rintro i ⟨d, n, letter, noEscape, second, third, starts⟩
    rw [shape] at letter second third
    by_contra early
    -- an @ in front of the value's own name is one in front of the value
    have near : i + 1 < front.length + 1 := by
      by_contra far
      have tail : ((front ++ c :: (inserted found before ++ init)) ++ (b :: '@' :: name) ++
          (inserted found more ++ after))[i + 1]? = ((inserted found before ++ init) ++
            b :: ('@' :: name ++ (inserted found more ++ after)))[i + 1 - (front.length + 1)]? := by
        rw [show (front ++ c :: (inserted found before ++ init)) ++ (b :: '@' :: name) ++
          (inserted found more ++ after) = (front ++ [c]) ++ ((inserted found before ++ init) ++
            b :: ('@' :: name ++ (inserted found more ++ after))) by simp]
        rw [List.getElem?_append_right (by simpa using Nat.not_lt.mp far)]
        simp
      rw [tail] at second
      have past := atApart rfl (by simp [noneBefore, quotes]) noAt second
      simp only [List.length_append, List.length_cons] at early past
      omega
    obtain ⟨m, third'⟩ : ∃ m, (front ++ (c :: '@' :: name) ++ after)[i + 2]? = some m ∧ nameLetter m := by
      rcases Nat.lt_or_eq_of_le (Nat.le_of_lt_succ near) with inside | last
      · refine ⟨n, ?_, starts⟩
        rw [← third]
        rcases Nat.lt_or_eq_of_le (show i + 2 ≤ front.length by omega) with within | at_
        · simp [List.getElem?_append_left, within]
        · simp [at_]
      · refine ⟨'@', ?_, rfl⟩
        simp [List.getElem?_append_right, show i + 2 - front.length = 1 by omega, show front.length ≤ i + 2 by omega]
    have original : MatchAt (front ++ (c :: '@' :: name) ++ after) i := by
      refine ⟨d, m, ?_, noEscape, ?_, third'.1, third'.2⟩
      · rw [← letter]
        simp [List.getElem?_append_left, show i < front.length by omega]
      · rw [← second]
        rcases Nat.lt_or_eq_of_le (Nat.le_of_lt_succ near) with inside | last
        · simp [List.getElem?_append_left, inside]
        · simp [last]
    have bound := first i original
    omega
  refine ⟨_, b, _, other, noMatch, behind, shape, earliest, ?_⟩
  rw [shape] at earliest ⊢
  exact searchFound _ other nonempty own behind earliest

theorem leadsForever {v : Variable} (nonempty : name ≠ []) (own : ∀ d ∈ name, nameLetter d)
    (known : vars ('@' :: name) = some v) (each : ∀ s, Leads name ((v.value host).run s).1) (fuel : ℕ) {stmt : Text}
    (found : ∃ front b after, b ≠ '\\' ∧ b ≠ '&' ∧ Stops after ∧ stmt = front ++ (b :: '@' :: name) ++ after ∧
      (∀ i, MatchAt stmt i → front.length ≤ i) ∧ identifier.search stmt = some (front, b :: '@' :: name, after))
    (s : σ) : substitute host vars fuel stmt s = none := by
  induction fuel generalizing stmt s with
  | zero => rfl
  | succ fuel ih =>
    obtain ⟨front, b, after, other, noMatch, stops, rfl, first, search⟩ := found
    rw [turnValue other search known, kept, if_neg noMatch]
    exact ih (leadsInserted (each s) nonempty own stops first) _

end Endless

section Sending

theorem sentTame {query : Text} {s : σ} (tame : ∀ p ∈ (read host vars none 0 query s).1, p.Tame) {fuel : ℕ}
    (enough : query.count '@' < fuel) : statement host vars fuel query s =
      some ((read host vars none 0 query s).1.flatMap Piece.sent, (read host vars none 0 query s).2) := by
  have reads := readReads host vars none query s
  have raw := substituteReads reads tame rfl (pastStart query) enough
  rw [List.nil_append, List.nil_append] at raw
  simp only [statement, raw, Option.map_some, ReplaceAll]
  rw [replaceUnescapes _ le_rfl, unescapeReads reads tame]

theorem evalSends {query : Text} {s : σ} (tame : ∀ p ∈ (read host vars none 0 query s).1, p.Tame) {fuel : ℕ}
    (enough : query.count '@' < fuel) (server : Text → StateM σ Reply) {sent : Text} {s' : σ}
    (reads : ((read host vars none 0 query s).1.flatMap Piece.sent, (read host vars none 0 query s).2) = (sent, s')) :
    eval host vars fuel query (some server) s =
      (answered host.ctype fuel sent ((server sent).run s').1).map fun out => (out, ((server sent).run s').2) := by
  rw [eval, sentTame tame enough, Option.bind_some, reads]
  rfl

def quoted (text : Text) : Text := text.flatMap fun c => if c = '@' ∨ c = '\\' then ['\\', c] else [c]

theorem readQuoted (host : Host σ) (vars : PgsVarMap) (before : Option Char) (text : Text) (s : σ) :
    read host vars before 0 (quoted text) s =
      (text.map fun c => if c = '@' ∨ c = '\\' then .escape c else .letter c, s) := by
  induction text generalizing before with
  | nil => rfl
  | cons c text ih =>
    rw [quoted, List.flatMap_cons, ← quoted, List.map_cons]
    split_ifs with special
    · have none_ : nameAt before ('\\' :: c :: quoted text) = none := by cases before <;> rfl
      have escape : escapeAt ('\\' :: c :: quoted text) = some c := by rcases special with rfl | rfl <;> rfl
      simp only [List.cons_append, List.nil_append, read, none_, escape, ih]
    · obtain ⟨noAt, noBackslash⟩ := not_or.mp special
      have none_ : nameAt before (c :: quoted text) = none := by
        unfold nameAt
        split
        · rename_i same
          exact absurd (List.cons.inj same).1 noAt
        · rfl
      have escape : escapeAt (c :: quoted text) = none := by
        unfold escapeAt
        split
        · rename_i same
          exact absurd (List.cons.inj same).1 noBackslash
        · rename_i same
          exact absurd (List.cons.inj same).1 noBackslash
        · rfl
      simp only [List.cons_append, List.nil_append, read, none_, escape, ih]

theorem quotedSent (text : Text) {fuel : ℕ} (enough : (quoted text).count '@' < fuel) (s : σ) :
    statement host vars fuel (quoted text) s = some (text, s) := by
  have pieces := readQuoted host vars none text s
  have letters : (text.map fun c => if c = '@' ∨ c = '\\' then Piece.escape c else .letter c).flatMap Piece.sent =
      text := by
    rw [List.flatMap_map]
    refine (List.flatMap_congr fun c _ => ?_).trans (List.flatMap_singleton' text)
    split_ifs <;> rfl
  refine (sentTame (fun p mem => ?_) enough).trans ?_
  · rw [pieces] at mem
    obtain ⟨c, -, rfl⟩ := List.mem_map.mp mem
    split_ifs <;> trivial
  · rw [pieces, letters]

end Sending

theorem statementSent (host : Host σ) (vars : PgsVarMap) (query : Text) (s : σ) :
    ((∀ p ∈ (read host vars none 0 query s).1, p.Tame) → ∀ fuel, query.count '@' < fuel →
      ∀ sent s',
      ((read host vars none 0 query s).1.flatMap Piece.sent, (read host vars none 0 query s).2) = (sent, s') →
      statement host vars fuel query s = some (sent, s') ∧
        ∀ server : Text → StateM σ Reply, eval host vars fuel query (some server) s =
          (answered host.ctype fuel sent ((server sent).run s').1).map fun out => (out, ((server sent).run s').2)) ∧
    (∀ front p more, (read host vars none 0 query s).1 = front ++ p :: more → (∀ q ∈ front, q.Tame) → p.Stuck →
      Fuelled.Never fun fuel => statement host vars fuel query s) ∧
    (∀ name v, name ≠ [] → (∀ d ∈ name, nameLetter d) → vars ('@' :: name) = some v →
      ((∀ s, Names name ((v.value host).run s).1) ∧ Names name query ∨
        (∀ s, Leads name ((v.value host).run s).1) ∧ Leads name query) →
      Fuelled.Never fun fuel => statement host vars fuel query s) ∧
    ∀ text fuel, (quoted text).count '@' < fuel → statement host vars fuel (quoted text) s = some (text, s) := by
  refine ⟨fun tame fuel enough sent s' reads => ⟨?_, fun server => evalSends tame enough server reads⟩,
    fun front p more shape tame stuck fuel => ?_,
    fun name v nonempty letters known each fuel => ?_, fun text fuel enough => quotedSent text enough s⟩
  · rw [sentTame tame enough, reads]
  · have never := stuckReads (readReads host vars none query s) shape tame stuck rfl (pastStart query) fuel
    rw [List.nil_append] at never
    simp only [statement, never, Option.map_none]
  · rcases each with ⟨each, names⟩ | ⟨each, leads⟩
    · simp only [statement, namesForever nonempty letters known each fuel names, Option.map_none]
    · simp only [statement, leadsForever nonempty letters known each fuel (leadsFound leads nonempty letters),
        Option.map_none]

def noHost : Host Unit := ⟨Ctype.plain, fun _ => pure [], 0, 0⟩

def onlyX (value : Text) : PgsVarMap := fun name =>
  if name = ['@', 'x'] then some (.scalar (.pgsString value)) else none

theorem quoteSent :
    statement noHost (onlyX "it's".toList) 3 "'@x' a\\@x".toList () = some ("'it''s' a@x".toList, ()) ∧
    (Fuelled.Never fun fuel => statement noHost (onlyX " @x ".toList) fuel "b @x".toList ()) ∧
    Fuelled.Never fun fuel => statement noHost (onlyX "y@x".toList) fuel "b @x".toList () := by
  have pieces : read noHost (onlyX "it's".toList) none 0 "'@x' a\\@x".toList () =
      ([.letter '\'', .value '\'' "it's".toList, .letter '\'', .letter ' ', .letter 'a', .escape '@', .letter 'x'],
      ()) :=
    rfl
  have calm : Calm "it's".toList := ⟨by decide, by decide, by decide⟩
  have few : "'@x' a\\@x".toList.count '@' < 3 := show 2 < 3 by decide
  refine ⟨((statementSent noHost _ _ ()).1 ?_ 3 few _ _ (by rw [pieces]; rfl)).1,
    (statementSent noHost _ _ ()).2.2.1 ['x'] (.scalar (.pgsString " @x ".toList)) (by simp) (by simp [nameLetter]) rfl
      (.inl ⟨fun _ => ?_, ?_⟩),
    (statementSent noHost _ _ ()).2.2.1 ['x'] (.scalar (.pgsString "y@x".toList)) (by simp) (by simp [nameLetter]) rfl
      (.inr ⟨fun _ => ?_, ?_⟩)⟩
  · rw [pieces]
    simpa [Piece.Tame] using calm
  · exact ⟨[], ' ', [' '], rfl, rfl, by decide, by decide, by simp [Stops, nameLetter]⟩
  · exact ⟨['b'], ' ', [], rfl, rfl, by decide, by decide, by simp [Stops]⟩
  · exact ⟨[], 'y', [], rfl, by simp, by simp, by decide, by decide, by decide, by simp [Stops], by simp⟩
  · exact ⟨['b'], ' ', [], rfl, by simp, by simp, by decide, by decide, by decide, by simp [Stops], by simp⟩

end PgAdmin.PgsObjects.PgsExecute
