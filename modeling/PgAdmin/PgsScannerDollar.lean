import PgAdmin.Flex

/-! The start condition SC_DOLLAR of the pgScript scanner: what it reads after the delimiter that opens a
dollar-quoted text. Letters stand for the bytes that the scanner reads. -/
namespace PgAdmin.PgsScanner
open Regular

def wordLetter (c : Char) : Bool := c.isAlphanum || (c = '_' || (c = '@' || c = '#'))

def tagForm : Regular Char :=
  cat (letter '$') (cat (star (test wordLetter)) (letter '$'))

inductive DollarAction where
  | delimiter
  | append
  deriving DecidableEq

def dollarRules : List (Regular Char × DollarAction) :=
  [(tagForm, .delimiter), (letter '\r', .append), (letter '\n', .append), (test (· ≠ '\n'), .append)]

/- Reads to the return to SC_QUERY: what is read until then goes to the query, and what follows is left.
There is none at the end of the file. -/
def scanDollar (dollar : List Char) : ℕ → List Char → Option (List Char × List Char)
  | 0, _ => none
  | turns + 1, s =>
    match Flex.next dollarRules s with
    | none => none
    | some (action, n) =>
      let yytext := s.take n
      if action = .delimiter ∧ yytext = dollar then some (yytext, s.drop n)
      else (scanDollar dollar turns (s.drop n)).map fun (query, rest) => (yytext ++ query, rest)

def delimiter (tag : List Char) : List Char := '$' :: (tag ++ ['$'])

/- The scanner is back in SC_QUERY just after the delimiter that follows the body. -/
def ClosesAt (tag body rest : List Char) : Prop :=
  scanDollar (delimiter tag) (body ++ delimiter tag ++ rest).length (body ++ delimiter tag ++ rest) =
    some (body ++ delimiter tag, rest)

/- Whether a $ and the letters and digits behind it are left open at the end, each $ that closes another
one being used up by it. -/
def openAt (opened : Bool) : List Char → Bool
  | [] => opened
  | c :: s => openAt (if c = '$' then !opened else opened && wordLetter c) s

theorem wordNotDollar {c : Char} (word : wordLetter c = true) : c ≠ '$' := by
  rintro rfl
  exact absurd word (by decide)

theorem openWord {run : List Char} (word : ∀ c ∈ run, wordLetter c = true) (opened : Bool) (s : List Char) :
    openAt opened (run ++ s) = openAt opened s := by
  induction run with
  | nil => rfl
  | cons c run ih =>
    have here := word c List.mem_cons_self
    rw [List.cons_append, openAt, if_neg (wordNotDollar here), here, Bool.and_true]
    exact ih fun d member => word d (List.mem_cons_of_mem c member)

theorem tagFormIff (w : List Char) : w ∈ tagForm.language ↔
    ∃ run, (∀ c ∈ run, wordLetter c = true) ∧ w = delimiter run := by
  have letters : ∀ w : List Char, w ∈ (letter '$').language ↔ w = ['$'] := by
    intro w
    constructor
    · rintro ⟨c, same, rfl⟩
      rw [of_decide_eq_true same]
    · rintro rfl
      exact ⟨'$', by decide, rfl⟩
  constructor
  · intro member
    obtain ⟨u, first, v, others, rfl⟩ := Language.mem_mul.mp member
    obtain ⟨run, word, last, ends, rfl⟩ := Language.mem_mul.mp others
    rw [letters] at first ends
    rw [testStar] at word
    exact ⟨run, word, by rw [first, ends]; rfl⟩
  · rintro ⟨run, word, rfl⟩
    refine Language.mem_mul.mpr ⟨['$'], (letters _).mpr rfl, run ++ ['$'], ?_, rfl⟩
    exact Language.mem_mul.mpr ⟨run, (testStar _ _).mpr word, ['$'], (letters _).mpr rfl, rfl⟩

theorem delimiterUnique {run run' : List Char} (word : ∀ c ∈ run, wordLetter c = true)
    (word' : ∀ c ∈ run', wordLetter c = true) {s : List Char} (first : delimiter run <+: s)
    (second : delimiter run' <+: s) : run = run' := by
  have upTo : ∀ {run run' s t : List Char}, (∀ c ∈ run, wordLetter c = true) →
      (∀ c ∈ run', wordLetter c = true) → run ++ '$' :: s = run' ++ '$' :: t → run = run' := by
    intro run
    induction run with
    | nil =>
      intro run' s t _ word' same
      cases run' with
      | nil => rfl
      | cons c run' =>
        rw [List.nil_append, List.cons_append, List.cons.injEq] at same
        exact absurd same.1.symm (wordNotDollar (word' c List.mem_cons_self))
    | cons c run ih =>
      intro run' s t word word' same
      cases run' with
      | nil =>
        rw [List.nil_append, List.cons_append, List.cons.injEq] at same
        exact absurd same.1 (wordNotDollar (word c List.mem_cons_self))
      | cons d run' =>
        rw [List.cons_append, List.cons_append, List.cons.injEq] at same
        rw [same.1, ih (fun e member => word e (List.mem_cons_of_mem c member))
          (fun e member => word' e (List.mem_cons_of_mem d member)) same.2]
  obtain ⟨u, rfl⟩ := first
  obtain ⟨v, same⟩ := second
  simp only [delimiter, List.cons_append, List.append_assoc, List.nil_append, List.cons.injEq, true_and] at same
  exact upTo word word' same.symm

theorem tagLongest {run : List Char} (word : ∀ c ∈ run, wordLetter c = true) (s : List Char) :
    tagForm.longest (delimiter run ++ s) = some (delimiter run).length := by
  refine longestOf ((tagFormIff _).mpr ⟨run, word, rfl⟩) fun w before member => ?_
  obtain ⟨run', word', rfl⟩ := (tagFormIff w).mp member
  rw [delimiterUnique word' word before (List.prefix_append _ _)]

theorem tagNone {s : List Char} (missing : ∀ run, (∀ c ∈ run, wordLetter c = true) →
    ¬ delimiter run <+: s) : tagForm.longest s = none := by
  refine longestNone.mpr fun w before member => ?_
  obtain ⟨run, word, rfl⟩ := (tagFormIff w).mp member
  exact missing run word before

theorem otherRules (c : Char) (s : List Char) :
    Flex.next dollarRules.tail (c :: s) = some (.append, 1) := by
  simp only [dollarRules, List.tail_cons, Flex.next, letter, Flex.testLongest, decide_eq_true_eq]
  by_cases carriage : c = '\r'
  · subst carriage
    rfl
  · by_cases newline : c = '\n'
    · subst newline
      rfl
    · simp [carriage, newline]

theorem readsDelimiter {run : List Char} (word : ∀ c ∈ run, wordLetter c = true) (s : List Char) :
    Flex.next dollarRules (delimiter run ++ s) = some (.delimiter, (delimiter run).length) := by
  refine Flex.nextFirst (tagLongest word s) fun a m later => ?_
  have one := otherRules '$' (run ++ ['$'] ++ s)
  cases one.symm.trans later
  exact Nat.succ_le_succ (Nat.zero_le _)

theorem readsLetter {c : Char} {s : List Char} (missing : ∀ run, (∀ c ∈ run, wordLetter c = true) →
    ¬ delimiter run <+: c :: s) : Flex.next dollarRules (c :: s) = some (.append, 1) :=
  (Flex.nextLater (tagNone missing)).trans (otherRules c s)

theorem scanDelimiter (dollar : List Char) {run : List Char} (word : ∀ c ∈ run, wordLetter c = true) (turns : ℕ)
    (s : List Char) : scanDollar dollar (turns + 1) (delimiter run ++ s) =
      if delimiter run = dollar then some (delimiter run, s)
      else (scanDollar dollar turns s).map fun (query, rest) => (delimiter run ++ query, rest) := by
  rw [scanDollar, readsDelimiter word s]
  simp only [List.take_left, List.drop_left, true_and]

theorem scanLetter (dollar : List Char) {c : Char} {s : List Char} (missing : ∀ run,
    (∀ c ∈ run, wordLetter c = true) → ¬ delimiter run <+: c :: s) (turns : ℕ) :
    scanDollar dollar (turns + 1) (c :: s) =
      (scanDollar dollar turns s).map fun (query, rest) => (c :: query, rest) := by
  rw [scanDollar, readsLetter missing]
  simp

theorem scanPlain (dollar : List Char) {c : Char} (plain : c ≠ '$') (s : List Char) (turns : ℕ) :
    scanDollar dollar (turns + 1) (c :: s) =
      (scanDollar dollar turns s).map fun (query, rest) => (c :: query, rest) :=
  scanLetter dollar (fun _ _ before => plain (List.cons_prefix_cons.mp before).1.symm) turns

theorem scanLoose (dollar : List Char) {run : List Char} (word : ∀ c ∈ run, wordLetter c = true) {c : Char}
    (other : wordLetter c = false) (plain : c ≠ '$') (s : List Char) (turns : ℕ) :
    scanDollar dollar (turns + 1) ('$' :: (run ++ c :: s)) =
      (scanDollar dollar turns (run ++ c :: s)).map fun (query, rest) => ('$' :: query, rest) := by
  refine scanLetter dollar (fun run' word' before => ?_) turns
  have inside := (List.cons_prefix_cons.mp before).2
  clear before
  induction run generalizing run' with
  | nil =>
    cases run' with
    | nil => exact plain (List.cons_prefix_cons.mp inside).1.symm
    | cons d run' =>
      have same := (List.cons_prefix_cons.mp inside).1
      rw [← same, word' d List.mem_cons_self] at other
      cases other
  | cons d run ih =>
    cases run' with
    | nil => exact wordNotDollar (word d List.mem_cons_self) (List.cons_prefix_cons.mp inside).1.symm
    | cons e run' =>
      exact ih (fun c member => word c (List.mem_cons_of_mem d member)) run'
        (fun c member => word' c (List.mem_cons_of_mem e member)) (List.cons_prefix_cons.mp inside).2

theorem scanEnds {dollar : List Char} {turns : ℕ} {s query rest : List Char}
    (ends : scanDollar dollar turns s = some (query, rest)) : dollar <:+ query := by
  induction turns generalizing s query rest with
  | zero => cases ends
  | succ turns ih =>
    rw [scanDollar] at ends
    split at ends
    · cases ends
    case h_2 action n chosen =>
      dsimp only at ends
      split at ends
      case isTrue closes =>
        cases ends
        exact closes.2 ▸ List.suffix_refl _
      case isFalse =>
        obtain ⟨⟨query', rest'⟩, later, same⟩ := Option.map_eq_some_iff.mp ends
        cases same
        exact (ih later).trans (List.suffix_append _ _)

theorem readFirst (read : Option (List Char × List Char)) (piece query rest : List Char) :
    (read.map fun (query, rest) => (piece ++ query, rest)) = some (piece ++ query, rest) ↔
      read = some (query, rest) := by
  cases read with
  | none => simp
  | some out =>
    obtain ⟨query', rest'⟩ := out
    simp

theorem wordSplit (s : List Char) : ∃ run u, s = run ++ u ∧ (∀ c ∈ run, wordLetter c = true) ∧
    ∀ c v, u = c :: v → wordLetter c = false := by
  refine ⟨s.takeWhile wordLetter, s.dropWhile wordLetter, List.takeWhile_append_dropWhile.symm, ?_,
    fun c v left => ?_⟩
  · exact List.all_eq_true.mp List.all_takeWhile
  · have first := List.head?_dropWhile_not wordLetter s
    rw [left] at first
    simpa using first

theorem scanCloses {tag : List Char} (word : ∀ c ∈ tag, wordLetter c = true) (rest : List Char) (n : ℕ) :
    ∀ body : List Char, body.length ≤ n → ¬ delimiter tag <:+: body → ∀ turns, n < turns →
      (scanDollar (delimiter tag) turns (body ++ (delimiter tag ++ rest)) =
        some (body ++ delimiter tag, rest) ↔ openAt false body = false) := by
  induction n with
  | zero =>
    intro body short _ turns enough
    obtain ⟨turns, rfl⟩ := Nat.exists_eq_add_of_lt enough
    cases List.eq_nil_of_length_eq_zero (Nat.le_zero.mp short)
    rw [Nat.zero_add, List.nil_append, scanDelimiter _ word, if_pos rfl]
    exact ⟨fun _ => rfl, fun _ => rfl⟩
  | succ n ih =>
    intro body short apart turns enough
    obtain ⟨turns, rfl⟩ := Nat.exists_eq_add_of_lt enough
    have more : n < n + 1 + turns := by omega
    -- what is left of the body does not contain the delimiter either
    have part : ∀ front back, body = front ++ back → ¬ delimiter tag <:+: back :=
      fun front back same inside => apart (same ▸ inside.trans (List.suffix_append _ _).isInfix)
    cases body with
    | nil =>
      rw [List.nil_append, scanDelimiter _ word, if_pos rfl]
      exact ⟨fun _ => rfl, fun _ => rfl⟩
    | cons c body =>
      have shorter := Nat.succ_le_succ_iff.mp short
      by_cases plain : c = '$'
      · subst plain
        obtain ⟨run, u, rfl, wordRun, after⟩ := wordSplit body
        have opens : openAt false ('$' :: (run ++ u)) = openAt true u := openWord wordRun true u
        rw [opens]
        cases u with
        | nil =>
          -- the $ left open takes the first $ of the closing delimiter
          have text : '$' :: (run ++ []) ++ (delimiter tag ++ rest) = delimiter run ++ (tag ++ '$' :: rest) := by
            simp [delimiter]
          rw [text, scanDelimiter _ wordRun]
          refine ⟨fun ends => ?_, fun no => by cases no⟩
          split at ends
          case isTrue same =>
            have length := congrArg (fun out => out.1.length) (Option.some.inj ends)
            simp only [delimiter, List.length_cons, List.length_append, List.length_nil] at length
            omega
          case isFalse other =>
            have piece : '$' :: (run ++ []) ++ delimiter tag = delimiter run ++ (tag ++ ['$']) := by
              simp [delimiter]
            rw [piece, readFirst] at ends
            have length := (scanEnds ends).length_le
            simp only [delimiter, List.length_cons, List.length_append, List.length_nil] at length
            omega
        | cons x v =>
          by_cases closes : x = '$'
          · subst closes
            have text : '$' :: (run ++ '$' :: v) ++ (delimiter tag ++ rest) =
                delimiter run ++ (v ++ (delimiter tag ++ rest)) := by
              simp [delimiter]
            have whole : '$' :: (run ++ '$' :: v) = delimiter run ++ v := by simp [delimiter]
            have other : delimiter run ≠ delimiter tag := by
              intro same
              rw [whole, same] at apart
              exact apart (List.prefix_append _ _).isInfix
            rw [text, scanDelimiter _ wordRun, if_neg other, whole, List.append_assoc, readFirst]
            refine ih v ?_ (part _ _ whole) _ more
            simp only [List.length_append, List.length_cons] at shorter
            omega
          · have loose := after x v rfl
            have text : '$' :: (run ++ x :: v) ++ (delimiter tag ++ rest) =
                '$' :: (run ++ x :: (v ++ (delimiter tag ++ rest))) := by simp
            have read := readFirst (scanDollar (delimiter tag) (n + 1 + turns)
              (run ++ x :: (v ++ (delimiter tag ++ rest)))) ['$'] (run ++ x :: v ++ delimiter tag) rest
            rw [text, scanLoose _ wordRun loose closes]
            refine read.trans ?_
            have left := ih (run ++ x :: v) shorter (part ['$'] _ rfl) _ more
            rw [openWord wordRun] at left
            simp only [List.append_assoc, List.cons_append] at left ⊢
            rw [left]
            simp [openAt, closes, loose]
      · have read := readFirst (scanDollar (delimiter tag) (n + 1 + turns) (body ++ (delimiter tag ++ rest)))
          [c] (body ++ delimiter tag) rest
        rw [List.cons_append, scanPlain _ plain]
        refine read.trans ((ih body shorter (part [c] _ rfl) _ more).trans ?_)
        rw [openAt, if_neg plain, Bool.false_and]

/-- The scanner is back in SC_QUERY just after the closing delimiter exactly if the body leaves no $ open. -/
theorem dollarCloses (tag body rest : List Char) (word : ∀ c ∈ tag, wordLetter c = true)
    (apart : ¬ delimiter tag <:+: body) : ClosesAt tag body rest ↔ openAt false body = false := by
  rw [ClosesAt, List.append_assoc]
  refine scanCloses word rest body.length body (Nat.le_refl _) apart _ ?_
  simp [delimiter]

theorem runsClose : ClosesAt ['q'] "$1 a$b$".toList [';'] :=
  (dollarCloses ['q'] "$1 a$b$".toList [';'] (fun _ member => List.mem_singleton.mp member ▸ rfl)
    (by decide)).mpr (by decide)

/- $$$a$$ -/
theorem delimiterSwallowed : ¬ ∀ tag body rest : List Char, (∀ c ∈ tag, wordLetter c = true) →
    ¬ delimiter tag <:+: body → ClosesAt tag body rest := by
  intro all
  have closes := all [] ['$', 'a'] [] (fun _ member => absurd member List.not_mem_nil) (by decide)
  have read : scanDollar ['$', '$'] 4 ['$', 'a', '$', '$'] = none := by decide
  exact Option.some_ne_none _ (closes.symm.trans read)

end PgAdmin.PgsScanner
