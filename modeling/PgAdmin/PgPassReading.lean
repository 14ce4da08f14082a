import PgAdmin.PgPassConfigLine

/-! What the reader of a .pgpass line makes of it, against the format. The line with its pairs of
backslashes halved falls into tokens; joined again they are the fields with the escapes of ordinary
letters left in, and from then on only empty fields and fields that end in a backslash matter. -/
namespace PgAdmin.pgPassConfigLine
open PgsObjects (Text)
open PgpassFormat Substitution Tokenizer

variable {field : List Letter} {ls : List (List Letter)} {first : Text} {rest tok : List Text}

def halved (field : List Letter) : Text :=
  field.flatMap fun l => if l.escaped ∧ l.char ≠ '\\' then ['\\', l.char] else [l.char]

def joined (field : List Letter) : Text :=
  field.flatMap fun l => if l.escaped ∧ mustEscape l.char = false then ['\\', l.char] else [l.char]

def pieces (field : List Letter) : List Text := (halved field).splitOn ':'

def Closed (field : List Letter) : Prop := ∀ l ∈ field, l.escaped = false → l.char ≠ ':'

theorem splitClosed (s : Text) : ∀ field ∈ split s, Closed field := by
  fun_induction split s with
  | case1 => simp [Closed]
  | case2 c s ih =>
    obtain ⟨field, ls, whole⟩ := List.exists_cons_of_ne_nil (splitNonempty s)
    rw [whole] at ih ⊢
    simpa [Closed] using ih
  | case3 s ih => simpa [Closed] using ih
  | case4 c s backslash colon ih =>
    obtain ⟨field, ls, whole⟩ := List.exists_cons_of_ne_nil (splitNonempty s)
    have other : c ≠ ':' := colon
    rw [whole] at ih ⊢
    simpa [Closed, other] using ih

theorem intercalateHead (l : Letter) (nonempty : ls ≠ []) :
    [':'].intercalate ((ls.modifyHead (l :: ·)).map halved) =
      halved [l] ++ [':'].intercalate (ls.map halved) := by
  obtain ⟨field, ls, rfl⟩ := List.exists_cons_of_ne_nil nonempty
  have head : halved (l :: field) = halved [l] ++ halved field := by simp [halved]
  cases ls with
  | nil => simp [head]
  | cons next ls => simp [head, List.intercalate_cons_cons]

theorem replacedHalves (s : Text) :
    replaceAll ['\\', '\\'] ['\\'] s = [':'].intercalate ((split s).map halved) := by
  fun_induction split s with
  | case1 => rfl
  | case2 c s ih =>
    rw [intercalateHead _ (splitNonempty s), ← ih]
    by_cases pair : c = '\\'
    · subst pair
      exact replaceAllHit (List.cons_ne_nil '\\' _) ['\\'] s
    · rw [replaceAllMiss (by simpa using Ne.symm pair), replaceAllMiss (by simp [Ne.symm pair])]
      simp [halved, pair]
  | case3 s ih =>
    rw [List.map_cons, List.intercalate_cons_of_ne_nil (by simpa using splitNonempty s), ← ih]
    exact replaceAllMiss (by simp)
  | case4 c s backslash colon ih =>
    rw [intercalateHead _ (splitNonempty s), ← ih]
    refine replaceAllMiss fun pair => ?_
    obtain ⟨same, next⟩ := List.cons_prefix_cons.mp pair
    obtain ⟨t, rfl⟩ := next
    exact backslash '\\' t same.symm rfl

theorem splitOnFront {front : Text} (free : ':' ∉ front) (s : Text) :
    (front ++ s).splitOn ':' = (s.splitOn ':').modifyHead (front ++ ·) := by
  induction front with
  | nil => cases h : s.splitOn ':' <;> simp [h]
  | cons c front ih =>
    obtain ⟨other, free⟩ : ':' ≠ c ∧ ':' ∉ front := by simpa using free
    rw [List.cons_append, List.splitOn_cons_eq_if_modifyHead, if_neg (by simpa using Ne.symm other),
      ih free, List.modifyHead_modifyHead]
    rfl

theorem joinPieces (closed : Closed field) (split : pieces field = first :: rest) (val : Text)
    (tok : List Text) :
    joinTokens (val ++ first) (rest ++ tok) = joinTokens (val ++ joined field) tok := by
  induction field generalizing val first rest with
  | nil =>
    cases split
    simp [joined]
  | cons l field ih =>
    obtain ⟨next, more, whole⟩ := List.exists_cons_of_ne_nil
      (List.splitOn_ne_nil ':' (halved field))
    have inner := ih (fun l member => closed l (List.mem_cons_of_mem _ member)) whole
    have head : joined (l :: field) = joined [l] ++ joined field := by simp [joined]
    have halves : halved (l :: field) = halved [l] ++ halved field := by simp [halved]
    by_cases colon : l.char = ':'
    · have escaped : l.escaped = true := by
        by_contra plain
        exact closed l List.mem_cons_self (Bool.eq_false_iff.mpr plain) colon
      have cut : pieces (l :: field) = ['\\'] :: next :: more := by
        have two : halved [l] = ['\\', ':'] := by simp [halved, escaped, colon]
        rw [pieces, halves, two]
        refine (List.splitOn_append_cons_self ['\\'] (halved field)).trans ?_
        rw [whole]
        rfl
      cases cut.symm.trans split
      rw [List.cons_append, joinTokens, if_pos (by simp), List.dropLast_concat]
      have again := inner (val ++ [':'])
      rw [List.append_assoc, List.append_assoc] at again
      rw [head]
      simpa [joined, escaped, colon, mustEscape] using again
    · have same : halved [l] = joined [l] := by simp [halved, joined, mustEscape, colon]
      have free : ':' ∉ halved [l] := by
        simp only [halved, List.flatMap_cons, List.flatMap_nil, List.append_nil]
        split <;> simp [Ne.symm colon]
      have cut : pieces (l :: field) = (halved [l] ++ next) :: more := by
        rw [pieces, halves, splitOnFront free, whole]
        rfl
      cases cut.symm.trans split
      rw [head, ← same, ← List.append_assoc, ← List.append_assoc]
      exact inner (val ++ halved [l])

theorem joinFields (val : Text) (closed : ∀ field ∈ ls, Closed field) :
    ∃ k, joinTokens val (ls.flatMap pieces) =
        ((joinTokens val (ls.map joined)).1, (ls.drop k).flatMap pieces) ∧
      (joinTokens val (ls.map joined)).2 = (ls.drop k).map joined := by
  induction ls generalizing val with
  | nil => exact ⟨0, rfl, rfl⟩
  | cons field ls ih =>
    have closedHere := closed field List.mem_cons_self
    obtain ⟨first, rest, cut⟩ := List.exists_cons_of_ne_nil
      (List.splitOn_ne_nil ':' (halved field))
    have cut : pieces field = first :: rest := cut
    rw [List.flatMap_cons, cut, List.map_cons, List.cons_append, joinTokens, joinTokens]
    by_cases ends : val.getLast? = some '\\'
    · obtain ⟨k, both⟩ := ih (val.dropLast ++ ':' :: joined field)
        fun field member => closed field (List.mem_cons_of_mem _ member)
      have here := joinPieces closedHere cut (val.dropLast ++ [':']) (ls.flatMap pieces)
      rw [List.append_assoc, List.append_assoc] at here
      refine ⟨k + 1, ?_⟩
      rw [if_pos ends, if_pos ends]
      exact ⟨here.trans both.1, both.2⟩
    · refine ⟨0, ?_⟩
      rw [if_neg ends, if_neg ends, List.drop_zero, List.flatMap_cons, cut]
      exact ⟨rfl, rfl⟩

theorem joinedNonempty {l : Letter} : joined (l :: field) ≠ [] := by
  simp only [joined, List.flatMap_cons]
  split <;> simp

theorem piecesNonempty {l : Letter} (closed : Closed (l :: field))
    (cut : pieces (l :: field) = first :: rest) : first ≠ [] := by
  obtain ⟨c, s, whole, other⟩ : ∃ c s, halved (l :: field) = c :: s ∧ c ≠ ':' := by
    by_cases kept : l.escaped ∧ l.char ≠ '\\'
    · exact ⟨'\\', l.char :: halved field, by simp [halved, kept], by decide⟩
    · refine ⟨l.char, halved field, by simp [halved, kept], fun colon => ?_⟩
      have escaped : l.escaped = true := by
        by_contra plain
        exact closed l List.mem_cons_self (Bool.eq_false_iff.mpr plain) colon
      exact kept ⟨escaped, by simp [colon]⟩
  rw [pieces, whole, List.splitOn_cons_eq_if_modifyHead, if_neg (by simpa using other)] at cut
  obtain ⟨next, more, split⟩ := List.exists_cons_of_ne_nil (List.splitOn_ne_nil ':' s)
  rw [split] at cut
  rw [← (List.cons.inj cut).1]
  exact List.cons_ne_nil c next

theorem valuesPieces (closed : ∀ field ∈ ls, Closed field) :
    values (ls.flatMap pieces) = values (ls.map joined) := by
  induction length : ls.length using Nat.strong_induction_on generalizing ls with
  | _ n ih =>
    subst length
    cases ls with
    | nil => rfl
    | cons field ls =>
      have closedRest : ∀ field ∈ ls, Closed field :=
        fun field member => closed field (List.mem_cons_of_mem _ member)
      cases field with
      | nil =>
        change values ([] :: ls.flatMap pieces) = values ([] :: ls.map joined)
        rw [valuesSkip, valuesSkip]
        exact ih _ (Nat.lt_succ_self _) closedRest rfl
      | cons l field =>
        obtain ⟨first, rest, cut⟩ := List.exists_cons_of_ne_nil
          (List.splitOn_ne_nil ':' (halved (l :: field)))
        have cut : pieces (l :: field) = first :: rest := cut
        have closedHere := closed (l :: field) List.mem_cons_self
        obtain ⟨k, both⟩ := joinFields (joined (l :: field)) closedRest
        have here : joinTokens first (rest ++ ls.flatMap pieces) =
            joinTokens (joined (l :: field)) (ls.flatMap pieces) :=
          joinPieces closedHere cut [] _
        have fewer : (ls.drop k).length < ((l :: field) :: ls).length := by
          rw [List.length_drop, List.length_cons]
          omega
        rw [List.flatMap_cons, cut, List.map_cons, List.cons_append,
          valuesTake (piecesNonempty closedHere cut), valuesTake joinedNonempty, here, both.1,
          both.2, ih _ fewer (fun field member => closedRest field (List.mem_of_mem_drop member)) rfl]

theorem joinMore (val : Text) (tok : List Text) (empty : ∀ token ∈ rest, token = []) :
    (joinTokens val (tok ++ rest)).1 = (joinTokens val tok).1 ∧ ∃ more, (∀ token ∈ more, token = []) ∧
      (joinTokens val (tok ++ rest)).2 = (joinTokens val tok).2 ++ more := by
  induction tok generalizing val with
  | nil =>
    cases rest with
    | nil => exact ⟨rfl, [], empty, rfl⟩
    | cons token rest =>
      have blank := empty token List.mem_cons_self
      subst blank
      rw [List.nil_append, joinTokens, joinTokens]
      split
      · -- val ends in a colon now
        have ends : joinTokens (val.dropLast ++ [':']) rest = (val.dropLast ++ [':'], rest) := by
          cases rest with
          | nil => simp [joinTokens]
          | cons token rest => simp [joinTokens]
        rw [ends]
        exact ⟨rfl, rest, fun token member => empty token (List.mem_cons_of_mem _ member), rfl⟩
      · exact ⟨rfl, [] :: rest, empty, rfl⟩
  | cons token tok ih =>
    rw [List.cons_append, joinTokens, joinTokens]
    split
    · exact ih _
    · exact ⟨rfl, rest, empty, rfl⟩

theorem valuesEmpty (empty : ∀ token ∈ tok, token = []) : values tok = [] := by
  induction tok with
  | nil => rw [values]
  | cons token tok ih =>
    rw [empty token List.mem_cons_self, valuesSkip]
    exact ih fun token member => empty token (List.mem_cons_of_mem _ member)

theorem valuesMore (tok : List Text) (empty : ∀ token ∈ rest, token = []) :
    values (tok ++ rest) = values tok := by
  induction length : tok.length using Nat.strong_induction_on generalizing tok rest with
  | _ n ih =>
    subst length
    cases tok with
    | nil => rw [List.nil_append, valuesEmpty empty, valuesNil]
    | cons token tok =>
      rw [List.cons_append]
      by_cases blank : token = []
      · rw [blank, valuesSkip, valuesSkip]
        exact ih _ (Nat.lt_succ_self _) tok empty rfl
      · obtain ⟨same, more, emptyMore, left⟩ := joinMore token tok empty
        rw [valuesTake blank, valuesTake blank, same, left]
        congr 1
        exact ih _ (Nat.lt_succ_of_le (joinTokensLength token tok)) _ emptyMore rfl

theorem splitOnFields (nonempty : ls ≠ []) :
    ([':'].intercalate (ls.map halved)).splitOn ':' = ls.flatMap pieces := by
  induction ls with
  | nil => contradiction
  | cons field ls ih =>
    cases ls with
    | nil => simp [pieces]
    | cons next ls =>
      rw [List.map_cons, List.map_cons, List.intercalate_cons_cons, List.append_assoc,
        List.singleton_append, List.splitOn_append_cons_self, ← List.map_cons,
        ih (List.cons_ne_nil next ls)]
      rfl

theorem readValues (s : Text) :
    values (retEmpty ':' (replaceAll ['\\', '\\'] ['\\'] s)) = values ((split s).map joined) := by
  obtain ⟨rest, empty, whole⟩ := retEmptyRest ':' (replaceAll ['\\', '\\'] ['\\'] s)
  rw [← valuesMore _ empty, ← whole, replacedHalves, splitOnFields (splitNonempty s),
    valuesPieces (splitClosed s)]

theorem createEntry {s : Text} (nonempty : s ≠ []) (active : s.head? ≠ some '#') :
    (create s).fields = (values ((split s).map joined)).takeD 5 [] := by
  rw [createFields, if_neg nonempty, if_neg active, readValues]

theorem createComment (s : Text) :
    (create ('#' :: s)).fields = (values ((split s).map joined)).takeD 5 [] := by
  have mid : (replaceAll ['\\', '\\'] ['\\'] ('#' :: s)).drop 1 =
      replaceAll ['\\', '\\'] ['\\'] s := by
    rw [replaceAllMiss (by simp)]
    rfl
  rw [createFields, if_neg (List.cons_ne_nil _ _),
    if_pos (show ('#' :: s).head? = some '#' from rfl), mid, readValues]

end PgAdmin.pgPassConfigLine
