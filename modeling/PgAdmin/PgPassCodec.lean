import PgAdmin.PgPassReading

/-! The fields of a .pgpass line, escaped as they are written and read again. They come back unless
one of them ends in a backslash, an empty one stands before one that is not, or the first starts
with the letter of a comment. -/
namespace PgAdmin.pgPassConfigLine
open PgsObjects (Text)
open PgpassFormat Substitution Tokenizer

variable {field : List Letter} {ls : List (List Letter)} {val : Text} {tok : List Text} {n : ℕ}

/- Only backslashes and colons are escaped. -/
def Regular (field : List Letter) : Prop :=
  ∀ l ∈ field, l.escaped = true → mustEscape l.char = true

/- The first n fields are regular, none of them ends in a backslash, and after an empty one all
fields are empty. -/
def Legible : ℕ → List (List Letter) → Prop
  | 0, _ => True
  | _, [] => True
  | n + 1, field :: ls =>
    Regular field ∧ (meant field).getLast? ≠ some '\\' ∧ (field = [] → ∀ next ∈ ls, next = []) ∧
      Legible n ls

theorem joinedMeant (field : List Letter) : joined field = meant field ↔ Regular field := by
  have longer : ∀ field : List Letter, (meant field).length ≤ (joined field).length := by
    intro field
    induction field with
    | nil => exact le_rfl
    | cons l field ih =>
      simp only [meant, joined, List.map_cons, List.flatMap_cons, List.length_cons,
        List.length_append] at ih ⊢
      split <;> simp only [List.length_cons, List.length_nil] <;> omega
  induction field with
  | nil => simp [joined, meant, Regular]
  | cons l field ih =>
    by_cases kept : l.escaped ∧ mustEscape l.char = false
    · have more : joined (l :: field) = '\\' :: l.char :: joined field := by simp [joined, kept]
      refine iff_of_false (fun same => ?_) fun regular => ?_
      · have length := congrArg List.length same
        have least := longer field
        rw [more] at length
        simp only [meant, List.length_cons, List.length_map] at length least
        omega
      · exact absurd (regular l List.mem_cons_self kept.1) (by simp [kept.2])
    · have here : l.escaped = true → mustEscape l.char = true := by simpa using kept
      have one : joined (l :: field) = l.char :: joined field := by simp [joined, kept]
      have rest : Regular (l :: field) ↔ Regular field := by simpa [Regular] using fun _ => here
      rw [one, rest]
      exact Iff.trans (by simp [meant]) ih

theorem joinedLast (field : List Letter) : (joined field).getLast? = (meant field).getLast? := by
  rcases List.eq_nil_or_concat' field with rfl | ⟨front, l, rfl⟩
  · rfl
  · simp only [joined, meant, List.flatMap_append, List.flatMap_singleton, List.map_append,
      List.map_singleton, List.getLast?_append, List.getLast?_singleton]
    split <;> rfl

theorem joinTokensOther (ends : val.getLast? = some '\\') (tok : List Text) :
    ∃ more, (joinTokens val tok).1 = val.dropLast ++ ':' :: more := by
  induction tok generalizing val with
  | nil => exact ⟨[], by rw [joinTokens, if_pos ends]⟩
  | cons token tok ih =>
    rw [joinTokens, if_pos ends]
    by_cases again : (val.dropLast ++ ':' :: token).getLast? = some '\\'
    · obtain ⟨more, whole⟩ := ih again
      have inside : token ≠ [] := by
        rintro rfl
        simp at again
      refine ⟨token.dropLast ++ ':' :: more, ?_⟩
      rw [whole, List.dropLast_append_of_ne_nil (List.cons_ne_nil ':' token),
        List.dropLast_cons_of_ne_nil inside]
      simp
    · refine ⟨token, ?_⟩
      cases tok <;> rw [joinTokens, if_neg again]

theorem joinedApart (ends : (meant field).getLast? = some '\\') (more : Text) :
    (joined field).dropLast ++ ':' :: more ≠ meant field := by
  induction field with
  | nil => exact nomatch ends
  | cons l field ih =>
    cases field with
    | nil =>
      have backslash : l.char = '\\' := by simpa [meant] using ends
      simp [joined, meant, backslash, mustEscape]
    | cons next field =>
      have endsRest : (meant (next :: field)).getLast? = some '\\' := by
        simpa [meant] using ends
      have head : joined (l :: next :: field) = joined [l] ++ joined (next :: field) := by
        simp [joined]
      rw [head, List.dropLast_append_of_ne_nil joinedNonempty, List.append_assoc]
      by_cases kept : l.escaped ∧ mustEscape l.char = false
      · have other : l.char ≠ '\\' := fun same => by simp [same, mustEscape] at kept
        simp [joined, meant, kept, Ne.symm other]
      · have one : joined [l] = [l.char] := by simp [joined, kept]
        rw [one]
        intro same
        exact ih endsRest (List.cons.inj same).2

theorem valuesNone : values tok = [] ↔ ∀ token ∈ tok, token = [] := by
  refine ⟨fun none => ?_, valuesEmpty⟩
  induction tok with
  | nil => simp
  | cons token tok ih =>
    by_cases empty : token = []
    · rw [empty, valuesSkip] at none
      simpa [empty] using ih none
    · rw [valuesTake empty] at none
      exact nomatch none

theorem joinTokensSelf (ends : val.getLast? ≠ some '\\') (tok : List Text) :
    joinTokens val tok = (val, tok) := by
  cases tok <;> rw [joinTokens, if_neg ends]

theorem valuesNonempty : [] ∉ values tok := by
  fun_induction values tok with
  | case1 => simp
  | case2 tok ih => exact ih
  | case3 val tok nonempty ih =>
    have first : (joinTokens val tok).1 ≠ [] := by
      by_cases ends : val.getLast? = some '\\'
      · obtain ⟨more, whole⟩ := joinTokensOther ends tok
        simp [whole]
      · rwa [joinTokensSelf ends]
    simp [ih, first.symm]

theorem valuesLegible (n : ℕ) (ls : List (List Letter)) :
    (values (ls.map joined)).takeD n [] = (ls.map meant).takeD n [] ↔ Legible n ls := by
  induction n generalizing ls with
  | zero => simp [Legible]
  | succ n ih =>
    cases ls with
    | nil => simp [Legible]
    | cons field ls =>
      have legible : Legible (n + 1) (field :: ls) ↔ Regular field ∧
          (meant field).getLast? ≠ some '\\' ∧ (field = [] → ∀ next ∈ ls, next = []) ∧
          Legible n ls := Iff.rfl
      rw [legible, List.map_cons, List.map_cons, List.takeD_succ (meant field :: _)]
      simp only [List.head?_cons, Option.getD_some, List.tail_cons]
      cases field with
      | nil =>
        change (values ([] :: ls.map joined)).takeD (n + 1) [] = [] :: _ ↔ _
        rw [valuesSkip, List.takeD_succ, List.cons.injEq]
        have empties : values (ls.map joined) = [] ↔ ∀ next ∈ ls, next = [] := by
          rw [valuesNone, List.forall_mem_map]
          refine forall₂_congr fun next _ => ⟨fun none => ?_, fun none => by rw [none]; rfl⟩
          cases next with
          | nil => rfl
          | cons l next => exact absurd none joinedNonempty
        cases read : values (ls.map joined) with
        | nil =>
          have rest := ih ls
          rw [read] at rest
          simpa [Regular, meant, eq_true (empties.mp read)] using rest
        | cons first more =>
          refine iff_of_false (fun same => ?_) fun both => ?_
          · have member : [] ∈ values (ls.map joined) := by
              rw [read]
              exact List.mem_cons.mpr (.inl same.1.symm)
            exact valuesNonempty member
          · cases read.symm.trans (empties.mpr (both.2.2.1 rfl))
      | cons l field =>
        rw [valuesTake joinedNonempty, List.takeD_succ]
        simp only [List.head?_cons, Option.getD_some, List.tail_cons, List.cons.injEq]
        by_cases ends : (meant (l :: field)).getLast? = some '\\'
        · obtain ⟨more, whole⟩ := joinTokensOther ((joinedLast (l :: field)).trans ends)
            (ls.map joined)
          refine iff_of_false (fun same => ?_) fun both => both.2.1 ends
          exact joinedApart ends more (whole.symm.trans same.1)
        · have self : joinTokens (joined (l :: field)) (ls.map joined) =
              (joined (l :: field), ls.map joined) :=
            joinTokensSelf (by rwa [joinedLast]) (ls.map joined)
          rw [self, joinedMeant, ih]
          simp [ends]

theorem joinTokensTotal (val : Text) (tok : List Text) :
    (joinTokens val tok).1.length + (joinTokens val tok).2.flatten.length =
      val.length + tok.flatten.length := by
  induction tok generalizing val with
  | nil =>
    rw [joinTokens]
    split
    · rename_i ends
      have inside : val ≠ [] := by
        rintro rfl
        simp at ends
      have some := List.length_pos_iff.mpr inside
      simp only [List.length_append, List.length_dropLast, List.length_singleton, List.flatten_nil,
        List.length_nil]
      omega
    · rfl
  | cons token tok ih =>
    rw [joinTokens]
    split
    · rename_i ends
      have inside : val ≠ [] := by
        rintro rfl
        simp at ends
      have some := List.length_pos_iff.mpr inside
      rw [ih]
      simp only [List.length_append, List.length_dropLast, List.length_cons, List.flatten_cons]
      omega
    · rfl

theorem valuesTotal (tok : List Text) : (values tok).flatten.length = tok.flatten.length := by
  fun_induction values tok with
  | case1 => rfl
  | case2 tok ih => simpa using ih
  | case3 val tok nonempty ih =>
    rw [List.flatten_cons, List.length_append, ih, joinTokensTotal]
    simp

theorem takeDTotal (n : ℕ) (vals : List Text) :
    (vals.takeD n []).flatten.length ≤ vals.flatten.length := by
  induction n generalizing vals with
  | zero => simp
  | succ n ih =>
    cases vals with
    | nil => simp
    | cons val vals => simpa using ih vals

theorem escapedEscape (value : Text) : escaped value = escape value := by
  rw [escaped, replaceLetter, replaceLetter, List.flatMap_assoc, escape]
  congr 1
  funext c
  by_cases backslash : c = '\\'
  · subst backslash
    rfl
  · rw [if_neg backslash]
    by_cases colon : c = ':'
    · subst colon
      rfl
    · simp [mustEscape, backslash, colon]

theorem writtenFields (line : pgPassConfigLine) :
    written line = [':'].intercalate (line.fields.map escape) := by
  simp [written, fields, escapedEscape, List.intercalate_cons_cons]

theorem writtenSplit (line : pgPassConfigLine) : split (written line) = line.fields.map letters := by
  rw [writtenFields]
  exact splitFields _ (List.cons_ne_nil _ _)

theorem lettersRegular (value : Text) : Regular (letters value) := by
  rintro l member escaped
  obtain ⟨c, -, rfl⟩ := List.mem_map.mp member
  exact escaped

theorem lettersJoined (vals : List Text) : (vals.map letters).map joined = vals := by
  rw [List.map_map, List.map_congr_left (g := id), List.map_id]
  intro value _
  exact ((joinedMeant _).mpr (lettersRegular value)).trans (meantLetters value)

theorem lettersLegible {n : ℕ} {vals : List Text} (fits : vals.length ≤ n) :
    Legible n (vals.map letters) ↔ (∀ value ∈ vals, value.getLast? ≠ some '\\') ∧
      vals.Pairwise fun value next => value = [] → next = [] := by
  induction n generalizing vals with
  | zero =>
    rw [List.eq_nil_of_length_eq_zero (Nat.le_zero.mp fits)]
    simp [Legible]
  | succ n ih =>
    cases vals with
    | nil => simp [Legible]
    | cons value vals =>
      have blank : ∀ value, letters value = [] ↔ value = [] := fun value => List.map_eq_nil_iff
      rw [List.map_cons, Legible, meantLetters, ih (Nat.le_of_succ_le_succ fits), blank,
        List.forall_mem_map, List.forall_mem_cons, List.pairwise_cons]
      simp only [blank, lettersRegular, true_and]
      constructor
      · rintro ⟨ends, empty, rest, pairs⟩
        exact ⟨⟨ends, rest⟩, fun next member none => empty none next member, pairs⟩
      · rintro ⟨⟨ends, rest⟩, empty, pairs⟩
        exact ⟨ends, fun none next member => empty next member none, rest, pairs⟩

/- The values of a line that the file gives back. -/
structure Plain (line : pgPassConfigLine) : Prop where
  active : line.hostname.head? ≠ some '#'
  ends : ∀ value ∈ line.fields, value.getLast? ≠ some '\\'
  filled : line.fields.Pairwise fun value next => value = [] → next = []

theorem writtenHead (line : pgPassConfigLine) :
    (written line).head? = some '#' ↔ line.hostname.head? = some '#' := by
  rw [written, escapedEscape]
  cases line.hostname with
  | nil => simp [escape]
  | cons c hostname =>
    rw [escape, List.flatMap_cons]
    cases must : mustEscape c with
    | true =>
      have other : c ≠ '#' := by
        rintro rfl
        exact absurd must (by decide)
      simp [other]
    | false => simp

/-- A line that was written is read back if and only if no field ends in a backslash, only empty
fields come after an empty one, and the first does not start with #; Init always ends. -/
theorem passEntryReadBack (line : pgPassConfigLine) :
    ((create (written line)).fields = line.fields ↔ Plain line) ∧
      ∀ val tok, joinWithin (tok.length + 2) val tok = some (joinTokens val tok) := by
  refine ⟨?_, joinTokensEnds⟩
  by_cases comment : line.hostname.head? = some '#'
  · refine iff_of_false (fun same => ?_) fun plain => plain.active comment
    obtain ⟨hostname, marked⟩ : ∃ hostname, line.hostname = '#' :: hostname := by
      cases here : line.hostname with
      | nil => simp [here] at comment
      | cons c hostname => exact ⟨hostname, by simpa [here] using comment⟩
    have whole : written line = '#' :: written { line with hostname } := by
      simp [written, marked, escapedEscape, escape, mustEscape]
    -- the fields read have fewer letters than those written
    have total := takeDTotal 5 (values ({ line with hostname }.fields))
    rw [whole, createComment, writtenSplit, lettersJoined] at same
    rw [same, valuesTotal] at total
    simp [fields, marked] at total
  · have nonempty : written line ≠ [] := by simp [written]
    have active : (written line).head? ≠ some '#' := fun head => comment ((writtenHead line).mp head)
    have five : line.fields = ((line.fields.map letters).map meant).takeD 5 [] := by
      simp [fields]
    rw [createEntry nonempty active, writtenSplit]
    conv_lhs => rhs; rw [five]
    rw [valuesLegible, lettersLegible (show line.fields.length ≤ 5 from le_rfl)]
    exact ⟨fun both => ⟨comment, both.1, both.2⟩, fun plain => ⟨plain.ends, plain.filled⟩⟩

/- A password that ends in a backslash comes back with a colon in its place. -/
theorem backslashLost : ¬ ∀ line : pgPassConfigLine, (create (written line)).fields = line.fields := by
  intro same
  have lost := same { hostname := ['h'], port := ['p'], database := ['d'], username := ['u'],
                      password := ['w', '\\'] }
  rw [createEntry (by simp [written]) (by rw [Ne, writtenHead]; decide), writtenSplit,
    lettersJoined] at lost
  simp [fields, values, joinTokens] at lost

end PgAdmin.pgPassConfigLine
