import PgAdmin.LineEnds
import PgAdmin.PgPassCodec
import PgAdmin.WxString

/-! frmPgpassConfig: a .pgpass file is loaded line by line and saved from the fields of its lines.
What was a comment or an empty line is saved as an entry; an entry stays the same when its line is
one that is read as the format says. -/
namespace PgAdmin
open PgsObjects (Text)
open LineEnds Tokenizer wxString

structure frmPgpassConfig where
  lines : List pgPassConfigLine
  filetype : wxTextFileType

namespace frmPgpassConfig
open pgPassConfigLine PgpassFormat

/- The second Find() is not compared with anything: it fails only at position 0. -/
def fileType (str : Text) : wxTextFileType :=
  if 0 ≤ Find str ['\r'] then
    if 0 ≤ Find str ['\n', '\r'] ∨ Find str ['\r', '\n'] ≠ 0 then .dos else .mac
  else .unix

/- A blank line is added at the end, unless the last one is blank. -/
def DisplayFile (str : Text) : frmPgpassConfig :=
  let unix := if 0 ≤ Find str ['\r'] then Translate .unix str else str
  let lines := (retEmpty '\n' unix).map create
  let blank := match lines.getLast? with
    | none => [create []]
    | some last => if last.text ≠ [] then [create []] else []
  { lines := lines ++ blank, filetype := fileType str }

/- frmConfig::DoWriteFile -/
def DoWriteFile (self : frmPgpassConfig) (str : Text) : Text :=
  if self.filetype ≠ .unix then Translate self.filetype str else str

/- The last line is taken for the blank one. -/
def WriteFile (self : frmPgpassConfig) : Text :=
  self.DoWriteFile ((self.lines.take (self.lines.length - 1)).flatMap fun line =>
    written line ++ ['\n'])

def meaning (str : Text) : List Line := (fileLines str).map line

/- A line whose meaning is kept: a comment with another # after any colons, or an entry that is
read as it is meant. -/
def KeptLine : Text → Prop
  | [] => False
  | '#' :: s => (s.dropWhile (· = ':')).head? = some '#'
  | s => Legible 5 (split s)

theorem displayUnix (str : Text) :
    (if 0 ≤ Find str ['\r'] then Translate .unix str else str) = Translate .unix str := by
  split
  · rfl
  · rename_i none
    rw [findLetter] at none
    exact (translateUnix none).symm

theorem setValuesText (self : pgPassConfigLine) (iVarCount : ℕ) (vals : List Text) :
    (self.setValues iVarCount vals).text = self.text := by
  induction vals generalizing self iVarCount with
  | nil => rfl
  | cons val vals ih =>
    rw [setValues, ih]
    unfold setValue
    split <;> rfl

theorem createText (line : Text) : (create line).text = line := by
  unfold create Init
  split
  · rfl
  · exact setValuesText ..

theorem displayedLines (str : Text) :
    (DisplayFile str).lines.take ((DisplayFile str).lines.length - 1) =
      ((fileLines str).rdropWhile List.isEmpty).map create := by
  have kept : (fileLines str).rdropWhile List.isEmpty =
      ((Translate .unix str).splitOn '\n').rdropWhile List.isEmpty := by
    simp only [fileLines, Tokenizer.lines]
    split
    · rename_i last
      obtain ⟨front, whole⟩ := List.getLast?_eq_some_iff.mp last
      rw [whole, List.dropLast_concat, List.rdropWhile_concat_pos _ _ _ rfl]
    · rfl
  unfold DisplayFile
  simp only [displayUnix, kept, retEmpty]
  rcases List.eq_nil_or_concat' (((Translate .unix str).splitOn '\n').rdropWhile List.isEmpty) with
    none | ⟨front, last, whole⟩
  · rw [none]
    by_cases blank : Translate .unix str = []
    · simp [blank]
    · simp [blank, createText]
  · have filled : last ≠ [] := by
      have stop := List.rdropWhile_last_not List.isEmpty ((Translate .unix str).splitOn '\n')
        (by simp [whole])
      simpa [whole] using stop
    rw [whole]
    simp [createText, filled]
    rw [List.append_cons]
    exact List.take_left' (by simp)

theorem savedLines (str : Text) (unbroken : ∀ w ∈ (fileLines str).rdropWhile List.isEmpty,
    Unbroken (written (create w))) :
    fileLines (DisplayFile str).WriteFile =
      ((fileLines str).rdropWhile List.isEmpty).map fun w => written (create w) := by
  have text : ((DisplayFile str).lines.take ((DisplayFile str).lines.length - 1)).flatMap
      (fun line => written line ++ ['\n']) =
      (((fileLines str).rdropWhile List.isEmpty).map fun w => written (create w)).flatMap
        (· ++ ['\n']) := by
    rw [displayedLines, List.flatMap_map, List.flatMap_map]
  have noReturn : '\r' ∉ (((fileLines str).rdropWhile List.isEmpty).map
      fun w => written (create w)).flatMap (· ++ ['\n']) := by
    simp only [List.mem_flatMap, List.mem_map, List.mem_append, List.mem_singleton]
    rintro ⟨_, ⟨w, member, rfl⟩, inside | newline⟩
    · exact (unbroken w member).2 inside
    · exact nomatch newline
  have saved : fileLines (DisplayFile str).WriteFile = Tokenizer.lines '\n'
      ((((fileLines str).rdropWhile List.isEmpty).map fun w => written (create w)).flatMap
        (· ++ ['\n'])) := by
    unfold WriteFile DoWriteFile
    rw [text]
    split
    · exact congrArg _ ((translateTwice ..).trans (translateUnix noReturn))
    · exact congrArg _ (translateUnix noReturn)
  rw [saved, linesOf]
  rintro _ member
  obtain ⟨w, kept, rfl⟩ := List.mem_map.mp member
  exact (unbroken w kept).1

section Letters
variable {c : Char} {tok : List Text} {val : Text}

theorem joinTokensLetters (inside : c ∈ (joinTokens val tok).1 ∨ c ∈ (joinTokens val tok).2.flatten) :
    c = ':' ∨ c ∈ val ∨ c ∈ tok.flatten := by
  induction tok generalizing val with
  | nil =>
    rw [joinTokens] at inside
    split at inside
    · have kept : c ∈ val.dropLast ∨ c = ':' := by simpa using inside
      exact kept.symm.imp_right fun here => .inl (List.mem_of_mem_dropLast here)
    · exact .inr (.inl (by simpa using inside))
  | cons token tok ih =>
    rw [joinTokens] at inside
    split at inside
    · rcases ih inside with colon | here | later
      · exact .inl colon
      · have kept : c ∈ val.dropLast ∨ c = ':' ∨ c ∈ token := by simpa using here
        rcases kept with front | colon | next
        · exact .inr (.inl (List.mem_of_mem_dropLast front))
        · exact .inl colon
        · exact .inr (.inr (by simp [next]))
      · exact .inr (.inr (List.mem_append_right token later))
    · exact .inr inside

theorem valuesLetters (inside : c ∈ (values tok).flatten) : c = ':' ∨ c ∈ tok.flatten := by
  fun_induction values tok with
  | case1 => exact .inr inside
  | case2 tok ih => simpa using ih inside
  | case3 val tok nonempty ih =>
    rw [List.flatten_cons, List.mem_append] at inside
    have either : c = ':' ∨ c ∈ (joinTokens val tok).1 ∨ c ∈ (joinTokens val tok).2.flatten := by
      rcases inside with here | later
      · exact .inr (.inl here)
      · exact (ih later).imp_right .inr
    rcases either with colon | here
    · exact .inl colon
    · exact (joinTokensLetters here).imp_right fun kept => by simpa using kept

theorem splitLetters (s : Text) : ∀ field ∈ split s, ∀ l ∈ field, l.char ∈ s := by
  fun_induction split s with
  | case1 => simp
  | case2 c s ih =>
    obtain ⟨field, ls, whole⟩ := List.exists_cons_of_ne_nil (splitNonempty s)
    rw [whole] at ih ⊢
    rw [List.modifyHead_cons]
    grind
  | case3 s ih => simpa using fun field member l here => .inr (ih field member l here)
  | case4 c s _ _ ih =>
    obtain ⟨field, ls, whole⟩ := List.exists_cons_of_ne_nil (splitNonempty s)
    rw [whole] at ih ⊢
    rw [List.modifyHead_cons]
    grind

theorem joinedLetters {field : List Letter} (inside : c ∈ joined field) :
    c = '\\' ∨ ∃ l ∈ field, l.char = c := by
  obtain ⟨l, member, here⟩ := List.mem_flatMap.mp inside
  split at here
  · exact (List.mem_cons.mp here).imp_right fun same =>
      ⟨l, member, (List.mem_singleton.mp same).symm⟩
  · exact .inr ⟨l, member, (List.mem_singleton.mp here).symm⟩

theorem readLetters (s : Text) (inside : c ∈ (values ((split s).map joined)).flatten) :
    c = ':' ∨ c = '\\' ∨ c ∈ s := by
  refine (valuesLetters inside).imp_right fun here => ?_
  obtain ⟨value, member, here⟩ := List.mem_flatten.mp here
  obtain ⟨field, among, rfl⟩ := List.mem_map.mp member
  refine (joinedLetters here).imp_right ?_
  rintro ⟨l, within, rfl⟩
  exact splitLetters s field among l within

theorem takeDLetters (n : ℕ) (vals : List Text) (inside : c ∈ (vals.takeD n []).flatten) :
    c ∈ vals.flatten := by
  induction n generalizing vals with
  | zero => simp at inside
  | succ n ih =>
    cases vals with
    | nil => simp at inside
    | cons val vals =>
      rw [List.takeD_succ, List.flatten_cons, List.mem_append] at inside
      rw [List.flatten_cons, List.mem_append]
      exact inside.imp_right (ih vals)

theorem createLetters (s : Text) (inside : c ∈ (create s).fields.flatten) :
    c = ':' ∨ c = '\\' ∨ c ∈ s := by
  cases s with
  | nil => simp [createFields] at inside
  | cons d s =>
    by_cases comment : d = '#'
    · subst comment
      rw [createComment] at inside
      exact (readLetters s (takeDLetters 5 _ inside)).imp_right
        (·.imp_right (List.mem_cons_of_mem _))
    · rw [createEntry (List.cons_ne_nil d s) (by simpa using comment)] at inside
      exact readLetters (d :: s) (takeDLetters 5 _ inside)

theorem writtenLetters (line : pgPassConfigLine) (inside : c ∈ written line) :
    c = ':' ∨ c = '\\' ∨ c ∈ line.fields.flatten := by
  have one : ∀ value : Text, c ∈ escape value → c = '\\' ∨ c ∈ value := by
    intro value here
    obtain ⟨d, member, same⟩ := List.mem_flatMap.mp here
    split at same
    · refine (List.mem_cons.mp same).imp_right fun last => ?_
      rwa [List.mem_singleton.mp last]
    · right
      rwa [List.mem_singleton.mp same]
  simp only [written, escapedEscape, List.mem_append, List.mem_cons] at inside
  simp only [fields, List.flatten_cons, List.flatten_nil, List.mem_append, List.append_nil]
  grind

end Letters

theorem writtenUnbroken {w : Text} (unbroken : Unbroken w) : Unbroken (written (create w)) := by
  have kept : ∀ c, c ∈ written (create w) → c = ':' ∨ c = '\\' ∨ c ∈ w := by
    intro c inside
    rcases writtenLetters _ inside with colon | backslash | here
    · exact .inl colon
    · exact .inr (.inl backslash)
    · exact createLetters w here
  constructor
  · exact fun inside => unbroken.1 (by simpa using kept _ inside)
  · exact fun inside => unbroken.2 (by simpa using kept _ inside)

theorem lineWritten (l : pgPassConfigLine) : line (written l) =
    if l.hostname.head? = some '#' then .comment else .entry l.fields := by
  have nonempty : written l ≠ [] := by simp [written]
  have values : entry (written l) = l.fields := by
    rw [entry, writtenSplit, List.map_map, List.map_congr_left (g := id) (by simp), List.map_id]
    rfl
  rw [line, if_neg nonempty, values]
  exact if_congr (writtenHead l) rfl rfl

theorem joinTokensHead (val : Text) (tok : List Text) :
    (joinTokens val tok).1.head? = some '#' ↔ val.head? = some '#' := by
  by_cases ends : val.getLast? = some '\\'
  · obtain ⟨more, whole⟩ := joinTokensOther ends tok
    rw [whole]
    match val with
    | [] => simp at ends
    | [c] => simp_all
    | c :: d :: val => simp
  · rw [joinTokensSelf ends]

theorem valuesHead (l : Letter) (field : List Letter) (tok : List Text) :
    ((values (joined (l :: field) :: tok)).head?.getD []).head? = some '#' ↔
      (joined [l]).head? = some '#' := by
  have front : joined (l :: field) = joined [l] ++ joined field := by simp [joined]
  have head : (joined (l :: field)).head? = (joined [l]).head? := by
    rw [front, List.head?_append_of_ne_nil _ joinedNonempty]
  rw [valuesTake joinedNonempty, List.head?_cons, Option.getD_some, joinTokensHead, head]

theorem hostnameMarked (s : Text) :
    ((values ((split s).map joined)).head?.getD []).head? = some '#' ↔
      (s.dropWhile (· = ':')).head? = some '#' := by
  fun_induction split s with
  | case1 => simp [joined, valuesSkip]
  | case2 c s ih =>
    obtain ⟨field, ls, whole⟩ := List.exists_cons_of_ne_nil (splitNonempty s)
    rw [whole, List.modifyHead_cons, List.map_cons, valuesHead,
      List.dropWhile_cons_of_neg (by decide)]
    by_cases must : mustEscape c = true
    · have other : c ≠ '#' := by
        rintro rfl
        exact absurd must (by decide)
      simp [joined, must, other]
    · simp [joined, must]
  | case3 s ih =>
    rw [List.map_cons, List.dropWhile_cons_of_pos (by decide)]
    change ((values ([] :: _)).head?.getD []).head? = some '#' ↔ _
    rw [valuesSkip]
    exact ih
  | case4 c s _ colon ih =>
    obtain ⟨field, ls, whole⟩ := List.exists_cons_of_ne_nil (splitNonempty s)
    rw [whole, List.modifyHead_cons, List.map_cons, valuesHead,
      List.dropWhile_cons_of_neg (by simpa using colon)]
    simp [joined]

theorem takeDHead (vals : List Text) : (vals.takeD 5 []).head? = some (vals.head?.getD []) := by
  rw [List.takeD_succ, List.head?_cons]

theorem legibleHead {s : Text} (legible : Legible 5 (split s)) (active : s.head? ≠ some '#') :
    ((entry s).head?.getD []).head? ≠ some '#' := by
  rw [entry, takeDHead, Option.getD_some]
  revert legible
  fun_cases split s with
  | case1 => simp [meant]
  | case2 c s =>
    obtain ⟨field, ls, whole⟩ := List.exists_cons_of_ne_nil (splitNonempty s)
    rw [whole, List.modifyHead_cons]
    rintro ⟨regular, -⟩
    have must : mustEscape c = true := regular ⟨true, c⟩ List.mem_cons_self rfl
    have other : c ≠ '#' := by
      rintro rfl
      exact absurd must (by decide)
    simpa [meant] using other
  | case3 s => simp [meant]
  | case4 c s =>
    obtain ⟨field, ls, whole⟩ := List.exists_cons_of_ne_nil (splitNonempty s)
    rw [whole, List.modifyHead_cons]
    simpa [meant] using fun _ => active

theorem createHostname {s : Text} {vals : List Text} (read : (create s).fields = vals.takeD 5 []) :
    (create s).hostname = vals.head?.getD [] := by
  have head := congrArg List.head? read
  rw [takeDHead] at head
  exact Option.some.inj head

theorem lineKept (s : Text) : line (written (create s)) = line s ↔ KeptLine s := by
  rw [lineWritten]
  cases s with
  | nil => simp [KeptLine, line, create, Init]
  | cons c s =>
    by_cases comment : c = '#'
    · subst comment
      have host : (create ('#' :: s)).hostname.head? = some '#' ↔
          (s.dropWhile (· = ':')).head? = some '#' := by
        rw [createHostname (createComment s), hostnameMarked]
      change _ = Line.comment ↔ (s.dropWhile (· = ':')).head? = some '#'
      rw [← host]
      simp
    · have active : (c :: s).head? ≠ some '#' := by simpa using comment
      have read := createEntry (List.cons_ne_nil c s) active
      have kept : KeptLine (c :: s) ↔ Legible 5 (split (c :: s)) := by
        rw [KeptLine]
        · exact List.cons_ne_nil c s
        · exact fun rest same => comment (List.cons.inj same).1
      have meaning : line (c :: s) = .entry (entry (c :: s)) := by
        rw [line, if_neg (List.cons_ne_nil c s), if_neg active]
      rw [kept, meaning, ← valuesLegible, ← read]
      constructor
      · intro same
        split at same
        · exact nomatch same
        · exact Line.entry.inj same
      · intro same
        have legible := (valuesLegible 5 (split (c :: s))).mp (read.symm.trans same)
        have head := legibleHead legible active
        have first : (create (c :: s)).hostname = (entry (c :: s)).head?.getD [] := by
          rw [entry, ← same]
          rfl
        rw [if_neg (first ▸ head)]
        exact congrArg Line.entry same

theorem savedMeaning (str : Text) : meaning (DisplayFile str).WriteFile =
    ((fileLines str).rdropWhile List.isEmpty).map fun w => line (written (create w)) := by
  have unbroken : ∀ w ∈ (fileLines str).rdropWhile List.isEmpty, Unbroken (written (create w)) :=
    fun w member => writtenUnbroken
      (fileLinesUnbroken ((List.rdropWhile_prefix List.isEmpty _).subset member))
  rw [meaning, savedLines str unbroken, List.map_map]
  rfl

/-- A file that is loaded and saved says the same if and only if each of its lines is kept: there
is no empty line, no comment but one whose next letter after any colons is another #, and the first
five fields of each entry escape nothing but backslashes and colons, none ends in a backslash, and
none that is empty has one that is not after it. -/
theorem fileKept (str : Text) :
    meaning (DisplayFile str).WriteFile = meaning str ↔ ∀ w ∈ fileLines str, KeptLine w := by
  rw [savedMeaning, meaning]
  constructor
  · intro same
    have length := congrArg List.length same
    rw [List.length_map, List.length_map] at length
    have whole := (List.rdropWhile_prefix List.isEmpty (fileLines str)).eq_of_length length
    rw [whole] at same
    exact fun w member => (lineKept w).mp (List.map_inj_left.mp same w member)
  · intro kept
    have whole : (fileLines str).rdropWhile List.isEmpty = fileLines str := by
      refine List.rdropWhile_eq_self_iff.mpr fun some blank => ?_
      have last := kept _ (List.getLast_mem some)
      rw [List.isEmpty_iff.mp blank] at last
      exact last
    rw [whole]
    exact List.map_congr_left fun w member => (lineKept w).mpr (kept w member)

/- A comment becomes an entry. -/
theorem commentActivated : ¬ ∀ str, meaning (DisplayFile str).WriteFile = meaning str := by
  intro same
  have here := same ['#', 'a']
  rw [savedMeaning, meaning, show fileLines ['#', 'a'] = [['#', 'a']] by decide] at here
  have marked : (['a'].dropWhile (· = ':')).head? = some '#' :=
    (lineKept ['#', 'a']).mp (List.cons.inj here).1
  exact absurd marked (by decide)

end frmPgpassConfig
end PgAdmin
