import PgAdmin.WxString

/-! Type modifiers: pgDatatype's constructor takes the length and the precision out of the modifier of a column, and
GetTypmod makes a modifier of them. Each has its own list of the types that do it in a way of their own. -/
namespace PgAdmin
open PgsObjects (Text)

structure pgDatatype where
  needSchema : Bool
  schema : Text
  name : Text
  length : Text
  array : Text
  len : ℤ
  prec : ℤ

namespace pgDatatype
open wxString

def NumToStr : ℤ → Text
  | .ofNat n => Nat.toDigits 10 n
  | .negSucc n => '-' :: Nat.toDigits 10 (n + 1)

def StrToLong (value : Text) : ℤ :=
  let number (s : Text) : ℕ := Nat.ofDigitChars 10 (s.takeWhile Char.isDigit) 0
  match value.dropWhile isSpace with
  | '-' :: s => -number s
  | '+' :: s => number s
  | s => number s

def numeric : Text := "numeric".toList
def interval : Text := "interval".toList
def date : Text := "date".toList

def plainNames : List Text :=
  ["time".toList, "timetz".toList, "time without time zone".toList, "time with time zone".toList,
    "timestamp".toList, "timestamptz".toList, "timestamp without time zone".toList,
    "timestamp with time zone".toList, "bit".toList, "bit varying".toList, "varbit".toList]

def plain (name : Text) : Bool := plainNames.any (· == name)

def skipSchema (schema typname : Text) : Text :=
  if 0 ≤ Find typname (schema ++ ['"', '.']) then typname.drop (schema.length + 3)
  else if 0 ≤ Find typname (schema ++ ['.']) then typname.drop (schema.length + 1)
  else typname

def skipUnderscore (name : Text) (numdims : ℤ) : Text × ℤ :=
  if ['_'].isPrefixOf name then (name.drop 1, if numdims = 0 then 1 else numdims) else (name, numdims)

def skipBrackets (name : Text) (numdims : ℤ) : Text × ℤ :=
  if Right name 2 = ['[', ']'] then (name.take (name.length - 2), if numdims = 0 then 1 else numdims)
  else (name, numdims)

def skipQuotes (name : Text) : Text :=
  if ['"'].isPrefixOf name ∧ ['"'].isSuffixOf name then Mid name 1 (name.length - 2) else name

def typeName (schema typname : Text) (numdims : ℤ) : Text × ℤ :=
  let (name, numdims) := skipUnderscore (skipSchema schema typname) numdims
  let (name, numdims) := skipBrackets name numdims
  (skipQuotes name, numdims)

/- The text of the length, the length and the precision. The fields of a modifier are 16 bits each. -/
def decode (name : Text) (typmod : ℤ) : Text × ℤ × ℤ :=
  if typmod ≠ -1 then
    let (length, len, prec) :=
      if name = numeric then
        let len := (typmod - 4) / 65536
        let prec := (typmod - 4) % 65536
        ('(' :: NumToStr len ++ (if prec ≠ 0 then ',' :: NumToStr prec else []), len, prec)
      else if plain name then ('(' :: NumToStr typmod, typmod, 0)
      else if name = interval then ('(' :: NumToStr (typmod % 65536), typmod % 65536, 0)
      else if name = date then ([], 0, 0)
      else ('(' :: NumToStr (typmod - 4), typmod - 4, 0)
    (if 0 < length.length then length ++ [')'] else length, len, prec)
  else ([], 0, 0)

def make (nsp typname : Text) (isDup : Bool) (numdims typmod : ℤ) : pgDatatype :=
  let (name, numdims) := typeName nsp typname numdims
  let (length, len, prec) := decode name typmod
  { needSchema := isDup
    schema := nsp
    name := name
    length := length
    array := (List.replicate numdims.toNat ['[', ']']).flatten
    len := len
    prec := prec }

def GetTypmod (name len prec : Text) : ℤ :=
  if len.isEmpty then -1
  else if name = numeric then StrToLong len * 65536 + StrToLong prec + 4
  else if plain name ∨ name = interval then StrToLong len
  else StrToLong len + 4

def lengthText (type : pgDatatype) : Text := if type.length.isEmpty then [] else NumToStr type.len

/- The lengths and precisions the server takes. -/
def Allowed (name : Text) (len prec : ℤ) : Prop :=
  if name = numeric then 1 ≤ len ∧ len ≤ 1000 ∧ 0 ≤ prec ∧ prec ≤ len
  else name ≠ date ∧ 0 < len ∧ prec = 0

/- The modifiers the server keeps. That of an interval has the fields in its upper half, all of them without a
list of fields, and in its lower half the precision, all bits without one. -/
def Stored (name : Text) (typmod : ℤ) : Prop :=
  typmod = -1 ∨
    if name = numeric then ∃ len prec, Allowed numeric len prec ∧ typmod = len * 65536 + prec + 4
    else if name = interval then
      ∃ range precision : ℤ, 0 < range ∧ range ≤ 0x7FFF ∧ (0 ≤ precision ∧ precision ≤ 6 ∨ precision = 0xFFFF) ∧
        typmod = range * 65536 + precision
    else if name = date then False
    else 0 ≤ typmod

variable {name : Text} {len prec typmod : ℤ}

theorem numberRead (n : ℕ) : Nat.ofDigitChars 10 ((Nat.toDigits 10 n).takeWhile Char.isDigit) 0 = n := by
  have digits : (Nat.toDigits 10 n).takeWhile Char.isDigit = Nat.toDigits 10 n :=
    List.takeWhile_eq_self_iff.mpr fun c member => Nat.isDigit_of_mem_toDigits (by decide) (by decide) member
  rw [digits, Nat.ofDigitChars_ten_toDigits]

theorem strToLongNum (n : ℤ) : StrToLong (NumToStr n) = n := by
  cases n with
  | ofNat n =>
    obtain ⟨c, digits, text⟩ := List.exists_cons_of_ne_nil (@Nat.toDigits_ne_nil n 10)
    have digit : c.isDigit = true :=
      Nat.isDigit_of_mem_toDigits (b := 10) (n := n) (by decide) (by decide) (text ▸ List.mem_cons_self)
    have noSpace : isSpace c = false := by
      rw [Bool.eq_false_iff]
      intro space
      have known : c ∈ [' ', '\t', '\n', '\x0b', '\x0c', '\r'] := of_decide_eq_true space
      simp only [List.mem_cons, List.not_mem_nil, or_false] at known
      rcases known with rfl | rfl | rfl | rfl | rfl | rfl <;> exact absurd digit (by decide)
    have first : (Nat.toDigits 10 n).dropWhile isSpace = c :: digits := by
      rw [text, List.dropWhile_cons_of_neg (by simp [noSpace])]
    have value := numberRead n
    rw [text] at value
    rw [StrToLong, NumToStr, first]
    split
    case h_1 s same => exact absurd ((List.cons.inj same).1 ▸ digit) (by decide)
    case h_2 s same => exact absurd ((List.cons.inj same).1 ▸ digit) (by decide)
    case h_3 => simp [value]
  | negSucc n =>
    have value := numberRead (n + 1)
    have first : ('-' :: Nat.toDigits 10 (n + 1)).dropWhile isSpace = '-' :: Nat.toDigits 10 (n + 1) := rfl
    rw [StrToLong, NumToStr, first]
    simp only [value]
    rfl

theorem numSome (n : ℤ) : (NumToStr n).isEmpty = false := by
  cases n with
  | ofNat n => simp [NumToStr, Nat.toDigits_ne_nil]
  | negSucc n => rfl

theorem plainApart (listed : plain name = true) : name ≠ numeric ∧ name ≠ interval ∧ name ≠ date := by
  refine ⟨?_, ?_, ?_⟩ <;> rintro rfl <;> exact absurd listed (by decide)

theorem intervalApart : interval ≠ numeric ∧ interval ≠ date ∧ plain interval = false := by decide

theorem typmodText (name : Text) (len prec : ℤ) : GetTypmod name (NumToStr len) (NumToStr prec) =
    if name = numeric then len * 65536 + prec + 4
    else if plain name ∨ name = interval then len
    else len + 4 := by
  rw [GetTypmod, numSome, strToLongNum, strToLongNum]
  rfl

theorem decodeSome (some : typmod ≠ -1) (isDate : name ≠ date) :
    (decode name typmod).1.isEmpty = false ∧ (decode name typmod).2 =
      if name = numeric then ((typmod - 4) / 65536, (typmod - 4) % 65536)
      else if plain name then (typmod, 0)
      else if name = interval then (typmod % 65536, 0)
      else (typmod - 4, 0) := by
  simp only [decode, if_pos some]
  by_cases isNumeric : name = numeric
  · rw [if_pos isNumeric, if_pos isNumeric]
    exact ⟨by simp, rfl⟩
  · rw [if_neg isNumeric, if_neg isNumeric]
    by_cases listed : plain name = true
    · rw [if_pos listed, if_pos listed]
      exact ⟨by simp, rfl⟩
    · rw [if_neg listed, if_neg listed]
      by_cases isInterval : name = interval
      · rw [if_pos isInterval, if_pos isInterval]
        exact ⟨by simp, rfl⟩
      · rw [if_neg isInterval, if_neg isInterval, if_neg isDate]
        exact ⟨by simp, rfl⟩

theorem enteredDecoded (allowed : Allowed name len prec) :
    (decode name (GetTypmod name (NumToStr len) (NumToStr prec))).2 = (len, prec) ↔
      (name = interval → len < 65536) := by
  rw [typmodText]
  unfold Allowed at allowed
  by_cases isNumeric : name = numeric
  · subst isNumeric
    rw [if_pos rfl] at allowed ⊢
    have decoded := (@decodeSome numeric (len * 65536 + prec + 4) (by omega) (by decide)).2
    rw [decoded, if_pos rfl, Prod.mk.injEq]
    refine ⟨fun _ same => absurd same intervalApart.1.symm, fun _ => ⟨by omega, by omega⟩⟩
  · rw [if_neg isNumeric] at allowed ⊢
    obtain ⟨isDate, positive, rfl⟩ := allowed
    by_cases listed : plain name = true
    · have decoded := (@decodeSome name len (by omega) isDate).2
      rw [if_pos (.inl listed), decoded, if_neg isNumeric, if_pos listed]
      exact ⟨fun _ same => absurd same (plainApart listed).2.1, fun _ => rfl⟩
    · by_cases isInterval : name = interval
      · have decoded := (@decodeSome name len (by omega) isDate).2
        rw [if_pos (.inr isInterval), decoded, if_neg isNumeric, if_neg listed, if_pos isInterval, Prod.mk.injEq]
        refine ⟨fun same _ => ?_, fun short => ⟨?_, rfl⟩⟩
        · have low := same.1
          omega
        · have low := short isInterval
          omega
      · have decoded := (@decodeSome name (len + 4) (by omega) isDate).2
        rw [if_neg (by simp [listed, isInterval]), decoded, if_neg isNumeric, if_neg listed, if_neg isInterval,
          Int.add_sub_cancel]
        exact ⟨fun _ same => absurd same isInterval, fun _ => rfl⟩

theorem storedAgain (stored : Stored name typmod) :
    GetTypmod name (if (decode name typmod).1.isEmpty then [] else NumToStr (decode name typmod).2.1)
      (NumToStr (decode name typmod).2.2) = typmod ↔ (name = interval → typmod = -1) := by
  by_cases none : typmod = -1
  · subst none
    simp [decode, GetTypmod]
  · have kept := stored.resolve_left none
    have isDate : name ≠ date := by
      rintro rfl
      exact kept
    obtain ⟨shown, decoded⟩ := decodeSome none isDate
    rw [shown, if_neg Bool.false_ne_true, typmodText, decoded]
    by_cases isNumeric : name = numeric
    · rw [if_pos isNumeric] at kept
      obtain ⟨len, prec, -, rfl⟩ := kept
      rw [if_pos isNumeric, if_pos isNumeric]
      refine ⟨fun _ same => absurd (isNumeric.symm.trans same) intervalApart.1.symm, fun _ => ?_⟩
      show (len * 65536 + prec + 4 - 4) / 65536 * 65536 + (len * 65536 + prec + 4 - 4) % 65536 + 4 = _
      omega
    · rw [if_neg isNumeric, if_neg isNumeric]
      by_cases listed : plain name = true
      · rw [if_pos (.inl listed), if_pos listed]
        exact ⟨fun _ same => absurd same (plainApart listed).2.1, fun _ => rfl⟩
      · by_cases isInterval : name = interval
        · rw [if_neg isNumeric, if_pos isInterval] at kept
          obtain ⟨range, precision, fields, -, low, rfl⟩ := kept
          rw [if_pos (.inr isInterval), if_neg listed, if_pos isInterval]
          show (range * 65536 + precision) % 65536 = _ ↔ _
          refine ⟨fun same => ?_, fun only => absurd (only isInterval) none⟩
          omega
        · rw [if_neg (by simp [listed, isInterval]), if_neg listed, if_neg isInterval]
          exact ⟨fun _ same => absurd same isInterval, fun _ => Int.sub_add_cancel typmod 4⟩

theorem nameKept {typname : Text} (dot : '.' ∉ typname) (underscore : typname.head? ≠ some '_')
    (bracket : typname.getLast? ≠ some ']') (quote : typname.head? ≠ some '"') (schema : Text) (numdims : ℤ) :
    typeName schema typname numdims = (typname, numdims) := by
  have noSchema (sub : Text) (member : '.' ∈ sub) : ¬ 0 ≤ Find typname sub := fun found =>
    dot (((findSome typname sub).mp found).subset member)
  have noPrefix {c : Char} (first : typname.head? ≠ some c) : ¬ [c].isPrefixOf typname = true := by
    intro starts
    obtain ⟨rest, rfl⟩ := List.isPrefixOf_iff_prefix.mp starts
    exact first rfl
  have noBrackets : Right typname 2 ≠ ['[', ']'] := by
    intro ends
    have whole : typname.take (typname.length - 2) ++ ['[', ']'] = typname :=
      (congrArg (typname.take (typname.length - 2) ++ ·) ends.symm).trans (List.take_append_drop _ _)
    rw [← whole] at bracket
    exact bracket (by simp)
  have kept : skipSchema schema typname = typname := by
    rw [skipSchema, if_neg (noSchema _ (by simp)), if_neg (noSchema _ (by simp))]
  have second : skipUnderscore typname numdims = (typname, numdims) := if_neg (noPrefix underscore)
  have third : skipBrackets typname numdims = (typname, numdims) := if_neg noBrackets
  have last : skipQuotes typname = typname := if_neg fun both => noPrefix quote both.1
  simp only [typeName, kept, second, third, last]

/-- A length and a precision are decoded from the modifier made of them, except for an interval of 65536 and more;
a stored modifier is made again of what is decoded from it, except that of an interval, whose fields are lost. -/
theorem typmodRoundTrip (nsp typname : Text) (isDup : Bool) (numdims : ℤ) :
    let type := make nsp typname isDup numdims
    let name := (typeName nsp typname numdims).1
    (∀ len prec, Allowed name len prec →
      ((type (GetTypmod name (NumToStr len) (NumToStr prec))).len = len ∧
        (type (GetTypmod name (NumToStr len) (NumToStr prec))).prec = prec ↔ (name = interval → len < 65536))) ∧
    ∀ typmod, Stored name typmod →
      (GetTypmod name (lengthText (type typmod)) (NumToStr (type typmod).prec) = typmod ↔
        (name = interval → typmod = -1)) := by
  intro type name
  refine ⟨fun len prec allowed => ?_, fun typmod stored => storedAgain stored⟩
  have decoded := enteredDecoded allowed
  rwa [Prod.ext_iff] at decoded

theorem numericMade :
    let type := make [] numeric false 0
    ((type (GetTypmod numeric (NumToStr 10) (NumToStr 2))).len = 10 ∧
      (type (GetTypmod numeric (NumToStr 10) (NumToStr 2))).prec = 2) ∧
    GetTypmod numeric (lengthText (type 655366)) (NumToStr (type 655366).prec) = 655366 := by
  have name : (typeName [] numeric 0).1 = numeric :=
    congrArg Prod.fst (nameKept (by decide) (by decide) (by decide) (by decide) [] 0)
  have roundTrip := typmodRoundTrip [] numeric false 0
  rw [name] at roundTrip
  have allowed : Allowed numeric 10 2 := by
    rw [Allowed, if_pos rfl]
    decide
  have stored : Stored numeric 655366 := .inr (by rw [if_pos rfl]; exact ⟨10, 2, allowed, by decide⟩)
  have other : numeric ≠ interval := by decide
  exact ⟨(roundTrip.1 10 2 allowed).mpr fun same => absurd same other,
    (roundTrip.2 655366 stored).mpr fun same => absurd same other⟩

/- interval(3) -/
theorem intervalLost : ¬ ∀ (nsp typname : Text) (isDup : Bool) (numdims : ℤ),
    (∀ len prec, Allowed (typeName nsp typname numdims).1 len prec →
      let type := make nsp typname isDup numdims
        (GetTypmod (typeName nsp typname numdims).1 (NumToStr len) (NumToStr prec))
      type.len = len ∧ type.prec = prec) ∧
    ∀ typmod, Stored (typeName nsp typname numdims).1 typmod →
      let type := make nsp typname isDup numdims typmod
      GetTypmod (typeName nsp typname numdims).1 (lengthText type) (NumToStr type.prec) = typmod := by
  intro roundTrip
  have name : (typeName [] interval 0).1 = interval :=
    congrArg Prod.fst (nameKept (by decide) (by decide) (by decide) (by decide) [] 0)
  have stored : Stored (typeName [] interval 0).1 0x7FFF0003 := by
    rw [name]
    exact .inr ⟨0x7FFF, 3, by decide, by decide, by decide, rfl⟩
  have again := (roundTrip [] interval false 0).2 0x7FFF0003 stored
  exact absurd again (by decide)

end pgDatatype
end PgAdmin
