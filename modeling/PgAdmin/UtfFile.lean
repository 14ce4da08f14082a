import PgAdmin.PgsObjects

/-! wxUtfFile: a text file whose byte order mark tells its encoding. The marks are written by WriteBOM and found by
EvalBOM, from the first four bytes; the positions of the file are counted from behind the mark. -/
namespace PgAdmin.utffile
open PgsObjects (Text)

inductive wxFontEncoding where
  | SYSTEM | DEFAULT | UTF8 | UTF16BE | UTF16LE | UTF32BE | UTF32LE
  | other (number : ℕ)
  deriving DecidableEq

/- The encodings that have a mark. -/
inductive Utf where
  | utf8 | utf16be | utf16le | utf32be | utf32le
  deriving DecidableEq

namespace Utf

def encoding : Utf → wxFontEncoding
  | utf8 => .UTF8
  | utf16be => .UTF16BE
  | utf16le => .UTF16LE
  | utf32be => .UTF32BE
  | utf32le => .UTF32LE

def bytes : ℕ → ℕ → List UInt8
  | 0, _ => []
  | count + 1, n => bytes count (n / 256) ++ [UInt8.ofNat (n % 256)]

def units (c : Char) : List ℕ :=
  if c.toNat < 0x10000 then [c.toNat]
  else [0xD800 + (c.toNat - 0x10000) / 0x400, 0xDC00 + (c.toNat - 0x10000) % 0x400]

def encode : Utf → Text → List UInt8
  | utf8, text => text.flatMap String.utf8EncodeChar
  | utf16be, text => (text.flatMap units).flatMap (bytes 2)
  | utf16le, text => (text.flatMap units).flatMap fun u => (bytes 2 u).reverse
  | utf32be, text => text.flatMap fun c => bytes 4 c.toNat
  | utf32le, text => text.flatMap fun c => (bytes 4 c.toNat).reverse

end Utf

def BOM_UTF8 : List UInt8 := [0xEF, 0xBB, 0xBF]
def BOM_UTF16LE : List UInt8 := [0xFF, 0xFE]
def BOM_UTF16BE : List UInt8 := [0xFE, 0xFF]
def BOM_UTF32LE : List UInt8 := [0xFF, 0xFE, 0, 0]
def BOM_UTF32BE : List UInt8 := [0, 0, 0xFE, 0xFF]

/- The mark is U+FEFF in the encoding. -/
def Utf.mark (e : Utf) : List UInt8 := e.encode [Char.ofNat 0xFEFF]

inductive OpenMode where
  | read | write | read_write | write_append | write_excl
  deriving DecidableEq

structure wxFile where
  contents : List UInt8
  pos : ℕ
  readable : Bool

namespace wxFile

def Open (contents : List UInt8) (mode : OpenMode) : wxFile :=
  match mode with
  | .read | .read_write => ⟨contents, 0, true⟩
  | .write | .write_excl => ⟨[], 0, false⟩
  | .write_append => ⟨contents, contents.length, false⟩

def Seek (f : wxFile) (pos : ℕ) : wxFile := { f with pos := pos }

def Write (f : wxFile) (buffer : List UInt8) : wxFile :=
  { f with
    contents := f.contents.take f.pos ++ buffer ++ f.contents.drop (f.pos + buffer.length)
    pos := f.pos + buffer.length }

def Read (f : wxFile) (count : ℕ) : List UInt8 × ℤ × wxFile :=
  if f.readable then
    let buffer := (f.contents.drop f.pos).take count
    (buffer, buffer.length, { f with pos := f.pos + buffer.length })
  else ([], -1, f)

end wxFile

structure wxUtfFile where
  file : wxFile
  m_encoding : wxFontEncoding
  m_bomOffset : ℕ

namespace wxUtfFile

def known (encoding : wxFontEncoding) : wxFontEncoding :=
  match encoding with
  | .UTF8 | .UTF16BE | .UTF16LE | .UTF32BE | .UTF32LE => encoding
  | _ => .SYSTEM

def DetermineConversion (f : wxUtfFile) (encoding : wxFontEncoding) : wxUtfFile :=
  { f with m_encoding := known encoding }

def putBOM (f : wxUtfFile) (bom : List UInt8) : wxUtfFile :=
  { f with file := (f.file.Seek 0).Write bom, m_bomOffset := bom.length }

def WriteBOM (writeBOM : Bool) (f : wxUtfFile) : wxUtfFile :=
  if !writeBOM then f
  else
    match f.m_encoding with
    | .UTF8 => f.putBOM BOM_UTF8
    | .UTF16BE => f.putBOM BOM_UTF16BE
    | .UTF16LE => f.putBOM BOM_UTF16LE
    -- the mark of the other byte order
    | .UTF32BE => f.putBOM BOM_UTF32LE
    | .UTF32LE => f.putBOM BOM_UTF32LE
    | _ => { f with file := f.file.Seek 0, m_bomOffset := 0 }

def Create (writeBOM : Bool) (f : wxUtfFile) (encoding : wxFontEncoding) : wxUtfFile :=
  WriteBOM writeBOM (DetermineConversion { f with file := wxFile.Open [] .write } encoding)

def Seek (f : wxUtfFile) (ofs : ℕ) : wxUtfFile × ℤ :=
  ({ f with file := f.file.Seek (ofs + f.m_bomOffset) }, ofs - f.m_bomOffset)

def isMark (bom bombuf : List UInt8) : Bool := bom.isPrefixOf bombuf

def findBOM (bombuf : List UInt8) (encoding : wxFontEncoding) : wxFontEncoding × ℕ :=
  if isMark BOM_UTF32BE bombuf then (.UTF32BE, 4)
  else if isMark BOM_UTF32LE bombuf then (.UTF32LE, 4)
  else if isMark BOM_UTF8 bombuf then (.UTF8, 3)
  else if isMark BOM_UTF16BE bombuf then (.UTF16BE, 2)
  else if isMark BOM_UTF16LE bombuf then (.UTF16LE, 2)
  else (encoding, 0)

def EvalBOM (f : wxUtfFile) (encoding : wxFontEncoding) : Bool × wxUtfFile :=
  let (buffer, len, file) := f.file.Read 4
  let bombuf := buffer ++ ([0x23, 0x23, 0x23, 0] : List UInt8).drop buffer.length
  let (encoding, offset) := findBOM bombuf encoding
  let f := DetermineConversion { f with file := file, m_bomOffset := offset } encoding
  if len = 0 then (true, f)
  else if len ≠ f.m_bomOffset then (false, (f.Seek 0).1)
  else (false, f)

def forceBOM (writeBOM : Bool) (f : wxUtfFile) (encoding : wxFontEncoding) : wxUtfFile :=
  let encoding := known encoding
  if encoding ≠ f.m_encoding then WriteBOM writeBOM (f.DetermineConversion encoding) else f

def Open (writeBOM : Bool) (f : wxUtfFile) (contents : List UInt8) (mode : OpenMode)
    (encoding : wxFontEncoding) : wxUtfFile :=
  let f := DetermineConversion { f with file := wxFile.Open contents mode, m_bomOffset := 0 } .SYSTEM
  let (fresh, f) := if mode ≠ .write then f.EvalBOM encoding else (false, f)
  if fresh then if mode ≠ .read then f.WriteBOM writeBOM else f
  else if mode ≠ .read ∧ encoding ≠ .DEFAULT then f.forceBOM writeBOM encoding
  else f

/- All of the text from the position on. MB2WC is given a pointer to the bytes and the zeros behind them, not how many
they are. When they cannot be converted the last ones are left off, up to three. -/
def Read (MB2WC : wxFontEncoding → List UInt8 → Option Text) (f : wxUtfFile) : Option Text :=
  let buffer := f.file.contents.drop f.file.pos
  if buffer.isEmpty then some []
  else (List.range (min 4 buffer.length)).findSome? fun decr =>
    MB2WC f.m_encoding (buffer.take (buffer.length - decr) ++ List.replicate (decr + 4) 0)

/- The ways to a new file. One that is there is written anew by OpenWrite only. -/
inductive Way where
  | Create
  | OpenWrite (contents : List UInt8)
  | OpenReadWrite
  | OpenWriteExcl
  | OpenWriteAppend

def created (f : wxUtfFile) (encoding : wxFontEncoding) : Way → wxUtfFile
  | .Create => f.Create true encoding
  | .OpenWrite contents => f.Open true contents .write encoding
  | .OpenReadWrite => f.Open true [] .read_write encoding
  | .OpenWriteExcl => f.Open true [] .write_excl encoding
  | .OpenWriteAppend => f.Open true [] .write_append encoding

/- A file that cannot be read is not found to be empty: EvalBOM wants no mark and sets the encoding, which forceBOM
takes for that of a mark. -/
def Way.marks : Way → Bool
  | .Create | .OpenWrite _ | .OpenReadWrite => true
  | .OpenWriteExcl | .OpenWriteAppend => false

/- The new file is given the bytes of a text and read again, whatever encoding is asked for then. -/
def reopened (way : Way) (f reader : wxUtfFile) (e : Utf) (text : Text) (asked : wxFontEncoding) : wxUtfFile :=
  reader.Open true ((f.created e.encoding way).file.Write (e.encode text)).contents .read asked

def NUL : Char := Char.ofNat 0

/- MB2WC reads a string that ends with the first U+0000: it gives the text just where its bytes and those of U+0000
are there to be read. -/
def Exact (MB2WC : wxFontEncoding → List UInt8 → Option Text) (e : Utf) (text : Text) : Prop :=
  ∀ bytes, MB2WC e.encoding bytes = some text ↔ NUL ∉ text ∧ e.encode text ++ e.encode [NUL] <+: bytes

structure ReadBack (MB2WC : wxFontEncoding → List UInt8 → Option Text) (e : Utf) (text : Text)
    (f : wxUtfFile) : Prop where
  m_encoding : f.m_encoding = e.encoding
  m_bomOffset : f.m_bomOffset = e.mark.length
  pos : f.file.pos = e.mark.length
  text : f.Read MB2WC = some text

/- The mark WriteBOM writes. -/
def markWritten (e : Utf) : List UInt8 := if e = .utf32be then BOM_UTF32LE else e.mark

theorem fileHolds (way : Way) (f : wxUtfFile) (e : Utf) (data : List UInt8) :
    ((f.created e.encoding way).file.Write data).contents =
      (if way.marks then markWritten e else []) ++ data := by
  have mark : (f.created e.encoding way).file.contents = (if way.marks then markWritten e else []) ∧
      (f.created e.encoding way).file.pos = (if way.marks then markWritten e else []).length := by
    cases way <;> cases e <;> exact ⟨rfl, rfl⟩
  rw [wxFile.Write, mark.1, mark.2, List.take_length, List.drop_eq_nil_of_le (Nat.le_add_right _ _), List.append_nil]

theorem openRead (reader : wxUtfFile) {contents : List UInt8} {asked encoding : wxFontEncoding} {offset : ℕ}
    (long : 4 ≤ contents.length) (found : findBOM (contents.take 4) asked = (encoding, offset)) :
    let f := reader.Open true contents .read asked
    f.m_encoding = known encoding ∧ f.m_bomOffset = offset ∧ f.file.pos = offset ∧ f.file.contents = contents := by
  have length : (contents.take 4).length = 4 := by
    rw [List.length_take]
    omega
  have read : (wxFile.Open contents .read).Read 4 = (contents.take 4, 4, ⟨contents, 4, true⟩) := by
    simp [wxFile.Open, wxFile.Read, length]
  have some : ¬ (4 : ℤ) = 0 := by decide
  simp only [wxUtfFile.Open, EvalBOM, DetermineConversion, read, length, List.drop_succ_cons, List.drop_nil,
    List.append_nil, found, if_neg some]
  by_cases four : (4 : ℤ) ≠ offset
  · simp [four, Seek, wxFile.Seek]
  · have same : offset = 4 := by omega
    subst same
    simp

theorem evalContents (f : wxUtfFile) (encoding : wxFontEncoding) :
    (f.EvalBOM encoding).2.file.contents = f.file.contents := by
  have read : (f.file.Read 4).2.2.contents = f.file.contents := by
    unfold wxFile.Read
    split <;> rfl
  simp only [EvalBOM]
  split
  · exact read
  · split <;> exact read

theorem openContents (reader : wxUtfFile) (contents : List UInt8) (asked : wxFontEncoding) :
    (reader.Open true contents .read asked).file.contents = contents := by
  have opened : reader.Open true contents .read asked =
      (DetermineConversion { reader with file := wxFile.Open contents .read, m_bomOffset := 0 } .SYSTEM |>.EvalBOM
        asked).2 := by
    simp [wxUtfFile.Open]
  rw [opened, evalContents]
  rfl

section Detection
variable {e : Utf} {data : List UInt8}

theorem findMark (own : e ≠ .utf32be) (other : e = .utf16le → data.take 2 ≠ [0, 0])
    (asked : wxFontEncoding) :
    findBOM ((markWritten e ++ data).take 4) asked = (e.encoding, e.mark.length) := by
  cases e with
  | utf8 => rfl
  | utf16be => rfl
  | utf16le =>
    have apart : isMark BOM_UTF32LE (BOM_UTF16LE ++ data.take 2) = false := by
      rw [Bool.eq_false_iff]
      intro longer
      have zeros : [0, 0] <+: data.take 2 :=
        (List.prefix_append_right_inj BOM_UTF16LE).mp (List.isPrefixOf_iff_prefix.mp longer)
      exact other rfl (zeros.eq_of_length_le (List.length_take_le 2 data)).symm
    have whole : (markWritten .utf16le ++ data).take 4 = BOM_UTF16LE ++ data.take 2 := rfl
    have first : isMark BOM_UTF32BE (BOM_UTF16LE ++ data.take 2) = false := rfl
    rw [whole, findBOM, first, apart]
    rfl
  | utf32be => exact absurd rfl own
  | utf32le => rfl

theorem findOther (asked : wxFontEncoding) (data : List UInt8) :
    findBOM ((markWritten .utf32be ++ data).take 4) asked = (.UTF32LE, 4) := rfl

end Detection

theorem byteSome {n : ℕ} (some : n % 256 ≠ 0) : UInt8.ofNat n ≠ 0 := by
  intro zero
  have number := congrArg UInt8.toNat zero
  rw [UInt8.toNat_ofNat'] at number
  exact some number

theorem unitSome {c : Char} (some : c ≠ NUL) : ∃ u us, Utf.units c = u :: us ∧ u < 0x10000 ∧ u ≠ 0 := by
  have bound : c.toNat < 0x110000 := by
    rcases c.valid with low | high
    · exact Nat.lt_trans low (by decide)
    · exact high.2
  have letter : c.toNat ≠ 0 := fun zero => some (Char.toNat_inj.mp zero)
  unfold Utf.units
  split
  · rename_i small
    exact ⟨_, _, rfl, small, letter⟩
  · exact ⟨_, _, rfl, by omega, by omega⟩

theorem firstSome (e : Utf) {c : Char} (some : c ≠ NUL) (text : Text) :
    ∃ byte ∈ (e.encode (c :: text)).take e.mark.length, byte ≠ 0 := by
  have letter : c.toNat ≠ 0 := fun zero => some (Char.toNat_inj.mp zero)
  have bound : c.toNat < 0x110000 := by
    rcases c.valid with low | high
    · exact Nat.lt_trans low (by decide)
    · exact high.2
  -- one of two bytes of a unit, one of four bytes of a code point
  have two {u : ℕ} (small : u < 0x10000) (unit : u ≠ 0) : ∃ byte ∈ Utf.bytes 2 u, byte ≠ 0 := by
    by_cases low : u % 256 = 0
    · exact ⟨_, List.mem_cons_self, byteSome (by omega)⟩
    · exact ⟨_, List.mem_cons_of_mem _ List.mem_cons_self, byteSome (by omega)⟩
  have four : ∃ byte ∈ Utf.bytes 4 c.toNat, byte ≠ 0 := by
    simp only [Utf.bytes, List.nil_append, List.cons_append, List.mem_cons, List.not_mem_nil, or_false,
      exists_eq_or_imp, exists_eq_left]
    by_cases low : c.toNat % 65536 = 0
    · exact .inr (.inl (byteSome (by omega)))
    · by_cases last : c.toNat % 256 = 0
      · exact .inr (.inr (.inl (byteSome (by omega))))
      · exact .inr (.inr (.inr (byteSome (by omega))))
  cases e with
  | utf8 =>
    have first : ∃ b bs, String.utf8EncodeChar c = b :: bs ∧ b ≠ 0 := by
      have value : c.val.toNat = c.toNat := rfl
      unfold String.utf8EncodeChar
      simp only [value]
      split
      · exact ⟨_, _, rfl, byteSome (by omega)⟩
      split
      · exact ⟨_, _, rfl, byteSome (by omega)⟩
      split
      · exact ⟨_, _, rfl, byteSome (by omega)⟩
      · exact ⟨_, _, rfl, byteSome (by omega)⟩
    obtain ⟨b, bs, split, some⟩ := first
    exact ⟨b, by simp [Utf.encode, split, show Utf.utf8.mark.length = 3 from rfl], some⟩
  | utf16be =>
    obtain ⟨u, us, split, small, unit⟩ := unitSome some
    obtain ⟨byte, inside, other⟩ := two small unit
    refine ⟨byte, ?_, other⟩
    rw [show Utf.utf16be.mark.length = 2 from rfl]
    simpa [Utf.encode, split, Utf.bytes] using inside
  | utf16le =>
    obtain ⟨u, us, split, small, unit⟩ := unitSome some
    obtain ⟨byte, inside, other⟩ := two small unit
    refine ⟨byte, ?_, other⟩
    rw [show Utf.utf16le.mark.length = 2 from rfl]
    simpa [Utf.encode, split, Utf.bytes, or_comm] using inside
  | utf32be =>
    obtain ⟨byte, inside, other⟩ := four
    refine ⟨byte, ?_, other⟩
    rw [show Utf.utf32be.mark.length = 4 from rfl]
    simpa [Utf.encode, Utf.bytes] using inside
  | utf32le =>
    obtain ⟨byte, inside, other⟩ := four
    refine ⟨byte, ?_, other⟩
    have here : (Utf.utf32le.encode (c :: text)).take Utf.utf32le.mark.length = (Utf.bytes 4 c.toNat).reverse := rfl
    rw [here]
    exact List.mem_reverse.mpr inside

theorem encodeCons (e : Utf) (c : Char) (text : Text) : e.encode (c :: text) = e.encode [c] ++ e.encode text := by
  cases e <;> simp [Utf.encode]

theorem letterLong (e : Utf) (c : Char) :
    0 < (e.encode [c]).length ∧ 4 ≤ (markWritten e).length + (e.encode [c]).length := by
  have octets : 0 < (String.utf8EncodeChar c).length := by
    rw [String.length_utf8EncodeChar]
    exact c.utf8Size_pos
  have units : 0 < (Utf.units c).length := by
    unfold Utf.units
    split <;> simp
  have two (code : ℕ → List UInt8) (length : ∀ u, (code u).length = 2) :
      (([c].flatMap Utf.units).flatMap code).length = (Utf.units c).length * 2 := by
    simp [length]
  cases e with
  | utf8 =>
    have whole : (Utf.utf8.encode [c]).length = (String.utf8EncodeChar c).length := by simp [Utf.encode]
    have mark : (markWritten .utf8).length = 3 := rfl
    omega
  | utf16be =>
    have whole : (Utf.utf16be.encode [c]).length = (Utf.units c).length * 2 := two _ fun _ => rfl
    have mark : (markWritten .utf16be).length = 2 := rfl
    omega
  | utf16le =>
    have whole : (Utf.utf16le.encode [c]).length = (Utf.units c).length * 2 := two _ fun _ => rfl
    have mark : (markWritten .utf16le).length = 2 := rfl
    omega
  | utf32be => exact ⟨Nat.succ_pos 3, Nat.le_add_right 4 _⟩
  | utf32le => exact ⟨Nat.succ_pos 3, Nat.le_add_right 4 _⟩

theorem encodeSome (e : Utf) {text : Text} (some : text ≠ []) : e.encode text ≠ [] := by
  obtain ⟨c, text, rfl⟩ := List.exists_cons_of_ne_nil some
  rw [encodeCons]
  exact List.append_ne_nil_of_left_ne_nil (List.ne_nil_of_length_pos (letterLong e c).1) _

theorem encodeLong (e : Utf) {text : Text} (some : text ≠ []) :
    4 ≤ (markWritten e ++ e.encode text).length := by
  obtain ⟨c, text, rfl⟩ := List.exists_cons_of_ne_nil some
  have long := (letterLong e c).2
  rw [encodeCons, List.length_append, List.length_append]
  omega

theorem readSome {MB2WC : wxFontEncoding → List UInt8 → Option Text} {f : wxUtfFile} {e : Utf} {text : Text}
    (exact : Exact MB2WC e text) (encoding : f.m_encoding = e.encoding) (some : text ≠ [])
    (read : f.Read MB2WC = .some text) :
    NUL ∉ text ∧ ∃ count zeros, e.encode text <+:
      (f.file.contents.drop f.file.pos).take count ++ List.replicate zeros 0 := by
  rw [Read, encoding] at read
  split at read
  · exact absurd (Option.some.inj read).symm some
  · obtain ⟨decr, -, made⟩ := List.exists_of_findSome?_eq_some read
    obtain ⟨free, whole⟩ := (exact _).mp made
    exact ⟨free, _, _, (List.prefix_append _ _).trans whole⟩

theorem beginningStays {data : List UInt8} {offset : ℕ} (given : ∃ byte ∈ data.take offset, byte ≠ 0)
    (count zeros : ℕ) : ¬data <+: (data.drop offset).take count ++ List.replicate zeros 0 := by
  intro shifted
  have fewer := shifted.sublist.countP_le (p := fun byte => byte ≠ 0)
  have taken := (List.take_sublist count (data.drop offset)).countP_le (p := fun byte => byte ≠ 0)
  have some : 0 < (data.take offset).countP fun byte => byte ≠ 0 := by
    obtain ⟨byte, inside, other⟩ := given
    exact List.countP_pos_iff.mpr ⟨byte, inside, decide_eq_true other⟩
  have none : (List.replicate zeros (0 : UInt8)).countP (fun byte => byte ≠ 0) = 0 := by
    simp [List.countP_replicate]
  have whole := congrArg (List.countP fun byte => byte ≠ 0) (List.take_append_drop offset data)
  rw [List.countP_append] at whole fewer
  omega

theorem unmarkedLost {MB2WC : wxFontEncoding → List UInt8 → Option Text} {e : Utf} {text : Text}
    (exact : Exact MB2WC e text) (some : text ≠ []) {f : wxUtfFile} (contents : f.file.contents = e.encode text) :
    ¬ReadBack MB2WC e text f := by
  intro back
  obtain ⟨free, count, zeros, shifted⟩ := readSome exact back.m_encoding some back.text
  obtain ⟨c, text, rfl⟩ := List.exists_cons_of_ne_nil some
  have first := firstSome e (fun zero => free (zero ▸ List.mem_cons_self)) text
  rw [contents, back.pos] at shifted
  exact beginningStays first count zeros shifted

/-- A text comes back, with its encoding and from behind the mark, except where no mark is written, in UTF-32BE, whose
mark is written in the other byte order, and when U+0000 is in the text. -/
theorem textReadBack (MB2WC : wxFontEncoding → List UInt8 → Option Text) {e : Utf} {text : Text}
    (exact : Exact MB2WC e text) (some : text ≠ []) (way : Way) (f reader : wxUtfFile) (asked : wxFontEncoding) :
    ReadBack MB2WC e text (reopened way f reader e text asked) ↔
      way.marks = true ∧ e ≠ .utf32be ∧ NUL ∉ text := by
  have holds := fileHolds way f e (e.encode text)
  constructor
  · intro back
    have marks : way.marks = true := by
      by_contra unmarked
      rw [if_neg unmarked, List.nil_append] at holds
      exact unmarkedLost exact some (openContents reader _ asked |>.trans holds) back
    refine ⟨marks, ?_, (readSome exact back.m_encoding some back.text).1⟩
    rintro rfl
    rw [if_pos marks] at holds
    have found := openRead reader (encodeLong .utf32be some) (findOther asked _)
    rw [← holds] at found
    exact absurd (found.1.symm.trans back.m_encoding) (by decide)
  · rintro ⟨marks, own, free⟩
    rw [if_pos marks] at holds
    have apart : e = .utf16le → (e.encode text).take 2 ≠ [0, 0] := by
      rintro rfl zeros
      obtain ⟨c, text, rfl⟩ := List.exists_cons_of_ne_nil some
      obtain ⟨byte, inside, other⟩ := firstSome .utf16le (fun zero => free (zero ▸ List.mem_cons_self)) text
      rw [show Utf.utf16le.mark.length = 2 from rfl, zeros] at inside
      simp [other] at inside
    obtain ⟨encoding, offset, pos, contents⟩ := openRead reader (encodeLong e some) (findMark own apart asked)
    rw [← holds] at encoding offset pos contents
    have same : known e.encoding = e.encoding := by cases e <;> rfl
    refine ⟨encoding.trans same, offset, pos, ?_⟩
    have rest : (reopened way f reader e text asked).file.contents.drop
        (reopened way f reader e text asked).file.pos = e.encode text := by
      rw [reopened, contents, pos, holds, markWritten, if_neg own, List.drop_left]
    have found : (reopened way f reader e text asked).m_encoding = e.encoding := encoding.trans same
    have terminated : MB2WC e.encoding (e.encode text ++ List.replicate 4 0) = .some text := by
      refine (exact _).mpr ⟨free, (List.prefix_append_right_inj _).mpr ?_⟩
      cases e
      · exact ⟨[0, 0, 0], rfl⟩
      · exact ⟨[0, 0], rfl⟩
      · exact ⟨[0, 0], rfl⟩
      · exact ⟨[], rfl⟩
      · exact ⟨[], rfl⟩
    obtain ⟨octet, octets, octetsEq⟩ := List.exists_cons_of_ne_nil (encodeSome e some)
    have tries : min 4 (e.encode text).length = min 3 octets.length + 1 := by
      rw [octetsEq, List.length_cons]
      omega
    have full : (e.encode text).isEmpty = false := by rw [octetsEq, List.isEmpty_cons]
    simp only [Read, rest, full, tries, found, List.range_succ_eq_map, List.findSome?_cons, Nat.sub_zero,
      List.take_length, Nat.zero_add, terminated, Bool.false_eq_true, if_false]

def oneLetter (encoding : wxFontEncoding) (bytes : List UInt8) : Option Text :=
  match encoding with
  | .UTF8 => if [0x61, 0].isPrefixOf bytes then some ['a'] else none
  | .UTF32BE => if [0, 0, 0, 0x61, 0, 0, 0, 0].isPrefixOf bytes then some ['a'] else none
  | _ => none

theorem oneLetterExact (e : Utf) (either : e = .utf8 ∨ e = .utf32be) : Exact oneLetter e ['a'] := by
  intro bytes
  have free : NUL ∉ ['a'] := by decide
  rcases either with rfl | rfl
  · simp [oneLetter, Utf.encoding, free, ← List.isPrefixOf_iff_prefix]
    rfl
  · simp [oneLetter, Utf.encoding, free, ← List.isPrefixOf_iff_prefix]
    rfl

def closed : wxUtfFile where
  file := .Open [] .read
  m_encoding := .SYSTEM
  m_bomOffset := 0

theorem letterReadBack :
    ReadBack oneLetter .utf8 ['a'] (reopened .Create closed closed .utf8 ['a'] .DEFAULT) ↔
      Way.Create.marks = true ∧ Utf.utf8 ≠ .utf32be ∧ NUL ∉ ['a'] :=
  textReadBack oneLetter (oneLetterExact .utf8 (.inl rfl)) (List.cons_ne_nil _ _) .Create closed closed .DEFAULT

/- The mark of UTF-32BE says UTF-32LE. -/
theorem markOtherOrder :
    ¬ ∀ (MB2WC : wxFontEncoding → List UInt8 → Option Text) (e : Utf) (text : Text),
      Exact MB2WC e text → text ≠ [] →
        ∀ (way : Way) (f reader : wxUtfFile) (asked : wxFontEncoding),
          ReadBack MB2WC e text (reopened way f reader e text asked) := by
  intro back
  have read := back oneLetter .utf32be ['a'] (oneLetterExact .utf32be (.inr rfl)) (List.cons_ne_nil _ _) .Create
    closed closed .DEFAULT
  exact absurd read.m_encoding (by decide)

end wxUtfFile
end PgAdmin.utffile
