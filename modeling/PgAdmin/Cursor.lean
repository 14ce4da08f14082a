import Mathlib.Data.List.TakeWhile

/-! A pointer into a text that ends with a NUL is the rest of the text from there on. What lies
between two pointers is what the later one has left behind; a loop that moves a pointer over
letters of a kind is `dropWhile`. -/
namespace PgAdmin.Cursor

variable {p q s rest : List Char} {kind : Char → Bool}

/- A text up to its first NUL. -/
def cStr (text : List Char) : List Char := text.takeWhile (· ≠ '\x00')

def between (p q : List Char) : List Char := p.take (p.length - q.length)

def NulFree (text : List Char) : Prop := '\x00' ∉ text

theorem cStrNulFree (text : List Char) : NulFree (cStr text) := fun member => by
  simpa using List.mem_takeWhile_imp member

theorem cStrSelf (free : NulFree s) : cStr s = s :=
  List.takeWhile_eq_self_iff.mpr fun c member => by
    have other : c ≠ '\x00' := fun same => free (same ▸ member)
    simpa using other

theorem NulFree.append : NulFree (s ++ rest) ↔ NulFree s ∧ NulFree rest := by
  simp [NulFree, not_or]

@[simp] theorem betweenAppend (s rest : List Char) : between (s ++ rest) rest = s := by
  simp [between]

theorem betweenOf (split : p = s ++ q) : between p q = s := split ▸ betweenAppend s q

def Past (kind : Char → Bool) (p : List Char) : Prop := ∀ c ∈ p.head?, kind c = false

theorem pastBoth (past : Past kind p) (other : Past (!kind ·) p) : p = [] := by
  cases p with
  | nil => rfl
  | cons c p =>
    have here := other c rfl
    simp [past c rfl] at here

theorem skipAppend (all : ∀ c ∈ s, kind c) (past : Past kind rest) :
    (s ++ rest).dropWhile kind = rest := by
  rw [List.dropWhile_append_of_pos all]
  cases rest with
  | nil => rfl
  | cons c rest => exact List.dropWhile_cons_of_neg (by simpa using past c rfl)

theorem skipSplit (kind : Char → Bool) (p : List Char) :
    ∃ s, p = s ++ p.dropWhile kind ∧ (∀ c ∈ s, kind c) ∧ Past kind (p.dropWhile kind) := by
  refine ⟨p.takeWhile kind, List.takeWhile_append_dropWhile.symm,
    fun c member => List.mem_takeWhile_imp member, ?_⟩
  intro c head
  have stopped := List.head?_dropWhile_not kind p
  rw [Option.mem_def.mp head] at stopped
  exact stopped

theorem skipMoves (start : ∀ c ∈ p.head?, kind c) (more : p ≠ []) :
    ∃ s, p = s ++ p.dropWhile kind ∧ (s ≠ [] ∧ ∀ c ∈ s, kind c) ∧ Past kind (p.dropWhile kind) := by
  obtain ⟨s, split, all, after⟩ := skipSplit kind p
  refine ⟨s, split, ⟨?_, all⟩, after⟩
  rintro rfl
  obtain ⟨c, p, rfl⟩ := List.exists_cons_of_ne_nil more
  have stays : (c :: p).dropWhile kind = c :: p := split.symm
  have other := after c (by rw [stays]; rfl)
  exact absurd (start c rfl) (by simp [other])

end PgAdmin.Cursor
