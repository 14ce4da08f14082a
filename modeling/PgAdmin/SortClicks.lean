import PgAdmin.SortTurns

/-! The sort commands of the edit grid. The clause is edited as a text: the column is looked for in it, with and
without a direction, and what looks like it is replaced. -/
namespace PgAdmin.frmEditGrid
open PgsObjects (Text)
open Identifier Direction Substitution wxString

structure SortState where
  autoOrderBy : Bool
  orderBy : Text
  deriving DecidableEq, Repr

def directed (column_label : Text) (d : Direction) : Text := column_label ++ [' '] ++ d.word

/- The default order is discarded when the user defines one. -/
def OnSort (d : Direction) (column_label : Text) (st : SortState) : SortState :=
  let old := if st.autoOrderBy then [] else Trim st.orderBy
  let new :=
    if Find old column_label < 0 then
      (if 0 < old.length then old ++ [' ', ',', ' '] else []) ++ directed column_label d ++ [' ']
    else if Find old (directed column_label d) < 0 then
      replaceAll (directed column_label d.other) (directed column_label d) old
    else old
  ⟨false, new⟩

def OnAscSort : Text → SortState → SortState := OnSort asc
def OnDescSort : Text → SortState → SortState := OnSort desc

def First (pattern before behind : Text) : Prop :=
  (∀ i < before.length, ¬ pattern <+: (before ++ pattern ++ behind).drop i) ∧ ¬ pattern <:+: behind

section Replaced
variable {d : Direction} {front s : Text}

theorem wordsDiffer (d : Direction) : d.other.word.head? ≠ d.word.head? := by cases d <;> simp [other, word]

theorem wordsApart {x y : Text} (same : front ++ d.other.word ++ x = front ++ d.word ++ y) : False := by
  rw [List.append_assoc, List.append_assoc] at same
  have first := congrArg List.head? (List.append_cancel_left same)
  cases d <;> simp [other, word] at first

theorem replaceNone : replaceAll (front ++ d.other.word) (front ++ d.word) s = s ↔
    ¬ (front ++ d.other.word) <:+: s := by
  have nonempty : front ++ d.other.word ≠ [] := by cases d <;> simp [other, word]
  induction s with
  | nil => simp [nonempty]
  | cons c s ih =>
    by_cases hit : front ++ d.other.word <+: c :: s
    · constructor
      · obtain ⟨rest, whole⟩ := hit
        intro same
        rw [← whole, replaceAllHit nonempty] at same
        exact (wordsApart same.symm).elim
      · exact fun absent => absurd hit.isInfix absent
    · rw [replaceAllMiss hit, List.cons.injEq, and_iff_right rfl, List.infix_cons_iff, not_or, and_iff_right hit]
      exact ih

theorem replaceOwn (before behind : Text) :
    replaceAll (front ++ d.other.word) (front ++ d.word) (before ++ (front ++ d.other.word) ++ behind) =
      before ++ (front ++ d.word) ++ behind ↔ First (front ++ d.other.word) before behind := by
  have nonempty : front ++ d.other.word ≠ [] := by cases d <;> simp [other, word]
  induction before with
  | nil =>
    rw [List.nil_append, List.nil_append, replaceAllHit nonempty, List.append_cancel_left_eq, replaceNone, First]
    simp
  | cons c before ih =>
    have text : c :: before ++ (front ++ d.other.word) ++ behind =
        c :: (before ++ (front ++ d.other.word) ++ behind) := rfl
    by_cases hit : front ++ d.other.word <+: c :: (before ++ (front ++ d.other.word) ++ behind)
    · constructor
      · intro same
        -- the text before the pattern is as it was, so the pattern cannot have been replaced in it
        obtain ⟨rest, whole⟩ := hit
        rw [text, ← whole, replaceAllHit nonempty] at same
        have old := congrArg (·[front.length]?) whole
        have new := congrArg (·[front.length]?) same
        have here (w x : Text) (some_ : w ≠ []) : (front ++ w ++ x)[front.length]? = w.head? := by
          obtain ⟨l, w, rfl⟩ := List.exists_cons_of_ne_nil some_
          simp
        have some_ (d : Direction) : d.word ≠ [] := by cases d <;> simp [word]
        have apart (w : Text) : (c :: before ++ (front ++ w) ++ behind)[front.length]? =
            (c :: before ++ front)[front.length]? := by
          rw [← List.append_assoc, List.append_assoc, List.getElem?_append_left (by simp)]
        simp only [here _ _ (some_ _)] at old new
        rw [apart] at new
        rw [← text, apart] at old
        exact absurd (old.trans new.symm) (wordsDiffer d)
      · rintro ⟨none, -⟩
        exact absurd hit (none 0 (Nat.succ_pos _))
    · rw [text, replaceAllMiss hit]
      have inner : c :: before ++ (front ++ d.word) ++ behind = c :: (before ++ (front ++ d.word) ++ behind) := rfl
      rw [inner, List.cons.injEq, and_iff_right rfl]
      refine ih.trans ?_
      rw [First, First]
      refine and_congr_left fun _ => ?_
      constructor
      · intro none i bound
        cases i with
        | zero => exact hit
        | succ i => exact none i (Nat.lt_of_succ_lt_succ bound)
      · exact fun none i bound => none (i + 1) (Nat.succ_lt_succ bound)

end Replaced

section Clauses
variable (keyword : Text → Bool)

/- A clause of the edit grid: each column once, its name as qtIdent writes it. -/
structure Clause where
  entries : List Entry
  built : ∀ e ∈ entries, e.name ≠ [] ∧ e.quoted = needsQuoting keyword e.name
  distinct : (entries.map Entry.name).Nodup
  trail : ℕ

variable {keyword} {d : Direction} {name : Text}

def Clause.text (clause : Clause keyword) : Text := render clause.entries ++ List.replicate clause.trail ' '

def ahead : List Entry → Entry → Text
  | [], _ => []
  | before, e => render before ++ e.gap.text

/- The column once, with the wanted direction; the others with theirs, in their order. -/
def Sorted (d : Direction) (name : Text) (old : List Entry) (text : Text) : Prop :=
  ∃ entries, readClause text = some entries ∧
    entries.filter (·.1 = name) = [(name, d)] ∧
    entries.filter (·.1 ≠ name) = (old.map Entry.meaning).filter (·.1 ≠ name)

/- The column is not in the clause and nothing there looks like it; or it has the direction; or it has the other one,
stands nowhere with the wanted one, and stands first at its own place and not again behind it. -/
def Plain (d : Direction) (label name : Text) (entries : List Entry) : Prop :=
  (name ∉ entries.map Entry.name ∧ ¬ label <:+: render entries) ∨
  (∃ e ∈ entries, e.name = name ∧ e.direction = d) ∨
  ∃ before e after, entries = before ++ e :: after ∧ e.name = name ∧ e.direction = d.other ∧
    ¬ directed label d <:+: render entries ∧
    First (directed label d.other) (ahead before e) (tail after)

theorem builtLabel {e : Entry} (built : e.name ≠ [] ∧ e.quoted = needsQuoting keyword e.name) :
    e.label = qtIdent keyword e.name := by
  have some_ : ¬ e.name.length = 0 := by simpa using built.1
  rw [qtIdent, if_neg some_, Entry.label, built.2, replaceLetter]
  rfl

theorem builtValid {e : Entry} (built : e.name ≠ [] ∧ e.quoted = needsQuoting keyword e.name) : e.Valid := by
  refine ⟨built.1, fun bare => ?_, fun bare => ?_⟩
  · exact (unquotedLetters keyword (built.2.symm.trans bare)).1
  · exact (unquotedLetters keyword (built.2.symm.trans bare)).2.1

theorem Clause.valid (clause : Clause keyword) : ∀ e ∈ clause.entries, e.Valid :=
  fun e member => builtValid (clause.built e member)

theorem renderAt (before after : List Entry) (e : Entry) :
    render (before ++ e :: after) = ahead before e ++ e.text ++ tail after := by
  cases before with
  | nil => rfl
  | cons first before => simp [render, ahead, tail, Entry.later]

theorem entryDirected (e : Entry) : e.text = directed e.label e.direction := by
  simp [Entry.text, directed]

theorem textLast (e : Entry) : ∃ s, e.text = s ++ ['C'] := by
  cases direction : e.direction with
  | asc => exact ⟨e.label ++ [' ', 'A', 'S'], by simp [Entry.text, direction, word]⟩
  | desc => exact ⟨e.label ++ [' ', 'D', 'E', 'S'], by simp [Entry.text, direction, word]⟩

theorem renderLast {entries : List Entry} (some_ : entries ≠ []) : ∃ s, render entries = s ++ ['C'] := by
  rcases List.eq_nil_or_concat entries with rfl | ⟨before, e, rfl⟩
  · exact absurd rfl some_
  · obtain ⟨s, last⟩ := textLast e
    rw [List.concat_eq_append, renderAt, last]
    exact ⟨ahead before e ++ s, by simp [tail]⟩

theorem trimClause (clause : Clause keyword) : Trim clause.text = render clause.entries := by
  have blanks : ∀ c ∈ List.replicate clause.trail ' ', isSpace c = true := fun c member => by
    rw [List.eq_of_mem_replicate member]
    rfl
  have off (s : Text) : Trim (s ++ List.replicate clause.trail ' ') = Trim s := by
    rw [Trim, Trim, List.rdropWhile, List.rdropWhile, List.reverse_append, List.dropWhile_append_of_pos]
    exact fun c member => blanks c (List.mem_reverse.mp member)
  rw [Clause.text, off]
  by_cases none : clause.entries = []
  · rw [none]
    rfl
  · obtain ⟨s, last⟩ := renderLast none
    rw [last]
    exact List.rdropWhile_concat_neg _ _ _ (by decide)

theorem meaningWithout {entries : List Entry} (absent : name ∉ entries.map Entry.name) :
    (entries.map Entry.meaning).filter (·.1 = name) = [] ∧
      (entries.map Entry.meaning).filter (·.1 ≠ name) = entries.map Entry.meaning := by
  have apart : ∀ x ∈ entries.map Entry.meaning, x.1 ≠ name := by
    intro x member same
    obtain ⟨y, inside, rfl⟩ := List.mem_map.mp member
    exact absent (List.mem_map.mpr ⟨y, inside, same⟩)
  exact ⟨List.filter_eq_nil_iff.mpr fun x member => by simpa using apart x member,
    List.filter_eq_self.mpr fun x member => by simpa using apart x member⟩

theorem meaningAt {before after : List Entry} {e : Entry}
    (distinct : ((before ++ e :: after).map Entry.name).Nodup) :
    ((before ++ e :: after).map Entry.meaning).filter (·.1 = e.name) = [e.meaning] ∧
      ((before ++ e :: after).map Entry.meaning).filter (·.1 ≠ e.name) =
        (before ++ after).map Entry.meaning := by
  rw [List.map_append, List.map_cons, List.nodup_middle, List.nodup_cons] at distinct
  obtain ⟨left, right⟩ := not_or.mp (mt List.mem_append.mpr distinct.1)
  have front := meaningWithout left
  have behind := meaningWithout right
  rw [List.map_append, List.filter_append, List.filter_append, List.map_cons]
  constructor
  · rw [front.1, List.filter_cons_of_pos (by simp [Entry.meaning]), behind.1]
    rfl
  · rw [front.2, List.filter_cons_of_neg (by simp [Entry.meaning]), behind.2, List.map_append]

theorem sortedAt {before after : List Entry} {e e' : Entry} (valid : ∀ x ∈ before ++ e' :: after, x.Valid)
    (distinct : ((before ++ e :: after).map Entry.name).Nodup) (same : e'.name = e.name)
    (direction : e'.direction = d) (trail : ℕ) :
    Sorted d e.name (before ++ e :: after) (render (before ++ e' :: after) ++ List.replicate trail ' ') := by
  have distinct' : ((before ++ e' :: after).map Entry.name).Nodup := by
    simpa only [List.map_append, List.map_cons, same] using distinct
  refine ⟨_, readRender valid trail (by simp), ?_, ?_⟩
  · rw [← same, (meaningAt distinct').1, Entry.meaning, direction]
  · rw [(meaningAt distinct).2, ← same, (meaningAt distinct').2]

theorem sumLengths (name : Text) (l : List (Text × Direction)) : (l.map (·.1.length)).sum =
    ((l.filter (·.1 = name)).map (·.1.length)).sum + ((l.filter (·.1 ≠ name)).map (·.1.length)).sum := by
  have parts := ((List.filter_append_perm (fun x : Text × Direction => decide (x.1 = name)) l).map
    (·.1.length)).sum_eq
  rw [← parts, List.map_append, List.sum_append]
  congr 4
  funext x
  simp

theorem turnedValid {entries entries' : List Entry} (turned : List.Forall₂ (EntryTurned d) entries entries')
    (valid : ∀ x ∈ entries, x.Valid) : ∀ x ∈ entries', x.Valid := by
  induction turned with
  | nil => exact fun x member => absurd member List.not_mem_nil
  | cons here later ih =>
    rw [List.forall_mem_cons] at valid ⊢
    exact ⟨here.valid valid.1, ih valid.2⟩

theorem turnedSum {entries entries' : List Entry} (turned : List.Forall₂ (EntryTurned d) entries entries') :
    ∃ k, (entries'.map (·.name.length)).sum + k * d.other.word.length =
        (entries.map (·.name.length)).sum + k * d.word.length ∧
      (k = 0 → entries'.map Entry.name = entries.map Entry.name) := by
  induction turned with
  | nil => exact ⟨0, by simp, fun _ => rfl⟩
  | cons here later ih =>
    obtain ⟨k, sum, same⟩ := ih
    obtain ⟨j, name⟩ := here.name
    have length := turnedLength name
    refine ⟨j + k, ?_, fun none => ?_⟩
    · simp only [List.map_cons, List.sum_cons, Nat.add_mul]
      omega
    · obtain ⟨rfl, rfl⟩ : j = 0 ∧ k = 0 := by omega
      rw [List.map_cons, List.map_cons, turnedNone name, same rfl]

theorem directionsKept {l l' : List (Text × Direction)} (names : l'.map Prod.fst = l.map Prod.fst)
    (own : ∀ x ∈ l', x.1 = name → x.2 = d) (others : l'.filter (·.1 ≠ name) = l.filter (·.1 ≠ name)) :
    l' = l.map fun x => if x.1 = name then (x.1, d) else x := by
  induction l generalizing l' with
  | nil => simpa using names
  | cons x l ih =>
    cases l' with
    | nil => cases names
    | cons x' l' =>
      obtain ⟨same, rest⟩ := List.cons.inj names
      by_cases here : x.1 = name
      · have here' : x'.1 = name := same.trans here
        rw [List.filter_cons_of_neg (by simpa using here'), List.filter_cons_of_neg (by simpa using here)] at others
        have direction := own x' List.mem_cons_self here'
        rw [List.map_cons, if_pos here, ← ih rest (fun y member => own y (List.mem_cons_of_mem x' member)) others,
          ← same, ← direction]
      · have here' : x'.1 ≠ name := fun no => here (same.symm.trans no)
        rw [List.filter_cons_of_pos (by simpa using here'), List.filter_cons_of_pos (by simpa using here)] at others
        obtain ⟨rfl, later⟩ := List.cons.inj others
        rw [List.map_cons, if_neg here, ← ih rest (fun y member => own y (List.mem_cons_of_mem x' member)) later]

theorem entriesKept {entries entries' : List Entry} (turned : List.Forall₂ (EntryTurned d) entries entries')
    (change : Entry → Direction) (same : entries'.map Entry.meaning = entries.map fun e => (e.name, change e)) :
    entries' = entries.map fun e => { e with direction := change e } := by
  induction turned with
  | nil => rfl
  | @cons e e' entries entries' here later ih =>
    obtain ⟨first, rest⟩ := List.cons.inj same
    have name : e'.name = e.name := congrArg Prod.fst first
    have direction : e'.direction = change e := congrArg Prod.snd first
    have entry : e' = { e with direction := change e } := by
      rw [← direction, ← name, ← here.quoted, ← here.gap]
    rw [List.map_cons, ← ih rest, ← entry]

theorem ownReplaced {before after : List Entry} {e : Entry} (valid : ∀ x ∈ before ++ e :: after, x.Valid)
    (distinct : ((before ++ e :: after).map Entry.name).Nodup) (direction : e.direction = d.other) :
    Sorted d e.name (before ++ e :: after)
        (replaceAll (directed e.label d.other) (directed e.label d) (render (before ++ e :: after))) ↔
      First (directed e.label d.other) (ahead before e) (tail after) := by
  have old : render (before ++ e :: after) = ahead before e ++ directed e.label d.other ++ tail after := by
    rw [renderAt, entryDirected, direction]
  have new : render (before ++ { e with direction := d } :: after) =
      ahead before e ++ directed e.label d ++ tail after := by
    rw [renderAt, entryDirected]
    cases before <;> rfl
  have own := @replaceOwn d (e.label ++ [' ']) (ahead before e) (tail after)
  constructor
  · rintro ⟨entries, got, once, others⟩
    obtain ⟨k, turned⟩ := turnedReplace d (e.label ++ [' ']) (render (before ++ e :: after))
    obtain ⟨entries', shape, all⟩ := turnedRender valid turned
    have some_ : entries' ≠ [] := by
      rintro rfl
      exact absurd all.length_eq (by simp)
    have read_ := readRender (turnedValid all valid) 0 some_
    rw [List.replicate_zero, List.append_nil, ← shape] at read_
    obtain rfl : entries'.map Entry.meaning = entries := Option.some.inj (read_.symm.trans got)
    have names : entries'.map Entry.name = (before ++ e :: after).map Entry.name := by
      obtain ⟨k, sum, same⟩ := turnedSum all
      have long := sumLengths e.name (entries'.map Entry.meaning)
      have long' := sumLengths e.name ((before ++ e :: after).map Entry.meaning)
      rw [once, others] at long
      rw [(meaningAt distinct).1] at long'
      have lengths (l : List Entry) : ((l.map Entry.meaning).map (·.1.length)).sum = (l.map (·.name.length)).sum := by
        rw [List.map_map]
        rfl
      rw [lengths] at long long'
      have equal : k * d.other.word.length = k * d.word.length := by
        simp only [Entry.meaning, List.map_cons, List.map_nil, List.sum_cons, List.sum_nil] at long long'
        omega
      refine same ?_
      cases d <;> simp only [other, word, List.length_cons, List.length_nil] at equal <;> omega
    have firsts (l : List Entry) : (l.map Entry.meaning).map Prod.fst = l.map Entry.name := by
      rw [List.map_map]
      rfl
    have kept := directionsKept (by rw [firsts, firsts, names])
      (fun x member same => by
        have inside : x ∈ (entries'.map Entry.meaning).filter (·.1 = e.name) :=
          List.mem_filter.mpr ⟨member, decide_eq_true same⟩
        rw [once, List.mem_singleton] at inside
        rw [inside]) others
    have changed := entriesKept all (fun x => if x.name = e.name then d else x.direction) (by
      rw [kept, List.map_map]
      refine List.map_congr_left fun x _ => ?_
      by_cases same : x.name = e.name <;> simp [Entry.meaning, same])
    have apart (l : List Entry) (absent : e.name ∉ l.map Entry.name) : (l.map fun x =>
        { x with direction := if x.name = e.name then d else x.direction }) = l := by
      refine (List.map_congr_left fun x member => ?_).trans (List.map_id l)
      rw [if_neg fun same => absent (List.mem_map.mpr ⟨x, member, same⟩)]
      rfl
    rw [List.map_append, List.map_cons, List.nodup_middle, List.nodup_cons] at distinct
    obtain ⟨left, right⟩ := not_or.mp (mt List.mem_append.mpr distinct.1)
    rw [List.map_append, List.map_cons, apart before left, apart after right, if_pos rfl] at changed
    refine own.mp ?_
    rw [changed, new, old] at shape
    exact shape
  · intro first
    have alone := own.mpr first
    have valid' : ∀ x ∈ before ++ { e with direction := d } :: after, x.Valid := by
      intro x member
      rw [List.mem_append, List.mem_cons] at member
      rcases member with inside | rfl | inside
      · exact valid x (by simp [inside])
      · have here := valid e (by simp)
        exact ⟨here.nonempty, here.small, here.first⟩
      · exact valid x (by simp [inside])
    have sorted := sortedAt valid' distinct rfl rfl 0
    rw [List.replicate_zero, List.append_nil, new] at sorted
    rw [old]
    exact alone ▸ sorted

def clicked (keyword : Text → Bool) (d : Direction) (name : Text) : Entry :=
  ⟨name, needsQuoting keyword name, d, .click⟩

theorem clickedLabel (nonempty : name ≠ []) : (clicked keyword d name).label = qtIdent keyword name :=
  builtLabel ⟨nonempty, rfl⟩

theorem labelSome (nonempty : name ≠ []) : qtIdent keyword name ≠ [] := by
  intro none
  have read_ := readQtIdent keyword nonempty
  rw [none] at read_
  cases read_

theorem labelInside {entries : List Entry} {e : Entry} (member : e ∈ entries) :
    directed e.label e.direction <:+: render entries ∧ e.label <:+: render entries := by
  obtain ⟨before, after, rfl⟩ := List.append_of_mem member
  rw [renderAt, entryDirected]
  have whole : directed e.label e.direction <:+: ahead before e ++ directed e.label e.direction ++ tail after :=
    ⟨_, _, rfl⟩
  exact ⟨whole, ((List.prefix_append _ _).trans (List.prefix_append _ _)).isInfix.trans whole⟩

theorem findMissing (str sub : Text) : Find str sub < 0 ↔ ¬ sub <:+: str := by
  rw [← findSome, not_le]

theorem aheadClicked (entries : List Entry) : ahead entries (clicked keyword d name) =
    if 0 < (render entries).length then render entries ++ [' ', ',', ' '] else [] := by
  cases entries with
  | nil => rfl
  | cons e entries =>
    obtain ⟨s, last⟩ := @renderLast (e :: entries) (by simp)
    rw [if_pos (by simp [last])]
    rfl

theorem appendClicked (clause : Clause keyword) (nonempty : name ≠ [])
    (missing : name ∉ clause.entries.map Entry.name) : ∃ more : Clause keyword,
      more.entries = clause.entries ++ [clicked keyword d name] ∧ more.trail = 1 ∧
      more.text = (if 0 < (render clause.entries).length then render clause.entries ++ [' ', ',', ' '] else []) ++
        directed (qtIdent keyword name) d ++ [' '] := by
  refine ⟨⟨clause.entries ++ [clicked keyword d name], fun e member => ?_, ?_, 1⟩, rfl, rfl, ?_⟩
  · rcases List.mem_append.mp member with inside | here
    · exact clause.built e inside
    · obtain rfl := List.mem_singleton.mp here
      exact ⟨nonempty, rfl⟩
  · rw [List.map_append, List.nodup_append]
    refine ⟨clause.distinct, List.nodup_singleton _, ?_⟩
    rintro x inside y here rfl
    obtain rfl := List.mem_singleton.mp here
    exact missing inside
  · have text : (clicked keyword d name).text = directed (qtIdent keyword name) d := by
      rw [entryDirected, clickedLabel nonempty]
      rfl
    rw [Clause.text, renderAt, text, aheadClicked]
    simp [tail]

theorem onlyEntry {before after : List Entry} {e other : Entry}
    (distinct : ((before ++ e :: after).map Entry.name).Nodup) (member : other ∈ before ++ e :: after)
    (same : other.name = e.name) : other.meaning = e.meaning := by
  have inside : other.meaning ∈ ((before ++ e :: after).map Entry.meaning).filter (·.1 = e.name) :=
    List.mem_filter.mpr ⟨List.mem_map_of_mem member, decide_eq_true same⟩
  rw [(meaningAt distinct).1] at inside
  exact List.mem_singleton.mp inside

theorem otherOf {x d : Direction} (differs : x ≠ d) : x = d.other := by
  cases x <;> cases d <;> first | rfl | exact absurd rfl differs

theorem readText (clause : Clause keyword) (some_ : clause.entries ≠ []) :
    readClause clause.text = some (clause.entries.map Entry.meaning) :=
  readRender clause.valid clause.trail some_

theorem sortDefault (clause : Clause keyword) (nonempty : name ≠ []) :
    Sorted d name clause.entries (OnSort d (qtIdent keyword name) ⟨true, clause.text⟩).orderBy ↔
      ∀ e ∈ clause.entries, e.name = name := by
  obtain ⟨more, entries, -, text⟩ :=
    @appendClicked keyword d name ⟨[], by simp, by simp, 0⟩ nonempty (by simp)
  have missing : Find [] (qtIdent keyword name) < 0 := by
    rw [findMissing, List.infix_nil]
    exact labelSome nonempty
  have new : (OnSort d (qtIdent keyword name) ⟨true, clause.text⟩).orderBy = more.text := by
    simp only [OnSort, if_true, if_pos missing]
    exact text.symm
  have read_ := readText more (by simp [entries])
  rw [entries] at read_
  rw [new, Sorted]
  constructor
  · rintro ⟨l, got, -, others⟩ e inside
    obtain rfl := Option.some.inj (read_.symm.trans got)
    by_contra differs
    have kept : e.meaning ∈ (clause.entries.map Entry.meaning).filter (·.1 ≠ name) :=
      List.mem_filter.mpr ⟨List.mem_map_of_mem inside, decide_eq_true differs⟩
    rw [← others] at kept
    simp [clicked, Entry.meaning] at kept
  · intro all
    refine ⟨_, read_, by simp [clicked, Entry.meaning], ?_⟩
    have none : (clause.entries.map Entry.meaning).filter (·.1 ≠ name) = [] := by
      rw [List.filter_eq_nil_iff]
      intro x member
      obtain ⟨e, inside, rfl⟩ := List.mem_map.mp member
      simp [Entry.meaning, all e inside]
    rw [none]
    simp [clicked, Entry.meaning]

theorem sortMissing (clause : Clause keyword) (nonempty : name ≠ [])
    (absent : ¬ qtIdent keyword name <:+: render clause.entries) :
    ∃ more : Clause keyword, (OnSort d (qtIdent keyword name) ⟨false, clause.text⟩).orderBy = more.text ∧
      Sorted d name clause.entries more.text := by
  have missing : name ∉ clause.entries.map Entry.name := by
    intro member
    obtain ⟨e, inside, rfl⟩ := List.mem_map.mp member
    exact absent (builtLabel (clause.built e inside) ▸ (labelInside inside).2)
  obtain ⟨more, entries, -, text⟩ := @appendClicked keyword d name clause nonempty missing
  refine ⟨more, ?_, ?_⟩
  · simp only [OnSort, Bool.false_eq_true, if_false, trimClause, if_pos ((findMissing _ _).mpr absent)]
    exact text.symm
  · have read_ := readText more (by simp [entries])
    have distinct := more.distinct
    rw [entries] at read_ distinct
    obtain ⟨once, others⟩ := meaningAt distinct
    refine ⟨_, read_, once, ?_⟩
    rw [(meaningWithout missing).2]
    exact others.trans (by rw [List.append_nil])

theorem sortForeign (clause : Clause keyword) (found : qtIdent keyword name <:+: render clause.entries)
    (nonempty : name ≠ []) (absent : name ∉ clause.entries.map Entry.name) :
    ¬ Sorted d name clause.entries (OnSort d (qtIdent keyword name) ⟨false, clause.text⟩).orderBy := by
  have some_ : clause.entries ≠ [] := by
    intro none
    rw [none] at found
    exact labelSome nonempty (List.infix_nil.mp found)
  have entries : ∃ entries, (OnSort d (qtIdent keyword name) ⟨false, clause.text⟩).orderBy = render entries ∧
      entries.length = clause.entries.length ∧ ∀ x ∈ entries, x.Valid := by
    simp only [OnSort, Bool.false_eq_true, if_false, trimClause, findMissing, if_neg (not_not.mpr found)]
    split
    · obtain ⟨k, turned⟩ := turnedReplace d (qtIdent keyword name ++ [' ']) (render clause.entries)
      obtain ⟨entries, shape, all⟩ := turnedRender clause.valid turned
      exact ⟨entries, shape, all.length_eq.symm, turnedValid all clause.valid⟩
    · exact ⟨clause.entries, rfl, rfl, clause.valid⟩
  obtain ⟨entries, text, length, valid⟩ := entries
  rintro ⟨l, got, once, others⟩
  have some' : entries ≠ [] := by
    rintro rfl
    exact some_ (List.length_eq_zero_iff.mp length.symm)
  have read_ := readRender valid 0 some'
  rw [List.replicate_zero, List.append_nil, ← text] at read_
  obtain rfl := Option.some.inj (read_.symm.trans got)
  have parts := List.length_eq_length_filter_add (l := entries.map Entry.meaning) fun x => decide (x.1 = name)
  have complement : (entries.map Entry.meaning).filter (fun x => !decide (x.1 = name)) =
      (entries.map Entry.meaning).filter (·.1 ≠ name) := by
    congr 1
    funext x
    simp
  rw [complement, once, others, (meaningWithout absent).2, List.length_map, List.length_map] at parts
  simp only [List.length_cons, List.length_nil] at parts
  omega

theorem sortMember (clause : Clause keyword) {e : Entry} (inside : e ∈ clause.entries) :
    Sorted d e.name clause.entries (OnSort d e.label ⟨false, clause.text⟩).orderBy ↔
      Plain d e.label e.name clause.entries := by
  obtain ⟨before, after, shape⟩ := List.append_of_mem inside
  have member : e.name ∈ clause.entries.map Entry.name := List.mem_map_of_mem inside
  have distinct := clause.distinct
  have valid := clause.valid
  simp only [OnSort, Bool.false_eq_true, if_false, trimClause, findMissing,
    if_neg (not_not.mpr (labelInside inside).2)]
  by_cases direction : e.direction = d
  · have there := direction ▸ (labelInside inside).1
    rw [if_neg (not_not.mpr there)]
    refine iff_of_true ?_ (.inr (.inl ⟨e, inside, rfl, direction⟩))
    rw [shape] at valid distinct ⊢
    have sorted := sortedAt valid distinct rfl direction 0
    rwa [List.replicate_zero, List.append_nil] at sorted
  · have other_ := otherOf direction
    by_cases there : directed e.label d <:+: render clause.entries
    · rw [if_neg (not_not.mpr there)]
      refine iff_of_false ?_ ?_
      · rintro ⟨entries, got, once, -⟩
        have read_ := readRender valid 0 (List.ne_nil_of_mem inside)
        rw [List.replicate_zero, List.append_nil] at read_
        obtain rfl := Option.some.inj (read_.symm.trans got)
        rw [shape] at once distinct
        rw [(meaningAt distinct).1] at once
        exact direction (congrArg Prod.snd (List.cons.inj once).1)
      · rintro (⟨no, -⟩ | ⟨x, here, same, wanted⟩ | ⟨_, _, _, _, _, _, no, _⟩)
        · exact no member
        · rw [shape] at here distinct
          exact direction ((congrArg Prod.snd (onlyEntry distinct here same)).symm.trans wanted)
        · exact no there
    · rw [if_pos there]
      constructor
      · intro sorted
        refine .inr (.inr ⟨before, e, after, shape, rfl, other_, there, ?_⟩)
        rw [shape] at sorted valid distinct
        exact (ownReplaced valid distinct other_).mp sorted
      · rintro (⟨no, -⟩ | ⟨x, here, same, wanted⟩ | ⟨before', x, after', shape', same, other', -, first⟩)
        · exact absurd member no
        · rw [shape] at here distinct
          exact absurd ((congrArg Prod.snd (onlyEntry distinct here same)).symm.trans wanted) direction
        · have label : x.label = e.label := by
            rw [builtLabel (clause.built e inside), ← same]
            exact builtLabel (clause.built x (by rw [shape']; simp))
          rw [shape'] at valid distinct ⊢
          rw [← label] at first ⊢
          rw [← same]
          exact (ownReplaced valid distinct other').mpr first

/-- What a sort command leaves: while the default order is in force, the column alone; otherwise the column sorted and
the others as they were, exactly when the clause is plain for it. -/
theorem sortPlain (clause : Clause keyword) (auto : Bool) (nonempty : name ≠ []) :
    Sorted d name clause.entries (OnSort d (qtIdent keyword name) ⟨auto, clause.text⟩).orderBy ↔
      if auto then ∀ e ∈ clause.entries, e.name = name
      else Plain d (qtIdent keyword name) name clause.entries := by
  cases auto with
  | true => exact sortDefault clause nonempty
  | false =>
    rw [if_neg Bool.false_ne_true]
    by_cases found : qtIdent keyword name <:+: render clause.entries
    · by_cases member : name ∈ clause.entries.map Entry.name
      · obtain ⟨e, inside, rfl⟩ := List.mem_map.mp member
        rw [← builtLabel (clause.built e inside)]
        exact sortMember clause inside
      · refine iff_of_false (sortForeign clause found nonempty member) ?_
        rintro (⟨-, no⟩ | ⟨x, here, same, -⟩ | ⟨before, x, after, shape, same, -⟩)
        · exact no found
        · exact member (List.mem_map.mpr ⟨x, here, same⟩)
        · exact member (List.mem_map.mpr ⟨x, by rw [shape]; simp, same⟩)
    · obtain ⟨more, text, sorted⟩ := @sortMissing keyword d name clause nonempty found
      have missing : name ∉ clause.entries.map Entry.name := by
        intro member
        obtain ⟨e, inside, rfl⟩ := List.mem_map.mp member
        exact found (builtLabel (clause.built e inside) ▸ (labelInside inside).2)
      rw [text]
      exact iff_of_true sorted (.inl ⟨missing, found⟩)

def click (keyword : Text → Bool) (st : SortState) (command : Direction × Text) : SortState :=
  OnSort command.1 (qtIdent keyword command.2) st

theorem clickLeaves (clause : Clause keyword) (auto : Bool) (nonempty : name ≠ [])
    (plain : auto = false → Plain d (qtIdent keyword name) name clause.entries) :
    ∃ after : Clause keyword, OnSort d (qtIdent keyword name) ⟨auto, clause.text⟩ = ⟨false, after.text⟩ := by
  cases auto with
  | true =>
    obtain ⟨more, -, -, text⟩ := @appendClicked keyword d name ⟨[], by simp, by simp, 0⟩ nonempty (by simp)
    have missing : Find [] (qtIdent keyword name) < 0 := by
      rw [findMissing, List.infix_nil]
      exact labelSome nonempty
    refine ⟨more, ?_⟩
    simp only [OnSort, if_true, if_pos missing]
    exact congrArg (SortState.mk false) text.symm
  | false =>
    by_cases found : qtIdent keyword name <:+: render clause.entries
    · rcases plain rfl with ⟨-, no⟩ | ⟨e, inside, rfl, direction⟩ | ⟨before, e, after, shape, rfl, other_, there, first⟩
      · exact absurd found no
      · have label := builtLabel (clause.built e inside)
        have there := direction ▸ (labelInside inside).1
        rw [label] at there
        refine ⟨⟨clause.entries, clause.built, clause.distinct, 0⟩, ?_⟩
        simp only [OnSort, Bool.false_eq_true, if_false, trimClause, findMissing, if_neg (not_not.mpr found),
          if_neg (not_not.mpr there)]
        simp [Clause.text]
      · have inside : e ∈ clause.entries := by rw [shape]; simp
        have label := builtLabel (clause.built e inside)
        have old : render clause.entries = ahead before e ++ directed e.label d.other ++ tail after := by
          rw [shape, renderAt, entryDirected, other_]
        have new : render (before ++ { e with direction := d } :: after) =
            ahead before e ++ directed e.label d ++ tail after := by
          rw [renderAt, entryDirected]
          cases before <;> rfl
        have alone := (@replaceOwn d (e.label ++ [' ']) (ahead before e) (tail after)).mpr (by rwa [label])
        have built := clause.built
        have distinct := clause.distinct
        rw [shape] at built distinct
        refine ⟨⟨before ++ { e with direction := d } :: after, ?_, by simpa using distinct, 0⟩, ?_⟩
        · intro x member
          rw [List.mem_append, List.mem_cons] at member
          rcases member with here | rfl | here
          · exact built x (by simp [here])
          · exact built e (by simp)
          · exact built x (by simp [here])
        · simp only [OnSort, Bool.false_eq_true, if_false, trimClause, findMissing, if_neg (not_not.mpr found),
            if_pos there]
          rw [← label, Clause.text, List.replicate_zero, List.append_nil, new, old]
          exact congrArg (SortState.mk false) alone
    · obtain ⟨more, text, -⟩ := @sortMissing keyword d name clause nonempty found
      exact ⟨more, by rw [← text]; rfl⟩

/-- After any run of commands, each on a clause that is plain for it, the clause has each column once. -/
theorem clicksLeave (clause : Clause keyword) (auto : Bool) {commands : List (Direction × Text)}
    (nonempty : ∀ command ∈ commands, command.2 ≠ [])
    (plain : ∀ done command later, commands = done ++ command :: later → ∀ reached : Clause keyword,
      done.foldl (click keyword) ⟨auto, clause.text⟩ = ⟨false, reached.text⟩ →
        Plain command.1 (qtIdent keyword command.2) command.2 reached.entries) :
    ∃ auto', ∃ after : Clause keyword, commands.foldl (click keyword) ⟨auto, clause.text⟩ = ⟨auto', after.text⟩ := by
  induction commands generalizing clause auto with
  | nil => exact ⟨auto, clause, rfl⟩
  | cons command commands ih =>
    have here : auto = false → Plain command.1 (qtIdent keyword command.2) command.2 clause.entries := by
      rintro rfl
      exact plain [] command commands rfl clause rfl
    obtain ⟨after, step⟩ := clickLeaves clause auto (nonempty command List.mem_cons_self) here
    rw [List.foldl_cons, click, step]
    refine ih after false (fun c member => nonempty c (List.mem_cons_of_mem command member)) ?_
    intro done now later same reached arrived
    refine plain (command :: done) now later (congrArg (command :: ·) same) reached ?_
    rw [List.foldl_cons, click, step]
    exact arrived

end Clauses

/-- Each sort command, and any run of them. -/
theorem sortCommands (keyword : Text → Bool) :
    (∀ (d : Direction) (clause : Clause keyword) (auto : Bool) (name : Text), name ≠ [] →
      (Sorted d name clause.entries (OnSort d (qtIdent keyword name) ⟨auto, clause.text⟩).orderBy ↔
        if auto then ∀ e ∈ clause.entries, e.name = name
        else Plain d (qtIdent keyword name) name clause.entries)) ∧
    ∀ (clause : Clause keyword) (auto : Bool) (commands : List (Direction × Text)),
      (∀ command ∈ commands, command.2 ≠ []) →
      (∀ done command later, commands = done ++ command :: later → ∀ reached : Clause keyword,
        done.foldl (click keyword) ⟨auto, clause.text⟩ = ⟨false, reached.text⟩ →
          Plain command.1 (qtIdent keyword command.2) command.2 reached.entries) →
      ∃ auto', ∃ after : Clause keyword,
        commands.foldl (click keyword) ⟨auto, clause.text⟩ = ⟨auto', after.text⟩ :=
  ⟨fun _ clause auto _ nonempty => sortPlain clause auto nonempty,
    fun clause auto _ nonempty plain => clicksLeave clause auto nonempty plain⟩

def oneColumn : Clause fun _ => false :=
  ⟨[⟨['a', 'a'], false, desc, .click⟩], by decide, by decide, 1⟩

theorem columnAppended : Sorted asc ['b'] oneColumn.entries
    (OnSort asc (qtIdent (fun _ => false) ['b']) ⟨false, oneColumn.text⟩).orderBy := by
  refine ((sortCommands fun _ => false).1 asc oneColumn false ['b'] (by decide)).mpr (.inl ⟨by decide, ?_⟩)
  rw [← findMissing]
  decide

/- A column whose name ends another one's turns that one. -/
theorem otherTurned : ¬ Sorted asc ['a'] oneColumn.entries
    (OnAscSort (qtIdent (fun _ => false) ['a']) ⟨false, oneColumn.text⟩).orderBy := by
  rintro ⟨entries, got, once, -⟩
  have new : (OnAscSort (qtIdent (fun _ => false) ['a']) ⟨false, oneColumn.text⟩).orderBy =
      ['a', 'a', ' ', 'A', 'S', 'C'] := by decide
  have read_ : readClause ['a', 'a', ' ', 'A', 'S', 'C'] = some [(['a', 'a'], asc)] := by decide
  rw [new, read_] at got
  obtain rfl := Option.some.inj got
  exact absurd once (by decide)

end PgAdmin.frmEditGrid
