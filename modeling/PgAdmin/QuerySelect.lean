import PgAdmin.QuerySentence

/-! The statement of the graphical query builder as a server reads it: its words, the SELECT they make up, and which
rows its WHERE clause lets through. -/
namespace PgAdmin.gqbController
open PgsObjects (Text)
open gqbJoins (type_Join)
open SeparatedLists

/- The words of a SELECT; a criterion is not looked into. -/
inductive Token where
  | SELECT
  | star
  | FROM
  | WHERE
  | ORDER_BY
  | AS
  | AND
  | OR
  | ASC
  | DESC
  | comma
  | dot
  | semicolon
  | ident (name : Text)
  | operator (kind : type_Join)
  | criterion (text : Text)
  deriving DecidableEq

def Token.isWord : Token → Bool
  | star | comma | dot | semicolon | operator _ => false
  | _ => true

def operatorMark : type_Join → Text
  | .equally => "=".toList
  | .greater => ">".toList
  | .lesser => "<".toList
  | .equgreater => ">=".toList
  | .equlesser => "<=".toList

section Spelling
variable (qtIdent : Text → Text)

def Token.text : Token → Text
  | SELECT => "SELECT".toList
  | star => "*".toList
  | FROM => "FROM".toList
  | WHERE => "WHERE".toList
  | ORDER_BY => "ORDER BY".toList
  | AS => "AS".toList
  | AND => "AND".toList
  | OR => "OR".toList
  | ASC => "ASC".toList
  | DESC => "DESC".toList
  | comma => ",".toList
  | dot => ".".toList
  | semicolon => ";".toList
  | ident name => qtIdent name
  | operator kind => operatorMark kind
  | criterion text => text

/- Tokens with white space before them, at least some between two words; from a word or not, to a word or not. -/
inductive Spells : Bool → List Token → Text → Bool → Prop where
  | nil (word : Bool) : Spells word [] [] word
  | cons {word last : Bool} (token : Token) {tokens : List Token} {text : Text} (blank : Text)
      (white : ∀ c ∈ blank, c = ' ' ∨ c = '\n') (apart : word = true → token.isWord = true → blank ≠ [])
      (rest : Spells token.isWord tokens text last) : Spells word (token :: tokens)
      (blank ++ token.text qtIdent ++ text) last

end Spelling

structure Qualified where
  table : Text
  column : Text

inductive Atom where
  | compare (left : Qualified) (kind : type_Join) (right : Qualified)
  | criterion (text : Text)

structure Select where
  items : List (Qualified × Option Text)
  tables : List (Qualified × Option Text)
  condition : List (List Atom)
  order : List (Qualified × Bool)

section Reading

def readQualified : List Token → Option (Qualified × List Token)
  | .ident table :: .dot :: .ident column :: rest => some (⟨table, column⟩, rest)
  | _ => none

def readItem (tokens : List Token) : Option ((Qualified × Option Text) × List Token) := do
  let (what, rest) ← readQualified tokens
  match rest with
  | .AS :: .ident label :: rest => some ((what, some label), rest)
  | rest => some ((what, none), rest)

def readTable (tokens : List Token) : Option ((Qualified × Option Text) × List Token) := do
  let (what, rest) ← readQualified tokens
  match rest with
  | .ident label :: rest => some ((what, some label), rest)
  | rest => some ((what, none), rest)

def readAtom : List Token → Option (Atom × List Token)
  | .criterion text :: rest => some (.criterion text, rest)
  | tokens => do
    let (left, rest) ← readQualified tokens
    match rest with
    | .operator kind :: rest =>
      let (right, rest) ← readQualified rest
      some (.compare left kind right, rest)
    | _ => none

def readOrder (tokens : List Token) : Option ((Qualified × Bool) × List Token) := do
  let (what, rest) ← readQualified tokens
  match rest with
  | .ASC :: rest => some ((what, true), rest)
  | .DESC :: rest => some ((what, false), rest)
  | _ => none

def readClause {α : Type} (word : Token) (read : List Token → Option (List α × List Token)) :
    List Token → Option (List α × List Token)
  | [] => some ([], [])
  | token :: rest => if token = word then read rest else some ([], token :: rest)

def readItems (fuel : ℕ) : List Token → Option (List (Qualified × Option Text) × List Token)
  | .star :: rest => some ([], rest)
  | tokens => sepBy readItem .comma fuel tokens

def readSelect (tokens : List Token) : Option Select := do
  let fuel := tokens.length
  let .SELECT :: rest := tokens | none
  let (items, rest) ← readItems fuel rest
  let .FROM :: rest := rest | none
  let (tables, rest) ← sepBy readTable .comma fuel rest
  let (condition, rest) ← readClause .WHERE (sepBy (sepBy readAtom .AND fuel) .OR fuel) rest
  let (order, rest) ← readClause .ORDER_BY (sepBy readOrder .comma fuel) rest
  if rest = [.semicolon] then some ⟨items, tables, condition, order⟩ else none

end Reading

section Written

def aliasOf (text : Text) : Option Text := if 0 < text.length then some text else none

def Projected.item (c : Projected) : Qualified × Option Text := (⟨c.parent.called, c.name⟩, aliasOf c.getAlias)

def gqbQueryObject.item (sel : gqbQueryObject) : Qualified × Option Text :=
    (⟨sel.schema, sel.name⟩, aliasOf sel.getAlias)

def Condition.atom : Condition → Atom
  | .join between => .compare ⟨between.sourceTable.called, between.sourceCol⟩ between.kindofJoin
      ⟨between.destTable.called, between.destCol⟩
  | .criterion r => .criterion (r.leftPart ++ " ".toList ++ r.restriction ++ " ".toList ++ r.value_s)

def Ordered.item (c : Ordered) : Qualified × Bool := (⟨c.parent.called, c.name⟩, c.ascending)

def looseLink : Option Connector → Bool
  | some .OR => true
  | _ => false

def gqbModel.select (m : gqbModel) : Select where
  items := m.columns.map Projected.item
  tables := m.tables.map gqbQueryObject.item
  condition := (groups looseLink m.conditions).map fun group => group.map Condition.atom
  order := m.ordered.map Ordered.item

def Qualified.tokens (what : Qualified) : List Token := [.ident what.table, .dot, .ident what.column]

def itemTokens (item : Qualified × Option Text) : List Token :=
  item.1.tokens ++ item.2.elim [] fun label => [.AS, .ident label]

def tableTokens (item : Qualified × Option Text) : List Token :=
  item.1.tokens ++ item.2.elim [] fun label => [.ident label]

def Atom.tokens : Atom → List Token
  | compare left kind right => left.tokens ++ .operator kind :: right.tokens
  | criterion text => [.criterion text]

def orderTokens (item : Qualified × Bool) : List Token := item.1.tokens ++ [if item.2 then .ASC else .DESC]

def groupTokens (group : List Atom) : List Token := [Token.AND].intercalate (group.map Atom.tokens)

def clauseTokens {α : Type} (word : Token) (separator : Token) (print : α → List Token) (items : List α) : List Token :=
  if items.isEmpty then [] else word :: [separator].intercalate (items.map print)

def Select.tokens (s : Select) : List Token :=
  .SELECT :: ((if s.items.isEmpty then [.star] else [Token.comma].intercalate (s.items.map itemTokens)) ++
    .FROM :: ([Token.comma].intercalate (s.tables.map tableTokens) ++
      (clauseTokens .WHERE .OR groupTokens s.condition ++
        (clauseTokens .ORDER_BY .comma orderTokens s.order ++ [.semicolon]))))

end Written

section Read

def NotNext (token : Token) (rest : List Token) : Prop := rest.head? ≠ some token

def NoIdent (rest : List Token) : Prop := ∀ name, NotNext (.ident name) rest

theorem qualifiedRead (what : Qualified) (rest : List Token) :
    readQualified (what.tokens ++ rest) = some (what, rest) := rfl

theorem itemRead (item : Qualified × Option Text) (rest : List Token) (stops : NotNext .AS rest) :
    readItem (itemTokens item ++ rest) = some (item, rest) := by
  obtain ⟨what, label | label⟩ := item
  · unfold readItem itemTokens
    simp only [Option.elim_none, List.append_nil]
    rw [qualifiedRead]
    simp only [Option.bind_eq_bind, Option.bind_some]
    split
    · exact absurd rfl stops
    · rfl
  · rfl

theorem tableRead (item : Qualified × Option Text) (rest : List Token) (stops : NoIdent rest) :
    readTable (tableTokens item ++ rest) = some (item, rest) := by
  obtain ⟨what, label | label⟩ := item
  · unfold readTable tableTokens
    simp only [Option.elim_none, List.append_nil]
    rw [qualifiedRead]
    simp only [Option.bind_eq_bind, Option.bind_some]
    split
    · exact absurd rfl (stops _)
    · rfl
  · rfl

theorem atomRead (atom : Atom) (rest : List Token) : readAtom (atom.tokens ++ rest) = some (atom, rest) := by
  cases atom <;> rfl

theorem orderRead (item : Qualified × Bool) (rest : List Token) :
    readOrder (orderTokens item ++ rest) = some (item, rest) := by
  obtain ⟨what, _ | _⟩ := item <;> rfl

theorem fewItems {α : Type} (print : α → List Token) (separator : Token) (items : List α)
    (filled : ∀ a ∈ items, print a ≠ []) :
    items.length ≤ ([separator].intercalate (items.map print)).length ∧
      ∀ a ∈ items, (print a).length ≤ ([separator].intercalate (items.map print)).length := by
  induction items with
  | nil => simp
  | cons a items ih =>
    have some_ := List.length_pos_iff.mpr (filled a List.mem_cons_self)
    cases items with
    | nil => simpa using Nat.succ_le_of_lt some_
    | cons next items =>
      have more := ih fun a mem => filled a (List.mem_cons_of_mem _ mem)
      simp only [List.map_cons, List.intercalate_cons_cons, List.length_append, List.length_cons] at more ⊢
      refine ⟨by omega, fun b mem => ?_⟩
      rcases List.mem_cons.mp mem with rfl | mem
      · omega
      · have := more.2 b mem
        omega

theorem clauseRead {α : Type} (word : Token) {separator : Token} {print : α → List Token} {items : List α}
    {read : List Token → Option (List α × List Token)} {rest : List Token}
    (reads : items ≠ [] → read ([separator].intercalate (items.map print) ++ rest) = some (items, rest))
    (stops : NotNext word rest) :
    readClause word read (clauseTokens word separator print items ++ rest) = some (items, rest) := by
  unfold clauseTokens
  cases items with
  | nil =>
    cases rest with
    | nil => rfl
    | cons token rest =>
      have differs : token ≠ word := fun same => stops (by rw [same]; rfl)
      simp [readClause, differs]
  | cons a items => simpa [readClause] using reads (List.cons_ne_nil a items)

theorem groupFew (group : List Atom) : group.length ≤ (groupTokens group).length :=
  (fewItems Atom.tokens .AND group fun atom _ => by cases atom <;> simp [Atom.tokens, Qualified.tokens]).1

theorem groupRead {group : List Atom} (filled : group ≠ []) {fuel : ℕ} (enough : group.length ≤ fuel)
    (rest : List Token) (stops : NotNext .AND rest) :
    sepBy readAtom .AND fuel (groupTokens group ++ rest) = some (group, rest) :=
  sepByPrinted (fun _ => True) (fun atom _ rest _ => atomRead atom rest) (fun _ => trivial) filled trivial stops
    enough

theorem itemsRead {items : List (Qualified × Option Text)} {fuel : ℕ} (enough : items.length ≤ fuel) (rest : List Token)
    (stops : NotNext .AS rest) (other : NotNext .comma rest) :
    readItems fuel ((if items.isEmpty then [.star] else [Token.comma].intercalate (items.map itemTokens)) ++ rest) =
      some (items, rest) := by
  cases items with
  | nil => rfl
  | cons item items =>
    have reads := sepByPrinted (NotNext .AS) (fun item _ rest stops => itemRead item rest stops)
      (fun rest => by simp [NotNext]) (List.cons_ne_nil item items) stops other enough
    rw [List.isEmpty_cons, if_neg Bool.false_ne_true, ← reads]
    unfold readItems
    split
    · rename_i rest' tokens
      cases items <;> simp [itemTokens, Qualified.tokens, List.intercalate_cons_cons] at tokens
    · rfl

theorem clauseLength {α : Type} (word separator : Token) (print : α → List Token) (items : List α)
    (filled : ∀ a ∈ items, print a ≠ []) : items.length ≤ (clauseTokens word separator print items).length ∧
      ∀ a ∈ items, (print a).length ≤ (clauseTokens word separator print items).length := by
  have few := fewItems print separator items filled
  unfold clauseTokens
  cases items with
  | nil => simp
  | cons a items =>
    rw [List.isEmpty_cons, if_neg Bool.false_ne_true, List.length_cons]
    exact ⟨few.1.trans (Nat.le_succ _), fun b mem => (few.2 b mem).trans (Nat.le_succ _)⟩

theorem groupFilledTokens {group : List Atom} (filled : group ≠ []) : groupTokens group ≠ [] := by
  have few := groupFew group
  exact List.ne_nil_of_length_pos ((List.length_pos_iff.mpr filled).trans_le few)

theorem clauseNotNext {α : Type} {token word : Token} (differs : word ≠ token) (separator : Token)
    (print : α → List Token) (items : List α) {rest : List Token} (stops : NotNext token rest) :
    NotNext token (clauseTokens word separator print items ++ rest) := by
  unfold clauseTokens
  cases items with
  | nil => exact stops
  | cons a items => exact fun same => differs (Option.some.inj same)

theorem tokensLength (s : Select) (filled : ∀ group ∈ s.condition, group ≠ []) :
    s.items.length ≤ s.tokens.length ∧ s.tables.length ≤ s.tokens.length ∧ s.condition.length ≤ s.tokens.length ∧
      (∀ group ∈ s.condition, group.length ≤ s.tokens.length) ∧ s.order.length ≤ s.tokens.length := by
  have columns := fewItems itemTokens .comma s.items fun item _ => by simp [itemTokens, Qualified.tokens]
  have froms := fewItems tableTokens .comma s.tables fun item _ => by simp [tableTokens, Qualified.tokens]
  have conditions := clauseLength .WHERE .OR groupTokens s.condition fun group mem =>
    groupFilledTokens (filled group mem)
  have orders := clauseLength .ORDER_BY .comma orderTokens s.order fun item _ => by simp [orderTokens]
  have items : s.items.length ≤
      (if s.items.isEmpty then [Token.star] else [Token.comma].intercalate (s.items.map itemTokens)).length := by
    split_ifs with empty
    · simp [List.isEmpty_iff.mp empty]
    · exact columns.1
  simp only [Select.tokens, List.length_cons, List.length_append]
  refine ⟨by omega, by omega, by omega, fun group mem => ?_, by omega⟩
  have few := (groupFew group).trans (conditions.2 group mem)
  omega

theorem selectRead (s : Select) (tables : s.tables ≠ []) (filled : ∀ group ∈ s.condition, group ≠ []) :
    readSelect s.tokens = some s := by
  obtain ⟨items_, tables_, condition_, groups_, order_⟩ := tokensLength s filled
  unfold readSelect
  generalize s.tokens.length = fuel at *
  have last (token : Token) (differs : Token.ORDER_BY ≠ token) (other : Token.semicolon ≠ token) :
      NotNext token (clauseTokens .ORDER_BY .comma orderTokens s.order ++ [.semicolon]) :=
    clauseNotNext differs _ _ _ fun same => other (Option.some.inj same)
  have behind (token : Token) (first : Token.WHERE ≠ token) (differs : Token.ORDER_BY ≠ token)
      (other : Token.semicolon ≠ token) : NotNext token (clauseTokens .WHERE .OR groupTokens s.condition ++
        (clauseTokens .ORDER_BY .comma orderTokens s.order ++ [.semicolon])) :=
    clauseNotNext first _ _ _ (last token differs other)
  have order : readClause .ORDER_BY (sepBy readOrder .comma fuel)
      (clauseTokens .ORDER_BY .comma orderTokens s.order ++ [.semicolon]) = some (s.order, [.semicolon]) :=
    clauseRead .ORDER_BY (fun nonempty => sepByPrinted (fun _ => True) (fun item _ rest _ => orderRead item rest)
      (fun _ => trivial) nonempty trivial (by simp) order_) (by simp [NotNext])
  have condition := clauseRead .WHERE (fun nonempty => sepByPrinted (NotNext .AND)
    (fun group mem rest stops => groupRead (filled group mem) (groups_ group mem) rest stops) (by simp [NotNext])
    nonempty (last .AND (by simp) (by simp)) (last .OR (by simp) (by simp)) condition_)
      (last .WHERE (by simp) (by simp))
  have froms := sepByPrinted NoIdent (fun item _ rest stops => tableRead item rest stops)
    (fun rest name => by simp [NotNext]) tables (fun name => behind (.ident name) (by simp) (by simp) (by simp))
    (behind .comma (by simp) (by simp) (by simp)) tables_
  have items := itemsRead items_ (.FROM :: ([Token.comma].intercalate (s.tables.map tableTokens) ++
      (clauseTokens .WHERE .OR groupTokens s.condition ++
        (clauseTokens .ORDER_BY .comma orderTokens s.order ++ [.semicolon])))) (by simp [NotNext]) (by simp [NotNext])
  rw [Select.tokens]
  simp only [Option.bind_eq_bind, items, Option.bind_some, froms, condition, order, if_true]

end Read

/- The sentence spells the tokens of its SELECT. -/
section Spelled
variable {qtIdent : Text → Text} {word last : Bool} {tokens : List Token} {text : Text}

def White (blank : Text) : Prop := ∀ c ∈ blank, c = ' ' ∨ c = '\n'

theorem spellsAs {other : Text} (spells : Spells qtIdent word tokens text last) (same : text = other) :
    Spells qtIdent word tokens other last := same ▸ spells

theorem spellsAppend {middle : Bool} {more : List Token} {rest : Text} (first : Spells qtIdent word tokens text middle)
    (second : Spells qtIdent middle more rest last) : Spells qtIdent word (tokens ++ more) (text ++ rest) last := by
  induction first with
  | nil word => exact second
  | cons token blank white apart _ ih =>
    exact spellsAs (.cons token blank white apart (ih second)) (by simp only [List.append_assoc])

theorem spellsBlank (before : Bool) {blank : Text} (white : White blank) (filled : tokens ≠ []) (some_ : blank ≠ [])
    (spells : Spells qtIdent word tokens text last) : Spells qtIdent before tokens (blank ++ text) last := by
  cases spells with
  | nil word => exact absurd rfl filled
  | cons token blank' white' apart rest =>
    refine spellsAs (.cons token (blank ++ blank') (fun c mem => ?_) (fun _ _ => ?_) rest)
      (by simp only [List.append_assoc])
    · exact (List.mem_append.mp mem).elim (white c) (white' c)
    · exact List.append_ne_nil_of_left_ne_nil some_ _

theorem spellsOne (token : Token) {blank : Text} (white : White blank) (some_ : blank ≠ []) :
    Spells qtIdent word [token] (blank ++ token.text qtIdent) token.isWord :=
  spellsAs (.cons token blank white (fun _ _ => some_) (.nil _)) (List.append_nil _)

theorem spellsMark (token : Token) (mark : token.isWord = false) :
    Spells qtIdent word [token] (token.text qtIdent) false :=
  mark ▸ spellsAs (.cons token [] (by simp) (by simp [mark]) (.nil _)) (by simp)

theorem spellsName (name : Text) : Spells qtIdent false [.ident name] (qtIdent name) true :=
  spellsAs (.cons (.ident name) [] (by simp) (by simp) (.nil true)) (List.append_nil _)

theorem whiteBlank : White " ".toList := by simp [White]

theorem whiteBlanks : White "  ".toList := by simp [White]

theorem spellsDotted (what : Qualified) : Spells qtIdent false what.tokens
    (qtIdent what.table ++ ".".toList ++ qtIdent what.column) true :=
  spellsAppend (spellsAppend (spellsName what.table) (spellsMark .dot rfl)) (spellsName what.column)

theorem spellsQualified (what : Qualified) : Spells qtIdent word what.tokens
    ("  ".toList ++ qtIdent what.table ++ ".".toList ++ qtIdent what.column) true :=
  spellsAs (spellsBlank word whiteBlanks (by simp [Qualified.tokens]) (by simp) (spellsDotted what))
    (by simp only [List.append_assoc])

theorem columnSpells (c : Projected) : Spells qtIdent word (itemTokens c.item) (columnText qtIdent c) true := by
  refine spellsAppend (spellsQualified c.item.1) ?_
  unfold Projected.item aliasOf
  split_ifs
  · exact spellsAs (spellsAppend (spellsOne .AS whiteBlank (by simp))
      (spellsOne (.ident c.getAlias) whiteBlank (by simp))) rfl
  · exact .nil true

theorem tableSpells (sel : gqbQueryObject) : Spells qtIdent word (tableTokens sel.item) (tableText qtIdent sel) true :=
    by
  refine spellsAppend (spellsQualified sel.item.1) ?_
  unfold gqbQueryObject.item aliasOf
  split_ifs
  · exact spellsOne (.ident sel.getAlias) whiteBlank (by simp)
  · exact .nil true

theorem orderSpells (c : Ordered) : Spells qtIdent word (orderTokens c.item) (orderText qtIdent c) true := by
  refine spellsAppend (spellsQualified c.item.1) ?_
  unfold Ordered.item
  rcases c.ascending
  · exact spellsOne .DESC whiteBlank (by simp)
  · exact spellsOne .ASC whiteBlank (by simp)

theorem operatorSpells (kind : type_Join) : Spells qtIdent true [.operator kind]
    (" ".toList ++ operatorMark kind) false :=
  spellsOne (.operator kind) whiteBlank (by simp)

theorem operatorTextMark (kind : type_Join) : operatorText kind = " ".toList ++ operatorMark kind ++ " ".toList := by
  cases kind <;> rfl

theorem conditionSpells (condition : Condition) :
    Spells qtIdent word condition.atom.tokens (conditionText qtIdent condition) true := by
  cases condition with
  | join between =>
    refine spellsAs (spellsAppend (spellsQualified ⟨between.sourceTable.called, between.sourceCol⟩)
      (spellsAppend (operatorSpells between.kindofJoin) (spellsBlank false whiteBlank (List.cons_ne_nil _ _) (by simp)
        (spellsDotted ⟨between.destTable.called, between.destCol⟩)))) ?_
    rw [conditionText]
    delta joinText
    simp only [operatorTextMark, List.append_assoc]
  | criterion r =>
    refine spellsAs (spellsOne (.criterion _) whiteBlanks (by simp)) ?_
    rw [conditionText]
    delta restrictionText
    simp only [List.append_assoc]
    rfl

structure Separates (qtIdent : Text → Text) (token : Token) (text : Text) : Prop where
  parts : ∃ before after, text = before ++ token.text qtIdent ++ after ∧ White before ∧ White after ∧ after ≠ [] ∧
    (token.isWord = true → before ≠ [])

theorem linkedFilled {α β : Type} {print : α → List Token} (filled : ∀ a, print a ≠ []) (separator : β → List Token)
    {items : List (α × β)} (nonempty : items ≠ []) : linked print separator items ≠ [] := by
  match items with
  | [] => exact absurd rfl nonempty
  | [(a, _)] => exact filled a
  | (a, _) :: next :: rest => simp [linked, filled]

theorem linkedSpells (word : Bool) {α β : Type} {print : α → List Token} {write : α → Text} {mark : β → Token}
    {between : β → Text}
    (filled : ∀ a, print a ≠ []) (spells : ∀ a word, Spells qtIdent word (print a) (write a) true)
    (separates : ∀ b, Separates qtIdent (mark b) (between b)) {items : List (α × β)} (nonempty : items ≠ []) :
    Spells qtIdent word (linked print (fun b => [mark b]) items) (linked write between items) true := by
  induction items generalizing word with
  | nil => exact absurd rfl nonempty
  | cons item items ih =>
    obtain ⟨a, b⟩ := item
    cases items with
    | nil => exact spells a word
    | cons next rest =>
      obtain ⟨before, after, shape, white, white', some_, apart⟩ := (separates b).parts
      have more := ih false (List.cons_ne_nil next rest)
      have some' := linkedFilled filled (fun b => [mark b]) (List.cons_ne_nil next rest)
      refine spellsAs (spellsAppend (spellsAppend (spells a word) (.cons _ before white (fun _ => apart) (.nil _)))
        (spellsBlank _ white' some' some_ more)) ?_
      rw [linked, shape]
      simp only [List.append_assoc, List.append_nil]

theorem listSpells (qtIdent : Text → Text) (word : Bool) {α : Type} {print : α → List Token} {write : α → Text}
    (filled : ∀ a, print a ≠ [])
    (spells : ∀ a word, Spells qtIdent word (print a) (write a) true) {items : List α} (nonempty : items ≠ []) :
    Spells qtIdent word ([Token.comma].intercalate (items.map print)) ((", \n".toList).intercalate (items.map write))
      true := by
  rw [← linkedAlike, ← linkedAlike]
  have comma : Separates qtIdent .comma ", \n".toList :=
    ⟨[], " \n".toList, rfl, by simp [White], by simp [White], by simp, by simp [Token.isWord]⟩
  exact linkedSpells word filled spells (fun _ => comma) (by simpa using nonempty)

def linkMark (connector : Option Connector) : Token := if looseLink connector then .OR else .AND

theorem linkSeparates (connector : Option Connector) : Separates qtIdent (linkMark connector) (linkText connector) := by
  rcases connector with _ | _ | _
  · exact ⟨" ".toList, "\n".toList, rfl, whiteBlank, by simp [White], by simp, by simp⟩
  · exact ⟨" ".toList, " \n".toList, rfl, whiteBlank, by simp [White], by simp, by simp⟩
  · exact ⟨" ".toList, " \n".toList, rfl, whiteBlank, by simp [White], by simp, by simp⟩

theorem groupedTokens (m : gqbModel) :
    [Token.OR].intercalate ((groups looseLink m.conditions).map fun group => groupTokens (group.map Condition.atom)) =
      linked (fun condition => condition.atom.tokens) (fun connector => [linkMark connector]) m.conditions := by
  have marks (connector : Option Connector) :
      [linkMark connector] = if looseLink connector then [Token.OR] else [Token.AND] := by
    unfold linkMark
    split_ifs <;> rfl
  rw [linkedGroups looseLink _ _ marks]
  simp [groupTokens, Function.comp_def]

theorem conditionFilled (condition : Condition) : condition.atom.tokens ≠ [] := by
  cases condition <;> simp [Condition.atom, Atom.tokens]

theorem conditionsSpell (qtIdent : Text → Text) (word : Bool) {m : gqbModel} (nonempty : m.conditions ≠ []) :
    Spells qtIdent word
    ([Token.OR].intercalate ((groups looseLink m.conditions).map fun group => groupTokens (group.map Condition.atom)))
    (linked (conditionText qtIdent) linkText m.conditions) true := by
  rw [groupedTokens]
  exact linkedSpells word conditionFilled (fun condition _ => conditionSpells condition) linkSeparates nonempty

theorem listFilled {α : Type} {print : α → List Token} (filled : ∀ a, print a ≠ []) {separator : Token}
    {items : List α} (nonempty : items ≠ []) : [separator].intercalate (items.map print) ≠ [] :=
  List.ne_nil_of_length_pos ((List.length_pos_iff.mpr nonempty).trans_le
    (fewItems print separator items fun a _ => filled a).1)

theorem projectionSpells (m : gqbModel) : Spells qtIdent true
    ((if m.select.items.isEmpty then [.star] else [Token.comma].intercalate (m.select.items.map itemTokens)) ++ [.FROM])
    (" \n".toList ++ (if m.columns = [] then "  * \n".toList
      else (", \n".toList).intercalate (m.columns.map (columnText qtIdent)) ++ "\n".toList) ++ "FROM".toList) true := by
  have white : White " \n".toList := by simp [White]
  have items : m.select.items.map itemTokens = m.columns.map fun c => itemTokens c.item := by
    simp [gqbModel.select, Function.comp_def]
  have some_ : m.select.items.isEmpty = m.columns.isEmpty := by simp [gqbModel.select]
  rw [items, some_]
  by_cases empty : m.columns = []
  · rw [empty]
    exact spellsAs (spellsAppend (spellsOne .star (by simp [White] : White " \n  ".toList) (by simp))
      (spellsOne .FROM white (by simp))) rfl
  · have filled (c : Projected) : itemTokens c.item ≠ [] := by simp [itemTokens, Qualified.tokens]
    have list := listSpells qtIdent false filled (fun c _ => columnSpells c) empty
    have more := spellsBlank true white (listFilled filled empty) (by simp) list
    rw [if_neg empty, if_neg (by simpa using empty)]
    refine spellsAs (spellsAppend more (spellsOne .FROM (by simp [White] : White "\n".toList)
      (by simp))) ?_
    simp only [List.append_assoc]
    rfl

theorem clauseSpells {α β : Type} {token separator : Token} {print : α → List Token} {items : List α} {source : List β}
    (same : items = [] ↔ source = []) {after body : Text} (white : White after) (some_ : after ≠ [])
    (spells : source ≠ [] → Spells qtIdent false ([separator].intercalate (items.map print)) body true)
    (filled : source ≠ [] → [separator].intercalate (items.map print) ≠ []) :
    Spells qtIdent true (clauseTokens token separator print items)
      (if source = [] then [] else "\n".toList ++ token.text qtIdent ++ (after ++ body)) true := by
  unfold clauseTokens
  by_cases empty : source = []
  · rw [if_pos empty, if_pos (by simpa using same.mpr empty)]
    exact .nil true
  · rw [if_neg empty, if_neg (by simpa using mt same.mp empty)]
    exact .cons token "\n".toList (by simp) (by simp) (spellsBlank _ white (filled empty) some_ (spells empty))

theorem sentenceSpells {m : gqbModel} (tables : m.tables ≠ []) :
    Spells qtIdent false m.select.tokens (generateSQL qtIdent m) false := by
  have table (sel : gqbQueryObject) : tableTokens sel.item ≠ [] := by simp [tableTokens, Qualified.tokens]
  have order (c : Ordered) : orderTokens c.item ≠ [] := by simp [orderTokens]
  have column (c : Projected) : itemTokens c.item ≠ [] := by simp [itemTokens, Qualified.tokens]
  have nonempty : 0 < m.tables.length := List.length_pos_iff.mpr tables
  have froms := spellsBlank true (by simp [White] : White " \n".toList) (listFilled table tables)
    (by simp)
    (listSpells qtIdent false table (fun sel _ => tableSpells sel) tables)
  have condition : Spells qtIdent true (clauseTokens .WHERE .OR groupTokens m.select.condition)
      (if m.conditions = [] then [] else "\nWHERE".toList ++
        (" \n".toList ++ linked (conditionText qtIdent) linkText m.conditions)) true := by
    refine clauseSpells ⟨fun none_ => ?_, fun none_ => ?_⟩ (by simp [White]) (by simp) (fun some_ => ?_) fun some_ => ?_
    · by_contra some_
      exact groupsNonempty looseLink some_ (by simpa [gqbModel.select] using none_)
    · simp [gqbModel.select, none_, groups]
    · simpa [gqbModel.select, Function.comp_def] using conditionsSpell qtIdent false some_
    · have filled := linkedFilled conditionFilled (fun link => [linkMark link]) some_
      rw [← groupedTokens] at filled
      simpa [gqbModel.select, Function.comp_def] using filled
  have ordering : Spells qtIdent true (clauseTokens .ORDER_BY .comma orderTokens m.select.order)
      (if m.ordered = [] then [] else "\nORDER BY".toList ++
        ("\n".toList ++ (", \n".toList).intercalate (m.ordered.map (orderText qtIdent)))) true := by
    refine clauseSpells ?_ (by simp [White]) (by simp) (fun some_ => ?_) fun some_ => ?_
    · simp [gqbModel.select]
    · simpa [gqbModel.select, Function.comp_def] using
        listSpells qtIdent false order (fun c _ => orderSpells c) some_
    · simpa [gqbModel.select, Function.comp_def] using listFilled order some_
  rw [generateSQL, if_pos nonempty, orderPartText, whereText, fromText m tables, projectionText]
  have all := spellsAppend (spellsAppend (spellsAppend (projectionSpells m) froms) condition) ordering
  have tokens : m.select.tables.map tableTokens = m.tables.map fun sel => tableTokens sel.item := by
    simp [gqbModel.select, Function.comp_def]
  have whole : Spells qtIdent false _ _ false :=
    .cons .SELECT [] (by simp) (by simp) (spellsAppend all (spellsMark .semicolon rfl))
  simp only [List.append_assoc, List.singleton_append, ← tokens] at whole
  refine spellsAs whole ?_
  simp only [List.append_assoc]
  rfl

end Spelled

/- AND binds closer than OR, so the joins stand with the criteria up to the first OR. -/
section Meaning

/- Whether a row gets through, by what is true of it. -/
def Select.Selects (s : Select) (truth : Atom → Prop) : Prop :=
  s.condition = [] ∨ ∃ group ∈ s.condition, ∀ atom ∈ group, truth atom

def gqbQueryRestriction.condition (r : gqbQueryRestriction) : Condition × Option Connector :=
  (.criterion r, some r.connector)

def gqbModel.Wants (m : gqbModel) (truth : Atom → Prop) : Prop :=
  (∀ join ∈ m.joins, truth (Condition.join join).atom) ∧ (m.restrictions = [] ∨
    ∃ group ∈ groups looseLink (m.restrictions.map gqbQueryRestriction.condition),
      ∀ condition ∈ group, truth condition.atom)

def isCriterion : Atom → Prop
  | .compare .. => False
  | .criterion _ => True

variable {m : gqbModel} {truth : Atom → Prop}

theorem selectsGroups : m.select.Selects truth ↔ m.conditions = [] ∨
    ∃ group ∈ groups looseLink m.conditions, ∀ condition ∈ group, truth condition.atom := by
  have none_ : groups looseLink m.conditions = [] ↔ m.conditions = [] :=
    ⟨fun none_ => by_contra fun some_ => groupsNonempty looseLink some_ none_, fun none_ => by rw [none_]; rfl⟩
  simp [Select.Selects, gqbModel.select, none_]

theorem groupsJoined (some_ : m.restrictions ≠ []) : ∃ first more,
    groups looseLink (m.restrictions.map gqbQueryRestriction.condition) = first :: more ∧
      groups looseLink m.conditions = (m.joins.map Condition.join ++ first) :: more := by
  have strong : ∀ item ∈ m.joins.map fun join => (Condition.join join, (none : Option Connector)),
      looseLink item.2 = false := by
    rintro item mem
    obtain ⟨join, -, rfl⟩ := List.mem_map.mp mem
    rfl
  obtain ⟨first, more, alone, joined⟩ := groupsBefore looseLink _ strong
    (by simpa using some_ : m.restrictions.map gqbQueryRestriction.condition ≠ [])
  refine ⟨first, more, alone, ?_⟩
  have same : (m.joins.map fun join => (Condition.join join, (none : Option Connector))).map Prod.fst =
      m.joins.map Condition.join := by simp
  rw [← same]
  exact joined

theorem selectsJoins (none_ : m.restrictions = []) : m.select.Selects truth ↔ m.Wants truth := by
  have shape : m.conditions = m.joins.map fun join => (Condition.join join, none) := by simp
    [gqbModel.conditions, none_]
  rw [selectsGroups, shape, gqbModel.Wants]
  rcases List.eq_nil_or_concat m.joins with single | ⟨front, last, many⟩
  · simp [single, none_]
  · have filled : m.joins ≠ [] := by simp [many]
    rw [groupsStrong looseLink (by simp [looseLink]) (by simpa using filled)]
    simp [filled, none_]

theorem wantsSelects (wants : m.Wants truth) : m.select.Selects truth := by
  by_cases none_ : m.restrictions = []
  · exact (selectsJoins none_).mpr wants
  · obtain ⟨first, more, alone, joined⟩ := groupsJoined none_
    obtain ⟨joins, criteria⟩ := wants
    obtain ⟨group, mem, all⟩ := criteria.resolve_left none_
    rw [selectsGroups, joined]
    rw [alone] at mem
    rcases List.mem_cons.mp mem with rfl | mem
    · refine .inr ⟨_, List.mem_cons_self, fun condition mem => ?_⟩
      rcases List.mem_append.mp mem with mem | mem
      · obtain ⟨join, inside, rfl⟩ := List.mem_map.mp mem
        exact joins join inside
      · exact all condition mem
    · exact .inr ⟨group, List.mem_cons_of_mem _ mem, all⟩

theorem groupsSingle {items : List (Condition × Option Connector)} (some_ : items ≠ []) :
    (groups looseLink items).length = 1 ↔ ∀ item ∈ items.dropLast, looseLink item.2 = false := by
  induction items using groups.induct looseLink with
  | case1 => exact absurd rfl some_
  | case2 a separator => simp [groups]
  | case3 a separator next rest is ih =>
    have more := groupsNonempty looseLink (List.cons_ne_nil next rest)
    simp [groups, is, more]
  | case4 a separator next rest not empty ih =>
    exact absurd empty (groupsNonempty looseLink (List.cons_ne_nil next rest))
  | case5 a separator next rest not first more here ih =>
    have before := ih (List.cons_ne_nil next rest)
    rw [here] at before
    have close : looseLink separator = false := by simpa using not
    rw [groups, if_neg not, here, List.dropLast_cons_cons, List.forall_mem_cons]
    simpa [close] using before

theorem looseOr (r : gqbQueryRestriction) : looseLink r.condition.2 = false ↔ r.connector = .AND := by
  cases connector : r.connector <;> simp [gqbQueryRestriction.condition, looseLink, connector]

theorem selectsUnjoined {join : gqbQueryJoin} (joins : join ∈ m.joins) {first second : List Condition}
    {more : List (List Condition)}
    (alone : groups looseLink (m.restrictions.map gqbQueryRestriction.condition) = first :: second :: more)
    (joined : groups looseLink m.conditions = (m.joins.map Condition.join ++ first) :: second :: more) :
    m.select.Selects isCriterion ∧ ¬ m.Wants isCriterion := by
  refine ⟨selectsGroups.mpr (.inr ⟨second, by simp [joined], fun condition mem => ?_⟩), fun wants => wants.1 join joins⟩
  have inside : condition ∈ (groups looseLink (m.restrictions.map gqbQueryRestriction.condition)).flatten :=
    List.mem_flatten.mpr ⟨second, by simp [alone], mem⟩
  rw [groupsFlatten] at inside
  simp only [List.map_map, List.mem_map, Function.comp_apply] at inside
  obtain ⟨r, -, rfl⟩ := inside
  trivial

theorem selectsWanted : (∀ truth, m.select.Selects truth → m.Wants truth) ↔
    m.joins = [] ∨ ∀ r ∈ m.restrictions.dropLast, r.connector = .AND := by
  by_cases none_ : m.restrictions = []
  · simp only [none_, List.dropLast_nil, List.not_mem_nil, false_implies, implies_true, or_true, iff_true]
    exact fun truth selects => (selectsJoins none_).mp selects
  · have some_ : m.restrictions.map gqbQueryRestriction.condition ≠ [] := by simpa using none_
    have single := groupsSingle some_
    rw [← List.map_dropLast, List.forall_mem_map] at single
    simp only [looseOr] at single
    obtain ⟨first, more, alone, joined⟩ := groupsJoined none_
    rw [← single, alone, List.length_cons]
    cases more with
    | nil =>
      simp only [List.length_nil, Nat.zero_add, or_true, iff_true]
      intro truth selects
      rw [selectsGroups, joined] at selects
      obtain ⟨group, mem, all⟩ := selects.resolve_left (by
        simp only [gqbModel.conditions, List.append_eq_nil_iff, List.map_eq_nil_iff, none_, and_false, not_false_iff])
      rw [List.mem_singleton] at mem
      subst mem
      refine ⟨fun join joins => all _ (List.mem_append_left _ (List.mem_map_of_mem joins)), .inr ⟨first, ?_, ?_⟩⟩
      · simp [alone]
      · exact fun condition mem => all condition (List.mem_append_right _ mem)
    | cons second more =>
      simp only [List.length_cons, Nat.add_eq_right, Nat.add_eq_zero_iff, Nat.one_ne_zero, and_false, or_false]
      refine ⟨fun selected => ?_, fun none_ truth selects => ?_⟩
      · by_contra some_
        obtain ⟨join, joins⟩ := List.exists_mem_of_ne_nil _ some_
        obtain ⟨selects, not⟩ := selectsUnjoined joins alone joined
        exact not (selected _ selects)
      · rw [selectsGroups, joined, none_] at selects
        refine ⟨by simp [none_], .inr ?_⟩
        rw [alone]
        exact selects.resolve_left (by
          simp only [gqbModel.conditions, List.append_eq_nil_iff, List.map_eq_nil_iff, *, and_false, not_false_iff])

theorem generateSQLRead (qtIdent : Text → Text) (m : gqbModel) :
    (m.tables = [] → generateSQL qtIdent m = []) ∧
    (m.tables ≠ [] → Spells qtIdent false m.select.tokens (generateSQL qtIdent m) false ∧
      readSelect m.select.tokens = some m.select) ∧
    (∀ truth, m.Wants truth → m.select.Selects truth) ∧
    ((∀ truth, m.select.Selects truth → m.Wants truth) ↔
      m.joins = [] ∨ ∀ r ∈ m.restrictions.dropLast, r.connector = .AND) := by
  refine ⟨fun none_ => by simp [generateSQL, none_], fun some_ => ⟨sentenceSpells some_, selectRead _ ?_ ?_⟩,
    fun truth => wantsSelects, selectsWanted⟩
  · simpa [gqbModel.select] using some_
  · intro group mem
    obtain ⟨inner, inside, rfl⟩ := List.mem_map.mp mem
    simpa using groupFilled looseLink _ inner inside

end Meaning

end PgAdmin.gqbController
