import PgAdmin.CompositeTurns

/-! What the statements for the members of a composite type make of its attributes. -/
namespace PgAdmin.dlgType
open PgsObjects (Text)
open RecordEdits

variable {Ty : Type}

section Server
variable (server : Server Ty)

def Server.collated (t : Ty) (collation : Option Text) : Option (Ty × Text) :=
  (server.collation t collation).map fun c => (t, c)

def Server.meaning (type : FullType) : Option (Ty × Text) :=
  (server.type type.typname type.limits).bind fun t => server.collated t type.collation

def Server.edit : Statement → Option (Edit Text (Ty × Text))
  | .rename name new => some (.rename name new)
  | .setType name type => (server.meaning type).map (.set name)
  | .drop name => some (.drop name)
  | .add name type => (server.meaning type).map (.add name)

def Server.run (stmts : List Statement) (attrs : List (Attribute Ty)) : Option (List (Attribute Ty)) :=
  stmts.foldlM (fun attrs s => (server.edit s).bind (·.execute attrs)) attrs

def Statement.names : Statement → List Text
  | .rename name new => [name, new]
  | .setType name _ | .drop name | .add name _ => [name]

def Server.listed (r : Row) : Option (Ty × Text) :=
  (server.shown r.type).bind fun t => server.collated t (if r.collation = [] then none else some r.collation)

def Same (old : Attribute Ty) (r : Row) : Prop :=
  r.type = server.display old.value.1 ∧ r.collation = old.value.2

instance (old : Attribute Ty) (r : Row) : Decidable (Same server old r) := inferInstanceAs (Decidable (_ ∧ _))

def wanted (attrs : List (Attribute Ty)) (r : Row) : Option (Ty × Text) :=
  match attrs.find? fun old => decide (r.original = old.name ∧ Same server old r) with
  | some old => some old.value
  | none => server.listed r

def Stands (attrs : List (Attribute Ty)) (a : Attribute Ty) (r : Row) : Prop :=
  a.name = r.name ∧ wanted server attrs r = some a.value

def Unchanged (attrs : List (Attribute Ty)) (r : Row) : Prop :=
  ∃ old ∈ attrs, r.original = old.name ∧ r.name = old.name ∧ Same server old r

/- A new member: its name is free. The name of the type kept for it, with the length and the precision, is that of
the type the list shows, which has the collation. The default collation is that of the type. -/
structure AddFits (taken : List Text) (r : Row) : Prop where
  free : r.name ∉ taken
  shown : ∃ v, server.listed r = some v ∧ server.type r.base (limits r.length r.precision) = some v.1 ∧
    (r.collation = defaultCollation → server.collation v.1 none = some v.2)

/- The list shows another type or collation for a member, and its arrays have other entries. The name of the type
alone is that of the type the list shows, so that no length is lost. A new collation is not the empty one, and the
old one is that of the type. -/
structure Rewritten (old : Attribute Ty) (r : Row) (v : Ty × Text) : Prop where
  shown : server.listed r = some v
  type : server.type r.base [] = some v.1
  new : r.collation ≠ old.value.2 → r.collation ≠ []
  kept : r.collation = old.value.2 → server.collation v.1 none = some v.2

def told (old : Attribute Ty) (r : Row) : Option (Ty × Text) :=
  if Altered server old r then server.meaning (dataType r.base r.collation old.value.2) else some old.value

/- A member of the type: its new name is free. If the list shows the old type and collation, the name of the type
kept for it is the whole text of the old type, or the member has another name and the name of the type alone is that
of the old type with its own collation. If the arrays have the old entries, the list shows the old type in other
words. -/
structure KeepFits (taken : List Text) (old : Attribute Ty) (r : Row) : Prop where
  free : r.name = old.name ∨ r.name ∉ taken
  same : Same server old r → r.base = server.display old.value.1 ∨
    r.name ≠ old.name ∧ server.type r.base [] = some old.value.1 ∧
      server.collation old.value.1 none = some old.value.2
  unaltered : ¬ Same server old r → ¬ Altered server old r → server.listed r = some old.value
  altered : ¬ Same server old r → Altered server old r → ∃ v, Rewritten server old r v

def Turn.Fits (taken : List Text) : Turn Ty → Prop
  | .drop _ => True
  | .keep old r => KeepFits server taken old r
  | .replace _ r | .append r => AddFits server taken r

def oldsOf (ts : List (Turn Ty)) : List (Attribute Ty) := ts.filterMap Turn.old?

def AllFit : List Text → List (Turn Ty) → Prop
  | _, [] => True
  | taken, t :: ts =>
    t.Fits server (taken ++ names (oldsOf ts)) ∧ AllFit (taken ++ t.row?.toList.map Row.name) ts

local instance attributeLawful : LawfulBEq Text := inferInstance

def Turn.leaves (taken : List Text) : Turn Ty → Option (List (Attribute Ty))
  | .drop _ => some []
  | .keep old r =>
    if r.name = old.name ∨ r.name ∉ taken then (told server old r).map fun v => [⟨r.name, v⟩] else none
  | .replace _ r | .append r =>
    if r.name ∉ taken then (server.meaning r.full).map fun v => [⟨r.name, v⟩] else none

def leftBy : List Text → List (Turn Ty) → Option (List (Attribute Ty))
  | _, [] => some []
  | taken, t :: ts => do
    let new ← t.leaves server (taken ++ names (oldsOf ts))
    let rest ← leftBy (taken ++ names new) ts
    some (new ++ rest)

def Turn.keeps : Turn Ty → Bool
  | .keep .. => true
  | _ => false

end Server

section Run
variable {server : Server Ty} {done rest added : List (Attribute Ty)} {old : Attribute Ty} {r : Row}

theorem collatedSome {type : Option Ty} {collation : Option Text} {v : Ty × Text} :
    (type.bind fun t => server.collated t collation) = some v ↔
      type = some v.1 ∧ server.collation v.1 collation = some v.2 := by
  obtain ⟨t, c⟩ := v
  simp [Server.collated, Option.bind_eq_some_iff, and_comm]

theorem meaningSome {type : FullType} {v : Ty × Text} :
    server.meaning type = some v ↔
      server.type type.typname type.limits = some v.1 ∧ server.collation v.1 type.collation = some v.2 :=
  collatedSome

theorem runAppend (stmts more : List Statement) (attrs : List (Attribute Ty)) :
    server.run (stmts ++ more) attrs = (server.run stmts attrs).bind (server.run more) :=
  List.foldlM_append

theorem runOne (s : Statement) (attrs : List (Attribute Ty)) :
    server.run [s] attrs = (server.edit s).bind (·.execute attrs) := by
  rw [Server.run, List.foldlM_cons]
  exact bind_pure _

theorem runKeep (distinct : (names (done ++ old :: rest)).Nodup) :
    server.run ((Turn.keep old r).statements server) (done ++ old :: rest) =
      ((Turn.keep old r).leaves server (names (done ++ rest))).map fun new => done ++ (new ++ rest) := by
  have set : ∀ new : Attribute Ty, (names (done ++ new :: rest)).Nodup → new.name = r.name →
      new.value = old.value → server.run (if Altered server old r then
        [.setType r.name (dataType r.base r.collation old.value.2)] else []) (done ++ new :: rest) =
      (told server old r).map fun v => done ++ ([⟨r.name, v⟩] ++ rest) := by
    intro new distinct name value
    rw [told]
    split_ifs
    · rw [runOne, Server.edit, Option.bind_map, Option.map_eq_bind]
      congr 1
      funext v
      exact name ▸ setAt distinct v
    · obtain ⟨_, _⟩ := new
      cases name
      cases value
      rfl
  rw [Turn.statements, runAppend, Turn.leaves]
  by_cases same : r.name = old.name
  · have clear : r.name = old.name ∨ r.name ∉ names (done ++ rest) := .inl same
    rw [if_neg (not_not.mpr same), if_pos clear, Option.map_map]
    exact set old distinct same.symm rfl
  · rw [if_pos same, runOne, Server.edit, Option.bind_some, renameAt distinct]
    have taken : r.name ∉ names (done ++ old :: rest) ↔ r.name = old.name ∨ r.name ∉ names (done ++ rest) := by
      simp [same]
    by_cases free : r.name ∉ names (done ++ old :: rest)
    · rw [if_pos free, if_pos (taken.mp free), Option.bind_some, Option.map_map]
      have next : (names (done ++ (⟨r.name, old.value⟩ : Attribute Ty) :: rest)).Nodup :=
        nodupRenamed distinct (taken.mp free)
      exact set _ next rfl rfl
    · rw [if_neg free, if_neg fun clear => free (taken.mpr clear)]
      rfl

theorem runAdd (r : Row) (attrs : List (Attribute Ty)) :
    server.run [.add r.name r.full] attrs =
      ((Turn.append r).leaves server (names attrs)).map fun new => attrs ++ new := by
  rw [runOne, Server.edit, Option.bind_map, Turn.leaves]
  cases server.meaning r.full with
  | none => split_ifs <;> rfl
  | some v =>
    show (Edit.add r.name v).execute attrs = _
    rw [Edit.execute]
    split_ifs <;> rfl

theorem runDrop (distinct : (names (done ++ old :: rest)).Nodup) :
    server.run [.drop old.name] (done ++ old :: rest) = some (done ++ rest) := by
  rw [runOne]
  exact dropAt distinct

theorem leavesNames {t : Turn Ty} {taken : List Text} {new : List (Attribute Ty)}
    (leaves : t.leaves server taken = some new) : names new = t.row?.toList.map Row.name ∧
      (t.keeps = false → ∀ name ∈ names new, name ∉ taken) := by
  cases t with
  | drop old =>
    cases leaves
    exact ⟨rfl, fun _ _ member => absurd member List.not_mem_nil⟩
  | keep old r =>
    rw [Turn.leaves] at leaves
    split_ifs at leaves
    obtain ⟨v, -, rfl⟩ := Option.map_eq_some_iff.mp leaves
    exact ⟨rfl, fun never => absurd never Bool.noConfusion⟩
  | replace old r =>
    rw [Turn.leaves] at leaves
    split_ifs at leaves with free
    obtain ⟨v, -, rfl⟩ := Option.map_eq_some_iff.mp leaves
    exact ⟨rfl, fun _ name member => List.mem_singleton.mp member ▸ free⟩
  | append r =>
    rw [Turn.leaves] at leaves
    split_ifs at leaves with free
    obtain ⟨v, -, rfl⟩ := Option.map_eq_some_iff.mp leaves
    exact ⟨rfl, fun _ name member => List.mem_singleton.mp member ▸ free⟩

theorem leavesDistinct {t : Turn Ty} {new : List (Attribute Ty)}
    (distinct : (names (done ++ (t.old?.toList ++ rest))).Nodup)
    (leaves : t.leaves server (names (done ++ rest)) = some new) : (names (done ++ (new ++ rest))).Nodup := by
  have fresh : ∀ {r : Row} {v : Ty × Text}, (names (done ++ rest)).Nodup → r.name ∉ names (done ++ rest) →
      (names (done ++ ((⟨r.name, v⟩ : Attribute Ty) :: rest))).Nodup := fun {r v} nodup free => by
    rw [names_append, names_cons, List.nodup_middle, ← names_append]
    exact List.nodup_cons.mpr ⟨free, nodup⟩
  cases t with
  | drop old =>
    cases leaves
    exact nodupDropped distinct
  | keep old r =>
    rw [Turn.leaves] at leaves
    split_ifs at leaves with free
    obtain ⟨v, -, rfl⟩ := Option.map_eq_some_iff.mp leaves
    exact nodupRenamed distinct free
  | replace old r =>
    rw [Turn.leaves] at leaves
    split_ifs at leaves with free
    obtain ⟨v, -, rfl⟩ := Option.map_eq_some_iff.mp leaves
    exact fresh (nodupDropped distinct) free
  | append r =>
    rw [Turn.leaves] at leaves
    split_ifs at leaves with free
    obtain ⟨v, -, rfl⟩ := Option.map_eq_some_iff.mp leaves
    exact fresh distinct free

end Run

section Turns
variable {server : Server Ty}

def Ordered (ts : List (Turn Ty)) : Prop :=
  ts.Pairwise fun a b => a.keeps = false → a.row?.isSome → b.keeps = false

theorem runTurn (t : Turn Ty) {done rest added : List (Attribute Ty)}
    (distinct : (names (done ++ (t.old?.toList ++ rest) ++ added)).Nodup) :
    server.run (t.statements server) (done ++ (t.old?.toList ++ rest) ++ added) =
      (t.leaves server (names (done ++ rest ++ added))).map fun new =>
        if t.keeps then done ++ (new ++ rest) ++ added else done ++ rest ++ (added ++ new) := by
  cases t with
  | drop old =>
    simp only [Turn.old?, Option.toList_some, List.append_assoc, List.cons_append, List.nil_append] at distinct ⊢
    rw [Turn.statements, runDrop distinct]
    simp [Turn.leaves, Turn.keeps]
  | keep old r =>
    simp only [Turn.old?, Option.toList_some, List.append_assoc, List.cons_append, List.nil_append] at distinct ⊢
    rw [runKeep distinct]
    rfl
  | replace old r =>
    simp only [Turn.old?, Option.toList_some, List.append_assoc, List.cons_append, List.nil_append] at distinct ⊢
    have split : (Turn.replace old r).statements server = [.drop old.name] ++ [.add r.name r.full] := rfl
    rw [split, runAppend, runDrop distinct, Option.bind_some, runAdd]
    simp only [Turn.leaves, Turn.keeps, Bool.false_eq_true, if_false, List.append_assoc]
  | append r =>
    simp only [Turn.old?, Option.toList_none, List.nil_append] at distinct ⊢
    rw [Turn.statements, runAdd]
    simp only [Turn.keeps, Bool.false_eq_true, if_false, List.append_assoc]

theorem oldsCons (t : Turn Ty) (ts : List (Turn Ty)) : oldsOf (t :: ts) = t.old?.toList ++ oldsOf ts := by
  cases old : t.old? with
  | none => exact List.filterMap_cons_none old
  | some _ => exact List.filterMap_cons_some old

theorem leavesSame {taken taken' : List Text} (same : ∀ name, name ∈ taken ↔ name ∈ taken') (t : Turn Ty) :
    t.leaves server taken = t.leaves server taken' := by
  cases t <;> simp only [Turn.leaves, same]

theorem runTurns {ts : List (Turn Ty)} (ordered : Ordered ts) {done added : List (Attribute Ty)}
    (late : added = [] ∨ ∀ t ∈ ts, t.keeps = false) (distinct : (names (done ++ oldsOf ts ++ added)).Nodup) :
    server.run (ts.flatMap (Turn.statements server)) (done ++ oldsOf ts ++ added) =
      (leftBy server (names (done ++ added)) ts).map fun new => done ++ added ++ new := by
  induction ts generalizing done added with
  | nil =>
    show some _ = some _
    simp [oldsOf]
  | cons t ts ih =>
    rw [oldsCons] at distinct
    have taken : ∀ name, name ∈ names (done ++ oldsOf ts ++ added) ↔
        name ∈ names (done ++ added) ++ names (oldsOf ts) := fun name => by
      simp only [names_append, List.mem_append]
      tauto
    rw [List.flatMap_cons, runAppend, oldsCons, runTurn t distinct, leftBy, leavesSame taken]
    cases leaves : t.leaves server (names (done ++ added) ++ names (oldsOf ts)) with
    | none => rfl
    | some new =>
      rw [← leavesSame taken, List.append_assoc] at leaves
      have next := leavesDistinct (by simpa [List.append_assoc] using distinct) leaves
      obtain ⟨first, ordered⟩ := List.pairwise_cons.mp ordered
      cases keeps : t.keeps with
      | true =>
        have none : added = [] := late.resolve_right fun never => by
          rw [never t List.mem_cons_self] at keeps
          cases keeps
        cases none
        rw [List.append_nil] at next
        have rest := @ih ordered (done ++ new) [] (.inl rfl) (by simpa [List.append_assoc] using next)
        rw [Option.map_some, Option.bind_some, if_pos rfl]
        simp only [List.append_assoc, List.append_nil, names_append, bind, Option.bind_some, Option.bind_assoc,
          Option.map_eq_bind, Function.comp_def] at rest ⊢
        exact rest
      | false =>
        have late : added ++ new = [] ∨ ∀ u ∈ ts, u.keeps = false := by
          cases row : t.row? with
          | some r => exact .inr fun u member => first u member keeps (row ▸ rfl)
          | none =>
            have empty : new = [] := by
              have named := (leavesNames leaves).1
              rw [row] at named
              exact List.map_eq_nil_iff.mp named
            rw [empty, List.append_nil]
            exact late.imp_right fun never u member => never u (List.mem_cons_of_mem t member)
        have moved : (done ++ (new ++ (oldsOf ts ++ added))).Perm (done ++ oldsOf ts ++ (added ++ new)) := by
          rw [List.append_assoc]
          refine List.Perm.append_left done ?_
          rw [← List.append_assoc (oldsOf ts)]
          exact List.perm_append_comm
        have rest := @ih ordered done (added ++ new) late ((moved.map Field.name).nodup_iff.mp next)
        rw [Option.map_some, Option.bind_some, if_neg Bool.false_ne_true]
        simp only [List.append_assoc, names_append, bind, Option.bind_some, Option.bind_assoc,
          Option.map_eq_bind, Function.comp_def] at rest ⊢
        exact rest

end Turns

end PgAdmin.dlgType
