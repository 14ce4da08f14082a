import PgAdmin.CompositeAttributes

/-! The composite type dialog as a whole: when its statements make the type what the list shows. -/
namespace PgAdmin.dlgType
open PgsObjects (Text)
open RecordEdits

variable {Ty : Type} {server : Server Ty}

section Turns
variable {olds : List (Attribute Ty)} {rows : List Row} {t : Turn Ty} {r : Row}

theorem keepOriginal {old : Attribute Ty} (inside : .keep old r ∈ turns olds rows) :
    r.original = old.name ∧ r.original ≠ [] := by
  induction olds generalizing rows with
  | nil =>
    obtain ⟨_, -, same⟩ := List.mem_map.mp inside
    cases same
  | cons head olds ih =>
    cases rows with
    | nil =>
      cases inside with
      | tail _ inside => exact ih inside
    | cons first rows =>
      rw [turns] at inside
      split_ifs at inside with new same
      · cases inside with
        | tail _ inside => exact ih inside
      · cases inside with
        | head => exact ⟨same, new⟩
        | tail _ inside => exact ih inside
      · cases inside with
        | tail _ inside => exact ih inside

theorem rowOf (inside : t ∈ turns olds rows) (row : t.row? = some r) : r ∈ rows := by
  rw [← turnsRows olds rows]
  exact List.mem_filterMap.mpr ⟨t, inside, row⟩

theorem oldOf {old : Attribute Ty} (inside : t ∈ turns olds rows) (here : t.old? = some old) : old ∈ olds := by
  rw [← turnsOlds olds rows]
  exact List.mem_filterMap.mpr ⟨t, inside, here⟩

theorem addOriginal (named : ∀ old ∈ olds, old.name ≠ []) (kept : Kept (names olds) (rows.map Row.original))
    (inside : t ∈ turns olds rows) (adds : t.keeps = false) (row : t.row? = some r) : r.original = [] := by
  induction olds generalizing rows with
  | nil =>
    by_contra member
    have original : r.original ∈ rows.map Row.original := List.mem_map_of_mem (rowOf inside row)
    exact absurd (kept.member original member) List.not_mem_nil
  | cons old olds ih =>
    have named' : ∀ old ∈ olds, old.name ≠ [] := fun a member => named a (List.mem_cons_of_mem old member)
    cases rows with
    | nil => exact absurd (rowOf inside row) List.not_mem_nil
    | cons first rows =>
      rw [List.map_cons] at kept
      rw [turns] at inside
      split_ifs at inside with new same
      · cases inside with
        | head =>
          cases row
          exact new
        | tail _ inside =>
          rw [new] at kept
          exact ih named' (kept.new _) inside
      · cases inside with
        | head => cases adds
        | tail _ inside =>
          rw [same] at kept
          exact ih named' (kept.same (named old List.mem_cons_self)) inside
      · cases inside with
        | head => cases row
        | tail _ inside => exact @ih (first :: rows) named' (kept.other new same) inside

theorem turnsOrdered (named : ∀ old ∈ olds, old.name ≠ []) (kept : Kept (names olds) (rows.map Row.original)) :
    Ordered (turns olds rows) := by
  have newLast : ((turns olds rows).filterMap Turn.row?).Pairwise fun a b => a.original = [] → b.original = [] := by
    rw [turnsRows]
    exact List.pairwise_map.mp kept.newLast
  refine (List.pairwise_filterMap.mp newLast).imp_of_mem ?_
  intro a b insideA insideB later adds row
  obtain ⟨first, here⟩ := Option.isSome_iff_exists.mp row
  cases b with
  | keep old second =>
    have new := later first here second rfl (addOriginal named kept insideA adds here)
    exact absurd new (keepOriginal insideB).2
  | _ => rfl

end Turns

section Wanted
variable {attrs : List (Attribute Ty)} {old : Attribute Ty} {r : Row}

theorem wantedMember (distinct : (names attrs).Nodup) (inside : old ∈ attrs) (original : r.original = old.name) :
    wanted server attrs r = if Same server old r then some old.value else server.listed r := by
  have only : ∀ a ∈ attrs, a.name = old.name → a = old := fun a member same =>
    List.inj_on_of_nodup_map distinct member inside same
  rw [wanted]
  cases found : attrs.find? fun old => decide (r.original = old.name ∧ Same server old r) with
  | some a =>
    obtain ⟨name, same⟩ : r.original = a.name ∧ Same server a r := by simpa using List.find?_some found
    cases only a (List.mem_of_find?_eq_some found) (name.symm.trans original)
    rw [if_pos same]
  | none =>
    have differs := List.find?_eq_none.mp found old inside
    rw [if_neg fun same => differs (decide_eq_true ⟨original, same⟩)]

theorem wantedNew (named : ∀ a ∈ attrs, a.name ≠ []) (new : r.original = []) :
    wanted server attrs r = server.listed r := by
  have none : attrs.find? (fun old => decide (r.original = old.name ∧ Same server old r)) = none :=
    List.find?_eq_none.mpr fun a member same =>
      named a member ((of_decide_eq_true same).1.symm.trans new)
  rw [wanted, none]

end Wanted

section Fits
variable {attrs : List (Attribute Ty)} {ts : List (Turn Ty)}

structure Turn.Wants (server : Server Ty) (attrs : List (Attribute Ty)) (t : Turn Ty) : Prop where
  member : ∀ old r, t = .keep old r →
    wanted server attrs r = if Same server old r then some old.value else server.listed r
  new : t.keeps = false → ∀ r ∈ t.row?, wanted server attrs r = server.listed r

def Turn.Silent (server : Server Ty) (t : Turn Ty) : Prop :=
  ∀ old r, t = .keep old r → r.name = old.name → Same server old r → r.base = server.display old.value.1

theorem meaningFull (r : Row) (v : Ty × Text) :
    server.listed r = some v ∧ server.meaning r.full = some v ↔
      server.listed r = some v ∧ server.type r.base (limits r.length r.precision) = some v.1 ∧
        (r.collation = defaultCollation → server.collation v.1 none = some v.2) := by
  refine and_congr_right fun listed => ?_
  have given := (collatedSome.mp listed).2
  rw [Row.full, meaningSome]
  refine and_congr_right fun _ => ?_
  have some_ : defaultCollation ≠ [] := by decide
  by_cases same : r.collation = defaultCollation
  · simp [fullType, same]
  · by_cases none : r.collation = []
    · simpa [fullType, none, some_.symm] using given
    · simpa [fullType, none, same] using given

theorem meaningData {old : Attribute Ty} {r : Row} {v : Ty × Text} :
    server.listed r = some v ∧ server.meaning (dataType r.base r.collation old.value.2) = some v ↔
      Rewritten server old r v := by
  rw [meaningSome]
  constructor
  · rintro ⟨listed, type, collation⟩
    refine ⟨listed, type, fun new none => ?_, fun kept => by simpa [dataType, kept] using collation⟩
    rw [dataType, none, if_pos fun same => new (none.trans same), server.nameless] at collation
    cases collation
  · rintro ⟨listed, type, new, kept⟩
    refine ⟨listed, type, ?_⟩
    have given := (collatedSome.mp listed).2
    rw [dataType]
    by_cases same : r.collation = old.value.2
    · rw [if_neg (not_not.mpr same)]
      exact kept same
    · rw [if_pos same]
      rwa [if_neg (new same)] at given

theorem addStands {taken : List Text} {r : Row} (wants : wanted server attrs r = server.listed r) :
    (∃ new, (Turn.append r).leaves server taken = some new ∧ List.Forall₂ (Stands server attrs) new [r]) ↔
      AddFits server taken r := by
  rw [Turn.leaves]
  constructor
  · rintro ⟨new, leaves, stands⟩
    split_ifs at leaves with free
    obtain ⟨v, means, rfl⟩ := Option.map_eq_some_iff.mp leaves
    exact ⟨free, v, (meaningFull r v).mp ⟨wants ▸ (List.forall₂_cons.mp stands).1.2, means⟩⟩
  · rintro ⟨free, v, shown⟩
    obtain ⟨listed, means⟩ := (meaningFull r v).mpr shown
    rw [if_pos free, means]
    exact ⟨_, rfl, .cons ⟨rfl, wants.trans listed⟩ .nil⟩

theorem keepStands {taken : List Text} {old : Attribute Ty} {r : Row}
    (wants : wanted server attrs r = if Same server old r then some old.value else server.listed r) :
    (∃ new, (Turn.keep old r).leaves server taken = some new ∧ List.Forall₂ (Stands server attrs) new [r]) ∧
      (Turn.keep old r).Silent server ↔ KeepFits server taken old r := by
  have altered : Same server old r → (Altered server old r ↔ r.base ≠ server.display old.value.1) := fun same =>
    ⟨fun either => either.resolve_right (not_not.mpr same.2), .inl⟩
  have alone : Same server old r → dataType r.base r.collation old.value.2 = ⟨r.base, [], none⟩ := fun same => by
    rw [dataType, if_neg (not_not.mpr same.2)]
  rw [Turn.leaves]
  constructor
  · rintro ⟨⟨new, leaves, stands⟩, silent⟩
    split_ifs at leaves with free
    obtain ⟨v, means, rfl⟩ := Option.map_eq_some_iff.mp leaves
    have value := (List.forall₂_cons.mp stands).1.2
    rw [wants] at value
    refine ⟨free, fun same => ?_, fun other never => ?_, fun other changed => ⟨v, ?_⟩⟩
    · rw [if_pos same] at value
      cases value
      by_cases base : r.base = server.display old.value.1
      · exact .inl base
      · rw [told, if_pos ((altered same).mpr base), alone same, meaningSome] at means
        exact .inr ⟨fun name => base (silent old r rfl name same), means⟩
    · rw [told, if_neg never] at means
      cases means
      rwa [if_neg other] at value
    · rw [told, if_pos changed] at means
      rw [if_neg other] at value
      exact meaningData.mp ⟨value, means⟩
  · rintro ⟨free, same_, never, changed⟩
    rw [if_pos free]
    constructor
    · by_cases same : Same server old r
      · have means : told server old r = some old.value := by
          rw [told, alone same]
          rcases same_ same with base | ⟨-, means⟩
          · exact if_neg fun changed => (altered same).mp changed base
          · split_ifs
            · exact meaningSome.mpr means
            · rfl
        rw [means]
        exact ⟨_, rfl, .cons ⟨rfl, wants.trans (if_pos same)⟩ .nil⟩
      · have told : ∃ v, told server old r = some v ∧ server.listed r = some v := by
          rw [told]
          split_ifs with both
          · obtain ⟨v, rewritten⟩ := changed same both
            exact ⟨v, (meaningData.mpr rewritten).symm⟩
          · exact ⟨_, rfl, never same both⟩
        obtain ⟨v, means, listed⟩ := told
        rw [means]
        exact ⟨_, rfl, .cons ⟨rfl, (wants.trans (if_neg same)).trans listed⟩ .nil⟩
    · intro old' r' here name same
      cases here
      exact (same_ same).resolve_right fun renamed => renamed.1 name

theorem turnStands {t : Turn Ty} (wants : t.Wants server attrs) (taken : List Text) :
    (∃ new, t.leaves server taken = some new ∧ List.Forall₂ (Stands server attrs) new t.row?.toList) ∧
      t.Silent server ↔ t.Fits server taken := by
  have quiet : ∀ {t : Turn Ty}, t.keeps = false → t.Silent server := by
    rintro _ never old r rfl
    cases never
  cases t with
  | drop old => exact ⟨fun _ => trivial, fun _ => ⟨⟨[], rfl, .nil⟩, quiet rfl⟩⟩
  | keep old r => exact keepStands (wants.member old r rfl)
  | replace old r => exact (and_iff_left (quiet rfl)).trans (addStands (wants.new rfl r rfl))
  | append r => exact (and_iff_left (quiet rfl)).trans (addStands (wants.new rfl r rfl))

theorem allStand (wants : ∀ t ∈ ts, t.Wants server attrs) (taken : List Text) :
    (∃ new, leftBy server taken ts = some new ∧
      List.Forall₂ (Stands server attrs) new (ts.filterMap Turn.row?)) ∧ (∀ t ∈ ts, t.Silent server) ↔
      AllFit server taken ts := by
  induction ts generalizing taken with
  | nil => exact ⟨fun _ => trivial, fun _ => ⟨⟨[], rfl, .nil⟩, fun _ inside => absurd inside List.not_mem_nil⟩⟩
  | cons t ts ih =>
    have rows : (t :: ts).filterMap Turn.row? = t.row?.toList ++ ts.filterMap Turn.row? := by
      cases row : t.row? with
      | none => exact List.filterMap_cons_none row
      | some _ => exact List.filterMap_cons_some row
    have first := turnStands (wants t List.mem_cons_self) (taken ++ names (oldsOf ts))
    have later := ih (fun u inside => wants u (List.mem_cons_of_mem t inside))
      (taken ++ t.row?.toList.map Row.name)
    rw [AllFit, ← first, ← later, leftBy, rows, List.forall_mem_cons]
    constructor
    · rintro ⟨⟨new, left, stands⟩, silent, silents⟩
      obtain ⟨head, leaves, left⟩ := Option.bind_eq_some_iff.mp left
      obtain ⟨rest, later, same⟩ := Option.bind_eq_some_iff.mp left
      cases same
      have named := (leavesNames leaves).1
      have length : t.row?.toList.length = head.length := by
        simpa [names] using (congrArg List.length named).symm
      have front := List.forall₂_take_append _ _ _ stands
      have back := List.forall₂_drop_append _ _ _ stands
      rw [length, List.take_left] at front
      rw [length, List.drop_left] at back
      rw [named] at later
      exact ⟨⟨⟨head, leaves, front⟩, silent⟩, ⟨rest, later, back⟩, silents⟩
    · rintro ⟨⟨⟨head, leaves, front⟩, silent⟩, ⟨rest, left, back⟩, silents⟩
      rw [← (leavesNames leaves).1] at left
      refine ⟨⟨head ++ rest, ?_, List.rel_append front back⟩, silent, silents⟩
      rw [leaves]
      show (leftBy server (taken ++ names head) ts).bind _ = _
      rw [left]
      rfl

end Fits

section Silence
variable {taken : List Text} {ts : List (Turn Ty)}

theorem fitsDistinct {t : Turn Ty} {rest : List (Attribute Ty)} (fits : t.Fits server (taken ++ names rest))
    (distinct : (taken ++ names (t.old?.toList ++ rest)).Nodup) :
    (taken ++ t.row?.toList.map Row.name ++ names rest).Nodup ∧
      ∀ s ∈ t.statements server, ∀ name ∈ s.names, name ∉ taken ++ names rest := by
  have fresh : ∀ {name : Text}, (taken ++ names rest).Nodup → name ∉ taken ++ names rest →
      (taken ++ [name] ++ names rest).Nodup := fun {name} nodup free => by
    rw [List.append_assoc, List.singleton_append, List.nodup_middle]
    exact List.nodup_cons.mpr ⟨free, nodup⟩
  have apart : ∀ {old : Attribute Ty}, (taken ++ names (old :: rest)).Nodup →
      old.name ∉ taken ++ names rest ∧ (taken ++ names rest).Nodup := fun {old} nodup => by
    rw [names_cons, List.nodup_middle] at nodup
    exact List.nodup_cons.mp nodup
  cases t with
  | drop old =>
    obtain ⟨free, nodup⟩ := apart distinct
    refine ⟨by simpa [Turn.row?] using nodup, fun s inside name member => ?_⟩
    cases List.mem_singleton.mp inside
    cases List.mem_singleton.mp member
    exact free
  | keep old r =>
    obtain ⟨free, nodup⟩ := apart distinct
    have clear : r.name ∉ taken ++ names rest := fits.free.elim (fun same => same ▸ free) id
    refine ⟨fresh nodup clear, fun s inside name member => ?_⟩
    have either : name = old.name ∨ name = r.name := by
      rw [Turn.statements, List.mem_append] at inside
      rcases inside with inside | inside
      · split_ifs at inside
        · cases List.mem_singleton.mp inside
          simpa [Statement.names] using member
        · exact absurd inside List.not_mem_nil
      · split_ifs at inside
        · cases List.mem_singleton.mp inside
          exact .inr (List.mem_singleton.mp member)
        · exact absurd inside List.not_mem_nil
    rcases either with rfl | rfl
    · exact free
    · exact clear
  | replace old r =>
    obtain ⟨free, nodup⟩ := apart distinct
    refine ⟨fresh nodup fits.free, fun s inside name member => ?_⟩
    rcases List.mem_cons.mp inside with rfl | inside
    · cases List.mem_singleton.mp member
      exact free
    · cases List.mem_singleton.mp inside
      cases List.mem_singleton.mp member
      exact fits.free
  | append r =>
    refine ⟨fresh distinct fits.free, fun s inside name member => ?_⟩
    cases List.mem_singleton.mp inside
    cases List.mem_singleton.mp member
    exact fits.free

theorem pastNames (fit : AllFit server taken ts) (distinct : (taken ++ names (oldsOf ts)).Nodup) :
    ∀ t ∈ ts, ∀ s ∈ t.statements server, ∀ name ∈ s.names, name ∉ taken := by
  induction ts generalizing taken with
  | nil => exact fun t inside => absurd inside List.not_mem_nil
  | cons t ts ih =>
    rw [oldsCons] at distinct
    obtain ⟨next, named⟩ := fitsDistinct fit.1 distinct
    rw [List.forall_mem_cons]
    refine ⟨fun s inside name member past => ?_, fun u inside s statement name member past => ?_⟩
    · exact named s inside name member (List.mem_append_left _ past)
    · exact ih fit.2 next u inside s statement name member (List.mem_append_left _ past)

theorem memberSilent (fit : AllFit server taken ts) (distinct : (taken ++ names (oldsOf ts)).Nodup)
    {old : Attribute Ty} {r : Row} (inside : .keep old r ∈ ts) (name : r.name = old.name)
    (same : Same server old r) : ∀ u ∈ ts, ∀ s ∈ u.statements server, r.name ∉ s.names := by
  induction ts generalizing taken with
  | nil => exact absurd inside List.not_mem_nil
  | cons t ts ih =>
    rw [oldsCons] at distinct
    obtain ⟨next, named⟩ := fitsDistinct fit.1 distinct
    rw [List.forall_mem_cons]
    rcases List.mem_cons.mp inside with rfl | inside
    · have base := (fit.1.same same).resolve_right fun renamed => renamed.1 name
      have quiet : (Turn.keep old r).statements server = [] := by
        have unaltered : ¬ Altered server old r := fun changed =>
          changed.elim (fun other => other base) fun other => other same.2
        rw [Turn.statements, if_neg (not_not.mpr name), if_neg unaltered]
        rfl
      refine ⟨fun s inside => ?_, fun u inside s statement member => ?_⟩
      · rw [quiet] at inside
        exact absurd inside List.not_mem_nil
      · exact pastNames fit.2 next u inside s statement _ member
          (List.mem_append_right _ (List.mem_singleton_self r.name))
    · refine ⟨fun s statement member => ?_, ih fit.2 next inside⟩
      have there : old ∈ oldsOf ts := List.mem_filterMap.mpr ⟨_, inside, rfl⟩
      refine named s statement _ member (List.mem_append_right _ ?_)
      rw [name]
      exact List.mem_map_of_mem there

end Silence

section Dialog

/- The arrays have an entry for each row all the time, the statements are written and can be executed, they give
what the list shows, and none of them names a member that is as it was. -/
structure Faithful (server : Server Ty) (cb : Datatypes) (attrs : List (Attribute Ty)) (events : List MemberEvent) :
    Prop where
  aligned : ∀ past, past <+: events → (edited cb (elementsOf (attrs.map server.item)) past).Aligned
  made : ∃ stmts, memberStatements (elementsOf (attrs.map server.item))
      (edited cb (elementsOf (attrs.map server.item)) events) = some stmts ∧
    (∃ final, server.run stmts attrs = some final ∧ List.Forall₂ (Stands server attrs) final
      (edited cb (elementsOf (attrs.map server.item)) events).rows) ∧
    ∀ r ∈ (edited cb (elementsOf (attrs.map server.item)) events).rows, Unchanged server attrs r →
      ∀ s ∈ stmts, r.name ∉ s.names

/- The type of each old attribute is in the combobox before the last row, and the members fit in turn. -/
structure Fitting (server : Server Ty) (cb : Datatypes) (attrs : List (Attribute Ty)) (events : List MemberEvent) :
    Prop where
  known : ∀ a ∈ attrs, Known cb (server.item a)
  members : AllFit server [] (turns attrs (edited cb (elementsOf (attrs.map server.item)) events).rows)

theorem membersFollow (server : Server Ty) (attrs : List (Attribute Ty)) {rows : List Row}
    (distinct : (names attrs).Nodup) (named : ∀ a ∈ attrs, a.name ≠ [])
    (kept : Kept (names attrs) (rows.map Row.original)) (some_ : rows ≠ []) :
    (∃ stmts, memberStatements (elementsOf (attrs.map server.item)) (.of rows) = some stmts ∧
      (∃ final, server.run stmts attrs = some final ∧ List.Forall₂ (Stands server attrs) final rows) ∧
      ∀ r ∈ rows, Unchanged server attrs r → ∀ s ∈ stmts, r.name ∉ s.names) ↔
    AllFit server [] (turns attrs rows) := by
  have made : memberStatements (elementsOf (attrs.map server.item)) (.of rows) =
      some ((turns attrs rows).flatMap (Turn.statements server)) := by
    have enough : attrs.length + rows.length <
        (elementsOf (attrs.map server.item)).length + (Members.of rows).lstMembers.length + 1 := by
      rw [elementsLength, List.length_map]
      simp only [Members.of, List.length_map]
      omega
    exact mergeTurns attrs rows named kept (fun none => absurd none some_) enough
  have ran := @runTurns Ty server _ (turnsOrdered named kept) [] [] (.inl rfl)
  have olds : oldsOf (turns attrs rows) = attrs := turnsOlds attrs rows
  rw [olds, List.nil_append, List.append_nil] at ran
  have result : server.run ((turns attrs rows).flatMap (Turn.statements server)) attrs =
      leftBy server [] (turns attrs rows) := (ran distinct).trans (Option.map_id' ..)
  have wants : ∀ t ∈ turns attrs rows, t.Wants server attrs := by
    refine fun t inside => ⟨?_, fun adds r row => wantedNew named (addOriginal named kept inside adds row)⟩
    rintro old r rfl
    exact wantedMember distinct (oldOf inside rfl) (keepOriginal inside).1
  rw [← allStand wants, turnsRows]
  constructor
  · rintro ⟨stmts, same, ⟨final, done, stands⟩, silent⟩
    cases made.symm.trans same
    refine ⟨⟨final, result.symm.trans done, stands⟩, ?_⟩
    rintro t inside old r rfl name unchanged
    by_contra base
    have member := silent r (rowOf inside rfl) ⟨old, oldOf inside rfl, (keepOriginal inside).1, name, unchanged⟩
    refine member (.setType r.name (dataType r.base r.collation old.value.2)) ?_ (List.mem_singleton_self _)
    refine List.mem_flatMap.mpr ⟨_, inside, List.mem_append_right _ ?_⟩
    have changed : Altered server old r := .inl base
    rw [if_pos changed]
    exact List.mem_singleton_self _
  · rintro ⟨⟨new, left, stands⟩, silent⟩
    have fit := (allStand wants []).mp ⟨⟨new, left, by rwa [turnsRows]⟩, silent⟩
    refine ⟨_, made, ⟨new, result.trans left, stands⟩, ?_⟩
    rintro r inside ⟨old, there, original, name, unchanged⟩ s statement
    obtain ⟨u, turn, statement⟩ := List.mem_flatMap.mp statement
    have member : r ∈ (turns attrs rows).filterMap Turn.row? := by rwa [turnsRows]
    obtain ⟨t, own, row⟩ := List.mem_filterMap.mp member
    cases keeps : t.keeps with
    | false =>
      have new := addOriginal named kept own keeps row
      exact absurd (original.symm.trans new) (named old there)
    | true =>
      cases t with
      | keep old' r' =>
        cases row
        have same : old' = old := List.inj_on_of_nodup_map distinct (oldOf own rfl) there
          ((keepOriginal own).1.symm.trans original)
        cases same
        have nodup : (([] : List Text) ++ names (oldsOf (turns attrs rows))).Nodup := by rwa [olds]
        exact memberSilent fit nodup own name unchanged u turn s statement
      | _ => cases keeps

theorem editedKept (cb : Datatypes) {attrs : List (Attribute Ty)} (named : ∀ a ∈ attrs, a.name ≠ [])
    (known : ∀ a ∈ attrs, Known cb (server.item a)) (events : List MemberEvent) :
    ∃ rows, edited cb (elementsOf (attrs.map server.item)) events = .of rows ∧
      Kept (names attrs) (rows.map Row.original) := by
  refine ⟨events.foldl (rowsAfter cb) ((attrs.map server.item).map (openRow cb)), ?_, ?_⟩
  · rw [edited, openKnown (by simpa using known), handledRows]
  · have opened := @keptOpen cb (attrs.map server.item) (by simpa [Server.item] using named)
    have same : (attrs.map server.item).map MemberItem.name = names attrs := by
      rw [List.map_map]
      rfl
    rw [same] at opened
    exact keptRun opened events

/- The dialog does what it shows just when the types are found and the members fit. -/
theorem compositeFaithful (server : Server Ty) (cb : Datatypes) (attrs : List (Attribute Ty))
    (distinct : (names attrs).Nodup) (named : ∀ a ∈ attrs, a.name ≠ []) (events : List MemberEvent)
    (two : 2 ≤ (edited cb (elementsOf (attrs.map server.item)) events).lstMembers.length) :
    Faithful server cb attrs events ↔ Fitting server cb attrs events := by
  by_cases known : ∀ a ∈ attrs, Known cb (server.item a)
  · obtain ⟨rows, same, kept⟩ := editedKept cb named known events
    rw [same] at two
    have some_ : rows ≠ [] := fun none => by
      rw [none] at two
      exact absurd two (by decide)
    have follow := membersFollow server attrs distinct named kept some_
    constructor
    · rintro ⟨-, made⟩
      rw [same, rowsOf] at made
      exact ⟨known, by rw [same, rowsOf]; exact follow.mp made⟩
    · rintro ⟨-, members⟩
      rw [same, rowsOf] at members
      refine ⟨fun past _ => ?_, by rw [same, rowsOf]; exact follow.mpr members⟩
      obtain ⟨rows, same, -⟩ := editedKept cb named known past
      rw [same]
      exact alignedOf rows
  · constructor
    · rintro ⟨aligned, -⟩
      exact absurd (by simpa using openAligned.mp (aligned [] (List.nil_prefix))) known
    · rintro ⟨all, -⟩
      exact absurd all known

def noCollation (_ : Text) : Option Text → Option Text
  | none => some []
  | some _ => none

theorem noCollationNameless (type : Text) : noCollation type (some []) = none := rfl

def textServer : Server Text where
  display := id
  shown := some
  type := fun typname limits => some (typname ++ limits)
  collation := noCollation
  nameless := noCollationNameless

def someTypes : Datatypes where
  all := [⟨1043, "character varying".toList⟩, ⟨23, "integer".toList⟩, ⟨25, "text".toList⟩]
  some_ := by decide

def integerPair : List (Attribute Text) := [⟨"a".toList, "integer".toList, []⟩, ⟨"b".toList, "integer".toList, []⟩]

def lengthFields : MemberFields where
  txtMembername := " c".toList
  cbDatatype := "character varying".toList
  selection := 0
  txtLength := ⟨"10".toList, true⟩
  txtPrecision := ⟨[], false⟩
  cbCollation := ⟨[], true⟩

theorem memberAdded : Faithful textServer someTypes integerPair [.remove 0, .add lengthFields] := by
  refine (compositeFaithful textServer someTypes integerPair (by decide) (by decide) _ (by decide)).mpr
    ⟨by decide, ?_⟩
  have same : Same textServer ⟨"b".toList, "integer".toList, []⟩
      ⟨"b".toList, "integer".toList, [], "23:integer".toList, [], [], "b".toList⟩ := ⟨by decide, by decide⟩
  exact ⟨trivial, ⟨.inl rfl, fun _ => .inl (by decide), fun other => absurd same other, fun other => absurd same other⟩,
    ⟨by decide, _, rfl, by decide, fun no => absurd no (by decide)⟩, trivial⟩

/- Nothing is done in the dialog, and the length of a type gets lost. -/
theorem lengthLost : ¬ ∀ (server : Server Text) (cb : Datatypes) (attrs : List (Attribute Text)),
    (names attrs).Nodup → (∀ a ∈ attrs, a.name ≠ []) → ∀ events : List MemberEvent,
    2 ≤ (edited cb (elementsOf (attrs.map server.item)) events).lstMembers.length →
      Faithful server cb attrs events := by
  intro all
  obtain ⟨-, stmts, made, -, silent⟩ := all textServer someTypes
    [⟨"a".toList, "character varying(10)".toList, []⟩, ⟨"b".toList, "integer".toList, []⟩]
    (by decide) (by decide) [] (by decide)
  have written : some [Statement.setType "a".toList ⟨"character varying".toList, [], none⟩] = some stmts :=
    Eq.trans (by decide) made
  cases written
  exact silent ⟨"a".toList, "character varying(10)".toList, [], "L1043:character varying".toList, "10".toList,
    [], "a".toList⟩ (by decide) ⟨_, List.mem_cons_self, rfl, rfl, rfl, rfl⟩ _ List.mem_cons_self
    (List.mem_singleton_self _)

end Dialog
end PgAdmin.dlgType
