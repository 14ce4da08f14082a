import PgAdmin.HbaConfigLine

/-! The texts that spell an entry of pg_hba.conf, and that the reader takes them apart: a line is
valid exactly when its text after the comment sign spells an entry, and the fields are that entry
(on a local line the address stays what it was). -/
namespace PgAdmin.pgHbaConfigLine
open Cursor PgsObjects

variable {l e : pgHbaConfigLine} {s p rest name : Text} {quoted : Bool} {i : ℕ}

def Blank (s : Text) : Prop := s ≠ [] ∧ ∀ c ∈ s, IsSpaceChar c

def Word (s : Text) : Prop := s ≠ [] ∧ ∀ c ∈ s, !IsSpaceChar c

def Quoted : Bool → Text → Prop
  | quoted, [] => quoted = false
  | quoted, c :: s =>
    (quoted = false → IsSpaceChar c = false) ∧ Quoted (if c = '"' then !quoted else quoted) s

def Item (s : Text) : Prop := s ≠ [] ∧ Quoted false s

inductive Address : Text → Prop where
  | cidr {s : Text} (word : Word s) (slash : '/' ∈ s) : Address s
  | mask {address gap mask : Text} (word : Word address) (plain : '/' ∉ address) (blank : Blank gap)
      (last : Word mask) : Address (address ++ gap ++ mask)

inductive SpellsMethod (l : pgHbaConfigLine) : Text → Prop where
  | method {name gap : Text} (named : l.GetMethod = some name)
      (spaces : ∀ c ∈ gap, IsSpaceChar c) (starts : Past IsSpaceChar l.option)
      (apart : gap = [] → l.option = []) : SpellsMethod l (name ++ gap ++ l.option)

inductive SpellsAddress (l : pgHbaConfigLine) : Text → Prop where
  | none {p : Text} (isLocal : l.connectType = .pgcLocal) (method : SpellsMethod l p) : SpellsAddress l p
  | address {gap p : Text} (remote : l.connectType ≠ .pgcLocal) (address : Address l.ipaddress)
      (blank : Blank gap) (method : SpellsMethod l p) : SpellsAddress l (l.ipaddress ++ gap ++ p)

inductive Spells (l : pgHbaConfigLine) : Text → Prop where
  | entry {name gap gap' gap'' p : Text} (named : l.GetConnectType = some name) (blank : Blank gap)
      (database : Item l.database) (blank' : Blank gap') (user : Item l.user)
      (blank'' : Blank gap'') (address : SpellsAddress l p) :
      Spells l (name ++ gap ++ l.database ++ gap' ++ l.user ++ gap'' ++ p)

theorem Blank.past (blank : Blank s) (rest : Text) : Past (!IsSpaceChar ·) (s ++ rest) := by
  obtain ⟨c, s, rfl⟩ := List.exists_cons_of_ne_nil blank.1
  intro d head
  cases Option.some.inj head
  simpa using blank.2 _ List.mem_cons_self

theorem Word.past (word : Word s) (rest : Text) : Past IsSpaceChar (s ++ rest) := by
  obtain ⟨c, s, rfl⟩ := List.exists_cons_of_ne_nil word.1
  intro d head
  cases Option.some.inj head
  simpa using word.2 _ List.mem_cons_self

theorem Item.past (item : Item s) (rest : Text) : Past IsSpaceChar (s ++ rest) := by
  obtain ⟨c, s, rfl⟩ := List.exists_cons_of_ne_nil item.1
  intro d head
  cases Option.some.inj head
  exact item.2.1 rfl

theorem Address.past (address : Address s) (rest : Text) : Past IsSpaceChar (s ++ rest) := by
  cases address with
  | cidr word _ => exact word.past rest
  | mask word _ _ _ =>
    rw [List.append_assoc, List.append_assoc]
    exact word.past _

theorem skipSpaceAppend (spaces : ∀ c ∈ s, IsSpaceChar c) (past : Past IsSpaceChar rest) :
    SkipSpace (s ++ rest) = rest :=
  skipAppend spaces past

theorem skipNonspaceAppend (word : Word s) (past : Past (!IsSpaceChar ·) rest) :
    SkipNonspace (s ++ rest) = rest :=
  skipAppend word.2 past

theorem quotedAppend (closed : Quoted quoted s) (past : Past (!IsSpaceChar ·) rest) :
    skipQuoted quoted (s ++ rest) = rest := by
  induction s generalizing quoted with
  | nil =>
    cases closed
    cases rest with
    | nil => rfl
    | cons c rest =>
      have space : IsSpaceChar c = true := by simpa using past c rfl
      simp [skipQuoted, space]
  | cons c s ih =>
    have inside : (!quoted && IsSpaceChar c) = false := by
      cases quoted with
      | true => rfl
      | false => exact closed.1 rfl
    rw [List.cons_append, skipQuoted, if_neg (by simp [inside])]
    exact ih closed.2

theorem quotedSplit (quoted : Bool) (p : Text) :
    ∃ s, p = s ++ skipQuoted quoted p ∧ (skipQuoted quoted p ≠ [] → Quoted quoted s) ∧
      Past (!IsSpaceChar ·) (skipQuoted quoted p) := by
  induction p generalizing quoted with
  | nil => exact ⟨[], rfl, fun more => absurd rfl more, fun c head => nomatch head⟩
  | cons c p ih =>
    rw [skipQuoted]
    split
    · rename_i space
      obtain ⟨unquoted, space⟩ := Bool.and_eq_true_iff.mp space
      refine ⟨[], rfl, fun _ => by simpa [Quoted] using unquoted, ?_⟩
      intro d head
      cases Option.some.inj head
      simpa using space
    · rename_i word
      obtain ⟨s, split, closed, past⟩ := ih (if c = '"' then !quoted else quoted)
      refine ⟨c :: s, congrArg (c :: ·) split, fun more => ⟨?_, closed more⟩, past⟩
      intro unquoted
      simpa [unquoted] using word

theorem findToken {list : List Text} (distinct : list.Nodup) :
    FindToken s list = some i ↔ list[i]? = some s := by
  rw [FindToken, List.findIdx?_eq_some_iff_getElem, List.getElem?_eq_some_iff]
  refine ⟨fun ⟨inside, here, _⟩ => ⟨inside, by simpa using here⟩, fun ⟨inside, here⟩ =>
    ⟨inside, by simpa using here, fun j before => ?_⟩⟩
  intro same
  have equal : list[j] = list[i] := (by simpa using same : list[j] = s).trans here.symm
  exact absurd ((List.Nodup.getElem_inj_iff distinct).mp equal) (by omega)

theorem spaceSplit (p : Text) : ∃ gap, p = gap ++ SkipSpace p ∧ (∀ c ∈ gap, IsSpaceChar c) ∧
    Past IsSpaceChar (SkipSpace p) :=
  skipSplit IsSpaceChar p

theorem nonspaceSplit (p : Text) : ∃ s, p = s ++ SkipNonspace p ∧ (∀ c ∈ s, !IsSpaceChar c) ∧
    Past (!IsSpaceChar ·) (SkipNonspace p) :=
  skipSplit (!IsSpaceChar ·) p

theorem gapSplit (past : Past (!IsSpaceChar ·) p) (more : p ≠ []) :
    ∃ gap, p = gap ++ SkipSpace p ∧ Blank gap ∧ Past IsSpaceChar (SkipSpace p) :=
  skipMoves (fun c head => by simpa using past c head) more

theorem wordSplit (start : Past IsSpaceChar p) (more : p ≠ []) :
    ∃ s, p = s ++ SkipNonspace p ∧ Word s ∧ Past (!IsSpaceChar ·) (SkipNonspace p) :=
  skipMoves (fun c head => by simpa using start c head) more

theorem methodsDistinct : pgHbaMethodStrings.Nodup := by decide

theorem connectTypesDistinct : pgHbaConnectTypeStrings.Nodup := by decide

theorem methodWord (named : l.GetMethod = some name) : Word name := by
  have words : ∀ name ∈ pgHbaMethodStrings, Word name := by
    simp [pgHbaMethodStrings, Word, IsSpaceChar]
  exact words name (List.mem_of_getElem? named)

theorem connectTypeWord (named : l.GetConnectType = some name) : Word name := by
  have words : ∀ name ∈ pgHbaConnectTypeStrings, Word name := by
    simp [pgHbaConnectTypeStrings, Word, IsSpaceChar]
  exact words name (List.mem_of_getElem? named)

theorem methodFound (found : FindToken name pgHbaMethodStrings = some i) :
    pgHbaMethodStrings[(pgHbaMethod.ofNat i).ctorIdx]? = some name := by
  have here := (findToken methodsDistinct).mp found
  have inside : i < 15 := (List.getElem?_eq_some_iff.mp here).1
  have same : (pgHbaMethod.ofNat i).ctorIdx = i := by
    interval_cases i <;> rfl
  rwa [same]

theorem connectTypeFound (found : FindToken name pgHbaConnectTypeStrings = some i) :
    pgHbaConnectTypeStrings[(pgHbaConnectType.ofNat i).ctorIdx]? = some name := by
  have here := (findToken connectTypesDistinct).mp found
  have inside : i < 4 := (List.getElem?_eq_some_iff.mp here).1
  have same : (pgHbaConnectType.ofNat i).ctorIdx = i := by
    interval_cases i <;> rfl
  rwa [same]

theorem gapPast (spaces : ∀ c ∈ s, IsSpaceChar c) (apart : s = [] → rest = []) :
    Past (!IsSpaceChar ·) (s ++ rest) := by
  cases s with
  | nil =>
    rw [apart rfl]
    exact fun c head => nomatch head
  | cons c s => exact Blank.past ⟨List.cons_ne_nil c s, spaces⟩ rest

theorem initMethodReads (spelled : SpellsMethod e p) :
    l.initMethod p = { l with method := e.method, option := e.option, isValid := true } := by
  obtain @⟨name, gap, named, spaces, starts, apart⟩ := spelled
  have found := (findToken methodsDistinct).mpr named
  have skipped := skipNonspaceAppend (methodWord named) (gapPast spaces apart)
  rw [initMethod, List.append_assoc, skipped, betweenAppend, found]
  simp only [pgHbaMethod.ofNat_ctorIdx, skipSpaceAppend spaces starts]

theorem initMethodValid (invalid : l.isValid = false) (valid : (l.initMethod p).isValid) :
    ∃ i, FindToken (between p (SkipNonspace p)) pgHbaMethodStrings = some i ∧
      l.initMethod p = { l with
        method := .ofNat i
        option := SkipSpace (SkipNonspace p)
        isValid := true } := by
  rw [initMethod] at valid ⊢
  cases found : FindToken (between p (SkipNonspace p)) pgHbaMethodStrings with
  | none => simp [found, invalid] at valid
  | some i => exact ⟨i, rfl, rfl⟩

theorem initMethodSpelled (invalid : l.isValid = false) (valid : (l.initMethod p).isValid) :
    SpellsMethod (l.initMethod p) p := by
  obtain ⟨i, found, same⟩ := initMethodValid invalid valid
  obtain ⟨name, split, -, past⟩ := nonspaceSplit p
  obtain ⟨gap, left, spaces, after⟩ := spaceSplit (SkipNonspace p)
  rw [betweenOf split] at found
  have spelled : SpellsMethod (l.initMethod p) (name ++ gap ++ SkipSpace (SkipNonspace p)) := by
    rw [same]
    refine .method (methodFound found) spaces after ?_
    rintro rfl
    rw [List.nil_append] at left
    exact pastBoth after (left ▸ past)
  rwa [List.append_assoc, ← left, ← split] at spelled

theorem skipAddressReads (address : Address s) (past : Past (!IsSpaceChar ·) rest) :
    skipAddress (s ++ rest) = rest := by
  cases address with
  | cidr word slash =>
    simp only [skipAddress, skipNonspaceAppend word past, betweenAppend, if_pos slash]
  | @mask address gap mask word plain blank last =>
    have first : SkipNonspace (address ++ (gap ++ (mask ++ rest))) = gap ++ (mask ++ rest) :=
      skipNonspaceAppend word (blank.past _)
    simp only [skipAddress, List.append_assoc, first, betweenAppend, if_neg plain,
      skipSpaceAppend blank.2 (last.past rest), skipNonspaceAppend last past]

theorem skipAddressSplit (start : Past IsSpaceChar p) (more : skipAddress p ≠ []) :
    ∃ s, p = s ++ skipAddress p ∧ Address s ∧ Past (!IsSpaceChar ·) (skipAddress p) := by
  have nonempty : p ≠ [] := by
    rintro rfl
    exact absurd rfl more
  obtain ⟨word, split, isWord, past⟩ := wordSplit start nonempty
  simp only [skipAddress, betweenOf split] at more ⊢
  by_cases slash : '/' ∈ word
  · rw [if_pos slash] at more ⊢
    exact ⟨word, split, .cidr isWord slash, past⟩
  · rw [if_neg slash] at more ⊢
    have gapMore : SkipNonspace p ≠ [] := by
      intro none
      exact more (by rw [none]; rfl)
    obtain ⟨gap, gapSplit, blank, after⟩ := gapSplit past gapMore
    have maskMore : SkipSpace (SkipNonspace p) ≠ [] := by
      intro none
      exact more (by rw [none]; rfl)
    obtain ⟨mask, maskSplit, isMask, last⟩ := wordSplit after maskMore
    refine ⟨word ++ gap ++ mask, ?_, .mask isWord slash blank isMask, last⟩
    rw [List.append_assoc, ← maskSplit, List.append_assoc, ← gapSplit]
    exact split

def addressRead (l e : pgHbaConfigLine) : Text :=
  if e.connectType = .pgcLocal then l.ipaddress else e.ipaddress

theorem initAddressReads (spelled : SpellsAddress e p) (same : l.connectType = e.connectType) :
    l.initAddress p = { l with
      ipaddress := addressRead l e
      method := e.method
      option := e.option
      isValid := true } := by
  cases spelled with
  | none isLocal method =>
    rw [initAddress, if_pos (same.trans isLocal), addressRead, if_pos isLocal,
      initMethodReads method]
  | @address gap rest remote address blank method =>
    obtain @⟨name, gap', named, spaces, starts, apart⟩ := method
    have skipped := skipAddressReads address (blank.past (name ++ gap' ++ e.option))
    have after : Past IsSpaceChar (name ++ gap' ++ e.option) := by
      rw [List.append_assoc]
      exact (methodWord named).past _
    rw [initAddress, if_neg (same ▸ remote), List.append_assoc]
    simp only [skipped, betweenAppend, skipSpaceAppend blank.2 after]
    rw [initMethodReads (.method named spaces starts apart), addressRead, if_neg remote]

theorem initMethodKeeps (l : pgHbaConfigLine) (p : Text) :
    (l.initMethod p).connectType = l.connectType ∧ (l.initMethod p).database = l.database ∧
      (l.initMethod p).user = l.user ∧ (l.initMethod p).ipaddress = l.ipaddress := by
  rw [initMethod]
  split <;> exact ⟨rfl, rfl, rfl, rfl⟩

theorem initAddressKeeps (l : pgHbaConfigLine) (p : Text) :
    (l.initAddress p).connectType = l.connectType ∧ (l.initAddress p).database = l.database ∧
      (l.initAddress p).user = l.user := by
  rw [initAddress]
  split
  · obtain ⟨connectType, database, user, -⟩ := initMethodKeeps l p
    exact ⟨connectType, database, user⟩
  · obtain ⟨connectType, database, user, -⟩ :=
      initMethodKeeps { l with ipaddress := between p (skipAddress p) } (SkipSpace (skipAddress p))
    exact ⟨connectType, database, user⟩

theorem SpellsMethod.nonempty (spelled : SpellsMethod l p) : p ≠ [] := by
  obtain @⟨name, gap, named, -, -, -⟩ := spelled
  obtain ⟨c, name, rfl⟩ := List.exists_cons_of_ne_nil (methodWord named).1
  simp

theorem initAddressSpelled (invalid : l.isValid = false) (start : Past IsSpaceChar p)
    (valid : (l.initAddress p).isValid) : SpellsAddress (l.initAddress p) p := by
  by_cases isLocal : l.connectType = .pgcLocal
  · rw [initAddress, if_pos isLocal] at valid ⊢
    exact .none ((initMethodKeeps l p).1.trans isLocal) (initMethodSpelled invalid valid)
  · rw [initAddress, if_neg isLocal] at valid ⊢
    let mid := { l with ipaddress := between p (skipAddress p) }
    let out := mid.initMethod (SkipSpace (skipAddress p))
    have spelled : SpellsMethod out (SkipSpace (skipAddress p)) := initMethodSpelled invalid valid
    have more : skipAddress p ≠ [] := by
      intro none
      exact spelled.nonempty (by rw [none]; rfl)
    obtain ⟨address, split, isAddress, past⟩ := skipAddressSplit start more
    obtain ⟨gap, left, blank, -⟩ := gapSplit past more
    obtain ⟨kept, -, -, addressKept⟩ := initMethodKeeps mid (SkipSpace (skipAddress p))
    have read : out.ipaddress = address := addressKept.trans (betweenOf split)
    have whole : SpellsAddress out (out.ipaddress ++ gap ++ SkipSpace (skipAddress p)) :=
      .address (fun same => isLocal (kept.symm.trans same)) (read ▸ isAddress) blank spelled
    rwa [read, List.append_assoc, ← left, ← split] at whole

theorem SpellsAddress.nonempty (spelled : SpellsAddress l p) : p ≠ [] := by
  cases spelled with
  | none _ method => exact method.nonempty
  | address _ _ _ method =>
    exact List.append_ne_nil_of_right_ne_nil _ method.nonempty

theorem SpellsAddress.start (spelled : SpellsAddress l p) : Past IsSpaceChar p := by
  cases spelled with
  | none _ method =>
    obtain @⟨name, gap, named, -, -, -⟩ := method
    rw [List.append_assoc]
    exact (methodWord named).past _
  | address _ address _ _ =>
    rw [List.append_assoc]
    exact address.past _

def body (line : Text) : Text :=
  if (cStr line).head? = some '#' then SkipSpace (cStr line).tail else cStr line

theorem initReads {line : Text} (nonempty : line ≠ []) (spelled : Spells e (body line)) :
    l.Init line =
      { e with
        text := line
        ipaddress := addressRead l e
        isValid := true
        isComment := (cStr line).head? = some '#'
        changed := false } := by
  obtain ⟨c, line, rfl⟩ := List.exists_cons_of_ne_nil nonempty
  rw [Init]
  simp only [List.isEmpty_cons, Bool.false_eq_true, if_false]
  rw [← body]
  generalize body (c :: line) = p at spelled
  obtain @⟨name, gap, gap', gap'', rest, named, blank, database, blank', user, blank'', address⟩ :=
    spelled
  have found := (findToken connectTypesDistinct).mpr named
  simp only [List.append_assoc]
  rw [skipNonspaceAppend (connectTypeWord named) (blank.past _), betweenAppend, found]
  simp only [skipSpaceAppend blank.2 (database.past _), quotedAppend database.2 (blank'.past _),
    skipSpaceAppend blank'.2 (user.past _), quotedAppend user.2 (blank''.past _), betweenAppend,
    skipSpaceAppend blank''.2 address.start]
  rw [initAddressReads address (pgHbaConnectType.ofNat_ctorIdx _)]
  simp only [pgHbaConnectType.ofNat_ctorIdx]
  rfl

theorem initValid {line : Text} (valid : (l.Init line).isValid) :
    let p1 := SkipNonspace (body line)
    let p2 := skipQuoted false (SkipSpace p1)
    let p3 := skipQuoted false (SkipSpace p2)
    ∃ (i : ℕ) (mid : pgHbaConfigLine),
      FindToken (between (body line) p1) pgHbaConnectTypeStrings = some i ∧
      mid.isValid = false ∧ mid.connectType = .ofNat i ∧
      mid.database = between (SkipSpace p1) p2 ∧ mid.user = between (SkipSpace p2) p3 ∧
      l.Init line = mid.initAddress (SkipSpace p3) := by
  intro p1 p2 p3
  rw [Init] at valid ⊢
  cases line with
  | nil => simp at valid
  | cons c line =>
    simp only [List.isEmpty_cons, Bool.false_eq_true, if_false] at valid ⊢
    rw [← body] at valid ⊢
    cases found : FindToken (between (body (c :: line)) p1) pgHbaConnectTypeStrings with
    | none => simp [p1, found] at valid
    | some i =>
      exact ⟨i, _, rfl, rfl, rfl, rfl, rfl, rfl⟩

theorem itemSplit (start : Past IsSpaceChar p) (more : skipQuoted false p ≠ []) :
    ∃ s, p = s ++ skipQuoted false p ∧ Item s ∧ Past (!IsSpaceChar ·) (skipQuoted false p) := by
  obtain ⟨s, split, closed, past⟩ := quotedSplit false p
  refine ⟨s, split, ⟨?_, closed more⟩, past⟩
  rintro rfl
  rw [List.nil_append] at split
  exact more (pastBoth (split ▸ start) past)

theorem initSpelled {line : Text} (valid : (l.Init line).isValid) :
    Spells (l.Init line) (body line) := by
  obtain ⟨i, mid, found, invalid, connectType, database, user, same⟩ := initValid valid
  rw [same] at valid ⊢
  let p1 := SkipNonspace (body line)
  let p2 := skipQuoted false (SkipSpace p1)
  let p3 := skipQuoted false (SkipSpace p2)
  obtain ⟨gap'', left'', spaces'', after''⟩ := spaceSplit p3
  have address := initAddressSpelled invalid after'' valid
  have more3 : p3 ≠ [] := by
    intro none
    exact address.nonempty (by rw [none]; rfl)
  have more2 : p2 ≠ [] := by
    intro none
    exact more3 (by simp only [p3, none]; rfl)
  have more1 : p1 ≠ [] := by
    intro none
    exact more2 (by simp only [p2, none]; rfl)
  obtain ⟨name, split, -, past⟩ := nonspaceSplit (body line)
  obtain ⟨gap, left, blank, after⟩ := gapSplit past more1
  obtain ⟨base, split1, isItem, past2⟩ := itemSplit after more2
  obtain ⟨gap', left', blank', after'⟩ := gapSplit past2 more2
  obtain ⟨role, split2, isItem', past3⟩ := itemSplit after' more3
  obtain ⟨gap'', left'', blank'', -⟩ := gapSplit past3 more3
  obtain ⟨keptType, keptDatabase, keptUser⟩ := initAddressKeeps mid (SkipSpace p3)
  rw [betweenOf split1] at database
  rw [betweenOf split2] at user
  rw [betweenOf split] at found
  have named : (mid.initAddress (SkipSpace p3)).GetConnectType = some name := by
    rw [GetConnectType, keptType, connectType]
    exact connectTypeFound found
  have whole := Spells.entry named blank (keptDatabase.trans database ▸ isItem) blank'
    (keptUser.trans user ▸ isItem') blank'' address
  rw [keptDatabase, keptUser, database, user] at whole
  simp only [List.append_assoc] at whole
  rw [← left'', ← split2, ← left', ← split1, ← left, ← split] at whole
  exact whole

end PgAdmin.pgHbaConfigLine
