import PgAdmin.PgsRegexGenUnits

/-! When the generators of a pattern are those of its units: the characters of every unit can stand in an XML
document, and no hyphen of a set is read for another one. -/
namespace PgAdmin.PgsRegexGen
open PgsObjects (toUShort)

theorem charactersReadable (letters : List wxChar) :
    (charactersNode letters).Readable ↔ ∀ c ∈ letters, XmlNode.Allowed c := by
  cases letters with
  | nil => simp [charactersNode, XmlNode.Readable, XmlNode.ReadableAll]
  | cons => simp [charactersNode, XmlNode.Readable, XmlNode.ReadableAll]

theorem digitAllowed (length : Length) : ∀ c ∈ length.digits, XmlNode.Allowed c := by
  intro c member
  rcases lengthLetters length c member with digit | rfl
  · obtain ⟨low, high⟩ := digitRange digit
    exact .inr (.inr (.inr (.inl ⟨le_trans (by decide) low, le_trans high (by decide)⟩)))
  · decide

theorem lengthReadable (length : Length) : XmlNode.ReadableAll (lengthNodes length) := by
  have one : ∀ c ∈ wxT "\n ", XmlNode.Allowed c := by decide
  have two : ∀ c ∈ wxT "\n  ", XmlNode.Allowed c := by decide
  have digits := digitAllowed length
  cases length with
  | one => exact ⟨one, trivial⟩
  | exactly m => exact ⟨two, ⟨digits, trivial⟩, one, trivial⟩
  | between m n => exact ⟨two, ⟨digits, trivial⟩, one, trivial⟩

theorem documentReadable (units : List RegexUnit) :
    (document units).Readable ↔ ∀ u ∈ units, ∀ c ∈ u.base.listed, XmlNode.Allowed c := by
  have one : ∀ c ∈ wxT "\n ", XmlNode.Allowed c := by decide
  have two : ∀ c ∈ wxT "\n  ", XmlNode.Allowed c := by decide
  have feed : ∀ c ∈ wxT "\n", XmlNode.Allowed c := by decide
  change XmlNode.ReadableAll (unitNodes units) ↔ _
  induction units with
  | nil => exact ⟨fun _ _ member => absurd member List.not_mem_nil, fun _ => ⟨feed, trivial⟩⟩
  | cons u units ih =>
    have node : (unitNode u).Readable ↔ ∀ c ∈ u.base.listed, XmlNode.Allowed c :=
      ⟨fun readable => (charactersReadable _).mp readable.2.1,
        fun allowed => ⟨two, (charactersReadable _).mpr allowed, lengthReadable u.length⟩⟩
    rw [List.forall_mem_cons, ← ih, ← node]
    exact ⟨fun readable => readable.2, fun readable => ⟨one, readable⟩⟩

structure Made (u : RegexUnit) (g : PgsStringGen) : Prop where
  characters : ∀ c, c ∈ g.characters ↔ u.base.Denotes c
  lower : g.sizes.min = u.length.lower
  upper : g.sizes.max = u.length.upper

/- The characters survive XML, there are some, and the hyphens of the set are fine. -/
structure Fine (u : RegexUnit) : Prop where
  xml : ∀ c, u.base.Denotes c → XmlNode.Allowed c ∧ c ≠ 0xD
  some_ : ∃ c, u.base.Denotes c
  hyphens : u.base.HyphensFine

theorem baseFine (u : Base) : u.HyphensFine ↔ ∀ c, c ∈ u.listed ↔ u.Denotes c := by
  cases u with
  | single l => exact ⟨fun _ c => List.mem_singleton, fun _ => trivial⟩
  | set s => exact hyphensFine s

theorem returnStray {s : CharSet} (listed : 0xD ∈ s.listed) (stray : ¬ s.Denotes 0xD) : 0xE ∈ s.listed := by
  have wider {b c : ℕ} (far : 15 ≤ c) (member : 0xD ∈ between b c) : 0xE ∈ between b c := by
    have within := memBetween.mp member
    have reaches := le_max_right b c
    exact memBetween.mpr ⟨within.1.trans (by decide), by omega⟩
  rcases List.mem_append.mp listed with front | trail
  · rcases List.mem_append.mp front with lead | items
    · refine List.mem_append_left _ (List.mem_append_left _ ?_)
      split_ifs at lead ⊢ with there
      · have turned : between (ch '[') s.behindLead = between s.behindLead (ch '[') := by
          rw [between, between, min_comm, max_comm]
        rw [turned] at lead ⊢
        exact wider (by decide) lead
      · cases lead
    · obtain ⟨i, member, inItem⟩ := List.mem_flatMap.mp items
      by_cases plain : ∀ b c, i ≠ .range b (.escaped c)
      · exact absurd (.inr ⟨i, member, (itemListed plain _).mp inItem⟩) stray
      · push Not at plain
        obtain ⟨b, e, rfl⟩ := plain
        simp only [Item.listed, List.mem_cons, List.mem_append, List.not_mem_nil, or_false] at inItem
        rcases inItem with same | inItem | same
        · exact absurd (.inr ⟨_, member, same ▸ min_le_left _ _, same ▸ le_max_left _ _⟩) stray
        · refine List.mem_append_left _ (List.mem_append_right _ (List.mem_flatMap.mpr ⟨_, member, ?_⟩))
          exact List.mem_cons_of_mem _ (List.mem_append_left _ (wider (by decide : 15 ≤ ch '\\') inItem))
        · exact absurd (.inr ⟨_, member, same ▸ min_le_right _ _, same ▸ le_max_right _ _⟩) stray
  · refine List.mem_append_right _ ?_
    split_ifs at trail ⊢ with there
    · exact wider (by decide) trail
    · cases trail

theorem returnBase {u : Base} (listed : 0xD ∈ u.listed) (stray : ¬ u.Denotes 0xD) : 0xE ∈ u.listed := by
  cases u with
  | single l => exact absurd (List.mem_singleton.mp listed) stray
  | set s => exact returnStray listed stray

theorem itemSome (i : Item) : ∃ c, c ∈ i.listed := by
  cases i with
  | one l => exact ⟨_, List.mem_singleton_self _⟩
  | range b e => exact ⟨_, List.mem_cons_self⟩

theorem listedSome {u : Base} {c : wxChar} (denoted : u.Denotes c) (other : c ≠ ch '-') : u.listed ≠ [] := by
  cases u with
  | single l => exact List.cons_ne_nil _ _
  | set s =>
    rcases denoted with ⟨same, -⟩ | ⟨i, member, -⟩
    · exact absurd same other
    · obtain ⟨d, inside⟩ := itemSome i
      exact List.ne_nil_of_mem (List.mem_append_left _ (List.mem_append_right _
        (List.mem_flatMap.mpr ⟨i, member, inside⟩)))

theorem unitMade (seed : ℤ) (u : RegexUnit) : Made u (unitGen seed u) ↔
    ∀ c, c ∈ initCharacters (XmlNode.endsOfLines u.base.listed) ↔ u.base.Denotes c := by
  obtain ⟨low, high, ordered⟩ := lowerFits u.length
  have lowNat := toUShortCount low
  have highNat := toUShortCount high
  have le : toUShort u.length.lower ≤ toUShort u.length.upper := by
    rw [UInt16.le_iff_toNat_le, lowNat, highNat]
    exact ordered
  have minSame : min (toUShort u.length.lower) (toUShort u.length.upper) = toUShort u.length.lower := if_pos le
  have maxSame : max (toUShort u.length.lower) (toUShort u.length.upper) = toUShort u.length.upper := if_pos le
  have sizes : (unitGen seed u).sizes = .create u.length.lower u.length.upper false seed := by
    rw [unitGen, PgsStringGen.create]
    dsimp only
    rw [minSame, maxSame, lowNat, highNat]
  have lower : (unitGen seed u).sizes.min = u.length.lower := by
    rw [sizes]
    exact min_eq_left (by exact_mod_cast ordered)
  have upper : (unitGen seed u).sizes.max = u.length.upper := by
    rw [sizes]
    exact max_eq_right (by exact_mod_cast ordered)
  exact ⟨fun made => made.characters, fun same => ⟨same, lower, upper⟩⟩

theorem madeFine (seed : ℤ) (u : RegexUnit) (allowed : ∀ c ∈ u.base.listed, XmlNode.Allowed c) :
    Made u (unitGen seed u) ↔ Fine u := by
  rw [unitMade]
  constructor
  · intro same
    have noReturn : 0xD ∉ u.base.listed := fun listed => by
      have stray : ¬ u.base.Denotes 0xD := fun denoted => by
        have kept := (same 0xD).mpr denoted
        rw [initCharacters] at kept
        split_ifs at kept
        · exact absurd kept (by decide)
        · exact XmlNode.noReturnAsRead _ kept
      exact absurd (allowed _ (returnBase listed stray)) (by decide)
    rw [XmlNode.endsOfLinesSame noReturn] at same
    have some_ : u.base.listed ≠ [] := fun none => by
      rw [none] at same
      exact listedSome ((same (ch '0')).mp (by decide)) (by decide) none
    rw [initCharacters, if_neg some_] at same
    obtain ⟨c, member⟩ := List.exists_mem_of_ne_nil _ some_
    exact ⟨fun c denoted => ⟨allowed c ((same c).mpr denoted), fun ret => noReturn (ret ▸ (same c).mpr denoted)⟩,
      ⟨c, (same c).mp member⟩, (baseFine u.base).mpr same⟩
  · intro fine
    have same := (baseFine u.base).mp fine.hyphens
    obtain ⟨c, denoted⟩ := fine.some_
    rw [XmlNode.endsOfLinesSame fun listed => (fine.xml _ ((same _).mp listed)).2 rfl, initCharacters,
      if_neg (List.ne_nil_of_mem ((same c).mpr denoted))]
    exact same

theorem createRead {load : List wxChar → Option XmlNode} (uninitialised seed : ℤ) {units : List RegexUnit}
    (read : load (toXml (regexText units)) = some (document units).asRead) :
    create load uninitialised (regexText units) seed = some (units.map (unitGen seed)) := by
  rw [create, read, ← gensRead uninitialised]
  rfl

/- One generator for each unit, in order, with its characters and its lengths. -/
def Parsed (load : List wxChar → Option XmlNode) (uninitialised seed : ℤ) (units : List RegexUnit) : Prop :=
  ∃ gens, create load uninitialised (regexText units) seed = some gens ∧ List.Forall₂ Made units gens

theorem unitsParsed (load : List wxChar → Option XmlNode) (uninitialised seed : ℤ) (units : List RegexUnit)
    (reads : XmlNode.Reads load (document units) ((document units).render ++ wxT "\n")) :
    Parsed load uninitialised seed units ↔ ∀ u ∈ units, Fine u := by
  rw [← toXmlRender] at reads
  have all : List.Forall₂ Made units (units.map (unitGen seed)) ↔ ∀ u ∈ units, Made u (unitGen seed u) := by
    rw [List.forall₂_map_right_iff, List.forall₂_same]
  by_cases readable : (document units).Readable
  · have allowed := (documentReadable units).mp readable
    have made := createRead uninitialised seed (reads.accepted readable)
    constructor
    · rintro ⟨gens, created, matched⟩
      cases made.symm.trans created
      exact fun u member => (madeFine seed u (allowed u member)).mp (all.mp matched u member)
    · intro fine
      exact ⟨_, made, all.mpr fun u member => (madeFine seed u (allowed u member)).mpr (fine u member)⟩
  · constructor
    · rintro ⟨gens, created, -⟩
      rw [create, reads.refused readable] at created
      cases created
    · intro fine
      refine absurd ((documentReadable units).mpr fun u member c listed => ?_) readable
      exact ((fine u member).xml c (((baseFine u.base).mp (fine u member).hyphens c).mp listed)).1

theorem plainHyphens (s : CharSet) (lead : s.lead = false) (trail : s.trail = false)
    (ends : ∀ b c, Item.range b (.escaped c) ∈ s.items → c = ch '\\') : s.HyphensFine := by
  refine ⟨fun there => absurd there (by simp [lead]), fun there => absurd there (by simp [trail]),
    fun there => absurd there (by simp [lead, trail]), fun b c member => ?_⟩
  cases ends b c member
  refine ⟨fun d inside => .inr ⟨_, member, ?_⟩, fun d inside => ?_⟩
  · have within := memBetween.mp inside
    exact ⟨within.1.le, within.2.le⟩
  · exact List.mem_append_left _ (List.mem_append_right _ (List.mem_flatMap.mpr
      ⟨_, member, List.mem_cons_of_mem _ (List.mem_append_left _ inside)⟩))

def lettersUnit : RegexUnit :=
  ⟨.set ⟨false, [.range (.plain (ch 'a') (by decide)) (.plain (ch 'c') (by decide))], false⟩,
    .exactly ⟨wxT "2", by decide, by decide, by decide⟩⟩

theorem lettersParsed : Parsed (fun _ => some (document [lettersUnit]).asRead) 0 5 [lettersUnit] := by
  refine (unitsParsed _ 0 5 [lettersUnit] ⟨fun _ => rfl, fun refused => absurd ?_ refused⟩).mpr ?_
  · exact (documentReadable _).mpr (by decide)
  · intro u member
    cases List.mem_singleton.mp member
    have range : ∀ c, lettersUnit.base.Denotes c → c ∈ [ch 'a', ch 'b', ch 'c'] := fun c denoted =>
      ((baseFine lettersUnit.base).mp (plainHyphens _ rfl rfl (by simp)) c).mpr denoted
    have fine : ∀ c ∈ [ch 'a', ch 'b', ch 'c'], XmlNode.Allowed c ∧ c ≠ 0xD := by decide
    exact ⟨fun c denoted => fine c (range c denoted), ⟨ch 'a', .inr ⟨_, List.mem_cons_self, by decide⟩⟩,
      plainHyphens _ rfl rfl (by simp)⟩

/- [Z-\\]]: the range ends in an escaped bracket, and the backslash before it is taken for its end. -/
def escapedEndUnit : RegexUnit :=
  ⟨.set ⟨false, [.range (.plain (ch 'Z') (by decide)) (.escaped (ch ']'))], false⟩, .one⟩

theorem escapedEndLost : ¬ ∀ load uninitialised seed units,
    XmlNode.Reads load (document units) ((document units).render ++ wxT "\n") →
      Parsed load uninitialised seed units := by
  intro all
  have readable : (document [escapedEndUnit]).Readable := (documentReadable _).mpr (by decide)
  obtain ⟨gens, created, made⟩ := all (fun _ => some (document [escapedEndUnit]).asRead) 0 5 [escapedEndUnit]
    ⟨fun _ => rfl, fun refused => absurd readable refused⟩
  cases (@createRead (fun _ => some (document [escapedEndUnit]).asRead) 0 5 _ rfl).symm.trans created
  have backslash := ((List.forall₂_cons.mp made).1.characters (ch '\\')).mpr
    (.inr ⟨_, List.mem_cons_self, by decide⟩)
  revert backslash
  decide

end PgAdmin.PgsRegexGen
