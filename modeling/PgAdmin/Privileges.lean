import Mathlib

/-! Privileges that roles hold, with or without the option to grant them on, and what a run of
grants and revokes makes of them. -/
namespace PgAdmin.Privileges

section Holdings
variable {γ ρ : Type}

abbrev Holdings (γ ρ : Type) := Set (γ × ρ × Bool)

def Gives (rights : List (ρ × Bool)) (c : ρ) (option : Bool) : Prop :=
  ∃ with' : Bool, (c, with') ∈ rights ∧ (option = true → with' = true)

inductive Command (γ ρ : Type) where
  | grant (who : γ) (rights : List (ρ × Bool))
  | revoke (who : γ)

def Command.who : Command γ ρ → γ
  | grant who _ => who
  | revoke who => who

def Command.Grants : Command γ ρ → γ × ρ × Bool → Prop
  | grant who rights, (g, c, option) => g = who ∧ Gives rights c option
  | revoke _, _ => False

def Command.Revokes : Command γ ρ → γ → Prop
  | grant _ _, _ => False
  | revoke who, g => g = who

def Command.apply (held : Holdings γ ρ) (command : Command γ ρ) : Holdings γ ρ :=
  {t | (t ∈ held ∧ ¬ command.Revokes t.1) ∨ command.Grants t}

def run (held : Holdings γ ρ) (commands : List (Command γ ρ)) : Holdings γ ρ :=
  commands.foldl Command.apply held

variable {held : Holdings γ ρ} {commands : List (Command γ ρ)} {t : γ × ρ × Bool}

theorem Command.grantsWho {command : Command γ ρ} (grants : command.Grants t) :
    t.1 = command.who := by
  cases command with
  | grant who rights => exact grants.1
  | revoke who => exact grants.elim

theorem runAppend (held : Holdings γ ρ) (commands more : List (Command γ ρ)) :
    run held (commands ++ more) = run (run held commands) more := List.foldl_append

theorem runHeld (last : t ∈ run held commands) :
    t ∈ held ∨ ∃ command ∈ commands, command.Grants t := by
  induction commands generalizing held with
  | nil => exact .inl last
  | cons command commands ih =>
    rcases ih last with (⟨before, _⟩ | grants) | ⟨later, member, grants⟩
    · exact .inl before
    · exact .inr ⟨command, List.mem_cons_self, grants⟩
    · exact .inr ⟨later, List.mem_cons_of_mem command member, grants⟩

theorem runUnrevoked (kept : ∀ command ∈ commands, ¬ command.Revokes t.1) :
    t ∈ run held commands ↔ t ∈ held ∨ ∃ command ∈ commands, command.Grants t := by
  refine ⟨runHeld, ?_⟩
  induction commands generalizing held with
  | nil => simp [run]
  | cons command commands ih =>
    intro source
    refine ih (fun later member => kept later (List.mem_cons_of_mem command member)) ?_
    rcases source with before | ⟨granting, member, grants⟩
    · exact .inl (.inl ⟨before, kept command List.mem_cons_self⟩)
    · rcases List.mem_cons.mp member with rfl | member
      · exact .inl (.inr grants)
      · exact .inr ⟨granting, member, grants⟩

theorem runOther {g : γ} (apart : ∀ command ∈ commands, command.who ≠ g) (x : ρ × Bool) :
    (g, x) ∈ run held commands ↔ (g, x) ∈ held := by
  have kept : ∀ command ∈ commands, ¬ command.Revokes g := by
    intro command member revokes
    cases command with
    | grant who rights => exact revokes
    | revoke who => exact apart _ member revokes.symm
  rw [runUnrevoked kept]
  refine ⟨fun either => either.elim id ?_, .inl⟩
  rintro ⟨command, member, grants⟩
  exact absurd (Command.grantsWho grants).symm (apart command member)

theorem runRevoked {who : γ} (none : ∀ command ∈ commands, ¬ command.Grants (who, t.2)) :
    (who, t.2) ∉ run held (.revoke who :: commands) := by
  intro last
  rcases runHeld (show _ ∈ run (Command.apply held (.revoke who)) commands from last)
    with (⟨_, kept⟩ | grants) | ⟨later, member, grants⟩
  · exact kept rfl
  · exact grants
  · exact none later member grants

end Holdings
end PgAdmin.Privileges
