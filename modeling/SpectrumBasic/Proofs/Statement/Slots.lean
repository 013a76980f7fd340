import SpectrumBasic.Proofs.Statement.Nesting

/-! The form of the arguments that a statement is carried out with. They fill the slots of the command
from the front, each slot with an argument of its own kind, and their number is one that the command
takes. So a command finds in a slot what it looks for there. -/

namespace SpectrumBasic

open Attempt (outcome exists_of_outcome_bind_ok)

/-- The argument is of the kind that the slot asks for. -/
inductive Slot.Admits : Slot → Argument → Prop
  | number (x : Float) : Admits .number (.number x)
  | name (n : String) : Admits .name (.name n)
  | mark (kind : Token.Kind) : Admits (.mark kind) .mark
  | rest (text : Text) : Admits .rest (.rest text)

namespace Arguments

/-- The arguments fill the slots from the front, perhaps not all of them. -/
inductive Fills : List Slot → Arguments → Prop
  | none (slots : List Slot) : Fills slots []
  | next {slot : Slot} {slots : List Slot} {argument : Argument} {args : Arguments}
      (hfirst : slot.Admits argument) (hmore : Fills slots args) : Fills (slot :: slots) (argument :: args)

theorem admits_of_fillSlot {vars : Variables} {text : Text} {slot : Slot} {p : Phrase}
    {argument : Argument} {g g' : Generator}
    (h : outcome (fillSlot vars text slot p) g = (.ok argument, g')) : slot.Admits argument := by
  unfold fillSlot at h
  cases slot with
  | number =>
    cases p with
    | token t => cases h
    | expression first more =>
      obtain ⟨x, g₁, _, h⟩ := exists_of_outcome_bind_ok h
      cases h
      exact .number x
  | name =>
    dsimp only at h
    split at h
    · cases h
      exact .name _
    · cases h
  | mark kind =>
    cases p with
    | token t =>
      dsimp only at h
      split at h
      · cases h
        exact .mark kind
      · cases h
    | expression first more => cases h
  | rest =>
    cases h
    exact .rest _

theorem fills_of_fill {vars : Variables} {text : Text} {slots : List Slot} {ps : List Phrase}
    {args : Arguments} {g g' : Generator}
    (h : outcome (fill vars text slots ps) g = (.ok args, g')) : Fills slots args := by
  induction slots generalizing ps g g' args with
  | nil =>
    cases ps with
    | nil =>
      cases h
      exact .none _
    | cons p ps => cases h
  | cons slot slots ih =>
    cases ps with
    | nil =>
      cases h
      exact .none _
    | cons p ps =>
      obtain ⟨argument, g₁, hslot, h⟩ := exists_of_outcome_bind_ok h
      have hadmits := admits_of_fillSlot hslot
      split at h
      · cases h
        exact .next hadmits (.none _)
      · obtain ⟨arguments, g₂, hfill, h⟩ := exists_of_outcome_bind_ok h
        cases h
        exact .next hadmits (ih hfill)

theorem length_mem_of_ofPhrases {vars : Variables} {c : Command} {text : Text} {ps : List Phrase}
    {args : Arguments} {g g' : Generator}
    (h : outcome (ofPhrases vars c text ps) g = (.ok args, g')) : args.length ∈ c.arity := by
  obtain ⟨filled, g₁, _, h⟩ := exists_of_outcome_bind_ok h
  split at h
  · rename_i harity
    cases h
    exact harity
  · cases h

end Arguments

namespace Statement

open Arguments (Fills)

section Binds

variable {text : Text} {c c' : Context} {command : Command} {args : Arguments}

theorem Binds.outcome_ofPhrases (h : Binds text c command args c') :
    ∃ ps g g', outcome (Arguments.ofPhrases c.vars command text ps) g = (.ok args, g') := by
  obtain ⟨span, tokens, _, hbind⟩ := h
  rw [bindArguments, Action.outcome_ofDraw] at hbind
  have hargs : (outcome (Arguments.ofPhrases c.vars command text
      (Phrase.ofTokens command.assigns tokens)) c.random).1 = .ok args := congrArg Prod.fst hbind
  exact ⟨_, _, _, Prod.ext hargs rfl⟩

/-- The arguments of a statement have the form of its command. -/
theorem Binds.fills (h : Binds text c command args c') :
    Fills command.form args ∧ args.length ∈ command.arity := by
  obtain ⟨ps, g, g', hargs⟩ := h.outcome_ofPhrases
  exact ⟨Arguments.fills_of_fill (Arguments.outcome_fill_of_ofPhrases hargs),
    Arguments.length_mem_of_ofPhrases hargs⟩

theorem ComesTo.fills (h : ComesTo text c command args c') :
    Fills command.form args ∧ args.length ∈ command.arity := by
  induction h with
  | own h _ => exact h.fills
  | behindThen _ _ _ ih => exact ih

/-- A `NEXT` has one argument, the name of its variable. -/
theorem ComesTo.next_args (h : ComesTo text c .next args c') : ∃ name, args = [.name name] := by
  obtain ⟨hfills, hlength⟩ := h.fills
  cases hfills with
  | none => simp [Command.arity] at hlength
  | next hfirst hmore =>
    cases hfirst with
    | name name =>
      cases hmore
      exact ⟨name, rfl⟩

end Binds

end Statement

end SpectrumBasic
