import SpectrumBasic.Proofs.Expression.Evaluation
import SpectrumBasic.Proofs.Expression.Order
import SpectrumBasic.Proofs.Program.Line
import SpectrumBasic.Proofs.Statement.Data
import SpectrumBasic.Proofs.Token.Numeral
import SpectrumBasic.Proofs.Token.Span

/-! What the faults of a statement point at. A fault that arises while arguments are bound points at
tokens of the text that they are cut from; one that a command raises points nowhere, unless it is the
fault in the `DATA` of the program. So once a text is attached to a fault its columns are columns of
that text: of the statement itself or of what stands behind the innermost `THEN` that was reached. -/

namespace SpectrumBasic

open Attempt (outcome outcome_bind outcome_liftExcept outcome_bind_ok outcome_bind_error)
open Expression (Draw Tree)
open Token (Placed Covers Legible)

/-! ### Faults of computations -/

namespace Attempt

/-- Every fault of the computation has the property. -/
def FailsWith {σ α : Type} (E : Fault → Prop) (x : Attempt σ α) : Prop :=
  ∀ s f s', outcome x s = (.error f, s') → E f

namespace FailsWith

variable {σ α β : Type} {E : Fault → Prop}

theorem pure (a : α) : FailsWith E (pure a : Attempt σ α) := by
  intro s f s' h
  cases h

theorem throw {f : Fault} (hf : E f) : FailsWith E (throw f : Attempt σ α) := by
  intro s f' s' h
  cases h
  exact hf

theorem liftExcept {r : Except Fault α} (hr : ∀ f, r = .error f → E f) :
    FailsWith E (liftExcept r : Attempt σ α) := by
  intro s f s' h
  rw [outcome_liftExcept] at h
  exact hr f (congrArg Prod.fst h)

theorem bind {x : Attempt σ α} {k : α → Attempt σ β} (hx : FailsWith E x)
    (hk : ∀ a, FailsWith E (k a)) : FailsWith E (x >>= k) := by
  intro s f s' h
  rw [outcome_bind] at h
  split at h
  · exact hk _ _ f s' h
  · rename_i f' s₁ hfirst
    cases h
    exact hx s f s' hfirst

theorem ite {p : Prop} [Decidable p] {x y : Attempt σ α} (hx : FailsWith E x)
    (hy : FailsWith E y) : FailsWith E (if p then x else y) := by
  split
  · exact hx
  · exact hy

end FailsWith

end Attempt

open Attempt (FailsWith)

namespace Fault

/-- A syntax error with no statement attached. It points nowhere or at some of the tokens, and no
numeral is to blame. -/
structure Points (ts : List Token) (f : Fault) : Prop where
  kind : f.kind = .syntaxError
  statement : f.statement = none
  span : f.span = .nowhere ∨ Covers ts f.span
  reason : f.reason ≠ .invalidNumber

/-- A fault that has no statement attached and points nowhere, for which no numeral is to blame. -/
structure IsBare (f : Fault) : Prop where
  statement : f.statement = none
  span : f.span = .nowhere
  reason : f.reason ≠ .invalidNumber

theorem span_inStatement (f : Fault) (text : Text) : (f.inStatement text).span = f.span := by
  unfold inStatement
  split <;> rfl

theorem reason_inStatement (f : Fault) (text : Text) : (f.inStatement text).reason = f.reason := by
  unfold inStatement
  split <;> rfl

theorem inStatement_of_none {f : Fault} (h : f.statement = none) (text : Text) :
    (f.inStatement text).statement = some text := by
  simp [inStatement, h]

/-- A text that is attached stays. -/
theorem inStatement_of_ne_none {f : Fault} (h : f.statement ≠ none) (text : Text) :
    f.inStatement text = f := by
  unfold inStatement
  split
  · rename_i hnone
    exact absurd hnone h
  · rfl

theorem points_syntaxAt {ts : List Token} {span : Span} (h : Covers ts span) {reason : Reason}
    (hreason : reason ≠ .invalidNumber) : (syntaxAt span reason).Points ts :=
  ⟨rfl, rfl, .inr h, hreason⟩

theorem points_syntaxOf (ts : List Token) {reason : Reason} (hreason : reason ≠ .invalidNumber) :
    (syntaxOf reason).Points ts := ⟨rfl, rfl, .inl rfl, hreason⟩

end Fault

/-! ### Phrases -/

theorem Token.Covers.mono {ts us : List Token} {span : Span} (h : Covers us span) (hsub : us ⊆ ts) :
    Covers ts span := by
  obtain ⟨⟨t, ht, hstart⟩, ⟨u, hu, hstop⟩, hlt⟩ := h
  exact ⟨⟨t, hsub ht, hstart⟩, ⟨u, hsub hu, hstop⟩, hlt⟩

namespace Phrase

/-- Grouping neither loses nor moves a token. -/
theorem flatMap_tokens_group (ts : List Token) : (group ts).flatMap tokens = ts := by
  fun_induction group ts with
  | case1 => rfl
  | case2 t ts hdivider ih =>
    rw [List.flatMap_cons, ih]
    rfl
  | case3 t ts hdivider first more ps hgroup ih =>
    rw [hgroup, List.flatMap_cons] at ih
    rw [List.flatMap_cons, ← ih]
    rfl
  | case4 t ts hdivider hgroup ih =>
    rw [List.flatMap_cons, ih]
    rfl

theorem flatMap_tokens_ofTokens (assigns : Bool) (ts : List Token) :
    (ofTokens assigns ts).flatMap tokens = ts := by
  unfold ofTokens
  split
  · rw [List.flatMap_cons, List.flatMap_cons, flatMap_tokens_group]
    rfl
  · rw [List.flatMap_cons, flatMap_tokens_group]
    rfl
  · exact flatMap_tokens_group _

/-- The tokens of a phrase are some of those that were grouped, in their order. -/
theorem tokens_sublist {assigns : Bool} {ts : List Token} {p : Phrase} (h : p ∈ ofTokens assigns ts) :
    p.tokens.Sublist ts := by
  obtain ⟨before, after, hps⟩ := List.append_of_mem h
  have hflat := flatMap_tokens_ofTokens assigns ts
  rw [hps, List.flatMap_append, List.flatMap_cons] at hflat
  rw [← hflat]
  exact (List.sublist_append_left _ _).trans (List.sublist_append_right _ _)

/-- A phrase covers its tokens from the first to the last. -/
theorem covers_span {s : Text} {p : Phrase} (h : Placed s p.tokens) : Covers p.tokens p.span := by
  cases p with
  | token t => exact h.covers List.mem_cons_self
  | expression first more =>
    have hfirst := h.covers (t := first) List.mem_cons_self
    cases hlast : more.getLast? with
    | none =>
      have hspan : (expression first more).span = first.span := by simp [span, hlast]
      rw [hspan]
      exact hfirst
    | some last =>
      have hmem : last ∈ more := List.mem_of_getLast? hlast
      have hbehind : first.span.stop ≤ last.span.start := (List.pairwise_cons.mp h.ordered).1 last hmem
      have hspan : (expression first more).span = ⟨first.span.start, last.span.stop⟩ := by
        simp [span, hlast]
      have hfirst := h.lt first List.mem_cons_self
      have hlast := h.lt last (List.mem_cons_of_mem _ hmem)
      rw [hspan]
      refine ⟨⟨first, List.mem_cons_self, rfl⟩, ⟨last, List.mem_cons_of_mem _ hmem, rfl⟩, ?_⟩
      show first.span.start < last.span.stop
      omega

end Phrase

/-! ### Binding arguments -/

section Points

variable {ts : List Token}

theorem Operator.points_applyUnary (o : Operator) (x : Float) :
    ∀ f, o.applyUnary x = .error f → f.Points ts := by
  intro f h
  cases o <;> cases h <;> exact Fault.points_syntaxOf ts (by simp)

theorem Operator.points_applyBinary (o : Operator) (x y : Float) :
    ∀ f, o.applyBinary x y = .error f → f.Points ts := by
  intro f h
  cases o <;> cases h <;> exact Fault.points_syntaxOf ts (by simp)

/-- A tree fails at one of its tokens. -/
theorem Expression.Tree.failsWith_value (vars : Variables) {missing : Fault}
    (hmissing : missing.Points ts) {t : Tree} (ht : ∀ u ∈ t.tokens, Covers ts u.span)
    (hlegible : Legible t.tokens) : FailsWith (Fault.Points ts) (t.value vars missing) := by
  induction t generalizing missing with
  | empty => exact .throw hmissing
  | node left token isOpen right ihl ihr =>
    have htoken {reason : Fault.Reason} (hreason : reason ≠ .invalidNumber) :
        (Fault.syntaxAt token.span reason).Points ts :=
      Fault.points_syntaxAt (ht token (by simp [tokens])) hreason
    have hleft {reason : Fault.Reason} (hreason : reason ≠ .invalidNumber) :=
      ihl (htoken hreason) (fun u hu => ht u (by simp [tokens, hu]))
        fun u hu => hlegible u (by simp [tokens, hu])
    have hright {reason : Fault.Reason} (hreason : reason ≠ .invalidNumber) :=
      ihr (htoken hreason) (fun u hu => ht u (by simp [tokens, hu]))
        fun u hu => hlegible u (by simp [tokens, hu])
    unfold value
    dsimp only
    split
    · refine .ite (.ite (hright (by simp)) (.bind (.throw (htoken (by simp))) fun _ => hright (by simp)))
        (.ite ?_ ?_)
      · refine .ite ?_ (.bind (.throw (htoken (by simp))) fun _ => ?_)
        all_goals exact .bind (hright (by simp)) fun x => .liftExcept (Operator.points_applyUnary _ x)
      · exact .bind (hleft (by simp)) fun x => .bind (hright (by simp)) fun y =>
          .liftExcept (Operator.points_applyBinary _ x y)
    · next numeral hkind =>
      have hread := hlegible token (by simp [tokens]) numeral hkind
      refine .ite ?_ (.bind (.throw (htoken (by simp))) fun _ => ?_)
      all_goals
        split
        · exact .pure _
        · next hnone =>
          rw [hnone] at hread
          cases hread
    · have hname (name : String) : FailsWith (Fault.Points ts)
          (if name = "RND" then drawUnit else (pure (vars.fetch name) : Draw Float)) :=
        .ite (fun g f g' h => by cases h) (.pure _)
      exact .ite (hname _) (.bind (.throw (htoken (by simp))) fun _ => hname _)
    · exact .throw (htoken (by simp))

theorem Expression.failsWith_evaluate (vars : Variables) {us : List Token}
    (hus : ∀ u ∈ us, Covers ts u.span) (hlegible : Legible us) :
    FailsWith (Fault.Points ts) (evaluate vars us) := by
  intro g f g' h
  cases hbuild : Tree.build us with
  | error f' =>
    obtain ⟨t, ht, rfl⟩ := Tree.exists_of_build_error hbuild
    rw [outcome_evaluate_error hbuild] at h
    cases h
    exact Fault.points_syntaxAt (hus t ht) (by simp)
  | ok tree =>
    have hmem : ∀ u ∈ tree.tokens, u ∈ us := by
      intro u hu
      rw [Tree.tokens_build hbuild] at hu
      exact (List.mem_filter.mp hu).1
    rw [outcome_evaluate_ok hbuild] at h
    exact Tree.failsWith_value vars (Fault.points_syntaxOf ts (by simp)) (fun u hu => hus u (hmem u hu))
      (fun u hu => hlegible u (hmem u hu)) g f g' h

namespace Arguments

variable {text : Text} (hplaced : Placed text ts) (hlegible : Legible ts)
include hplaced hlegible

theorem failsWith_fillSlot (vars : Variables) (slot : Slot) {p : Phrase} (hp : p.tokens.Sublist ts) :
    FailsWith (Fault.Points ts) (fillSlot vars text slot p) := by
  have hspan : Covers ts p.span := (Phrase.covers_span (hplaced.of_sublist hp)).mono hp.subset
  unfold fillSlot
  cases slot with
  | number =>
    cases p with
    | token t => exact .throw (Fault.points_syntaxAt hspan (by simp))
    | expression first more =>
      refine .bind (Expression.failsWith_evaluate vars (fun u hu => ?_) fun u hu => ?_) fun x => .pure _
      · exact hplaced.covers (hp.subset hu)
      · exact hlegible u (hp.subset hu)
  | name =>
    dsimp only
    split
    · exact .pure _
    · exact .throw (Fault.points_syntaxAt hspan (by simp))
  | mark kind =>
    cases p with
    | token t => exact .ite (.pure _) (.throw (Fault.points_syntaxAt hspan (by simp)))
    | expression first more => exact .throw (Fault.points_syntaxAt hspan (by simp))
  | rest => exact .pure _

theorem failsWith_fill (vars : Variables) (slots : List Slot) {ps : List Phrase}
    (hps : ∀ p ∈ ps, p.tokens.Sublist ts) :
    FailsWith (Fault.Points ts) (fill vars text slots ps) := by
  induction slots generalizing ps with
  | nil =>
    cases ps with
    | nil => exact .pure _
    | cons p ps =>
      have hp := hps p List.mem_cons_self
      have hspan : Covers ts p.span := (Phrase.covers_span (hplaced.of_sublist hp)).mono hp.subset
      exact .throw (Fault.points_syntaxAt hspan (by simp))
  | cons slot slots ih =>
    cases ps with
    | nil => exact .pure _
    | cons p ps =>
      have hslot := failsWith_fillSlot hplaced hlegible vars slot (hps p List.mem_cons_self)
      refine .bind hslot fun argument => ?_
      refine .ite (.pure _) (.bind (ih fun q hq => hps q (List.mem_cons_of_mem p hq)) fun _ => .pure _)

theorem failsWith_ofPhrases (vars : Variables) (c : Command) {ps : List Phrase}
    (hps : ∀ p ∈ ps, p.tokens.Sublist ts) :
    FailsWith (Fault.Points ts) (ofPhrases vars c text ps) :=
  .bind (failsWith_fill hplaced hlegible vars c.form hps) fun _ =>
    .ite (.pure _) (.throw (Fault.points_syntaxOf ts (by simp)))

end Arguments

end Points

/-! ### Carrying out a command -/

theorem Variables.isBare_of_store {v : Variables} {name : String} {x : Float} {f : Fault}
    (h : v.store name x = .error f) : f.IsBare := by
  unfold store at h
  split at h <;> cases h
  exact ⟨rfl, rfl, by simp⟩

theorem Arguments.isBare_of_name {args : Arguments} {i : Nat} {f : Fault}
    (h : args.name i = .error f) : f.IsBare := by
  unfold name at h
  split at h <;> cases h
  exact ⟨rfl, rfl, by simp [Fault.syntaxOf]⟩

theorem Action.failsWith_store (name : String) (x : Float) : FailsWith Fault.IsBare (store name x) := by
  intro c f c' h
  rw [outcome_store] at h
  split at h
  · cases h
  · rename_i hstore
    cases h
    exact Variables.isBare_of_store hstore

theorem Action.failsWith_popReturn : FailsWith Fault.IsBare popReturn := by
  intro c f c' h
  rw [outcome_popReturn] at h
  split at h <;> cases h
  exact ⟨rfl, rfl, by simp⟩

namespace Statement

theorem failsWith_continueLoop (name : String) : FailsWith Fault.IsBare (continueLoop name) := by
  intro c f c' h
  rw [outcome_continueLoop] at h
  split at h
  · cases h
    exact ⟨rfl, rfl, by simp⟩
  · split at h
    · cases h
    · split at h
      · cases h
      · rename_i hstore
        cases h
        exact Variables.isBare_of_store hstore

/-- A `READ` fails with the fault in the `DATA`, if there is one, or with a bare fault. -/
theorem fault_of_readInto {names : List String} {c c' : Context} {f : Fault}
    (h : outcome (readInto names) c = (.error f, c')) : c.data = .error f ∨ f.IsBare := by
  induction names generalizing c with
  | nil => cases h
  | cons name names ih =>
    rw [outcome_readInto_cons] at h
    split at h
    · rename_i hread
      obtain ⟨rfl, rfl⟩ : _ ∧ _ := by simpa using h
      cases hdata : c.data with
      | error f' =>
        rw [hdata] at hread
        exact .inl (congrArg _ (Except.error.inj hread))
      | ok cursor =>
        rw [hdata] at hread
        change cursor.read = _ at hread
        unfold DataCursor.read at hread
        split at hread <;> cases hread
        exact .inr ⟨rfl, rfl, by simp⟩
    · split at h
      · rename_i hstore
        cases h
        exact .inr (Variables.isBare_of_store hstore)
      -- Once a value has been taken there is no fault in the data.
      · exact .inr ((ih h).resolve_left nofun)

theorem fault_of_perform {nested : Text → Action Flow} {command : Command} {args : Arguments}
    {c c' : Context} {f : Fault} (hif : command = .ifThen → (args.number 0 == 0.0) = true)
    (h : outcome (perform nested command args) c = (.error f, c')) :
    c.data = .error f ∨ f.IsBare := by
  have hbare {a : Action Flow} (ha : FailsWith Fault.IsBare a) (h : outcome a c = (.error f, c')) :
      c.data = .error f ∨ f.IsBare := .inr (ha c f c' h)
  have hname {k : String → Action Flow} (hk : ∀ name, FailsWith Fault.IsBare (k name)) :
      FailsWith Fault.IsBare (liftExcept (args.name 0) >>= k) :=
    .bind (.liftExcept fun _ => Arguments.isBare_of_name) hk
  cases command with
  | read => exact fault_of_readInto (readInto_error_of_perform h)
  | restore =>
    rw [outcome_perform_restore] at h
    split at h
    · cases h
    · rename_i hdata
      cases h
      exact .inl hdata
  | ifThen =>
    unfold perform at h
    dsimp only at h
    rw [if_pos (hif rfl)] at h
    cases h
  | assign => exact hbare (hname fun name => .bind (Action.failsWith_store name _) fun _ => .pure _) h
  | forTo => exact hbare (hname fun name => .bind (Action.failsWith_store name _) fun _ => .pure _) h
  | next => exact hbare (hname failsWith_continueLoop) h
  | comeBack => exact hbare (.bind Action.failsWith_popReturn fun _ => .pure _) h
  | randomize =>
    unfold perform at h
    dsimp only at h
    split at h <;> cases h
  | _ => cases h

/-! ### Executing a statement -/

/-- Arguments that cannot be bound are to blame on some tokens behind the command, or on none. -/
theorem points_of_bindArguments {text : Text} {command : Command} {t : Token} {tokens : List Token}
    {c c' : Context} {f : Fault} (hlex : Token.lex text = t :: tokens)
    (h : outcome (bindArguments text command tokens) c = (.error f, c')) : f.Points tokens := by
  have hsub : tokens.Sublist (Token.lex text) := by
    rw [hlex]
    exact List.sublist_cons_self _ _
  have hplaced : Placed text tokens := (Token.placed_lex text).of_sublist hsub
  have hlegible : Legible tokens := fun u hu => Token.legible_lex text u (hsub.subset hu)
  have hfails : FailsWith (Fault.Points tokens) (Arguments.ofPhrases c.vars command text
      (Phrase.ofTokens command.assigns tokens)) :=
    Arguments.failsWith_ofPhrases hplaced hlegible c.vars command fun p hp => Phrase.tokens_sublist hp
  rw [bindArguments, Action.outcome_ofDraw] at h
  have hresult : (outcome (Arguments.ofPhrases c.vars command text
      (Phrase.ofTokens command.assigns tokens)) c.random).1 = .error f := congrArg Prod.fst h
  exact hfails _ f _ (Prod.ext hresult rfl)

/-- The text that is being executed when the statement `text` is, in the context `c`: what stands
behind the innermost `THEN` that is reached, or `text` itself if none is. -/
inductive Innermost : Text → Context → Text → Prop
  | own {text : Text} {c : Context}
      (h : ∀ args c', Binds text c .ifThen args c' → (args.number 0 == 0.0) = true) :
    Innermost text c text
  | behindThen {text inner : Text} {c c₁ : Context} {args : Arguments}
      (h : Binds text c .ifThen args c₁) (hif : (args.number 0 == 0.0) = false)
      (hrest : Innermost (args.rest 2) c₁ inner) : Innermost text c inner

/-- A statement that reaches no `THEN` fails at its own tokens, unless the fault is in the data. -/
theorem fault_of_execute_own {text : Text} {c c' : Context} {f : Fault}
    (hown : ∀ args c', Binds text c .ifThen args c' → (args.number 0 == 0.0) = true)
    (h : outcome (execute text) c = (.error f, c')) :
    c.data = .error f ∨
      f.statement = none ∧ (f.span = .nowhere ∨ Covers (Token.lex text) f.span) ∧
        f.reason ≠ .invalidNumber := by
  have hplaced := Token.placed_lex text
  cases hlex : Token.lex text with
  | nil =>
    rw [execute, executeWithin, hlex] at h
    cases h
  | cons t tokens =>
    rw [hlex] at hplaced
    have ht : Covers (t :: tokens) t.span := hplaced.covers List.mem_cons_self
    obtain ⟨span, kind⟩ := t
    cases kind with
    | name word =>
      cases hfind : Command.find? word with
      | none =>
        rw [execute, executeWithin, hlex] at h
        dsimp only at h
        rw [hfind] at h
        cases h
        exact .inr ⟨rfl, .inr ht, by simp⟩
      | some command =>
        obtain rfl := Command.name_of_find? hfind
        cases hbind : outcome (bindArguments text command tokens) c with
        | mk result c₁ =>
          cases result with
          | ok args =>
            have hbinds : Binds text c command args c₁ := ⟨span, tokens, hlex, hbind⟩
            obtain ⟨n, rfl⟩ := hbinds.draws
            rw [outcome_execute_of_binds hbinds] at h
            obtain hdata | hbare := fault_of_perform (fun hif => hown args _ (hif ▸ hbinds)) h
            · exact .inl hdata
            · exact .inr ⟨hbare.statement, .inl hbare.span, hbare.reason⟩
          | error f' =>
            have hpoints := points_of_bindArguments hlex hbind
            rw [execute, executeWithin_command hlex, outcome_bind_error hbind] at h
            cases h
            refine .inr ⟨hpoints.statement, hpoints.span.imp_right fun hspan => ?_, hpoints.reason⟩
            exact hspan.mono (List.subset_cons_self _ _)
    | _ =>
      rw [execute, executeWithin, hlex] at h
      cases h
      exact .inr ⟨rfl, .inr ht, by simp [Fault.syntaxAt]⟩

/-- A fault of a statement is the one in the data, or it has the text attached that was being executed
and points at tokens of that text. No numeral is to blame for it. -/
theorem fault_of_execute {text : Text} {c c' : Context} {f : Fault}
    (hdata : ∀ f, c.data = .error f → f.statement ≠ none)
    (h : outcome (execute text) c = (.error f, c')) :
    c.data = .error f ∨ ∃ inner, Innermost text c inner ∧
      (f.inStatement text).statement = some inner ∧
      (f.span = .nowhere ∨ Covers (Token.lex inner) f.span) ∧ f.reason ≠ .invalidNumber := by
  obtain ⟨k, hk⟩ : ∃ k, text.length = k := ⟨_, rfl⟩
  induction k using Nat.strongRecOn generalizing text c c' f with
  | ind k ih =>
    by_cases hthen : ∃ args c₁, Binds text c .ifThen args c₁ ∧ (args.number 0 == 0.0) = false
    · obtain ⟨args, c₁, hbinds, hif⟩ := hthen
      have hlength := hbinds.length_rest_lt 2
      obtain ⟨n, rfl⟩ := hbinds.draws
      rw [outcome_execute_of_binds hbinds, outcome_perform_ifThen hif] at h
      cases hrest : outcome (execute (args.rest 2)) { c with random := c.random.skip n } with
      | mk result c₂ =>
        rw [hrest] at h
        cases result with
        | ok flow => cases h
        | error f' =>
          obtain ⟨rfl, rfl⟩ : f'.inStatement (args.rest 2) = f ∧ c₂ = c' := by
            simpa [Except.mapError] using h
          obtain herror | ⟨inner, hinner, hstatement, hspan, hreason⟩ :=
            ih (args.rest 2).length (by omega) (c := { c with random := c.random.skip n }) hdata hrest rfl
          · rw [Fault.inStatement_of_ne_none (hdata f' herror)]
            exact .inl herror
          · -- The text behind `THEN` is attached already, so the outer one is not.
            refine .inr ⟨inner, .behindThen hbinds hif hinner, ?_, ?_, ?_⟩
            · rw [Fault.inStatement_of_ne_none (by simp [hstatement])]
              exact hstatement
            · rwa [Fault.span_inStatement]
            · rwa [Fault.reason_inStatement]
    · have hown (args : Arguments) (c₁ : Context) (hbinds : Binds text c .ifThen args c₁) :
          (args.number 0 == 0.0) = true := by
        rw [← Bool.not_eq_false]
        exact fun hif => hthen ⟨args, c₁, hbinds, hif⟩
      obtain herror | ⟨hnone, hspan, hreason⟩ := fault_of_execute_own hown h
      · exact .inl herror
      · exact .inr ⟨text, .own hown, Fault.inStatement_of_none hnone text, hspan, hreason⟩

/-- If what is executed inside a statement begins with a command then the statement comes down to it,
unless the arguments cannot be bound. -/
theorem Innermost.comesTo_or_fails {text inner : Text} {c : Context} {command : Command} {span : Span}
    {tokens : List Token} (h : Innermost text c inner)
    (hlex : Token.lex inner = ⟨span, .name command.name⟩ :: tokens) :
    (∃ args c', ComesTo text c command args c') ∨
      ∃ f c', outcome (execute text) c = (.error f, c') ∧ f.kind = .syntaxError := by
  induction h with
  | @own text c hown =>
    cases hbind : outcome (bindArguments text command tokens) c with
    | mk result c₁ =>
      cases result with
      | ok args =>
        have hbinds : Binds text c command args c₁ := ⟨span, tokens, hlex, hbind⟩
        exact .inl ⟨args, c₁, .own hbinds fun hif => hown args c₁ (hif ▸ hbinds)⟩
      | error f =>
        have hpoints := points_of_bindArguments hlex hbind
        refine .inr ⟨f, c₁, ?_, hpoints.kind⟩
        rw [execute, executeWithin_command hlex, outcome_bind_error hbind]
  | @behindThen text _ c c₁ args hbinds hif _ ih =>
    obtain ⟨args', c', hcomes⟩ | ⟨f, c', herror, hkind⟩ := ih hlex
    · exact .inl ⟨args', c', .behindThen hbinds hif hcomes⟩
    · refine .inr ⟨f.inStatement (args.rest 2), c', ?_, (f.kind_inStatement _).trans hkind⟩
      rw [outcome_execute_of_binds hbinds, outcome_perform_ifThen hif, herror]
      rfl

/-- A fault with a text attached comes out of a statement as it is. -/
theorem ComesTo.outcome_attached {text : Text} {c c' c'' : Context} {command : Command}
    {args : Arguments} {f : Fault} (h : ComesTo text c command args c')
    (hp : outcome (perform execute command args) c' = (.error f, c'')) (hf : f.statement ≠ none) :
    outcome (execute text) c = (.error f, c'') := by
  induction h with
  | own h hif => rw [outcome_execute_of_binds h, hp]
  | @behindThen text _ _ _ _ args _ h hif hrest ih =>
    have hattach : (Except.error f : Except Fault Flow).mapError (·.inStatement (args.rest 2)) =
        .error f := congrArg _ (Fault.inStatement_of_ne_none hf _)
    rw [outcome_execute_of_binds h, outcome_perform_ifThen hif, ih hp, hattach]

/-- What stands behind a `THEN` is a part of the statement, without blanks around it. -/
theorem Binds.rest_trimmed {text : Text} {c c' : Context} {command : Command} {args : Arguments}
    (h : Binds text c command args c') (i : Nat) :
    args.rest i <:+: text ∧ Text.trim (args.rest i) = args.rest i := by
  obtain hnil | ⟨start, _, hrest⟩ := h.rest_cases i
  · rw [hnil]
    exact ⟨List.nil_infix, rfl⟩
  · rw [hrest]
    exact ⟨(Text.trim_isInfix _).trans (Text.dropBytes_isSuffix start text).isInfix, Text.trim_trim _⟩

/-- What is executed inside a statement is a part of it, without blanks around it. -/
theorem Innermost.trimmed {text inner : Text} {c : Context} (h : Innermost text c inner)
    (htext : Text.trim text = text) : inner <:+: text ∧ Text.trim inner = inner := by
  induction h with
  | own => exact ⟨List.infix_rfl, htext⟩
  | behindThen hbinds _ _ ih =>
    obtain ⟨hpart, htrim⟩ := hbinds.rest_trimmed 2
    obtain ⟨hinner, htrim⟩ := ih htrim
    exact ⟨hinner.trans hpart, htrim⟩

end Statement

end SpectrumBasic
