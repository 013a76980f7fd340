import SpectrumBasic.Proofs.Statement.Binding

/-! What a statement comes down to. Behind any number of `IF`s whose conditions hold there is one
command that is carried out, and all that happens before is that random numbers are drawn. The bound
on the depth of `IF`s inside one another never cuts a statement off. -/

namespace SpectrumBasic

open Attempt (outcome outcome_bind_ok outcome_bind_error)

theorem Command.name_of_find? {word : String} {command : Command} (h : find? word = some command) :
    command.name = word := by
  simpa using List.find?_some h

theorem Command.find?_name (command : Command) : find? command.name = some command := by
  cases command <;> rfl

namespace Statement

/-- Executes a statement, with `nested` for the one behind its `THEN`. -/
def executeWith (nested : Text → Action Flow) (text : Text) : Action Flow :=
  match Token.lex text with
  | [] => return .next
  | ⟨span, .name word⟩ :: tokens =>
    match Command.find? word with
    | some command => bindArguments text command tokens >>= perform nested command
    | none => throw { kind := .unknownCommand, span }
  | t :: _ => throw (.syntaxAt t.span .expectedCommand)

theorem executeWithin_succ (depth : Nat) (text : Text) :
    executeWithin (depth + 1) text = executeWith (executeWithin depth) text := by
  unfold executeWithin executeWith
  rfl

/-- The statement gets to no command. It does nothing, or it fails, and only random numbers are
drawn. -/
def Idles (text : Text) (c : Context) : Prop :=
  ∃ result n, (result = .ok .next ∨ ∃ f, result = .error f) ∧
    ∀ nested, outcome (executeWith nested text) c = (result, { c with random := c.random.skip n })

theorem executeWith_command {text : Text} {span : Span} {command : Command} {tokens : List Token}
    (h : Token.lex text = ⟨span, .name command.name⟩ :: tokens) (nested : Text → Action Flow) :
    executeWith nested text = bindArguments text command tokens >>= perform nested command := by
  rw [executeWith, h]
  dsimp only
  rw [Command.find?_name]

theorem executeWithin_command {text : Text} {span : Span} {command : Command} {tokens : List Token}
    (h : Token.lex text = ⟨span, .name command.name⟩ :: tokens) (depth : Nat) :
    executeWithin (depth + 1) text =
      bindArguments text command tokens >>= perform (executeWithin depth) command := by
  rw [executeWithin_succ, executeWith_command h]

theorem outcome_executeWith_of_binds {text : Text} {c c' : Context} {command : Command}
    {args : Arguments} (h : Binds text c command args c') (nested : Text → Action Flow) :
    outcome (executeWith nested text) c = outcome (perform nested command args) c' := by
  obtain ⟨span, tokens, hlex, hbind⟩ := h
  rw [executeWith_command hlex, outcome_bind_ok hbind]

/-- A statement idles unless it begins with a command whose arguments can be bound. -/
theorem idles_or_binds (text : Text) (c : Context) :
    Idles text c ∨ ∃ command args c', Binds text c command args c' := by
  have hthrow (f : Fault) (h : ∀ nested, executeWith nested text = throw f) : Idles text c :=
    ⟨.error f, 0, .inr ⟨f, rfl⟩, fun nested => by rw [h]; rfl⟩
  cases hlex : Token.lex text with
  | nil => exact .inl ⟨.ok .next, 0, .inl rfl, fun nested => by rw [executeWith, hlex]; rfl⟩
  | cons t tokens =>
    obtain ⟨span, kind⟩ := t
    cases kind with
    | name word =>
      cases hfind : Command.find? word with
      | none =>
        refine .inl (hthrow { kind := .unknownCommand, span } fun nested => ?_)
        rw [executeWith, hlex]
        dsimp only
        rw [hfind]
      | some command =>
        obtain rfl := Command.name_of_find? hfind
        cases hbind : outcome (bindArguments text command tokens) c with
        | mk result c' =>
          cases result with
          | ok args => exact .inr ⟨command, args, c', span, tokens, hlex, hbind⟩
          | error f =>
            obtain ⟨n, hn⟩ := bindArguments_draws text command tokens c
            rw [hbind] at hn
            subst hn
            refine .inl ⟨.error f, n, .inr ⟨f, rfl⟩, fun nested => ?_⟩
            rw [executeWith_command hlex, outcome_bind_error hbind]
    | _ => exact .inl (hthrow _ fun nested => by rw [executeWith, hlex])

/-! ### The bound on the depth -/

/-- Only an `IF` looks at the statement inside it. -/
theorem outcome_perform_congr {nested nested' : Text → Action Flow} {command : Command}
    {args : Arguments}
    (h : command = .ifThen →
      ∀ c, outcome (nested (args.rest 2)) c = outcome (nested' (args.rest 2)) c)
    (c : Context) :
    outcome (perform nested command args) c = outcome (perform nested' command args) c := by
  cases command with
  | ifThen =>
    unfold perform
    dsimp only
    split
    · rfl
    · rw [Action.outcome_inStatement, Action.outcome_inStatement, h rfl]
  | _ => rfl

/-- A statement inside another one is shorter. -/
theorem outcome_executeWith_congr {nested nested' : Text → Action Flow} {text : Text}
    (h : ∀ rest : Text, rest.length < text.length →
      ∀ c, outcome (nested rest) c = outcome (nested' rest) c) (c : Context) :
    outcome (executeWith nested text) c = outcome (executeWith nested' text) c := by
  obtain ⟨result, n, _, hidle⟩ | ⟨command, args, c', hbinds⟩ := idles_or_binds text c
  · rw [hidle, hidle]
  · rw [outcome_executeWith_of_binds hbinds, outcome_executeWith_of_binds hbinds]
    exact outcome_perform_congr (fun _ => h _ (hbinds.length_rest_lt 2)) c'

/-- Every depth beyond the length of the statement does. -/
theorem outcome_executeWithin_congr (text : Text) (depth depth' : Nat) (h : text.length < depth)
    (h' : text.length < depth') (c : Context) :
    outcome (executeWithin depth text) c = outcome (executeWithin depth' text) c := by
  induction depth generalizing text depth' c with
  | zero => omega
  | succ depth ih =>
    obtain ⟨k, rfl⟩ : ∃ k, depth' = k + 1 := ⟨depth' - 1, by omega⟩
    rw [executeWithin_succ, executeWithin_succ]
    exact outcome_executeWith_congr (fun rest hrest => ih rest k (by omega) (by omega)) c

/-- A statement inside another one is executed like any other. -/
theorem outcome_execute (text : Text) (c : Context) :
    outcome (execute text) c = outcome (executeWith execute text) c := by
  rw [execute, executeWithin_succ]
  refine outcome_executeWith_congr (fun rest hrest => ?_) c
  exact outcome_executeWithin_congr rest _ _ hrest (Nat.lt_succ_self _)

/-- A statement whose arguments are bound carries its command out, and an `IF` the statement behind
its `THEN`. -/
theorem outcome_execute_of_binds {text : Text} {c c' : Context} {command : Command}
    {args : Arguments} (h : Binds text c command args c') :
    outcome (execute text) c = outcome (perform execute command args) c' := by
  rw [outcome_execute, outcome_executeWith_of_binds h]

/-! ### The command that is carried out -/

/-- The statement `text`, executed in the context `c`, comes down to one command, which is carried
out with `args` in the context `c'`. It is the command of the statement itself, unless that is an
`IF` whose condition holds. -/
inductive ComesTo : Text → Context → Command → Arguments → Context → Prop
  | own {text : Text} {c c' : Context} {command : Command} {args : Arguments}
      (h : Binds text c command args c') (hif : command = .ifThen → (args.number 0 == 0.0) = true) :
    ComesTo text c command args c'
  | behindThen {text : Text} {c c₁ c' : Context} {command : Command} {args args' : Arguments}
      (h : Binds text c .ifThen args c₁) (hif : (args.number 0 == 0.0) = false)
      (hrest : ComesTo (args.rest 2) c₁ command args' c') :
    ComesTo text c command args' c'

section ComesTo

variable {text : Text} {c c' c'' : Context} {command : Command} {args : Arguments}

theorem ComesTo.draws (h : ComesTo text c command args c') :
    ∃ n, c' = { c with random := c.random.skip n } := by
  induction h with
  | own h hif => exact h.draws
  | behindThen h hif hrest ih =>
    obtain ⟨n, rfl⟩ := h.draws
    obtain ⟨n', rfl⟩ := ih
    exact ⟨n + n', by rw [Generator.skip_add]⟩

/-- The command that is carried out is no `IF` whose condition holds. -/
theorem ComesTo.number_zero (h : ComesTo text c command args c') (hif : command = .ifThen) :
    (args.number 0 == 0.0) = true := by
  induction h with
  | own h hown => exact hown hif
  | behindThen h _ _ ih => exact ih hif

theorem outcome_perform_ifThen {nested : Text → Action Flow} (hif : (args.number 0 == 0.0) = false) :
    outcome (perform nested .ifThen args) c =
      ((outcome (nested (args.rest 2)) c).1.mapError (·.inStatement (args.rest 2)),
        (outcome (nested (args.rest 2)) c).2) := by
  unfold perform
  dsimp only
  rw [if_neg (by simp [hif]), Action.outcome_inStatement]

/-- The statement succeeds as its command does. -/
theorem ComesTo.outcome_ok {flow : Flow} (h : ComesTo text c command args c')
    (hp : outcome (perform execute command args) c' = (.ok flow, c'')) :
    outcome (execute text) c = (.ok flow, c'') := by
  induction h with
  | own h hif => rw [outcome_execute_of_binds h, hp]
  | behindThen h hif hrest ih =>
    rw [outcome_execute_of_binds h, outcome_perform_ifThen hif, ih hp]
    rfl

/-- The statement fails as its command does; the `IF`s only attach a statement to the fault. -/
theorem ComesTo.outcome_error {f : Fault} (h : ComesTo text c command args c')
    (hp : outcome (perform execute command args) c' = (.error f, c'')) :
    ∃ statement, outcome (execute text) c = (.error { f with statement }, c'') := by
  induction h with
  | own h hif => exact ⟨f.statement, by rw [outcome_execute_of_binds h, hp]⟩
  | @behindThen text _ _ _ _ args _ h hif hrest ih =>
    obtain ⟨statement, hrest⟩ := ih hp
    rw [outcome_execute_of_binds h, outcome_perform_ifThen hif, hrest]
    cases statement with
    | none => exact ⟨some (args.rest 2), rfl⟩
    | some inner => exact ⟨some inner, rfl⟩

/-- If the statement fails then its command does. -/
theorem ComesTo.perform_error {f : Fault} (h : ComesTo text c command args c')
    (he : outcome (execute text) c = (.error f, c'')) :
    ∃ f', outcome (perform execute command args) c' = (.error f', c'') := by
  cases hp : outcome (perform execute command args) c' with
  | mk result c₁ =>
    cases result with
    | ok flow =>
      rw [h.outcome_ok hp] at he
      cases he
    | error f' =>
      obtain ⟨statement, herror⟩ := h.outcome_error hp
      rw [herror] at he
      cases he
      exact ⟨f', rfl⟩

end ComesTo

/-- Every statement idles or comes down to a command. -/
theorem execute_cases (text : Text) (c : Context) :
    (∃ n, outcome (execute text) c = (.ok .next, { c with random := c.random.skip n })) ∨
    (∃ f n, outcome (execute text) c = (.error f, { c with random := c.random.skip n })) ∨
    ∃ command args c', ComesTo text c command args c' := by
  -- The statement behind `THEN` is cut out of the text anew, so only its length is smaller.
  obtain ⟨k, hk⟩ : ∃ k, text.length = k := ⟨_, rfl⟩
  induction k using Nat.strongRecOn generalizing text c with
  | ind k ih =>
    obtain ⟨result, n, hresult, hidle⟩ | ⟨command, args, c₁, hbinds⟩ := idles_or_binds text c
    · obtain rfl | ⟨f, rfl⟩ := hresult
      · exact .inl ⟨n, (outcome_execute text c).trans (hidle _)⟩
      · exact .inr (.inl ⟨f, n, (outcome_execute text c).trans (hidle _)⟩)
    · by_cases hif : command = .ifThen ∧ (args.number 0 == 0.0) = false
      · obtain ⟨rfl, hif⟩ := hif
        have hlength := hbinds.length_rest_lt 2
        have hperform : outcome (perform execute .ifThen args) c₁ = _ := outcome_perform_ifThen hif
        obtain ⟨n, rfl⟩ := hbinds.draws
        obtain ⟨n', hrest⟩ | ⟨f, n', hrest⟩ | ⟨command, args', c', hrest⟩ :=
          ih _ (by omega) (args.rest 2) { c with random := c.random.skip n } rfl
        · refine .inl ⟨n + n', ?_⟩
          rw [outcome_execute_of_binds hbinds, hperform, hrest, Generator.skip_add]
          rfl
        · refine .inr (.inl ⟨f.inStatement (args.rest 2), n + n', ?_⟩)
          rw [outcome_execute_of_binds hbinds, hperform, hrest, Generator.skip_add]
          rfl
        · exact .inr (.inr ⟨command, args', c', .behindThen hbinds hif hrest⟩)
      · refine .inr (.inr ⟨command, args, c₁, .own hbinds fun hcommand => ?_⟩)
        simpa [hcommand] using hif

end Statement

end SpectrumBasic
