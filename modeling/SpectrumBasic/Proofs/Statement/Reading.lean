import SpectrumBasic.Program
import SpectrumBasic.Proofs.Statement.Execution

/-! Statements that read alike. A change of a text that leaves its tokens as they are makes no
difference to what the text does as a statement: it binds the same arguments, carries out the same
command and fails with the same fault, to which the changed text is attached. Places in the program
may change along with the texts, as long as every place changes in the same way. -/

namespace SpectrumBasic

open Attempt (outcome Alike Agree)
open Expression (Draw Tree)

/-- A fault as a statement raises it, before a text is attached. A break is none. -/
structure Fault.IsRaw (f : Fault) : Prop where
  statement : f.statement = none
  kind : f.kind ≠ .interrupted

theorem Fault.isRaw_syntaxAt (span : Span) (reason : Reason) : (syntaxAt span reason).IsRaw :=
  ⟨rfl, nofun⟩

theorem Fault.isRaw_syntaxOf (reason : Reason) : (syntaxOf reason).IsRaw := ⟨rfl, nofun⟩

theorem Variables.isRaw_of_store {v : Variables} {name : String} {x : Float} {f : Fault}
    (h : v.store name x = .error f) : f.IsRaw := by
  unfold store at h
  split at h
  · cases h
    exact ⟨rfl, nofun⟩
  · cases h

theorem DataCursor.isRaw_of_read {cursor : DataCursor} {f : Fault} (h : cursor.read = .error f) :
    f.IsRaw := by
  unfold read at h
  split at h
  · cases h
  · cases h
    exact ⟨rfl, nofun⟩

/-- A change of texts that leaves the tokens as they are, and what it makes of faults. -/
structure Reading where
  text : Text → Text
  fault : Fault → Fault → Prop
  text_nil : text [] = []
  length_text : ∀ t, (text t).length = t.length
  lex_text : ∀ t, Token.lex (text t) = Token.lex t
  lineNumber_text : ∀ t, Program.lineNumber? (text t) = Program.lineNumber? t
  /-- The rest of a changed statement is the changed rest. -/
  rest_text : ∀ n t, Text.trim (Text.dropBytes n (text t)) = text (Text.trim (Text.dropBytes n t))
  raw : ∀ f : Fault, f.IsRaw → fault f f
  inStatement : ∀ f f' t, fault f f' → fault (f.inStatement t) (f'.inStatement (text t))

namespace Reading

/-- Texts as they are. -/
def plain : Reading where
  text t := t
  fault := Eq
  text_nil := rfl
  length_text _ := rfl
  lex_text _ := rfl
  lineNumber_text _ := rfl
  rest_text _ _ := rfl
  raw _ _ := rfl
  inStatement _ _ _ h := h ▸ rfl

/-- Texts as they are, and faults that are no breaks. -/
def unbroken : Reading :=
  { plain with
    fault f f' := f' = f ∧ f.kind ≠ .interrupted
    raw f h := ⟨rfl, h.kind⟩
    inStatement f f' t h := ⟨congrArg (·.inStatement t) h.1, by rw [Fault.kind_inStatement]; exact h.2⟩ }

variable (R : Reading)

/-! ### Expressions -/

theorem alike_syntaxAt {α : Type} (span : Span) (reason : Fault.Reason) :
    Alike R.fault (Eq : α → α → Prop) (.error (.syntaxAt span reason))
      (.error (.syntaxAt span reason)) :=
  .error (R.raw _ (Fault.isRaw_syntaxAt span reason))

/-- A computation that draws random numbers and raises only raw faults does the same twice. -/
abbrev Steady {α : Type} (x : Draw α) : Prop := Agree Eq R.fault Eq x x

namespace Steady

variable {R} {α β : Type}

theorem pure (a : α) : R.Steady (pure a) := Agree.pure rfl

theorem throw {f : Fault} (h : f.IsRaw) : R.Steady (throw f : Draw α) := Agree.throw (R.raw f h)

theorem bind {x : Draw α} {k : α → Draw β} (hx : R.Steady x) (hk : ∀ a, R.Steady (k a)) :
    R.Steady (x >>= k) :=
  Agree.bind hx fun a _ h => h ▸ hk a

theorem ite {p : Prop} [Decidable p] {x y : Draw α} (hx : R.Steady x) (hy : R.Steady y) :
    R.Steady (if p then x else y) := Agree.ite hx hy

theorem throw_bind {f : Fault} (h : f.IsRaw) (k : α → Draw β) :
    R.Steady (MonadExcept.throw f >>= k) :=
  fun g _ hg => by
    subst hg
    exact ⟨.error (R.raw f h), rfl⟩

theorem drawUnit : R.Steady Expression.drawUnit := fun g _ hg => by
  subst hg
  exact ⟨.ok rfl, rfl⟩

theorem applyUnary (o : Operator) (x : Float) : R.Steady (liftExcept (o.applyUnary x)) := by
  apply Agree.liftExcept
  cases o with
  | negate | sin | cos => exact .ok rfl
  | _ => exact .error (R.raw _ (Fault.isRaw_syntaxOf _))

theorem applyBinary (o : Operator) (x y : Float) : R.Steady (liftExcept (o.applyBinary x y)) := by
  apply Agree.liftExcept
  cases o with
  | negate | sin | cos | leftParen | rightParen =>
    exact .error (R.raw _ (Fault.isRaw_syntaxOf _))
  | _ => exact .ok rfl

theorem value (vars : Variables) {missing : Fault} (hmissing : missing.IsRaw) (t : Tree) :
    R.Steady (t.value vars missing) := by
  induction t generalizing missing with
  | empty => exact throw hmissing
  | node left token isOpen right ihl ihr =>
    have raw (reason : Fault.Reason) := Fault.isRaw_syntaxAt token.span reason
    unfold Tree.value
    dsimp only
    split
    · refine ite (ite (ihr (raw _)) (throw_bind (raw _) _))
        (ite (ite ?_ (throw_bind (raw _) _)) ?_)
      · exact bind (ihr (raw _)) fun x => applyUnary _ x
      · exact bind (ihl (raw _)) fun x => bind (ihr (raw _)) fun y => applyBinary _ x y
    · refine ite ?_ (throw_bind (raw _) _)
      split
      · exact pure _
      · exact throw (raw _)
    · exact ite (ite drawUnit (pure _)) (throw_bind (raw _) _)
    · exact throw (raw _)

/-- Only a right parenthesis without a partner keeps a tree from being built. -/
theorem build (ts : List Token) : Alike R.fault Eq (Tree.build ts) (Tree.build ts) := by
  unfold Tree.build
  generalize Expression.Growth.start = g
  induction ts generalizing g with
  | nil => exact .ok rfl
  | cons t ts ih =>
    rw [List.foldlM_cons]
    cases ha : g.add t with
    | ok g' => exact ih g'
    | error f =>
      unfold Expression.Growth.add at ha
      split at ha
      · split at ha
        · cases ha
        · cases ha
          exact R.alike_syntaxAt _ _
      · cases ha

theorem evaluate (vars : Variables) (ts : List Token) : R.Steady (Expression.evaluate vars ts) :=
  bind (Agree.liftExcept (build ts)) fun t => value vars (Fault.isRaw_syntaxOf _) t

end Steady

end Reading

/-! ### Arguments -/

/-- The argument with another rest of the statement in it, if it is one. -/
def Argument.mapRest (f : Text → Text) : Argument → Argument
  | .rest text => .rest (f text)
  | argument => argument

namespace Arguments

def mapRest (f : Text → Text) (args : Arguments) : Arguments := args.map (Argument.mapRest f)

variable (f : Text → Text) (args : Arguments)

@[simp] theorem length_mapRest : (mapRest f args).length = args.length := List.length_map ..

@[simp] theorem isEmpty_mapRest : (mapRest f args).isEmpty = args.isEmpty := List.isEmpty_map ..

theorem getElem?_mapRest (i : Nat) : (mapRest f args)[i]? = args[i]?.map (Argument.mapRest f) :=
  List.getElem?_map ..

@[simp] theorem number_mapRest (i : Nat) : number (mapRest f args) i = args.number i := by
  unfold number
  rw [getElem?_mapRest]
  rcases args[i]? with - | (_ | _ | _ | _) <;> rfl

@[simp] theorem name_mapRest (i : Nat) : name (mapRest f args) i = args.name i := by
  unfold name
  rw [getElem?_mapRest]
  rcases args[i]? with - | (_ | _ | _ | _) <;> rfl

@[simp] theorem names_mapRest : names (mapRest f args) = args.names := by
  unfold names mapRest
  rw [List.filterMap_map]
  congr 1
  funext argument
  cases argument <;> rfl

theorem rest_mapRest (hf : f [] = []) (i : Nat) : rest (mapRest f args) i = f (args.rest i) := by
  unfold rest
  rw [getElem?_mapRest]
  rcases args[i]? with - | (_ | _ | _ | _) <;> simp [Argument.mapRest, hf]

end Arguments

namespace Reading

variable (R : Reading) (vars : Variables) (text : Text)

theorem agree_fillSlot (slot : Slot) (p : Phrase) :
    Agree Eq R.fault (fun a a' => a' = a.mapRest R.text) (Arguments.fillSlot vars text slot p)
      (Arguments.fillSlot vars (R.text text) slot p) := by
  have raw (span : Span) (reason : Fault.Reason) := R.raw _ (Fault.isRaw_syntaxAt span reason)
  unfold Arguments.fillSlot
  cases slot with
  | number =>
    cases p with
    | token t => exact .throw (raw _ _)
    | expression first more =>
      refine .bind (Steady.evaluate vars _) fun x x' h => .pure ?_
      rw [← h]
      rfl
  | name =>
    dsimp only
    split
    · exact .pure rfl
    · exact .throw (raw _ _)
  | mark kind =>
    cases p with
    | token t => exact .ite (.pure rfl) (.throw (raw _ _))
    | expression first more => exact .throw (raw _ _)
  | rest => exact .pure (congrArg Argument.rest (R.rest_text _ _))

theorem agree_fill (slots : List Slot) (ps : List Phrase) :
    Agree Eq R.fault (fun args args' => args' = args.mapRest R.text)
      (Arguments.fill vars text slots ps) (Arguments.fill vars (R.text text) slots ps) := by
  induction slots generalizing ps with
  | nil =>
    cases ps with
    | nil => exact .pure rfl
    | cons p ps => exact .throw (R.raw _ (Fault.isRaw_syntaxAt _ _))
  | cons slot slots ih =>
    cases ps with
    | nil => exact .pure rfl
    | cons p ps =>
      refine .bind (R.agree_fillSlot vars text slot p) fun a a' ha => ?_
      subst ha
      refine .ite (.pure rfl) (.bind (ih ps) fun args args' hargs => .pure ?_)
      subst hargs
      rfl

theorem agree_ofPhrases (command : Command) (ps : List Phrase) :
    Agree Eq R.fault (fun args args' => args' = args.mapRest R.text)
      (Arguments.ofPhrases vars command text ps)
      (Arguments.ofPhrases vars command (R.text text) ps) := by
  refine .bind (R.agree_fill vars text command.form ps) fun args args' h => ?_
  subst h
  rw [Arguments.length_mapRest]
  exact .ite (.pure rfl) (.throw (R.raw _ (Fault.isRaw_syntaxOf _)))

end Reading

/-! ### Contexts -/

/-- The record with its place moved. -/
def ForLoop.moved (move : Nat → Nat) (l : ForLoop) : ForLoop := { l with resume := move l.resume }

/-- The flow with its place moved, if it goes to one. -/
def Flow.moved (move : Nat → Nat) : Flow → Flow
  | .jump offset => .jump (move offset)
  | flow => flow

namespace ReturnStack

/-- The stacks differ only in that the places of the second are moved. -/
structure Moved (move : Nat → Nat) (s s' : ReturnStack) : Prop where
  offsets : s'.offsets = s.offsets.map move
  overflow : s'.overflow = s.overflow

variable {move : Nat → Nat} {s s' : ReturnStack}

theorem Moved.depth (h : Moved move s s') : s'.depth = s.depth := by
  rw [s.depth_eq, s'.depth_eq, h.offsets, List.length_map]

theorem Moved.push (h : Moved move s s') (R : Reading) (offset : Nat) :
    Alike R.fault (Moved move) (s.push offset) (s'.push (move offset)) := by
  have hdepth := h.depth
  by_cases hfull : capacity ≤ s.depth
  · have hfull' : capacity ≤ s'.depth := by rwa [hdepth]
    rw [ReturnStack.push, if_pos hfull, ReturnStack.push, if_pos hfull', h.overflow]
    exact .error (R.raw _ ⟨rfl, nofun⟩)
  · have hfull' : ¬ capacity ≤ s'.depth := by rwa [hdepth]
    rw [ReturnStack.push, if_neg hfull, ReturnStack.push, if_neg hfull']
    exact .ok ⟨congrArg (move offset :: ·) h.offsets, h.overflow⟩

theorem Moved.pop? (h : Moved move s s') :
    (s.pop? = none ∧ s'.pop? = none) ∨
      ∃ offset t t', s.pop? = some (offset, t) ∧ s'.pop? = some (move offset, t') ∧ Moved move t t' := by
  have hoffsets := h.offsets
  unfold ReturnStack.pop?
  split
  · rename_i hs
    left
    rw [hs] at hoffsets
    split
    · exact ⟨rfl, rfl⟩
    · rename_i hs'
      rw [hs'] at hoffsets
      cases hoffsets
  · rename_i hs
    right
    rw [hs] at hoffsets
    split
    · rename_i hs'
      rw [hs'] at hoffsets
      cases hoffsets
    · rename_i hs'
      rw [hs'] at hoffsets
      obtain ⟨rfl, htail⟩ := List.cons.inj hoffsets
      exact ⟨_, _, _, rfl, rfl, htail, h.overflow⟩

end ReturnStack

/-- The contexts agree but for the places in the second, which are moved, and for what the reading
makes of a fault in the `DATA`. -/
structure Context.Moved (R : Reading) (move : Nat → Nat) (c c' : Context) : Prop where
  vars : c'.vars = c.vars
  loops : ∀ name : String, c'.loops[name]? = c.loops[name]?.map (ForLoop.moved move)
  returns : c.returns.Moved move c'.returns
  data : Alike R.fault Eq c.data c'.data
  display : c'.display = c.display
  random : c'.random = c.random
  entropy : c'.entropy = c.entropy

/-- The actions do the same to contexts that agree but for places and faults. -/
abbrev Reading.Keeps {α β : Type} (R : Reading) (move : Nat → Nat) (Q : α → β → Prop) (a : Action α)
    (a' : Action β) : Prop :=
  Agree (Context.Moved R move) R.fault Q a a'

/-- Moreover they lead to the same place, but for the move. -/
abbrev Reading.Leads (R : Reading) (move : Nat → Nat) (a a' : Action Flow) : Prop :=
  R.Keeps move (fun flow flow' => flow' = flow.moved move) a a'

namespace Reading.Keeps

variable {R : Reading} {move : Nat → Nat} {α : Type}

theorem modify {f : Context → Context}
    (h : ∀ c c', Context.Moved R move c c' → Context.Moved R move (f c) (f c')) :
    R.Keeps move Eq (modify f : Action PUnit) (modify f) :=
  fun c c' hc => ⟨.ok rfl, h c c' hc⟩

theorem onDisplay (f : Screen.Display → Screen.Display) :
    R.Keeps move Eq (Action.onDisplay f) (Action.onDisplay f) :=
  modify fun _ _ h => { h with display := congrArg f h.display }

theorem ofDraw {β : Type} {Q : α → β → Prop} {draw : Variables → Draw α} {draw' : Variables → Draw β}
    (h : ∀ vars, Agree Eq R.fault Q (draw vars) (draw' vars)) :
    R.Keeps move Q (Action.ofDraw draw) (Action.ofDraw draw') := by
  intro c c' hc
  rw [Action.outcome_ofDraw, Action.outcome_ofDraw, hc.vars, hc.random]
  obtain ⟨hresult, hrandom⟩ := h c.vars c.random c.random rfl
  exact ⟨hresult, { hc with vars := rfl, random := hrandom.symm }⟩

theorem inStatement (text : Text) {Q : α → α → Prop} {a a' : Action α} (h : R.Keeps move Q a a') :
    R.Keeps move Q (Action.inStatement text a) (Action.inStatement (R.text text) a') := by
  intro c c' hc
  obtain ⟨hresult, hstate⟩ := h c c' hc
  rw [Action.outcome_inStatement, Action.outcome_inStatement]
  refine ⟨?_, hstate⟩
  generalize (outcome a c).1 = r at hresult
  generalize (outcome a' c').1 = r' at hresult
  cases hresult with
  | ok hq => exact .ok hq
  | error hf => exact .error (R.inStatement _ _ text hf)

theorem store (name : String) (x : Float) :
    R.Keeps move Eq (Action.store name x) (Action.store name x) := by
  intro c c' hc
  rw [Action.outcome_store, Action.outcome_store, hc.vars]
  cases hstore : c.vars.store name x with
  | ok vars => exact ⟨.ok rfl, { hc with vars := rfl }⟩
  | error f => exact ⟨.error (R.raw f (Variables.isRaw_of_store hstore)), hc⟩

theorem readData : R.Keeps move Eq Action.readData Action.readData := by
  intro c c' hc
  rw [Action.outcome_readData, Action.outcome_readData]
  have hdata := hc.data
  generalize c.data = data at hdata
  generalize c'.data = data' at hdata
  cases hdata with
  | error hf => exact ⟨.error hf, hc⟩
  | @ok cursor cursor' heq =>
    subst heq
    have hbind : (Except.ok cursor >>= DataCursor.read) = cursor.read := rfl
    rw [hbind]
    cases hread : cursor.read with
    | ok taken => exact ⟨.ok rfl, { hc with data := .ok rfl }⟩
    | error f => exact ⟨.error (R.raw f (DataCursor.isRaw_of_read hread)), hc⟩

theorem restoreData : R.Keeps move Eq Action.restoreData Action.restoreData := by
  intro c c' hc
  rw [Action.outcome_restoreData, Action.outcome_restoreData]
  have hdata := hc.data
  generalize c.data = data at hdata
  generalize c'.data = data' at hdata
  cases hdata with
  | error hf => exact ⟨.error hf, hc⟩
  | @ok cursor cursor' heq =>
    subst heq
    exact ⟨.ok rfl, { hc with data := .ok rfl }⟩

theorem readInto (names : List String) :
    R.Keeps move Eq (Statement.readInto names) (Statement.readInto names) := by
  induction names with
  | nil => exact .pure rfl
  | cons name names ih =>
    refine .bind readData fun x x' h => ?_
    subst h
    exact .bind (store name x) fun _ _ _ => ih

theorem popReturn :
    R.Keeps move (fun p p' => p' = move p) Action.popReturn Action.popReturn := by
  intro c c' hc
  rw [Action.outcome_popReturn, Action.outcome_popReturn]
  obtain ⟨hs, hs'⟩ | ⟨offset, t, t', hs, hs', ht⟩ := hc.returns.pop?
  · rw [hs, hs']
    exact ⟨.error (R.raw _ ⟨rfl, nofun⟩), hc⟩
  · rw [hs, hs']
    exact ⟨.ok rfl, { hc with returns := ht }⟩

theorem continueLoop (name : String) :
    R.Leads move (Statement.continueLoop name) (Statement.continueLoop name) := by
  intro c c' hc
  rw [Statement.outcome_continueLoop, Statement.outcome_continueLoop, hc.loops, hc.vars]
  cases c.loops[name]? with
  | none => exact ⟨.error (R.raw _ ⟨rfl, nofun⟩), hc⟩
  | some record =>
    have hpast (x : Float) : (record.moved move).isPast x = record.isPast x := rfl
    have hstep : (record.moved move).step = record.step := rfl
    simp only [Option.map_some, hstep, hpast]
    split
    · refine ⟨.ok rfl, { hc with vars := rfl, loops := fun name' => ?_ }⟩
      rw [Std.TreeMap.getElem?_erase, Std.TreeMap.getElem?_erase, hc.loops]
      split <;> rfl
    · cases hstore : c.vars.store name (c.vars.fetch name + record.step) with
      | ok vars => exact ⟨.ok rfl, { hc with vars := rfl }⟩
      | error f => exact ⟨.error (R.raw f (Variables.isRaw_of_store hstore)), hc⟩

theorem liftName (args : Arguments) :
    R.Keeps move Eq (liftExcept (args.name 0)) (liftExcept (args.name 0)) := by
  apply Agree.liftExcept
  unfold Arguments.name
  split
  · exact .ok rfl
  · exact .error (R.raw _ (Fault.isRaw_syntaxOf _))

/-- If the statements behind `THEN` do the same then so do the commands. -/
theorem perform {nested nested' : Text → Action Flow}
    (hnested : ∀ text, R.Leads move (nested text) (nested' (R.text text)))
    (command : Command) (args : Arguments) :
    R.Leads move (Statement.perform nested command args)
      (Statement.perform nested' command (args.mapRest R.text)) := by
  have still {a : Action Unit} (h : R.Keeps move Eq a a) {flow : Flow} (hflow : flow.moved move = flow) :
      R.Leads move (do a; return flow) (do a; return flow) :=
    .bind h fun _ _ _ => .pure hflow.symm
  have named {k : String → Action Flow} (h : ∀ name, R.Leads move (k name) (k name)) :
      R.Leads move (liftExcept (args.name 0) >>= k) (liftExcept (args.name 0) >>= k) :=
    .bind (liftName args) fun name _ hname => hname ▸ h name
  unfold Statement.perform
  simp only [Arguments.number_mapRest, Arguments.name_mapRest, Arguments.names_mapRest,
    Arguments.length_mapRest, Arguments.isEmpty_mapRest, Arguments.rest_mapRest _ _ R.text_nil]
  cases command with
  | assign => exact named fun name => still (store name _) rfl
  | forTo => exact named fun name => still (store name _) rfl
  | next => exact named continueLoop
  | comeBack =>
    refine .bind popReturn fun offset offset' h => .pure ?_
    subst h
    rfl
  | ifThen => exact .ite (.pure rfl) (inStatement _ (hnested _))
  | read => exact still (readInto _) rfl
  | restore => exact still restoreData rfl
  | randomize =>
    refine .ite (.bind (modify fun c c' h => ?_) fun _ _ _ => .pure rfl)
      (.bind (modify fun c c' h => { h with random := rfl }) fun _ _ _ => .pure rfl)
    obtain ⟨hvars, hloops, hreturns, hdata, hdisplay, hrandom, hentropy⟩ := h
    unfold Context.reseed
    rw [hentropy]
    exact ⟨hvars, hloops, hreturns, hdata, hdisplay, rfl, rfl⟩
  | goto | gosub | data | remark | stop => exact .pure rfl
  | _ => exact still (onDisplay _) rfl

theorem executeWithin (depth : Nat) (text : Text) :
    R.Leads move (Statement.executeWithin depth text)
      (Statement.executeWithin depth (R.text text)) := by
  induction depth generalizing text with
  | zero => exact .pure rfl
  | succ depth ih =>
    unfold Statement.executeWithin
    rw [R.lex_text]
    split
    · exact .pure rfl
    · split
      · rename_i command _
        refine .bind (ofDraw fun vars => R.agree_ofPhrases vars text command _) fun args args' h => ?_
        subst h
        exact perform ih command args
      · exact .throw (R.raw _ ⟨rfl, by simp⟩)
    · exact .throw (R.raw _ (Fault.isRaw_syntaxAt _ _))

/-- A statement does the same when it is read in another way. -/
theorem execute (text : Text) :
    R.Leads move (Statement.execute text) (Statement.execute (R.text text)) := by
  unfold Statement.execute
  rw [R.length_text]
  exact executeWithin _ text

end Reading.Keeps

end SpectrumBasic
