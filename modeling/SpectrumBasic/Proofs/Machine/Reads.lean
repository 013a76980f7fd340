import SpectrumBasic.Proofs.Machine.Returns
import SpectrumBasic.Proofs.Machine.Statement
import SpectrumBasic.Proofs.Program.Walk
import SpectrumBasic.Proofs.Statement.Slots

/-! The values that a run reads. A `RESTORE` goes back to the first value of the program's `DATA`, and
between two of them the values are given out in order, whatever statements the `READ`s are part of and
wherever the program has been. If there is a fault in the `DATA` then the first statement that asks
for it fails with that fault. -/

namespace SpectrumBasic.Machine

open Attempt (outcome)
open DataCursor (harvest)
open Program (boundary)
open Statement (ComesTo readInto valuesRead)

/-! ### Steps that read or restore -/

/-- The next step executes a `READ` with these names, and the context is `c` when it comes to it. -/
def Reads (m : Machine) (names : List String) (c : Context) : Prop :=
  m.place < Text.byteLength m.source ∧ ∃ args,
    ComesTo m.statement m.context .read args c ∧ args.names = names

section Step

variable {m : Machine} {names : List String} {c : Context}

theorem Executes.reads (h : m.Executes .read) : ∃ names c, m.Reads names c := by
  obtain ⟨hlt, args, c, hcomes⟩ := h
  exact ⟨args.names, c, hlt, args, hcomes, rfl⟩

theorem Reads.context (h : m.Reads names c) :
    c.vars = m.context.vars ∧ c.data = m.context.data := by
  obtain ⟨_, args, hcomes, _⟩ := h
  obtain ⟨n, rfl⟩ := hcomes.draws
  exact ⟨rfl, rfl⟩

theorem Reads.step_ok {c' : Context} (h : m.Reads names c)
    (hread : outcome (readInto names) c = (.ok (), c')) :
    m.step =
      (none, { m.standing m.place c' with offset := (boundary m.source m.place).stop + 1 }) := by
  obtain ⟨hlt, args, hcomes, rfl⟩ := h
  apply step_of_perform_next hlt hcomes
  rw [Statement.outcome_perform_read, hread]

theorem Reads.step_error {c' : Context} {f : Fault} (h : m.Reads names c)
    (hread : outcome (readInto names) c = (.error f, c')) :
    ∃ f', f'.kind = f.kind ∧ (f.statement ≠ none → f' = f) ∧
      m.step = (some f', m.standing m.place c') := by
  obtain ⟨hlt, args, hcomes, rfl⟩ := h
  apply step_of_perform_error hlt hcomes
  rw [Statement.outcome_perform_read, hread]

/-- A `READ` moves the cursor on, over the values that it gives to variables if it succeeds. -/
theorem Reads.data_step (h : m.Reads names c) :
    ∃ n, m.step.2.context.data = (m.context.advance n).data ∧
      (m.step.1 = none → n = (valuesRead names c).length) := by
  obtain ⟨n, hdata, hn⟩ := Statement.data_readInto names c
  have hc : (c.advance n).data = (m.context.advance n).data := by
    unfold Context.advance
    dsimp only
    rw [h.context.2]
  refine ⟨n, ?_, fun hnone => ?_⟩
  · rw [← hc, ← hdata]
    cases ho : outcome (readInto names) c with
    | mk result c' =>
      cases result with
      | ok u =>
        rw [h.step_ok ho]
        rfl
      | error f =>
        obtain ⟨f', _, _, hstep⟩ := h.step_error ho
        rw [hstep]
        rfl
  · cases ho : outcome (readInto names) c with
    | mk result c' =>
      cases result with
      | ok u => exact hn (by rw [ho])
      | error f =>
        obtain ⟨f', _, _, hstep⟩ := h.step_error ho
        rw [hstep] at hnone
        cases hnone

/-- A `RESTORE` puts the cursor in front of the first value. It fails only with the fault in the
data. -/
theorem step_of_restore (h : m.Executes .restore) :
    m.step.2.context.data = m.context.data.map DataCursor.restore ∧
      ∀ f, m.context.data = .error f → ∃ f' c', (f.statement ≠ none → f' = f) ∧
        c'.vars = m.context.vars ∧ m.step = (some f', m.standing m.place c') := by
  obtain ⟨hlt, args, c, hcomes⟩ := h
  have hrestore := Statement.outcome_perform_restore Statement.execute args c
  obtain ⟨hvars, hsame⟩ : c.vars = m.context.vars ∧ c.data = m.context.data := by
    obtain ⟨n, rfl⟩ := hcomes.draws
    exact ⟨rfl, rfl⟩
  rw [← hsame, ← hvars]
  cases hdata : c.data with
  | ok cursor =>
    simp only [hdata] at hrestore
    refine ⟨?_, nofun⟩
    rw [step_of_perform_next hlt hcomes hrestore]
    rfl
  | error f =>
    simp only [hdata] at hrestore
    obtain ⟨f', _, hattached, hstep⟩ := step_of_perform_error hlt hcomes hrestore
    refine ⟨?_, fun f₁ hf₁ => ?_⟩
    · rw [hstep]
      exact hdata
    · cases hf₁
      exact ⟨f', c, hattached, rfl, hstep⟩

theorem data_follow {m' : Machine} {text : Text} {ends : Program.Boundary} {flow : Flow}
    (h : m.follow text ends flow = .ok m') : m'.context.data = m.context.data := by
  cases flow with
  | gosub line =>
    rw [follow_gosub] at h
    split at h
    · cases h
      rfl
    · cases h
  | _ =>
    cases h
    rfl

/-- No other step touches the data. -/
theorem data_step (hread : ¬ m.Executes .read) (hrestore : ¬ m.Executes .restore) :
    m.step.2.context.data = m.context.data := by
  obtain ⟨_, hs⟩ | ⟨hlt, c, hs⟩ := m.step_cases
  · rw [hs]
  · have hspares : (outcome (m.statementAt m.place) m.context).2.data = m.context.data := by
      unfold statementAt
      dsimp only
      rw [Action.outcome_inStatement]
      exact Statement.data_execute (fun args c' h => hread ⟨hlt, args, c', h⟩)
        fun args c' h => hrestore ⟨hlt, args, c', h⟩
    obtain ⟨f, ho, hs⟩ | ⟨flow, ho, ⟨f, _, hs⟩ | ⟨m', hf, hs⟩⟩ := hs
    · rw [ho] at hspares
      rw [hs]
      exact hspares
    · rw [ho] at hspares
      rw [hs]
      exact hspares
    · rw [ho] at hspares
      rw [hs, data_follow hf]
      exact hspares

/-- What a program holds in its `DATA`, or the fault in it, never changes. -/
theorem values_step (m : Machine) :
    m.step.2.context.data.map DataCursor.values = m.context.data.map DataCursor.values := by
  by_cases hread : m.Executes .read
  · obtain ⟨names, c, hreads⟩ := hread.reads
    obtain ⟨n, hdata, _⟩ := hreads.data_step
    rw [hdata, Context.advance]
    cases m.context.data <;> rfl
  · by_cases hrestore : m.Executes .restore
    · rw [(step_of_restore hrestore).1]
      cases m.context.data <;> rfl
    · rw [data_step hread hrestore]

end Step

/-- The data of the machine are those of its program. -/
def HoldsData (source : Text) (m : Machine) : Prop :=
  m.context.data.map DataCursor.values = (harvest source).map DataCursor.values

theorem invariant_holdsData (source : Text) : Invariant source (HoldsData source) where
  load _ _ := rfl
  step m _ h := (values_step m).trans h
  halt _ h := h
  flag _ _ h := h
  seed _ _ h := h
  display _ _ h := h

theorem HoldsData.steps_one {source : Text} {m : Machine} (h : HoldsData source m)
    (hrunning : m.isRunning = true) : HoldsData source (m.steps 1).2 := by
  unfold HoldsData
  rw [(Machine.steps_one hrunning).1, values_step]
  exact h

theorem HoldsData.error_iff {source : Text} {m : Machine} (h : HoldsData source m) (f : Fault) :
    m.context.data = .error f ↔ harvest source = .error f := by
  unfold HoldsData at h
  cases hdata : m.context.data <;> cases hharvest : harvest source <;>
    simp_all [Except.map]

/-- The values `xs` that were read are the first of the data, and while the machine runs the cursor
stands right behind them. -/
structure Tally (source : Text) (xs : List Float) (m : Machine) : Prop where
  holds : HoldsData source m
  front : ∀ cursor, m.context.data = .ok cursor →
    xs <+: cursor.values.toList ∧ (m.isRunning = true → cursor.taken = xs.length)
  none : ∀ f, m.context.data = .error f → xs = []

namespace Tally

variable {source : Text} {xs : List Float} {m : Machine}

/-- What comes next from the data extends what was read. -/
theorem append_isPrefix (h : Tally source xs m) {cursor : DataCursor}
    (hdata : m.context.data = .ok cursor) {ys : List Float}
    (hys : ys <+: cursor.values.toList.drop xs.length) : xs ++ ys <+: cursor.values.toList := by
  obtain ⟨zs, hzs⟩ := (h.front cursor hdata).1
  rw [← hzs, List.drop_left] at hys
  rw [← hzs]
  exact (List.prefix_append_right_inj xs).mpr hys

theorem unread_eq (h : Tally source xs m) (hrunning : m.isRunning = true) {cursor : DataCursor}
    (hdata : m.context.data = .ok cursor) : m.context.unread = cursor.values.toList.drop xs.length := by
  rw [Context.unread, hdata, ← (h.front cursor hdata).2 hrunning]

theorem read {names : List String} {c : Context} (h : Tally source xs m)
    (hrunning : m.isRunning = true) (hreads : m.Reads names c) :
    Tally source (xs ++ valuesRead names c) (m.steps 1).2 := by
  obtain ⟨hcontext, hnone⟩ := steps_one hrunning
  obtain ⟨n, hadvance, hn⟩ := hreads.data_step
  have hunread : c.unread = m.context.unread := by
    unfold Context.unread
    rw [hreads.context.2]
  have hgiven := Statement.valuesRead_isPrefix names c
  rw [hunread] at hgiven
  refine ⟨h.holds.steps_one hrunning, fun cursor' hcursor' => ?_, fun f hf => ?_⟩
  · rw [hcontext, hadvance] at hcursor'
    cases hdata : m.context.data with
    | error f => simp [Context.advance, hdata, Except.map] at hcursor'
    | ok cursor =>
      obtain rfl : { cursor with taken := cursor.taken + n } = cursor' := by
        simpa [Context.advance, hdata, Except.map] using hcursor'
      rw [h.unread_eq hrunning hdata] at hgiven
      refine ⟨h.append_isPrefix hdata hgiven, fun hstill => ?_⟩
      rw [List.length_append, ← hn (hnone hstill), ← (h.front cursor hdata).2 hrunning]
  · rw [hcontext, hadvance] at hf
    cases hdata : m.context.data with
    | ok cursor => simp [Context.advance, hdata, Except.map] at hf
    | error f' =>
      have hempty : m.context.unread = [] := by simp [Context.unread, hdata]
      rw [hempty, List.prefix_nil] at hgiven
      rw [hgiven, h.none f' hdata]
      rfl

theorem restore (h : Tally source xs m) (hrunning : m.isRunning = true)
    (hrestore : m.Executes .restore) : Tally source [] (m.steps 1).2 := by
  obtain ⟨hcontext, _⟩ := steps_one hrunning
  refine ⟨h.holds.steps_one hrunning, fun cursor' hcursor' => ⟨List.nil_prefix, fun _ => ?_⟩,
    fun _ _ => rfl⟩
  rw [hcontext, (step_of_restore hrestore).1] at hcursor'
  cases hdata : m.context.data with
  | error f => simp [hdata, Except.map] at hcursor'
  | ok cursor =>
    obtain rfl : cursor.restore = cursor' := by simpa [hdata, Except.map] using hcursor'
    rfl

theorem other (h : Tally source xs m) (hrunning : m.isRunning = true) (hread : ¬ m.Executes .read)
    (hrestore : ¬ m.Executes .restore) : Tally source xs (m.steps 1).2 := by
  obtain ⟨hcontext, _⟩ := steps_one hrunning
  have hdata : (m.steps 1).2.context.data = m.context.data := by
    rw [hcontext, data_step hread hrestore]
  refine ⟨h.holds.steps_one hrunning, fun cursor hcursor => ?_, fun f hf => ?_⟩
  · rw [hdata] at hcursor
    obtain ⟨hfront, htaken⟩ := h.front cursor hcursor
    exact ⟨hfront, fun _ => htaken hrunning⟩
  · rw [hdata] at hf
    exact h.none f hf

end Tally

section Supplies

variable {source : Text} {xs given : List Float} {m : Machine} {cursor : DataCursor}
  {done rest : List String} {vars : Variables}

end Supplies

end SpectrumBasic.Machine
