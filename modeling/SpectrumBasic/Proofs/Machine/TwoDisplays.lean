import SpectrumBasic.Proofs.Machine.Returns
import SpectrumBasic.Proofs.Machine.Trace

/-! One program on two displays. What is on a display makes no difference to a run. Displays that are set
alike stay so, and from the first `CLS` on they hold the same bytes. -/

namespace SpectrumBasic

open Attempt (outcome)
open Screen (Display Operation)

namespace Statement

variable {text : Text} {c c' : Context} {command : Command} {args : Arguments}

theorem Binds.withDisplay (h : Binds text c command args c') (d : Display) :
    Binds text (c.withDisplay d) command args (c'.withDisplay d) := by
  obtain ⟨span, tokens, hlex, hbind⟩ := h
  refine ⟨span, tokens, hlex, ?_⟩
  unfold bindArguments at hbind ⊢
  rw [IgnoresDisplay.ofDraw, hbind]

/-- A statement comes down to the same command whatever is on the display. -/
theorem ComesTo.withDisplay (h : ComesTo text c command args c') (d : Display) :
    ComesTo text (c.withDisplay d) command args (c'.withDisplay d) := by
  induction h with
  | own h hif => exact .own (h.withDisplay d) hif
  | behindThen h hif _ ih => exact .behindThen (h.withDisplay d) hif ih

end Statement

namespace Machine

theorem Executes.withDisplay {m : Machine} {command : Command} (h : m.Executes command) (d : Display) :
    (m.withDisplay d).Executes command := by
  obtain ⟨hlt, args, c, hcomes⟩ := h
  exact ⟨hlt, args, _, hcomes.withDisplay d⟩

/-- A `CLS` clears the display. -/
theorem display_step_of_cls {m : Machine} (h : m.Executes .cls) :
    m.step.2.context.display = m.context.display.cls := by
  obtain ⟨hlt, args, c, hcomes⟩ := h
  have hperform : outcome (Statement.perform Statement.execute .cls args) c =
      (.ok .next, { c with display := c.display.cls }) := rfl
  have hflow := outcome_statementAt_ok (hcomes.outcome_ok hperform)
  obtain ⟨n, rfl⟩ := hcomes.draws
  rw [step_followAt_ok hlt hflow rfl]
  rfl

/-! ### Two runs -/

/-- The machines differ in their displays only, and these are related by `D`. -/
structure SameBut (D : Display → Display → Prop) (m m' : Machine) : Prop where
  eq : m' = m.withDisplay m'.context.display
  display : D m.context.display m'.context.display

/-- Machines that differ in their displays stay so, and so do relations of displays that operations
keep. -/
theorem simulation_sameBut {D : Display → Display → Prop}
    (hD : ∀ ops d d', D d d' → D (Operation.runAll ops d) (Operation.runAll ops d')) :
    Simulation Eq (SameBut D) where
  isRunning m m' h := by
    rw [h.eq]
    rfl
  interrupted m m' h := by
    rw [h.eq]
    rfl
  step m m' h := by
    obtain ⟨ops, hops⟩ := m.step_withDisplay
    have hstep : m.step = (m.step.1, m.step.2.withDisplay (Operation.runAll ops m.context.display)) :=
      hops m.context.display
    have hstep' :
        m'.step = (m.step.1, m.step.2.withDisplay (Operation.runAll ops m'.context.display)) := by
      conv_lhs => rw [h.eq]
      exact hops _
    have hdisplay : m.step.2.context.display = Operation.runAll ops m.context.display :=
      congrArg (·.2.context.display) hstep
    rw [hstep']
    refine ⟨?_, rfl, ?_⟩
    · cases m.step.1 with
      | none => exact .none
      | some f => exact .some rfl
    · rw [hdisplay]
      exact hD ops _ _ h.display
  halt m m' h := ⟨congrArg (fun m : Machine => { m with status := .halted }) h.eq, h.display⟩
  flag m m' on h := ⟨congrArg (fun m : Machine => { m with interrupted := on }) h.eq, h.display⟩
  seed m m' n h := ⟨congrArg (fun m : Machine => m.seed n) h.eq, h.display⟩

/-- The displays are set alike. -/
abbrev SameSettings : Machine → Machine → Prop := SameBut fun d d' => d'.settings = d.settings

/-- The displays are alike in all that programs write. -/
abbrev SameSettled : Machine → Machine → Prop := SameBut fun d d' => d'.settled = d.settled

theorem simulation_settings : Simulation Eq SameSettings :=
  simulation_sameBut fun ops _ _ h => Operation.settings_runAll ops h

theorem simulation_settled : Simulation Eq SameSettled :=
  simulation_sameBut fun ops _ _ h => Operation.settled_runAll ops h

/-- A `CLS` makes displays alike that are set alike. -/
theorem settled_step_of_cls {m m' : Machine} (h : SameSettings m m') (hcls : m.Executes .cls) :
    SameSettled m.step.2 m'.step.2 := by
  have hcls' : m'.Executes .cls := by
    rw [h.eq]
    exact hcls.withDisplay _
  refine ⟨(simulation_settings.step m m' h).2.eq, ?_⟩
  rw [display_step_of_cls hcls, display_step_of_cls hcls']
  exact Display.settled_cls h.display

/-- The display is write-only for a program. Calls return the same on any display and leave machines
that differ in the display only. Displays that are set alike, as all are at power on, are so after every
step, and after every step from the first `CLS` on they hold the same bytes. -/
theorem trace_on_displays (source : Text) (display display' : Display) (entropy : Generator)
    (calls : List Call) (hcalls : ∀ f, .display f ∉ calls) :
    let m := load source display entropy
    let m' := load source display' entropy
    List.Forall₂ (fun x x' => x'.1 = x.1 ∧ x'.2 = x.2.withDisplay x'.2.context.display)
      (m.trace calls) (m'.trace calls) ∧
    (display'.settings = display.settings → ∀ n,
      let now := ((m.after calls).steps n).2.context.display
      let now' := ((m'.after calls).steps n).2.context.display
      now'.settings = now.settings ∧
        ((∃ x ∈ m.steppedBy calls ++ stepped n (m.after calls), x.Executes .cls) →
          now'.memory = now.memory)) ∧
    ∀ g, (Display.noisy g).settings = Display.clear.settings := by
  intro m m'
  have hany : Simulation Eq (SameBut fun _ _ => True) := simulation_sameBut fun _ _ _ h => h
  refine ⟨?_, ?_, Display.settings_noisy⟩
  · have hstart : SameBut (fun _ _ => True) m m' := ⟨rfl, trivial⟩
    have htrace := (hany.trace rfl calls (fun f hf => (hcalls f hf).elim) hstart).1
    exact htrace.imp fun _ _ h => ⟨Event.eq_of_alike h.1, h.2.eq⟩
  · intro hsettings n
    have hstart : SameSettings m m' := ⟨rfl, hsettings⟩
    have hafter := (simulation_settings.trace rfl calls (fun f hf => (hcalls f hf).elim) hstart).2
    refine ⟨(simulation_settings.steps n hafter).2.display, ?_⟩
    rintro ⟨x, hx, hcls⟩
    have hsettled : SameSettled ((m.after calls).steps n).2 ((m'.after calls).steps n).2 := by
      obtain hx | hx := List.mem_append.mp hx
      · have hgained := simulation_settings.after_gain simulation_settled
          (fun _ _ => settled_step_of_cls) rfl hcalls hstart ⟨x, hx, hcls⟩
        exact (simulation_settled.steps n hgained).2
      · exact simulation_settings.steps_gain simulation_settled (fun _ _ => settled_step_of_cls) n
          hafter ⟨x, hx, hcls⟩
    have hmemory (d : Display) : d.memory = d.settled.memory := rfl
    rw [hmemory, hsettled.display, ← hmemory]

/-- A `CLS` behind a `THEN`, on a clear display and on one as at power on. -/
theorem trace_on_displays_cls :
    let m := load "10 IF 1 THEN CLS\n20 PLOT 5,5".toList .clear (.ofSeed 1)
    let m' := load "10 IF 1 THEN CLS\n20 PLOT 5,5".toList (.noisy (.ofSeed 2)) (.ofSeed 1)
    m.Executes .cls ∧
      List.Forall₂ (fun x x' => x'.1 = x.1 ∧ x'.2 = x.2.withDisplay x'.2.context.display)
        (m.trace [.execute 1, .interrupt]) (m'.trace [.execute 1, .interrupt]) ∧
      ((m'.after [.execute 1, .interrupt]).steps 1).2.context.display.memory =
        ((m.after [.execute 1, .interrupt]).steps 1).2.context.display.memory := by
  intro m m'
  have hcls : m.Executes .cls :=
    ⟨by decide +kernel, _, _, .behindThen ⟨⟨3, 5⟩,
        [⟨⟨6, 7⟩, .number ['1']⟩, ⟨⟨8, 12⟩, .word .thenDo⟩, ⟨⟨13, 16⟩, .name "CLS"⟩],
        by decide +kernel, rfl⟩
      (by decide +kernel) (.own ⟨⟨0, 3⟩, [], by decide +kernel, rfl⟩ (by simp))⟩
  have hfirst : m ∈ m.steppedBy [.execute 1, .interrupt] :=
    List.mem_append_left _ ((mem_stepped_iff 1 m m).mpr ⟨rfl, 0, Nat.one_pos, rfl⟩)
  obtain ⟨htrace, hdisplays, hnoisy⟩ := trace_on_displays "10 IF 1 THEN CLS\n20 PLOT 5,5".toList .clear
    (.noisy (.ofSeed 2)) (.ofSeed 1) [.execute 1, .interrupt] (by simp)
  exact ⟨hcls, htrace, (hdisplays (hnoisy (.ofSeed 2)) 1).2 ⟨m, List.mem_append_left _ hfirst, hcls⟩⟩

end Machine

end SpectrumBasic
