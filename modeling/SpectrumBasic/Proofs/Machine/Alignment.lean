import SpectrumBasic.Proofs.Machine.Offset
import SpectrumBasic.Proofs.Machine.Trace
import SpectrumBasic.Proofs.Program.Alignment

/-! Machines that run aligned programs. From corresponding places they execute statements that read
alike and go on at corresponding places again, so whatever a host does with both, call by call, they
stay in step. -/

namespace SpectrumBasic.Machine

open Attempt (outcome Alike)
open Program (Alignment IsStart boundary firstStatement)

/-- The machines agree but for their programs, the places in them and what the reading makes of a
fault. -/
structure Aligned {R : Reading} {source source' : Text} (A : Alignment R source source')
    (m m' : Machine) : Prop where
  source : m.source = source
  source' : m'.source = source'
  offset : m'.offset = A.move m.offset
  status : m'.status = m.status
  interrupted : m'.interrupted = m.interrupted
  context : Context.Moved R A.move m.context m'.context

namespace Aligned

variable {R : Reading} {source source' : Text} {A : Alignment R source source'} {m m' : Machine}

theorem isRunning (h : Aligned A m m') : m'.isRunning = m.isRunning := by
  unfold Machine.isRunning
  rw [h.status]

theorem place (h : Aligned A m m') (hstart : IsStart source m.offset) :
    m'.place = A.move m.place := by
  unfold Machine.place
  rw [h.status, h.offset, h.source, h.source']
  split
  · exact A.seekFrom_move _ _ _ rfl hstart
  · rfl

theorem goto (h : Aligned A m m') (line : Nat) : Aligned A (m.goto line) (m'.goto line) :=
  { h with offset := A.move_zero.symm, status := rfl }

theorem onDisplay (h : Aligned A m m') (f : Screen.Display → Screen.Display) :
    Aligned A (m.onDisplay f) (m'.onDisplay f) :=
  { h with context := { h.context with display := congrArg f h.context.display } }

/-- Where a statement leads is where its counterpart leads. -/
theorem follow (h : Aligned A m m') {text : Text} {ends ends' : Program.Boundary}
    (hstop : ends'.stop + 1 = A.move (ends.stop + 1))
    (hnewline : ends'.newline + 1 = A.move (ends.newline + 1)) (flow : Flow) :
    Alike R.fault (Aligned A) (m.follow text ends flow)
      (m'.follow (R.text text) ends' (flow.moved A.move)) := by
  cases flow with
  | next => exact .ok { h with offset := hstop }
  | goto line => exact .ok (h.goto line)
  | gosub line =>
    have hpush := h.context.returns.push R (ends.stop + 1)
    have hmoved : (Flow.gosub line).moved A.move = .gosub line := rfl
    rw [hmoved, follow_gosub, follow_gosub, hstop]
    generalize m.context.returns.push (ends.stop + 1) = r at hpush ⊢
    generalize m'.context.returns.push (A.move (ends.stop + 1)) = r' at hpush ⊢
    cases hpush with
    | @ok returns returns' hreturns =>
      have hpushed : Aligned A { m with context := { m.context with returns } }
          { m' with context := { m'.context with returns := returns' } } :=
        { h with context := { h.context with returns := hreturns } }
      exact .ok (hpushed.goto line)
    | error hf => exact .error (R.inStatement _ _ text hf)
  | jump offset => exact .ok { h with offset := rfl }
  | loop record =>
    refine .ok { h with offset := hstop, context := { h.context with loops := fun name => ?_ } }
    rw [Std.TreeMap.getElem?_insert, Std.TreeMap.getElem?_insert, h.context.loops, hstop]
    split <;> rfl
  | endOfLine => exact .ok { h with offset := hnewline }

theorem executeAt (h : Aligned A m m') {p : Nat} (hstart : IsStart source p)
    (hlt : p < Text.byteLength source) :
    Option.Rel R.fault (m.executeAt p).1 (m'.executeAt (A.move p)).1 ∧
      Aligned A (m.executeAt p).2 (m'.executeAt (A.move p)).2 := by
  have htext : firstStatement (Text.dropBytes (A.move p) m'.source) =
      R.text (firstStatement (Text.dropBytes p m.source)) := by
    rw [h.source, h.source', A.statement p hstart hlt]
  have hkeeps : R.Leads A.move (m.statementAt p) (m'.statementAt (A.move p)) := by
    unfold statementAt
    rw [htext]
    exact .inStatement _ (.execute _)
  have hstop : (boundary m'.source (A.move p)).stop + 1 = A.move ((boundary m.source p).stop + 1) := by
    rw [h.source, h.source', A.stop p hstart hlt]
  have hnewline : (boundary m'.source (A.move p)).newline + 1 =
      A.move ((boundary m.source p).newline + 1) := by
    rw [h.source, h.source', A.newline p hstart hlt]
  obtain ⟨hresult, hcontext⟩ := hkeeps m.context m'.context h.context
  have hstanding : Aligned A (m.standing p (outcome (m.statementAt p) m.context).2)
      (m'.standing (A.move p) (outcome (m'.statementAt (A.move p)) m'.context).2) :=
    ⟨h.source, h.source', rfl, rfl, h.interrupted, hcontext⟩
  cases ho : outcome (m.statementAt p) m.context with
  | mk result c =>
    cases ho' : outcome (m'.statementAt (A.move p)) m'.context with
    | mk result' c' =>
      rw [ho, ho'] at hresult hstanding
      cases hresult with
      | error hf =>
        rw [executeAt_error ho, executeAt_error ho']
        exact ⟨.some hf, hstanding⟩
      | @ok flow flow' hflow =>
        subst hflow
        have hfollow : Alike R.fault (Aligned A) (m.followAt p c flow)
            (m'.followAt (A.move p) c' (flow.moved A.move)) := by
          unfold followAt
          rw [htext]
          exact hstanding.follow hstop hnewline flow
        generalize hm : m.followAt p c flow = r at hfollow
        generalize hm' : m'.followAt (A.move p) c' (flow.moved A.move) = r' at hfollow
        cases hfollow with
        | error hf =>
          rw [executeAt_followAt_error ho hm, executeAt_followAt_error ho' hm']
          exact ⟨.some hf, hstanding⟩
        | ok haligned =>
          rw [executeAt_followAt_ok ho hm, executeAt_followAt_ok ho' hm']
          exact ⟨.none, haligned⟩

theorem step (h : Aligned A m m') (hsited : Sited source m) :
    Option.Rel R.fault m.step.1 m'.step.1 ∧ Aligned A m.step.2 m'.step.2 := by
  have hplace := h.place hsited.offset
  have hstart := hsited.isStart_of_inspects hsited.inspects_place
  have hlt_iff := A.lt_iff m.place hstart
  unfold Machine.step
  rw [h.source, h.source', hplace]
  by_cases hlt : m.place < Text.byteLength source
  · rw [if_pos hlt, if_pos (hlt_iff.mpr hlt)]
    exact h.executeAt hstart hlt
  · rw [if_neg hlt, if_neg (mt hlt_iff.mp hlt)]
    exact ⟨.none, { h with source := rfl, source' := rfl, offset := rfl, status := rfl }⟩

end Aligned

/-! ### Runs -/

variable {R : Reading} {source source' : Text}

theorem simulation_aligned (A : Alignment R source source') :
    Simulation R.fault fun m m' => Sited source m ∧ Aligned A m m' where
  isRunning _ _ h := h.2.isRunning
  interrupted _ _ h := h.2.interrupted
  step m _ h := by
    obtain ⟨hfault, haligned⟩ := h.2.step h.1
    exact ⟨hfault, h.1.step, haligned⟩
  halt m _ h := ⟨(invariant_sited source).halt m h.1, { h.2 with status := rfl }⟩
  flag m _ on h := ⟨(invariant_sited source).flag m on h.1, { h.2 with interrupted := rfl }⟩
  seed m _ n h :=
    ⟨(invariant_sited source).seed m n h.1,
      { h.2 with context := { h.2.context with random := rfl } }⟩

theorem aligned_load (A : Alignment R source source') (display : Screen.Display)
    (entropy : Generator) :
    Aligned A (load source display entropy) (load source' display entropy) where
  source := rfl
  source' := rfl
  offset := A.move_zero.symm
  status := rfl
  interrupted := rfl
  context :=
    { vars := rfl
      loops := by simp [load, Context.start]
      returns := ⟨rfl, rfl⟩
      data := DataCursor.alike_harvest A
      display := rfl
      random := rfl
      entropy := rfl }

/-- Machines with aligned programs stay in step, call by call. -/
theorem trace_aligned (A : Alignment R source source')
    (hbreak : R.fault { kind := .interrupted } { kind := .interrupted }) (display : Screen.Display)
    (entropy : Generator) (calls : List Call) :
    List.Forall₂ (fun x x' => Option.Rel (Event.Alike R.fault) x.1 x'.1 ∧ Aligned A x.2 x'.2)
      ((load source display entropy).trace calls) ((load source' display entropy).trace calls) := by
  have hdisplay (f : Screen.Display → Screen.Display) (m m' : Machine)
      (h : Sited source m ∧ Aligned A m m') :
      Sited source (m.onDisplay f) ∧ Aligned A (m.onDisplay f) (m'.onDisplay f) :=
    ⟨(invariant_sited source).display m f h.1, h.2.onDisplay f⟩
  have htrace := (simulation_aligned A).trace hbreak calls (fun f _ => hdisplay f)
    ⟨(invariant_sited source).load display entropy, aligned_load A display entropy⟩
  exact htrace.1.imp fun _ _ h => ⟨h.1, h.2.2⟩

end SpectrumBasic.Machine
