import SpectrumBasic.Proofs.Machine.Alignment
import SpectrumBasic.Proofs.Program.LetterCase
import SpectrumBasic.Proofs.Program.Padding

/-! Programs that differ in spelling only. Neither the case of letters nor blanks at the ends of
statements make a difference to a host: its calls return the same and leave machines that match, call
by call, but for the places of statements and the case of the text attached to a fault. -/

namespace SpectrumBasic

open Screen (Display)

namespace Machine

/-- The second machine is the first one with its places moved by `move`. A fault that the harvest of the
`DATA` ended with is changed by `g`. -/
structure Matches (move : Nat → Nat) (g : Fault → Fault) (m m' : Machine) : Prop where
  offset : m'.offset = move m.offset
  status : m'.status = m.status
  interrupted : m'.interrupted = m.interrupted
  vars : m'.context.vars = m.context.vars
  loops : ∀ name : String, m'.context.loops[name]? = m.context.loops[name]?.map (ForLoop.moved move)
  returns : m.context.returns.Moved move m'.context.returns
  depth : m'.context.returns.depth = m.context.returns.depth
  data : m'.context.data = m.context.data.mapError g
  random : m'.context.random = m.context.random
  entropy : m'.context.entropy = m.context.entropy
  display : m'.context.display = m.context.display

theorem Aligned.matches {R : Reading} {source source' : Text} {A : Program.Alignment R source source'}
    {m m' : Machine} {g : Fault → Fault} (h : Aligned A m m') (hg : ∀ f f', R.fault f f' → f' = g f) :
    Matches A.move g m m' where
  offset := h.offset
  status := h.status
  interrupted := h.interrupted
  vars := h.context.vars
  loops := h.context.loops
  returns := h.context.returns
  depth := h.context.returns.depth
  data := by
    have hdata := h.context.data
    generalize m.context.data = data at hdata
    generalize m'.context.data = data' at hdata
    cases hdata with
    | ok heq =>
      rw [heq]
      rfl
    | error hf =>
      rw [hg _ _ hf]
      rfl
  random := h.context.random
  entropy := h.context.entropy
  display := h.context.display

/-- A program in upper case does the same at the same places. Only the text attached to a fault is in
upper case too. -/
theorem trace_upper (source : Text) (display : Display) (entropy : Generator) (calls : List Call) :
    List.Forall₂
      (fun x x' => x'.1 = x.1.map (Event.mapFault Fault.upper) ∧ Matches id Fault.upper x.2 x'.2)
      ((load source display entropy).trace calls)
      ((load (Text.upper source) display entropy).trace calls) := by
  have hupper (f f' : Fault) (h : Reading.upper.fault f f') : f' = f.upper := h
  exact (trace_aligned (.upper source) rfl display entropy calls).imp fun _ _ h =>
    ⟨Event.eq_map_of_alike hupper h.1, h.2.matches hupper⟩

/-- A program with spaces, tabs or carriage returns put in front of its colons and newlines does the
same, and every place is moved on by what is put in front of it. -/
theorem trace_pad (g : Padding) (source : Text) (display : Display) (entropy : Generator)
    (calls : List Call) :
    List.Forall₂ (fun x x' => x'.1 = x.1 ∧ Matches (g.shift source) id x.2 x'.2)
      ((load source display entropy).trace calls)
      ((load (g.pad source) display entropy).trace calls) := by
  have hplain (f f' : Fault) (h : Reading.plain.fault f f') : f' = id f := h.symm
  exact (trace_aligned (g.alignment source) rfl display entropy calls).imp fun _ _ h =>
    ⟨Event.eq_of_alike h.1, h.2.matches hplain⟩

end Machine

end SpectrumBasic
