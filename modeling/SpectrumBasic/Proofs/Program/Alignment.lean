import SpectrumBasic.Proofs.Program.Walk
import SpectrumBasic.Proofs.Statement.Reading

/-! Programs whose statements stand at other places and read alike. If each statement of one program
has its counterpart in the other, and the counterpart of what follows it follows there, then searches
for a line end at counterparts, walks pass counterparts, and both programs hold the same `DATA`. -/

namespace SpectrumBasic.Program

/-- A program next to another one: where the statements of `source` stand in `source'`, and that they
read alike there. Only starts of statements count. -/
structure Alignment (R : Reading) (source source' : Text) where
  move : Nat → Nat
  move_zero : move 0 = 0
  lt_iff : ∀ p, IsStart source p →
    (move p < Text.byteLength source' ↔ p < Text.byteLength source)
  isCut : ∀ p, IsStart source p → p < Text.byteLength source → IsCut source' (move p)
  statement : ∀ p, IsStart source p → p < Text.byteLength source →
    firstStatement (Text.dropBytes (move p) source') =
      R.text (firstStatement (Text.dropBytes p source))
  stop : ∀ p, IsStart source p → p < Text.byteLength source →
    (boundary source' (move p)).stop + 1 = move ((boundary source p).stop + 1)
  newline : ∀ p, IsStart source p → p < Text.byteLength source →
    (boundary source' (move p)).newline + 1 = move ((boundary source p).newline + 1)

namespace Alignment

variable {R : Reading} {source source' : Text} (A : Alignment R source source')

/-! ### The search for a line -/

theorem dropBytes_eq_nil_iff {p : Nat} (h : IsStart source p) :
    Text.dropBytes (A.move p) source' = [] ↔ Text.dropBytes p source = [] := by
  by_cases hlt : p < Text.byteLength source
  · have hne := (h.isCut (Nat.le_of_lt hlt)).dropBytes_ne_nil hlt
    have hne' := (A.isCut p h hlt).dropBytes_ne_nil ((A.lt_iff p h).mpr hlt)
    simp only [hne, hne']
  · have hle' : ¬ A.move p < Text.byteLength source' := by rwa [A.lt_iff p h]
    rw [Text.dropBytes_of_byteLength_le (Nat.le_of_not_lt hlt),
      Text.dropBytes_of_byteLength_le (Nat.le_of_not_lt hle')]

/-- A search ends at the counterpart of where it ends in the other program. -/
theorem seekFrom_move (goal p : Nat) (t : Text) (ht : t = Text.dropBytes p source)
    (h : IsStart source p) :
    seekFrom goal (A.move p) (Text.dropBytes (A.move p) source') = A.move (seekFrom goal p t) := by
  have hnil {p : Nat} (h : IsStart source p) := A.dropBytes_eq_nil_iff h
  have hlt {p : Nat} (hne : Text.dropBytes p source ≠ []) : p < Text.byteLength source :=
    Nat.lt_of_not_le (mt Text.dropBytes_of_byteLength_le hne)
  -- Where the first text is not at its end the second has the same line number in front.
  have hnumber {p : Nat} (h : IsStart source p) (hne : Text.dropBytes p source ≠ []) :
      lineNumber? (firstStatement (Text.dropBytes (A.move p) source')) =
        lineNumber? (firstStatement (Text.dropBytes p source)) := by
    rw [A.statement p h (hlt hne), R.lineNumber_text]
  fun_induction Program.seekFrom goal p t with
  | case1 p t hend =>
    subst ht
    rw [seekFrom, if_pos]
    by_cases hne : Text.dropBytes p source = []
    · exact .inl ((hnil h).mpr hne)
    · rw [hnumber h hne]
      exact .inr (hend.resolve_left hne)
  | case2 p t hgo line ih =>
    subst ht
    obtain ⟨hne, -⟩ := not_or.mp hgo
    have hlt := hlt hne
    have hcut := h.isCut (Nat.le_of_lt hlt)
    have hcut' := A.isCut p h hlt
    have hstart : A.move p + Text.byteLength
        ((Text.dropBytes (A.move p) source').takeWhile (· ≠ '\n')) + 1 =
          A.move ((boundary source p).newline + 1) := A.newline p h hlt
    rw [seekFrom, if_neg]
    · dsimp only
      rw [← hcut'.dropBytes_newline, A.newline p h hlt, hstart]
      exact ih hcut.dropBytes_newline.symm hcut.isStart_newline
    · rw [hnil h, hnumber h hne]
      exact hgo

/-! ### The walk and the `DATA` -/

theorem beginsWith_text (R : Reading) (word : String) (text : Text) :
    beginsWith word (R.text text) = beginsWith word text := by
  unfold beginsWith
  rw [R.lex_text]

theorem nextStart_move {p : Nat} (h : IsStart source p) (hlt : p < Text.byteLength source) :
    nextStart source' (A.move p) = A.move (nextStart source p) := by
  unfold nextStart
  rw [A.statement p h hlt, beginsWith_text]
  split
  · exact A.newline p h hlt
  · exact A.stop p h hlt

theorem walkFrom_move {p : Nat} (h : IsStart source p) :
    walkFrom source' (A.move p) = (walkFrom source p).map R.text := by
  fun_induction walkFrom source p with
  | case1 p hlt ih =>
    have hnext := (h.isCut (Nat.le_of_lt hlt)).isStart_nextStart.1
    rw [walkFrom, if_pos ((A.lt_iff p h).mpr hlt), A.statement p h hlt, A.nextStart_move h hlt,
      ih hnext, List.map_cons]
  | case2 p hle =>
    rw [walkFrom, if_neg (mt (A.lt_iff p h).mp hle), List.map_nil]

theorem walk_eq (A : Alignment R source source') : walk source' = (walk source).map R.text := by
  have h := A.walkFrom_move (.inl rfl)
  rwa [A.move_zero] at h

end Alignment

end SpectrumBasic.Program

namespace SpectrumBasic.DataCursor

open Attempt (Alike)
open Program (Alignment)

theorem isRaw_of_valuesOf {ts : List Token} {f : Fault} (h : valuesOf ts = .error f) : f.IsRaw := by
  induction ts with
  | nil => cases h
  | cons t ts ih =>
    unfold valuesOf at h
    split at h
    · exact ih h
    · split at h
      · cases hrest : valuesOf ts with
        | ok values =>
          rw [hrest] at h
          cases h
        | error f' =>
          rw [hrest] at h
          cases h
          exact ih hrest
      · cases h
        exact Fault.isRaw_syntaxAt _ _
    · cases h
      exact Fault.isRaw_syntaxAt _ _

theorem alike_gather (R : Reading) (texts : List Text) :
    Alike R.fault Eq (gather texts) (gather (texts.map R.text)) := by
  induction texts with
  | nil => exact .ok rfl
  | cons text texts ih =>
    have htokens : dataTokens (R.text text) = dataTokens text := by
      unfold dataTokens
      rw [Alignment.beginsWith_text, R.lex_text]
    rw [List.map_cons, gather, gather, htokens]
    cases hvalues : valuesOf (dataTokens text) with
    | error f => exact .error (R.inStatement f f text (R.raw f (isRaw_of_valuesOf hvalues)))
    | ok here =>
      generalize gather texts = r at ih ⊢
      generalize gather (texts.map R.text) = r' at ih ⊢
      cases ih with
      | ok h =>
        subst h
        exact .ok rfl
      | error hf => exact .error hf

/-- Aligned programs hold the same `DATA`, or corresponding faults in it. -/
theorem alike_harvest {R : Reading} {source source' : Text} (A : Alignment R source source') :
    Alike R.fault Eq (harvest source) (harvest source') := by
  have hgather := alike_gather R (Program.walk source)
  rw [harvest_eq, harvest_eq, A.walk_eq]
  generalize gather (Program.walk source) = r at hgather ⊢
  generalize gather ((Program.walk source).map R.text) = r' at hgather ⊢
  cases hgather with
  | ok h =>
    subst h
    exact .ok rfl
  | error hf => exact .error hf

end SpectrumBasic.DataCursor
