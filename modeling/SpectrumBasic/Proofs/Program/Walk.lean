import SpectrumBasic.DataCursor
import SpectrumBasic.Proofs.Program.Segment
import SpectrumBasic.Proofs.Token.Numeral

/-! The `DATA` of a program, found in two ways: by cutting the text into lines and the lines into
pieces, and by walking from statement to statement by offset, as a machine does that never jumps.
Both read the same numbers and fail at the same token. -/

namespace SpectrumBasic

namespace Program

/-- The first token of the statement is this name. -/
def beginsWith (word : String) (text : Text) : Bool :=
  ((Token.lex text).head?.map Token.kind) = some (.name word)

/-- Where the statement behind the one at an offset starts. A remark takes the rest of its line. -/
def nextStart (source : Text) (offset : Nat) : Nat :=
  if beginsWith "REM" (firstStatement (Text.dropBytes offset source)) then
    (boundary source offset).newline + 1
  else (boundary source offset).stop + 1

theorem lt_nextStart (source : Text) (offset : Nat) : offset < nextStart source offset := by
  have hstop : offset ≤ (boundary source offset).stop := le_boundary_stop source offset
  have hnewline : offset ≤ (boundary source offset).newline := Nat.le_add_right _ _
  unfold nextStart
  split <;> omega

/-- The statements of a program from an offset on, each without the blanks around it. -/
def walkFrom (source : Text) (offset : Nat) : List Text :=
  if offset < Text.byteLength source then
    firstStatement (Text.dropBytes offset source) :: walkFrom source (nextStart source offset)
  else []
termination_by Text.byteLength source - offset
decreasing_by
  have := lt_nextStart source offset
  omega

def walk (source : Text) : List Text := walkFrom source 0

theorem exists_of_mem_walkFrom {source text : Text} {offset : Nat} (h : text ∈ walkFrom source offset) :
    ∃ start, text = firstStatement (Text.dropBytes start source) := by
  fun_induction walkFrom source offset with
  | case1 offset hlt ih =>
    obtain rfl | h := List.mem_cons.mp h
    · exact ⟨offset, rfl⟩
    · exact ih h
  | case2 => cases h

/-- What the first statement of a text takes of it. -/
def passed (t : Text) : Text :=
  if beginsWith "REM" (firstStatement t) then t.takeWhile (· ≠ '\n')
  else t.takeWhile fun c => !endsStatement c

/-- The walk over a text that is cut off behind each statement. -/
def statementsOf (t : Text) : List Text :=
  if t = [] then [] else firstStatement t :: statementsOf (t.drop ((passed t).length + 1))
termination_by t.length
decreasing_by
  rename_i hne
  have := List.length_pos_iff.mpr hne
  simp only [List.length_drop]
  omega

theorem statementsOf_of_ne_nil {t : Text} (h : t ≠ []) :
    statementsOf t = firstStatement t :: statementsOf (t.drop ((passed t).length + 1)) := by
  rw [statementsOf, if_neg h]

@[simp] theorem statementsOf_nil : statementsOf [] = [] := by
  rw [statementsOf, if_pos rfl]

theorem IsCut.isStart_nextStart {t : Text} {offset : Nat} (h : IsCut t offset) :
    IsStart t (nextStart t offset) ∧
      Text.dropBytes (nextStart t offset) t =
        (Text.dropBytes offset t).drop ((passed (Text.dropBytes offset t)).length + 1) := by
  unfold nextStart passed
  split
  · exact ⟨h.isStart_newline, h.dropBytes_newline⟩
  · exact ⟨h.isStart_stop, h.dropBytes_stop⟩

theorem walkFrom_eq {source : Text} {offset : Nat} (h : IsStart source offset) :
    walkFrom source offset = statementsOf (Text.dropBytes offset source) := by
  fun_induction walkFrom source offset with
  | case1 offset hlt ih =>
    have hcut := h.isCut (Nat.le_of_lt hlt)
    obtain ⟨hstart, hdrop⟩ := hcut.isStart_nextStart
    rw [ih hstart, hdrop, statementsOf_of_ne_nil (hcut.dropBytes_ne_nil hlt)]
  | case2 offset hle => rw [Text.dropBytes_of_byteLength_le (by omega), statementsOf_nil]

theorem walk_eq (source : Text) : walk source = statementsOf source := by
  rw [walk, walkFrom_eq (.inl rfl), Text.dropBytes_zero]

theorem beginsWith_iff {word : String} {text : Text} :
    beginsWith word text = true ↔ ∃ span ts, Token.lex text = ⟨span, .name word⟩ :: ts := by
  unfold beginsWith
  cases Token.lex text with
  | nil => simp
  | cons t ts =>
    obtain ⟨span, kind⟩ := t
    simp

end Program

namespace DataCursor

open Program (beginsWith beginsWith_iff firstStatement endsStatement passed statementsOf
  statementsOf_nil statementsOf_of_ne_nil walk)

/-- The tokens behind the `DATA` of a statement. Another statement has none. -/
def dataTokens (text : Text) : List Token :=
  if beginsWith "DATA" text then (Token.lex text).tail else []

/-- The numbers of all `DATA` among some statements. -/
def gather : List Text → Except Fault (List Float)
  | [] => .ok []
  | text :: texts => do
    let here ← (valuesOf (dataTokens text)).mapError (·.inStatement text)
    let there ← gather texts
    return here ++ there

/-- The statements of a line that is given as the pieces between its colons, up to a remark. -/
def visible : List Text → List Text
  | [] => []
  | piece :: pieces =>
    Text.trim piece :: if beginsWith "REM" (Text.trim piece) then [] else visible pieces

theorem gather_append (texts texts' : List Text) :
    gather (texts ++ texts') =
      (do let xs ← gather texts; let ys ← gather texts'; return xs ++ ys) := by
  induction texts with
  | nil => cases h : gather texts' <;> simp [gather, h, bind, Except.bind, pure, Except.pure]
  | cons text texts ih =>
    rw [List.cons_append, gather, ih, gather]
    cases (valuesOf (dataTokens text)).mapError (·.inStatement text) with
    | error f => rfl
    | ok here =>
      cases gather texts with
      | error f => rfl
      | ok there =>
        cases gather texts' with
        | error f => rfl
        | ok xs => simp [bind, Except.bind, pure, Except.pure]

theorem gather_cons_of_nil {text : Text} (h : dataTokens text = []) (texts : List Text) :
    gather (text :: texts) = gather texts := by
  rw [gather, h, valuesOf]
  cases gather texts <;> rfl

theorem gather_cons_congr (text : Text) {texts texts' : List Text} (h : gather texts = gather texts') :
    gather (text :: texts) = gather (text :: texts') := by
  rw [gather, gather, h]

theorem dataTokens_nil : dataTokens [] = [] := by
  simp [dataTokens, beginsWith, Token.lex, Token.scan, Token.scanFrom]

theorem valuesOfLine_eq (pieces : List Text) : valuesOfLine pieces = gather (visible pieces) := by
  induction pieces with
  | nil => rfl
  | cons piece pieces ih =>
    unfold valuesOfLine visible
    dsimp only
    split
    · rename_i span ts hlex
      have hremark : beginsWith "REM" (Text.trim piece) = false := by simp [beginsWith, hlex]
      have htokens : dataTokens (Text.trim piece) = ts := by simp [dataTokens, beginsWith, hlex]
      rw [hremark, if_neg Bool.false_ne_true, gather, htokens, ih]
    · rename_i span ts hlex
      have hremark : beginsWith "REM" (Text.trim piece) = true := by simp [beginsWith, hlex]
      have htokens : dataTokens (Text.trim piece) = [] := by simp [dataTokens, beginsWith, hlex]
      rw [hremark, if_pos rfl, gather_cons_of_nil htokens, gather]
    · rename_i hdata hremark
      have hremark : beginsWith "REM" (Text.trim piece) = false := by
        rw [← Bool.not_eq_true, beginsWith_iff]
        rintro ⟨span, ts, hlex⟩
        exact hremark span ts hlex
      have htokens : dataTokens (Text.trim piece) = [] := by
        rw [dataTokens, if_neg]
        rw [beginsWith_iff]
        rintro ⟨span, ts, hlex⟩
        exact hdata span ts hlex
      rw [hremark, if_neg Bool.false_ne_true, gather_cons_of_nil htokens, ih]

/-- The lines of a program hold the same numbers one by one as all together. -/
theorem mapM_valuesOfLine (lines : List Text) :
    (lines.mapM fun line => valuesOfLine (Text.split ':' line)).map List.flatten =
      gather (lines.flatMap fun line => visible (Text.split ':' line)) := by
  induction lines with
  | nil => rfl
  | cons line lines ih =>
    rw [List.mapM_cons, List.flatMap_cons, gather_append, ← ih, valuesOfLine_eq]
    cases gather (visible (Text.split ':' line)) with
    | error f => rfl
    | ok here =>
      cases lines.mapM fun line => valuesOfLine (Text.split ':' line) with
      | error f => rfl
      | ok there => rfl

/-! ### The walk over the pieces -/

theorem endsStatement_eq_false {t : Text} (hcolon : ':' ∉ t) (hnewline : '\n' ∉ t) :
    ∀ c ∈ t, endsStatement c = false := by
  intro c hc
  simp [endsStatement, ne_of_mem_of_not_mem hc hcolon, ne_of_mem_of_not_mem hc hnewline]

/-- The statements of the first line of a text and those behind it. The walk omits an empty statement at
the very end. -/
theorem gather_statementsOf_line {line rest : Text} (hline : '\n' ∉ line)
    (hrest : ∀ c ∈ rest.head?, c = '\n') :
    gather (statementsOf (line ++ rest)) =
      gather (visible (Text.split ':' line) ++ statementsOf (rest.drop 1)) := by
  have hends : ∀ c ∈ rest.head?, endsStatement c = true := by
    intro c hc
    rw [hrest c hc]
    rfl
  have htake {t : Text} (ht : '\n' ∉ t) : (t ++ rest).takeWhile (· ≠ '\n') = t :=
    (Text.takeWhile_append_of_head (by simpa using fun c hc => ne_of_mem_of_not_mem hc ht)
      (by simpa using hrest)).1
  -- The induction goes over the pieces of the line, and `rest` is always all that follows the line.
  induction line using Text.split_induction ':' with
  | last line hcolon =>
    have hfirst := Program.takeWhile_endsStatement (endsStatement_eq_false hcolon hline) hends
    have hpassed : passed (line ++ rest) = line := by
      unfold passed
      rw [htake hline, hfirst, ite_self]
    rw [Text.split_of_not_mem hcolon, visible, visible, ite_self]
    by_cases hnil : line ++ rest = []
    · obtain ⟨rfl, rfl⟩ := List.append_eq_nil_iff.mp hnil
      simp only [List.append_nil, List.drop_nil, statementsOf_nil]
      exact (gather_cons_of_nil dataTokens_nil []).symm
    · rw [statementsOf_of_ne_nil hnil, firstStatement, hfirst, hpassed,
        List.drop_length_add_append]
      rfl
  | more first line hcolon ih =>
    obtain ⟨hfirst, hline'⟩ : '\n' ∉ first ∧ '\n' ∉ line := by simpa using hline
    have htext : first ++ ':' :: line ++ rest = first ++ ':' :: (line ++ rest) := by simp
    have hstop : (first ++ ':' :: (line ++ rest)).takeWhile (fun c => !endsStatement c) = first :=
      Program.takeWhile_endsStatement (endsStatement_eq_false hcolon hfirst) (by simp [endsStatement])
    have hstatement : firstStatement (first ++ ':' :: (line ++ rest)) = Text.trim first := by
      rw [firstStatement, hstop]
    rw [Text.split_append_cons hcolon, visible, statementsOf_of_ne_nil (by simp)]
    -- A remark takes the rest of the line, another statement only its own piece.
    by_cases hremark : beginsWith "REM" (Text.trim first) = true
    · have hpassed : passed (first ++ ':' :: line ++ rest) = first ++ ':' :: line := by
        rw [passed, htext, hstatement, if_pos hremark, ← htext, htake hline]
      rw [hpassed, List.drop_length_add_append, htext, hstatement, if_pos hremark]
      rfl
    · have hpassed : passed (first ++ ':' :: (line ++ rest)) = first := by
        rw [passed, hstatement, if_neg hremark, hstop]
      rw [htext, hpassed, List.drop_length_add_append, hstatement, if_neg hremark, List.cons_append]
      exact gather_cons_congr _ (ih hline')

theorem gather_statementsOf (source : Text) :
    gather (statementsOf source) =
      gather ((Text.split '\n' source).flatMap fun line => visible (Text.split ':' line)) := by
  induction source using Text.split_induction '\n' with
  | last line hline =>
    have hrest : ∀ c ∈ ([] : Text).head?, c = '\n' := nofun
    simpa [Text.split_of_not_mem hline] using gather_statementsOf_line hline hrest
  | more line source hline ih =>
    rw [gather_statementsOf_line hline (by simp), Text.split_append_cons hline, List.flatMap_cons,
      gather_append, gather_append, ← ih]
    rfl

/-- Cutting a program into lines and pieces finds the numbers that the walk finds. -/
theorem harvest_eq (source : Text) :
    harvest source = (gather (walk source)).map fun values => { values := values.toArray } := by
  rw [Program.walk_eq, gather_statementsOf, ← mapM_valuesOfLine, harvest]
  cases (Text.split '\n' source).mapM fun line => valuesOfLine (Text.split ':' line) <;> rfl

/-! ### Tokens that may stand in `DATA` -/

/-- The token is a number or a comma. -/
def isDatum (t : Token) : Bool :=
  match t.kind with
  | .number _ | .separator .comma => true
  | _ => false

/-- The number that a token stands for. -/
def value? (t : Token) : Option Float :=
  match t.kind with
  | .number numeral => Number.read? numeral
  | _ => none

/-- A number token of a `DATA` statement always has a value. -/
theorem isSome_value? {text : Text} {t : Token} {numeral : Text} (h : t ∈ dataTokens text)
    (ht : t.kind = .number numeral) : (value? t).isSome = true := by
  have hmem : t ∈ Token.lex text := by
    unfold dataTokens at h
    split at h
    · exact List.mem_of_mem_tail h
    · cases h
  rw [value?, ht]
  exact Token.isSome_read_of_mem_lex hmem ht

theorem valuesOf_of_not_isDatum {t : Token} (h : isDatum t = false) (ts : List Token) :
    valuesOf (t :: ts) = .error (.syntaxAt t.span .expectedNumber) := by
  unfold isDatum at h
  unfold valuesOf
  split at h
  · cases h
  · cases h
  · rename_i hnumber hcomma
    split
    · rename_i hkind
      exact absurd hkind hcomma
    · rename_i numeral hkind
      exact absurd hkind (hnumber numeral)
    · rfl

/-- Data are passed over, and their numbers taken. -/
theorem valuesOf_append {front : List Token} (hfront : ∀ t ∈ front, isDatum t = true)
    (hvalue : ∀ t ∈ front, ∀ numeral, t.kind = .number numeral → (value? t).isSome = true)
    (back : List Token) :
    valuesOf (front ++ back) = (valuesOf back).map (front.filterMap value? ++ ·) := by
  induction front with
  | nil => cases h : valuesOf back <;> simp [h, Except.map]
  | cons t front ih =>
    obtain ⟨ht, hfront⟩ := List.forall_mem_cons.mp hfront
    obtain ⟨hread, hvalue⟩ := List.forall_mem_cons.mp hvalue
    rw [List.cons_append, valuesOf, ih hfront hvalue]
    unfold isDatum at ht
    split at ht
    · rename_i numeral hkind
      obtain ⟨x, hx⟩ := Option.isSome_iff_exists.mp (hread numeral hkind)
      rw [List.filterMap_cons_some hx]
      rw [value?, hkind] at hx
      simp only [hkind, hx]
      cases valuesOf back <;> rfl
    · rename_i hkind
      have hnone : value? t = none := by rw [value?, hkind]
      rw [List.filterMap_cons_none hnone]
      simp only [hkind]
    · cases ht

/-- The numbers of a `DATA` statement. -/
def numbers (text : Text) : List Float := (dataTokens text).filterMap value?

/-- Behind the `DATA` of these statements there are only numbers and commas. -/
def AllData (texts : List Text) : Prop := ∀ text ∈ texts, ∀ t ∈ dataTokens text, isDatum t = true

/-- The first token of these statements that may not stand where it does is `t`, behind the `DATA` of
the statement `text`. -/
def FirstOffence (texts : List Text) (text : Text) (t : Token) : Prop :=
  ∃ before after front back, texts = before ++ text :: after ∧ AllData before ∧
    dataTokens text = front ++ t :: back ∧ (∀ t ∈ front, isDatum t = true) ∧ isDatum t = false

theorem allData_or_firstOffence (texts : List Text) :
    AllData texts ∨ ∃ text t, FirstOffence texts text t := by
  obtain hall | ⟨text, after, htexts, htext⟩ :=
    Text.takeWhile_cases (fun text => (dataTokens text).all isDatum) texts
  · left
    simpa [AllData] using hall
  · obtain hall | ⟨t, back, htokens, ht⟩ := Text.takeWhile_cases isDatum (dataTokens text)
    · rw [List.takeWhile_eq_self_iff] at hall
      rw [List.all_eq_true.mpr hall] at htext
      cases htext
    · refine .inr ⟨text, t, _, after, _, back, htexts, fun text' htext' => ?_, htokens,
        fun t ht => List.mem_takeWhile_imp ht, ht⟩
      have hdata := List.mem_takeWhile_imp htext'
      simpa using hdata

theorem gather_append_of_allData {before : List Text} (hbefore : AllData before) (texts : List Text) :
    gather (before ++ texts) = (gather texts).map (before.flatMap numbers ++ ·) := by
  induction before with
  | nil => cases h : gather texts <;> simp [h, Except.map]
  | cons text before ih =>
    obtain ⟨htext, hbefore⟩ := List.forall_mem_cons.mp hbefore
    have hvalues : valuesOf (dataTokens text) = .ok (numbers text) := by
      have happend := valuesOf_append htext (fun t ht _ => isSome_value? ht) []
      simpa [valuesOf, Except.map, numbers] using happend
    rw [List.cons_append, gather, hvalues, ih hbefore]
    cases gather texts with
    | error f => rfl
    | ok values => simp [Except.mapError, Except.map, bind, Except.bind, pure, Except.pure]

theorem gather_of_allData {texts : List Text} (h : AllData texts) :
    gather texts = .ok (texts.flatMap numbers) := by
  simpa [gather, Except.map] using gather_append_of_allData h []

theorem gather_of_firstOffence {texts : List Text} {text : Text} {t : Token}
    (h : FirstOffence texts text t) :
    gather texts =
      .error { kind := .syntaxError, span := t.span, reason := .expectedNumber,
               statement := some text } := by
  obtain ⟨before, after, front, back, rfl, hbefore, htokens, hfront, ht⟩ := h
  have hvalues : valuesOf (dataTokens text) = .error (.syntaxAt t.span .expectedNumber) := by
    have hmem : ∀ t ∈ front, t ∈ dataTokens text := by simp +contextual [htokens]
    rw [htokens, valuesOf_append hfront (fun t ht _ => isSome_value? (hmem t ht)),
      valuesOf_of_not_isDatum ht]
    rfl
  rw [gather_append_of_allData hbefore, gather, hvalues]
  rfl

/-- A fault in the data is that of the first token that may not stand where it does. -/
theorem exists_of_harvest_error {source : Text} {f : Fault} (h : harvest source = .error f) :
    ∃ text t, FirstOffence (walk source) text t ∧
      f = { kind := .syntaxError, span := t.span, reason := .expectedNumber,
            statement := some text } := by
  rw [harvest_eq] at h
  obtain hall | ⟨text, t, hfirst⟩ := allData_or_firstOffence (walk source)
  · rw [gather_of_allData hall] at h
    cases h
  · rw [gather_of_firstOffence hfirst] at h
    cases h
    exact ⟨text, t, hfirst, rfl⟩

/-- The harvest of a program agrees with the walk over its statements. It succeeds if all that the
`DATA` statements on the walk hold are numbers and commas, and then it has their numbers in the order
of the walk. Otherwise it fails at the first other token. -/
theorem harvest_iff_walk (source : Text) :
    (∀ cursor, harvest source = .ok cursor ↔
      AllData (walk source) ∧ cursor = { values := ((walk source).flatMap numbers).toArray }) ∧
    (∀ f, harvest source = .error f ↔ ∃ text t, FirstOffence (walk source) text t ∧
      f = { kind := .syntaxError, span := t.span, reason := .expectedNumber,
            statement := some text }) ∧
    ∀ text ∈ walk source, ∀ t ∈ dataTokens text, ∀ numeral, t.kind = .number numeral →
      (value? t).isSome = true := by
  refine ⟨fun cursor => ?_, fun f => ?_, fun text _ t ht numeral => isSome_value? ht⟩
  · rw [harvest_eq]
    constructor
    · intro hok
      obtain hall | ⟨text, t, hfirst⟩ := allData_or_firstOffence (walk source)
      · rw [gather_of_allData hall] at hok
        cases hok
        exact ⟨hall, rfl⟩
      · rw [gather_of_firstOffence hfirst] at hok
        cases hok
    · rintro ⟨hall, rfl⟩
      rw [gather_of_allData hall]
      rfl
  · rw [harvest_eq]
    constructor
    · intro herror
      obtain hall | ⟨text, t, hfirst⟩ := allData_or_firstOffence (walk source)
      · rw [gather_of_allData hall] at herror
        cases herror
      · rw [gather_of_firstOffence hfirst] at herror
        cases herror
        exact ⟨text, t, hfirst, rfl⟩
    · rintro ⟨text, t, hfirst, rfl⟩
      rw [gather_of_firstOffence hfirst]
      rfl

example : walk "10 DATA 1:REM x: DATA 2\r\n\n20 DATA -3:".toList =
    ["10 DATA 1".toList, "REM x".toList, [], "20 DATA -3".toList] := by
  decide +kernel

end DataCursor

end SpectrumBasic
