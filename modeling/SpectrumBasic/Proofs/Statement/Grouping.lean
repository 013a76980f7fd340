import Mathlib.Data.List.Chain
import SpectrumBasic.Proofs.Statement.Blame

/-! The phrases of a statement are the only way to draw its tokens together. A statement with some of
its tokens drawn together is a list of single tokens and of runs, where a run may have any columns and
any parts. Dividers, the target of an assignment and the `=` behind it have to be single, all others have
to be in runs, and no run may be empty or stand next to another one. Which tokens are single then says
where every run begins and ends. -/

namespace SpectrumBasic

/-- A token that stands alone, or an expression with the columns and the parts that it is given. -/
inductive Grouped
  | single (t : Token)
  | run (span : Span) (parts : List Token)

namespace Grouped

def parts : Grouped → List Token
  | single t => [t]
  | run _ parts => parts

/-- For each of the parts, whether it stands alone. -/
def solos : Grouped → List Bool
  | single _ => [true]
  | run _ parts => List.replicate parts.length false

def isRun : Grouped → Bool
  | single _ => false
  | run _ _ => true

/-- Every run goes from the start of its first part to the end of its last one, so that it has parts, and
no two runs are neighbours. -/
structure Formed (gs : List Grouped) : Prop where
  runs : ∀ span parts, run span parts ∈ gs → ∃ first last, parts.head? = some first ∧
    parts.getLast? = some last ∧ span = ⟨first.span.start, last.span.stop⟩
  maximal : gs.IsChain fun g g' => ¬ (g.isRun = true ∧ g'.isRun = true)

end Grouped

/-- The token at a position has to stand alone: it is a separator or a word, or the command assigns, and
it is a name in front or an `=` right behind such a name. -/
def Token.StandsApart (assigns : Bool) (ts : List Token) (i : Nat) : Prop :=
  (∃ t, ts[i]? = some t ∧ ((∃ s, t.kind = .separator s) ∨ ∃ w, t.kind = .word w)) ∨
  assigns = true ∧ (∃ t name, ts[0]? = some t ∧ t.kind = .name name) ∧
    (i = 0 ∨ i = 1 ∧ ∃ t, ts[1]? = some t ∧ t.kind = .operator .equal)

/-- The tokens `ts` are drawn together to `gs`: none is lost or moved, and those are single that have to
be. -/
structure IsGrouping (assigns : Bool) (ts : List Token) (gs : List Grouped) : Prop
    extends Grouped.Formed gs where
  flatten : gs.flatMap Grouped.parts = ts
  apart : ∀ i, (gs.flatMap Grouped.solos)[i]? = some true ↔ Token.StandsApart assigns ts i

/-! ### There is at most one -/

namespace Grouped

theorem length_solos (g : Grouped) : g.solos.length = g.parts.length := by
  cases g <;> simp [solos, parts]

theorem length_flatMap_solos (gs : List Grouped) :
    (gs.flatMap solos).length = (gs.flatMap parts).length := by
  simp [List.length_flatMap, length_solos]

namespace Formed

variable {g : Grouped} {gs gs' : List Grouped} {span : Span} {parts : List Token}

theorem tail (h : Formed (g :: gs)) : Formed gs :=
  ⟨fun span parts hrun => h.runs span parts (List.mem_cons_of_mem g hrun), h.maximal.of_cons⟩

theorem parts_ne_nil (h : Formed (g :: gs)) : g.parts ≠ [] := by
  cases g with
  | single t => simp [Grouped.parts]
  | run span parts =>
    obtain ⟨first, last, hfirst, -⟩ := h.runs span parts List.mem_cons_self
    rintro rfl
    cases hfirst

/-- A run is as long as there are tokens that are not single. -/
theorem takeWhile_solos (h : Formed (run span parts :: gs)) :
    ((run span parts :: gs).flatMap solos).takeWhile (!·) = List.replicate parts.length false := by
  rw [List.flatMap_cons, solos, List.takeWhile_append_of_pos (by simp)]
  cases gs with
  | nil => simp
  | cons g gs =>
    cases g with
    | single t => simp [solos]
    | run span' parts' => simpa [isRun] using h.maximal

theorem head_solos (h : Formed (g :: gs)) :
    ((g :: gs).flatMap solos).head? = some !g.isRun := by
  cases g with
  | single t => rfl
  | run span parts =>
    obtain ⟨t, ts, hparts⟩ := List.exists_cons_of_ne_nil h.parts_ne_nil
    have hparts : parts = t :: ts := hparts
    simp [solos, isRun, hparts, List.replicate_succ]

theorem unique (h : Formed gs) (h' : Formed gs')
    (hparts : gs.flatMap Grouped.parts = gs'.flatMap Grouped.parts)
    (hsolos : gs.flatMap solos = gs'.flatMap solos) : gs = gs' := by
  induction gs generalizing gs' with
  | nil =>
    cases gs' with
    | nil => rfl
    | cons g' gs' => simp [h'.parts_ne_nil] at hparts
  | cons g gs ih =>
    cases gs' with
    | nil => simp [h.parts_ne_nil] at hparts
    | cons g' gs' =>
      have hhead := h.head_solos
      rw [hsolos, h'.head_solos] at hhead
      -- once the first pieces have equally many parts, the lists are cut at the same place
      have hcut (hlength : g.parts.length = g'.parts.length) : g.parts = g'.parts ∧ gs = gs' := by
        rw [List.flatMap_cons, List.flatMap_cons] at hparts hsolos
        obtain ⟨hfirst, hrest⟩ := List.append_inj hparts hlength
        obtain ⟨-, hsolos⟩ := List.append_inj hsolos (by rw [length_solos, length_solos, hlength])
        exact ⟨hfirst, ih h.tail h'.tail hrest hsolos⟩
      cases g with
      | single t =>
        cases g' with
        | single t' =>
          obtain ⟨hfirst, rfl⟩ := hcut rfl
          cases hfirst
          rfl
        | run span' parts' => simp [isRun] at hhead
      | run span parts =>
        cases g' with
        | single t' => simp [isRun] at hhead
        | run span' parts' =>
          have hwhile := h.takeWhile_solos
          rw [hsolos, h'.takeWhile_solos] at hwhile
          have hlength : parts.length = parts'.length := by simpa using hwhile.symm
          obtain ⟨hfirst, rfl⟩ := hcut hlength
          obtain rfl : parts = parts' := hfirst
          obtain ⟨first, last, hfirst, hlast, rfl⟩ := h.runs _ _ List.mem_cons_self
          obtain ⟨first', last', hfirst', hlast', rfl⟩ := h'.runs _ _ List.mem_cons_self
          rw [hfirst] at hfirst'
          rw [hlast] at hlast'
          cases hfirst'
          cases hlast'
          rfl

end Formed

end Grouped

theorem IsGrouping.unique {assigns : Bool} {ts : List Token} {gs gs' : List Grouped}
    (h : IsGrouping assigns ts gs) (h' : IsGrouping assigns ts gs') : gs = gs' := by
  refine h.toFormed.unique h'.toFormed (h.flatten.trans h'.flatten.symm) (List.ext_getElem? fun i => ?_)
  have hlength : (gs.flatMap Grouped.solos).length = (gs'.flatMap Grouped.solos).length := by
    rw [Grouped.length_flatMap_solos, Grouped.length_flatMap_solos, h.flatten, h'.flatten]
  have hsolo := (h.apart i).trans (h'.apart i).symm
  by_cases hi : i < (gs.flatMap Grouped.solos).length
  · have hi' : i < (gs'.flatMap Grouped.solos).length := hlength ▸ hi
    rw [List.getElem?_eq_getElem hi, List.getElem?_eq_getElem hi', Option.some_inj,
      Option.some_inj] at hsolo
    rw [List.getElem?_eq_getElem hi, List.getElem?_eq_getElem hi', Bool.eq_iff_iff.mpr hsolo]
  · rw [List.getElem?_eq_none (by omega), List.getElem?_eq_none (by omega)]

/-! ### The phrases are one -/

namespace Phrase

/-- A phrase with the columns and the parts that it has. -/
def grouped : Phrase → Grouped
  | token t => .single t
  | expression first more => .run (expression first more).span (first :: more)

theorem parts_grouped (p : Phrase) : p.grouped.parts = p.tokens := by
  cases p <;> rfl

theorem flatMap_parts (ps : List Phrase) :
    (ps.map grouped).flatMap Grouped.parts = ps.flatMap tokens := by
  simp [List.flatMap_map, parts_grouped]

/-- The single phrases of a grouping are the dividers. -/
theorem solos_group (ts : List Token) :
    ((group ts).map grouped).flatMap Grouped.solos = ts.map Token.isDivider := by
  fun_induction group ts with
  | case1 => rfl
  | case2 t ts hdivider ih => simpa [grouped, Grouped.solos, hdivider] using ih
  | case3 t ts hdivider first more ps hgroup ih =>
    rw [hgroup] at ih
    simpa [grouped, Grouped.solos, hdivider, List.replicate_succ] using ih
  | case4 t ts hdivider hgroup ih => simpa [grouped, Grouped.solos, hdivider] using ih

theorem exists_of_run_mem {ps : List Phrase} {span : Span} {parts : List Token}
    (h : .run span parts ∈ ps.map grouped) : ∃ first last, parts.head? = some first ∧
      parts.getLast? = some last ∧ span = ⟨first.span.start, last.span.stop⟩ := by
  obtain ⟨p, -, hp⟩ := List.mem_map.mp h
  cases p with
  | token t => cases hp
  | expression first more =>
    cases hp
    exact ⟨first, more.getLast?.getD first, rfl, List.getLast?_cons, rfl⟩

/-- A phrase goes in front unless it is an expression and the first one is one, too. -/
theorem formed_cons {p : Phrase} {ps : List Phrase} (h : Grouped.Formed (ps.map grouped))
    (hp : ∀ q ∈ ps.head?, ¬ (p.grouped.isRun = true ∧ q.grouped.isRun = true)) :
    Grouped.Formed ((p :: ps).map grouped) := by
  refine ⟨fun span parts => exists_of_run_mem, ?_⟩
  rw [List.map_cons, List.isChain_cons]
  refine ⟨fun g hg => ?_, h.maximal⟩
  rw [List.head?_map] at hg
  obtain ⟨q, hq, rfl⟩ := Option.map_eq_some_iff.mp hg
  exact hp q hq

theorem formed_cons_token (t : Token) {ps : List Phrase} (h : Grouped.Formed (ps.map grouped)) :
    Grouped.Formed ((token t :: ps).map grouped) :=
  formed_cons h fun q _ => by simp [grouped, Grouped.isRun]

theorem formed_group (ts : List Token) : Grouped.Formed ((group ts).map grouped) := by
  fun_induction group ts with
  | case1 => exact ⟨by simp, .nil⟩
  | case2 t ts hdivider ih => exact formed_cons_token t ih
  | case3 t ts hdivider first more ps hgroup ih =>
    rw [hgroup] at ih
    refine formed_cons ih.tail fun q hq => ?_
    have hnext := (List.isChain_cons.mp ih.maximal).1 q.grouped
    exact hnext (by rw [List.head?_map]; exact Option.mem_map_of_mem grouped hq)
  | case4 t ts hdivider hgroup ih =>
    refine formed_cons ih fun q hq => ?_
    cases q with
    | token t => simp [grouped, Grouped.isRun]
    | expression first more =>
      obtain ⟨ps, hps⟩ := List.head?_eq_some_iff.mp hq
      exact absurd hps (hgroup first more ps)

theorem isDivider_iff (t : Token) :
    t.isDivider = true ↔ (∃ s, t.kind = .separator s) ∨ ∃ w, t.kind = .word w := by
  unfold Token.isDivider
  split <;> simp_all

theorem getElem?_map_isDivider (ts : List Token) (i : Nat) :
    (ts.map Token.isDivider)[i]? = some true ↔
      ∃ t, ts[i]? = some t ∧ ((∃ s, t.kind = .separator s) ∨ ∃ w, t.kind = .word w) := by
  simp [List.getElem?_map, isDivider_iff]

theorem formed_ofTokens (assigns : Bool) (ts : List Token) :
    Grouped.Formed ((ofTokens assigns ts).map grouped) := by
  unfold ofTokens
  split
  · exact formed_cons_token _ (formed_cons_token _ (formed_group _))
  · exact formed_cons_token _ (formed_group _)
  · exact formed_group _

/-- The single phrases are those that have to be. -/
theorem solos_ofTokens (assigns : Bool) (ts : List Token) (i : Nat) :
    (((ofTokens assigns ts).map grouped).flatMap Grouped.solos)[i]? = some true ↔
      Token.StandsApart assigns ts i := by
  have hfirst {t u : Token} {us : List Token} (h : (u :: us)[0]? = some t) : u = t := by simpa using h
  unfold ofTokens Token.StandsApart
  split
  · rename_i rest
    simp only [List.map_cons, List.flatMap_cons, solos_group]
    rcases i with _ | _ | i
    · simp [grouped, Grouped.solos]
    · simp [grouped, Grouped.solos]
    · simpa [grouped, Grouped.solos] using getElem?_map_isDivider rest i
  · rename_i rest hequal
    simp only [List.map_cons, List.flatMap_cons, solos_group]
    rcases i with _ | i
    · simp [grouped, Grouped.solos]
    · -- behind the target there is no `=`
      have hnext : ¬ ∃ t, rest[0]? = some t ∧ t.kind = .operator .equal := by
        rintro ⟨⟨span, kind⟩, ht, rfl⟩
        cases rest with
        | nil => cases ht
        | cons u rest => exact hequal span rest (by rw [hfirst ht])
      simpa [grouped, Grouped.solos, eq_false hnext] using getElem?_map_isDivider rest i
  · rename_i hname
    rw [solos_group, getElem?_map_isDivider]
    refine ⟨.inl, fun h => h.resolve_right ?_⟩
    rintro ⟨rfl, ⟨⟨span, kind⟩, name, ht, rfl⟩, -⟩
    cases ts with
    | nil => cases ht
    | cons u ts => exact hname span name ts rfl (by rw [hfirst ht])

theorem isGrouping_ofTokens (assigns : Bool) (ts : List Token) :
    IsGrouping assigns ts ((ofTokens assigns ts).map grouped) where
  toFormed := formed_ofTokens assigns ts
  flatten := by rw [flatMap_parts, flatMap_tokens_ofTokens]
  apart := solos_ofTokens assigns ts

end Phrase

/-- Among all ways to draw the tokens of a statement together there is one in which no token is lost or
moved, all separators and words stand alone and, if the command assigns, a name in front and an `=` right
behind it do, all others are in expressions with the columns from their first to their last part, and no
two expressions are neighbours: the phrases of the statement. -/
theorem isGrouping_iff (assigns : Bool) (ts : List Token) (gs : List Grouped) :
    IsGrouping assigns ts gs ↔ gs = (Phrase.ofTokens assigns ts).map Phrase.grouped := by
  constructor
  · intro h
    exact h.unique (Phrase.isGrouping_ofTokens assigns ts)
  · rintro rfl
    exact Phrase.isGrouping_ofTokens assigns ts

end SpectrumBasic
