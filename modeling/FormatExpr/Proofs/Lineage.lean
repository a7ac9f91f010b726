import FormatExpr.Proofs.Asking
import FormatExpr.Session
import Mathlib.Data.List.Induction

/-!
# Where the table of a slot comes from

Tracing the steps of a session back from a slot gives its lineage, the bindings and layers that its
table was made with. Copying a parser continues the lineage of the slot it is copied from; a new
parser or a bound table ends it.

After any steps the parser of a slot is the one made from its lineage, and the slot gives the
answers of this parser (`Session.AnswersAs`). So steps which ask questions, and steps which write a
slot that the lineage does not pass through, might as well be missing
(`Session.run_answers_of_lineage`).
-/

namespace FormatExpr

/-! ### Making parsers -/

/-- One thing that is done to the table of a parser. -/
inductive Making where
  /-- The table takes the place of any other. -/
  | bind (table : Table)
  /-- The table is laid over the present one, or over an empty one. -/
  | layer (table : Table)

/-- The parser after this is done to it. -/
def Making.apply (p : Parser Table) : Making → Parser Table
  | bind table => ⟨some table⟩
  | layer table => ⟨some ((p.registry?.getD ∅).extend table)⟩

/-- A parser without a table after all this is done to it. -/
def Parser.made (ms : List Making) : Parser Table :=
  ms.foldl Making.apply .new

/-! ### Tracing steps back -/

/-- The action asks a question. -/
def Action.isQuestion : Action → Bool
  | isLoaded | parse _ | counts | hasProperty _ | hasMethod .. | arity _ => true
  | _ => false

namespace Step

variable {t : Step}

/-- The slot whose parser a step writes. -/
def written? (t : Step) : Option Slot :=
  match t.action with
  | .new | .ofRegistry _ | .load _ | .layer _ => some t.slot
  | .clone target => some target
  | _ => none

/-- The slot whose parser before the step the one of a slot after it is made from; there is none if
it is made anew. -/
def source (t : Step) (slot : Slot) : Option Slot :=
  if t.written? = some slot then
    match t.action with
    | .layer _ | .clone _ => some t.slot
    | _ => none
  else some slot

/-- What a step does to the table of a slot's parser itself, apart from copying it. -/
def makings (t : Step) (slot : Slot) : List Making :=
  if t.written? = some slot then
    match t.action with
    | .ofRegistry table | .load table => [.bind table]
    | .layer table => [.layer table]
    | _ => []
  else []

/-- A question writes no slot. -/
lemma written?_of_isQuestion (h : t.action.isQuestion = true) : t.written? = none := by
  obtain ⟨slot, action⟩ := t
  cases action with
  | new | ofRegistry table | load table | layer table | clone target => cases h
  | isLoaded | parse text | counts | hasProperty name | hasMethod name argCount | arity name => rfl

end Step

/-- The slot whose parser before some steps the one of a slot after them is made from; there is none
if it is made anew in between. The last step comes first in the list. -/
def origin : List Step → Slot → Option Slot
  | [], slot => some slot
  | t :: earlier, slot => (t.source slot).bind (origin earlier)

/-- All that is done to the table of a slot's parser since it is made anew, also where it is copied
from. The last step comes first in the list. -/
def lineage : List Step → Slot → List Making
  | [], _ => []
  | t :: earlier, slot => (t.source slot).elim [] (lineage earlier) ++ t.makings slot

namespace Session

variable {s s' : Session} {slot : Slot}

/-! ### Answers -/

/-- Each question to the slot is answered, and logged, for this parser. A question to its table has
no answer where none is bound. -/
structure AnswersAs (s : Session) (slot : Slot) (p : Parser Table) : Prop where
  isLoaded : (s.step ⟨slot, .isLoaded⟩).2 = (.loaded p.isLoaded, [])
  parse : ∀ text, (s.step ⟨slot, .parse text⟩).2
    = (.parsed (p.parse text), [.ofResult text (p.parse text)])
  hasProperty : ∀ name, (s.step ⟨slot, .hasProperty name⟩).2
    = (.known (p.registry?.map (·.containsProperty name)), [])
  hasMethod : ∀ name argCount, (s.step ⟨slot, .hasMethod name argCount⟩).2
    = (.known (p.registry?.map fun t => (t.arity? name).any (·.accepts argCount)), [])
  arity : ∀ name, (s.step ⟨slot, .arity name⟩).2
    = (.arity (p.registry?.bind (·.arity? name)), [])
  counts : (s.step ⟨slot, .counts⟩).2
    = (.counts (p.registry?.map fun t => (t.propertyCount, t.methodCount)), [])

/-- A slot gives the answers of its parser. -/
lemma answersAs_self (s : Session) (slot : Slot) : s.AnswersAs slot (s.parser slot) where
  isLoaded := rfl
  parse _ := rfl
  hasProperty _ := rfl
  hasMethod _ _ := rfl
  arity _ := rfl
  counts := rfl

/-! ### Steps -/

/-- A step leaves the parsers of the slots that it does not write. -/
lemma parser_step_of_not_written {t : Step} (h : t.written? ≠ some slot) :
    (s.step t).1.parser slot = s.parser slot := by
  obtain ⟨own, action⟩ := t
  cases action with
  | new | ofRegistry table | load table | layer table | clone target =>
    exact parser_put_of_ne s _ fun heq => h (congrArg some heq)
  | isLoaded | parse text | counts | hasProperty name | hasMethod name argCount | arity name => rfl

/-- A step makes the parser of each slot from that of its source. -/
lemma parser_step (s : Session) (t : Step) (slot : Slot) :
    (s.step t).1.parser slot
      = (t.makings slot).foldl Making.apply ((t.source slot).elim .new s.parser) := by
  by_cases h : t.written? = some slot
  · rw [Step.makings, Step.source, if_pos h, if_pos h]
    obtain ⟨own, action⟩ := t
    cases action with
    | new | ofRegistry table | load table | layer table | clone target =>
      obtain rfl := Option.some.inj h
      simp [step, Parser.ofRegistry, Parser.load, Making.apply]
    | isLoaded | parse text | counts | hasProperty name | hasMethod name argCount | arity name =>
      cases h
  · rw [Step.makings, Step.source, if_neg h, if_neg h, parser_step_of_not_written h]
    rfl

/-- What a question is answered, and logged for it, depends on the parser that is asked. -/
lemma step_question_congr (h : s.parser slot = s'.parser slot) {q : Action}
    (hq : q.isQuestion = true) : (s.step ⟨slot, q⟩).2 = (s'.step ⟨slot, q⟩).2 := by
  cases q with
  | new | ofRegistry table | load table | layer table | clone target => cases hq
  | isLoaded | parse text | counts | hasProperty name | hasMethod name argCount | arity name =>
    simp [step, h]

/-! ### Runs -/

lemma run_append (s : Session) (ts us : List Step) :
    (s.run (ts ++ us)).1 = ((s.run ts).1.run us).1 := by
  induction ts generalizing s with
  | nil => rfl
  | cons t ts ih => exact ih (s.step t).1

/-- Steps make the parser of each slot from that of its origin. -/
lemma parser_run (s : Session) (ts : List Step) (slot : Slot) :
    (s.run ts).1.parser slot = (lineage ts.reverse slot).foldl Making.apply
      ((origin ts.reverse slot).elim .new s.parser) := by
  induction ts using List.reverseRecOn generalizing slot with
  | nil => rfl
  | append_singleton ts t ih =>
    rw [run_append, List.reverse_concat, lineage, origin, List.foldl_append]
    refine (parser_step _ t slot).trans ?_
    cases t.source slot with
    | none => rfl
    | some u => exact congrArg ((t.makings slot).foldl Making.apply) (ih u)

/-- Steps from a new session make the parser of a slot from its lineage. -/
lemma parser_run_new (ts : List Step) (slot : Slot) :
    (new.run ts).1.parser slot = .made (lineage ts.reverse slot) := by
  rw [parser_run]
  cases origin ts.reverse slot with
  | none => rfl
  | some u => rw [Option.elim_some, parser_new, Parser.made]

/-- Steps from sessions that agree on the origin of a slot make the same parser for the slot. -/
lemma parser_run_congr {ts : List Step}
    (h : ∀ u, origin ts.reverse slot = some u → s.parser u = s'.parser u) :
    (s.run ts).1.parser slot = (s'.run ts).1.parser slot := by
  rw [parser_run, parser_run]
  cases horigin : origin ts.reverse slot with
  | none => rfl
  | some u => rw [Option.elim_some, Option.elim_some, h u horigin]

/-- After any steps in a new session, the parser of a slot is the one made from its lineage, and the
slot answers every question as this parser does. A step before other steps may be left out if it
asks a question, or if it writes another slot than the origin of the slot before those other steps:
the answers of the slot after them are the same. -/
theorem run_answers_of_lineage (ts : List Step) (slot : Slot) :
    ((new.run ts).1.parser slot = .made (lineage ts.reverse slot) ∧
      (new.run ts).1.AnswersAs slot (.made (lineage ts.reverse slot))) ∧
    ∀ before t after, ts = before ++ t :: after →
      (t.action.isQuestion = true ∨
        ∃ w, t.written? = some w ∧ origin after.reverse slot ≠ some w) →
      (∀ q : Action, q.isQuestion = true →
        ((new.run (before ++ after)).1.step ⟨slot, q⟩).2 = ((new.run ts).1.step ⟨slot, q⟩).2) ∧
      (new.run (before ++ after)).1.AnswersAs slot (.made (lineage ts.reverse slot)) := by
  have hmade := parser_run_new ts slot
  refine ⟨⟨hmade, hmade ▸ answersAs_self _ slot⟩, ?_⟩
  rintro before t after rfl hidle
  have hsame : (new.run (before ++ after)).1.parser slot
      = (new.run (before ++ t :: after)).1.parser slot := by
    rw [run_append, run_append]
    apply parser_run_congr
    intro u hu
    symm
    apply parser_step_of_not_written
    rcases hidle with hquestion | ⟨w, hw, hne⟩
    · rw [Step.written?_of_isQuestion hquestion]
      simp
    · rw [hw]
      rintro ⟨⟩
      exact hne hu
  exact ⟨fun q hq => step_question_congr hsame hq,
    hsame.trans hmade ▸ answersAs_self _ slot⟩

/-- A copy keeps the property that was bound where it was copied from, whether or not another table
is bound there later. -/
theorem run_answers_of_lineage_copy :
    ((new.run [⟨0, .load (Table.property ∅ "word")⟩, ⟨0, .clone 1⟩, ⟨0, .load ∅⟩,
        ⟨1, .layer (Table.method ∅ "pick" (.exact 1))⟩]).1.step ⟨1, .parse "word"⟩).2
      = (.parsed (.ok (.property "word")), [.parsedProperty "word"]) ∧
    ((new.run [⟨0, .load (Table.property ∅ "word")⟩, ⟨0, .clone 1⟩,
        ⟨1, .layer (Table.method ∅ "pick" (.exact 1))⟩]).1.step ⟨1, .parse "word"⟩).2
      = (.parsed (.ok (.property "word")), [.parsedProperty "word"]) := by
  obtain ⟨⟨-, hanswers⟩, hidle⟩ := run_answers_of_lineage
    [⟨0, .load (Table.property ∅ "word")⟩, ⟨0, .clone 1⟩, ⟨0, .load ∅⟩,
      ⟨1, .layer (Table.method ∅ "pick" (.exact 1))⟩] 1
  obtain ⟨hsame, -⟩ := hidle [⟨0, .load (Table.property ∅ "word")⟩, ⟨0, .clone 1⟩] ⟨0, .load ∅⟩
    [⟨1, .layer (Table.method ∅ "pick" (.exact 1))⟩] rfl (.inr ⟨0, rfl, by decide⟩)
  have htext : Format.ofText "word" = .ok (.property "word") :=
    Format.ofText_eq_property_iff.2 rfl
  have hword : Registry.answer ((Table.property ∅ "word").extend
      (Table.method ∅ "pick" (.exact 1))) (.property "word") = true := by
    simp [Registry.answer, Table.property, Table.containsProperty, Table.extend]
  have hparse : (Parser.made [.bind (Table.property ∅ "word"),
      .layer (Table.method ∅ "pick" (.exact 1))]).parse "word" = .ok (.property "word") :=
    (Parser.parse_of_ok rfl htext).trans (if_pos hword)
  have hcopy := hanswers.parse "word"
  have hlineage : lineage ([⟨0, .load (Table.property ∅ "word")⟩, ⟨0, .clone 1⟩, ⟨0, .load ∅⟩,
      ⟨1, .layer (Table.method ∅ "pick" (.exact 1))⟩] : List Step).reverse 1
      = [.bind (Table.property ∅ "word"), .layer (Table.method ∅ "pick" (.exact 1))] := rfl
  rw [hlineage, hparse] at hcopy
  exact ⟨hcopy, (hsame (.parse "word") rfl).trans hcopy⟩

end Session

end FormatExpr
