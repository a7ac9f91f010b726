import FormatExpr.Proofs.Lineage

/-!
# What a session logs

The log of a session tells the truth over any run (`Session.run_logs`). Each parse writes one line,
which tells the text and the result that is answered, at the level of the result. Binding a table or
a layer writes one line, which tells whether a table was there. A new parser with a table writes the
line of a first table, and nothing else writes any line.

Whether a slot has a table goes back to the steps before. One of them gave it one, and no later one
took it away (`Session.isBound_run_iff`).
-/

namespace FormatExpr

namespace Event

/-- The line of an event in the log. -/
def line (e : Event) : Level × String := (e.level, e.message)

end Event

/-! ### Truthful lines -/

/-- The line tells the result of parsing the text. -/
structure TellsResult (text : String) (result : Except FormatError Format) (line : Level × String) :
    Prop where
  trace_iff : line.1 = .trace ↔ ∃ f, result = .ok f
  debug_iff : line.1 = .debug ↔ ∃ e, result = .error e
  property : ∀ name, result = .ok (.property name) → line.2 = s!"parsed '{text}' as property"
  method : ∀ name arguments, result = .ok (.method name arguments) →
    line.2 = s!"parsed '{text}' as method with {arguments.length} argument(s)"
  rejected : ∀ e, result = .error e → line.2 = s!"rejected format '{text}': {e.message}"

lemma tellsResult_line (text : String) (result : Except FormatError Format) :
    TellsResult text result (Event.ofResult text result).line := by
  match result with
  | .ok (.property name) =>
    exact ⟨iff_of_true rfl ⟨_, rfl⟩, iff_of_false nofun nofun, fun _ _ => rfl, nofun, nofun⟩
  | .ok (.method name arguments) =>
    refine ⟨iff_of_true rfl ⟨_, rfl⟩, iff_of_false nofun nofun, nofun, ?_, nofun⟩
    rintro _ _ ⟨⟩
    rfl
  | .error e =>
    refine ⟨iff_of_false nofun nofun, iff_of_true rfl ⟨e, rfl⟩, nofun, nofun, ?_⟩
    rintro _ ⟨⟩
    rfl

namespace Step

/-- What a step may write to the log, if this is its answer and if its parser had a table before or
had none. -/
def Logs (t : Step) (hadTable : Prop) (answer : Answer) (lines : List (Level × String)) : Prop :=
  match t.action with
  | .parse text => ∃ result line, answer = .parsed result ∧ lines = [line] ∧
    TellsResult text result line
  | .load _ | .layer _ =>
    (hadTable → lines = [(.debug, "replacing loaded capability registry")]) ∧
      (¬hadTable → lines = [(.debug, "capability registry loaded")])
  | .ofRegistry _ => lines = [(.debug, "capability registry loaded")]
  | _ => lines = []

/-- The step leaves a table in the slot: it binds one there, with or without the tables below it, or
it copies a parser that has one. -/
def Gives (t : Step) (bound : Slot → Prop) (slot : Slot) : Prop :=
  match t.action with
  | .ofRegistry _ | .load _ | .layer _ => t.slot = slot
  | .clone target => target = slot ∧ bound t.slot
  | _ => False

/-- The step leaves no table in the slot: it puts a new parser there, or it copies one that has
none. -/
def Takes (t : Step) (bound : Slot → Prop) (slot : Slot) : Prop :=
  match t.action with
  | .new => t.slot = slot
  | .clone target => target = slot ∧ ¬bound t.slot
  | _ => False

end Step

namespace Session

/-- The parser in the slot has a table. -/
def IsBound (s : Session) (slot : Slot) : Prop :=
  (s.parser slot).isLoaded = true

instance (s : Session) (slot : Slot) : Decidable (s.IsBound slot) :=
  inferInstanceAs (Decidable (_ = true))

/-! ### Steps -/

lemma isBound_put (s : Session) (own slot : Slot) (p : Parser Table) :
    (s.put own p).IsBound slot ↔ own = slot ∧ p.isLoaded = true ∨ own ≠ slot ∧ s.IsBound slot := by
  by_cases h : own = slot
  · subst h
    simp [IsBound]
  · simp [IsBound, parser_put_of_ne s p h, h]

/-- A slot has a table after a step if the step gave it one, or if it had one and the step did not
take it away. -/
lemma isBound_step (s : Session) (t : Step) (slot : Slot) :
    (s.step t).1.IsBound slot ↔
      t.Gives s.IsBound slot ∨ s.IsBound slot ∧ ¬t.Takes s.IsBound slot := by
  obtain ⟨own, action⟩ := t
  cases action with
  | new => simp [step, isBound_put, Step.Gives, Step.Takes, Parser.new, Parser.isLoaded, and_comm]
  | ofRegistry table | load table | layer table =>
    simp only [step, isBound_put, Step.Gives, Step.Takes, Parser.load, Parser.ofRegistry,
      Parser.isLoaded, Option.isSome_some]
    tauto
  | clone target =>
    have hcopy : (s.parser own).isLoaded = true ↔ s.IsBound own := Iff.rfl
    simp only [step, isBound_put, Step.Gives, Step.Takes, hcopy]
    tauto
  | isLoaded | parse text | counts | hasProperty name | hasMethod name argCount | arity name =>
    simp [step, Step.Gives, Step.Takes]

/-- The line for a bound table tells whether it takes the place of another one. -/
lemma line_load (p : Parser Table) (table : Table) :
    (p.isLoaded = true →
      (p.load table).2.line = (.debug, "replacing loaded capability registry")) ∧
    (¬p.isLoaded = true → (p.load table).2.line = (.debug, "capability registry loaded")) := by
  rw [Parser.load]
  constructor
  · intro h
    rw [if_pos h]
    rfl
  · intro h
    rw [if_neg h]
    rfl

/-- What a step logs is true. -/
lemma step_logs (s : Session) (t : Step) :
    t.Logs (s.IsBound t.slot) (s.step t).2.1 ((s.step t).2.2.map Event.line) := by
  obtain ⟨own, action⟩ := t
  cases action with
  | parse text => exact ⟨_, _, rfl, rfl, tellsResult_line text _⟩
  | load table | layer table =>
    obtain ⟨hreplaced, hloaded⟩ := line_load (s.parser own) table
    exact ⟨fun h => congrArg (fun line => [line]) (hreplaced h),
      fun h => congrArg (fun line => [line]) (hloaded h)⟩
  | ofRegistry table => rfl
  | new | clone target | isLoaded | counts | hasProperty name | hasMethod name argCount
  | arity name => rfl

/-! ### Runs -/

/-- Each step of a run answers and logs what it does after the steps before it. -/
lemma getElem?_run (s : Session) (ts : List Step) (i : Nat) :
    (s.run ts).2[i]? = ts[i]?.map fun t => ((s.run (ts.take i)).1.step t).2 := by
  induction ts generalizing s i with
  | nil => simp [run]
  | cons t ts ih =>
    cases i with
    | zero => simp [run]
    | succ i => simp [run, ih]

lemma length_run (s : Session) (ts : List Step) : (s.run ts).2.length = ts.length := by
  induction ts generalizing s with
  | nil => rfl
  | cons t ts ih => simp [run, ih]

/-- Something that is false at first, and that each step makes true, or keeps unless the step makes
it false, is true at the end if a step made it true and no later step made it false. -/
lemma iff_since {holds gives takes : Nat → Prop} (hzero : ¬holds 0)
    (hsucc : ∀ i, holds (i + 1) ↔ gives i ∨ holds i ∧ ¬takes i) (n : Nat) :
    holds n ↔ ∃ i < n, gives i ∧ ∀ j, i < j → j < n → ¬takes j := by
  induction n with
  | zero => simp [hzero]
  | succ n ih =>
    rw [hsucc, ih]
    constructor
    · rintro (h | ⟨⟨i, hi, hgives, hkept⟩, hn⟩)
      · refine ⟨n, Nat.lt_succ_self n, h, ?_⟩
        intro j hlt hle
        exact absurd hlt (Nat.not_lt.2 (Nat.le_of_lt_succ hle))
      · refine ⟨i, Nat.lt_succ_of_lt hi, hgives, ?_⟩
        intro j hij hj
        rcases Nat.lt_or_eq_of_le (Nat.le_of_lt_succ hj) with hj | rfl
        · exact hkept j hij hj
        · exact hn
    · rintro ⟨i, hi, hgives, hkept⟩
      rcases Nat.lt_or_eq_of_le (Nat.le_of_lt_succ hi) with hlt | rfl
      · refine .inr ⟨⟨i, hlt, hgives, ?_⟩, hkept n hlt (Nat.lt_succ_self n)⟩
        intro j hij hj
        exact hkept j hij (Nat.lt_succ_of_lt hj)
      · exact .inl hgives

/-- A slot has a table after some steps if one of them gave it one and no later one took it away. -/
theorem isBound_run_iff (ts : List Step) (slot : Slot) (n : Nat) :
    (new.run (ts.take n)).1.IsBound slot ↔
      ∃ i < n, (∃ t ∈ ts[i]?, t.Gives (new.run (ts.take i)).1.IsBound slot) ∧
        ∀ j, i < j → j < n → ∀ u ∈ ts[j]?, ¬u.Takes (new.run (ts.take j)).1.IsBound slot := by
  have hzero : ¬(new.run (ts.take 0)).1.IsBound slot := by
    simp [run, IsBound, Parser.new, Parser.isLoaded]
  have hsucc : ∀ i, (new.run (ts.take (i + 1))).1.IsBound slot ↔
      (∃ t ∈ ts[i]?, t.Gives (new.run (ts.take i)).1.IsBound slot) ∨
        (new.run (ts.take i)).1.IsBound slot ∧
          ¬∃ t ∈ ts[i]?, t.Takes (new.run (ts.take i)).1.IsBound slot := by
    intro i
    rw [List.take_add_one]
    cases ts[i]? with
    | none => simp
    | some t => simp [run_append, run, isBound_step]
  refine (@iff_since (fun i => (new.run (ts.take i)).1.IsBound slot) _ _ hzero hsucc n).trans ?_
  simp

/-- The log of any run is true. There is one answer for each step, with the lines that the step may
write: what they tell of a result is what is answered, and what they tell of a table is so after the
steps before. A slot has a table if one of these gave it one and no later one took it away. -/
theorem run_logs (ts : List Step) :
    (new.run ts).2.length = ts.length ∧
    (∀ i (t : Step), ts[i]? = some t → ∃ answer events, (new.run ts).2[i]? = some (answer, events) ∧
      t.Logs ((new.run (ts.take i)).1.IsBound t.slot) answer (events.map Event.line)) ∧
    ∀ n slot, (new.run (ts.take n)).1.IsBound slot ↔
      ∃ i < n, (∃ t ∈ ts[i]?, t.Gives (new.run (ts.take i)).1.IsBound slot) ∧
        ∀ j, i < j → j < n → ∀ u ∈ ts[j]?, ¬u.Takes (new.run (ts.take j)).1.IsBound slot := by
  refine ⟨length_run new ts, ?_, ?_⟩
  · intro i t ht
    refine ⟨_, _, ?_, step_logs _ t⟩
    rw [getElem?_run, ht]
    rfl
  · intro n slot
    exact isBound_run_iff ts slot n

/-- A copy has the table that the parser had when it was copied, and a new parser has none. -/
theorem run_logs_copy : ∃ answer events answer' events',
    (new.run [⟨0, .load ∅⟩, ⟨0, .clone 1⟩, ⟨0, .new⟩, ⟨1, .layer ∅⟩, ⟨0, .load ∅⟩]).2[3]?
        = some (answer, events) ∧
      events.map Event.line = [(.debug, "replacing loaded capability registry")] ∧
    (new.run [⟨0, .load ∅⟩, ⟨0, .clone 1⟩, ⟨0, .new⟩, ⟨1, .layer ∅⟩, ⟨0, .load ∅⟩]).2[4]?
        = some (answer', events') ∧
      events'.map Event.line = [(.debug, "capability registry loaded")] := by
  obtain ⟨-, hlogs, -⟩ := run_logs
    [⟨0, .load ∅⟩, ⟨0, .clone 1⟩, ⟨0, .new⟩, ⟨1, .layer ∅⟩, ⟨0, .load ∅⟩]
  obtain ⟨answer, events, hlayer, hreplaced, -⟩ := hlogs 3 _ rfl
  obtain ⟨answer', events', hload, -, hloaded⟩ := hlogs 4 _ rfl
  exact ⟨answer, events, answer', events', hlayer, hreplaced (by decide), hload,
    hloaded (by decide)⟩

end Session

end FormatExpr
