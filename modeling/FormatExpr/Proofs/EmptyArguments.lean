import FormatExpr.Proofs.Layering

/-!
# Calls with empty arguments

Separators and nothing else between the parentheses of a call make one empty string more than there
are separators. So a call can be written with any number of arguments except none, and a method
without arguments is called with one (`Arity.Admits`).

A table accepts such calls for the counts that the arity of the method admits, and every arity that
is made as an exact count, a range or a lower bound admits some (`Parser.parse_emptyCall`).
-/

namespace FormatExpr

namespace Arity

variable {a : Arity} {argCount : Nat}

/-! ### Counts of arguments -/

/-- A call with so many arguments fits the arity. A method without arguments is called with one. -/
def Admits (a : Arity) (argCount : Nat) : Prop :=
  a.max = some 0 ∧ argCount = 1 ∨
    a.max ≠ some 0 ∧ a.min ≤ argCount ∧ (a.max = none ∨ ∃ max, a.max = some max ∧ argCount ≤ max)

/-- Calls have at least one argument, and for these the test of the arity is what fits it. -/
lemma accepts_iff_admits (h : 1 ≤ argCount) : a.accepts argCount = true ↔ a.Admits argCount := by
  obtain ⟨min, max⟩ := a
  match max with
  | none => simp [accepts, Admits]
  | some 0 =>
    have hone : argCount ≤ 1 ↔ argCount = 1 := ⟨fun hle => le_antisymm hle h, le_of_eq⟩
    simp [accepts, Admits, hone]
  | some (max + 1) => simp [accepts, Admits]

/-- The greatest count is not below the least one. -/
def IsOrdered (a : Arity) : Prop :=
  ∀ max, a.max = some max → a.min ≤ max

lemma isOrdered_exact (count : Nat) : (exact count).IsOrdered := by
  rintro _ ⟨⟩
  exact le_rfl

lemma isOrdered_range (min max : Nat) : (range min max).IsOrdered := by
  rintro _ ⟨⟩
  exact Nat.le_max_right max min

lemma isOrdered_atLeast (min : Nat) : (atLeast min).IsOrdered := by
  rintro _ ⟨⟩

/-- Some call fits an arity whose greatest count is not below the least one. -/
lemma IsOrdered.exists_admits (h : a.IsOrdered) : ∃ argCount, 1 ≤ argCount ∧ a.Admits argCount := by
  obtain ⟨min, max⟩ := a
  match max with
  | none => exact ⟨min + 1, by simp, .inr (by simp)⟩
  | some 0 => exact ⟨1, le_rfl, .inl ⟨rfl, rfl⟩⟩
  | some (max + 1) =>
    have hmin : min ≤ max + 1 := h _ rfl
    exact ⟨max + 1, by simp, .inr (by simp [hmin])⟩

end Arity

namespace Argument

/-! ### Empty arguments -/

lemma literal_nil (offset : Nat) : Piece.literal ⟨[], offset⟩ = .ok (.string "") :=
  Piece.literal_of_ofText rfl

/-- Around separators there are empty strings. -/
lemma reads_replicate_separator (offset n : Nat) :
    Reads offset (List.replicate n separator) (List.replicate (n + 1) (.string "")) := by
  induction n generalizing offset with
  | zero => exact .last .nil (literal_nil offset)
  | succ n ih => exact .cons .nil (literal_nil offset) (ih _)

end Argument

/-- A call with so many empty arguments, and separators between them. -/
def Format.emptyCall (name : String) (argCount : Nat) : String :=
  name ++ "(" ++ String.ofList (List.replicate (argCount - 1) separator) ++ ")"

lemma Format.ofText_emptyCall {name : String} (hname : isIdentifier name.toList = true)
    {argCount : Nat} (h : 1 ≤ argCount) :
    ofText (emptyCall name argCount)
      = .ok (method name (List.replicate argCount (.string ""))) := by
  obtain ⟨n, rfl⟩ := Nat.exists_eq_add_of_le' h
  have hnested : Nested callOpen callClose (List.replicate n separator) :=
    .of_plain (List.forall_mem_replicate.2 (.inr (by decide)))
  have hreads := Argument.reads_replicate_separator 0 n
  rw [emptyCall, Nat.add_sub_cancel]
  rw [← @String.toList_ofList (List.replicate n separator)] at hnested hreads
  exact ofText_call hname hnested hreads

namespace Parser

/-- A method of a table can be called with empty arguments, in any number that its arity admits and
in no other, and the refusal names the method and the number. An arity that is made as an exact
count, as a range or as a lower bound always admits some call. -/
theorem parse_emptyCall {t : Table} {name : String} {a : Arity}
    (hname : isIdentifier name.toList = true) (ha : t.arity? name = some a) :
    (∀ argCount, 1 ≤ argCount →
      ((ofRegistry t).1.parse (Format.emptyCall name argCount)
          = .ok (.method name (List.replicate argCount (.string ""))) ↔ a.Admits argCount) ∧
      (¬a.Admits argCount →
        (ofRegistry t).1.parse (Format.emptyCall name argCount)
          = .error (.unknownMethod name argCount))) ∧
    ∀ k l, a = .exact k ∨ a = .range k l ∨ a = .atLeast k →
      ∃ text arguments, (ofRegistry t).1.parse text = .ok (.method name arguments) := by
  have hparse : ∀ argCount, 1 ≤ argCount →
      (ofRegistry t).1.parse (Format.emptyCall name argCount)
        = if a.accepts argCount then .ok (.method name (List.replicate argCount (.string "")))
          else .error (.unknownMethod name argCount) := by
    intro argCount h
    obtain ⟨body, hcall, hbody⟩ := Format.ofText_eq_method_iff.1 (Format.ofText_emptyCall hname h)
    rw [parse_method t hcall hbody, List.length_replicate, Table.hasMethod_eq, ha, Option.any_some]
  refine ⟨?_, ?_⟩
  · intro argCount h
    rw [hparse argCount h, ← Arity.accepts_iff_admits h]
    cases a.accepts argCount <;> simp
  · intro k l hmade
    have hordered : a.IsOrdered := by
      rcases hmade with rfl | rfl | rfl
      · exact Arity.isOrdered_exact k
      · exact Arity.isOrdered_range k l
      · exact Arity.isOrdered_atLeast k
    obtain ⟨argCount, h, hadmits⟩ := hordered.exists_admits
    exact ⟨_, _, (hparse argCount h).trans (if_pos ((Arity.accepts_iff_admits h).2 hadmits))⟩

/-- A method without arguments, and one whose range was given the wrong way round. -/
theorem parse_emptyCall_raised :
    (ofRegistry (Table.method ∅ "nil" (.exact 0))).1.parse "nil()"
      = .ok (.method "nil" [.string ""]) ∧
    (ofRegistry (Table.method ∅ "nil" (.exact 0))).1.parse "nil(,)"
      = .error (.unknownMethod "nil" 2) ∧
    (ofRegistry (Table.method ∅ "pick" (.range 3 1))).1.parse "pick(,,)"
      = .ok (.method "pick" [.string "", .string "", .string ""]) ∧
    ∃ text arguments, (ofRegistry (Table.method ∅ "pick" (.range 3 1))).1.parse text
      = .ok (.method "pick" arguments) := by
  have harity : ∀ name a, (Table.method ∅ name a).arity? name = some a := by
    simp [Table.arity?, Table.method]
  obtain ⟨hnil, -⟩ := @parse_emptyCall _ "nil" _ (by decide) (harity "nil" (.exact 0))
  obtain ⟨hpick, hmade⟩ := @parse_emptyCall _ "pick" _ (by decide) (harity "pick" (.range 3 1))
  refine ⟨?_, ?_, ?_, hmade 3 1 (.inr (.inl rfl))⟩
  · exact (hnil 1 le_rfl).1.2 (.inl ⟨rfl, rfl⟩)
  · refine (hnil 2 (by simp)).2 ?_
    simp [Arity.Admits, Arity.exact]
  · refine (hpick 3 (by simp)).1.2 (.inr ?_)
    simp [Arity.range]

end Parser

end FormatExpr
