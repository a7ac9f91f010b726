import FormatExpr.Proofs.Faithful
import FormatExpr.Proofs.StreamingLaws
import FormatExpr.Stored

/-!
# Literals and JSON values

A literal is read from a value by trying the variants in the order in which they are declared. The
stored value of a literal is taken by the variant of the literal and by no variant that is declared
before it (`Literal.Variant.ofJson?_toJson_of_before`), although a floating point number would be
read from integers, too. So a literal is read back as itself (`Literal.ofJson?_toJson`).

For every lawful library, literals with finite numbers are read back from what is written for them.
The other way round a literal is read from every text whose tree holds neither null nor a map, at
any depth, and the literal is stored as the value of the tree (`Literal.ofJsonTextBy_writtenAs`).
-/

namespace FormatExpr

open Json

namespace Literal

/-! ### Trying variants -/

/-- The variant of a literal. -/
def variant : Literal → Variant
  | string _ => .string
  | number (.integer _) => .integer
  | number (.float _) => .float
  | boolean _ => .boolean
  | list _ => .list

/-- The literals in the items of a list. -/
def itemsOfJson? : Value → Option (List Literal)
  | .list vs => listOfJson? vs
  | _ => none

/-- The literal that a value is taken for by one variant. -/
def Variant.ofJson? (variant : Variant) (v : Value) : Option Literal :=
  variant.read (itemsOfJson? v) v

/-- A value is tried as each variant in the order of their declaration. -/
lemma ofJson?_eq_findSome? (v : Value) :
    ofJson? v = Variant.declared.findSome? fun variant => variant.ofJson? v := by
  cases v <;> rfl

/-- No variant that is declared before that of a literal takes the stored value of the literal. -/
theorem Variant.ofJson?_toJson_of_before (y : Literal) :
    ∀ variant ∈ declared.takeWhile (· ≠ y.variant), variant.ofJson? y.toJson = none := by
  intro variant h
  cases y with
  | number n =>
    cases n with
    | integer i =>
      obtain rfl : variant = .string := by simpa [declared, Literal.variant] using h
      rfl
    | float x =>
      obtain rfl | rfl : variant = .string ∨ variant = .integer := by
        simpa [declared, Literal.variant] using h
      · rfl
      · rfl
  | string s => simp [declared, Literal.variant] at h
  | boolean b =>
    obtain rfl | rfl | rfl : variant = .string ∨ variant = .integer ∨ variant = .float := by
      simpa [declared, Literal.variant] using h
    all_goals rfl
  | list items =>
    obtain rfl | rfl | rfl | rfl :
        variant = .string ∨ variant = .integer ∨ variant = .float ∨ variant = .boolean := by
      simpa [declared, Literal.variant] using h
    all_goals rfl

/-- Every variant stands in its place among the declared ones. -/
lemma Variant.exists_declared_eq (variant : Variant) :
    ∃ after, declared = declared.takeWhile (· ≠ variant) ++ variant :: after := by
  cases variant <;> exact ⟨_, rfl⟩

lemma listOfJson?_eq_mapM (vs : List Value) : listOfJson? vs = vs.mapM ofJson? := by
  induction vs with
  | nil => rfl
  | cons v vs ih =>
    rw [listOfJson?, List.mapM_cons, ih]
    rfl

lemma listOfJson?_eq_some {xs : List Literal} (h : ∀ x ∈ xs, ofJson? x.toJson = some x) :
    listOfJson? (listToJson xs) = some xs := by
  induction xs with
  | nil => rfl
  | cons x xs ih =>
    obtain ⟨hx, hxs⟩ := List.forall_mem_cons.1 h
    simp [listToJson, listOfJson?, hx, ih hxs]

/-- The variant of a literal is the first one that takes its stored value, if it takes it at all. -/
lemma ofJson?_of_variant {y : Literal} (h : y.variant.ofJson? y.toJson = some y) :
    ofJson? y.toJson = some y := by
  obtain ⟨after, hdeclared⟩ := y.variant.exists_declared_eq
  rw [ofJson?_eq_findSome?, List.findSome?_eq_some_iff]
  exact ⟨_, y.variant, after, hdeclared, h, Variant.ofJson?_toJson_of_before y⟩

/-- A literal is read from the value that it is stored as. -/
theorem ofJson?_toJson (y : Literal) : ofJson? y.toJson = some y := by
  apply ofJson?_of_variant
  induction y with
  | number n => cases n <;> rfl
  | list items ih =>
    have hitems := listOfJson?_eq_some fun x hx => ofJson?_of_variant (ih x hx)
    rw [toJson, variant, Variant.ofJson?, itemsOfJson?, hitems]
    rfl
  | _ => rfl

lemma ofJson?_list (vs : List Value) : ofJson? (.list vs) = (listOfJson? vs).map list := by
  cases h : listOfJson? vs <;> simp [ofJson?, h, Variant.readFirst, Variant.declared, Variant.read]

/-! ### Finite and infinite numbers -/

/-- Every number in the literal is finite. -/
def IsStorable : Literal → Prop :=
  Every (fun _ => True) FormatExpr.Number.IsFinite

/-- Some floating point number in the literal is infinite. -/
inductive HasInfinity : Literal → Prop where
  | float {x : Binary64} (h : x.isInfinite = true) : HasInfinity (number (.float x))
  | list {items : List Literal} {x : Literal} (hx : x ∈ items) (h : HasInfinity x) :
      HasInfinity (list items)

lemma writtenItems_listToJson {xs : List Literal} (h : ∀ x ∈ xs, x.toJson.written = x.toJson) :
    Value.writtenItems (listToJson xs) = listToJson xs := by
  induction xs with
  | nil => rfl
  | cons x xs ih =>
    obtain ⟨hx, hxs⟩ := List.forall_mem_cons.1 h
    rw [listToJson, Value.writtenItems, hx, ih hxs]

/-- A literal with finite numbers is written as it is stored. -/
lemma IsStorable.written_toJson {x : Literal} (h : x.IsStorable) :
    x.toJson.written = x.toJson := by
  induction h with
  | @number n h =>
    cases n with
    | integer i => rfl
    | float x => exact if_pos h
  | list _ ih => rw [toJson, Value.written, writtenItems_listToJson ih]
  | _ => rfl

lemma listOfJson?_eq_none {x : Literal} {xs : List Literal} (hx : x ∈ xs)
    (h : ofJson? x.toJson.written = none) :
    listOfJson? (Value.writtenItems (listToJson xs)) = none := by
  induction xs with
  | nil => cases hx
  | cons y ys ih =>
    rw [listToJson, Value.writtenItems, listOfJson?]
    rcases List.mem_cons.1 hx with rfl | hx
    · rw [h]
      rfl
    · rw [ih hx]
      cases ofJson? y.toJson.written <;> rfl

/-- No literal is read from what is written for one with an infinite number, which is null. -/
theorem HasInfinity.ofJson?_written {x : Literal} (h : x.HasInfinity) :
    ofJson? x.toJson.written = none := by
  induction h with
  | @float x h =>
    have hx : ¬x.isFinite = true := by
      simp only [Binary64.isInfinite, beq_iff_eq] at h
      simp [Binary64.isFinite, h]
    rw [toJson, Value.written, if_neg hx]
    rfl
  | list hx _ ih =>
    rw [toJson, Value.written, ofJson?_list, listOfJson?_eq_none hx ih, Option.map_none]

lemma IsStorable.not_hasInfinity {x : Literal} (h : x.IsStorable) : ¬x.HasInfinity := by
  intro hinfinity
  have hnone := hinfinity.ofJson?_written
  rw [h.written_toJson, ofJson?_toJson] at hnone
  cases hnone

end Literal

/-! ### Trees -/

namespace Json.Tree

/-- Every string in the tree has a value, and every number has a finite one. -/
inductive HasValue : Tree → Prop where
  | null : HasValue null
  | boolean (b : Bool) : HasValue (boolean b)
  | number {n : Numeral} (h : n.num < (2 ^ 1024 - 2 ^ 970) * n.den) : HasValue (number n)
  | string {spellings : List Token.Spelling} (h : Token.join spellings ≠ none) :
      HasValue (string spellings)
  | list {items : List Tree} (h : ∀ x ∈ items, HasValue x) : HasValue (list items)
  | map {members : List (List Token.Spelling × Tree)}
      (hkeys : ∀ m ∈ members, Token.join m.1 ≠ none) (h : ∀ m ∈ members, HasValue m.2) :
      HasValue (map members)

/-- The tree is built from strings, booleans, numbers and lists. -/
inductive IsPlain : Tree → Prop where
  | boolean (b : Bool) : IsPlain (boolean b)
  | number (n : Numeral) : IsPlain (number n)
  | string (spellings : List Token.Spelling) : IsPlain (string spellings)
  | list {items : List Tree} (h : ∀ x ∈ items, IsPlain x) : IsPlain (list items)

lemma exists_string_of_join {spellings : List Token.Spelling} (h : Token.join spellings ≠ none) :
    ∃ s : String, Token.join spellings = some s.toList := by
  obtain ⟨cs, hcs⟩ := Option.ne_none_iff_exists'.1 h
  exact ⟨String.ofList cs, by rw [hcs, String.toList_ofList]⟩

section Values

variable {Means : Numeral → Number → Prop}

/-- Numerals that are not too large for a finite number mean some number. -/
def IsTotal (Means : Numeral → Number → Prop) : Prop :=
  ∀ n : Numeral, (∀ c ∈ n.allDigits, c.isDigit = true) →
    n.num < (2 ^ 1024 - 2 ^ 970) * n.den → ∃ m, Means n m

mutual

/-- A tree that is written somehow denotes a value. -/
theorem Layout.exists_denotes (hmeans : IsTotal Means) {x : Tree} {text : List Char}
    (h : Layout x text) (hvalue : x.HasValue) : ∃ v, x.Denotes Means v :=
  match h, hvalue with
  | .null, _ => ⟨_, .null⟩
  | .boolean b, _ => ⟨_, .boolean b⟩
  | .number h, .number hfinite => by
    obtain ⟨m, hm⟩ := hmeans _ h.isDigit hfinite
    exact ⟨_, .number hm⟩
  | .string _, .string hjoin => by
    obtain ⟨s, hs⟩ := exists_string_of_join hjoin
    exact ⟨_, .string hs⟩
  | .emptyList _, _ => ⟨_, .list .nil⟩
  | .list h, .list hitems => by
    obtain ⟨vs, hvs⟩ := h.exists_denotes hmeans hitems
    exact ⟨_, .list hvs⟩
  | .emptyMap _, _ => ⟨_, .map .nil .nil⟩
  | .map h, .map hkeys hmembers => by
    obtain ⟨vs, hnames, hvs⟩ := h.exists_denotes hmeans hkeys hmembers
    exact ⟨_, .map hnames hvs⟩

theorem ItemLayouts.exists_denotes (hmeans : IsTotal Means) {items : List Tree} {text : List Char}
    (h : ItemLayouts items text) (hvalue : ∀ x ∈ items, x.HasValue) :
    ∃ vs, List.Forall₂ (Denotes Means) items vs :=
  match h with
  | .last _ h _ => by
    obtain ⟨v, hv⟩ := h.exists_denotes hmeans (hvalue _ List.mem_cons_self)
    exact ⟨[v], .cons hv .nil⟩
  | .cons _ h _ hlater => by
    obtain ⟨hx, hxs⟩ := List.forall_mem_cons.1 hvalue
    obtain ⟨v, hv⟩ := h.exists_denotes hmeans hx
    obtain ⟨vs, hvs⟩ := hlater.exists_denotes hmeans hxs
    exact ⟨v :: vs, .cons hv hvs⟩

theorem MemberLayouts.exists_denotes (hmeans : IsTotal Means)
    {members : List (List Token.Spelling × Tree)} {text : List Char}
    (h : MemberLayouts members text) (hkeys : ∀ m ∈ members, Token.join m.1 ≠ none)
    (hvalue : ∀ m ∈ members, m.2.HasValue) :
    ∃ vs : List (String × Value),
      List.Forall₂ (fun m v => Token.join m.1 = some v.1.toList) members vs ∧
        List.Forall₂ (fun m v => Denotes Means m.2 v.2) members vs :=
  match h with
  | .last _ _ _ _ h _ => by
    obtain ⟨s, hs⟩ := exists_string_of_join (hkeys _ List.mem_cons_self)
    obtain ⟨v, hv⟩ := h.exists_denotes hmeans (hvalue _ List.mem_cons_self)
    exact ⟨[(s, v)], .cons hs .nil, .cons hv .nil⟩
  | .cons _ _ _ _ h _ hlater => by
    obtain ⟨hjoin, hkeys⟩ := List.forall_mem_cons.1 hkeys
    obtain ⟨hx, hxs⟩ := List.forall_mem_cons.1 hvalue
    obtain ⟨s, hs⟩ := exists_string_of_join hjoin
    obtain ⟨v, hv⟩ := h.exists_denotes hmeans hx
    obtain ⟨vs, hnames, hvs⟩ := hlater.exists_denotes hmeans hkeys hxs
    exact ⟨(s, v) :: vs, .cons hs hnames, .cons hv hvs⟩

end

/-! ### Literals of trees -/

lemma not_isPlain_null : ¬null.IsPlain := by
  rintro ⟨⟩

lemma not_isPlain_map (members : List (List Token.Spelling × Tree)) : ¬(map members).IsPlain := by
  rintro ⟨⟩

lemma isPlain_list_iff {items : List Tree} :
    (list items).IsPlain ↔ ∀ x ∈ items, x.IsPlain := by
  constructor
  · rintro ⟨⟩
    assumption
  · exact .list

/-- If the tree is plain then the value stores a literal that is stored as this value, and otherwise
it stores none. -/
inductive Stores (x : Tree) (v : Value) : Prop where
  | literal {y : Literal} (hplain : x.IsPlain) (hread : Literal.ofJson? v = some y)
      (hstored : y.toJson = v) : Stores x v
  | nothing (hplain : ¬x.IsPlain) (hread : Literal.ofJson? v = none) : Stores x v

lemma listOfJson?_of_stores {items : List Tree} {vs : List Value}
    (h : List.Forall₂ Stores items vs) :
    (∃ ys, (∀ x ∈ items, x.IsPlain) ∧ Literal.listOfJson? vs = some ys ∧
        Literal.listToJson ys = vs) ∨
      ¬(∀ x ∈ items, x.IsPlain) ∧ Literal.listOfJson? vs = none := by
  induction h with
  | nil => exact .inl ⟨[], List.forall_mem_nil _, rfl, rfl⟩
  | @cons x v items vs h _ ih =>
    rw [List.forall_mem_cons, Literal.listOfJson?]
    cases h with
    | @literal y hplain hread hstored =>
      rw [hread]
      rcases ih with ⟨ys, hall, hlater, hstoredLater⟩ | ⟨hnot, hlater⟩
      · rw [hlater]
        exact .inl ⟨y :: ys, ⟨hplain, hall⟩, rfl, by rw [Literal.listToJson, hstored, hstoredLater]⟩
      · rw [hlater]
        exact .inr ⟨fun h => hnot h.2, rfl⟩
    | nothing hplain hread =>
      rw [hread]
      exact .inr ⟨fun h => hplain h.1, rfl⟩

/-- What a tree denotes stores a literal exactly if the tree is plain. -/
theorem Denotes.stores {x : Tree} {v : Value} (h : x.Denotes Means v) : x.Stores v := by
  induction x generalizing v with
  | null =>
    cases h
    exact .nothing not_isPlain_null rfl
  | boolean b =>
    cases h
    exact .literal (.boolean b) rfl rfl
  | number n =>
    cases h with
    | @number _ m h => cases m <;> exact .literal (.number n) rfl rfl
  | string spellings =>
    cases h
    exact .literal (.string spellings) rfl rfl
  | list items ih =>
    cases h with
    | @list _ vs h =>
      have hitems := forall₂_imp_of_mem h fun x hx v => ih x hx
      rcases listOfJson?_of_stores hitems with ⟨ys, hplain, hread, hstored⟩ | ⟨hnot, hread⟩
      · exact .literal (.list hplain) (by rw [Literal.ofJson?_list, hread]; rfl)
          (by rw [Literal.toJson, hstored])
      · exact .nothing (isPlain_list_iff.not.2 hnot) (by rw [Literal.ofJson?_list, hread]; rfl)
  | map members =>
    cases h
    exact .nothing (not_isPlain_map members) rfl

end Values

lemma writtenItems_eq {items : List Tree} {vs : List Value}
    (h : List.Forall₂ (fun _ v => v.written = v) items vs) : Value.writtenItems vs = vs := by
  induction h with
  | nil => rfl
  | cons hv _ ih => rw [Value.writtenItems, hv, ih]

lemma writtenMembers_eq {members : List (List Token.Spelling × Tree)} {vs : List (String × Value)}
    (h : List.Forall₂ (fun _ v => v.2.written = v.2) members vs) :
    Value.writtenMembers vs = vs := by
  induction h with
  | nil => rfl
  | cons hv _ ih => rw [Value.writtenMembers, hv, ih]

/-- The numbers that numerals denote are finite, so that they are written. -/
lemma Denotes.written_eq {x : Tree} {v : Value} (h : x.Denotes Numeral.Denotes v) :
    v.written = v := by
  induction x generalizing v with
  | number n =>
    cases h with
    | number h => exact h.written_eq
  | list items ih =>
    cases h with
    | list h =>
      rw [Value.written, writtenItems_eq (forall₂_imp_of_mem h fun x hx v => ih x hx)]
  | map members ih =>
    cases h with
    | map _ h =>
      rw [Value.written, writtenMembers_eq (forall₂_imp_of_mem h fun m hm v => ih m hm)]
  | _ =>
    cases h
    rfl

end Json.Tree

namespace Literal

variable {L : Library} {A : Account}

/-- A literal with finite numbers is read back from the value that is left of the one it is stored
as, and from what a library writes for it if the library has room for its depth.

The other way round, let a text be written for a tree whose strings and numbers have values, and let
there be room for its depth. If the tree is built from strings, booleans, numbers and lists, then a
literal is read, and it is written as the value of the tree again. If null or a map stands anywhere
in the tree, then its shape is refused. -/
theorem ofJsonTextBy_writtenAs (laws : L.Lawful A) :
    (∀ y : Literal, y.IsStorable → ofJson? y.toJson.written = some y ∧
      (A.HasRoom y.toJson.depth → ofJsonTextBy L (L.write y.toJson) = .ok y)) ∧
    ∀ (x : Tree) (text : String), x.WrittenAs text → x.HasValue → A.HasRoom x.depth →
      (x.IsPlain →
        ∃ y, ofJsonTextBy L text = .ok y ∧ x.Denotes Numeral.Denotes y.toJson.written) ∧
      (¬x.IsPlain → ofJsonTextBy L text = .error .wrongShape) := by
  refine ⟨fun y hy => ?_, fun x text htext hvalue hroom => ?_⟩
  · have hread : ofJson? y.toJson.written = some y := by
      rw [hy.written_toJson, ofJson?_toJson]
    refine ⟨hread, fun hroom => ?_⟩
    obtain ⟨x, htext, hx⟩ := laws.write y.toJson
    rw [← Value.depth_written, ← hx.depth_eq] at hroom
    rw [ofJsonTextBy, laws.value ofJson? htext hx hroom, hread]
    rfl
  · have htotal : Tree.IsTotal fun n m => A.Offers n m ∧ n.Denotes m := fun _ => laws.number
    obtain ⟨-, hlayout, -, -⟩ := id htext
    obtain ⟨v, hv⟩ := hlayout.exists_denotes htotal hvalue
    have hoffered : x.Denotes A.Offers v := hv.imp fun _ _ h => h.1
    have hdenotes : x.Denotes Numeral.Denotes v := hv.imp fun _ _ h => h.2
    rw [ofJsonTextBy, laws.value ofJson? htext hoffered hroom]
    cases hdenotes.stores with
    | @literal y hplain hread hstored =>
      rw [← hdenotes.written_eq, ← hstored] at hdenotes
      exact ⟨fun _ => ⟨y, by rw [hread]; rfl, hdenotes⟩, fun hnot => absurd hplain hnot⟩
    | nothing hplain hread =>
      exact ⟨fun hx => absurd hx hplain, fun _ => by rw [hread]; rfl⟩

/-- A minus zero between the brackets of a list is read, and null there is refused. A list of a
number is read back. -/
theorem ofJsonTextBy_writtenAs_minus_zero :
    (∃ y, ofJsonText "[ -0]" = .ok y ∧
      (Tree.list [.number ⟨true, ['0'], none, none⟩]).Denotes Numeral.Denotes y.toJson.written) ∧
    ofJsonText "[null]" = .error .wrongShape ∧
    ofJsonText ((Library.within Draft.depthLimit).write (list [number (.integer 1)]).toJson)
      = .ok (list [number (.integer 1)]) := by
  have hnil : Tree.IsSpaceRun [] := List.forall_mem_nil _
  have hspace : Tree.IsSpaceRun [' '] := by
    intro c hc
    rw [List.mem_singleton.1 hc]
    rfl
  have laws := Library.lawful_within Draft.depthLimit
  have hone : 1 ≤ Draft.depthLimit := by decide
  refine ⟨?_, ?_, ?_⟩
  · have hzero : Numeral.Layout ⟨true, ['0'], none, none⟩ "-0".toList :=
      .mk true (by decide) (fun _ => rfl) .absent .absent
    have hwritten : (Tree.list [.number ⟨true, ['0'], none, none⟩]).WrittenAs "[ -0]" :=
      .mk hnil (.list (.last hspace (.number hzero) hnil)) hnil rfl
    have hvalue : (Tree.list [.number ⟨true, ['0'], none, none⟩]).HasValue :=
      .list (List.forall_mem_singleton.2 (.number (by decide +kernel)))
    refine ((ofJsonTextBy_writtenAs laws).2 _ _ hwritten hvalue hone).1 ?_
    exact .list (List.forall_mem_singleton.2 (.number _))
  · have hwritten : (Tree.list [.null]).WrittenAs "[null]" :=
      .mk hnil (.list (.last hnil .null hnil)) hnil rfl
    have hvalue : (Tree.list [.null]).HasValue := .list (List.forall_mem_singleton.2 .null)
    refine ((ofJsonTextBy_writtenAs laws).2 _ _ hwritten hvalue hone).2 ?_
    rw [Tree.isPlain_list_iff, List.forall_mem_singleton]
    exact Tree.not_isPlain_null
  · refine ((ofJsonTextBy_writtenAs laws).1 _ ?_).2 hone
    exact .list (List.forall_mem_singleton.2 (.number trivial))

end Literal

end FormatExpr
