import FormatExpr.Proofs.JsonRecords
import FormatExpr.Proofs.LiteralJson

/-!
# JSON spellings of stored formats

A name, a flag and arguments are written as a list or as a map, and a map may have its members in
any order and any others between them (`Json.Tree.SpellsFormat`). All of these trees, in all of
their layouts, are read with the same answer, that of the check of the three values
(`Format.ofJsonTextBy_spellings`), since all of them hold the same record. A map in which one of the
three keys comes back is refused.
-/

namespace FormatExpr

open Json

/-! ### Trees of formats -/

namespace Json.Tree

/-- The member has the key, and its value is the given one. -/
structure MemberSpells (A : Account) (m : List Token.Spelling × Tree) (key : String) (v : Value) :
    Prop where
  key : IsFor m key
  value : m.2.Denotes A.Offers v

/-- The tree is written for a format with the given name, flag and arguments. -/
inductive SpellsFormat (A : Account) : Tree → String → Bool → List Literal → Prop where
  | list {x y z : Tree} {name : String} {isProperty : Bool} {arguments : List Literal}
      (hname : x.Denotes A.Offers (.string name))
      (hflag : y.Denotes A.Offers (.boolean isProperty))
      (harguments : z.Denotes A.Offers (.list (Literal.listToJson arguments))) :
      SpellsFormat A (list [x, y, z]) name isProperty arguments
  /-- The arguments are left out. -/
  | shortList {x y : Tree} {name : String} {isProperty : Bool}
      (hname : x.Denotes A.Offers (.string name))
      (hflag : y.Denotes A.Offers (.boolean isProperty)) :
      SpellsFormat A (list [x, y]) name isProperty []
  /-- Members come in any order, with any unknown ones between them. -/
  | map {x y z : List Token.Spelling × Tree} {members others : List (List Token.Spelling × Tree)}
      {name : String} {isProperty : Bool} {arguments : List Literal}
      (hmembers : members.Perm (x :: y :: z :: others))
      (hname : MemberSpells A x "name" (.string name))
      (hflag : MemberSpells A y "is_property" (.boolean isProperty))
      (harguments : MemberSpells A z "arguments" (.list (Literal.listToJson arguments)))
      (hothers : ∀ m ∈ others, Format.record.Ignores m) :
      SpellsFormat A (map members) name isProperty arguments
  /-- The arguments are left out. -/
  | shortMap {x y : List Token.Spelling × Tree} {members others : List (List Token.Spelling × Tree)}
      {name : String} {isProperty : Bool} (hmembers : members.Perm (x :: y :: others))
      (hname : MemberSpells A x "name" (.string name))
      (hflag : MemberSpells A y "is_property" (.boolean isProperty))
      (hothers : ∀ m ∈ others, Format.record.Ignores m) :
      SpellsFormat A (map members) name isProperty []

section Values

variable {A : Account} {x : Tree} {name : String} {isProperty : Bool} {arguments : List Literal}

lemma spellsFormat_of_list (hx : x.Denotes A.Offers
    (.list [.string name, .boolean isProperty, .list (Literal.listToJson arguments)])) :
    x.SpellsFormat A name isProperty arguments := by
  cases hx with
  | list h =>
    obtain _ | ⟨hname, _ | ⟨hflag, _ | ⟨harguments, ⟨⟩⟩⟩⟩ := h
    exact .list hname hflag harguments

/-- The members of a tree that denotes a map. -/
lemma exists_members {vs : List (String × Value)} (hx : x.Denotes A.Offers (.map vs)) :
    ∃ members, x = Json.Tree.map members ∧
      List.Forall₂ (fun m v => MemberSpells A m v.1 v.2) members vs := by
  cases hx with
  | map hkeys h => exact ⟨_, rfl, List.Forall₂.mp (fun _ _ hkey hv => ⟨hkey, hv⟩) hkeys h⟩

lemma spellsFormat_of_map (hx : x.Denotes A.Offers (.map [("name", .string name),
      ("is_property", .boolean isProperty),
      ("arguments", .list (Literal.listToJson arguments))])) :
    x.SpellsFormat A name isProperty arguments := by
  obtain ⟨members, rfl, h⟩ := exists_members hx
  obtain _ | ⟨hname, _ | ⟨hflag, _ | ⟨harguments, ⟨⟩⟩⟩⟩ := h
  exact .map (.refl _) hname hflag harguments (List.forall_mem_nil _)

lemma spellsFormat_of_shortMap (hx : x.Denotes A.Offers (.map [("name", .string name),
      ("is_property", .boolean isProperty)])) : x.SpellsFormat A name isProperty [] := by
  obtain ⟨members, rfl, h⟩ := exists_members hx
  obtain _ | ⟨hname, _ | ⟨hflag, ⟨⟩⟩⟩ := h
  exact .shortMap (.refl _) hname hflag (List.forall_mem_nil _)

end Values

end Json.Tree

namespace Format

open Json.Tree

variable {L : Library} {A : Account} {name : String} {isProperty : Bool}
  {arguments : List Literal} {x : Tree}

/-! ### Parts -/

/-- The record of a name, a flag and arguments. -/
def parts (name : String) (isProperty : Bool) (arguments : List Literal) : record.Filled
  | .name => name
  | .isProperty => isProperty
  | .arguments => arguments

lemma holds_name (hx : x.Denotes A.Offers (.string name)) (hroom : A.HasRoom 1) :
    A.Holds (parts name isProperty arguments) Part.name x :=
  .mk hx (by rwa [hx.depth_eq]) rfl

lemma holds_isProperty (hx : x.Denotes A.Offers (.boolean isProperty)) (hroom : A.HasRoom 1) :
    A.Holds (parts name isProperty arguments) Part.isProperty x :=
  .mk hx (by rwa [hx.depth_eq]) rfl

lemma holds_arguments (hx : x.Denotes A.Offers (.list (Literal.listToJson arguments)))
    (hroom : A.HasRoom ((Value.list (Literal.listToJson arguments)).depth + 1)) :
    A.Holds (parts name isProperty arguments) Part.arguments x := by
  have hread : (Literal.listToJson arguments).mapM Literal.ofJson? = some arguments := by
    rw [← Literal.listOfJson?_eq_mapM]
    exact Literal.listOfJson?_eq_some fun x _ => x.ofJson?_toJson
  exact .mk hx (by rwa [hx.depth_eq]) hread

/-! ### Reading spellings -/

/-- Whatever is written for a format is read with the answer of the check of its three values. -/
theorem ofJsonTextBy_of_spellsFormat (laws : L.Lawful A) {text : String}
    (h : x.SpellsFormat A name isProperty arguments) (htext : x.WrittenAs text)
    (hroom : A.HasRoom ((Value.list (Literal.listToJson arguments)).depth + 1)) :
    ofJsonTextBy L text = (check name isProperty arguments).mapError .rejected := by
  have hone : A.HasRoom 1 := laws.hasRoom_of_le (Nat.le_add_left 1 _) hroom
  have hname : ∀ {x : Tree}, x.Denotes A.Offers (.string name) →
      A.Holds (parts name isProperty arguments) Part.name x := fun hx => holds_name hx hone
  have hflag : ∀ {x : Tree}, x.Denotes A.Offers (.boolean isProperty) →
      A.Holds (parts name isProperty arguments) Part.isProperty x :=
    fun hx => holds_isProperty hx hone
  have hcheck : checkRecord (parts name isProperty arguments) = check name isProperty arguments :=
    rfl
  rw [ofJsonTextBy, ← hcheck]
  cases h with
  | list hx hy hz =>
    have hitems : List.Forall₂ (A.Holds (parts name isProperty arguments))
        [Part.name, Part.isProperty, Part.arguments] _ :=
      .cons (hname hx) (.cons (hflag hy) (.cons (holds_arguments hz hroom) .nil))
    have hkeys : record.keys = [Part.name, Part.isProperty, Part.arguments] ++ [] := rfl
    exact laws.readRecord_of_items checkRecord hkeys htext hone hitems (List.forall_mem_nil _)
  | shortList hx hy =>
    have hitems : List.Forall₂ (A.Holds (parts name isProperty []))
        [Part.name, Part.isProperty] _ := .cons (hname hx) (.cons (hflag hy) .nil)
    have hkeys : record.keys = [Part.name, Part.isProperty] ++ [Part.arguments] := rfl
    exact laws.readRecord_of_items checkRecord hkeys htext hone hitems
      (List.forall_mem_singleton.2 rfl)
  | @map u v w members others _ _ _ hmembers hx hy hz hothers =>
    have hperm : members.Perm ([u, v, w] ++ others) := hmembers
    have hheld : List.Forall₂ (A.MemberHolds (parts name isProperty arguments))
        [Part.name, Part.isProperty, Part.arguments] [u, v, w] :=
      .cons ⟨hx.key, hname hx.value⟩ (.cons ⟨hy.key, hflag hy.value⟩
        (.cons ⟨hz.key, holds_arguments hz.value hroom⟩ .nil))
    exact laws.readRecord_of_members checkRecord hperm htext hone record.nodup hheld hothers
      fun k => .inl (record.complete k)
  | @shortMap u v members others _ _ hmembers hx hy hothers =>
    have hperm : members.Perm ([u, v] ++ others) := hmembers
    have hheld : List.Forall₂ (A.MemberHolds (parts name isProperty []))
        [Part.name, Part.isProperty] [u, v] :=
      .cons ⟨hx.key, hname hx.value⟩ (.cons ⟨hy.key, hflag hy.value⟩ .nil)
    have hrest : ∀ k : record.Key, k ∈ [Part.name, Part.isProperty] ∨
        record.fallback k = some (parts name isProperty [] k) := by
      rintro (_ | _ | _)
      · exact .inl List.mem_cons_self
      · exact .inl (List.mem_cons_of_mem _ List.mem_cons_self)
      · exact .inr rfl
    exact laws.readRecord_of_members checkRecord hperm htext hone (by decide) hheld hothers hrest

/-- All texts that are written for the same name, flag and arguments are read with the same answer,
that of the check of the three values: be they lists or maps, in whatever order the members come,
whatever other members stand between them, and whether arguments are left out or empty.

A map is refused for its shape if one of the three keys comes back, whatever its value is then and
whatever follows. -/
theorem ofJsonTextBy_spellings (laws : L.Lawful A) :
    (∀ (x y : Tree) (text text' name : String) (isProperty : Bool) (arguments : List Literal),
      x.SpellsFormat A name isProperty arguments → x.WrittenAs text →
      y.SpellsFormat A name isProperty arguments → y.WrittenAs text' →
      A.HasRoom ((Value.list (Literal.listToJson arguments)).depth + 1) →
      ofJsonTextBy L text = ofJsonTextBy L text' ∧
        ofJsonTextBy L text = (check name isProperty arguments).mapError .rejected) ∧
    ∀ (members : List (List Token.Spelling × Tree)) (text : String),
      (Json.Tree.map members).WrittenAs text → A.Repeats record members → A.HasRoom 1 →
      ofJsonTextBy L text = .error .wrongShape := by
  constructor
  · intro x y text text' name isProperty arguments hx htext hy htext' hroom
    have hread := ofJsonTextBy_of_spellsFormat laws hx htext hroom
    exact ⟨hread.trans (ofJsonTextBy_of_spellsFormat laws hy htext' hroom).symm, hread⟩
  · intro members text htext h hroom
    exact laws.readRecord_of_repeats checkRecord htext hroom h

/-- A map with its members in another order, an unknown one between them and no arguments is read
like a list with empty arguments, as a property. A name that comes back is refused, although it is
no string. -/
theorem ofJsonTextBy_spellings_short_map :
    (ofJsonText "\x7b\"is_property\":true,\"x\":[null], \"name\":\"f\"\x7d"
        = ofJsonText "[\"f\",true,[]]" ∧
      ofJsonText "\x7b\"is_property\":true,\"x\":[null], \"name\":\"f\"\x7d"
        = .ok (.property "f")) ∧
      ofJsonText "\x7b\"name\":\"f\",\"name\":null\x7d" = .error .wrongShape := by
  have hnil : IsSpaceRun [] := List.forall_mem_nil _
  have hspace : IsSpaceRun [' '] := List.forall_mem_singleton.2 rfl
  have hkey : ∀ (s : String) (x : Tree), IsFor (s.toList.map Token.spelling, x) s :=
    Value.isFor_quotedText
  have hname : (Json.Tree.string ("f".toList.map Token.spelling)).Denotes Numeral.ReadAs
      (.string "f") := .string (Token.join_spellings _)
  have hquoted : Layout (.string ("f".toList.map Token.spelling)) "\"f\"".toList :=
    .string (Value.stringLayout_quotedText "f")
  have hkeyText := Value.stringLayout_quotedText "name"
  have hspellings := ofJsonTextBy_spellings (Library.lawful_within Draft.depthLimit)
  constructor
  · have hmap : WrittenAs (.map [("is_property".toList.map Token.spelling, .boolean true),
          ("x".toList.map Token.spelling, .list [.null]),
          ("name".toList.map Token.spelling, .string ("f".toList.map Token.spelling))])
        "\x7b\"is_property\":true,\"x\":[null], \"name\":\"f\"\x7d" := by
      have hitem : Layout (.list [.null]) "[null]".toList := .list (.last hnil .null hnil)
      refine .mk hnil (.map (.cons hnil (Value.stringLayout_quotedText "is_property") hnil hnil
        (.boolean true) hnil (.cons hnil (Value.stringLayout_quotedText "x") hnil hnil hitem hnil
          (.last hspace hkeyText hnil hnil hquoted hnil)))) hnil ?_
      rfl
    have hlist : WrittenAs (.list [.string ("f".toList.map Token.spelling), .boolean true,
        .list []]) "[\"f\",true,[]]" := by
      refine .mk hnil (.list (.cons hnil hquoted hnil (.cons hnil (.boolean true) hnil
        (.last hnil (.emptyList hnil) hnil)))) hnil ?_
      rfl
    have hother : record.Ignores ("x".toList.map Token.spelling, .list [.null]) := by
      refine ⟨"x", hkey "x" _, ?_⟩
      rintro (_ | _ | _) <;> decide
    have hmapSpells : SpellsFormat (Library.account Draft.depthLimit) _ "f" true [] :=
      .shortMap (@List.perm_append_comm _ [_, _] [_]) ⟨hkey "name" _, hname⟩
        ⟨hkey "is_property" _, .boolean true⟩ (List.forall_mem_singleton.2 hother)
    have hlistSpells : SpellsFormat (Library.account Draft.depthLimit) _ "f" true [] :=
      .list hname (.boolean true) (.list .nil)
    have hread := hspellings.1 _ _ _ _ _ _ _ hmapSpells hmap hlistSpells hlist
      (by decide : 2 ≤ Draft.depthLimit)
    exact ⟨hread.1, hread.2.trans rfl⟩
  · have htext : WrittenAs (.map ([("name".toList.map Token.spelling,
          .string ("f".toList.map Token.spelling))] ++ [("name".toList.map Token.spelling, .null)]))
        "\x7b\"name\":\"f\",\"name\":null\x7d" := by
      refine .mk hnil (.map (.cons hnil hkeyText hnil hnil hquoted hnil
        (.last hnil hkeyText hnil hnil .null hnil))) hnil ?_
      rfl
    have hone : 1 ≤ Draft.depthLimit := by decide
    have hfirst : (Library.account Draft.depthLimit).Legible record
        ("name".toList.map Token.spelling, .string ("f".toList.map Token.spelling)) :=
      .valued (hkey "name" _) hname hone
    refine hspellings.2 _ _ htext ?_ hone
    exact .mk (List.mem_singleton_self _) (hkey (record.name Part.name) _) (hkey "name" _)
      (List.forall_mem_singleton.2 hfirst)

end Format

end FormatExpr
