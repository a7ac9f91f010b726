import FormatExpr.Proofs.DisplayExact
import FormatExpr.Proofs.JsonSpellings

/-!
# Reading stored formats

The three values that a stored format consists of become a format if the name is an identifier and a
property has no arguments; otherwise they are rejected, whatever library reads them
(`Format.ofJsonTextBy_accepts_exactly_valid`).

This lets through one kind of format that no text is parsed as, the call without any argument. Its
text is that of a call with the empty string as its only argument. Every other stored format is
parsed from its own text, if no string in it holds both quote characters
(`Parser.parse_display_ofJsonTextWithin_iff`).
-/

namespace FormatExpr

open Json

namespace Format

variable {L : Library} {A : Account} {text : String} {f : Format}

/-! ### Checking -/

lemma check_of_not_isIdentifier {name : String} (h : isIdentifier name.toList = false)
    (isProperty : Bool) (arguments : List Literal) :
    check name isProperty arguments = .error (.invalidName name) := by
  rw [check]
  split
  · rename_i hname
    obtain ⟨rfl, hname⟩ := Expression.ofText_eq_name_iff.1 hname
    rw [h] at hname
    cases hname
  · rfl

lemma check_of_isIdentifier {name : String} (h : isIdentifier name.toList = true)
    (isProperty : Bool) (arguments : List Literal) :
    check name isProperty arguments =
      if isProperty = true ∧ arguments ≠ [] then
        .error (.propertyWithArguments name arguments.length)
      else .ok (if isProperty then property name else method name arguments) := by
  rw [check, Expression.ofText_eq_name_iff.2 ⟨rfl, h⟩]
  cases isProperty <;> cases arguments <;> rfl

lemma check_eq_ok (h : isIdentifier f.name.toList = true) :
    check f.name f.isProperty f.arguments = .ok f := by
  rw [check, Expression.ofText_eq_name_iff.2 ⟨rfl, h⟩]
  cases f <;> rfl

/-- What passes the check is a format with the three values. -/
lemma check_eq_ok_iff {name : String} {isProperty : Bool} {arguments : List Literal} :
    check name isProperty arguments = .ok f ↔
      (isIdentifier name.toList = true ∧ ¬(isProperty = true ∧ arguments ≠ [])) ∧
        f.name = name ∧ f.isProperty = isProperty ∧ f.arguments = arguments := by
  constructor
  · intro h
    cases hname : isIdentifier name.toList with
    | false =>
      rw [check_of_not_isIdentifier hname] at h
      cases h
    | true =>
      rw [check_of_isIdentifier hname] at h
      split_ifs at h with hproperty hflag
      · obtain rfl : arguments = [] := by simpa [hflag] using hproperty
        cases h
        exact ⟨⟨rfl, hproperty⟩, rfl, hflag.symm, rfl⟩
      · cases h
        exact ⟨⟨rfl, hproperty⟩, rfl, (Bool.eq_false_iff.2 hflag).symm, rfl⟩
  · rintro ⟨⟨hname, -⟩, rfl, rfl, rfl⟩
    exact check_eq_ok hname

/-- Whatever library reads a format, the format has passed the check. -/
lemma isValid_of_ofJsonTextBy (laws : L.Lawful A) (h : ofJsonTextBy L text = .ok f) :
    isIdentifier f.name.toList = true ∧ ¬(f.isProperty = true ∧ f.arguments ≠ []) := by
  obtain ⟨parts, hparts⟩ := laws.source h
  obtain ⟨hvalid, hname, hflag, harguments⟩ := check_eq_ok_iff.1 hparts
  rwa [hname, hflag, harguments]

/-- Whatever is read as a format has an identifier as its name, and no arguments if it is a
property.

Let a text be written for a name, a flag and arguments. A format is read exactly if the values fit
together like this, and then it carries them. Otherwise they are rejected, with the name as the
reason if it is no identifier, whatever else is wrong, and else with the name of the property and
the number of its arguments. The library must have room for the lists inside one another. -/
theorem ofJsonTextBy_accepts_exactly_valid (laws : L.Lawful A) :
    (∀ text f, ofJsonTextBy L text = .ok f →
      isIdentifier f.name.toList = true ∧ (f.isProperty = true → f.arguments = [])) ∧
    ∀ (x : Tree) (text name : String) (isProperty : Bool) (arguments : List Literal),
      x.SpellsFormat A name isProperty arguments → x.WrittenAs text →
      A.HasRoom ((Value.list (Literal.listToJson arguments)).depth + 1) →
      ((∃ f, ofJsonTextBy L text = .ok f) ↔
        isIdentifier name.toList = true ∧ ¬(isProperty = true ∧ arguments ≠ [])) ∧
      (∀ f, ofJsonTextBy L text = .ok f →
        f.name = name ∧ f.isProperty = isProperty ∧ f.arguments = arguments) ∧
      (isIdentifier name.toList = false → ∃ reason,
        ofJsonTextBy L text = .error (.rejected reason) ∧
          reason.message = s!"invalid format name '{name}'") ∧
      (isIdentifier name.toList = true → isProperty = true → arguments ≠ [] → ∃ reason,
        ofJsonTextBy L text = .error (.rejected reason) ∧
          reason.message = s!"property '{name}' cannot carry {arguments.length} argument(s)") := by
  constructor
  · intro text f h
    obtain ⟨hname, hproperty⟩ := isValid_of_ofJsonTextBy laws h
    refine ⟨hname, fun hflag => ?_⟩
    by_contra hne
    exact hproperty ⟨hflag, hne⟩
  · intro x text name isProperty arguments hspells htext hroom
    have hread := ofJsonTextBy_of_spellsFormat laws hspells htext hroom
    have hok : ∀ f, ofJsonTextBy L text = .ok f ↔ check name isProperty arguments = .ok f := by
      intro f
      rw [hread, mapError_eq_ok_iff]
    refine ⟨?_, ?_, ?_, ?_⟩
    · constructor
      · rintro ⟨f, h⟩
        exact (check_eq_ok_iff.1 ((hok f).1 h)).1
      · intro hvalid
        have hcheck := check_of_isIdentifier hvalid.1 isProperty arguments
        rw [if_neg hvalid.2] at hcheck
        exact ⟨_, (hok _).2 hcheck⟩
    · intro f h
      exact (check_eq_ok_iff.1 ((hok f).1 h)).2
    · intro hname
      rw [hread, check_of_not_isIdentifier hname]
      exact ⟨_, rfl, rfl⟩
    · intro hname hflag hne
      rw [hread, check_of_isIdentifier hname, if_pos ⟨hflag, hne⟩]
      exact ⟨_, rfl, rfl⟩

/-- A property without arguments is read. A call in the place of a name is an invalid name, also
where a property has arguments. Members may come in any order with others between them. -/
theorem ofJsonTextBy_region_and_call :
    ofJsonText (String.ofList (Json.Value.map
        [("name", .string "region"), ("is_property", .boolean true)]).text)
      = .ok (.property "region") ∧
    ∃ reason, ofJsonText (String.ofList (Json.Value.map [("arguments",
        .list [.number (.integer 1)]), ("note", .list [.null]), ("name", .string "f()"),
        ("is_property", .boolean true)]).text) = .error (.rejected reason) ∧
      reason.message = "invalid format name 'f()'" := by
  have laws := Library.lawful_within Draft.depthLimit
  constructor
  · obtain ⟨x, htext, hx⟩ := laws.write (.map [("name", .string "region"),
      ("is_property", .boolean true)])
    have hspells : x.SpellsFormat (Library.account Draft.depthLimit) "region" true [] :=
      Json.Tree.spellsFormat_of_shortMap hx
    obtain ⟨hvalid, hcarries, -⟩ := (ofJsonTextBy_accepts_exactly_valid laws).2 x _ _ _ _ hspells
      htext (by decide : 2 ≤ Draft.depthLimit)
    obtain ⟨f, hf⟩ := hvalid.2 ⟨by decide, by simp⟩
    obtain ⟨hname, hflag, -⟩ := hcarries f hf
    cases f with
    | property name =>
      obtain rfl : name = "region" := hname
      exact hf
    | method name arguments => cases hflag
  · obtain ⟨x, htext, hx⟩ := laws.write (.map [("arguments", .list [.number (.integer 1)]),
      ("note", .list [.null]), ("name", .string "f()"), ("is_property", .boolean true)])
    have hspells : x.SpellsFormat (Library.account Draft.depthLimit) "f()" true
        [.number (.integer 1)] := by
      obtain ⟨members, rfl, h⟩ := Json.Tree.exists_members hx
      obtain _ | ⟨harguments, _ | ⟨hother, _ | ⟨hname, _ | ⟨hflag, ⟨⟩⟩⟩⟩⟩ := h
      rename_i w other u v
      have hunknown : record.Ignores other := by
        refine ⟨"note", hother.key, ?_⟩
        rintro (_ | _ | _) <;> decide
      have hmembers : [w, other, u, v].Perm (u :: v :: w :: [other]) :=
        @List.perm_append_comm _ [w, other] [u, v]
      exact .map hmembers hname hflag harguments (List.forall_mem_singleton.2 hunknown)
    obtain ⟨-, -, hname, -⟩ := (ofJsonTextBy_accepts_exactly_valid laws).2 x _ _ _ _ hspells htext
      (by decide : 2 ≤ Draft.depthLimit)
    exact hname (by decide)

/-! ### Texts of stored formats -/

lemma isFaithful_of_isPlain (h : ∀ x ∈ f.arguments, x.IsPlain) : f.IsFaithful := by
  cases f with
  | property name => trivial
  | method name arguments => exact ⟨fun x hx => (h x hx).isFaithful, nested_argumentText h⟩

/-- A format with plain arguments is read from its text, unless it is a call without arguments. -/
lemma ofText_display_of_isPlain (hname : isIdentifier f.name.toList = true)
    (hplain : ∀ x ∈ f.arguments, x.IsPlain) (hf : f.isProperty = true ∨ f.arguments ≠ []) :
    ofText f.display = .ok f := by
  refine ofText_display ⟨hname, ?_⟩ (isFaithful_of_isPlain hplain)
  rintro name rfl
  simp [isProperty, arguments] at hf

/-- A call without arguments has the text of a call with the empty string. -/
lemma ofText_display_of_no_arguments {name : String} (hname : isIdentifier name.toList = true) :
    ofText (method name []).display = .ok (method name [.string ""]) := by
  have hplain : ∀ x ∈ [Literal.string ""], x.IsPlain := by
    rw [List.forall_mem_singleton]
    exact .string (by decide)
  have hne : (method name [.string ""]).arguments ≠ [] := List.cons_ne_nil _ _
  exact @ofText_display_of_isPlain (method name [.string ""]) hname hplain (.inr hne)

end Format

namespace Parser

variable {ρ : Type} [Registry ρ]

/-- A format that was read from JSON text, with finite numbers and no string that holds both quote
characters, is parsed from its own text exactly if it is a property or has an argument. A call
without arguments is parsed as the call with the empty string as its only argument, which does not
equal it. -/
theorem parse_display_ofJsonTextWithin_iff {registry : ρ}
    (hall : ∀ q, Registry.answer registry q = true) {room : Nat} {text : String} {f : Format}
    (h : Format.ofJsonTextWithin room text = .ok f) (hplain : ∀ x ∈ f.arguments, x.IsPlain) :
    ((ofRegistry registry).1.parse f.display = .ok f ↔
      f.isProperty = true ∨ f.arguments ≠ []) ∧
    (¬(f.isProperty = true ∨ f.arguments ≠ []) →
      (ofRegistry registry).1.parse f.display = .ok (.method f.name [.string ""]) ∧
        f.numEq (.method f.name [.string ""]) = false) := by
  obtain ⟨hname, -⟩ := Format.isValid_of_ofJsonTextBy (Library.lawful_within room) h
  rw [parse_ofRegistry hall]
  by_cases hf : f.isProperty = true ∨ f.arguments ≠ []
  · have hread := Format.ofText_display_of_isPlain hname hplain hf
    exact ⟨iff_of_true hread hf, fun hn => absurd hf hn⟩
  · obtain ⟨name, rfl⟩ : ∃ name, f = .method name [] := by
      cases f with
      | property name => exact absurd (.inl rfl) hf
      | method name arguments =>
        obtain rfl : arguments = [] := by simpa [Format.isProperty, Format.arguments] using hf
        exact ⟨name, rfl⟩
    have hread : Format.ofText (Format.method name []).display = .ok (.method name [.string ""]) :=
      Format.ofText_display_of_no_arguments hname
    refine ⟨iff_of_false ?_ hf, fun _ => ⟨hread, ?_⟩⟩
    · rw [hread]
      simp
    · simp [Format.numEq, Format.arguments, Literal.numEqList]

/-- A call with a list inside its list of arguments and a string with one of the quote characters -/
theorem parse_display_ofJsonTextWithin_iff_list :
    Format.ofJsonText (String.ofList (Json.Value.list [.string "pick", .boolean false,
        .list [.list [], .string "it's"]]).text) = .ok (.method "pick" [.list [], .string "it's"]) ∧
      (ofRegistry fun _ : Query => true).1.parse
          (Format.method "pick" [.list [], .string "it's"]).display
        = .ok (.method "pick" [.list [], .string "it's"]) := by
  have laws := Library.lawful_within Draft.depthLimit
  obtain ⟨x, htext, hx⟩ := laws.write (.list [.string "pick", .boolean false,
    .list [.list [], .string "it's"]])
  have hspells : x.SpellsFormat (Library.account Draft.depthLimit) "pick" false
      [.list [], .string "it's"] := Tree.spellsFormat_of_list hx
  have hread := Format.ofJsonTextBy_of_spellsFormat laws hspells htext
    (by decide : 3 ≤ Draft.depthLimit)
  rw [Format.check_of_isIdentifier (by decide), if_neg (by simp)] at hread
  have hplain : ∀ x ∈ [Literal.list [], .string "it's"], x.IsPlain := by
    rw [List.forall_mem_cons, List.forall_mem_singleton]
    exact ⟨.list (by simp), .string (by decide)⟩
  have hall : ∀ q, Registry.answer (fun _ : Query => true) q = true := fun _ => rfl
  have hparse := (parse_display_ofJsonTextWithin_iff hall hread hplain).1
  exact ⟨hread, hparse.2 (.inr (by simp [Format.arguments]))⟩

/-- A stored call may lack arguments, here because none are given. Its text is that of a call with
the empty string, so that it is not parsed from it. -/
theorem parse_display_stored_without_arguments :
    Format.ofJsonText (String.ofList (Json.Value.map
        [("name", .string "f"), ("is_property", .boolean false)]).text) = .ok (.method "f" []) ∧
      (ofRegistry fun _ : Query => true).1.parse (Format.method "f" []).display
        = .ok (.method "f" [.string ""]) ∧
      (Format.method "f" []).numEq (.method "f" [.string ""]) = false := by
  have laws := Library.lawful_within Draft.depthLimit
  obtain ⟨x, htext, hx⟩ := laws.write (.map [("name", .string "f"),
    ("is_property", .boolean false)])
  have hspells : x.SpellsFormat (Library.account Draft.depthLimit) "f" false [] :=
    Tree.spellsFormat_of_shortMap hx
  have hread := Format.ofJsonTextBy_of_spellsFormat laws hspells htext
    (by decide : 2 ≤ Draft.depthLimit)
  rw [Format.check_of_isIdentifier (by decide), if_neg (by simp)] at hread
  refine ⟨hread, ?_, ?_⟩
  · rw [parse_ofRegistry fun _ => rfl]
    exact Format.ofText_display_of_no_arguments (by decide)
  · simp [Format.numEq, Format.arguments, Literal.numEqList]

end Parser

end FormatExpr
