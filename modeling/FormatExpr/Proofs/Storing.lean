import FormatExpr.Proofs.Asking
import FormatExpr.Proofs.Layout
import FormatExpr.Proofs.Restoring

/-!
# Storing parsed formats

A format that was parsed has finite and infinite numbers only, since rounding never gives NaN, and
its name and arguments pass the check for stored formats. What is written for it holds the same
record if all of its numbers are finite, and else null in the place of a literal. So with every
lawful library it is read back from what is written for it exactly when none of its numbers is
infinite (`Parser.parse_toJsonTextBy_iff_not_hasInfinity`).
-/

namespace FormatExpr

open Json

/-! ### Parsed literals -/

namespace Literal

/-- The numbers of a literal that was read are finite, or one of them is infinite. -/
theorem isStorable_or_hasInfinity {x : Literal} {p : Piece} (h : p.literal = .ok x) :
    x.IsStorable ∨ x.HasInfinity := by
  induction x generalizing p with
  | string s => exact .inl (.string trivial)
  | boolean b => exact .inl (.boolean b)
  | number n =>
    obtain ⟨lead, core, trail, -, -, -, -, hshape⟩ := Argument.shape_of_literal h
    cases n with
    | integer i => exact .inl (.number trivial)
    | float x =>
      cases hshape with
      | number hword =>
        rcases (Token.rank_le_of_number? hword).lt_or_eq with hlt | heq
        · exact .inl (.number (decide_eq_true hlt))
        · exact .inr (.float (beq_iff_eq.2 heq))
  | list items ih =>
    obtain ⟨lead, core, trail, -, -, -, -, hshape⟩ := Argument.shape_of_literal h
    have hitems : ∀ x ∈ items, x.IsStorable ∨ x.HasInfinity := by
      cases hshape with
      | emptyList _ => simp
      | list hreads =>
        intro x hx
        obtain ⟨p, hp⟩ := hreads.exists_piece hx
        exact ih x hx hp
    by_cases hall : ∀ x ∈ items, x.IsStorable
    · exact .inl (.list hall)
    · push Not at hall
      obtain ⟨x, hx, hnot⟩ := hall
      exact .inr (.list hx ((hitems x hx).resolve_left hnot))

end Literal

/-! ### Formats -/

namespace Format

/-- Some floating point number in the arguments is infinite. -/
def HasInfinity (f : Format) : Prop :=
  ∃ x ∈ f.arguments, x.HasInfinity

lemma isStorable_or_hasInfinity {text : String} {f : Format} (h : ofText text = .ok f) :
    ∀ x ∈ f.arguments, x.IsStorable ∨ x.HasInfinity := by
  intro x hx
  cases f with
  | property name => cases hx
  | method name arguments =>
    obtain ⟨body, -, hbody⟩ := ofText_eq_method_iff.1 h
    obtain ⟨p, hp⟩ := (Argument.literalsFrom_eq_ok_iff.1 hbody).exists_piece hx
    exact Literal.isStorable_or_hasInfinity hp

/-! ### Written formats -/

lemma written_toJson (f : Format) :
    f.toJson.written = .map [("name", .string f.name), ("is_property", .boolean f.isProperty),
      ("arguments", .list (Value.writtenItems (Literal.listToJson f.arguments)))] :=
  rfl

/-- A stored format has one container more inside one another than its list of arguments. -/
lemma depth_toJson (f : Format) :
    f.toJson.depth = (Value.list (Literal.listToJson f.arguments)).depth + 1 := by
  simp [toJson, Value.depth, Value.membersDepth]

section

variable {L : Library} {A : Account} {f : Format}

/-- With finite numbers, what is written for a format is read with the answer of the check. -/
lemma ofJsonTextBy_of_isStorable (laws : L.Lawful A) (hroom : A.HasRoom f.toJson.depth)
    (h : ∀ x ∈ f.arguments, x.IsStorable) : ofJsonTextBy L (f.toJsonTextBy L)
      = (check f.name f.isProperty f.arguments).mapError .rejected := by
  obtain ⟨x, htext, hx⟩ := laws.write f.toJson
  rw [written_toJson, Literal.writtenItems_listToJson fun x hx => (h x hx).written_toJson] at hx
  rw [depth_toJson] at hroom
  exact ofJsonTextBy_of_spellsFormat laws (Tree.spellsFormat_of_map hx) htext hroom

/-- With an infinite number, the arguments are written as a list that no literals are read from. -/
lemma ofJsonTextBy_of_hasInfinity (laws : L.Lawful A) (hroom : A.HasRoom f.toJson.depth)
    (h : f.HasInfinity) : ofJsonTextBy L (f.toJsonTextBy L) = .error .wrongShape := by
  obtain ⟨x, htext, hx⟩ := laws.write f.toJson
  rw [written_toJson] at hx
  obtain ⟨members, rfl, hmembers⟩ := Tree.exists_members hx
  obtain _ | ⟨hname, _ | ⟨hflag, _ | ⟨harguments, ⟨⟩⟩⟩⟩ := hmembers
  rename_i u v w
  have hdepth : w.2.depth + 1 = f.toJson.depth := by
    have hlist := Value.depth_written (.list (Literal.listToJson f.arguments))
    rw [harguments.value.depth_eq, depth_toJson, ← hlist]
    rfl
  have hone : A.HasRoom 1 := laws.hasRoom_of_le (by omega) (hdepth ▸ hroom)
  have hbefore : ∀ m ∈ [u, v], A.Legible record m := by
    rw [List.forall_mem_cons, List.forall_mem_singleton]
    exact ⟨.valued hname.key hname.value (by rwa [hname.value.depth_eq]),
      .valued hflag.key hflag.value (by rwa [hflag.value.depth_eq])⟩
  have hwrong : (record.reader Part.arguments).ofValue?
      (.list (Value.writtenItems (Literal.listToJson f.arguments))) = none := by
    obtain ⟨y, hy, hinfinity⟩ := h
    refine (Literal.listOfJson?_eq_mapM _).symm.trans ?_
    exact Literal.listOfJson?_eq_none hy hinfinity.ofJson?_written
  have htext' : (Json.Tree.map ([u, v] ++ w :: [])).WrittenAs (L.write f.toJson) := htext
  have hkey : Tree.IsFor w (record.name Part.arguments) := harguments.key
  exact laws.readRecord_of_wrong_kind checkRecord htext' hbefore hkey harguments.value
    (hdepth ▸ hroom) hwrong

end

end Format

namespace Parser

variable {ρ : Type} [Registry ρ]

/-- A format that was parsed is read back from what is written for it exactly when no number in its
arguments is infinite. The library must have room for the lists inside one another; if it has and a
number is infinite, what is written is of the wrong shape. -/
theorem parse_toJsonTextBy_iff_not_hasInfinity {L : Library} {A : Account} (laws : L.Lawful A)
    {registry : ρ} (hall : ∀ q, Registry.answer registry q = true) {text : String} {f : Format}
    (h : (ofRegistry registry).1.parse text = .ok f) (hroom : A.HasRoom f.toJson.depth) :
    (Format.ofJsonTextBy L (f.toJsonTextBy L) = .ok f ↔ ¬f.HasInfinity) ∧
      (f.HasInfinity → Format.ofJsonTextBy L (f.toJsonTextBy L) = .error .wrongShape) := by
  rw [parse_ofRegistry hall] at h
  have hxs := Format.isStorable_or_hasInfinity h
  have hname := (Format.wellFormed_of_ofText h).name
  refine ⟨⟨?_, ?_⟩, Format.ofJsonTextBy_of_hasInfinity laws hroom⟩
  · intro hread hinfinity
    rw [Format.ofJsonTextBy_of_hasInfinity laws hroom hinfinity] at hread
    cases hread
  · intro hfinite
    have hstorable : ∀ x ∈ f.arguments, x.IsStorable := fun x hx =>
      (hxs x hx).resolve_right fun hinfinity => hfinite ⟨x, hx, hinfinity⟩
    rw [Format.ofJsonTextBy_of_isStorable laws hroom hstorable, Format.check_eq_ok hname]
    rfl

/-- A number with a point, the integer of the same value and a word that begins like a boolean are
read back as they were parsed. A one with 309 zeros is beyond every finite number and is stored as
null. -/
theorem parse_toJsonTextBy_mixed :
    Format.ofJsonText (Format.method "f" [.list [.number (.float (.nearest false 2 1)),
        .number (.integer 2)], .string "true1"]).toJsonText
      = .ok (.method "f" [.list [.number (.float (.nearest false 2 1)), .number (.integer 2)],
        .string "true1"]) ∧
    Format.ofJsonText (Format.method "f" [.number (.float (.infinity false))]).toJsonText
      = .error .wrongShape := by
  have hnil := Text.isBlankRun_nil
  constructor
  · have hfloat : Argument.Spells "2.0".toList (.number (.float (.nearest false 2 1))) :=
      .of_number? (by decide +kernel)
    have hinteger : Argument.Spells "2".toList (.number (.integer 2)) := .of_number? (by decide)
    have hitems : ∀ offset, Argument.Reads offset "2.0, 2".toList
        [.number (.float (.nearest false 2 1)), .number (.integer 2)] :=
      hfloat.reads_cons hnil hnil (hinteger.reads Text.isBlankRun_space hnil)
    have hlist : Argument.Spells "[2.0, 2]".toList
        (.list [.number (.float (.nearest false 2 1)), .number (.integer 2)]) :=
      .list (by decide) hitems
    have halphanum : "true1".toList.all Char.isAlphanum = true := by decide
    have hword : Argument.Spells "true1".toList (.string "true1") :=
      .of_word fun c hc => .inl (List.all_eq_true.1 halphanum c hc)
    have hbody : ∀ offset, Argument.Reads offset "[2.0, 2], true1".toList
        [.list [.number (.float (.nearest false 2 1)), .number (.integer 2)],
          .string "true1"] :=
      hlist.reads_cons hnil hnil (hword.reads Text.isBlankRun_space hnil)
    have hparse : (ofRegistry fun _ : Query => true).1.parse "f([2.0, 2], true1)"
        = .ok (.method "f" [.list [.number (.float (.nearest false 2 1)), .number (.integer 2)],
          .string "true1"]) := by
      rw [parse_ofRegistry fun _ => rfl]
      exact Format.ofText_method_of_reads rfl (hbody 0)
    refine (parse_toJsonTextBy_iff_not_hasInfinity (Library.lawful_within Draft.depthLimit)
      (fun _ => rfl) hparse ?_).1.2 ?_
    · exact (by decide : 3 ≤ Draft.depthLimit)
    · have hfinite : (Binary64.nearest false 2 1).isFinite = true := by decide +kernel
      have hstored : (Literal.list [.number (.float (.nearest false 2 1)),
          .number (.integer 2)]).IsStorable := by
        refine .list ?_
        simp only [List.forall_mem_cons]
        exact ⟨.number hfinite, .number trivial, by simp⟩
      have hstring : (Literal.string "true1").IsStorable := .string trivial
      simp [Format.HasInfinity, Format.arguments, hstored.not_hasInfinity, hstring.not_hasInfinity]
  · have hdigits : Text.isDigits ('1' :: List.replicate 309 '0') = true := by
      rw [Text.isDigits_iff]
      refine ⟨List.cons_ne_nil _ _, ?_⟩
      simp only [List.forall_mem_cons, List.forall_mem_replicate]
      exact ⟨by decide, .inr (by decide)⟩
    have hword : Token.number? ('1' :: List.replicate 309 '0')
        = some (.float (.infinity false)) := by
      have hsplit : ∀ cs, Text.splitSign ('1' :: cs) = (false, '1' :: cs) := fun _ => rfl
      have hvalue := Text.value_append_replicate_zero ['1'] 309
      have hlarge : Number.ofInteger false (Text.value ['1'] * 10 ^ 309)
          = .float (.infinity false) := by
        decide +kernel
      rw [Token.number?_of_digits (hsplit _) hdigits, ← hlarge, ← hvalue, List.singleton_append]
    have hnested := Text.nested_of_word (Token.isWordChar_of_number? hword)
    have hreads := (Argument.Spells.of_number? hword).reads hnil hnil 0
    rw [List.nil_append, List.append_nil] at hreads
    generalize '1' :: List.replicate 309 '0' = word at hnested hreads
    rw [← @String.toList_ofList word] at hnested hreads
    have hparse : (ofRegistry fun _ : Query => true).1.parse
        ("f" ++ "(" ++ String.ofList word ++ ")")
        = .ok (.method "f" [.number (.float (.infinity false))]) := by
      rw [parse_ofRegistry fun _ => rfl]
      exact Format.ofText_call (by decide) hnested hreads
    refine (parse_toJsonTextBy_iff_not_hasInfinity (Library.lawful_within Draft.depthLimit)
      (fun _ => rfl) hparse (by decide : 2 ≤ Draft.depthLimit)).2 ?_
    exact ⟨_, List.mem_singleton.2 rfl, .float (by decide)⟩

end Parser

end FormatExpr
