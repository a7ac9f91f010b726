import Mathlib
import FormatExpr.Registry.Declaration

/-!
# Flat declarations

A layer among declarations may be replaced by what it declares: the same table comes out
(`declareAll_flatten`), since laying a table over another one goes declaration by declaration
(`extend_declareAll`).

Without layers the answers of a table can be read off its declarations. The properties are the names
that some declaration adds, the arity of a method is the last one declared, and the names are
counted once each (`AnswersAs`).
-/

namespace FormatExpr

namespace Declaration

/-! ### Declarations without layers -/

mutual

/-- What a declaration declares, without layers. -/
def flat : Declaration → List Declaration
  | .extend layer => flatten layer
  | d => [d]

/-- The declarations with every layer replaced by what it declares. -/
def flatten : List Declaration → List Declaration
  | [] => []
  | d :: ds => flat d ++ flatten ds

end

mutual

lemma extend_notMem_flat (layer : List Declaration) : (d : Declaration) → .extend layer ∉ flat d
  | .property _ | .properties _ | .method _ _ => by simp [flat]
  | .extend ds => by
    rw [flat]
    exact extend_notMem_flatten layer ds

lemma extend_notMem_flatten (layer : List Declaration) :
    (ds : List Declaration) → .extend layer ∉ flatten ds
  | [] => List.not_mem_nil
  | d :: ds => by
    rw [flatten, List.mem_append, not_or]
    exact ⟨extend_notMem_flat layer d, extend_notMem_flatten layer ds⟩

end

/-- The properties that a declaration adds by itself. -/
def propertyNames : Declaration → List String
  | .property name => [name]
  | .properties names => names
  | _ => []

/-- The method that a declaration adds by itself. -/
def methodName? : Declaration → Option String
  | .method name _ => some name
  | _ => none

lemma mem_filterMap_methodName? {name : String} {ds : List Declaration} :
    name ∈ ds.filterMap methodName? ↔ ∃ a, .method name a ∈ ds := by
  rw [List.mem_filterMap]
  constructor
  · rintro ⟨d, hd, hname⟩
    cases d with
    | method added a =>
      obtain rfl : added = name := Option.some.inj hname
      exact ⟨a, hd⟩
    | _ => exact absurd hname (by simp [methodName?])
  · rintro ⟨a, ha⟩
    exact ⟨_, ha, rfl⟩

/-- Unless a method is not declared at all, some declaration of it is the last one. -/
lemma exists_last_method (name : String) (ds : List Declaration) :
    (∀ a, .method name a ∉ ds) ∨ ∃ before a after,
      ds = before ++ .method name a :: after ∧ ∀ b, .method name b ∉ after := by
  induction ds with
  | nil => simp
  | cons d ds ih =>
    rcases ih with hnone | ⟨before, a, after, rfl, hafter⟩
    · by_cases hd : ∃ a, d = .method name a
      · obtain ⟨a, rfl⟩ := hd
        exact .inr ⟨[], a, ds, rfl, hnone⟩
      · left
        intro a ha
        rcases List.mem_cons.1 ha with rfl | ha
        · exact hd ⟨a, rfl⟩
        · exact hnone a ha
    · exact .inr ⟨d :: before, a, after, rfl, hafter⟩

end Declaration

namespace Table

open Declaration Registry

variable {t : Table} {ds : List Declaration} {name : String}

/-! ### Layers, declaration by declaration -/

@[simp] lemma containsProperty_property (t : Table) (added name : String) :
    (t.property added).containsProperty name = (t.containsProperty name || name == added) := by
  simp [property, containsProperty, Bool.or_comm, BEq.comm (a := added)]

@[simp] lemma arity?_property (t : Table) (added name : String) :
    (t.property added).arity? name = t.arity? name := rfl

@[simp] lemma containsProperty_method (t : Table) (added name : String) (a : Arity) :
    (t.method added a).containsProperty name = t.containsProperty name := rfl

@[simp] lemma arity?_method (t : Table) (added name : String) (a : Arity) :
    (t.method added a).arity? name = if added = name then some a else t.arity? name := by
  simp [method, arity?, Std.ExtHashMap.getElem?_insert]

lemma extend_property (t u : Table) (name : String) :
    t.extend (u.property name) = (t.extend u).property name :=
  ext_of_answers (by simp [Bool.or_assoc]) (by simp)

lemma extend_method (t u : Table) (name : String) (a : Arity) :
    t.extend (u.method name a) = (t.extend u).method name a := by
  refine ext_of_answers (by simp) fun other => ?_
  by_cases h : name = other <;> simp [h]

lemma extend_declare (t u : Table) (d : Declaration) :
    t.extend (u.declare d) = (t.extend u).declare d := by
  cases d with
  | property name => exact extend_property t u name
  | properties names =>
    exact (List.foldl_hom (extend t) fun u name => (extend_property t u name).symm).symm
  | method name a => exact extend_method t u name a
  | extend layer => exact (extend_assoc t u _).symm

/-- A table that is laid over another one may be built in place. -/
lemma extend_declareAll (t u : Table) (ds : List Declaration) :
    t.extend (u.declareAll ds) = (t.extend u).declareAll ds := by
  induction ds generalizing u with
  | nil => rfl
  | cons d ds ih => rw [declareAll, declareAll, ih, extend_declare]

lemma declareAll_append (t : Table) (ds es : List Declaration) :
    t.declareAll (ds ++ es) = (t.declareAll ds).declareAll es := by
  induction ds generalizing t with
  | nil => rfl
  | cons d ds ih => rw [List.cons_append, declareAll, declareAll, ih]

mutual

lemma declareAll_flat (t : Table) : (d : Declaration) → t.declareAll (flat d) = t.declare d
  | .property _ | .properties _ | .method _ _ => rfl
  | .extend layer => by
    rw [flat, declareAll_flatten, declare, extend_declareAll, extend_empty]

/-- Declarations and what is left of them without layers build the same table. -/
theorem declareAll_flatten (t : Table) :
    (ds : List Declaration) → t.declareAll (flatten ds) = t.declareAll ds
  | [] => rfl
  | d :: ds => by
    rw [flatten, declareAll_append, declareAll_flat, declareAll_flatten, declareAll]

end

/-! ### The answers to flat declarations -/

/-- A declaration that is not a layer adds its properties. -/
lemma containsProperty_declare {d : Declaration} (hd : ∀ layer, d ≠ .extend layer) :
    (t.declare d).containsProperty name = true ↔
      t.containsProperty name = true ∨ name ∈ d.propertyNames := by
  cases d with
  | property added => simp [declare, propertyNames]
  | properties names =>
    change (names.foldl property t).containsProperty name = true ↔ _ ∨ name ∈ names
    induction names generalizing t with
    | nil => simp
    | cons added names ih => simp [ih, or_assoc]
  | method added a => simp [declare, propertyNames]
  | extend layer => exact absurd rfl (hd layer)

lemma containsProperty_declareAll (hflat : ∀ layer, .extend layer ∉ ds) :
    (t.declareAll ds).containsProperty name = true ↔
      t.containsProperty name = true ∨ ∃ d ∈ ds, name ∈ d.propertyNames := by
  induction ds generalizing t with
  | nil => simp [declareAll]
  | cons d ds ih =>
    have hd : ∀ layer, d ≠ .extend layer := fun layer h => hflat layer (h ▸ List.mem_cons_self)
    have hds : ∀ layer, .extend layer ∉ ds := fun layer h => hflat layer (List.mem_cons_of_mem d h)
    rw [declareAll, ih hds, containsProperty_declare hd, List.exists_mem_cons_iff, or_assoc]

/-- Only declarations of a method change its arity. -/
lemma arity?_declareAll (hflat : ∀ layer, .extend layer ∉ ds) (hds : ∀ a, .method name a ∉ ds) :
    (t.declareAll ds).arity? name = t.arity? name := by
  induction ds generalizing t with
  | nil => rfl
  | cons d ds ih =>
    simp only [List.mem_cons, not_or] at hflat hds
    rw [declareAll, ih (fun layer => (hflat layer).2) (fun a => (hds a).2)]
    cases d with
    | property added => rfl
    | properties names =>
      exact List.foldlRecOn (motive := fun u : Table => u.arity? name = t.arity? name) names
        property rfl fun _ hu _ _ => hu
    | method added a =>
      have hne : added ≠ name := by
        rintro rfl
        exact (hds a).1 rfl
      rw [declare, arity?_method, if_neg hne]
    | extend layer => exact absurd rfl (hflat layer).1

lemma arity?_ofDeclarations_of_last {before after : List Declaration} {a : Arity}
    (hflat : ∀ layer, .extend layer ∉ after) (hafter : ∀ b, .method name b ∉ after) :
    (ofDeclarations (before ++ .method name a :: after)).arity? name = some a := by
  rw [ofDeclarations, declareAll_append, declareAll, arity?_declareAll hflat hafter, declare,
    arity?_method, if_pos rfl]

/-! ### Counting -/

/-- A map has as many entries as keys. -/
lemma size_eq_card {β : Type} (m : Std.ExtHashMap String β) (keys : Finset String)
    (h : ∀ key, key ∈ keys ↔ key ∈ m) : m.size = keys.card := by
  induction keys using Finset.induction_on generalizing m with
  | empty =>
    have hm : m = ∅ := Std.ExtHashMap.eq_empty_iff_forall_not_mem.2 fun key hkey =>
      Finset.notMem_empty key ((h key).2 hkey)
    rw [hm, Std.ExtHashMap.size_empty, Finset.card_empty]
  | insert a keys ha ih =>
    have hmem : a ∈ m := (h a).1 (Finset.mem_insert_self a keys)
    have hrest : (m.erase a).size = keys.card := by
      apply ih
      intro key
      rw [Std.ExtHashMap.mem_erase, ← h, Finset.mem_insert]
      by_cases hkey : a = key
      · simp [← hkey, ha]
      · simp [hkey, Ne.symm hkey]
    have hpos : m.size ≠ 0 := by
      rw [ne_eq, ← Std.ExtHashMap.eq_empty_iff_size_eq_zero]
      rintro rfl
      exact Std.ExtHashMap.not_mem_empty hmem
    rw [Std.ExtHashMap.size_erase, if_pos hmem] at hrest
    rw [Finset.card_insert_of_notMem ha]
    omega

lemma propertyCount_eq_card (t : Table) (names : Finset String)
    (h : ∀ name, name ∈ names ↔ t.containsProperty name = true) : t.propertyCount = names.card :=
  size_eq_card t.properties.inner names h

lemma methodCount_eq_card (t : Table) (names : Finset String)
    (h : ∀ name, name ∈ names ↔ (t.arity? name).isSome = true) : t.methodCount = names.card :=
  size_eq_card t.methods names fun name => by
    rw [h, Std.ExtHashMap.mem_iff_isSome_getElem?, arity?]

/-! ### Programs -/

/-- What a table answers is what the declarations say, if they have no layers among them. -/
structure AnswersAs (t : Table) (ds : List Declaration) : Prop where
  /-- The properties are those that some declaration adds. -/
  hasProperty_iff : ∀ name, hasProperty t name = true ↔ ∃ d ∈ ds, name ∈ d.propertyNames
  /-- The arity of a method is the last one declared. -/
  arity?_eq_some_iff : ∀ name a, t.arity? name = some a ↔ ∃ before after,
    ds = before ++ .method name a :: after ∧ ∀ b, .method name b ∉ after
  /-- There is no arity without a declaration. -/
  arity?_eq_none_iff : ∀ name, t.arity? name = none ↔ ∀ a, .method name a ∉ ds
  /-- A method is known for the counts of arguments that its arity accepts. -/
  hasMethod_iff : ∀ name argCount, hasMethod t name argCount = true ↔
    ∃ a, t.arity? name = some a ∧ a.accepts argCount = true
  /-- A property counts once, however often it is declared. -/
  propertyCount_eq : t.propertyCount = (ds.flatMap propertyNames).toFinset.card
  /-- A method counts once, however often it is declared. -/
  methodCount_eq : t.methodCount = (ds.filterMap methodName?).toFinset.card

/-- The table of declarations without layers answers what they say. -/
theorem answersAs_ofDeclarations (hflat : ∀ layer, .extend layer ∉ ds) :
    AnswersAs (ofDeclarations ds) ds := by
  have hproperty : ∀ name, (ofDeclarations ds).containsProperty name = true ↔
      ∃ d ∈ ds, name ∈ d.propertyNames := by
    intro name
    rw [ofDeclarations, containsProperty_declareAll hflat, containsProperty_empty]
    simp
  have hnone : ∀ {name}, (∀ a, .method name a ∉ ds) → (ofDeclarations ds).arity? name = none := by
    intro name hds
    rw [ofDeclarations, arity?_declareAll hflat hds, arity?_empty]
  have hlast : ∀ {name a before after}, ds = before ++ .method name a :: after →
      (∀ b, .method name b ∉ after) → (ofDeclarations ds).arity? name = some a := by
    rintro name a before after rfl hafter
    exact arity?_ofDeclarations_of_last
      (fun layer h => hflat layer (List.mem_append_right _ (List.mem_cons_of_mem _ h))) hafter
  have hnone_iff : ∀ name, (ofDeclarations ds).arity? name = none ↔ ∀ a, .method name a ∉ ds := by
    intro name
    refine ⟨fun h => ?_, hnone⟩
    rcases exists_last_method name ds with hds | ⟨before, a, after, hds, hafter⟩
    · exact hds
    · exact absurd (h.symm.trans (hlast hds hafter)) (by simp)
  refine ⟨hproperty, ?_, hnone_iff, ?_, ?_, ?_⟩
  · intro name a
    refine ⟨fun h => ?_, fun ⟨before, after, hds, hafter⟩ => hlast hds hafter⟩
    rcases exists_last_method name ds with hds | ⟨before, b, after, hds, hafter⟩
    · exact absurd (h.symm.trans (hnone hds)) (by simp)
    · obtain rfl : a = b := Option.some.inj (h.symm.trans (hlast hds hafter))
      exact ⟨before, after, hds, hafter⟩
  · intro name argCount
    exact Option.any_eq_true _ _
  · apply propertyCount_eq_card
    intro name
    rw [List.mem_toFinset, List.mem_flatMap, hproperty]
  · apply methodCount_eq_card
    intro name
    rw [List.mem_toFinset, mem_filterMap_methodName?, Option.isSome_iff_ne_none, ne_eq, hnone_iff]
    simp

/-- A table built from declarations with layers among them, to any depth, is the one built from the
same declarations written out flat, and it answers as these say. So laying tables over each other
is associative, the empty table makes no difference on either side, and laying the same table on top
a second time makes none either. -/
theorem ofDeclarations_answersAs_flatten (ds : List Declaration) :
    (∀ layer, .extend layer ∉ flatten ds) ∧
    ofDeclarations ds = ofDeclarations (flatten ds) ∧
    AnswersAs (ofDeclarations ds) (flatten ds) ∧
    (∀ t u v : Table, (t.extend u).extend v = t.extend (u.extend v)) ∧
    (∀ t : Table, t.extend ∅ = t ∧ (∅ : Table).extend t = t) ∧
    ∀ t u : Table, (t.extend u).extend u = t.extend u := by
  have hflat := fun layer => extend_notMem_flatten layer ds
  have hequal : ofDeclarations ds = ofDeclarations (flatten ds) := (declareAll_flatten ∅ ds).symm
  refine ⟨hflat, hequal, ?_, extend_assoc, fun t => ⟨extend_empty t, empty_extend t⟩, ?_⟩
  · rw [hequal]
    exact answersAs_ofDeclarations hflat
  · intro t u
    rw [extend_assoc, extend_self]

end Table

end FormatExpr
