import FormatExpr.Json.Library
import FormatExpr.Proofs.JsonLayout
import FormatExpr.Proofs.Traversal

/-!
# Laws of JSON libraries

A JSON tree denotes a value: each string by its spellings, each number by what its numeral means
(`Json.Tree.Denotes`). What a library makes of numerals, for which depth it has room, and in which
steps it reads a record is an account of the library (`Json.Account`). The laws say what holds of a
library and such an account of it (`Json.Library.Lawful`). Nothing else is assumed of the library
where literals and formats are stored.
-/

namespace FormatExpr.Json

/-! ### Values of trees -/

namespace Tree

/-- The value is what the tree says, with numerals that mean what they mean by the relation. -/
inductive Denotes (Means : Numeral → Number → Prop) : Tree → Value → Prop where
  | null : Denotes Means null .null
  | boolean (b : Bool) : Denotes Means (boolean b) (.boolean b)
  | number {n : Numeral} {m : Number} (h : Means n m) : Denotes Means (number n) (.number m)
  | string {spellings : List Token.Spelling} {s : String}
      (h : Token.join spellings = some s.toList) : Denotes Means (string spellings) (.string s)
  | list {items : List Tree} {vs : List Value} (h : List.Forall₂ (Denotes Means) items vs) :
      Denotes Means (list items) (.list vs)
  | map {members : List (List Token.Spelling × Tree)} {vs : List (String × Value)}
      (hkeys : List.Forall₂ (fun m v => Token.join m.1 = some v.1.toList) members vs)
      (h : List.Forall₂ (fun m v => Denotes Means m.2 v.2) members vs) :
      Denotes Means (map members) (.map vs)

/-- The member has the given key. -/
def IsFor (m : List Token.Spelling × Tree) (key : String) : Prop :=
  Token.join m.1 = some key.toList

lemma IsFor.unique {m : List Token.Spelling × Tree} {key key' : String} (h : IsFor m key)
    (h' : IsFor m key') : key = key' := by
  rw [IsFor] at h h'
  exact String.toList_inj.1 (Option.some.inj (h.symm.trans h'))

end Tree

/-! ### Depth -/

namespace Tree

mutual

/-- How many lists and maps stand inside one another in the tree. -/
def depth : Tree → Nat
  | list items => itemsDepth items + 1
  | map members => membersDepth members + 1
  | _ => 0

/-- How many lists and maps stand inside one another in any of the trees. -/
def itemsDepth : List Tree → Nat
  | [] => 0
  | x :: xs => max x.depth (itemsDepth xs)

/-- How many lists and maps stand inside one another in any of the members. -/
def membersDepth : List (List Token.Spelling × Tree) → Nat
  | [] => 0
  | (_, x) :: members => max x.depth (membersDepth members)

end

lemma depth_le_itemsDepth {x : Tree} {items : List Tree} (h : x ∈ items) :
    x.depth ≤ itemsDepth items := by
  induction items with
  | nil => cases h
  | cons y items ih =>
    rw [itemsDepth]
    rcases List.mem_cons.1 h with rfl | h
    · exact le_max_left _ _
    · exact (ih h).trans (le_max_right _ _)

lemma depth_le_membersDepth {m : List Token.Spelling × Tree}
    {members : List (List Token.Spelling × Tree)} (h : m ∈ members) :
    m.2.depth ≤ membersDepth members := by
  induction members with
  | nil => cases h
  | cons w members ih =>
    rw [membersDepth]
    rcases List.mem_cons.1 h with rfl | h
    · exact le_max_left _ _
    · exact (ih h).trans (le_max_right _ _)

end Tree

namespace Value

/-- To show something of every value it is enough to show it of lists and maps when it holds of
their parts, and of everything else. -/
@[elab_as_elim, induction_eliminator]
theorem ind {motive : Value → Prop} (null : motive null) (boolean : ∀ b, motive (boolean b))
    (number : ∀ n, motive (number n)) (string : ∀ s, motive (string s))
    (list : ∀ items, (∀ v ∈ items, motive v) → motive (list items))
    (map : ∀ members, (∀ m ∈ members, motive m.2) → motive (map members)) (v : Value) :
    motive v :=
  match v with
  | .null => null
  | .boolean b => boolean b
  | .number n => number n
  | .string s => string s
  | .list items => list items fun v _ => ind null boolean number string list map v
  | .map members => map members fun m _ => ind null boolean number string list map m.2
decreasing_by
  · have := List.sizeOf_lt_of_mem ‹_ ∈ items›
    simp only [Value.list.sizeOf_spec]
    omega
  · have := List.sizeOf_lt_of_mem ‹_ ∈ members›
    cases m
    simp only [Value.map.sizeOf_spec, Prod.mk.sizeOf_spec] at this ⊢
    omega

mutual

/-- How many lists and maps stand inside one another in the value. -/
def depth : Value → Nat
  | list items => itemsDepth items + 1
  | map members => membersDepth members + 1
  | _ => 0

/-- How many lists and maps stand inside one another in any of the values. -/
def itemsDepth : List Value → Nat
  | [] => 0
  | v :: vs => max v.depth (itemsDepth vs)

/-- How many lists and maps stand inside one another in any of the members. -/
def membersDepth : List (String × Value) → Nat
  | [] => 0
  | (_, v) :: members => max v.depth (membersDepth members)

end

lemma itemsDepth_writtenItems {vs : List Value} (h : ∀ v ∈ vs, v.written.depth = v.depth) :
    itemsDepth (writtenItems vs) = itemsDepth vs := by
  induction vs with
  | nil => rfl
  | cons v vs ih =>
    obtain ⟨hv, hvs⟩ := List.forall_mem_cons.1 h
    rw [writtenItems, itemsDepth, itemsDepth, hv, ih hvs]

lemma membersDepth_writtenMembers {members : List (String × Value)}
    (h : ∀ m ∈ members, m.2.written.depth = m.2.depth) :
    membersDepth (writtenMembers members) = membersDepth members := by
  induction members with
  | nil => rfl
  | cons m members ih =>
    obtain ⟨hm, hmembers⟩ := List.forall_mem_cons.1 h
    rw [writtenMembers, membersDepth, membersDepth, hm, ih hmembers]

/-- What is left of a value has the same depth. -/
lemma depth_written (v : Value) : v.written.depth = v.depth := by
  induction v with
  | number n =>
    cases n with
    | integer i => rfl
    | float x =>
      rw [written]
      split_ifs <;> rfl
  | list items ih => rw [written, depth, depth, itemsDepth_writtenItems ih]
  | map members ih => rw [written, depth, depth, membersDepth_writtenMembers ih]
  | _ => rfl

end Value

namespace Tree

variable {Means Means' : Numeral → Number → Prop}

lemma Denotes.imp (himp : ∀ n m, Means n m → Means' n m) {x : Tree} {v : Value}
    (h : x.Denotes Means v) : x.Denotes Means' v := by
  induction x generalizing v with
  | null =>
    cases h
    exact .null
  | boolean b =>
    cases h
    exact .boolean b
  | number n =>
    cases h with
    | number h => exact .number (himp _ _ h)
  | string spellings =>
    cases h with
    | string h => exact .string h
  | list items ih =>
    cases h with
    | list h => exact .list (forall₂_imp_of_mem h fun x hx v => ih x hx)
  | map members ih =>
    cases h with
    | map hkeys h => exact .map hkeys (forall₂_imp_of_mem h fun m hm v => ih m hm)

lemma itemsDepth_eq {items : List Tree} {vs : List Value}
    (h : List.Forall₂ (fun x v => x.depth = v.depth) items vs) :
    itemsDepth items = Value.itemsDepth vs := by
  induction h with
  | nil => rfl
  | cons hx _ ih => rw [itemsDepth, Value.itemsDepth, hx, ih]

lemma membersDepth_eq {members : List (List Token.Spelling × Tree)} {vs : List (String × Value)}
    (h : List.Forall₂ (fun m v => m.2.depth = v.2.depth) members vs) :
    membersDepth members = Value.membersDepth vs := by
  induction h with
  | nil => rfl
  | cons hm _ ih => rw [membersDepth, Value.membersDepth, hm, ih]

/-- A tree has the depth of the value that it denotes. -/
lemma Denotes.depth_eq {x : Tree} {v : Value} (h : x.Denotes Means v) : x.depth = v.depth := by
  induction x generalizing v with
  | list items ih =>
    cases h with
    | list h =>
      have hitems := forall₂_imp_of_mem h fun x hx v => ih x hx
      rw [depth, Value.depth, itemsDepth_eq hitems]
  | map members ih =>
    cases h with
    | map _ h =>
      have hmembers := forall₂_imp_of_mem h fun m hm v => ih m hm
      rw [depth, Value.depth, membersDepth_eq hmembers]
  | _ =>
    cases h
    rfl

end Tree

/-! ### Laws -/

/-- How a library reads texts. Records are read in steps, which depend on the declaration of the
record only. -/
structure Account where
  /-- A numeral is read as the number. -/
  Offers : Numeral → Number → Prop
  /-- There is room for so many lists and maps inside one another. -/
  HasRoom : Nat → Prop
  /-- Read a part of a record. -/
  part : {ρ α : Type} → Reader α → Tree → Except (ReadError ρ) α
  /-- Read a member of a map, after others have been read. -/
  member : {ρ : Type} → {R : Record} → R.Seen → List Token.Spelling × Tree →
    Except (ReadError ρ) R.Seen
  /-- Make up a record when nothing is left to be read. -/
  finish : {ρ : Type} → {R : Record} → R.Seen → Except (ReadError ρ) R.Filled

/-- The laws of a library, by an account of it. -/
structure Library.Lawful (L : Library) (A : Account) : Prop where
  /-- Where there is room for lists and maps, there is room for fewer of them. -/
  hasRoom_of_le {m n : Nat} (hle : m ≤ n) (h : A.HasRoom n) : A.HasRoom m
  /-- A numeral is read as the integer that it is, or else as a number nearest to it, unless it is
  too large for a finite number. -/
  number {n : Numeral} (hdigits : ∀ c ∈ n.allDigits, c.isDigit = true)
    (h : n.num < (2 ^ 1024 - 2 ^ 970) * n.den) : ∃ m, A.Offers n m ∧ n.Denotes m
  /-- What was written is read back as it was, but infinite numbers are written as null. -/
  write (v : Value) : ∃ x : Tree, x.WrittenAs (L.write v) ∧ x.Denotes A.Offers v.written
  /-- The value of a text is tried. -/
  value {ρ α : Type} {x : Tree} {text : String} {v : Value} (trial : Value → Option α)
    (htext : x.WrittenAs text) (hv : x.Denotes A.Offers v) (hroom : A.HasRoom x.depth) :
    L.readValue trial text = (ReadError.orWrongShape (trial v) : Except (ReadError ρ) α)
  /-- A record is made up by its conversion, and by nothing else. -/
  source {ρ α : Type} {R : Record} {convert : R.Filled → Except ρ α} {text : String} {a : α}
    (h : L.readRecord R convert text = .ok a) : ∃ parts, convert parts = .ok a
  /-- A map is read member by member, in the order in which they are written. -/
  map {ρ α : Type} {R : Record} {members : List (List Token.Spelling × Tree)} {text : String}
    (convert : R.Filled → Except ρ α) (htext : (Tree.map members).WrittenAs text)
    (hroom : A.HasRoom 1) :
    L.readRecord R convert text = members.foldlM A.member .start >>= fun seen =>
      A.finish seen >>= fun parts => (convert parts).mapError .rejected
  /-- A list is read item by item, as the parts in the order in which they are declared. -/
  list {ρ α : Type} {R : Record} {items : List Tree} {text : String}
    (convert : R.Filled → Except ρ α) (htext : (Tree.list items).WrittenAs text)
    (hroom : A.HasRoom 1) (hlength : items.length ≤ R.keys.length) :
    L.readRecord R convert text = (R.keys.zip items).foldlM
        (fun seen p => (A.part (R.reader p.1) p.2).map (Record.Seen.put seen p.1)) .start >>=
      fun seen => A.finish seen >>= fun parts => (convert parts).mapError .rejected
  /-- A part is read from a value of its kind, and no other value is taken for it. -/
  part {ρ α : Type} {x : Tree} {v : Value} (reader : Reader α) (hv : x.Denotes A.Offers v)
    (hroom : A.HasRoom (x.depth + 1)) :
    A.part reader x = (ReadError.orWrongShape (reader.ofValue? v) : Except (ReadError ρ) α)
  /-- A member with an unknown key is passed over, whatever its value. -/
  member_unknown {ρ : Type} {R : Record} {m : List Token.Spelling × Tree} {key : String}
    (seen : R.Seen) (hkey : Tree.IsFor m key) (hunknown : ∀ k, R.name k ≠ key) :
    A.member seen m = (.ok seen : Except (ReadError ρ) R.Seen)
  /-- A member with a new known key is read as the part of the key. -/
  member_new {ρ : Type} {R : Record} {seen : R.Seen} {m : List Token.Spelling × Tree} {k : R.Key}
    (hkey : Tree.IsFor m (R.name k)) (hnew : seen k = none) :
    A.member seen m
      = ((A.part (R.reader k) m.2).map (seen.put k) : Except (ReadError ρ) R.Seen)
  /-- A known key must not come back. -/
  member_again {ρ : Type} {R : Record} {seen : R.Seen} {m : List Token.Spelling × Tree}
    {k : R.Key} (hkey : Tree.IsFor m (R.name k)) (hseen : (seen k).isSome = true) :
    A.member seen m = (.error .wrongShape : Except (ReadError ρ) R.Seen)
  /-- Where no part has been read, the one that stands in for it makes up the record. -/
  finish {ρ : Type} {R : Record} {seen : R.Seen} {parts : R.Filled}
    (h : ∀ k, seen k = some (parts k) ∨ seen k = none ∧ R.fallback k = some (parts k)) :
    A.finish seen = (.ok parts : Except (ReadError ρ) R.Filled)

end FormatExpr.Json
