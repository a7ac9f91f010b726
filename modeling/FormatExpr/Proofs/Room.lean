import FormatExpr.Json.Streaming
import FormatExpr.Proofs.Traversal

/-!
# The room of the streaming library

The library that reads texts from left to right has room for a number of containers inside one
another. With less room a text is read with the same answer, or it is refused as if it were no JSON
(`Json.Library.readValue_within_of_le`, `Json.Library.readRecord_within_of_le`): neither another
value nor another error comes of it.
-/

namespace FormatExpr.Json

/-! ### Values -/

namespace Draft

mutual

/-- The value of a draft stays the same with more room. -/
theorem value?_of_le {room more : Nat} (hle : room ≤ more) {d : Draft} {v : Value}
    (h : d.value? room = some v) : d.value? more = some v :=
  match d, h with
  | null, h | boolean _, h | number _, h | string _, h | fault, h => h
  | list items, h => by
    cases room with
    | zero => cases h
    | succ inner =>
      obtain ⟨inner', rfl⟩ := Nat.exists_eq_add_of_le' (Nat.one_le_of_lt hle)
      obtain ⟨vs, hvs, rfl⟩ := Option.map_eq_some_iff.1 h
      exact Option.map_eq_some_iff.2 ⟨vs, values?_of_le (Nat.le_of_succ_le_succ hle) hvs, rfl⟩
  | map members, h => by
    cases room with
    | zero => cases h
    | succ inner =>
      obtain ⟨inner', rfl⟩ := Nat.exists_eq_add_of_le' (Nat.one_le_of_lt hle)
      obtain ⟨vs, hvs, rfl⟩ := Option.map_eq_some_iff.1 h
      exact Option.map_eq_some_iff.2 ⟨vs, memberValues?_of_le (Nat.le_of_succ_le_succ hle) hvs, rfl⟩

theorem values?_of_le {room more : Nat} (hle : room ≤ more) {ds : List Draft} {vs : List Value}
    (h : values? room ds = some vs) : values? more ds = some vs :=
  match ds, h with
  | [], h => h
  | d :: ds, h => by
    simp only [values?, Option.bind_eq_bind, Option.bind_eq_some_iff] at h ⊢
    obtain ⟨v, hv, vs, hvs, hcons⟩ := h
    exact ⟨v, value?_of_le hle hv, vs, values?_of_le hle hvs, hcons⟩

theorem memberValues?_of_le {room more : Nat} (hle : room ≤ more)
    {members : List (Option String × Draft)} {vs : List (String × Value)}
    (h : memberValues? room members = some vs) : memberValues? more members = some vs :=
  match members, h with
  | [], h => h
  | (_, d) :: members, h => by
    simp only [memberValues?, Option.bind_eq_bind, Option.bind_eq_some_iff] at h ⊢
    obtain ⟨key, hkey, v, hv, vs, hvs, hcons⟩ := h
    exact ⟨key, hkey, v, value?_of_le hle hv, vs, memberValues?_of_le hle hvs, hcons⟩

end

end Draft

/-! ### Answers -/

variable {ρ α β : Type} {R : Record}

/-- The first answer is the second one, or refuses the text. -/
inductive Limits (wide : Except (ReadError ρ) α) : Except (ReadError ρ) α → Prop where
  | same : Limits wide wide
  | refused : Limits wide (.error .notJson)

namespace Limits

variable {wide narrow : Except (ReadError ρ) α}

lemma bind {f g : α → Except (ReadError ρ) β} (h : Limits wide narrow)
    (hfg : ∀ a, Limits (f a) (g a)) : Limits (wide >>= f) (narrow >>= g) := by
  cases h with
  | refused => exact .refused
  | same =>
    cases wide with
    | error e => exact .same
    | ok a => exact hfg a

lemma map (h : Limits wide narrow) (f : α → β) : Limits (wide.map f) (narrow.map f) := by
  cases h with
  | same => exact .same
  | refused => exact .refused

lemma mapM {f g : α → Except (ReadError ρ) β} (h : ∀ x, Limits (f x) (g x)) (l : List α) :
    Limits (l.mapM f) (l.mapM g) := by
  induction l with
  | nil => exact .same
  | cons x l ih =>
    rw [List.mapM_cons, List.mapM_cons]
    exact (h x).bind fun y => ih.bind fun _ => .same

lemma foldlM {f g : β → α → Except (ReadError ρ) β} (h : ∀ b x, Limits (f b x) (g b x))
    (l : List α) (b : β) : Limits (l.foldlM f b) (l.foldlM g b) := by
  induction l generalizing b with
  | nil => exact .same
  | cons x l ih =>
    rw [List.foldlM_cons, List.foldlM_cons]
    exact (h b x).bind ih

end Limits

/-! ### Readers -/

variable {room more : Nat}

lemma Draft.attempt_of_le (hle : room ≤ more) (trial : Value → Option α) (d : Draft) :
    Limits (d.attempt more trial : Except (ReadError ρ) α) (d.attempt room trial) := by
  rw [attempt, attempt]
  cases h : d.value? room with
  | none => exact .refused
  | some v =>
    rw [value?_of_le hle h]
    exact .same

lemma Reader.ofDraft_of_le (hle : room ≤ more) (reader : Reader α) (d : Draft) :
    Limits (reader.ofDraft more d : Except (ReadError ρ) α) (reader.ofDraft room d) := by
  cases reader with
  | string =>
    cases d with
    | string s => cases s <;> exact .same
    | _ => exact .same
  | boolean => cases d <;> exact .same
  | list trial =>
    cases d with
    | list items =>
      cases room with
      | zero => exact .refused
      | succ inner =>
        obtain ⟨inner', rfl⟩ := Nat.exists_eq_add_of_le' (Nat.one_le_of_lt hle)
        exact .mapM (Draft.attempt_of_le (Nat.le_of_succ_le_succ hle) trial) items
    | _ => exact .same

namespace Record

lemma Seen.readMember_of_le (hle : room ≤ more) (seen : R.Seen) (m : Option String × Draft) :
    Limits (seen.readMember more m : Except (ReadError ρ) R.Seen) (seen.readMember room m) := by
  obtain ⟨name | name, d⟩ := m
  · exact .same
  · rw [readMember, readMember]
    cases R.key? name with
    | none => exact .same
    | some k =>
      dsimp only
      split_ifs
      · exact .same
      · exact ((R.reader k).ofDraft_of_le hle d).map _

lemma Seen.readItems_of_le (hle : room ≤ more) (ks : List R.Key) (seen : R.Seen)
    (ds : List Draft) :
    Limits (readItems more ks seen ds : Except (ReadError ρ) R.Seen)
      (readItems room ks seen ds) := by
  induction ds generalizing ks seen with
  | nil => cases ks <;> exact .same
  | cons d ds ih =>
    cases ks with
    | nil => exact .same
    | cons k ks => exact ((R.reader k).ofDraft_of_le hle d).bind fun part => ih ks _

lemma ofDraft_of_le (hle : room ≤ more) (R : Record) (d : Draft) :
    Limits (R.ofDraft more d : Except (ReadError ρ) R.Filled) (R.ofDraft room d) := by
  cases d with
  | map members =>
    cases room with
    | zero => exact .refused
    | succ inner =>
      obtain ⟨inner', rfl⟩ := Nat.exists_eq_add_of_le' (Nat.one_le_of_lt hle)
      exact (Limits.foldlM (Seen.readMember_of_le (Nat.le_of_succ_le_succ hle)) members _).bind
        fun _ => .same
  | list items =>
    cases room with
    | zero => exact .refused
    | succ inner =>
      obtain ⟨inner', rfl⟩ := Nat.exists_eq_add_of_le' (Nat.one_le_of_lt hle)
      exact (Seen.readItems_of_le (Nat.le_of_succ_le_succ hle) R.keys .start items).bind
        fun _ => .same
  | _ => exact .same

end Record

/-! ### Texts -/

lemma readText_limits {f g : Draft → Except (ReadError ρ) α} (h : ∀ d, Limits (f d) (g d))
    (text : String) : Limits (readText f text) (readText g text) :=
  (h _).bind fun _ => .same

namespace Library

/-- With less room a value is read with the same answer, or the text is refused as no JSON. -/
theorem readValue_within_of_le (hle : room ≤ more) (trial : Value → Option α) (text : String) :
    Limits ((within more).readValue trial text : Except (ReadError ρ) α)
      ((within room).readValue trial text) :=
  readText_limits (Draft.attempt_of_le hle trial) text

/-- With less room a record is read with the same answer, or the text is refused as no JSON. -/
theorem readRecord_within_of_le (hle : room ≤ more) (convert : R.Filled → Except ρ α)
    (text : String) :
    Limits ((within more).readRecord R convert text) ((within room).readRecord R convert text) :=
  readText_limits (fun d => (R.ofDraft_of_le hle d).bind fun _ => .same) text

end Library

end FormatExpr.Json
