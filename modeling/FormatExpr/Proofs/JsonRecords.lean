import FormatExpr.Proofs.JsonLibrary
import Mathlib.Data.List.Perm.Basic

/-!
# Reading records

What a lawful library reads as a record, of whatever declaration. A map holds a record if each part
is the value of one member or stands in where there is none; the members may come in any order and
with unknown ones between them (`Json.Library.Lawful.readRecord_of_members`). A list holds a record
if its items are the parts in the order of the declaration, where those at the end may be missing
(`Json.Library.Lawful.readRecord_of_items`). A map in which a known key comes back holds none
(`Json.Library.Lawful.readRecord_of_repeats`), nor does one in which a part is of the wrong kind.

All of this is shown by induction over steps. A step adds one part to those that have been read and
leaves the others as they are, or it leaves all of them (`Json.Record.Seen.Gains`).
-/

namespace FormatExpr.Json

open FormatExpr.Json.Tree

variable {ρ α β : Type} {L : Library} {A : Account} {R : Record} {parts : R.Filled}
  {seen seen' : R.Seen} {m : List Token.Spelling × Tree}
  {members : List (List Token.Spelling × Tree)} {text : String}

/-! ### Members and items -/

/-- No part of the record has the key of the member. -/
def Record.Ignores (R : Record) (m : List Token.Spelling × Tree) : Prop :=
  ∃ key, IsFor m key ∧ ∀ k, R.name k ≠ key

/-- No part of the record has the keys of both members. -/
def Record.Apart (R : Record) (m m' : List Token.Spelling × Tree) : Prop :=
  ∀ k, IsFor m (R.name k) → ¬IsFor m' (R.name k)

lemma Record.apart_comm {m' : List Token.Spelling × Tree} : R.Apart m m' ↔ R.Apart m' m :=
  forall_congr' fun _ => imp_not_comm

lemma Record.apart_of_ignores {m' : List Token.Spelling × Tree} (h : R.Ignores m') :
    R.Apart m m' := by
  obtain ⟨key, hkey, hunknown⟩ := h
  intro k _ hk
  exact hunknown k (hk.unique hkey)

namespace Account

/-- The value of the tree is read as the part with the key, and there is room for it. -/
inductive Holds (A : Account) (parts : R.Filled) (k : R.Key) (x : Tree) : Prop where
  | mk {v : Value} (hv : x.Denotes A.Offers v) (hroom : A.HasRoom (x.depth + 1))
      (hread : (R.reader k).ofValue? v = some (parts k)) : Holds A parts k x

/-- The member has the key, and its value is read as the part with the key. -/
structure MemberHolds (A : Account) (parts : R.Filled) (k : R.Key)
    (m : List Token.Spelling × Tree) : Prop where
  key : IsFor m (R.name k)
  value : A.Holds parts k m.2

/-- The member has a value that there is room for, or it is passed over. -/
inductive Legible (A : Account) (R : Record) (m : List Token.Spelling × Tree) : Prop where
  | valued {key : String} {v : Value} (hkey : IsFor m key) (hv : m.2.Denotes A.Offers v)
      (hroom : A.HasRoom (m.2.depth + 1)) : Legible A R m
  | unknown (h : R.Ignores m) : Legible A R m

/-- The key of a part comes back, and everything up to there is legible. -/
inductive Repeats (A : Account) (R : Record) : List (List Token.Spelling × Tree) → Prop where
  | mk {before after : List (List Token.Spelling × Tree)} {m m' : List Token.Spelling × Tree}
      {k : R.Key} (hm : m ∈ before) (hfirst : IsFor m (R.name k)) (hagain : IsFor m' (R.name k))
      (hbefore : ∀ w ∈ before, A.Legible R w) : Repeats A R (before ++ m' :: after)

/-- Members that hold different parts are apart. -/
lemma pairwise_apart {ks : List R.Key} {held : List (List Token.Spelling × Tree)}
    (hks : ks.Nodup) (hheld : List.Forall₂ (A.MemberHolds parts) ks held) :
    held.Pairwise R.Apart := by
  induction hheld with
  | nil => exact .nil
  | @cons k m ks held hm hheld ih =>
    obtain ⟨hk, hks⟩ := List.nodup_cons.1 hks
    refine List.pairwise_cons.2 ⟨fun m' hm' l hl hl' => ?_, ih hks⟩
    obtain ⟨k', hmem, hk'⟩ := exists_of_mem_right hheld hm'
    obtain rfl := R.name_injective (hl.unique hm.key)
    obtain rfl := R.name_injective (hl'.unique hk'.key)
    exact hk hmem

end Account

/-! ### Steps that read parts -/

namespace Record.Seen

/-- The given parts have been read in addition, and no others. -/
def Gains (seen seen' : R.Seen) (parts : R.Filled) (given : R.Key → Prop) : Prop :=
  ∀ k, (given k → seen' k = some (parts k)) ∧ (¬given k → seen' k = seen k)

lemma gains_put (seen : R.Seen) (parts : R.Filled) (k : R.Key) :
    seen.Gains (seen.put k (parts k)) parts fun k' => k = k' := by
  intro k'
  constructor
  · rintro rfl
    exact seen.put_self k (parts k)
  · intro hne
    exact seen.put_of_ne (Ne.symm hne) (parts k)

lemma gains_refl (seen : R.Seen) {parts : R.Filled} {given : R.Key → Prop} (h : ∀ k, ¬given k) :
    seen.Gains seen parts given :=
  fun k => ⟨fun hk => absurd hk (h k), fun _ => rfl⟩

lemma Gains.imp {given given' : R.Key → Prop} (h : seen.Gains seen' parts given)
    (himp : ∀ k, given' k ↔ given k) : seen.Gains seen' parts given' := by
  intro k
  rw [himp]
  exact h k

/-- If each step reads the parts that it is for, and no two steps are for the same part, then a run
of steps reads all the parts that they are for. -/
theorem foldlM_gains {step : R.Seen → β → Except (ReadError ρ) R.Seen} {IsOf : β → R.Key → Prop}
    {l : List β} (hstep : ∀ seen : R.Seen, ∀ b ∈ l, (∀ k, IsOf b k → seen k = none) →
      ∃ seen', step seen b = .ok seen' ∧ seen.Gains seen' parts (IsOf b))
    (hapart : l.Pairwise fun b c => ∀ k, IsOf b k → ¬IsOf c k)
    (hnew : ∀ b ∈ l, ∀ k, IsOf b k → seen k = none) :
    ∃ seen', l.foldlM step seen = .ok seen' ∧
      seen.Gains seen' parts fun k => ∃ b ∈ l, IsOf b k := by
  induction l generalizing seen with
  | nil => exact ⟨seen, rfl, gains_refl seen fun k => by simp⟩
  | cons b l ih =>
    obtain ⟨hb, hl⟩ := List.forall_mem_cons.1 hnew
    obtain ⟨hfirst, hlater⟩ := List.pairwise_cons.1 hapart
    obtain ⟨seen₁, hread, hgains⟩ := hstep seen b List.mem_cons_self hb
    have hnew₁ : ∀ c ∈ l, ∀ k, IsOf c k → seen₁ k = none := by
      intro c hc k hk
      rw [(hgains k).2 fun hbk => hfirst c hc k hbk hk]
      exact hl c hc k hk
    obtain ⟨seen', hrest, hgains'⟩ :=
      ih (fun seen c hc => hstep seen c (List.mem_cons_of_mem b hc)) hlater hnew₁
    refine ⟨seen', by rw [List.foldlM_cons, hread]; exact hrest, fun k => ?_⟩
    simp only [List.exists_mem_cons_iff]
    by_cases hk : ∃ c ∈ l, IsOf c k
    · exact ⟨fun _ => (hgains' k).1 hk, fun hnot => absurd (.inr hk) hnot⟩
    · rw [(hgains' k).2 hk, or_iff_left hk]
      exact hgains k

end Record.Seen

namespace Library.Lawful

open Record

lemma part_of_holds (laws : L.Lawful A) {k : R.Key} {x : Tree} (h : A.Holds parts k x) :
    A.part (R.reader k) x = (.ok (parts k) : Except (ReadError ρ) (R.Part k)) := by
  obtain ⟨hv, hroom, hread⟩ := h
  rw [laws.part _ hv hroom, hread, ReadError.orWrongShape]

/-- A member that holds a part is read as this part, and one with an unknown key is passed over. -/
lemma member_gains (laws : L.Lawful A) (hm : (∃ k, A.MemberHolds parts k m) ∨ R.Ignores m)
    (hnew : ∀ k, IsFor m (R.name k) → seen k = none) :
    ∃ seen', A.member seen m = (.ok seen' : Except (ReadError ρ) R.Seen) ∧
      seen.Gains seen' parts fun k => IsFor m (R.name k) := by
  rcases hm with ⟨k, hkey, h⟩ | ⟨key, hkey, hunknown⟩
  · refine ⟨seen.put k (parts k), ?_, (seen.gains_put parts k).imp fun k' => ?_⟩
    · rw [laws.member_new hkey (hnew k hkey), laws.part_of_holds h]
      rfl
    · constructor
      · intro hkey'
        exact R.name_injective (hkey.unique hkey')
      · rintro rfl
        exact hkey
  · exact ⟨seen, laws.member_unknown seen hkey hunknown,
      seen.gains_refl fun k hk => hunknown k (hk.unique hkey)⟩

/-- A record is made up of the parts that have been read and of those that stand in for others. -/
lemma finish_of_gains (laws : L.Lawful A) {given : R.Key → Prop}
    (h : Seen.start.Gains seen parts given)
    (hrest : ∀ k, given k ∨ R.fallback k = some (parts k)) :
    A.finish seen = (.ok parts : Except (ReadError ρ) R.Filled) := by
  refine laws.finish fun k => ?_
  by_cases hk : given k
  · exact .inl ((h k).1 hk)
  · exact .inr ⟨(h k).2 hk, (hrest k).resolve_left hk⟩

lemma convert_of_gains (laws : L.Lawful A) (convert : R.Filled → Except ρ α)
    {given : R.Key → Prop} (h : Seen.start.Gains seen parts given)
    (hrest : ∀ k, given k ∨ R.fallback k = some (parts k)) :
    (A.finish seen >>= fun parts => (convert parts).mapError .rejected)
      = (convert parts).mapError ReadError.rejected := by
  rw [laws.finish_of_gains h hrest]
  rfl

/-! ### Maps and lists -/

/-- A record is read from a map in which members hold its parts, whatever the order of the members
and whatever unknown ones there are. -/
theorem readRecord_of_members (laws : L.Lawful A) (convert : R.Filled → Except ρ α)
    {ks : List R.Key} {held others : List (List Token.Spelling × Tree)}
    (hperm : members.Perm (held ++ others)) (htext : (Tree.map members).WrittenAs text)
    (hroom : A.HasRoom 1) (hks : ks.Nodup) (hheld : List.Forall₂ (A.MemberHolds parts) ks held)
    (hothers : ∀ m ∈ others, R.Ignores m)
    (hrest : ∀ k, k ∈ ks ∨ R.fallback k = some (parts k)) :
    L.readRecord R convert text = (convert parts).mapError .rejected := by
  have hmembers : ∀ m ∈ members, (∃ k, A.MemberHolds parts k m) ∨ R.Ignores m := by
    intro m hm
    refine (List.mem_append.1 (hperm.mem_iff.1 hm)).imp (fun hm => ?_) (hothers m)
    obtain ⟨k, -, hk⟩ := exists_of_mem_right hheld hm
    exact ⟨k, hk⟩
  have hapart : members.Pairwise R.Apart := by
    rw [hperm.pairwise_iff fun h => apart_comm.1 h, List.pairwise_append]
    exact ⟨Account.pairwise_apart hks hheld,
      List.pairwise_of_forall_mem_list fun _ _ m hm => apart_of_ignores (hothers m hm),
      fun _ _ m hm => apart_of_ignores (hothers m hm)⟩
  have hstep : ∀ seen : R.Seen, ∀ m ∈ members, (∀ k, IsFor m (R.name k) → seen k = none) →
      ∃ seen', A.member seen m = (.ok seen' : Except (ReadError ρ) R.Seen) ∧
        seen.Gains seen' parts fun k => IsFor m (R.name k) :=
    fun _ m hm hnew => laws.member_gains (hmembers m hm) hnew
  have hnew : ∀ m ∈ members, ∀ k, IsFor m (R.name k) → (Seen.start : R.Seen) k = none :=
    fun _ _ _ _ => rfl
  have hgiven : ∀ k, (∃ m ∈ members, IsFor m (R.name k)) ∨ R.fallback k = some (parts k) := by
    intro k
    refine (hrest k).imp_left fun hk => ?_
    obtain ⟨m, hm, hkey⟩ := exists_of_mem_right hheld.flip hk
    exact ⟨m, hperm.mem_iff.2 (List.mem_append_left _ hm), hkey.key⟩
  obtain ⟨seen, hread, hgains⟩ := Seen.foldlM_gains hstep hapart hnew
  rw [laws.map convert htext hroom, hread]
  exact laws.convert_of_gains convert hgains hgiven

/-- A record is read from a list whose items hold the first of its parts. -/
theorem readRecord_of_items (laws : L.Lawful A) (convert : R.Filled → Except ρ α)
    {ks rest : List R.Key} {items : List Tree} (hkeys : R.keys = ks ++ rest)
    (htext : (Tree.list items).WrittenAs text) (hroom : A.HasRoom 1)
    (hitems : List.Forall₂ (A.Holds parts) ks items)
    (hrest : ∀ k ∈ rest, R.fallback k = some (parts k)) :
    L.readRecord R convert text = (convert parts).mapError .rejected := by
  obtain ⟨hlength, hholds⟩ := List.forall₂_iff_zip.1 hitems
  have hfst : (ks.zip items).map Prod.fst = ks := List.map_fst_zip hlength.le
  have hstep : ∀ seen : R.Seen, ∀ p ∈ ks.zip items, (∀ k, p.1 = k → seen k = none) →
      ∃ seen', ((A.part (R.reader p.1) p.2).map (seen.put p.1) : Except (ReadError ρ) R.Seen)
          = .ok seen' ∧ seen.Gains seen' parts fun k => p.1 = k := by
    intro seen p hp _
    rw [laws.part_of_holds (hholds hp)]
    exact ⟨_, rfl, seen.gains_put parts p.1⟩
  have hapart : (ks.zip items).Pairwise fun p q => ∀ k, p.1 = k → ¬q.1 = k := by
    have hnodup : ks.Nodup := (List.nodup_append.1 (hkeys ▸ R.nodup)).1
    rw [← hfst, List.Nodup, List.pairwise_map] at hnodup
    refine hnodup.imp fun hne => ?_
    rintro k rfl heq
    exact hne heq.symm
  have hnew : ∀ p ∈ ks.zip items, ∀ k, p.1 = k → (Seen.start : R.Seen) k = none :=
    fun _ _ _ _ => rfl
  have hgiven : ∀ k, (∃ p ∈ ks.zip items, p.1 = k) ∨ R.fallback k = some (parts k) := by
    intro k
    have hk := R.complete k
    rw [hkeys, List.mem_append] at hk
    refine hk.imp (fun hk => ?_) (hrest k)
    rwa [← hfst, List.mem_map] at hk
  obtain ⟨seen, hread, hgains⟩ := Seen.foldlM_gains hstep hapart hnew
  have hzip : R.keys.zip items = ks.zip items := by
    have happend := @List.zip_append _ _ ks rest items [] hlength
    rwa [← hkeys, List.append_nil, List.zip_nil_right, List.append_nil] at happend
  have hle : items.length ≤ R.keys.length := by
    rw [hkeys, List.length_append, hlength]
    exact Nat.le_add_right _ _
  rw [laws.list convert htext hroom hle, hzip, hread]
  exact laws.convert_of_gains convert hgains hgiven

/-! ### Maps that hold no record -/

/-- Reading comes to an end because of a wrong kind, or it arrives at parts with the given
property. -/
inductive Reaches (P : R.Seen → Prop) : Except (ReadError ρ) R.Seen → Prop where
  | wrongShape : Reaches P (.error .wrongShape)
  | ok {seen : R.Seen} (h : P seen) : Reaches P (.ok seen)

/-- A legible member is read, or is of the wrong kind. A part that has been read before, or that the
member is for, has been read afterwards. -/
lemma member_reaches (laws : L.Lawful A) (hm : A.Legible R m) (seen : R.Seen) (k : R.Key) :
    Reaches (fun seen' : R.Seen => (seen k).isSome = true ∨ IsFor m (R.name k) →
      (seen' k).isSome = true) (A.member seen m : Except (ReadError ρ) R.Seen) := by
  cases hm with
  | unknown h =>
    obtain ⟨key, hkey, hunknown⟩ := h
    rw [laws.member_unknown seen hkey hunknown]
    exact .ok fun h => h.resolve_right fun hk => hunknown k (hk.unique hkey)
  | @valued key v hkey hv hroom =>
    by_cases hknown : ∃ k', R.name k' = key
    · obtain ⟨k', rfl⟩ := hknown
      cases hseen : seen k' with
      | some part =>
        rw [laws.member_again hkey (by rw [hseen]; rfl)]
        exact .wrongShape
      | none =>
        rw [laws.member_new hkey hseen, laws.part _ hv hroom]
        cases (R.reader k').ofValue? v with
        | none => exact .wrongShape
        | some part =>
          refine .ok fun h => ?_
          by_cases hk : k = k'
          · subst hk
            rw [seen.put_self, Option.isSome_some]
          · rw [seen.put_of_ne hk]
            exact h.resolve_right fun hk' => hk (R.name_injective (hk'.unique hkey))
    · rw [laws.member_unknown seen hkey (not_exists.1 hknown)]
      exact .ok fun h => h.resolve_right fun hk => hknown ⟨k, hk.unique hkey⟩

lemma foldlM_reaches (laws : L.Lawful A) (h : ∀ m ∈ members, A.Legible R m) (seen : R.Seen)
    (k : R.Key) :
    Reaches (fun seen' : R.Seen =>
      (seen k).isSome = true ∨ (∃ m ∈ members, IsFor m (R.name k)) → (seen' k).isSome = true)
      (members.foldlM A.member seen : Except (ReadError ρ) R.Seen) := by
  induction members generalizing seen with
  | nil => exact .ok fun h => by simpa using h
  | cons m members ih =>
    obtain ⟨hm, hmembers⟩ := List.forall_mem_cons.1 h
    have hstep := @member_reaches ρ _ _ _ _ laws hm seen k
    rw [List.foldlM_cons]
    generalize A.member seen m = r at hstep
    cases hstep with
    | wrongShape => exact .wrongShape
    | @ok seen₁ hseen₁ =>
      have hrun := ih hmembers seen₁
      simp only [bind, Except.bind]
      generalize members.foldlM A.member seen₁ = r at hrun
      cases hrun with
      | wrongShape => exact .wrongShape
      | ok hseen' =>
        refine .ok fun hgiven => hseen' ?_
        rw [List.exists_mem_cons_iff, ← or_assoc] at hgiven
        exact hgiven.imp_left hseen₁

/-- No record is read from a map in which the key of a part comes back, whatever its value is then
and whatever follows. -/
theorem readRecord_of_repeats (laws : L.Lawful A) (convert : R.Filled → Except ρ α)
    (htext : (Tree.map members).WrittenAs text) (hroom : A.HasRoom 1) (h : A.Repeats R members) :
    L.readRecord R convert text = .error .wrongShape := by
  obtain @⟨before, after, m, m', k, hm, hfirst, hagain, hbefore⟩ := h
  have hrun := @foldlM_reaches ρ _ _ _ _ laws hbefore .start k
  rw [laws.map convert htext hroom, List.foldlM_append]
  generalize before.foldlM A.member .start = r at hrun
  cases hrun with
  | wrongShape => rfl
  | @ok seen hseen =>
    have hread := @laws.member_again ρ _ _ _ _ hagain (hseen (.inr ⟨m, hm, hfirst⟩))
    simp [bind, Except.bind, hread]

/-- No record is read from a map in which the value of a known key is of the wrong kind, whatever
follows. -/
theorem readRecord_of_wrong_kind (laws : L.Lawful A) (convert : R.Filled → Except ρ α)
    {before after : List (List Token.Spelling × Tree)} {k : R.Key} {v : Value}
    (htext : (Tree.map (before ++ m :: after)).WrittenAs text)
    (hbefore : ∀ w ∈ before, A.Legible R w) (hkey : IsFor m (R.name k))
    (hv : m.2.Denotes A.Offers v) (hroom : A.HasRoom (m.2.depth + 1))
    (hwrong : (R.reader k).ofValue? v = none) :
    L.readRecord R convert text = .error .wrongShape := by
  have hone : A.HasRoom 1 := laws.hasRoom_of_le (Nat.le_add_left 1 _) hroom
  have hrun := @foldlM_reaches ρ _ _ _ _ laws hbefore .start k
  rw [laws.map convert htext hone, List.foldlM_append]
  generalize before.foldlM A.member .start = r at hrun
  cases hrun with
  | wrongShape => rfl
  | @ok seen _ =>
    have hread : A.member seen m = (.error .wrongShape : Except (ReadError ρ) R.Seen) := by
      cases hseen : seen k with
      | some part => exact laws.member_again hkey (by rw [hseen]; rfl)
      | none =>
        rw [laws.member_new hkey hseen, laws.part _ hv hroom, hwrong]
        rfl
    simp [bind, Except.bind, hread]

end Library.Lawful

end FormatExpr.Json
