import FormatExpr.Json.Streaming
import FormatExpr.Proofs.JsonText

/-!
# The laws of the streaming library

The library that reads texts from left to right keeps the laws of JSON libraries, whatever its room
(`Json.Library.lawful_within`). A text is read as the draft of the tree that it is written for, so
each law is about drafts of trees. The value of such a draft is the one that the tree denotes, if
there is room for its depth (`Json.Tree.Denotes.value?_draft`).
-/

namespace FormatExpr.Json

/-! ### Drafts of trees -/

namespace Tree

lemma itemDrafts_eq_map (items : List Tree) : itemDrafts items = items.map draft := by
  induction items with
  | nil => rfl
  | cons x items ih => rw [itemDrafts, List.map_cons, ih]

lemma memberDrafts_eq_map (members : List (List Token.Spelling × Tree)) :
    memberDrafts members =
      members.map fun m => ((Token.join m.1).map String.ofList, m.2.draft) := by
  induction members with
  | nil => rfl
  | cons m members ih => rw [memberDrafts, List.map_cons, ih]

lemma areSound_itemDrafts {items : List Tree} (h : ∀ x ∈ items, x.draft.isSound = true) :
    Draft.areSound (itemDrafts items) = true := by
  induction items with
  | nil => rfl
  | cons x items ih =>
    obtain ⟨hx, hitems⟩ := List.forall_mem_cons.1 h
    simp [itemDrafts, Draft.areSound, hx, ih hitems]

lemma areSoundMembers_memberDrafts {members : List (List Token.Spelling × Tree)}
    (h : ∀ m ∈ members, m.2.draft.isSound = true) :
    Draft.areSoundMembers (memberDrafts members) = true := by
  induction members with
  | nil => rfl
  | cons m members ih =>
    obtain ⟨hm, hmembers⟩ := List.forall_mem_cons.1 h
    simp [memberDrafts, Draft.areSoundMembers, hm, ih hmembers]

/-- Every tree may be passed over, whatever its depth and whether or not it has a value. -/
lemma isSound_draft (x : Tree) : x.draft.isSound = true := by
  induction x with
  | list items ih => exact areSound_itemDrafts ih
  | map members ih => exact areSoundMembers_memberDrafts ih
  | _ => rfl

lemma map_ofList_join {spellings : List Token.Spelling} {s : String}
    (h : Token.join spellings = some s.toList) :
    (Token.join spellings).map String.ofList = some s := by
  rw [h, Option.map_some, String.ofList_toList]

lemma values?_itemDrafts {room : Nat} {items : List Tree} {vs : List Value}
    (h : List.Forall₂ (fun x v => x.draft.value? room = some v) items vs) :
    Draft.values? room (itemDrafts items) = some vs := by
  induction h with
  | nil => rfl
  | cons hv _ ih =>
    rw [itemDrafts, Draft.values?, hv, ih]
    rfl

lemma memberValues?_memberDrafts {room : Nat} {members : List (List Token.Spelling × Tree)}
    {vs : List (String × Value)} (hkeys : List.Forall₂ (fun m v => IsFor m v.1) members vs)
    (h : List.Forall₂ (fun m v => m.2.draft.value? room = some v.2) members vs) :
    Draft.memberValues? room (memberDrafts members) = some vs := by
  induction h with
  | nil => rfl
  | @cons m v members vs hv _ ih =>
    obtain ⟨hkey, hkeys⟩ := List.forall₂_cons.1 hkeys
    rw [memberDrafts, Draft.memberValues?, map_ofList_join hkey, hv, ih hkeys]
    rfl

/-- The draft of a tree has the value that the tree denotes, if there is room for its depth. -/
theorem Denotes.value?_draft {x : Tree} {v : Value} (h : x.Denotes Numeral.ReadAs v) {room : Nat}
    (hroom : x.depth ≤ room) : x.draft.value? room = some v := by
  induction x generalizing v room with
  | null =>
    cases h
    rfl
  | boolean b =>
    cases h
    rfl
  | number n =>
    cases h with
    | number h =>
      rw [Numeral.ReadAs] at h
      rw [draft, Draft.value?, h, Option.map_some]
  | string spellings =>
    cases h with
    | string h => rw [draft, map_ofList_join h, Draft.value?, Option.map_some]
  | list items ih =>
    obtain ⟨inner, rfl⟩ := Nat.exists_eq_add_of_le' ((Nat.le_add_left 1 _).trans hroom)
    cases h with
    | @list _ vs h =>
      have hvalues : List.Forall₂ (fun x v => x.draft.value? inner = some v) items vs :=
        forall₂_imp_of_mem h fun x hx v hv =>
          ih x hx hv ((depth_le_itemsDepth hx).trans (Nat.le_of_succ_le_succ hroom))
      rw [draft, Draft.value?, values?_itemDrafts hvalues, Option.map_some]
  | map members ih =>
    obtain ⟨inner, rfl⟩ := Nat.exists_eq_add_of_le' ((Nat.le_add_left 1 _).trans hroom)
    cases h with
    | @map _ vs hkeys h =>
      have hvalues : List.Forall₂ (fun m v => m.2.draft.value? inner = some v.2) members vs :=
        forall₂_imp_of_mem h fun m hm v hv =>
          ih m hm hv ((depth_le_membersDepth hm).trans (Nat.le_of_succ_le_succ hroom))
      rw [draft, Draft.value?, memberValues?_memberDrafts hkeys hvalues, Option.map_some]

end Tree

/-! ### Reading drafts of trees -/

variable {ρ α : Type} {R : Record}

lemma readText_of_writtenAs {x : Tree} {text : String} (htext : x.WrittenAs text)
    (read : Draft → Except (ReadError ρ) α) : readText read text = read x.draft := by
  rw [readText, htext.ofText_eq]
  dsimp only
  cases read x.draft <;> rfl

lemma exists_of_readText {read : Draft → Except (ReadError ρ) α} {text : String} {a : α}
    (h : readText read text = .ok a) : ∃ d, read d = .ok a := by
  rw [readText] at h
  obtain ⟨b, hb, h⟩ := bind_eq_ok_iff.1 h
  split_ifs at h
  cases h
  exact ⟨_, hb⟩

lemma Draft.attempt_draft {x : Tree} {v : Value} (hv : x.Denotes Numeral.ReadAs v) {room : Nat}
    (hroom : x.depth ≤ room) (trial : Value → Option α) :
    x.draft.attempt room trial = (ReadError.orWrongShape (trial v) : Except (ReadError ρ) α) := by
  rw [attempt, hv.value?_draft hroom]

/-- Items that are tried one by one are all taken, or one of them is of the wrong kind. -/
lemma mapM_orWrongShape {β : Type} {f : β → Except (ReadError ρ) α} {trial : Value → Option α}
    {l : List β} {vs : List Value}
    (h : List.Forall₂ (fun b v => f b = ReadError.orWrongShape (trial v)) l vs) :
    l.mapM f = ReadError.orWrongShape (vs.mapM trial) := by
  induction h with
  | nil => rfl
  | @cons b v l vs hb _ ih =>
    rw [List.mapM_cons, List.mapM_cons, hb, ih]
    cases trial v with
    | none => rfl
    | some a => cases vs.mapM trial <;> rfl

lemma Reader.ofDraft_list (trial : Value → Option α) (room : Nat) (ds : List Draft) :
    (list trial).ofDraft (room + 1) (.list ds)
      = (ds.mapM fun d => d.attempt room trial : Except (ReadError ρ) (List α)) :=
  rfl

/-- A part of a record is read from a draft as from the value of the draft. -/
lemma Reader.ofDraft_draft (reader : Reader α) {x : Tree} {v : Value}
    (hv : x.Denotes Numeral.ReadAs v) {room : Nat} (hroom : x.depth ≤ room) :
    reader.ofDraft room x.draft
      = (ReadError.orWrongShape (reader.ofValue? v) : Except (ReadError ρ) α) := by
  cases hv with
  | null => cases reader <;> rfl
  | boolean b => cases reader <;> rfl
  | number h =>
    rw [Tree.draft, h]
    cases reader <;> rfl
  | string h =>
    rw [Tree.draft, Tree.map_ofList_join h]
    cases reader <;> rfl
  | map => cases reader <;> rfl
  | @list items vs h =>
    cases reader with
    | string => rfl
    | boolean => rfl
    | list trial =>
      obtain ⟨inner, rfl⟩ := Nat.exists_eq_add_of_le' ((Nat.le_add_left 1 _).trans hroom)
      have hitems := forall₂_imp_of_mem h fun x hx v hv =>
        @Draft.attempt_draft ρ _ x v hv inner
          ((Tree.depth_le_itemsDepth hx).trans (Nat.le_of_succ_le_succ hroom)) trial
      rw [Tree.draft, Tree.itemDrafts_eq_map, ofDraft_list, List.mapM_map]
      exact mapM_orWrongShape hitems

/-! ### Records -/

namespace Record

lemma key?_name (k : R.Key) : R.key? (R.name k) = some k := by
  cases h : R.key? (R.name k) with
  | none =>
    have hnone := List.find?_eq_none.1 h k (R.complete k)
    simp at hnone
  | some k' =>
    have hname : R.name k' = R.name k := by simpa using List.find?_some h
    rw [R.name_injective hname]

lemma key?_of_unknown {key : String} (h : ∀ k, R.name k ≠ key) : R.key? key = none :=
  List.find?_eq_none.2 fun k _ => by simp [h k]

lemma readItems_eq_foldlM {room : Nat} {ks : List R.Key} {items : List Tree}
    (h : items.length ≤ ks.length) (seen : R.Seen) :
    Seen.readItems room ks seen (items.map Tree.draft)
      = ((ks.zip items).foldlM
          (fun seen p => ((R.reader p.1).ofDraft room p.2.draft).map (seen.put p.1)) seen :
          Except (ReadError ρ) R.Seen) := by
  induction items generalizing ks seen with
  | nil =>
    rw [List.map_nil, List.zip_nil_right]
    cases ks <;> rfl
  | cons x items ih =>
    cases ks with
    | nil => cases h
    | cons k ks =>
      rw [List.map_cons, Seen.readItems, List.zip_cons_cons, List.foldlM_cons]
      cases (R.reader k).ofDraft room x.draft with
      | error e => rfl
      | ok part => exact ih (Nat.le_of_succ_le_succ h) (seen.put k part)

lemma Seen.fill?_eq_some {seen : R.Seen} {parts : R.Filled}
    (h : ∀ k, seen k = some (parts k) ∨ seen k = none ∧ R.fallback k = some (parts k)) :
    seen.fill? = some parts := by
  have hall : ∀ k, (seen k).or (R.fallback k) = some (parts k) := by
    intro k
    rcases h k with hk | ⟨hk, hfallback⟩
    · rw [hk, Option.some_or]
    · rw [hk, Option.none_or, hfallback]
  simp [fill?, hall]

end Record

/-! ### Laws -/

namespace Library

/-- The account of the library that reads texts from left to right. The record that is read takes
some of the room. -/
def account (room : Nat) : Account where
  Offers := Numeral.ReadAs
  HasRoom depth := depth ≤ room
  part reader x := reader.ofDraft (room - 1) x.draft
  member seen m := seen.readMember (room - 1) ((Token.join m.1).map String.ofList, m.2.draft)
  finish seen := seen.finish

section

variable {room : Nat}

lemma readRecord_map {members : List (List Token.Spelling × Tree)} {text : String}
    (convert : R.Filled → Except ρ α) (htext : (Tree.map members).WrittenAs text)
    (hroom : 1 ≤ room) :
    (within room).readRecord R convert text
      = members.foldlM (account room).member .start >>= fun seen =>
        (account room).finish seen >>= fun parts => (convert parts).mapError .rejected := by
  obtain ⟨inner, rfl⟩ := Nat.exists_eq_add_of_le' hroom
  have hread := readText_of_writtenAs htext fun d => d.convert (inner + 1) convert
  rw [Draft.convert, Tree.draft, Tree.memberDrafts_eq_map, Record.ofDraft, List.foldlM_map] at hread
  exact hread.trans (bind_assoc _ _ _)

lemma readRecord_list {items : List Tree} {text : String} (convert : R.Filled → Except ρ α)
    (htext : (Tree.list items).WrittenAs text) (hroom : 1 ≤ room)
    (hlength : items.length ≤ R.keys.length) :
    (within room).readRecord R convert text
      = (R.keys.zip items).foldlM
          (fun seen p => ((account room).part (R.reader p.1) p.2).map (Record.Seen.put seen p.1))
          .start >>= fun seen =>
        (account room).finish seen >>= fun parts => (convert parts).mapError .rejected := by
  obtain ⟨inner, rfl⟩ := Nat.exists_eq_add_of_le' hroom
  have hread := readText_of_writtenAs htext fun d => d.convert (inner + 1) convert
  rw [Draft.convert, Tree.draft, Tree.itemDrafts_eq_map, Record.ofDraft,
    Record.readItems_eq_foldlM hlength] at hread
  exact hread.trans (bind_assoc _ _ _)

lemma exists_of_readRecord {convert : R.Filled → Except ρ α} {text : String} {a : α}
    (h : (within room).readRecord R convert text = .ok a) : ∃ parts, convert parts = .ok a := by
  have hread : readText (fun d => d.convert room convert) text = .ok a := h
  obtain ⟨d, hd⟩ := exists_of_readText hread
  obtain ⟨parts, -, hparts⟩ := bind_eq_ok_iff.1 hd
  exact ⟨parts, mapError_eq_ok_iff.1 hparts⟩

end

/-- The library that reads texts from left to right keeps the laws. -/
theorem lawful_within (room : Nat) : (within room).Lawful (account room) where
  hasRoom_of_le hle h := hle.trans h
  number hdigits h := Numeral.exists_value?_denotes hdigits h
  write v := v.exists_writtenAs
  value trial htext hv hroom :=
    (readText_of_writtenAs htext fun d => d.attempt room trial).trans
      (Draft.attempt_draft hv hroom trial)
  source h := exists_of_readRecord h
  map convert htext hroom := readRecord_map convert htext hroom
  list convert htext hroom hlength := readRecord_list convert htext hroom hlength
  part reader hv hroom := reader.ofDraft_draft hv (Nat.le_sub_one_of_lt hroom)
  member_unknown seen hkey hunknown := by
    simp [account, Record.Seen.readMember, Tree.map_ofList_join hkey,
      Record.key?_of_unknown hunknown, Tree.isSound_draft]
  member_new hkey hnew := by
    simp [account, Record.Seen.readMember, Tree.map_ofList_join hkey, Record.key?_name, hnew]
  member_again hkey hseen := by
    simp [account, Record.Seen.readMember, Tree.map_ofList_join hkey, Record.key?_name, hseen]
  finish h := by
    simp [account, Record.Seen.finish, Record.Seen.fill?_eq_some h, ReadError.orWrongShape]

end Library

end FormatExpr.Json
