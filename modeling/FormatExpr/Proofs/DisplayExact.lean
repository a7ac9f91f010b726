import FormatExpr.Proofs.DisplayRoundTrip

/-!
# What can be read back from displayed formats

A format that was parsed need not be read back from its text: quotes are not escaped, so a string
with both quote characters may come apart, and an infinite number is written as a word. Whenever
an equal format is read back, however, every literal of it is faithful and was read from the very
text it was written to (`Literal.Settled`). So a parsed format is read back from its text exactly
when it is faithful (`ofText_display`, `eq_of_ofText_display`).

The argument compares a piece that was read with the text that was written at the same place.
Both begin after a blank run and end where an argument may end, so that they cannot be of two
lengths.
-/

namespace FormatExpr

/-! ### Texts that begin in the same place -/

/-- Two runs of characters of one kind are equal if characters of another kind follow both. -/
lemma append_inj_of_head {P : Char → Prop} {u v r s : List Char} (hu : ∀ c ∈ u, P c)
    (hv : ∀ c ∈ v, P c) (hr : ∀ c ∈ r.head?, ¬P c) (hs : ∀ c ∈ s.head?, ¬P c)
    (h : u ++ r = v ++ s) : u = v ∧ r = s := by
  induction u generalizing v with
  | nil =>
    cases v with
    | nil => exact ⟨rfl, h⟩
    | cons c v =>
      rw [List.nil_append] at h
      exact absurd (hv c (by simp)) (hr c (by simp [h]))
  | cons c u ih =>
    cases v with
    | nil =>
      rw [List.nil_append] at h
      exact absurd (hu c (by simp)) (hs c (by simp [← h]))
    | cons d v =>
      obtain ⟨hcd, htail⟩ := List.cons.inj h
      obtain ⟨huv, hrs⟩ := ih (List.forall_mem_cons.1 hu).2 (List.forall_mem_cons.1 hv).2 htail
      exact ⟨by rw [hcd, huv], hrs⟩

/-- A text that goes on as if `q` stood in front of it is followed by `q`. -/
lemma eq_cons_of_append_eq_cons {q : Char} {s z r : List Char} (h : s ++ z = q :: (s ++ r)) :
    z = q :: r := by
  induction s with
  | nil => exact h
  | cons c s ih =>
    obtain ⟨rfl, htail⟩ := List.cons.inj h
    exact ih htail

/-- An argument may end before this text: it is empty, or begins with a separator or with the end
of a list. -/
def Stops (rest : List Char) : Prop :=
  ∀ c ∈ rest.head?, c = separator ∨ c = listClose

lemma Stops.nil : Stops [] := by
  simp [Stops]

lemma Stops.separator (rest : List Char) : Stops (FormatExpr.separator :: rest) := by
  simp [Stops]

lemma Stops.listClose (rest : List Char) : Stops (FormatExpr.listClose :: rest) := by
  simp [Stops]

lemma Stops.isBlank {rest : List Char} (h : Stops rest) :
    ∀ c ∈ rest.head?, Text.isBlank c = false := by
  intro c hc
  rcases h c hc with rfl | rfl <;> decide

/-- What follows a piece without its blanks. -/
lemma Stops.head_append {trail rest : List Char} (h : Stops rest) (htrail : Text.IsBlankRun trail) :
    ∀ c ∈ (trail ++ rest).head?, isQuote c = false ∧ ¬Text.IsWordChar c := by
  intro c hc
  cases trail with
  | nil =>
    have hstop := h c hc
    refine ⟨by rcases hstop with rfl | rfl <;> decide, ?_⟩
    intro hword
    rcases hstop with rfl | rfl <;> exact hword.ne (by decide) rfl
  | cons d trail =>
    cases hc
    have hblank := htrail c (by simp)
    refine ⟨(Text.plain_of_isBlank hblank).1, ?_⟩
    intro hword
    rw [hword.isBlank] at hblank
    cases hblank

/-- A blank run that begins where an argument may end is empty. -/
lemma Stops.eq_nil_of_append {trail v w : List Char} (hw : Stops w)
    (htrail : Text.IsBlankRun trail) (h : trail ++ v = w) : trail = [] := by
  cases trail with
  | nil => rfl
  | cons c trail =>
    have hblank := htrail c (by simp)
    rw [hw.isBlank c (by simp [← h])] at hblank
    cases hblank

lemma Piece.Whole.of_blankRun_append {lead text : List Char} (hlead : Text.IsBlankRun lead)
    (h : Whole (lead ++ text)) : Whole text := by
  have hplain : Whole lead := .of_isBlankRun hlead
  have hsplit := h.splitFrom_eq 0
  rw [splitFrom_append (hplain.splitFrom_eq 0), Nat.add_right_comm] at hsplit
  rw [whole_iff_splitFrom (0 + lead.length)]
  cases hs : splitFrom [] none (0 + lead.length + 1) text with
  | error e =>
    rw [hs] at hsplit
    cases hsplit
  | ok r =>
    rw [hs] at hsplit
    simp only [Except.map, prepend, Except.ok.injEq, Prod.mk.injEq, List.append_cancel_left_eq]
      at hsplit
    rw [← hsplit.1, ← hsplit.2]

namespace Literal

open Text

/-! ### Literals of one kind -/

/-- The literals are of one kind: equal strings, two numbers, two booleans, or lists whose elements
are of one kind in turn. -/
inductive Alike : Literal → Literal → Prop where
  | string (s : String) : Alike (string s) (string s)
  | number (m n : Number) : Alike (number m) (number n)
  | boolean (b c : Bool) : Alike (boolean b) (boolean c)
  | list {xs ys : List Literal} (h : List.Forall₂ Alike xs ys) : Alike (list xs) (list ys)

lemma alike_refl (x : Literal) : Alike x x := by
  induction x with
  | string s => exact .string s
  | number n => exact .number n n
  | boolean b => exact .boolean b b
  | list items ih => exact .list (List.forall₂_same.2 ih)

lemma forall₂_alike_of_numEqList {xs : List Literal}
    (h : ∀ x ∈ xs, ∀ y, x.numEq y = true → Alike x y) {ys : List Literal}
    (heq : numEqList xs ys = true) : List.Forall₂ Alike xs ys := by
  induction xs generalizing ys with
  | nil =>
    cases ys with
    | nil => exact .nil
    | cons y ys => simp [numEqList] at heq
  | cons x xs ih =>
    cases ys with
    | nil => simp [numEqList] at heq
    | cons y ys =>
      obtain ⟨hx, hxs⟩ := List.forall_mem_cons.1 h
      rw [numEqList, Bool.and_eq_true] at heq
      exact .cons (hx y heq.1) (ih hxs heq.2)

lemma alike_of_numEq {x y : Literal} (h : x.numEq y = true) : Alike x y := by
  induction x generalizing y with
  | string s =>
    cases y with
    | string t =>
      rw [beq_iff_eq.1 h]
      exact .string t
    | _ => simp [numEq] at h
  | number m =>
    cases y with
    | number n => exact .number m n
    | _ => simp [numEq] at h
  | boolean b =>
    cases y with
    | boolean c => exact .boolean b c
    | _ => simp [numEq] at h
  | list items ih =>
    cases y with
    | list ys =>
      rw [numEq] at h
      exact .list (forall₂_alike_of_numEqList (fun x hx _ => ih x hx) h)
    | _ => simp [numEq] at h

/-- A number that is finite equals itself. -/
lemma numEq_self_of_isFinite {n : Number} (h : n.IsFinite) : n.numEq n = true := by
  cases n with
  | integer i => exact beq_self_eq_true i
  | float x =>
    have hnan : x.isNaN = false := by
      simp only [Number.IsFinite, Binary64.isFinite, decide_eq_true_eq] at h
      simpa [Binary64.isNaN] using h.le
    simp [Number.numEq, Binary64.numEq, hnan]

lemma numEqList_self {xs : List Literal} (h : ∀ x ∈ xs, x.numEq x = true) :
    numEqList xs xs = true := by
  induction xs with
  | nil => rfl
  | cons x xs ih =>
    obtain ⟨hx, hxs⟩ := List.forall_mem_cons.1 h
    rw [numEqList, hx, ih hxs]
    rfl

/-- A faithful literal equals itself; only what is not a number differs from itself. -/
lemma IsFaithful.numEq_self {x : Literal} (h : x.IsFaithful) : x.numEq x = true := by
  induction h with
  | @string s _ => exact beq_self_eq_true s
  | number h => exact numEq_self_of_isFinite h
  | boolean b => exact beq_self_eq_true b
  | list _ ih => exact numEqList_self ih

/-! ### One literal -/

/-- Where the literal was written, a piece with a literal of its kind is the very text that was
written. -/
def Settled (x : Literal) : Prop :=
  ∀ {p : Piece} {y : Literal} {lead v w : List Char}, p.literal = .ok y → Alike x y →
    Piece.Whole p.text → IsBlankRun lead → Stops v → Stops w →
    p.text ++ v = lead ++ (x.text ++ w) → p.text = lead ++ x.text ∧ y = x ∧ x.IsFaithful

/-- A piece that begins with what was written shows it from the same place on. A piece of nothing
but blanks is taken to end with them. -/
lemma exists_trail {x : Literal} {text core lead lead' trail v w : List Char}
    (hlead : IsBlankRun lead) (hlead' : IsBlankRun lead') (htrail : IsBlankRun trail)
    (hcore : IsTight core) (hv : Stops v) (htext : text = lead' ++ core ++ trail)
    (h : text ++ v = lead ++ (x.text ++ w)) :
    ∃ trail', IsBlankRun trail' ∧ text = lead ++ core ++ trail' ∧
      core ++ (trail' ++ v) = x.text ++ w := by
  have hx : ∀ c ∈ (x.text ++ w).head?, ¬isBlank c = true := by
    intro c hc
    rw [List.head?_append_of_ne_nil _ x.text_ne_nil] at hc
    simp [x.isTight_text.1 c hc]
  by_cases hne : core = []
  · have hblank : IsBlankRun text := by
      intro c hc
      rw [htext, hne, List.append_nil] at hc
      exact (List.mem_append.1 hc).elim (hlead' c) (htrail c)
    have hrest : ∀ c ∈ v.head?, ¬isBlank c = true := by
      intro c hc
      simp [hv.isBlank c hc]
    obtain ⟨rfl, hat⟩ := append_inj_of_head hblank hlead hrest hx h
    exact ⟨[], isBlankRun_nil, by simp [hne], by simpa [hne] using hat⟩
  · have hrest : ∀ c ∈ (core ++ (trail ++ v)).head?, ¬isBlank c = true := by
      intro c hc
      rw [List.head?_append_of_ne_nil _ hne] at hc
      simp [hcore.1 c hc]
    rw [htext, List.append_assoc, List.append_assoc] at h
    obtain ⟨rfl, hat⟩ := append_inj_of_head hlead' hlead hrest hx h
    exact ⟨trail, htrail, htext, hat⟩

/-- It is enough to compare what was written with what stands between the blanks of the piece. -/
lemma settled_of_shape {x : Literal}
    (hshape : ∀ {core : List Char} {y : Literal} {trail v w : List Char}, Argument.Shape core y →
      Alike x y → IsBlankRun trail → Stops v → Stops w → core ++ (trail ++ v) = x.text ++ w →
      core = x.text ∧ y = x ∧ (OnePiece x.text → x.IsFaithful)) : x.Settled := by
  intro p y lead v w hy halike hwhole hlead hv hw h
  obtain ⟨lead', core, trail, hlead', htrail, htight, htext, hcore⟩ :=
    Argument.shape_of_literal hy
  obtain ⟨trail', htrail', htext', hat⟩ := exists_trail hlead hlead' htrail htight hv htext h
  obtain ⟨rfl, hyx, hfaithful⟩ := hshape hcore halike htrail' hv hw hat
  -- no blank of the piece can follow, since an argument ended there when it was written
  rw [List.append_cancel_left_eq] at hat
  rw [hw.eq_nil_of_append htrail' hat, List.append_nil] at htext'
  refine ⟨htext', hyx, hfaithful ?_⟩
  rw [htext'] at hwhole
  exact Piece.whole_iff_onePiece.1 (hwhole.of_blankRun_append hlead)

/-- Words that begin in the same place are equal. -/
lemma eq_of_words {word word' trail v w : List Char} (hword : ∀ c ∈ word, IsWordChar c)
    (hword' : ∀ c ∈ word', IsWordChar c) (htrail : IsBlankRun trail) (hv : Stops v) (hw : Stops w)
    (h : word ++ (trail ++ v) = word' ++ w) : word = word' := by
  have hrest : ∀ c ∈ (trail ++ v).head?, ¬IsWordChar c := by
    intro c hc
    exact (hv.head_append htrail c hc).2
  have hrest' : ∀ c ∈ w.head?, ¬IsWordChar c := by
    intro c hc
    exact (hw.head_append isBlankRun_nil c hc).2
  exact (append_inj_of_head hword hword' hrest hrest' h).1

/-- A string that stands without quotes where it was written with quotes would begin with its own
quote again and again. -/
lemma not_bare_of_quoted {s trail v w : List Char} (htrail : IsBlankRun trail) (hv : Stops v)
    (h : s ++ (trail ++ v) = quoted s ++ w) : False := by
  rw [quoted, List.append_assoc] at h
  have hend := eq_cons_of_append_eq_cons h
  have hq := (hv.head_append htrail (quoteFor s) (by rw [hend]; rfl)).1
  rw [isQuote_quoteFor] at hq
  cases hq

lemma settled_string (s : String) : (string s).Settled := by
  apply settled_of_shape
  intro core y trail v w hshape halike htrail hv hw h
  cases halike
  cases hshape with
  | @quoted q hq _ =>
    have hquote : q = quoteFor s.toList := (List.cons.inj h).1
    rw [hquote]
    exact ⟨rfl, rfl, fun hpiece => .string hpiece⟩
  | bare => exact (not_bare_of_quoted htrail hv h).elim

lemma settled_number (n : Number) : (number n).Settled := by
  apply settled_of_shape
  intro core y trail v w hshape halike htrail hv hw h
  cases halike
  cases hshape with
  | number hm =>
    have hcore := eq_of_words (Token.isWordChar_of_number? hm) n.isWordChar_text htrail hv hw h
    -- the text of an infinite number is not read as a number
    have hfinite : n.IsFinite := by
      by_contra hn
      rw [hcore, Number.number?_text_of_not_isFinite hn] at hm
      cases hm
    rw [hcore, Token.number?_text hfinite] at hm
    cases hm
    exact ⟨hcore, rfl, fun _ => .number hfinite⟩

lemma settled_boolean (b : Bool) : (boolean b).Settled := by
  apply settled_of_shape
  intro core y trail v w hshape halike htrail hv hw h
  cases halike with
  | boolean _ c =>
    cases hshape
    have hcore := eq_of_words (isWordChar_text_boolean c) (isWordChar_text_boolean b) htrail hv hw h
    have hsame : c = b := by
      cases b <;> cases c <;> first | rfl | exact absurd hcore (by decide)
    rw [hsame]
    exact ⟨rfl, rfl, fun _ => .boolean b⟩

/-! ### Several literals -/

/-- Where literals were written, argument text with literals of their kinds is the text that was
written. -/
lemma settled_textJoined {xs ys : List Literal} (hsettled : ∀ x ∈ xs, x.Settled)
    (halike : List.Forall₂ Alike xs ys) {offset : Nat} {text : List Char}
    (h : Argument.Reads offset text ys) {lead v w : List Char} (hlead : IsBlankRun lead)
    (hv : Stops v) (hw : Stops w) (htext : text ++ v = lead ++ (textJoined xs ++ w)) :
    text = lead ++ textJoined xs ∧ ys = xs ∧ ∀ x ∈ xs, x.IsFaithful := by
  induction h generalizing xs lead with
  | last hwhole hy =>
    cases halike with
    | cons hx hxs =>
      cases hxs
      rw [List.forall_mem_singleton] at hsettled ⊢
      obtain ⟨hfirst, rfl, hfaithful⟩ :=
        hsettled hy hx hwhole hlead hv hw (by simpa [textJoined] using htext)
      exact ⟨by simpa [textJoined] using hfirst, rfl, hfaithful⟩
  | @cons offset first rest y ys hwhole hy hrest ih =>
    cases halike with
    | @cons x _ xs _ hx hxs =>
      obtain ⟨hsettled, hsettled'⟩ := List.forall_mem_cons.1 hsettled
      have hne : xs ≠ [] := by
        rintro rfl
        cases hxs
        exact hrest.ne_nil rfl
      rw [textJoined_cons, if_neg hne] at htext ⊢
      simp only [List.append_assoc, List.cons_append] at htext
      obtain ⟨hfirst, rfl, hfaithful⟩ :=
        hsettled hy hx hwhole hlead (.separator _) (.separator _) htext
      have hfirst : first = lead ++ y.text := hfirst
      -- what was written after the separator begins with a blank
      rw [hfirst, List.append_assoc, List.append_cancel_left_eq, List.append_cancel_left_eq,
        List.cons.injEq] at htext
      obtain ⟨hlater, rfl, hfaithful'⟩ := ih hsettled' hxs isBlankRun_space htext.2
      refine ⟨by rw [hfirst, hlater, List.append_assoc]; rfl, rfl, ?_⟩
      exact List.forall_mem_cons.2 ⟨hfaithful, hfaithful'⟩

lemma settled_list {items : List Literal} (ih : ∀ x ∈ items, x.Settled) :
    (list items).Settled := by
  apply settled_of_shape
  intro core y trail v w hshape halike htrail hv hw h
  cases halike with
  | @list _ ys hitems =>
    cases hshape with
    | @emptyList content hblank =>
      cases hitems
      have hnil : content = [] := by
        cases content with
        | nil => rfl
        | cons c content =>
          have hc : c = listClose := (List.cons.inj (List.cons.inj h).2).1
          have := hblank c (by simp)
          rw [hc] at this
          cases this
      rw [hnil]
      exact ⟨rfl, rfl, fun _ => .list (by simp)⟩
    | @list offset content _ hreads =>
      have hinner : content ++ listClose :: (trail ++ v)
          = [] ++ (textJoined items ++ listClose :: w) := by
        simpa [Literal.text] using h
      obtain ⟨hcontent, rfl, hfaithful⟩ := settled_textJoined ih hitems hreads isBlankRun_nil
        (.listClose _) (.listClose _) hinner
      rw [hcontent]
      exact ⟨rfl, rfl, fun _ => .list hfaithful⟩

/-- No literal is read from another text than the one it was written to, where it was written. -/
theorem settled (x : Literal) : x.Settled := by
  induction x with
  | string s => exact settled_string s
  | number n => exact settled_number n
  | boolean b => exact settled_boolean b
  | list items ih => exact settled_list ih

end Literal

/-! ### Formats -/

namespace Format

/-- A property; or a call whose arguments are faithful and whose argument text has matching
parentheses. -/
def IsFaithful : Format → Prop
  | property _ => True
  | method _ arguments =>
    (∀ x ∈ arguments, x.IsFaithful) ∧ Nested callOpen callClose (argumentText arguments)

/-- If the argument text of a call is read as arguments of the same kinds, it is read as the same
arguments, and these are faithful. -/
theorem eq_of_literals_argumentText {xs ys : List Literal}
    (h : Argument.literals (String.ofList (argumentText xs)) = .ok ys)
    (halike : List.Forall₂ Literal.Alike xs ys) : ys = xs ∧ ∀ x ∈ xs, x.IsFaithful := by
  rw [Argument.literals, String.toList_ofList, Argument.literalsFrom_eq_ok_iff] at h
  by_cases hempty : xs = [.string ""]
  · subst hempty
    have hempty : Argument.Reads 0 (argumentText [.string ""]) [.string ""] := .last .nil rfl
    have := Argument.literalsFrom_eq_ok_iff.2 h
    rw [Argument.literalsFrom_eq_ok_iff.2 hempty] at this
    cases this
    refine ⟨rfl, ?_⟩
    rw [List.forall_mem_singleton]
    exact .string (Literal.onePiece_quoted (by decide))
  · have htext : argumentText xs = Literal.textJoined xs := by
      rw [argumentText.eq_def]
      split
      · exact absurd rfl hempty
      · rfl
    rw [htext] at h
    obtain ⟨-, hys, hfaithful⟩ := Literal.settled_textJoined (fun x _ => x.settled) halike h
      Text.isBlankRun_nil .nil .nil rfl
    exact ⟨hys, hfaithful⟩

lemma IsFaithful.numEq_self {f : Format} (h : f.IsFaithful) : f.numEq f = true := by
  cases f with
  | property name => simp [numEq, arguments, Literal.numEqList]
  | method name xs =>
    have hargs : Literal.numEqList xs xs = true := by
      apply Literal.numEqList_self
      intro x hx
      exact (h.1 x hx).numEq_self
    simpa [numEq, arguments] using hargs

/-- A faithful format is read from its text. -/
theorem ofText_display {f : Format} (hf : f.WellFormed) (h : f.IsFaithful) :
    ofText f.display = .ok f := by
  cases f with
  | property name =>
    refine ofText_eq_property_iff.2 (Expression.ofText_eq_ok_iff.2 ⟨?_, hf.name, by simp⟩)
    simp [display, Format.text, Expression.text]
  | method name arguments =>
    have hne : arguments ≠ [] := by
      rintro rfl
      exact hf.arguments name rfl
    exact ofText_display_method hf.name hne h.1 h.2

/-- The formats are both properties or both calls, have one name, and their arguments are of the
same kinds. -/
inductive Alike : Format → Format → Prop where
  | property (name : String) : Alike (property name) (property name)
  | method (name : String) {xs ys : List Literal} (h : List.Forall₂ Literal.Alike xs ys) :
      Alike (method name xs) (method name ys)

lemma alike_refl (f : Format) : Alike f f := by
  cases f with
  | property name => exact .property name
  | method name xs => exact .method name (List.forall₂_same.2 fun x _ => x.alike_refl)

lemma alike_of_numEq {f g : Format} (h : f.numEq g = true) : Alike f g := by
  simp only [numEq, Bool.and_eq_true, beq_iff_eq] at h
  obtain ⟨⟨hname, hkind⟩, hargs⟩ := h
  cases f with
  | property name =>
    cases g with
    | property name' =>
      cases hname
      exact .property name
    | method name' ys => cases hkind
  | method name xs =>
    cases g with
    | property name' => cases hkind
    | method name' ys =>
      cases hname
      exact .method name
        (Literal.forall₂_alike_of_numEqList (fun _ _ _ => Literal.alike_of_numEq) hargs)

/-- If a format of the same kind is read from the text of a format, it is the same one, and it is
faithful. -/
theorem eq_of_ofText_display {f g : Format} (h : ofText f.display = .ok g) (halike : Alike f g) :
    g = f ∧ f.IsFaithful := by
  cases halike with
  | property name => exact ⟨rfl, trivial⟩
  | @method name xs ys hargs =>
    obtain ⟨body, he, hbody⟩ := ofText_eq_method_iff.1 h
    obtain ⟨htext, -, hnested⟩ := Expression.ofText_eq_ok_iff.1 he
    have hsame : body = String.ofList (argumentText xs) := by
      simp only [display, Format.text, Expression.text, String.toList_ofList,
        List.append_cancel_left_eq, List.cons.injEq, true_and,
        List.append_cancel_right_eq] at htext
      rw [htext, String.ofList_toList]
    rw [hsame] at hbody hnested
    obtain ⟨rfl, hfaithful⟩ := eq_of_literals_argumentText hbody hargs
    refine ⟨rfl, hfaithful, ?_⟩
    simpa using hnested _ rfl

end Format

namespace Parser

variable {ρ : Type} [Registry ρ]

/-- A format that was parsed is parsed again from its text, or an equal one is, exactly when it is
faithful. -/
theorem parse_display_iff_isFaithful {registry : ρ}
    (hall : ∀ q, Registry.answer registry q = true) {text : String} {f : Format}
    (h : (ofRegistry registry).1.parse text = .ok f) :
    ((∃ g, (ofRegistry registry).1.parse f.display = .ok g ∧ f.numEq g = true) ↔ f.IsFaithful) ∧
      ((ofRegistry registry).1.parse f.display = .ok f ↔ f.IsFaithful) := by
  have hparse : ∀ text, (ofRegistry registry).1.parse text = Format.ofText text :=
    parse_ofRegistry hall
  rw [hparse] at h ⊢
  have hread : f.IsFaithful → Format.ofText f.display = .ok f :=
    Format.ofText_display (Format.wellFormed_of_ofText h)
  constructor
  · constructor
    · rintro ⟨g, hg, heq⟩
      exact (Format.eq_of_ofText_display hg (Format.alike_of_numEq heq)).2
    · intro hf
      exact ⟨f, hread hf, hf.numEq_self⟩
  · constructor
    · intro hf
      exact (Format.eq_of_ofText_display hf f.alike_refl).2
    · exact hread

/-- A string with both quote characters may be parsed again from its text. -/
theorem parse_display_mixed_quotes :
    (ofRegistry fun _ : Query => true).1.parse
        (Format.method "f" [.string "a'\"b\"c'"]).display
      = .ok (.method "f" [.string "a'\"b\"c'"]) := by
  have hbody : Argument.Reads 0 "a'\"b\"c'".toList [.string "a'\"b\"c'"] :=
    .last (by decide) (Piece.literal_of_ofText rfl)
  have hparse : (ofRegistry fun _ : Query => true).1.parse "f(a'\"b\"c')"
      = .ok (.method "f" [.string "a'\"b\"c'"]) := by
    rw [parse_ofRegistry fun _ => rfl]
    exact Format.ofText_method_of_reads rfl hbody
  refine (parse_display_iff_isFaithful (fun _ => rfl) hparse).2.2 ⟨?_, ?_⟩
  · rw [List.forall_mem_singleton]
    exact .string (Piece.whole_iff_onePiece.1 (by decide))
  · have hnested : Nested callOpen callClose
        ('"' :: "a'".toList ++ '"' :: 'b' :: ('"' :: "c'".toList ++ ['"'])) :=
      .quoted (by decide) (by decide) (.plain (by decide) (by decide) (by decide)
        (.quoted (by decide) (by decide) .nil))
    exact hnested

/-- A string that holds a double quote, a comma and a single quote is parsed from a text, but its
own text is parsed as two strings. -/
theorem parse_display_two_arguments :
    (ofRegistry fun _ : Query => true).1.parse "f('a' \",\")"
        = .ok (.method "f" [.string "'a' \",\""]) ∧
      (ofRegistry fun _ : Query => true).1.parse
        (Format.method "f" [.string "'a' \",\""]).display
        = .ok (.method "f" [.string "'a' ", .string ""]) ∧
      (Format.method "f" [.string "'a' \",\""]).numEq
        (.method "f" [.string "'a' ", .string ""]) = false := by
  have hone : Argument.Reads 0 "'a' \",\"".toList [.string "'a' \",\""] :=
    .last (by decide) (Piece.literal_of_ofText rfl)
  have htwo : Argument.Reads 0 "\"'a' \",\"\"".toList [.string "'a' ", .string ""] :=
    @Argument.Reads.cons _ "\"'a' \"".toList _ _ _ (by decide) (Piece.literal_of_ofText rfl)
      (.last (by decide) (Piece.literal_of_ofText rfl))
  refine ⟨?_, ?_, by decide⟩
  · rw [parse_ofRegistry fun _ => rfl]
    exact Format.ofText_method_of_reads rfl hone
  · rw [parse_ofRegistry fun _ => rfl]
    exact Format.ofText_method_of_reads rfl htwo

end Parser

end FormatExpr
