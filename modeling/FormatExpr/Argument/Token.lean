import FormatExpr.Literal
import FormatExpr.Text.Delimiter

/-!
# Argument tokens

A piece of argument text without the blank runs around it is read by the first rule that fits:
between two equal quotes it is a string, then come the boolean words, a list between brackets, an
integer, a decimal, and anything else is a string as it stands. A list keeps its content as text,
which is argument text again.
-/

namespace FormatExpr

/-- What a trimmed piece of argument text says: a literal, or a list with the given content. -/
inductive Token where
  | literal (x : Literal)
  | list (content : List Char)
  deriving Repr

namespace Token

/-- What stands between the characters `first` and `last` at the two ends of a text. -/
def between? (first last : Char) : List Char → Option (List Char)
  | [] => none
  | c :: cs => if c = first ∧ cs.getLast? = some last then some cs.dropLast else none

/-- The content of a text between two equal quote characters. It may hold that character too. -/
def quotedContent? : List Char → Option (List Char)
  | [] => none
  | c :: cs => if isQuote c then between? c c (c :: cs) else none

/-- The number that a text denotes: an optional sign, and digits with or without a point between
them. -/
def number? (word : List Char) : Option Number :=
  let (negative, unsigned) := Text.splitSign word
  if Text.isDigits unsigned then some (.ofInteger negative (Text.value unsigned))
  else (Text.pointed? unsigned).map fun (whole, fraction) =>
    .float (Binary64.ofDecimal negative (Text.value (whole ++ fraction)) (-fraction.length))

/-- The literal that a text without quotes and brackets around it denotes. -/
def ofWord (word : List Char) : Literal :=
  if word = "true".toList then .boolean true
  else if word = "false".toList then .boolean false
  else
    match number? word with
    | some n => .number n
    | none => .string (String.ofList word)

/-- Read a trimmed text. -/
def ofText (text : List Char) : Token :=
  match quotedContent? text with
  | some content => .literal (.string (String.ofList content))
  | none =>
    match between? listOpen listClose text with
    | some content => .list content
    | none => .literal (ofWord text)

/-! ### Size -/

theorem length_of_between? {first last : Char} {text content : List Char}
    (h : between? first last text = some content) : content.length + 2 = text.length := by
  cases text with
  | nil => simp [between?] at h
  | cons c cs =>
    simp only [between?] at h
    split at h
    · next hc =>
      simp only [Option.some.injEq] at h
      subst h
      have : cs ≠ [] := by rintro rfl; simp at hc
      have := List.length_pos_iff.2 this
      simp only [List.length_dropLast, List.length_cons]
      omega
    · simp at h

/-- The content of a list is shorter than the list. -/
theorem length_lt_of_ofText_eq_list {text content : List Char} (h : ofText text = .list content) :
    content.length < text.length := by
  unfold ofText at h
  split at h
  · simp at h
  · split at h
    · next hb =>
      simp only [Token.list.injEq] at h
      have := length_of_between? hb
      subst h
      omega
    · simp at h

end Token

end FormatExpr
