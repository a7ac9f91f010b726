import FormatExpr.Argument.Piece
import FormatExpr.Argument.Token
import FormatExpr.Text.Blank

/-!
# The literals of an argument text

The text between the parentheses of a call is split into pieces, and each piece has a literal as
its value. The content of a list is split and valued in the same way. A whole level is split
before any of its pieces is valued, so an error of the outer level is reported before one of an
inner level, and of two errors of inner levels the one further left.

`Argument.literalsFrom_eq` is the defining equation: split, then value every piece.
-/

namespace FormatExpr

/-- The piece without the blank runs around it. -/
def Piece.trimmed (p : Piece) : Piece :=
  let started := Text.trimStart p.text
  ⟨Text.trimEnd started, p.offset + (p.text.length - started.length)⟩

theorem Piece.length_trimmed_le (p : Piece) : p.trimmed.text.length ≤ p.text.length :=
  Text.length_trim_le p.text

/-- The literals of a text that has `offset` characters before it. A list with nothing but blanks
in it is empty. -/
def Argument.literalsFrom (offset : Nat) (text : List Char) :
    Except ArgumentError (List Literal) :=
  match _hs : Piece.split offset text with
  | .error e => .error e
  | .ok pieces =>
    pieces.attach.mapM fun ⟨p, _hp⟩ =>
      match _ht : Token.ofText p.trimmed.text with
      | .literal x => .ok x
      | .list content =>
        if content.all Text.isBlank then .ok (.list [])
        else (literalsFrom (p.trimmed.offset + 1) content).map .list
termination_by text.length
decreasing_by
  have := Token.length_lt_of_ofText_eq_list _ht
  have := p.length_trimmed_le
  have := Piece.length_le_of_mem_split _hs _hp
  omega

/-- The literal of a piece. -/
def Piece.literal (p : Piece) : Except ArgumentError Literal :=
  match Token.ofText p.trimmed.text with
  | .literal x => .ok x
  | .list content =>
    if content.all Text.isBlank then .ok (.list [])
    else (Argument.literalsFrom (p.trimmed.offset + 1) content).map .list

namespace Argument

theorem literalsFrom_eq (offset : Nat) (text : List Char) :
    literalsFrom offset text = (Piece.split offset text).bind (List.mapM Piece.literal) := by
  rw [literalsFrom]
  split
  · next h => rw [h]; rfl
  · next pieces h =>
    rw [h]
    show _ = pieces.mapM Piece.literal
    conv => rhs; rw [← List.attach_map_subtype_val pieces, List.mapM_map]
    congr 1
    funext ⟨p, hp⟩
    simp only [Function.comp, Piece.literal]
    split <;> simp_all

/-- The literals of an argument text. -/
def literals (text : String) : Except ArgumentError (List Literal) :=
  literalsFrom 0 text.toList

end Argument

end FormatExpr
