import SchemaWire.Yaml.Cursor

/-!
Plain scalars: words without quotes. Which characters end one depends on where it stands, in a
flow collection or not, and on the indentation of the block around it.
-/
namespace SchemaWire.Yaml

/-- The word of a plain scalar at the start of the characters; empty where one cannot go on. In a
flow collection a colon must not stand before a delimiter. -/
def plainWord? (isFlow : Bool) : List Char → Option (List Char)
  | [] => some []
  | c :: rest =>
      if isWhite c then some []
      else if isFlow && c == ':' && rest.head?.any fun d => isFlowIndicator d || d == '?' then
        none
      else if (c == ':' && isWordEnd rest) || (isFlow && isFlowIndicator c) then some []
      else (plainWord? isFlow rest).map (c :: ·)

theorem ne_nil_of_plainWord? {isFlow : Bool} {chars word : List Char}
    (h : plainWord? isFlow chars = some word) (hword : word ≠ []) : chars ≠ [] := by
  rintro rfl
  simp only [plainWord?, Option.some.injEq] at h
  exact hword h.symm

/-- Whether a tab stands among the first columns of a line: among the characters of white space
before the indentation, from a column on, or from the next line on if there is none. -/
def hasTabBefore (indentation : Nat) : (column : Option Nat) → List Char → Bool
  | _, [] => false
  | column, c :: rest =>
      if isBreak c then hasTabBefore indentation (some 0) rest
      else
        match column with
        | none => hasTabBefore indentation none rest
        | some column =>
            (c == '\t' && column < indentation) ||
              hasTabBefore indentation (some (column + 1)) rest

/-- A plain scalar that was read: its text, the place after it and the white space behind it, and
whether that white space goes over to another line. -/
structure PlainText where
  text : String
  next : Cursor
  endsLine : Bool

/-- The rest of a plain scalar, given what was read of it in reverse and the white space behind
that. -/
def plainFrom (isFlow : Bool) (indentation : Nat) (read white : List Char) (cursor : Cursor) :
    Option PlainText :=
  let finished : PlainText := ⟨String.ofList read.reverse, cursor, white.any isBreak⟩
  if cursor.isAtDocumentLimit || cursor.isAt '#' then some finished
  else if white.any isBreak && !isFlow && cursor.column < indentation then some finished
  else
    match _hword : plainWord? isFlow cursor.ahead with
    | none => none
    | some word =>
        if _hne : word = [] then some finished
        else
          let read := word.reverse ++ (foldWhite white).reverse ++ read
          let behind := cursor.advance word.length
          let white := behind.ahead.takeWhile isWhite
          if hasTabBefore indentation none white then none
          else if white.isEmpty then some ⟨String.ofList read.reverse, behind, false⟩
          else plainFrom isFlow indentation read white (behind.skipWhile isWhite)
termination_by cursor.ahead.length
decreasing_by
  exact Nat.lt_of_le_of_lt (Cursor.length_skipWhile_le isWhite _)
    (Cursor.length_advance_lt (List.length_pos_iff.mpr _hne) (ne_nil_of_plainWord? _hword _hne))

/-- The plain scalar that begins here. The indentation is the least column of its further
lines. -/
def plain? (isFlow : Bool) (indentation : Nat) (cursor : Cursor) : Option PlainText :=
  plainFrom isFlow indentation [] [] cursor

end SchemaWire.Yaml
