import SchemaWire.Proofs.Reading.TypeReader

/-!
Reading expressions by precedence. Operators, accesses and calls are taken from left to right as
long as they bind as tight as is asked for and as what they apply to allows. The levels are, from
the loosest: 1 for arrow functions and conditionals, 2 for what is tested, 3 for `===`, 4 for `as`,
5 for `*` and `/`, 6 for numerals, 7 for names, accesses and calls.
-/
namespace SchemaWire.TypeScript

variable {α : Type}

/-- A result that leaves less than there was. -/
def shorter? (lexemes : List Lexeme) :
    Option (α × List Lexeme) → Option (α × {rest : List Lexeme // rest.length < lexemes.length})
  | some (value, rest) => if h : rest.length < lexemes.length then some (value, ⟨rest, h⟩) else none
  | none => none

/-- A result with a mark after it. -/
def followedBy (mark : Mark) (result : Option (α × List Lexeme)) : Option (α × List Lexeme) := do
  let (value, rest) ← result
  let after ← afterMark? mark rest
  return (value, after)

/-- The level of what an operator builds. Its right operand binds tighter. -/
def BinaryOp.level : BinaryOp → Nat
  | .strictEqual => 3
  | .times | .divide => 5

/-- How tight a lexeme after an expression binds to it: not at all where it closes something,
tighter than anything where no expression goes on with it. -/
def Lexeme.binding : Lexeme → Nat
  | .mark .comma | .mark .colon | .mark .parenClose | .mark .bracketClose | .mark .braceClose => 0
  | .mark .question => 2
  | .mark .strictEqual => BinaryOp.strictEqual.level
  | .word name => if name = "as" then 4 else 8
  | .mark .times => BinaryOp.times.level
  | .mark .divide => BinaryOp.divide.level
  | .mark .dot | .mark .bracketOpen | .mark .parenOpen => 7
  | _ => 8

def readIdentifier : List Lexeme → Option (String × List Lexeme)
  | .word name :: rest => if isIdentifier name then some (name, rest) else none
  | _ => none

def readBinder : List Lexeme → Option (Binder × List Lexeme)
  | .mark .bracketOpen :: lexemes => do
      let (names, rest) ← readList .bracketClose readIdentifier lexemes
      return (.items names, rest)
  | lexemes => do
      let (name, rest) ← readIdentifier lexemes
      return (.variable name, rest)

def readParam (lexemes : List Lexeme) : Option (Param × List Lexeme) := do
  let (binder, rest) ← readBinder lexemes
  match afterMark? .colon rest with
  | some typed => do
      let (ty, after) ← readTy typed
      return (⟨binder, some ty, false⟩, after)
  | none => return (⟨binder, none, false⟩, rest)

/-- The parameters of an arrow function, from behind the parenthesis that opens them up to the
arrow. -/
def readParams (lexemes : List Lexeme) : Option (List Param × List Lexeme) :=
  followedBy .arrow (readList .parenClose readParam lexemes)

def readProperty : List Lexeme → Option (String × List Lexeme)
  | .mark .dot :: .word property :: rest => some (property, rest)
  | .mark .bracketOpen :: .string property :: .mark .bracketClose :: rest => some (property, rest)
  | _ => none

def readAccesses (owner : Expr) (lexemes : List Lexeme) : Expr × List Lexeme :=
  match shorter? lexemes (readProperty lexemes) with
  | some (property, ⟨rest, _⟩) => readAccesses (.member owner property) rest
  | none => (owner, lexemes)
termination_by lexemes.length

/-- What is constructed, up to the parenthesis that opens the arguments: a name or a property. -/
def readCallee (lexemes : List Lexeme) : Option (Expr × List Lexeme) := do
  let (name, rest) ← readIdentifier lexemes
  followedBy .parenOpen (some (readAccesses (.ident name) rest))

def Expr.ofWord? (word : String) : Option Expr :=
  match word with
  | "null" => some (.literal .null)
  | "true" => some (.literal (.bool true))
  | "false" => some (.literal (.bool false))
  | _ => if isIdentifier word then some (.ident word) else none

def Lexeme.key? : Lexeme → Option String
  | .word key | .string key => some key
  | _ => none

def Lexeme.operator? : Lexeme → Option BinaryOp
  | .mark .strictEqual => some .strictEqual
  | .mark .times => some .times
  | .mark .divide => some .divide
  | _ => none

mutual
/-- The expression of at least a level at the start of the lexemes, and what comes after it. -/
def read (level : Nat) (lexemes : List Lexeme) : Option (Expr × List Lexeme) := do
  let ((first, limit), ⟨rest, _⟩) ← shorter? lexemes (readFirst level lexemes)
  readOn level limit first rest
termination_by 2 * lexemes.length + 1

/-- The first part of an expression, with the level of what can go on from it. -/
def readFirst (level : Nat) : List Lexeme → Option ((Expr × Nat) × List Lexeme)
  | .word word :: lexemes =>
      if word = "new" then do
        let (callee, ⟨rest, _⟩) ← shorter? lexemes (readCallee lexemes)
        let (args, after) ← readListed .parenClose rest.length (fun part _ => read 1 part) rest
          (Nat.le_refl _)
        return ((.construct callee args, 7), after)
      else do
        let value ← Expr.ofWord? word
        return ((value, 7), lexemes)
  | .string text :: lexemes => some ((.literal (.string text), 7), lexemes)
  | .numeral value :: lexemes => some ((.literal (.int value), 6), lexemes)
  | .mark .bracketOpen :: lexemes => do
      let (items, rest) ← readListed .bracketClose lexemes.length (fun part _ => read 1 part)
        lexemes (Nat.le_refl _)
      return ((.array items, 7), rest)
  | .mark .braceOpen :: lexemes => do
      let (entries, rest) ← readListed .braceClose lexemes.length (fun part _ => readEntry part)
        lexemes (Nat.le_refl _)
      return ((.object entries, 7), rest)
  | .mark .parenOpen :: lexemes =>
      match shorter? lexemes (readParams lexemes) with
      | some (params, ⟨rest, _⟩) =>
          -- A brace after the arrow would open a block of statements.
          if level ≤ 1 ∧ rest.head? ≠ some (.mark .braceOpen) then do
            let (body, after) ← read 1 rest
            return ((.arrow params body, 1), after)
          else none
      | none => do
          let (inner, rest) ← followedBy .parenClose (read 1 lexemes)
          return ((inner, 7), rest)
  | _ => none
termination_by lexemes => 2 * lexemes.length

def readEntry : List Lexeme → Option (ObjectEntry × List Lexeme)
  | key :: .mark .colon :: lexemes => do
      let key ← key.key?
      let (value, rest) ← read 1 lexemes
      return (.property key value, rest)
  | _ => none
termination_by lexemes => 2 * lexemes.length

/-- What goes on from the left part of an expression, given the level of the left part. -/
def readOn (level limit : Nat) (left : Expr) : List Lexeme → Option (Expr × List Lexeme)
  | [] => some (left, [])
  | lexeme :: lexemes =>
      if lexeme.binding < level ∨ limit < lexeme.binding then some (left, lexeme :: lexemes)
      else
        match lexeme.operator?, lexeme with
        | some op, _ => do
            let (right, ⟨rest, _⟩) ← shorter? lexemes (read (op.level + 1) lexemes)
            readOn level op.level (.binary left op right) rest
        | none, .mark .question => do
            let (whenTrue, ⟨others, _⟩) ← shorter? lexemes (followedBy .colon (read 1 lexemes))
            let (whenFalse, ⟨rest, _⟩) ← shorter? lexemes (read 1 others)
            readOn level 1 (.conditional left whenTrue whenFalse) rest
        | none, .word _ => do
            let (ty, ⟨rest, _⟩) ← shorter? lexemes (readTy lexemes)
            readOn level 4 (.cast left ty) rest
        | none, .mark .parenOpen => do
            let (args, ⟨rest, _⟩) ← shorter? lexemes
              (readListed .parenClose lexemes.length (fun part _ => read 1 part) lexemes
                (Nat.le_refl _))
            readOn level 7 (.call left args) rest
        | none, _ => do
            let (property, ⟨rest, _⟩) ← shorter? lexemes (readProperty (lexeme :: lexemes))
            readOn level 7 (.member left property) rest
termination_by lexemes => 2 * lexemes.length
end

def readExpr (text : String) : Option Expr := do
  let lexemes ← lexemes? text.toList
  match read 1 lexemes with
  | some (expr, []) => some expr
  | _ => none

example : readExpr "a === null ? null : b.c * -1 as Date" = some
    (.conditional (.binary (.ident "a") .strictEqual (.literal .null)) (.literal .null)
      (.cast (.binary (.member (.ident "b") "c") .times (.literal (.int (-1))))
        (.named "Date"))) := by
  cbv

variable {lexemes rest after : List Lexeme} {level limit : Nat}

theorem shorter?_some {value : α} (h : rest.length < lexemes.length) :
    shorter? lexemes (some (value, rest)) = some (value, ⟨rest, h⟩) :=
  dif_pos h

@[simp]
theorem afterMark?_self (mark : Mark) (rest : List Lexeme) :
    afterMark? mark (.mark mark :: rest) = some rest :=
  if_pos rfl

theorem afterMark?_eq_none {mark : Mark} (h : rest.head? ≠ some (.mark mark)) :
    afterMark? mark rest = none := by
  unfold afterMark?
  split
  · rename_i other others
    refine if_neg ?_
    rintro rfl
    exact h rfl
  · rfl

theorem followedBy_some (value : α) (mark : Mark) (rest : List Lexeme) :
    followedBy mark (some (value, .mark mark :: rest)) = some (value, rest) := by
  simp [followedBy]

/-- Nothing after an expression binds to it as tight as the level. -/
def Loose (level : Nat) (rest : List Lexeme) : Prop :=
  ∀ lexeme ∈ rest.head?, lexeme.binding < level

theorem Loose.mono {tighter : Nat} (h : Loose level rest) (hle : level ≤ tighter) :
    Loose tighter rest :=
  fun lexeme hmem => Nat.lt_of_lt_of_le (h lexeme hmem) hle

/-- Nothing binds just tight enough for an arrow function or a conditional to go on. -/
theorem Loose.one (h : Loose 2 rest) : Loose 1 rest := by
  intro lexeme hmem
  have hbinding := h lexeme hmem
  unfold Lexeme.binding at hbinding ⊢
  split at hbinding <;> first | decide | (simp_all [BinaryOp.level])
  split at hbinding <;> omega

/-- No type goes on where no expression does. -/
theorem Loose.endsTy (h : Loose level rest) (hle : level ≤ 8) : EndsTy rest := by
  constructor <;>
  · intro hhead
    exact absurd (h _ hhead) (Nat.not_lt.mpr hle)

theorem loose_mark {mark : Mark} (h : (Lexeme.mark mark).binding < level) :
    Loose level (.mark mark :: rest) := by
  rintro lexeme hmem
  cases hmem
  exact h

/-! How reading goes on, by what comes next. -/

theorem read_first {first : Expr} (hfirst : readFirst level lexemes = some ((first, limit), rest))
    (hlength : rest.length < lexemes.length) :
    read level lexemes = readOn level limit first rest := by
  rw [read, hfirst, shorter?_some hlength]
  rfl

theorem readOn_loose (left : Expr) (h : Loose level rest) :
    readOn level limit left rest = some (left, rest) := by
  cases rest with
  | nil => rw [readOn]
  | cons lexeme rest => exact (readOn.eq_def _ _ _ _).trans (if_pos (Or.inl (h lexeme rfl)))

variable {left : Expr}

theorem readOn_operator {right : Expr} {op : BinaryOp} {lexeme : Lexeme}
    (hop : lexeme.operator? = some op) (hlevel : level ≤ op.level) (hlimit : op.level ≤ limit)
    (hright : read (op.level + 1) lexemes = some (right, rest))
    (hlength : rest.length < lexemes.length) :
    readOn level limit left (lexeme :: lexemes) =
      readOn level op.level (.binary left op right) rest := by
  have hbinding : lexeme.binding = op.level := by
    unfold Lexeme.operator? at hop
    split at hop <;> cases hop <;> rfl
  rw [readOn.eq_def]
  dsimp only
  rw [hbinding, if_neg (by omega), hop]
  simp only [hright, shorter?_some hlength]
  rfl

theorem readOn_question {whenTrue whenFalse : Expr} {others : List Lexeme} (hlevel : level ≤ 2)
    (hlimit : 2 ≤ limit) (htrue : read 1 lexemes = some (whenTrue, .mark .colon :: others))
    (hfalse : read 1 others = some (whenFalse, rest)) (hothers : others.length < lexemes.length)
    (hlength : rest.length < lexemes.length) :
    readOn level limit left (.mark .question :: lexemes) =
      readOn level 1 (.conditional left whenTrue whenFalse) rest := by
  rw [readOn.eq_def]
  dsimp only
  rw [if_neg (by simp only [Lexeme.binding]; omega)]
  simp only [Lexeme.operator?, htrue, followedBy_some, shorter?_some hothers, hfalse,
    shorter?_some hlength, Option.bind_eq_bind, Option.bind_some]

theorem readOn_cast {ty : Ty} (hlevel : level ≤ 4) (hlimit : 4 ≤ limit)
    (hty : readTy lexemes = some (ty, rest)) (hlength : rest.length < lexemes.length) :
    readOn level limit left (.word "as" :: lexemes) = readOn level 4 (.cast left ty) rest := by
  rw [readOn.eq_def]
  dsimp only
  rw [if_neg (by simp only [Lexeme.binding, if_pos]; omega)]
  simp only [Lexeme.operator?, hty, shorter?_some hlength, Option.bind_eq_bind, Option.bind_some]

theorem readOn_call {args : List Expr} (hlevel : level ≤ 7)
    (hargs : readListed .parenClose lexemes.length (fun part _ => read 1 part) lexemes
      (Nat.le_refl _) = some (args, rest)) (hlength : rest.length < lexemes.length) :
    readOn level 7 left (.mark .parenOpen :: lexemes) = readOn level 7 (.call left args) rest := by
  rw [readOn.eq_def]
  dsimp only
  rw [if_neg (by simp only [Lexeme.binding]; omega)]
  simp only [Lexeme.operator?, hargs, shorter?_some hlength, Option.bind_eq_bind,
    Option.bind_some]

theorem readOn_access {property : String} {lexeme : Lexeme} (hlevel : level ≤ 7)
    (haccess : readProperty (lexeme :: lexemes) = some (property, rest))
    (hlength : rest.length < lexemes.length) :
    readOn level 7 left (lexeme :: lexemes) = readOn level 7 (.member left property) rest := by
  have hmark : lexeme = .mark .dot ∨ lexeme = .mark .bracketOpen := by
    unfold readProperty at haccess
    split at haccess <;> cases haccess <;> simp_all
  rw [readOn.eq_def]
  dsimp only
  rw [if_neg (by rcases hmark with rfl | rfl <;> simp only [Lexeme.binding] <;> omega)]
  rcases hmark with rfl | rfl
  all_goals
    simp only [Lexeme.operator?, haccess, shorter?_some hlength, Option.bind_eq_bind,
      Option.bind_some]

end SchemaWire.TypeScript
