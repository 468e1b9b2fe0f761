import SchemaWire.Proofs.Reading.ExprReader

/-!
Expressions that need no parentheses. Each operand binds at least as tight as the operator around it
asks for. The main statement is that such an expression is read back from its lexemes as it was,
with its types as they are spelled, whatever comes after it as long as that does not bind tighter.
-/
namespace SchemaWire.TypeScript

/-! The lexemes of parameters and expressions, in the order in which they are printed. -/

def Binder.lexemes : Binder → List Lexeme
  | .variable name => [.word name]
  | .items names => .mark .bracketOpen ::
      (separated .comma (names.map fun name => [.word name]) ++ [.mark .bracketClose])

def Param.lexemes (param : Param) : List Lexeme :=
  match param.ty with
  | some ty => param.binder.lexemes ++ .mark .colon :: ty.lexemes
  | none => param.binder.lexemes

def keyLexeme (key : String) : Lexeme :=
  if isBareName key then .word key else .string key

def accessLexemes (property : String) : List Lexeme :=
  if isBareName property then [.mark .dot, .word property]
  else [.mark .bracketOpen, .string property, .mark .bracketClose]

def argumentLexemes (args : List (List Lexeme)) : List Lexeme :=
  .mark .parenOpen :: (separated .comma args ++ [.mark .parenClose])

def BinaryOp.mark : BinaryOp → Mark
  | .strictEqual => .strictEqual
  | .times => .times
  | .divide => .divide

mutual
/-- The lexemes of an expression. Those that are not read have none. -/
@[simp] def Expr.lexemes : Expr → List Lexeme
  | .ident name => [.word name]
  | .literal value => [value.lexeme]
  | .call callee args => callee.lexemes ++ argumentLexemes (Expr.lexemesAll args)
  | .construct callee args =>
      .word "new" :: (callee.lexemes ++ argumentLexemes (Expr.lexemesAll args))
  | .arrow params body =>
      argumentLexemes (params.map Param.lexemes) ++ .mark .arrow :: body.lexemes
  | .object entries =>
      .mark .braceOpen :: (separated .comma (Expr.entryLexemes entries) ++ [.mark .braceClose])
  | .member owner property => owner.lexemes ++ accessLexemes property
  | .binary left op right => left.lexemes ++ .mark op.mark :: right.lexemes
  | .conditional condition whenTrue whenFalse => condition.lexemes ++ .mark .question ::
      (whenTrue.lexemes ++ .mark .colon :: whenFalse.lexemes)
  | .array items =>
      .mark .bracketOpen :: (separated .comma (Expr.lexemesAll items) ++ [.mark .bracketClose])
  | .cast value ty => value.lexemes ++ .word "as" :: ty.lexemes
  | .optionalMember _ _ | .template _ | .await _ | .negate _ | .raw _ => []

def Expr.lexemesAll : List Expr → List (List Lexeme)
  | [] => []
  | value :: rest => value.lexemes :: Expr.lexemesAll rest

def Expr.entryLexemes : List ObjectEntry → List (List Lexeme)
  | [] => []
  | .property key value :: rest =>
      (keyLexeme key :: .mark .colon :: value.lexemes) :: Expr.entryLexemes rest
  | .spread _ :: rest => Expr.entryLexemes rest
end

def Param.spelled (param : Param) : Param :=
  ⟨param.binder, param.ty.map Ty.spelled, param.optional⟩

mutual
/-- The expression with its types as they are spelled. -/
@[simp] def Expr.spelled : Expr → Expr
  | .ident name => .ident name
  | .literal value => .literal value
  | .call callee args => .call callee.spelled (Expr.spelledAll args)
  | .construct callee args => .construct callee.spelled (Expr.spelledAll args)
  | .arrow params body => .arrow (params.map Param.spelled) body.spelled
  | .object entries => .object (Expr.spelledEntries entries)
  | .member owner property => .member owner.spelled property
  | .optionalMember owner property => .optionalMember owner.spelled property
  | .template parts => .template (Expr.spelledParts parts)
  | .await value => .await value.spelled
  | .negate value => .negate value.spelled
  | .binary left op right => .binary left.spelled op right.spelled
  | .conditional condition whenTrue whenFalse =>
      .conditional condition.spelled whenTrue.spelled whenFalse.spelled
  | .array items => .array (Expr.spelledAll items)
  | .cast value ty => .cast value.spelled ty.spelled
  | .raw text => .raw text

def Expr.spelledAll : List Expr → List Expr
  | [] => []
  | value :: rest => value.spelled :: Expr.spelledAll rest

/-- The entries of an object literal with their types as they are spelled. -/
def Expr.spelledEntries : List ObjectEntry → List ObjectEntry
  | [] => []
  | .property key value :: rest => .property key value.spelled :: Expr.spelledEntries rest
  | .spread value :: rest => .spread value.spelled :: Expr.spelledEntries rest

/-- The parts of a template literal with their types as they are spelled. -/
def Expr.spelledParts : List TemplatePart → List TemplatePart
  | [] => []
  | .text value :: rest => .text value :: Expr.spelledParts rest
  | .hole value :: rest => .hole value.spelled :: Expr.spelledParts rest
end

namespace Expr

theorem lexemesAll_eq_map (values : List Expr) : lexemesAll values = values.map lexemes := by
  induction values with
  | nil => rfl
  | cons value rest ih => rw [lexemesAll, ih, List.map_cons]

theorem spelledAll_eq_map (values : List Expr) : spelledAll values = values.map spelled := by
  induction values with
  | nil => rfl
  | cons value rest ih => rw [spelledAll, ih, List.map_cons]

/-- How tight an expression holds together. -/
def level : Expr → Nat
  | .arrow _ _ | .conditional _ _ _ => 1
  | .binary _ op _ => op.level
  | .cast _ _ => 4
  | .literal (.int _) | .await _ | .negate _ => 6
  | _ => 7

end Expr

/-- A binder of identifiers. -/
def Binder.Plain : Binder → Prop
  | .variable name => isIdentifier name = true
  | .items names => ∀ name ∈ names, isIdentifier name = true

/-- A required parameter that binds identifiers and has one of the given types if it has one. -/
structure Param.Plain (types : Ty → Prop) (param : Param) : Prop where
  required : param.optional = false
  binder : param.binder.Plain
  ty : ∀ ty ∈ param.ty, types ty

/-- An expression whose operands need no parentheses. The types in it are among the given
ones. -/
inductive Expr.Clear (types : Ty → Prop) : Expr → Prop where
  | ident {name : String} (hname : isIdentifier name = true) : Clear types (.ident name)
  | literal (value : Literal) : Clear types (.literal value)
  | call {callee : Expr} {args : List Expr} (hcallee : Clear types callee)
      (hlevel : callee.level = 7) (hargs : ∀ arg ∈ args, Clear types arg) :
      Clear types (.call callee args)
  | construct {name : String} {args : List Expr} (hname : isIdentifier name = true)
      (hargs : ∀ arg ∈ args, Clear types arg) : Clear types (.construct (.ident name) args)
  | arrow {params : List Param} {body : Expr} (hparams : ∀ param ∈ params, param.Plain types)
      (hbody : Clear types body) (hstart : body.lexemes.head? ≠ some (.mark .braceOpen)) :
      Clear types (.arrow params body)
  | object {fields : List (String × Expr)} (hfields : ∀ field ∈ fields, Clear types field.2) :
      Clear types (.object (fields.map fun field => .property field.1 field.2))
  | member {owner : Expr} (howner : Clear types owner) (hlevel : owner.level = 7)
      (property : String) : Clear types (.member owner property)
  | binary {left right : Expr} {op : BinaryOp} (hleft : Clear types left)
      (hright : Clear types right) (hlevel : op.level ≤ left.level)
      (htighter : op.level < right.level) : Clear types (.binary left op right)
  | conditional {condition whenTrue whenFalse : Expr} (hcondition : Clear types condition)
      (htrue : Clear types whenTrue) (hfalse : Clear types whenFalse)
      (hlevel : 2 ≤ condition.level) : Clear types (.conditional condition whenTrue whenFalse)
  | array {items : List Expr} (hitems : ∀ item ∈ items, Clear types item) :
      Clear types (.array items)
  | cast {value : Expr} {ty : Ty} (hvalue : Clear types value) (hlevel : 4 ≤ value.level)
      (hty : types ty) : Clear types (.cast value ty)

variable {names : String → Prop} {lexemes rest : List Lexeme} {level limit bound : Nat}

/-! Reading parameters. -/

theorem readIdentifier_word {name : String} (h : isIdentifier name = true) :
    readIdentifier (.word name :: rest) = some (name, rest) :=
  if_pos h

theorem Binder.Plain.reads {binder : Binder} (h : binder.Plain) (rest : List Lexeme) :
    readBinder (binder.lexemes ++ rest) = some (binder, rest) := by
  match binder, h with
  | .variable name, hname =>
      have hread : readIdentifier (.word name :: rest) = some (name, rest) :=
        readIdentifier_word hname
      simp [Binder.lexemes, readBinder, hread]
  | .items names, hnames =>
      rw [Binder.lexemes, List.cons_append, List.append_assoc, List.singleton_append, readBinder,
        readList, readListed_separated (by decide) (fun rest _ => rfl)
          (fun name hmem mark _ rest _ => readIdentifier_word (hnames name hmem)) rfl]
      simp

theorem Param.Plain.reads {param : Param} (h : param.Plain (Ty.Plain names)) (hrest : EndsTy rest)
    (hcolon : rest.head? ≠ some (.mark .colon)) :
    readParam (param.lexemes ++ rest) = some (param.spelled, rest) := by
  obtain ⟨binder, ty, optional⟩ := param
  obtain rfl : optional = false := h.required
  cases ty with
  | some ty =>
      have hty := Ty.readTy_lexemes (h.ty ty rfl) hrest
      rw [Param.lexemes, List.append_assoc, List.cons_append, readParam, h.binder.reads]
      simp [hty, Param.spelled]
  | none =>
      rw [Param.lexemes, readParam, h.binder.reads]
      simp [afterMark?_eq_none hcolon, Param.spelled]

theorem readParams_lexemes {params : List Param}
    (h : ∀ param ∈ params, param.Plain (Ty.Plain names))
    (rest : List Lexeme) :
    readParams (separated .comma (params.map Param.lexemes) ++
      .mark .parenClose :: .mark .arrow :: rest) = some (params.map Param.spelled, rest) := by
  have hone : ∀ param ∈ params, ∀ mark : Mark, mark = .comma ∨ mark = .parenClose → ∀ rest,
      readParam (param.lexemes ++ .mark mark :: rest) =
        some (param.spelled, .mark mark :: rest) := by
    rintro param hmem mark (rfl | rfl) rest <;>
      exact (h param hmem).reads ⟨by simp, by simp⟩ (by simp)
  rw [readParams, readList, readListed_separated (by decide) (fun rest _ => rfl)
    (fun param hmem mark hmark rest _ => hone param hmem mark hmark rest) rfl, followedBy_some]

theorem Param.Plain.spelled_eq {param : Param} (h : param.Plain Ty.Proper) :
    param.spelled = param := by
  obtain ⟨binder, ty, optional⟩ := param
  cases ty with
  | none => rfl
  | some ty => simp [Param.spelled, (h.ty ty rfl).spelled_eq]

/-! Reading the operands of an expression. -/

namespace Expr

/-- The expression is read back where nothing after it binds tighter than itself, and reading goes
on from there. -/
def ReadsBack (expr : Expr) : Prop :=
  ∀ (level : Nat) (rest : List Lexeme), level ≤ expr.level → Loose (expr.level + 1) rest →
    read level (expr.lexemes ++ rest) = readOn level expr.level expr.spelled rest

theorem one_le_level (expr : Expr) : 1 ≤ expr.level := by
  cases expr with
  | binary left op right => cases op <;> simp [level, BinaryOp.level]
  | literal value => cases value <;> simp [level]
  | _ => simp [level]

variable {expr : Expr}

theorem ReadsBack.operand (h : expr.ReadsBack) (hlevel : level ≤ expr.level)
    (hrest : Loose level rest) : read level (expr.lexemes ++ rest) = some (expr.spelled, rest) :=
  (h level rest hlevel (hrest.mono (Nat.le_succ_of_le hlevel))).trans (readOn_loose _ hrest)

theorem ReadsBack.whole (h : expr.ReadsBack) (hrest : Loose 1 rest) :
    read 1 (expr.lexemes ++ rest) = some (expr.spelled, rest) :=
  h.operand expr.one_le_level hrest

theorem read_close {mark : Mark} (h : mark = .parenClose ∨ mark = .bracketClose)
    (rest : List Lexeme) : read level (.mark mark :: rest) = none := by
  rw [read.eq_def]
  rcases h with rfl | rfl <;> rw [readFirst] <;> simp [shorter?]

/-- Expressions between commas are read back up to the mark that closes them. -/
theorem readListed_exprs {values : List Expr} {close : Mark}
    (hclose : close = .parenClose ∨ close = .bracketClose)
    (h : ∀ value ∈ values, value.ReadsBack)
    (heq : separated .comma (lexemesAll values) ++ .mark close :: rest = lexemes)
    (hbound : lexemes.length ≤ bound) :
    readListed close bound (fun part _ => read 1 part) lexemes hbound =
      some (spelledAll values, rest) := by
  rw [lexemesAll_eq_map] at heq
  rw [spelledAll_eq_map]
  refine readListed_separated (by rcases hclose with rfl | rfl <;> decide)
    (fun rest _ => read_close hclose rest) (fun value hmem mark hmark rest _ => ?_) heq hbound
  refine (h value hmem).whole (loose_mark ?_)
  rcases hmark with rfl | rfl
  · decide
  · rcases hclose with rfl | rfl <;> decide

theorem argumentLexemes_append (args : List (List Lexeme)) (rest : List Lexeme) :
    argumentLexemes args ++ rest =
      .mark .parenOpen :: (separated .comma args ++ .mark .parenClose :: rest) := by
  simp [argumentLexemes]

theorem readsBack_of_first
    (hfirst : ∀ level rest, level ≤ expr.level → Loose (expr.level + 1) rest →
      readFirst level (expr.lexemes ++ rest) = some ((expr.spelled, expr.level), rest))
    (hne : expr.lexemes ≠ []) : expr.ReadsBack := by
  intro level rest hlevel hrest
  refine read_first (hfirst level rest hlevel hrest) ?_
  rw [List.length_append]
  exact Nat.lt_add_of_pos_left (List.length_pos_of_ne_nil hne)

theorem ofWord?_of_isIdentifier {name : String} (h : isIdentifier name = true) :
    ofWord? name = some (.ident name) := by
  unfold ofWord?
  split
  · exact absurd h (by decide)
  · exact absurd h (by decide)
  · exact absurd h (by decide)
  · exact if_pos h

theorem readsBack_ident {name : String} (h : isIdentifier name = true) :
    (Expr.ident name).ReadsBack := by
  have hnew : name ≠ "new" := by
    rintro rfl
    exact absurd h (by decide)
  refine readsBack_of_first (fun level rest _ _ => ?_) (by simp [lexemes])
  simp [lexemes, readFirst, hnew, ofWord?_of_isIdentifier h, spelled, Expr.level]

theorem readsBack_literal (value : Literal) : (Expr.literal value).ReadsBack := by
  refine readsBack_of_first (fun level rest _ _ => ?_) (by simp [lexemes])
  cases value with
  | bool value =>
      cases value <;>
        simp [lexemes, Literal.lexeme, readFirst, ofWord?, spelled, Expr.level]
  | _ => simp [lexemes, Literal.lexeme, readFirst, ofWord?, spelled, Expr.level]

theorem readsBack_array {items : List Expr} (h : ∀ item ∈ items, item.ReadsBack) :
    (Expr.array items).ReadsBack := by
  refine readsBack_of_first (fun level rest _ _ => ?_) (by simp [lexemes])
  rw [lexemes, List.cons_append, List.append_assoc, List.singleton_append, readFirst,
    readListed_exprs (Or.inr rfl) h rfl]
  rfl

theorem readCallee_name {name : String} (h : isIdentifier name = true) (rest : List Lexeme) :
    readCallee (.word name :: .mark .parenOpen :: rest) = some (.ident name, rest) := by
  have haccesses : readAccesses (.ident name) (.mark .parenOpen :: rest) =
      (.ident name, .mark .parenOpen :: rest) := by
    rw [readAccesses]
    rfl
  simp [readCallee, readIdentifier_word h, haccesses, followedBy_some]

theorem readsBack_construct {name : String} {args : List Expr} (hname : isIdentifier name = true)
    (hargs : ∀ arg ∈ args, arg.ReadsBack) : (Expr.construct (.ident name) args).ReadsBack := by
  refine readsBack_of_first (fun level rest _ _ => ?_) (by simp [lexemes])
  have hargs := readListed_exprs (Or.inl rfl) hargs
    (rfl : separated .comma (lexemesAll args) ++ .mark .parenClose :: rest = _) (Nat.le_refl _)
  rw [lexemes, lexemes, List.cons_append, List.append_assoc, argumentLexemes_append,
    List.singleton_append, readFirst, if_pos rfl, readCallee_name hname,
    shorter?_some (by simp only [List.length_append, List.length_cons]; omega)]
  simp only [Option.bind_eq_bind, Option.bind_some, hargs]
  rfl

theorem readsBack_arrow {params : List Param} {body : Expr}
    (hparams : ∀ param ∈ params, param.Plain (Ty.Plain names)) (hbody : body.ReadsBack)
    (hstart : body.lexemes.head? ≠ some (.mark .braceOpen)) (hne : body.lexemes ≠ []) :
    (Expr.arrow params body).ReadsBack := by
  refine readsBack_of_first (fun level rest hle hrest => ?_) (by simp [lexemes, argumentLexemes])
  have hhead : (body.lexemes ++ rest).head? ≠ some (.mark .braceOpen) := by
    rwa [List.head?_append_of_ne_nil _ hne]
  rw [lexemes, List.append_assoc, argumentLexemes_append, List.cons_append, readFirst,
    readParams_lexemes hparams, shorter?_some (by simp; omega)]
  simp only [hhead, ne_eq, not_false_eq_true, and_true, if_pos (show level ≤ 1 from hle),
    hbody.whole hrest.one]
  rfl

theorem entryLexemes_eq_map (fields : List (String × Expr)) :
    entryLexemes (fields.map fun field => .property field.1 field.2) =
      fields.map fun field => keyLexeme field.1 :: .mark .colon :: field.2.lexemes := by
  induction fields with
  | nil => rfl
  | cons field rest ih => rw [List.map_cons, entryLexemes, ih, List.map_cons]

theorem spelledEntries_eq_map (fields : List (String × Expr)) :
    spelledEntries (fields.map fun field => .property field.1 field.2) =
      fields.map fun field => .property field.1 field.2.spelled := by
  induction fields with
  | nil => rfl
  | cons field rest ih => rw [List.map_cons, spelledEntries, ih, List.map_cons]

theorem readEntry_key {key : String} {value : Expr} (h : value.ReadsBack) (hrest : Loose 1 rest) :
    readEntry (keyLexeme key :: .mark .colon :: (value.lexemes ++ rest)) =
      some (.property key value.spelled, rest) := by
  have hkey : (keyLexeme key).key? = some key := by
    unfold keyLexeme
    split <;> rfl
  rw [readEntry, hkey, h.whole hrest]
  rfl

theorem readEntry_close (rest : List Lexeme) : readEntry (.mark .braceClose :: rest) = none := by
  rw [readEntry.eq_def]
  split
  · rename_i heq
    cases heq
    rfl
  · rfl

theorem readsBack_object {fields : List (String × Expr)}
    (h : ∀ field ∈ fields, field.2.ReadsBack) :
    (Expr.object (fields.map fun field => .property field.1 field.2)).ReadsBack := by
  refine readsBack_of_first (fun level rest _ _ => ?_) (by simp [lexemes])
  have hone : ∀ field ∈ fields, ∀ mark : Mark, mark = .comma ∨ mark = .braceClose → ∀ rest,
      readEntry (keyLexeme field.1 :: .mark .colon :: field.2.lexemes ++ .mark mark :: rest) =
        some (.property field.1 field.2.spelled, .mark mark :: rest) := by
    rintro field hmem mark (rfl | rfl) rest <;>
      exact readEntry_key (h field hmem) (loose_mark (by decide))
  rw [lexemes, List.cons_append, List.append_assoc, List.singleton_append, entryLexemes_eq_map,
    readFirst, readListed_separated (by decide) (fun rest _ => readEntry_close rest)
      (fun field hmem mark hmark rest _ => hone field hmem mark hmark rest) rfl, spelled,
    spelledEntries_eq_map]
  rfl

theorem readsBack_call {callee : Expr} {args : List Expr} (hcallee : callee.ReadsBack)
    (hlevel : callee.level = 7) (hargs : ∀ arg ∈ args, arg.ReadsBack) :
    (Expr.call callee args).ReadsBack := by
  intro level rest hle _
  rw [lexemes, List.append_assoc, argumentLexemes_append, hcallee level _ (hlevel ▸ hle)
    (loose_mark (by rw [hlevel]; decide)), hlevel]
  exact readOn_call hle (readListed_exprs (Or.inl rfl) hargs rfl _) (by simp; omega)

theorem readsBack_member {owner : Expr} (howner : owner.ReadsBack) (hlevel : owner.level = 7)
    (property : String) : (Expr.member owner property).ReadsBack := by
  intro level rest hle _
  have hloose : Loose 8 (accessLexemes property ++ rest) := by
    unfold accessLexemes
    split <;> exact loose_mark (by decide)
  rw [lexemes, List.append_assoc, howner level _ (hlevel ▸ hle) (hlevel ▸ hloose), hlevel]
  unfold accessLexemes
  split
  · exact readOn_access hle rfl (Nat.lt_succ_self _)
  · exact readOn_access hle rfl (Nat.lt_succ_of_lt (Nat.lt_succ_self _))

theorem readsBack_binary {left right : Expr} {op : BinaryOp} (hleft : left.ReadsBack)
    (hright : right.ReadsBack) (hlevel : op.level ≤ left.level) (htighter : op.level < right.level)
    (hne : right.lexemes ≠ []) : (Expr.binary left op right).ReadsBack := by
  intro level rest hle hrest
  have hbinding : (Lexeme.mark op.mark).binding = op.level := by cases op <;> rfl
  have hop : (Lexeme.mark op.mark).operator? = some op := by cases op <;> rfl
  rw [lexemes, List.append_assoc, List.cons_append, hleft level _ (Nat.le_trans hle hlevel)
    (loose_mark (by rw [hbinding]; omega))]
  refine readOn_operator hop hle hlevel (hright.operand htighter hrest) ?_
  rw [List.length_append]
  exact Nat.lt_add_of_pos_left (List.length_pos_of_ne_nil hne)

theorem readsBack_conditional {condition whenTrue whenFalse : Expr}
    (hcondition : condition.ReadsBack) (htrue : whenTrue.ReadsBack) (hfalse : whenFalse.ReadsBack)
    (hlevel : 2 ≤ condition.level) (hne : whenFalse.lexemes ≠ []) :
    (Expr.conditional condition whenTrue whenFalse).ReadsBack := by
  intro level rest hle hrest
  have hle : level ≤ 1 := hle
  rw [lexemes, List.append_assoc, List.cons_append, List.append_assoc, List.cons_append,
    hcondition level _ (by omega) (loose_mark (by simp only [Lexeme.binding]; omega))]
  refine readOn_question (by omega) hlevel (htrue.whole (loose_mark (by decide)))
    (hfalse.whole hrest.one) (by simp; omega) ?_
  have hlength := List.length_pos_of_ne_nil hne
  simp only [List.length_append, List.length_cons]
  omega

theorem readsBack_cast {value : Expr} {ty : Ty} (hvalue : value.ReadsBack)
    (hlevel : 4 ≤ value.level) (hty : ty.Plain names) : (Expr.cast value ty).ReadsBack := by
  intro level rest hle hrest
  have has : Loose (value.level + 1) (.word "as" :: (ty.lexemes ++ rest)) := by
    rintro lexeme hmem
    cases hmem
    exact Nat.lt_succ_of_le hlevel
  rw [lexemes, List.append_assoc, List.cons_append, hvalue level _ (Nat.le_trans hle hlevel) has]
  have hloosest : (Expr.cast value ty).level + 1 ≤ 8 := by simp [Expr.level]
  refine readOn_cast hle hlevel (Ty.readTy_lexemes hty (hrest.endsTy hloosest)) ?_
  rw [List.length_append]
  exact Nat.lt_add_of_pos_left (List.length_pos_of_ne_nil hty.lexemes_ne_nil)

/-- An expression that needs no parentheses is read back. -/
theorem Clear.readsBack (h : expr.Clear (Ty.Plain names)) : expr.ReadsBack ∧ expr.lexemes ≠ [] := by
  induction h with
  | ident hname => exact ⟨readsBack_ident hname, by simp [lexemes]⟩
  | literal value => exact ⟨readsBack_literal value, by simp [lexemes]⟩
  | call hcallee hlevel hargs ihCallee ihArgs =>
      exact ⟨readsBack_call ihCallee.1 hlevel fun arg hmem => (ihArgs arg hmem).1,
        by simp [lexemes, argumentLexemes]⟩
  | construct hname hargs ih =>
      exact ⟨readsBack_construct hname fun arg hmem => (ih arg hmem).1, by simp [lexemes]⟩
  | arrow hparams hbody hstart ih =>
      exact ⟨readsBack_arrow hparams ih.1 hstart ih.2, by simp [lexemes]⟩
  | object hfields ih =>
      exact ⟨readsBack_object fun field hmem => (ih field hmem).1, by simp [lexemes]⟩
  | member howner hlevel property ih =>
      exact ⟨readsBack_member ih.1 hlevel property, by simp [lexemes, ih.2]⟩
  | binary hleft hright hlevel htighter ihLeft ihRight =>
      exact ⟨readsBack_binary ihLeft.1 ihRight.1 hlevel htighter ihRight.2, by simp [lexemes]⟩
  | conditional hcondition htrue hfalse hlevel ihCondition ihTrue ihFalse =>
      exact ⟨readsBack_conditional ihCondition.1 ihTrue.1 ihFalse.1 hlevel ihFalse.2,
        by simp [lexemes]⟩
  | array hitems ih =>
      exact ⟨readsBack_array fun item hmem => (ih item hmem).1, by simp [lexemes]⟩
  | cast hvalue hlevel hty ih => exact ⟨readsBack_cast ih.1 hlevel hty, by simp [lexemes]⟩

/-- An expression is spelled as it is where all its types can be told from their texts. -/
theorem Clear.spelled_eq (h : expr.Clear Ty.Proper) : expr.spelled = expr := by
  have all {values : List Expr} (h : ∀ value ∈ values, value.spelled = value) :
      spelledAll values = values := by
    rw [spelledAll_eq_map, List.map_congr_left h, List.map_id']
  induction h with
  | ident hname => rfl
  | literal value => rfl
  | call hcallee hlevel hargs ihCallee ihArgs => rw [spelled, ihCallee, all ihArgs]
  | construct hname hargs ih => rw [spelled, spelled, all ih]
  | arrow hparams hbody hstart ih =>
      rw [spelled, ih, List.map_congr_left fun param hmem =>
        (hparams param hmem).spelled_eq, List.map_id']
  | object hfields ih =>
      rw [spelled, spelledEntries_eq_map]
      exact congrArg Expr.object (List.map_congr_left fun field hmem => by rw [ih field hmem])
  | member howner hlevel property ih => rw [spelled, ih]
  | binary hleft hright hlevel htighter ihLeft ihRight => rw [spelled, ihLeft, ihRight]
  | conditional hcondition htrue hfalse hlevel ihCondition ihTrue ihFalse =>
      rw [spelled, ihCondition, ihTrue, ihFalse]
  | array hitems ih => rw [spelled, all ih]
  | cast hvalue hlevel hty ih => rw [spelled, ih, hty.spelled_eq]

end Expr

end SchemaWire.TypeScript
