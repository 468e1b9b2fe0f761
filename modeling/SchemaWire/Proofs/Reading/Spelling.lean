import SchemaWire.Proofs.Reading.ReadBack

/-!
Reading what is printed. The text of an expression that needs no parentheses is cut into the lexemes
of its parts, so that the expression is read back from its text.
-/
namespace SchemaWire.TypeScript

variable {names : String → Prop}

namespace Expr

theorem spells_all {values : List Expr} (h : ∀ value ∈ values, Spells value.print value.lexemes) :
    Spells (joinWith ", " (printAll values)) (separated .comma (lexemesAll values)) := by
  rw [printAll_eq_map, lexemesAll_eq_map]
  exact spells_listed
    (List.forall₂_map_left_iff.mpr (List.forall₂_map_right_iff.mpr (List.forall₂_same.mpr h)))

end Expr

/-- Texts between brackets, which need no blanks. -/
theorem closed_between {first last text : String} {opening closing : Mark} {lexemes : List Lexeme}
    (hfirst : Closed first [.mark opening]) (htext : Spells text lexemes)
    (hlast : Closed last [.mark closing]) (hbreaks : ∀ rest, Breaks (last.toList ++ rest)) :
    Closed (first ++ text ++ last) (.mark opening :: (lexemes ++ [.mark closing])) :=
  (hfirst.append_spells htext).append hlast hbreaks

theorem closed_arguments {text : String} {parts : List (List Lexeme)}
    (h : Spells text (separated .comma parts)) :
    Closed ("(" ++ text ++ ")") (argumentLexemes parts) :=
  closed_between (closed_mark rfl rfl) h (closed_mark rfl rfl) (breaks_of_head rfl (by decide))

theorem Binder.Plain.spells {binder : Binder} (h : binder.Plain) :
    Spells binder.print binder.lexemes := by
  match binder, h with
  | .variable name, hname => exact spells_word (isBareName_of_isIdentifier hname)
  | .items names, hnames =>
      have hwords : List.Forall₂ Spells names (names.map fun name => [.word name]) :=
        List.forall₂_map_right_iff.mpr (List.forall₂_same.mpr fun name hmem =>
          spells_word (isBareName_of_isIdentifier (hnames name hmem)))
      exact (closed_between (closed_mark rfl rfl) (spells_listed hwords) (closed_mark rfl rfl)
        (breaks_of_head rfl (by decide))).spells

theorem Param.Plain.spells {param : Param} (h : param.Plain (Ty.Plain names)) :
    Spells param.print param.lexemes := by
  obtain ⟨binder, ty, optional⟩ := param
  obtain rfl : optional = false := h.required
  have hbinder := h.binder.spells
  cases ty with
  | some ty =>
      have hcolon : Closed ": " [.mark .colon] := closed_mark_blank rfl rfl
      have htyped := (hbinder.append hcolon (breaks_of_head rfl (by decide))).append_spells
        (h.ty ty rfl).spells
      simpa [Param.print, Param.lexemes] using htyped
  | none => simpa [Param.print, Param.lexemes] using hbinder

theorem spells_access {owner : String} {lexemes : List Lexeme} (howner : Spells owner lexemes)
    (property : String) :
    Spells (memberAccess owner property) (lexemes ++ accessLexemes property) := by
  unfold memberAccess accessLexemes
  split
  · rename_i hbare
    have hdot : Closed "." [.mark .dot] := closed_mark rfl rfl
    have hname := (howner.append hdot (breaks_of_head rfl (by decide))).append_spells
      (spells_word hbare)
    simpa using hname
  · have hopen : Closed "[" [.mark .bracketOpen] := closed_mark rfl rfl
    have hclose : Closed "]" [.mark .bracketClose] := closed_mark rfl rfl
    have hindex := ((howner.append hopen (breaks_of_head rfl (by decide))).append
      (closed_string property)).append hclose
    simpa using hindex.spells

theorem spells_key (key : String) : Spells (propertyKey key) [keyLexeme key] := by
  unfold propertyKey keyLexeme
  split
  · rename_i hbare
    exact spells_word hbare
  · exact (closed_string key).spells

theorem BinaryOp.closed_print (op : BinaryOp) :
    Closed (" " ++ op.print ++ " ") [.mark op.mark] := by
  cases op
  · exact closed_operator '=' ['=', '='] rfl rfl
  · exact closed_operator '*' [] rfl rfl
  · exact closed_operator '/' [] rfl rfl

namespace Expr

theorem spells_call {callee : String} {lexemes : List Lexeme} {args : List Expr}
    (hcallee : Spells callee lexemes) (hargs : ∀ arg ∈ args, Spells arg.print arg.lexemes) :
    Spells (callee ++ "(" ++ joinWith ", " (printAll args) ++ ")")
      (lexemes ++ argumentLexemes (lexemesAll args)) := by
  have harguments := closed_arguments (spells_all hargs)
  have hcall := hcallee.append harguments (breaks_of_head (c := '(') (by simp) (by decide))
  simpa only [String.append_assoc] using hcall.spells

theorem printEntries_eq_map (fields : List (String × Expr)) :
    printEntries (fields.map fun field => .property field.1 field.2) =
      fields.map fun field => propertyKey field.1 ++ ": " ++ field.2.print := by
  induction fields with
  | nil => rfl
  | cons field rest ih => rw [List.map_cons, printEntries, ih, List.map_cons]

theorem spells_object {fields : List (String × Expr)}
    (h : ∀ field ∈ fields, Spells field.2.print field.2.lexemes) :
    Spells (Expr.object (fields.map fun field => .property field.1 field.2)).print
      (Expr.object (fields.map fun field => .property field.1 field.2)).lexemes := by
  have hcolon : Closed ": " [.mark .colon] := closed_mark_blank rfl rfl
  have hentries : List.Forall₂ Spells
      (fields.map fun field => propertyKey field.1 ++ ": " ++ field.2.print)
      (fields.map fun field => keyLexeme field.1 :: .mark .colon :: field.2.lexemes) := by
    refine List.forall₂_map_left_iff.mpr (List.forall₂_map_right_iff.mpr
      (List.forall₂_same.mpr fun field hmem => ?_))
    exact ((spells_key field.1).append hcolon (breaks_of_head rfl (by decide))).append_spells
      (h field hmem)
  cases fields with
  | nil =>
      have hopen : Closed "\x7b" [.mark .braceOpen] := closed_mark rfl rfl
      have hclose : Closed "\x7d" [.mark .braceClose] := closed_mark rfl rfl
      exact (hopen.append hclose).spells
  | cons field rest =>
      have hopen : Closed "\x7b " [.mark .braceOpen] := closed_mark_blank rfl rfl
      have hclose : Closed " \x7d" [.mark .braceClose] := closed_blank_mark rfl rfl
      have hprint :
          (Expr.object ((field :: rest).map fun field => .property field.1 field.2)).print =
          "\x7b " ++ joinWith ", " (printEntries ((field :: rest).map fun field =>
            .property field.1 field.2)) ++ " \x7d" := by
        rw [List.map_cons, print]
        exact List.cons_ne_nil _ _
      rw [hprint, lexemes, entryLexemes_eq_map, printEntries_eq_map]
      exact (closed_between hopen (spells_listed hentries) hclose
        (breaks_of_head rfl (by decide))).spells

theorem spells_arrow {params : List Param} {body : String} {lexemes : List Lexeme}
    (hparams : ∀ param ∈ params, param.Plain (Ty.Plain names)) (hbody : Spells body lexemes) :
    Spells ("(" ++ printParams params ++ ") => " ++ body)
      (argumentLexemes (params.map Param.lexemes) ++ .mark .arrow :: lexemes) := by
  have harrow : Closed " => " [.mark .arrow] := closed_operator '=' ['>'] rfl rfl
  have hlisted : List.Forall₂ Spells (params.map Param.print) (params.map Param.lexemes) :=
    List.forall₂_map_left_iff.mpr (List.forall₂_map_right_iff.mpr
      (List.forall₂_same.mpr fun param hmem => (hparams param hmem).spells))
  have hopened := ((closed_arguments (spells_listed hlisted)).append harrow).append_spells hbody
  simpa [printParams, String.append_assoc] using hopened

/-- The text of an expression that needs no parentheses is read as its lexemes. -/
theorem Clear.spells {expr : Expr} (h : expr.Clear (Ty.Plain names)) :
    Spells expr.print expr.lexemes := by
  induction h with
  | ident hname => exact spells_word (isBareName_of_isIdentifier hname)
  | literal value => exact spells_literal value
  | call hcallee hlevel hargs ihCallee ihArgs => exact spells_call ihCallee ihArgs
  | @construct name args hname hargs ih =>
      have hword : Spells "new" [.word "new"] := spells_word (by decide)
      have hnew : Closed "new " [.word "new"] := hword.append_blank
      have hname := spells_word (isBareName_of_isIdentifier hname)
      simpa [print, lexemes, String.append_assoc] using hnew.append_spells (spells_call hname ih)
  | @arrow params body hparams hbody hstart ih =>
      have hobject : body.isObject = false := by
        cases body <;> first | rfl | exact absurd rfl hstart
      rw [print, if_neg (by simp [hobject])]
      exact spells_arrow hparams ih
  | object hfields ih => exact spells_object ih
  | member howner hlevel property ih => exact spells_access ih property
  | @binary left right op hleft hright hlevel htighter ihLeft ihRight =>
      have hop := ihLeft.append op.closed_print (breaks_of_head (c := ' ') (by simp) (by decide))
      simpa [print, lexemes, String.append_assoc] using hop.append_spells ihRight
  | conditional hcondition htrue hfalse hlevel ihCondition ihTrue ihFalse =>
      have hquestion : Closed " ? " [.mark .question] := closed_operator '?' [] rfl rfl
      have hmark : Closed ":" [.mark .colon] := closed_mark rfl rfl
      have hcolon : Closed " : " [.mark .colon] := hmark.spells.between_blanks
      have htested := (ihCondition.append hquestion (breaks_of_head rfl (by decide))).append_spells
        ihTrue
      have hchosen := (htested.append hcolon (breaks_of_head rfl (by decide))).append_spells ihFalse
      simpa [print, lexemes] using hchosen
  | array hitems ih =>
      exact (closed_between (closed_mark rfl rfl) (spells_all ih) (closed_mark rfl rfl)
        (breaks_of_head rfl (by decide))).spells
  | cast hvalue hlevel hty ih =>
      have hword : Spells "as" [.word "as"] := spells_word (by decide)
      have has : Closed " as " [.word "as"] := hword.between_blanks
      have hcast := (ih.append has (breaks_of_head rfl (by decide))).append_spells hty.spells
      simpa [print, lexemes] using hcast

/-- An expression that needs no parentheses is read back from its text, with its types as they are
spelled. -/
theorem Clear.readExpr_print {expr : Expr} (h : expr.Clear (Ty.Plain names)) :
    readExpr expr.print = some expr.spelled := by
  have hlexemes : lexemes? expr.print.toList = some expr.lexemes := by
    simpa [lexemes?] using h.spells [] (by rintro c hc; cases hc)
  have hend : Loose 1 [] := by
    rintro lexeme hmem
    cases hmem
  have hread := h.readsBack.1.whole hend
  rw [List.append_nil] at hread
  rw [readExpr, hlexemes]
  simp [hread]

-- Without the parentheses that it needs, an expression is read as another one.
example : readExpr
    (Expr.member (.binary (.ident "a") .strictEqual (.ident "b")) "c").print =
      some (.binary (.ident "a") .strictEqual (.member (.ident "b") "c")) := by cbv

end Expr

end SchemaWire.TypeScript
