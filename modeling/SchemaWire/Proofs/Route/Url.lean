import SchemaWire.Proofs.Reading.Conversion
import SchemaWire.Proofs.Reading.TemplateText
import SchemaWire.Proofs.Route.Template

/-!
URLs as they are read. A URL without substitutions is written as a string literal, every other one
as a template literal. The main statement is that its text is read with the same substitutions in
the same places, and that its static text is read character for character unless a carriage return
stands in a template: a string literal escapes it, a template literal does not.
-/
namespace SchemaWire

open TypeScript (Expr Skips TemplatePart TextPiece readQuotation withFeeds)

/-! What stands in the substitutions. -/

theorem skips_convertDate {src : Expr} (h : Skips src.print) :
    Skips (convertDate src .toWire).print := by
  have hbare : TypeScript.isBareName "getTime" = true := by decide
  have htext : (convertDate src .toWire).print = src.print ++ ".getTime() / 1000" := by
    simp only [convertDate, methodCall, millisPerSecond, Expr.print, Expr.printAll,
      TypeScript.memberAccess, hbare, if_true, String.append_assoc]
    rfl
  rw [htext]
  exact h.append (TypeScript.skips_of_plain (by decide))

theorem skips_nullGuard {src body : Expr} (h : Skips src.print) (hbody : Skips body.print) :
    Skips (nullGuard src body).print := by
  have htext : (nullGuard src body).print = src.print ++ " === null ? null : " ++ body.print := by
    simp only [nullGuard, Expr.print, TypeScript.Literal.print, TypeScript.BinaryOp.print,
      String.append_assoc]
    rfl
  rw [htext]
  exact (h.append (TypeScript.skips_of_plain (by decide))).append hbody

namespace TypeIndex

/-- The text of a value of a URL path needs no parentheses and can stand in a substitution. -/
theorem clear_skips_of_isPathScalar (index : TypeIndex) {desc : Descriptor}
    (h : desc.isPathScalar = true) {src wire : Expr} {depth : Nat} (hsrc : src.IsAccess)
    (hskips : Skips src.print) (types : TypeScript.Ty → Prop)
    (hconvert : index.convert .toWire desc src depth = .ok (some wire)) :
    wire.Clear types ∧ Skips wire.print := by
  replace hconvert := convert_eq_some_iff.mp hconvert
  induction hconvert with
  | date src depth => exact ⟨(clear_convertDate hsrc .toWire).1, skips_convertDate hskips⟩
  | annotated _ ih => exact ih h hsrc hskips
  | optional _ ih =>
      obtain ⟨hclear, hbody⟩ := ih h hsrc hskips
      exact ⟨(clear_nullGuard hsrc hclear).1, skips_nullGuard hskips hbody⟩
  | _ => cases h

end TypeIndex

namespace RouteDef

variable {index : TypeIndex} {route : RouteDef} {matchInfo : Option ObjectType}

/-- A path parameter can stand in a substitution. -/
theorem fillsHole_encodedParam {name : String} {wire : Expr}
    (h : route.paramValue index matchInfo name = .ok wire) : (encodedParam wire).FillsHole := by
  obtain ⟨object, _, field, _, hscalar, hconverted⟩ := paramValue_eq_ok_iff.mp h
  have hsrc : (Expr.member (.ident "matchInfo") name).IsAccess :=
    (Expr.IsAccess.ident (by decide)).member name
  have hskips : Skips (Expr.member (.ident "matchInfo") name).print := by
    have howner : Skips "matchInfo" := TypeScript.skips_of_plain (by decide)
    exact howner.memberAccess name
  have hwire : wire.Clear TypeScript.Ty.Proper ∧ Skips wire.print := by
    rcases TypeIndex.convertOrKeep_eq_ok_iff.mp hconverted with hconvert | ⟨_, rfl⟩
    · exact index.clear_skips_of_isPathScalar hscalar hsrc hskips _ hconvert
    · exact ⟨hsrc.clear _, hskips⟩
  have hclear : (encodedParam wire).Clear TypeScript.Ty.Proper :=
    .call (.ident (by decide)) rfl (List.forall_mem_singleton.mpr
      (.call (.ident (by decide)) rfl (List.forall_mem_singleton.mpr hwire.1)))
  have htext : (encodedParam wire).print = "encodeURIComponent(String(" ++ wire.print ++ "))" := by
    simp only [encodedParam, callNamed, Expr.print, Expr.printAll, TypeScript.joinWith,
      String.append_assoc]
    rfl
  constructor
  · rw [htext]
    have hopen : Skips "encodeURIComponent(String(" := TypeScript.skips_of_plain (by decide)
    exact (hopen.append hwire.2).append (TypeScript.skips_of_plain (by decide))
  · rw [hclear.readExpr_print, hclear.spelled_eq]

/-- The parts of a path are its static texts and its parameters. -/
theorem mem_of_pathParts {segments : List PathSegment} {parts : List TemplatePart}
    (h : route.pathParts index matchInfo segments = .ok parts) :
    (∀ value, .text value ∈ parts ↔ .text value ∈ segments) ∧
      (∀ value : Expr, .hole value ∈ parts → value.FillsHole) ∧
      ((∃ value, .hole value ∈ parts) ↔ ∃ name, .param name ∈ segments) := by
  induction segments generalizing parts with
  | nil =>
      cases h
      simp
  | cons segment rest ih =>
      cases segment with
      | text text =>
          obtain ⟨others, hothers, rfl⟩ := pathParts_text_eq_ok_iff.mp h
          obtain ⟨htexts, hholes, hparams⟩ := ih hothers
          refine ⟨fun value => by simp [htexts], fun value hvalue => ?_, by simpa using hparams⟩
          exact hholes value ((List.mem_cons.mp hvalue).resolve_left (by simp))
      | param name =>
          obtain ⟨wire, hwire, others, hothers, rfl⟩ := pathParts_param_eq_ok_iff.mp h
          obtain ⟨htexts, hholes, _⟩ := ih hothers
          refine ⟨fun value => by simp [htexts], fun value hvalue => ?_, ?_⟩
          · rcases List.mem_cons.mp hvalue with heq | hin
            · cases heq
              exact fillsHole_encodedParam hwire
            · exact hholes value hin
          · exact iff_of_true ⟨_, List.mem_cons_self⟩ ⟨_, List.mem_cons_self⟩

theorem staticTexts?_eq_none_iff {parts : List TemplatePart} :
    staticTexts? parts = none ↔ ∃ value, .hole value ∈ parts := by
  fun_induction staticTexts? parts with
  | case1 => simp
  | case2 value rest ih => simp [ih]
  | case3 value rest => exact iff_of_true rfl ⟨value, List.mem_cons_self⟩

theorem return_mem_pieces_iff {parts : List TemplatePart} :
    .char '\r' ∈ parts.flatMap TemplatePart.pieces ↔
      ∃ value, .text value ∈ parts ∧ '\r' ∈ value.toList := by
  rw [List.mem_flatMap]
  constructor
  · rintro ⟨part, hpart, hin⟩
    cases part with
    | hole value => simp [TemplatePart.pieces] at hin
    | text value => exact ⟨value, hpart, by simpa [TemplatePart.pieces] using hin⟩
  · rintro ⟨value, hvalue, hin⟩
    exact ⟨.text value, hvalue, by simpa [TemplatePart.pieces] using hin⟩

end RouteDef

/-- The text of the expression, whatever follows it, is one literal that denotes the pieces. -/
def TypeScript.Expr.Denotes (expr : Expr) (pieces : List TextPiece) : Prop :=
  ∀ rest, readQuotation (expr.print.toList ++ rest) =
    some (pieces.flatMap TextPiece.denoted, rest)

namespace RouteDef

variable {index : TypeIndex} {route : RouteDef}

/-- A URL of static texts denotes them; one with substitutions denotes its pieces with line
feeds. -/
theorem denotes_urlOf {parts : List TemplatePart}
    (htexts : ∀ value, .text value ∈ parts → '\x7b' ∉ value.toList)
    (hholes : ∀ value, .hole value ∈ parts → value.FillsHole) :
    ((∃ value, .hole value ∈ parts) → (urlOf parts).Denotes (withFeeds (urlOf parts).pieces)) ∧
      ((¬∃ value, .hole value ∈ parts) → (urlOf parts).Denotes (urlOf parts).pieces) := by
  rw [← staticTexts?_eq_none_iff, pieces_urlOf, urlOf]
  cases hstatic : staticTexts? parts with
  | none => exact ⟨fun _ => TypeScript.readQuotation_template htexts hholes, by simp⟩
  | some texts =>
      refine ⟨by simp, fun _ => ?_⟩
      rw [← toList_joinWith_of_staticTexts? hstatic]
      exact TypeScript.readQuotation_stringLiteral _

/-- Whether something is put into the URL: a parameter of the path, or a query string. -/
def fillsIn (route : RouteDef) (segments : List PathSegment) : Bool :=
  route.sendsQuery || segments.any fun segment => !segment.isText

/-- Expressions denote one sequence of pieces only, up to what these denote. -/
theorem denotes_iff {expr : Expr} {pieces others : List TextPiece} (h : expr.Denotes pieces) :
    expr.Denotes others ↔ pieces.flatMap TextPiece.denoted = others.flatMap TextPiece.denoted := by
  constructor
  · intro hother
    have hread := (h []).symm.trans (hother [])
    exact (Prod.mk.inj (Option.some.inj hread)).1
  · intro heq rest
    rw [h rest, heq]

theorem fillsIn_iff {segments : List PathSegment} :
    route.fillsIn segments = true ↔
      route.sendsQuery = true ∨ ∃ name, .param name ∈ segments := by
  rw [fillsIn, Bool.or_eq_true, List.any_eq_true]
  refine or_congr_right ⟨?_, ?_⟩
  · rintro ⟨segment, hsegment, hparam⟩
    cases segment with
    | text value => cases hparam
    | param name => exact ⟨name, hsegment⟩
  · rintro ⟨name, hname⟩
    exact ⟨_, hname, rfl⟩

/-- The parts that the query string adds to a URL. -/
theorem mem_queryOf {body : Option ObjectType} (hbody : object? index route.body = .ok body)
    {part : TemplatePart} :
    part ∈ (route.queryOf body).2 ↔
      route.sendsQuery = true ∧ (part = .text "?" ∨ part = .hole (.ident "query")) := by
  rw [sendsQuery, ← isSome_object? hbody]
  fun_cases queryOf route body <;> simp_all

theorem fillsHole_query : (Expr.ident "query").FillsHole where
  skips := TypeScript.skips_of_plain (by decide)
  reads := by
    have hclear : (Expr.ident "query").Clear TypeScript.Ty.Proper := .ident (by decide)
    rw [hclear.readExpr_print, hclear.spelled_eq]

/-- No static text of a path opens a brace. -/
theorem openBrace_notMem_of_parse {path : String} {segments : List PathSegment}
    (h : PathSegment.parse path = .ok segments) {value : String} (hvalue : .text value ∈ segments) :
    '\x7b' ∉ value.toList := by
  obtain ⟨pieces, hpieces⟩ := PathPiece.exists_dissects (PathSegment.balanced_of_parse h)
  obtain ⟨_, rfl⟩ := (PathSegment.parse_eq_ok_iff hpieces).mp h
  intro hmem
  exact (((PathSegment.isNormal_of_dissects hpieces).texts value hvalue).2 _ hmem).1 rfl

section UrlParts

variable {matchInfo body : Option ObjectType} {segments : List PathSegment}
  {parts : List TemplatePart} (hbody : object? index route.body = .ok body)
  (hparts : route.pathParts index matchInfo segments = .ok parts)

include hbody hparts

/-- The static texts of a URL are those of its path, and a question mark before a query string. -/
theorem text_mem_urlParts_iff {value : String} :
    .text value ∈ parts ++ (route.queryOf body).2 ↔
      .text value ∈ segments ∨ route.sendsQuery = true ∧ value = "?" := by
  rw [List.mem_append, (mem_of_pathParts hparts).1, mem_queryOf hbody]
  simp

/-- The substitutions of a URL are the parameters of its path and a query string. -/
theorem hole_mem_urlParts :
    (∀ value : Expr, .hole value ∈ parts ++ (route.queryOf body).2 → value.FillsHole) ∧
      ((∃ value, .hole value ∈ parts ++ (route.queryOf body).2) ↔
        route.fillsIn segments = true) := by
  obtain ⟨_, hholes, hparams⟩ := mem_of_pathParts hparts
  constructor
  · intro value hvalue
    rcases List.mem_append.mp hvalue with hin | hin
    · exact hholes value hin
    · obtain heq | heq := ((mem_queryOf hbody).mp hin).2
      · cases heq
      · cases heq
        exact fillsHole_query
  · simp only [List.mem_append, exists_or, hparams, mem_queryOf hbody, fillsIn_iff]
    simp [or_comm]

/-- A carriage return in a URL comes from a static text of its path. -/
theorem return_mem_urlOf_iff :
    .char '\r' ∈ (urlOf (parts ++ (route.queryOf body).2)).pieces ↔
      ∃ value, .text value ∈ segments ∧ '\r' ∈ value.toList := by
  have hquestion : '\r' ∉ "?".toList := by decide
  rw [pieces_urlOf, return_mem_pieces_iff]
  refine exists_congr fun value => ?_
  rw [text_mem_urlParts_iff hbody hparts]
  constructor
  · rintro ⟨hin | ⟨_, rfl⟩, hmem⟩
    · exact ⟨hin, hmem⟩
    · exact absurd hmem hquestion
  · rintro ⟨hin, hmem⟩
    exact ⟨.inl hin, hmem⟩

end UrlParts

/-- The URL that a wrapper asks for is one literal, which denotes the pieces of the path and the
query string: the static texts in their order and the substitutions between them. Where something
is put in, the static texts are read with line feeds, so that such a URL denotes its pieces exactly
if and only if no static text has a carriage return in it. -/
theorem wrapper_url_denotes_iff {function : TypeScript.Function}
    (h : route.wrapper index = .ok function) :
    ∃ segments pieces exchange, PathSegment.parse route.path = .ok segments ∧
      function.Makes exchange ∧
      index.PathPieces (route.matchInfo.bind index.object?) segments pieces ∧
      exchange.url.pieces =
        pieces ++ (if route.sendsQuery then [.char '?', .hole (.ident "query")] else []) ∧
      exchange.url.Denotes
        (if route.fillsIn segments then withFeeds exchange.url.pieces else exchange.url.pieces) ∧
      (exchange.url.Denotes exchange.url.pieces ↔ ¬(route.fillsIn segments = true ∧
        ∃ value, .text value ∈ segments ∧ '\r' ∈ value.toList)) := by
  obtain ⟨_, matchInfo, body, response, segments, parts, hmatchInfo, hbody, _, hsegments, hparts,
    rfl⟩ := wrapper_eq_ok_iff.mp h
  obtain ⟨_, rfl⟩ := object?_eq_ok_iff.mp hmatchInfo
  have hurl : (route.exchangeOf body response parts).url =
      urlOf (parts ++ (route.queryOf body).2) := rfl
  have htexts : ∀ value, .text value ∈ parts ++ (route.queryOf body).2 →
      '\x7b' ∉ value.toList := by
    intro value hvalue
    obtain hin | ⟨_, rfl⟩ := (text_mem_urlParts_iff hbody hparts).mp hvalue
    · exact openBrace_notMem_of_parse hsegments hin
    · decide
  obtain ⟨hholes, hfilled⟩ := hole_mem_urlParts hbody hparts
  obtain ⟨htemplate, hstatic⟩ := denotes_urlOf htexts hholes
  rw [← hurl, hfilled] at htemplate hstatic
  refine ⟨segments, _, _, hsegments, makes_wrapperOf _ _ _ _, pathPieces_of_pathParts hparts,
    ?_, ?_, ?_⟩
  · rw [hurl, pieces_urlOf, List.flatMap_append, pieces_queryOf, isSome_object? hbody, sendsQuery]
  · split
    · rename_i hfills
      exact htemplate hfills
    · rename_i hfills
      exact hstatic hfills
  · cases hfills : route.fillsIn segments with
    | false => simpa using hstatic (by simp [hfills])
    | true =>
        -- What the template denotes is known, so it denotes the pieces if both denote the same.
        rw [denotes_iff (htemplate hfills), TypeScript.denoted_withFeeds_iff, hurl,
          return_mem_urlOf_iff hbody hparts]
        simp

/-- A path with a line end of two characters before its parameter. -/
def lineEndRoute : RouteDef :=
  ⟨"mark_key", none, .get, "/a\r\n\x7bid\x7d", some ⟨"app.Key"⟩, none, none⟩

/-- Its URL is read with a line feed where the path has two characters. -/
theorem wrapper_url_denotes_iff_lineEnd :
    ∃ index function exchange value,
      TypeIndex.register stampGraph [⟨"app.Key"⟩] = .ok index ∧
      lineEndRoute.wrapper index = .ok function ∧ function.Makes exchange ∧
      exchange.url.pieces =
        [.char '/', .char 'a', .char '\r', .char '\n', .hole value] ∧
      exchange.url.Denotes [.char '/', .char 'a', .char '\n', .hole value] ∧
      ¬exchange.url.Denotes exchange.url.pieces := by
  have hok : (do
      let index ← TypeIndex.register stampGraph [⟨"app.Key"⟩]
      lineEndRoute.wrapper index).toOption.isSome = true := by
    simp only [TypeIndex.register, TypeIndex.addRoots, TypeIndex.addRoot,
      TypeIndex.visit_eq_visitWithin]
    decide +kernel
  obtain ⟨function, hboth⟩ := exists_ok_of_isSome hok
  obtain ⟨index, hindex, hfunction⟩ := bind_eq_ok_iff.mp hboth
  obtain ⟨segments, pieces, exchange, hsegments, hmakes, hpieces, hurl, hdenotes, hiff⟩ :=
    wrapper_url_denotes_iff hfunction
  have hparse : PathSegment.parse lineEndRoute.path = .ok [.text "/a\r\n", .param "id"] := by
    decide +kernel
  cases hsegments.symm.trans hparse
  have hfills : lineEndRoute.fillsIn [.text "/a\r\n", .param "id"] = true := by decide
  cases hpieces with
  | text value hrest =>
      cases hrest with
      | @param _ _ _ wire _ _ _ _ _ _ hrest =>
          cases hrest
          have hquery : lineEndRoute.sendsQuery = false := rfl
          rw [hquery] at hurl
          refine ⟨index, function, exchange, _, hindex, hfunction, hmakes, hurl, ?_,
            fun hexact => ?_⟩
          · rw [if_pos hfills, hurl] at hdenotes
            exact hdenotes
          · exact hiff.mp hexact ⟨hfills, _, List.mem_cons_self, by decide⟩

end RouteDef

end SchemaWire
