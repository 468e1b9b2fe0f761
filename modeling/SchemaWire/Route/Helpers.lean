import SchemaWire.Schema.Model
import SchemaWire.Index.Scope
import SchemaWire.Schema.Document
import SchemaWire.Wire.Function

/-!
What all route wrappers share: the helpers they call, and the models of a validation error, which
the error class decodes.
-/
namespace SchemaWire

open TypeScript (Declaration)

namespace ValidationModels

/-- One failure that the server reports for a field. -/
def error : ModelPath :=
  ⟨"tswire.ValidationError"⟩

/-- The body of a response that reports failures. -/
def response : ModelPath :=
  ⟨"tswire.ValidationErrorResponse"⟩

/-- A field without a default. -/
def field (name : String) (ty : TypeExpr) : FieldDef :=
  ⟨name, ty, none⟩

/-- The graph of the models that every module with routes declares. -/
def graph : ModelGraph :=
  .ofList [
    (error, ⟨[
      field "type" (.primitive .str),
      field "loc" (.list (.union [.primitive .str, .primitive .int])),
      field "msg" (.primitive .str),
      field "input" (.primitive .str),
      field "ctx" (.optional (.dict (.primitive .str) (.primitive .str)))]⟩),
    (response, ⟨[field "errors" (.list (.model error))]⟩)]

end ValidationModels

namespace RouteHelpers

/-- Lines of text as one text. -/
def block (lines : List String) : Declaration :=
  .text (TypeScript.joinWith "\n" lines)

/-- The error class. -/
def apiError : Declaration :=
  let response := ValidationModels.response.shortName
  block [
    "export class " ++ HelperName.apiError ++ " extends Error \x7b",
    "  status: number;",
    "  statusText: string;",
    "  body: unknown;",
    "  validation: " ++ response ++ " | null;",
    "",
    "  constructor(status: number, statusText: string, body: unknown) \x7b",
    "    super(`HTTP $\x7bstatus\x7d: $\x7bstatusText\x7d`);",
    "    this.name = \"" ++ HelperName.apiError ++ "\";",
    "    this.status = status;",
    "    this.statusText = statusText;",
    "    this.body = body;",
    "    this.validation = " ++ HelperName.isValidationErrorResponse ++ "(body) ? " ++
      Direction.fromWire.functionName response ++ "(body) : null;",
    "  \x7d",
    "\x7d"]

/-- The check that the error class makes before it decodes a body. -/
def validationGuard : Declaration :=
  block [
    "function " ++ HelperName.isValidationErrorResponse ++ "(body: unknown): boolean \x7b",
    "  return typeof body === \"object\" && body !== null && " ++
      "Array.isArray((body as \x7b errors?: unknown \x7d).errors);",
    "\x7d"]

/-- The reader of failed responses. -/
def readErrorBody : Declaration :=
  block [
    "async function " ++ HelperName.readErrorBody ++ "(res: Response): Promise<unknown> \x7b",
    "  const text = await res.text();",
    "  try \x7b",
    "    return JSON.parse(text);",
    "  \x7d catch \x7b",
    "    return text;",
    "  \x7d",
    "\x7d"]

/-- The encoder of bodies that travel in the query string. -/
def encodeQuery : Declaration :=
  block [
    "function " ++ HelperName.encodeQuery ++
      "(value: Record<string, unknown>): URLSearchParams \x7b",
    "  const query = new URLSearchParams();",
    "  for (const [key, item] of Object.entries(value)) \x7b",
    "    if (item === null || item === undefined) continue;",
    "    query.append(key, typeof item === \"object\" ? JSON.stringify(item) : String(item));",
    "  \x7d",
    "  return query;",
    "\x7d"]

/-- The helper that ends the dispatch over a union of models. -/
def unreachable : Declaration :=
  block [
    "function " ++ HelperName.unreachable ++ "(): never \x7b",
    "  throw new Error(\"unreachable: value matched no union variant\");",
    "\x7d"]

def forRoutes (routes : List RouteDef) : List Declaration :=
  if routes.isEmpty then []
  else
    [apiError, validationGuard, readErrorBody] ++
      if routes.any RouteDef.sendsQuery then [encodeQuery] else []

end RouteHelpers

end SchemaWire
