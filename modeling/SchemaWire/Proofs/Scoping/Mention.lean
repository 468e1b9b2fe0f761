import SchemaWire.Proofs.Descriptor.Rendered
import SchemaWire.Proofs.Naming.Declared
import SchemaWire.Proofs.Scoping.Token

/-!
The names that generated code mentions. Every mention of a name comes with the local names that are
in scope where it stands: parameters, the variables of lambdas, and the constants of the statements
before it. A mention resolves if it means what it is meant to: a local name that hides nothing
outside, or a name that is provided outside and that no local name hides.
-/
namespace SchemaWire.TypeScript

/-- A mention of a name, with the local names in scope. -/
inductive Mention where
  /-- A variable that is read. -/
  | value (name : String) (locals : List String)
  /-- A function that is called, or a class of which an object is made. -/
  | callee (name : String) (locals : List String)
  /-- A local name where it is bound. -/
  | binding (name : String) (locals : List String)
  /-- A named type. -/
  | type (name : String)
  /-- A word of raw text, which may be a variable or a type. -/
  | word (name : String) (locals : List String)
deriving DecidableEq, Repr

/-- What a mention has to mean, given the values and the types that are provided outside. -/
def Mention.Resolves (values types : List String) : Mention → Prop
  | .value name locals => if name ∈ locals then name ∉ values else name ∈ values
  | .callee name locals => name ∉ locals ∧ name ∈ values
  | .binding name locals => name ∉ locals ∧ name ∉ values
  | .type name => name ∈ types
  | .word name locals => if name ∈ locals then name ∉ values else name ∈ values ∨ name ∈ types

/-- All of some mentions resolve. -/
def AllResolve (values types : List String) (mentions : List Mention) : Prop :=
  ∀ mention ∈ mentions, mention.Resolves values types

@[simp]
theorem allResolve_nil {values types : List String} : AllResolve values types [] :=
  List.forall_mem_nil _

@[simp]
theorem allResolve_cons {values types : List String} {mention : Mention} {rest : List Mention} :
    AllResolve values types (mention :: rest) ↔
      mention.Resolves values types ∧ AllResolve values types rest :=
  List.forall_mem_cons

@[simp]
theorem allResolve_append {values types : List String} {mentions others : List Mention} :
    AllResolve values types (mentions ++ others) ↔
      AllResolve values types mentions ∧ AllResolve values types others :=
  List.forall_mem_append

/-- The mention of an atom of a type: texts mention nothing. -/
def Atom.mentions : Atom → List Mention
  | .name word => [.type word]
  | .text _ => []

def Ty.mentions (ty : Ty) : List Mention :=
  ty.atoms.flatMap Atom.mentions

/-- Names that are bound one after the other. -/
def bindings (locals : List String) : List String → List Mention
  | [] => []
  | name :: rest => .binding name locals :: bindings (name :: locals) rest

def Param.names (param : Param) : List String :=
  match param.binder with
  | .variable name => [name]
  | .items names => names

@[simp]
theorem Param.names_typed (name : String) (ty : Ty) : (Param.typed name ty).names = [name] := rfl

@[simp]
theorem Param.names_items (names : List String) : (Param.items names).names = names := rfl

@[simp]
theorem Param.ty_typed (name : String) (ty : Ty) : (Param.typed name ty).ty = some ty := rfl

@[simp]
theorem Param.ty_items (names : List String) : (Param.items names).ty = none := rfl

/-- The names that parameters bind and those in their types. -/
def paramMentions (locals : List String) (params : List Param) : List Mention :=
  bindings locals (params.flatMap Param.names) ++
    params.flatMap fun param => param.ty.toList.flatMap Ty.mentions

/-- The local names in the scope of parameters. -/
def withParams (locals : List String) (params : List Param) : List String :=
  (params.flatMap Param.names).reverse ++ locals

/-- The words that raw text uses, all of them in the scope of all names that it binds. -/
def rawMentions (locals : List String) (text : String) : List Mention :=
  let tokens := (Text.lines text).flatMap fun line => lineTokens [] [] line.toList
  (usedWords tokens).map fun name => .word name (boundWords tokens ++ locals)

mutual
@[simp]
def Expr.mentions (locals : List String) : Expr → List Mention
  | .ident name => [.value name locals]
  | .literal _ => []
  | .call (.ident name) args | .construct (.ident name) args =>
      .callee name locals :: Expr.mentionsAll locals args
  | .call callee args | .construct callee args =>
      callee.mentions locals ++ Expr.mentionsAll locals args
  | .arrow params body => paramMentions locals params ++ body.mentions (withParams locals params)
  | .object entries => Expr.entryMentions locals entries
  | .member owner _ | .optionalMember owner _ => owner.mentions locals
  | .template parts => Expr.partMentions locals parts
  | .await value | .negate value => value.mentions locals
  | .binary left _ right => left.mentions locals ++ right.mentions locals
  | .conditional condition whenTrue whenFalse =>
      condition.mentions locals ++ whenTrue.mentions locals ++ whenFalse.mentions locals
  | .array items => Expr.mentionsAll locals items
  | .cast value ty => value.mentions locals ++ ty.mentions
  | .raw text => rawMentions locals text

@[simp]
def Expr.mentionsAll (locals : List String) : List Expr → List Mention
  | [] => []
  | value :: rest => value.mentions locals ++ Expr.mentionsAll locals rest

/-- The names that the entries of an object literal mention; keys are no names. -/
@[simp]
def Expr.entryMentions (locals : List String) : List ObjectEntry → List Mention
  | [] => []
  | .property _ value :: rest | .spread value :: rest =>
      value.mentions locals ++ Expr.entryMentions locals rest

@[simp]
def Expr.partMentions (locals : List String) : List TemplatePart → List Mention
  | [] => []
  | .text _ :: rest => Expr.partMentions locals rest
  | .hole value :: rest => value.mentions locals ++ Expr.partMentions locals rest
end

mutual
@[simp]
def Stmt.mentions (locals : List String) : Stmt → List Mention
  | .const _ ty value => ty.toList.flatMap Ty.mentions ++ value.mentions locals
  | .ret value => value.toList.flatMap (Expr.mentions locals)
  | .cond condition body => condition.mentions locals ++ Stmt.mentionsAll locals body
  | .throw value => value.mentions locals
  | .raw text => rawMentions locals text

/-- The names that statements mention. A name that one of them declares is in scope in the
following ones. -/
@[simp]
def Stmt.mentionsAll (locals : List String) : List Stmt → List Mention
  | [] => []
  | stmt :: rest =>
      stmt.mentions locals ++ bindings locals stmt.declaredNames ++
        Stmt.mentionsAll (stmt.declaredNames.reverse ++ locals) rest
end

def Function.mentions (function : Function) : List Mention :=
  paramMentions [] function.params ++ function.result.toList.flatMap Ty.mentions ++
    Stmt.mentionsAll (withParams [] function.params) function.body

/-- The function calls a function of that name, or makes an object of that class. -/
def Function.Calls (function : Function) (name : String) : Prop :=
  ∃ locals, .callee name locals ∈ function.mentions

/-- The names that a declaration mentions. What a block declares is not local. -/
def Declaration.mentions : Declaration → List Mention
  | .function declared => declared.mentions
  | .block body => body.flatMap (Stmt.mentions [])

def TypeDecl.mentions (decl : TypeDecl) : List Mention :=
  match decl.body with
  | .object properties => properties.flatMap fun property => property.ty.mentions
  | .enumeration _ => []

def Module.mentions (module : Module) : List Mention :=
  module.preamble.flatMap Declaration.mentions ++ module.types.flatMap TypeDecl.mentions ++
    module.functions.flatMap Declaration.mentions

variable {values types locals : List String}

theorem mem_mentions_ty {ty : Ty} {mention : Mention} :
    mention ∈ ty.mentions ↔ ∃ word, .name word ∈ ty.atoms ∧ mention = .type word := by
  rw [Ty.mentions, List.mem_flatMap]
  constructor
  · rintro ⟨atom, hatom, hmem⟩
    cases atom with
    | name word => exact ⟨word, hatom, List.mem_singleton.mp hmem⟩
    | text value => cases hmem
  · rintro ⟨word, hword, rfl⟩
    exact ⟨.name word, hword, List.mem_cons_self⟩

/-- The mentions of a type resolve if its names are provided as types. -/
theorem resolves_ty {ty : Ty} :
    AllResolve values types ty.mentions ↔
      ∀ word, .name word ∈ ty.atoms → word ∈ types := by
  simp only [AllResolve, mem_mentions_ty, forall_exists_index, and_imp]
  constructor
  · exact fun h word hword => h _ word hword rfl
  · rintro h _ word hword rfl
    exact h word hword

theorem resolves_local {name : String} (hmem : name ∈ locals) (hfresh : name ∉ values) :
    (Mention.value name locals).Resolves values types := by
  rw [Mention.Resolves, if_pos hmem]
  exact hfresh

theorem resolves_outer {name : String} (hnot : name ∉ locals) (hmem : name ∈ values) :
    (Mention.value name locals).Resolves values types := by
  rw [Mention.Resolves, if_neg hnot]
  exact hmem

/-- Names are bound in order if they are new, different and hide nothing that is provided. -/
theorem resolves_bindings {names : List String} (hnodup : names.Nodup)
    (hnew : ∀ name ∈ names, name ∉ locals ∧ name ∉ values) :
    AllResolve values types (bindings locals names) := by
  induction names generalizing locals with
  | nil => exact allResolve_nil
  | cons name rest ih =>
      obtain ⟨hnot, hrest⟩ := List.nodup_cons.mp hnodup
      refine allResolve_cons.mpr ⟨hnew name List.mem_cons_self, ih hrest ?_⟩
      intro other hother
      obtain ⟨hlocal, hvalue⟩ := hnew other (List.mem_cons_of_mem _ hother)
      refine ⟨fun hmem => ?_, hvalue⟩
      rcases List.mem_cons.mp hmem with rfl | hold
      · exact hnot hother
      · exact hlocal hold

/-- Parameters resolve if their names can be bound and the names in their types are provided. -/
theorem resolves_paramMentions {params : List Param}
    (hnodup : (params.flatMap Param.names).Nodup)
    (hnew : ∀ name ∈ params.flatMap Param.names, name ∉ locals ∧ name ∉ values)
    (htypes : ∀ param ∈ params, ∀ ty ∈ param.ty, ∀ word, .name word ∈ ty.atoms → word ∈ types) :
    AllResolve values types (paramMentions locals params) := by
  rw [paramMentions, allResolve_append]
  refine ⟨resolves_bindings hnodup hnew, fun mention hmention => ?_⟩
  obtain ⟨param, hparam, hin⟩ := List.mem_flatMap.mp hmention
  obtain ⟨ty, hty, hmem⟩ := List.mem_flatMap.mp hin
  exact resolves_ty.mpr (htypes param hparam ty (Option.mem_toList.mp hty)) mention hmem

def ObjectEntry.value : ObjectEntry → Expr
  | .property _ value | .spread value => value

theorem Expr.mem_entryMentions {mention : Mention} {entries : List ObjectEntry} :
    mention ∈ Expr.entryMentions locals entries ↔
      ∃ entry ∈ entries, mention ∈ entry.value.mentions locals := by
  induction entries with
  | nil => simp
  | cons entry rest ih => cases entry <;> simp [ObjectEntry.value, ih]

theorem Expr.partMentions_append (parts others : List TemplatePart) :
    Expr.partMentions locals (parts ++ others) =
      Expr.partMentions locals parts ++ Expr.partMentions locals others := by
  induction parts with
  | nil => rfl
  | cons part rest ih => cases part <;> simp [ih]

end SchemaWire.TypeScript
