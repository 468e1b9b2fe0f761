import SchemaWire.Proofs.Semantics.Program
import SchemaWire.Proofs.Semantics.Rounding

/-!
Conversions of values of any kind. A conversion function is called with what there is, whether it
has the fields of its model or not. Fields that need no conversion are read of every value that has
properties; a list is converted item by item, up to the first item of which the conversion fails.
-/
namespace SchemaWire

open TypeScript (Env Expr Fault ObjectEntry Operand Rules Ty Value invokeWith)

/-- The rules of a running program whose values inherit properties. -/
def TypeScript.Rules.inheriting (inherited : Value → String → Value) : Rules :=
  .rounding (Operand.memberOf inherited)

@[simp]
theorem TypeScript.Rules.member_inheriting (inherited : Value → String → Value) :
    (inheriting inherited).member = Operand.memberOf inherited :=
  rfl

namespace TypeIndex

variable {index : TypeIndex} {dir : Direction} {rules : Rules}
  {call : String → Value → Except Fault Value}

/-- What a conversion function returns. -/
theorem Converts.runWith_eq {object : ObjectType} {function : WireFunction}
    {entries : List ObjectEntry} (h : index.Converts dir object function entries) (arg : Value) :
    function.declared.runWith rules call arg =
      Value.ofLiteral <$> Expr.evalEntriesWith rules call entries [("root", arg)] := by
  rw [TypeScript.Function.runWith, h.body_eq]
  simp only [h.bindArgument_eq, Expr.evalWith, bind, Except.bind]
  cases Expr.evalEntriesWith rules call entries [("root", arg)] <;> rfl

/-- A call of the conversion function of a model converts its fields. -/
theorem Sound.exists_invokeWith (h : index.Sound) {path : ModelPath} {object : ObjectType}
    (hobject : index.object? path = some object) (dir : Direction) :
    ∃ entries, index.convertFields dir object.name object.fields = .ok entries ∧
      ∀ rules depth arg,
        invokeWith rules index.program (depth + 1) (dir.functionName object.name) arg =
          Value.ofLiteral <$> Expr.evalEntriesWith rules (invokeWith rules index.program depth)
            entries [("root", arg)] := by
  obtain ⟨function, entries, hfunction, hconverts⟩ := h.exists_converts hobject dir
  have hfind := find?_name_of_mem h.nodup_program_names (mem_program_of_function? hfunction)
  rw [hconverts.name_eq] at hfind
  refine ⟨entries, hconverts.entries_ok, fun rules depth arg => ?_⟩
  rw [invokeWith, hfind]
  exact hconverts.runWith_eq arg

/-- The value that a call of the function for a model gives for an argument, with calls nested to a
depth at most. -/
def decode (index : TypeIndex) (inherited : Value → String → Value) (depth : Nat)
    (path : ModelPath) (arg : Value) : Except Fault Value :=
  invokeWith (.inheriting inherited) index.program depth
    (Direction.fromWire.functionName path.shortName) arg

/-- Fields that need no conversion are read from the root one after the other. -/
theorem convertFields_of_kept {fields : List ObjectField}
    (h : ∀ field ∈ fields, ∀ src depth, index.convert dir field.descriptor src depth = .ok none)
    (model : String) : index.convertFields dir model fields =
      .ok ((fields.map ObjectField.name).map fun name =>
        .property name (.member (.ident "root") name)) := by
  induction fields with
  | nil => rfl
  | cons field rest ih =>
      obtain ⟨hfield, hrest⟩ := List.forall_mem_cons.mp h
      rw [convertFields, convertOrKeep, hfield, ih hrest]
      rfl

end TypeIndex

namespace TypeScript

variable {inherited : Value → String → Value} {call : String → Value → Except Fault Value}
  {arg : Value} {names : List String}

/-- Reading fields fails of `undefined` and of `null`. -/
theorem evalEntriesWith_of_isNullish (h : arg.isNullish = true) (hnames : names ≠ []) :
    Expr.evalEntriesWith (.inheriting inherited) call
      (names.map fun name => .property name (.member (.ident "root") name)) [("root", arg)] =
        .error .typeError := by
  cases names with
  | nil => exact absurd rfl hnames
  | cons name rest =>
      rw [List.map_cons, Expr.evalEntriesWith, Expr.evalWith, Expr.evalWith]
      have hroot : Operand.ofName [("root", arg)] "root" = .value arg := rfl
      rw [hroot]
      simp only [bind, Except.bind, Rules.member_inheriting,
        Operand.memberOf_of_isNullish inherited h name]

/-- Fields can be read of every other value. -/
theorem exists_evalEntriesWith (inherited : Value → String → Value)
    (call : String → Value → Except Fault Value) (h : arg.isNullish = false)
    (hnames : ∀ name ∈ names, name ≠ "map" ∧ name ≠ "getTime") :
    ∃ results, Expr.evalEntriesWith (.inheriting inherited) call
      (names.map fun name => .property name (.member (.ident "root") name)) [("root", arg)] =
        .ok results := by
  induction names with
  | nil => exact ⟨[], rfl⟩
  | cons name rest ih =>
      obtain ⟨hname, hrest⟩ := List.forall_mem_cons.mp hnames
      obtain ⟨results, hresults⟩ := ih hrest
      obtain ⟨found, hfound⟩ := Operand.exists_memberOf inherited h hname
      refine ⟨(name, found) :: results, ?_⟩
      have hroot : Operand.ofName [("root", arg)] "root" = .value arg := rfl
      rw [List.map_cons, Expr.evalEntriesWith, Expr.evalWith, Expr.evalWith, hroot, hresults]
      simp only [bind, Except.bind, Rules.member_inheriting, hfound]
      rfl

/-- A list is converted item by item. -/
theorem evalWith_convertItems {src body : Expr} {env : Env} {items : List Value}
    (hsrc : src.evalWith (.inheriting inherited) call env = .ok (.value (.list items)))
    (var : String) (ty : Ty) :
    (convertItems src var ty body).evalWith (.inheriting inherited) call env =
      (fun results => .value (.list results)) <$> items.mapM fun item =>
        body.evalWith (.inheriting inherited) call ((var, item) :: env) >>=
          Operand.toValue := by
  have hmap : (Operand.value (.list items)).memberOf inherited "map" = .ok (.mapOf items) :=
    Operand.memberOf_of_member inherited rfl
  have hbind : ∀ arg, TypeScript.bindArgument [.typed var ty] arg = .ok [(var, arg)] :=
    fun _ => rfl
  simp only [convertItems, methodCall, Expr.evalWith, Expr.evalAllWith, hsrc, bind, Except.bind,
    Rules.member_inheriting, hmap, pure, Except.pure, Operand.apply, hbind, List.singleton_append]
  generalize List.mapM (m := Except Fault) _ items = results
  cases results <;> rfl

/-- A call of a declared function with a variable. -/
theorem evalWith_call {rules : Rules} {env : Env}
    {function var : String} {arg : Value}
    (hfunction : Operand.ofName env function = .declared function)
    (hvar : Operand.ofName env var = .value arg) :
    ((Expr.call (.ident function) [.ident var]).evalWith rules call env >>= Operand.toValue) =
      call function arg := by
  simp only [Expr.evalWith, Expr.evalAllWith, hfunction, hvar, bind, Except.bind, pure, Except.pure,
    Operand.apply]
  cases call function arg <;> rfl

end TypeScript

/-- A function that fails in one way of some items and of no others fails of a list if one of them
is in it. -/
theorem mapM_of_fails {α β ε : Type} {f : α → Except ε β} {fails : α → Bool} {fault : ε}
    (hfails : ∀ a, fails a = true → f a = .error fault)
    (hresult : ∀ a, fails a = false → ∃ b, f a = .ok b) (items : List α) :
    ((∃ item ∈ items, fails item = true) → items.mapM f = .error fault) ∧
      ((∀ item ∈ items, fails item = false) → ∃ results, items.mapM f = .ok results) := by
  induction items with
  | nil => exact ⟨by simp, fun _ => ⟨[], rfl⟩⟩
  | cons item rest ih =>
      rw [List.mapM_cons]
      cases hitem : fails item with
      | true =>
          rw [hfails item hitem]
          exact ⟨fun _ => rfl, fun hall => by simp [hall] at hitem⟩
      | false =>
          obtain ⟨b, hb⟩ := hresult item hitem
          rw [hb]
          refine ⟨?_, fun hall => ?_⟩
          · rintro ⟨other, hother, hfault⟩
            rcases List.mem_cons.mp hother with rfl | hin
            · rw [hitem] at hfault
              cases hfault
            · rw [ih.1 ⟨other, hin, hfault⟩]
              rfl
          · obtain ⟨results, hresults⟩ := ih.2 fun other hother =>
              hall other (List.mem_cons_of_mem _ hother)
            rw [hresults]
            exact ⟨b :: results, rfl⟩

end SchemaWire
