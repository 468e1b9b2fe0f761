import SchemaWire.Proofs.Semantics.Construct
import SchemaWire.Proofs.Semantics.Rounding

/-!
Which arm of a union a value takes. The arms are a chain of comparisons with the discriminating
property, so a value goes to the conversion function of the first variant whose literal the property
is, and to `unreachable` if there is none. The literals of the arms are different, but integers are
rounded when the program runs. The main statement is that every value goes to the one variant that
it marks exactly if no two of the literals are rounded to the same number. An arm is described by
the call that it ends in, whatever this call returns.
-/
namespace SchemaWire

namespace TypeScript

variable {rules : Rules} {call : String → Value → Except Fault Value} {env : Env} {src : Expr}
  {value mark : Value}

/-- No local name hides `unreachable` or a conversion function of the direction. -/
def Env.Exposes (env : Env) (dir : Direction) : Prop :=
  env.lookup HelperName.unreachable = none ∧ ∀ name, env.lookup (dir.functionName name) = none

theorem Env.IsLocal.exposes (h : env.IsLocal) (dir : Direction) : env.Exposes dir := by
  refine ⟨h.lookup_eq_none (by decide), fun name => h.lookup_eq_none fun hlocal => ?_⟩
  have hhead := dir.head?_functionName name
  simp only [List.mem_cons, List.not_mem_nil, or_false] at hhead hlocal
  rcases hhead with heq | heq <;> simp [heq] at hlocal

/-- A call of `unreachable` ends the evaluation. -/
theorem evalWith_unreachable (h : env.lookup HelperName.unreachable = none) :
    (Expr.call (.ident HelperName.unreachable) []).evalWith rules call env =
      .error .unreachable := by
  have hdeclared : Operand.ofName env HelperName.unreachable =
      .declared HelperName.unreachable := by
    rw [Operand.ofName, h]
    rfl
  rw [Expr.evalWith, Expr.evalWith, hdeclared]
  rfl

/-- A call of a conversion function passes the value on. -/
theorem evalWith_functionCall {dir : Direction} {name : String}
    (hlookup : env.lookup (dir.functionName name) = none)
    (hsrc : src.evalWith rules call env = .ok (.value value)) :
    (Expr.call (.ident (dir.functionName name)) [src]).evalWith rules call env =
      Operand.value <$> call (dir.functionName name) value := by
  rw [Expr.evalWith, Expr.evalWith, Operand.ofName_functionName hlookup, Expr.evalAllWith, hsrc]
  simp only [Expr.evalAllWith]
  exact bind_pure_comp Operand.value (call (dir.functionName name) value)

/-- A choice by the comparison with a constant. -/
theorem evalWith_choice {constant : Literal} {whenTrue whenFalse : Expr} {same : Bool}
    (hsrc : src.evalWith rules call env = .ok (.value mark))
    (hsame : same = true ↔ mark = .scalar (rules.literal constant)) :
    (Expr.conditional (.binary src .strictEqual (.literal constant)) whenTrue whenFalse).evalWith
        rules call env =
      if same then whenTrue.evalWith rules call env else whenFalse.evalWith rules call env := by
  have hcompared : Value.operate .strictEqual mark (.scalar (rules.literal constant)) =
      .ok (.scalar (.bool same)) := by
    rw [Value.operate, Value.strictEqual_scalar_eq_ok_iff.mpr hsame]
    rfl
  simp only [Expr.evalWith, hsrc, bind, Except.bind, Operand.toValue, hcompared]
  rfl

end TypeScript

open TypeScript (Env Expr Fault Operand Rules Value)

namespace UnionArms

/-- The arm is the first one whose literal denotes the mark. -/
inductive Takes (mark : Value) : UnionArms → ModelPath × LiteralValue → Prop where
  | here {arm : ModelPath × LiteralValue} {rest : UnionArms} (heq : mark = arm.2.denoted) :
      Takes mark (arm :: rest) arm
  | later {other arm : ModelPath × LiteralValue} {rest : UnionArms} (hne : mark ≠ other.2.denoted)
      (h : Takes mark rest arm) : Takes mark (other :: rest) arm

variable {arms : UnionArms} {mark : Value} {arm : ModelPath × LiteralValue}

theorem Takes.mem_and_eq (h : Takes mark arms arm) : arm ∈ arms ∧ mark = arm.2.denoted := by
  induction h with
  | here heq => exact ⟨List.mem_cons_self, heq⟩
  | later _ _ ih => exact ⟨List.mem_cons_of_mem _ ih.1, ih.2⟩

theorem exists_takes (harm : arm ∈ arms) (heq : mark = arm.2.denoted) :
    ∃ taken, Takes mark arms taken := by
  induction arms with
  | nil => cases harm
  | cons first rest ih =>
      by_cases hfirst : mark = first.2.denoted
      · exact ⟨first, .here hfirst⟩
      · rcases List.mem_cons.mp harm with rfl | hin
        · exact absurd heq hfirst
        · exact (ih hin).imp fun _ htaken => .later hfirst htaken

/-- Where nothing is rounded to the same number, the literal of an arm leads to it. -/
theorem RoundsApart.takes (h : arms.RoundsApart) (hnodup : (arms.map Prod.snd).Nodup)
    (harm : arm ∈ arms) (heq : mark = arm.2.denoted) : Takes mark arms arm := by
  obtain ⟨taken, htaken⟩ := exists_takes harm heq
  obtain ⟨hmem, hmark⟩ := htaken.mem_and_eq
  obtain rfl := (roundsApart_iff hnodup).mp h taken hmem arm harm (hmark.symm.trans heq)
  exact htaken

end UnionArms

namespace TypeIndex

variable {index : TypeIndex} {dir : Direction} {src : Expr} {field : String} {arms : UnionArms}
  {member : Operand → String → Except Fault Operand} {call : String → Value → Except Fault Value}
  {env : Env} {value mark : Value}

/-- The outcome is that of the conversion function of the model, called with the value. -/
def CallsFunction (index : TypeIndex) (dir : Direction) (path : ModelPath)
    (call : String → Value → Except Fault Value) (value : Value)
    (outcome : Except Fault Operand) : Prop :=
  ∃ object, index.object? path = some object ∧
    outcome = Operand.value <$> call (dir.functionName object.name) value

/-- What the conversion of a union of models does with a value, given the value of the property that
tells the variants apart: it calls the function of the first variant whose literal this is, and
`unreachable` if it is no literal of the union, but never otherwise. -/
structure Dispatches (index : TypeIndex) (dir : Direction) (arms : UnionArms)
    (call : String → Value → Except Fault Value) (value mark : Value)
    (outcome : Except Fault Operand) : Prop where
  calls : ∀ arm, arms.Takes mark arm → index.CallsFunction dir arm.1 call value outcome
  falls : (∀ arm ∈ arms, mark ≠ arm.2.denoted) → outcome = .error .unreachable
  only : (∀ name arg, call name arg ≠ .error .unreachable) → outcome = .error .unreachable →
    ∀ arm ∈ arms, mark ≠ arm.2.denoted

/-- The property is the literal of one variant at most, and this is the one whose function is
called. -/
structure DispatchesToMarked (index : TypeIndex) (dir : Direction) (arms : UnionArms)
    (call : String → Value → Except Fault Value) (value mark : Value)
    (outcome : Except Fault Operand) : Prop where
  unique : ∀ arm ∈ arms, ∀ other ∈ arms, mark = arm.2.denoted → mark = other.2.denoted →
    arm = other
  calls : ∀ arm ∈ arms, mark = arm.2.denoted → index.CallsFunction dir arm.1 call value outcome

/-- A value whose mark an arm is the first to have takes this arm. -/
theorem evalWith_dispatchArms_of_takes {result : Expr} (hexposes : env.Exposes dir)
    (hsrc : src.evalWith (.rounding member) call env = .ok (.value value))
    (hmark : (Expr.member src field).evalWith (.rounding member) call env = .ok (.value mark))
    (hresult : index.dispatchArms dir field src arms = .ok result) {arm : ModelPath × LiteralValue}
    (h : arms.Takes mark arm) :
    index.CallsFunction dir arm.1 call value (result.evalWith (.rounding member) call env) := by
  induction h generalizing result with
  | here heq =>
      obtain ⟨converted, otherwise, hconverted, _, rfl⟩ := dispatchArms_cons_eq_ok_iff.mp hresult
      obtain ⟨object, hobject, rfl⟩ := modelCall_eq_ok_iff.mp hconverted
      refine ⟨object, hobject, ?_⟩
      rw [TypeScript.evalWith_choice hmark (iff_of_true rfl heq), if_pos rfl,
        TypeScript.evalWith_functionCall (hexposes.2 object.name) hsrc]
  | later hne _ ih =>
      obtain ⟨converted, otherwise, _, hotherwise, rfl⟩ := dispatchArms_cons_eq_ok_iff.mp hresult
      rw [TypeScript.evalWith_choice hmark (iff_of_false Bool.false_ne_true hne),
        if_neg Bool.false_ne_true]
      exact ih hotherwise

/-- A value whose mark is the literal of no arm ends at `unreachable`. -/
theorem evalWith_dispatchArms_of_forall_ne {result : Expr} (hexposes : env.Exposes dir)
    (hmark : (Expr.member src field).evalWith (.rounding member) call env = .ok (.value mark))
    (hresult : index.dispatchArms dir field src arms = .ok result)
    (hne : ∀ arm ∈ arms, mark ≠ arm.2.denoted) :
    result.evalWith (.rounding member) call env = .error .unreachable := by
  induction arms generalizing result with
  | nil =>
      cases hresult
      exact TypeScript.evalWith_unreachable hexposes.1
  | cons first rest ih =>
      obtain ⟨converted, otherwise, _, hotherwise, rfl⟩ := dispatchArms_cons_eq_ok_iff.mp hresult
      obtain ⟨hfirst, hrest⟩ := List.forall_mem_cons.mp hne
      rw [TypeScript.evalWith_choice hmark (iff_of_false Bool.false_ne_true hfirst),
        if_neg Bool.false_ne_true]
      exact ih hotherwise hrest

theorem dispatches_of_dispatch {variants : List ModelPath} {result : Expr}
    (hdisc : index.discriminant variants = .ok (field, arms))
    (hresult : index.dispatch dir variants src = .ok result) (hexposes : env.Exposes dir)
    (hsrc : src.evalWith (.rounding member) call env = .ok (.value value))
    (hmember : member (.value value) field = .ok (.value mark)) :
    index.Dispatches dir arms call value mark (result.evalWith (.rounding member) call env) := by
  have harms : index.dispatchArms dir field src arms = .ok result := by
    rw [dispatch, hdisc] at hresult
    exact hresult
  have hmark : (Expr.member src field).evalWith (.rounding member) call env =
      .ok (.value mark) := by
    rw [Expr.evalWith, hsrc]
    exact hmember
  refine ⟨fun arm => evalWith_dispatchArms_of_takes hexposes hsrc hmark harms,
    evalWith_dispatchArms_of_forall_ne hexposes hmark harms, fun hcall hfault arm harm heq => ?_⟩
  obtain ⟨taken, htaken⟩ := UnionArms.exists_takes harm heq
  obtain ⟨object, _, heval⟩ := evalWith_dispatchArms_of_takes hexposes hsrc hmark harms htaken
  exact hcall _ _ (map_eq_error_iff.mp (heval.symm.trans hfault))

def markedValue (field : String) (mark : Value) : Value :=
  .object [(field, mark)]

theorem member_markedValue (field : String) (mark : Value) :
    Operand.member (.value (markedValue field mark)) field = .ok (.value mark) := by
  rw [markedValue, Operand.member, Value.property_of_lookup List.lookup_cons_self]
  rfl

theorem evalWith_root (rules : Rules) (call : String → Value → Except Fault Value)
    (value : Value) :
    (Expr.ident "root").evalWith rules call [("root", value)] = .ok (.value value) := by
  rw [Expr.evalWith]
  rfl

theorem exposes_root (value : Value) (dir : Direction) : Env.Exposes [("root", value)] dir :=
  Env.IsLocal.exposes (by simp [Env.IsLocal]) dir

/-- A union has a discriminant exactly if it has variants, these are declared, and their first
fields have one name and are literals, no two of them the same. A value with a property of this
name then goes to the first variant whose literal the property is when the program runs. This is the
only one for every value, whatever the rule for properties, exactly if no two of the literals are
rounded to the same number. -/
theorem discriminant_dispatches (index : TypeIndex) (variants : List ModelPath) :
    (∀ field arms, index.discriminant variants = .ok (field, arms) ↔
      variants ≠ [] ∧ ∃ literals, List.Forall₂ (index.Marks field) variants literals ∧
        literals.Nodup ∧ arms = variants.zip literals) ∧
    ∀ field arms, index.discriminant variants = .ok (field, arms) →
      (∀ dir src, ∃ result, index.dispatch dir variants src = .ok result ∧
        ∀ member call env value mark, env.Exposes dir →
          src.evalWith (.rounding member) call env = .ok (.value value) →
          member (.value value) field = .ok (.value mark) →
            index.Dispatches dir arms call value mark
              (result.evalWith (.rounding member) call env)) ∧
      (arms.RoundsApart ↔ ∀ dir src result, index.dispatch dir variants src = .ok result →
        ∀ member call env value mark, env.Exposes dir →
          src.evalWith (.rounding member) call env = .ok (.value value) →
          member (.value value) field = .ok (.value mark) →
            index.DispatchesToMarked dir arms call value mark
              (result.evalWith (.rounding member) call env)) := by
  refine ⟨fun field arms => discriminant_eq_ok_iff, fun field arms hdisc => ⟨?_, ?_⟩⟩
  · intro dir src
    obtain ⟨result, hresult⟩ := @exists_dispatch _ dir _ _ hdisc src
    exact ⟨result, hresult, fun member call env value mark hexposes hsrc hmember =>
      dispatches_of_dispatch hdisc hresult hexposes hsrc hmember⟩
  have hnodup := (discriminant_arms hdisc).1
  constructor
  · intro hapart dir src result hresult member call env value mark hexposes hsrc hmember
    have hdispatches := dispatches_of_dispatch hdisc hresult hexposes hsrc hmember
    refine ⟨fun arm harm other hother heq hsame => ?_, fun arm harm heq => ?_⟩
    · exact (UnionArms.roundsApart_iff hnodup).mp hapart arm harm other hother
        (heq.symm.trans hsame)
    · exact hdispatches.calls arm (hapart.takes hnodup harm heq)
  · -- Two literals that denote the same would both mark an object with this one property.
    intro hmarked
    obtain ⟨result, hresult⟩ := @exists_dispatch _ .toWire _ _ hdisc (.ident "root")
    refine (UnionArms.roundsApart_iff hnodup).mpr fun first hfirst second hsecond hsame => ?_
    have hown := hmarked .toWire (.ident "root") result hresult Operand.member
      (fun _ _ => .error .unmodelled) _ _ first.2.denoted (exposes_root _ .toWire)
      (evalWith_root _ _ (markedValue field first.2.denoted)) (member_markedValue field _)
    exact hown.unique first hfirst second hsecond rfl hsame

def markedObject (path : ModelPath) (mark : LiteralValue) : ObjectType :=
  ⟨path.shortName, some path,
    [⟨"kind", .literal mark, (Descriptor.literal mark).render, none⟩], true⟩

/-- An index of models that are told apart by their literals. -/
def markedIndex (marks : List (ModelPath × LiteralValue)) : TypeIndex :=
  { empty with objects := marks.map fun mark => (mark.1, markedObject mark.1 mark.2) }

/-- Literals of different kinds. -/
def eventMarks : List (ModelPath × LiteralValue) :=
  [(⟨"app.Login"⟩, .str "login"), (⟨"app.Code"⟩, .int 1), (⟨"app.Gone"⟩, .null)]

/-- Different integers with one nearest number, which is the second one. -/
def wideMarks : List (ModelPath × LiteralValue) :=
  [(⟨"app.Odd"⟩, .int 9007199254740993), (⟨"app.Even"⟩, .int 9007199254740992)]

/-- What is marked by the integer of a code goes to the function for codes, and what is marked by a
date goes nowhere. What is marked by an even number goes to the function for the odd one. -/
theorem discriminant_dispatches_event :
    (∃ result, (markedIndex eventMarks).dispatch .toWire (eventMarks.map Prod.fst)
        (.ident "root") = .ok result ∧ ∀ call,
      result.evalWith (.rounding Operand.member) call
          [("root", markedValue "kind" (.scalar (.number 1)))] =
        Operand.value <$> call "convertCodeToWire" (markedValue "kind" (.scalar (.number 1))) ∧
      result.evalWith (.rounding Operand.member) call [("root", markedValue "kind" (.date 0))] =
        .error .unreachable) ∧
    (∃ result, (markedIndex wideMarks).dispatch .toWire (wideMarks.map Prod.fst)
        (.ident "root") = .ok result ∧ ∀ call,
      result.evalWith (.rounding Operand.member) call
          [("root", markedValue "kind" (.scalar (.number 9007199254740992)))] =
        Operand.value <$> call "convertOddToWire"
          (markedValue "kind" (.scalar (.number 9007199254740992)))) ∧
    ¬UnionArms.RoundsApart wideMarks := by
  have hevent : (markedIndex eventMarks).discriminant (eventMarks.map Prod.fst) =
      .ok ("kind", eventMarks) := rfl
  have hwide : (markedIndex wideMarks).discriminant (wideMarks.map Prod.fst) =
      .ok ("kind", wideMarks) := rfl
  obtain ⟨hfirst, _⟩ := (discriminant_dispatches (markedIndex eventMarks) _).2 _ _ hevent
  obtain ⟨hsecond, hmarked⟩ := (discriminant_dispatches (markedIndex wideMarks) _).2 _ _ hwide
  obtain ⟨result, hresult, heval⟩ := hfirst .toWire (.ident "root")
  obtain ⟨wide, hwideResult, hwideEval⟩ := hsecond .toWire (.ident "root")
  have hcode := @LiteralValue.denoted_int 1 1 (by decide +kernel)
  have hodd := @LiteralValue.denoted_int 9007199254740993 9007199254740992 (by decide +kernel)
  have hdispatches call (mark : Value) := heval Operand.member call _ _ mark
    (exposes_root _ .toWire) (evalWith_root _ _ (markedValue "kind" mark))
    (member_markedValue "kind" mark)
  refine ⟨⟨result, hresult, fun call => ⟨?_, ?_⟩⟩, ⟨wide, hwideResult, fun call => ?_⟩, ?_⟩
  · have hne : Value.scalar (.number 1) ≠ (LiteralValue.str "login").denoted := by
      simp [LiteralValue.denoted, LiteralValue.render, TypeScript.Literal.rounded]
    obtain ⟨object, hobject, heq⟩ := (hdispatches call (.scalar (.number 1))).calls
      (⟨"app.Code"⟩, .int 1) (.later hne (.here hcode.symm))
    obtain rfl : markedObject ⟨"app.Code"⟩ (.int 1) = object := Option.some.inj hobject
    exact heq
  · exact (hdispatches call (.date 0)).falls (by simp [LiteralValue.denoted])
  · have hfirst := hwideEval Operand.member call _ _ (.scalar (.number 9007199254740992))
      (exposes_root _ .toWire) (evalWith_root _ _ (markedValue "kind" _))
      (member_markedValue "kind" _)
    obtain ⟨object, hobject, heq⟩ := hfirst.calls (⟨"app.Odd"⟩, .int 9007199254740993)
      (.here hodd.symm)
    obtain rfl : markedObject ⟨"app.Odd"⟩ (.int 9007199254740993) = object :=
      Option.some.inj hobject
    exact heq
  · intro hapart
    have heq := hapart _ (List.mem_cons_self) _ (List.mem_cons_of_mem _ List.mem_cons_self)
      9007199254740993 9007199254740992 rfl rfl (by decide +kernel)
    exact absurd heq (by decide)

end TypeIndex

end SchemaWire
