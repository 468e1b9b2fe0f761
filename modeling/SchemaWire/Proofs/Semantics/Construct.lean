import SchemaWire.Proofs.Semantics.Conformance
import SchemaWire.Proofs.Semantics.Evaluation
import SchemaWire.Proofs.Wire.Conversion
import SchemaWire.Proofs.Wire.LocalName

/-!
What the parts of a conversion evaluate to. One equivalence for each construct that conversions are
made of: which value it has, in terms of the values of its parts.
-/
namespace SchemaWire

namespace TypeScript

variable {call : String → Value → Except Fault Value} {env : Env} {expr src : Expr}
  {operand : Operand} {value : Value}

/-- The local names are variables of conversion functions: the root, the values and the keys. -/
def Env.IsLocal (env : Env) : Prop :=
  ∀ entry ∈ env, entry.1.toList.head? ∈ [some 'r', some 'v', some 'k']

theorem Env.IsLocal.lookup_eq_none (h : env.IsLocal) {name : String}
    (hname : name.toList.head? ∉ [some 'r', some 'v', some 'k']) : env.lookup name = none := by
  refine List.lookup_eq_none_iff.mpr fun entry hentry => ?_
  refine bne_iff_ne.mpr fun heq => hname ?_
  rw [heq]
  exact h entry hentry

theorem Env.IsLocal.cons (h : env.IsLocal) {name : String}
    (hname : name.toList.head? ∈ [some 'r', some 'v', some 'k']) (value : Value) :
    Env.IsLocal ((name, value) :: env) :=
  List.forall_mem_cons.mpr ⟨hname, h⟩

theorem head?_valueVar_mem (depth : Nat) :
    (valueVar depth).toList.head? ∈ [some 'r', some 'v', some 'k'] := by
  simp [head?_valueVar]

theorem head?_keyVar_mem (depth : Nat) :
    (keyVar depth).toList.head? ∈ [some 'r', some 'v', some 'k'] := by
  simp [head?_keyVar]

theorem Operand.toValue_eq_ok_iff : operand.toValue = .ok value ↔ operand = .value value := by
  cases operand <;> simp [Operand.toValue]

theorem eval_ident_of_lookup {name : String} (h : env.lookup name = some value) :
    (Expr.ident name).eval call env = .ok (.value value) := by
  rw [Expr.eval, Operand.ofName, h]

theorem eval_member_of_lookup {entries : List (String × Value)} {name : String}
    (hsrc : src.eval call env = .ok (.value (.object entries)))
    (h : entries.lookup name = some value) :
    (Expr.member src name).eval call env = .ok (.value value) := by
  rw [Expr.eval, bind_eq_ok_iff]
  refine ⟨_, hsrc, ?_⟩
  rw [Operand.member, Value.property_of_lookup h]
  rfl

theorem eval_global_of_isLocal (h : env.IsLocal) :
    (Expr.ident "Object").eval call env = .ok .objectClass ∧
      (Expr.ident "Date").eval call env = .ok .dateClass := by
  have hobject : env.lookup "Object" = none := h.lookup_eq_none (by decide)
  have hdate : env.lookup "Date" = none := h.lookup_eq_none (by decide)
  simp [Expr.eval, Operand.ofName, hobject, hdate]

theorem eval_equality_eq_ok_iff {constant : Literal} :
    (Expr.binary src .strictEqual (.literal constant)).eval call env = .ok operand ↔
      ∃ found same, src.eval call env = .ok (.value found) ∧
        (same = true ↔ found = .scalar constant.scalar) ∧
        operand = .value (.scalar (.bool same)) := by
  simp only [Expr.eval, bind_eq_ok_iff, Operand.toValue_eq_ok_iff, pure_eq_ok_iff,
    Except.ok.injEq, Value.operate, map_eq_ok_iff]
  constructor
  · rintro ⟨_, hsrc, found, rfl, _, rfl, _, hconstant, _, ⟨same, hsame, rfl⟩, rfl⟩
    cases Operand.value.inj hconstant
    exact ⟨found, same, hsrc, Value.strictEqual_scalar_eq_ok_iff.mp hsame, rfl⟩
  · rintro ⟨found, same, hsrc, hsame, rfl⟩
    exact ⟨_, hsrc, found, rfl, _, rfl, _, rfl, _,
      ⟨same, Value.strictEqual_scalar_eq_ok_iff.mpr hsame, rfl⟩, rfl⟩

/-- A choice by the equality with a constant. -/
theorem eval_choice_eq_ok_iff {constant : Literal} {whenTrue whenFalse : Expr} :
    (Expr.conditional (.binary src .strictEqual (.literal constant)) whenTrue whenFalse).eval
        call env = .ok operand ↔
      ∃ found, src.eval call env = .ok (.value found) ∧
        (found = .scalar constant.scalar ∧ whenTrue.eval call env = .ok operand ∨
          found ≠ .scalar constant.scalar ∧ whenFalse.eval call env = .ok operand) := by
  rw [Expr.eval, bind_eq_ok_iff]
  simp only [eval_equality_eq_ok_iff, bind_eq_ok_iff, Operand.toValue_eq_ok_iff]
  constructor
  · rintro ⟨_, ⟨found, same, hsrc, hsame, rfl⟩, _, heq, h⟩
    cases Operand.value.inj heq
    cases same with
    | true => exact ⟨found, hsrc, Or.inl ⟨hsame.mp rfl, h⟩⟩
    | false => exact ⟨found, hsrc, Or.inr ⟨fun heq => Bool.noConfusion (hsame.mpr heq), h⟩⟩
  · rintro ⟨found, hsrc, ⟨heq, h⟩ | ⟨hne, h⟩⟩
    · exact ⟨_, ⟨found, true, hsrc, by simp [heq], rfl⟩, _, rfl, h⟩
    · exact ⟨_, ⟨found, false, hsrc, by simp [hne], rfl⟩, _, rfl, h⟩

/-- A guard against the absent value. -/
theorem eval_nullGuard_eq_ok_iff {converted : Expr} :
    (nullGuard src converted).eval call env = .ok operand ↔
      ∃ found, src.eval call env = .ok (.value found) ∧
        (found = .null ∧ operand = .value .null ∨
          found ≠ .null ∧ converted.eval call env = .ok operand) := by
  rw [nullGuard, eval_choice_eq_ok_iff, Expr.eval]
  simp only [Except.ok.injEq, @eq_comm _ _ operand]
  rfl

theorem Operand.member_eq_mapOf_iff {owner : Operand} {items : List Value} :
    owner.member "map" = .ok (.mapOf items) ↔ owner = .value (.list items) := by
  cases owner with
  | value found => cases found with
    | scalar constant => cases constant <;> simp [Operand.member]
    | object entries => simp [Operand.member, map_eq_ok_iff]
    | derived prototype entries => cases h : entries.lookup "map" <;> simp [Operand.member, h]
    | _ => simp [Operand.member]
  | _ => simp [Operand.member]

theorem Operand.apply_lambda_eq_ok_iff {function : Operand}
    {body : Value → Except Fault Value} :
    function.apply call [.lambda body] = .ok value ↔ ∃ items results,
      function = .mapOf items ∧
        List.Forall₂ (fun item result => body item = .ok result) items results ∧
        value = .list results := by
  cases function with
  | mapOf items =>
      rw [Operand.apply, map_eq_ok_iff]
      constructor
      · rintro ⟨results, hresults, rfl⟩
        exact ⟨items, results, rfl, mapM_eq_ok_iff.mp hresults, rfl⟩
      · rintro ⟨_, results, heq, hresults, rfl⟩
        cases Operand.mapOf.inj heq
        exact ⟨results, mapM_eq_ok_iff.mpr hresults, rfl⟩
  | _ => simp [Operand.apply]

/-- What a lambda makes of an argument. -/
theorem bind_body_eq_ok_iff {param : Param} {body : Expr} {arg : Value} :
    (do
      let bound ← bindArgument [param] arg
      let operand ← body.eval call (bound ++ env)
      operand.toValue) = .ok value ↔
      ∃ bound, param.binder.bind arg = .ok bound ∧
        body.eval call (bound ++ env) = .ok (.value value) := by
  simp only [bind_eq_ok_iff, bindArgument, Operand.toValue_eq_ok_iff, exists_eq_right]

/-- Mapping a lambda over a list. -/
theorem eval_map_eq_ok_iff {param : Param} {body : Expr} :
    (methodCall src "map" [.arrow [param] body]).eval call env = .ok operand ↔
      ∃ items results, src.eval call env = .ok (.value (.list items)) ∧
        List.Forall₂ (fun item result => ∃ bound, param.binder.bind item = .ok bound ∧
          body.eval call (bound ++ env) = .ok (.value result)) items results ∧
        operand = .value (.list results) := by
  simp only [methodCall, Expr.eval, Expr.evalAll, bind_eq_ok_iff, pure_eq_ok_iff,
    Except.ok.injEq]
  constructor
  · rintro ⟨function, ⟨owner, hsrc, hmember⟩, _, ⟨_, rfl, _, rfl, rfl⟩, _, happly, rfl⟩
    obtain ⟨items, results, rfl, hresults, rfl⟩ := Operand.apply_lambda_eq_ok_iff.mp happly
    rw [Operand.member_eq_mapOf_iff.mp hmember] at hsrc
    exact ⟨items, results, hsrc, hresults.imp fun _ _ => bind_body_eq_ok_iff.mp, rfl⟩
  · rintro ⟨items, results, hsrc, hresults, rfl⟩
    exact ⟨_, ⟨_, hsrc, Operand.member_eq_mapOf_iff.mpr rfl⟩, _, ⟨_, rfl, _, rfl, rfl⟩, _,
      Operand.apply_lambda_eq_ok_iff.mpr ⟨items, results, rfl,
        hresults.imp fun _ _ => bind_body_eq_ok_iff.mpr, rfl⟩, rfl⟩

/-- Mapping a lambda of one variable over a list. -/
theorem eval_convertItems_eq_ok_iff {var : String} {ty : Ty} {converted : Expr} :
    (convertItems src var ty converted).eval call env = .ok operand ↔
      ∃ items results, src.eval call env = .ok (.value (.list items)) ∧
        List.Forall₂ (fun item result =>
          converted.eval call ((var, item) :: env) = .ok (.value result)) items results ∧
        operand = .value (.list results) := by
  rw [convertItems, eval_map_eq_ok_iff]
  simp [Param.typed, Binder.bind]

/-- A call of a function of the global `Object`. -/
theorem eval_objectCall_eq_ok_iff (henv : env.IsLocal) {method : String} {function : Operand}
    {run : Value → Except Fault Value} (hmember : Operand.objectClass.member method = .ok function)
    (happly : ∀ arg result, function.apply call [arg] = .ok result ↔
      ∃ found, arg = .value found ∧ run found = .ok result) :
    (methodCall (.ident "Object") method [src]).eval call env = .ok operand ↔
      ∃ found result, src.eval call env = .ok (.value found) ∧ run found = .ok result ∧
        operand = .value result := by
  have hclass := (@eval_global_of_isLocal call env henv).1
  have hcallee : (Expr.member (.ident "Object") method).eval call env = .ok function := by
    rw [Expr.eval, hclass]
    exact hmember
  rw [methodCall, Expr.eval, hcallee]
  simp only [Expr.evalAll, bind_eq_ok_iff, pure_eq_ok_iff, Except.ok.injEq]
  constructor
  · rintro ⟨_, rfl, _, ⟨arg, hsrc, _, rfl, rfl⟩, result, hresult, rfl⟩
    obtain ⟨found, rfl, hrun⟩ := (happly arg result).mp hresult
    exact ⟨found, result, hsrc, hrun, rfl⟩
  · rintro ⟨found, result, hsrc, hrun, rfl⟩
    exact ⟨_, rfl, _, ⟨_, hsrc, _, rfl, rfl⟩, result,
      (happly _ result).mpr ⟨found, rfl, hrun⟩, rfl⟩

theorem eval_entries_eq_ok_iff (henv : env.IsLocal) :
    (methodCall (.ident "Object") "entries" [src]).eval call env = .ok operand ↔
      ∃ found result, src.eval call env = .ok (.value found) ∧ found.entryList = .ok result ∧
        operand = .value result := by
  refine eval_objectCall_eq_ok_iff henv rfl fun arg result => ?_
  cases arg <;> simp [Operand.apply]

theorem eval_fromEntries_eq_ok_iff (henv : env.IsLocal) :
    (methodCall (.ident "Object") "fromEntries" [src]).eval call env = .ok operand ↔
      ∃ found result, src.eval call env = .ok (.value found) ∧ found.ofEntryList = .ok result ∧
        operand = .value result := by
  refine eval_objectCall_eq_ok_iff henv rfl fun arg result => ?_
  cases arg <;> simp [Operand.apply]

theorem eval_pair_eq_ok_iff {first second : Expr} :
    (Expr.array [first, second]).eval call env = .ok (.value value) ↔
      ∃ x y, first.eval call env = .ok (.value x) ∧ second.eval call env = .ok (.value y) ∧
        value = .list [x, y] := by
  simp only [Expr.eval, Expr.evalAll, bind_eq_ok_iff, pure_eq_ok_iff, mapM_eq_ok_iff,
    Operand.toValue_eq_ok_iff, Except.ok.injEq]
  constructor
  · rintro ⟨_, ⟨_, hfirst, _, ⟨_, hsecond, _, rfl, rfl⟩, rfl⟩, values, hvalues, heq⟩
    obtain _ | @⟨_, x, _, _, rfl, _ | @⟨_, y, _, _, rfl, _ | _⟩⟩ := hvalues
    cases Operand.value.inj heq
    exact ⟨x, y, hfirst, hsecond, rfl⟩
  · rintro ⟨x, y, hfirst, hsecond, rfl⟩
    exact ⟨_, ⟨_, hfirst, _, ⟨_, hsecond, _, rfl, rfl⟩, rfl⟩, [x, y],
      .cons rfl (.cons rfl .nil), rfl⟩

/-- What the lambda of a mapping makes of an entry. -/
theorem bind_entry_eq_ok_iff {key var : String} {converted : Expr}
    {entry result : String × Value} :
    (∃ bound, (Param.items [key, var]).binder.bind (.ofEntry entry) = .ok bound ∧
      (Expr.array [.ident key, converted]).eval call (bound ++ env) =
        .ok (.value (.ofEntry result))) ↔
      result.1 = entry.1 ∧
        converted.eval call ((key, .scalar (.string entry.1)) :: (var, entry.2) :: env) =
          .ok (.value result.2) := by
  have hbind : (Param.items [key, var]).binder.bind (.ofEntry entry) =
      .ok [(key, .scalar (.string entry.1)), (var, entry.2)] := by
    simp [Param.items, Binder.bind, Value.ofEntry]
  have hkey : (Expr.ident key).eval call
      ((key, .scalar (.string entry.1)) :: (var, entry.2) :: env) =
        .ok (.value (.scalar (.string entry.1))) :=
    eval_ident_of_lookup List.lookup_cons_self
  constructor
  · rintro ⟨bound, hbound, hbody⟩
    obtain rfl := Except.ok.inj (hbind.symm.trans hbound)
    obtain ⟨x, y, hx, hy, heq⟩ := eval_pair_eq_ok_iff.mp hbody
    obtain rfl := Operand.value.inj (Except.ok.inj (hkey.symm.trans hx))
    simp only [Value.ofEntry, Value.list.injEq, List.cons.injEq, Value.scalar.injEq,
      Scalar.string.injEq, and_true] at heq
    obtain ⟨hname, rfl⟩ := heq
    exact ⟨hname, hy⟩
  · rintro ⟨hname, hconverted⟩
    refine ⟨_, hbind, eval_pair_eq_ok_iff.mpr ⟨_, _, hkey, hconverted, ?_⟩⟩
    rw [Value.ofEntry, hname]

theorem Value.entryList_ok {result : Value} (h : value.entryList = .ok result) :
    ∃ entries : List (String × Value), result = .list (entries.map Value.ofEntry) := by
  unfold Value.entryList at h
  split at h <;> cases h <;> exact ⟨_, rfl⟩

/-- Mapping a lambda over the values of a mapping. -/
theorem eval_convertEntries_eq_ok_iff (henv : env.IsLocal) {key var : String} {keyTy valueTy : Ty}
    {converted : Expr} :
    (convertEntries src key var keyTy valueTy converted).eval call env = .ok operand ↔
      ∃ found entries results, src.eval call env = .ok (.value found) ∧
        found.entryList = .ok (.list (entries.map Value.ofEntry)) ∧
        List.Forall₂ (fun entry result => result.1 = entry.1 ∧
          converted.eval call ((key, .scalar (.string entry.1)) :: (var, entry.2) :: env) =
            .ok (.value result.2)) entries results ∧
        operand = .value (.ofEntries results) := by
  rw [convertEntries, eval_fromEntries_eq_ok_iff henv]
  constructor
  · rintro ⟨mapped, result, hmapped, hresult, rfl⟩
    obtain ⟨items, values, hitems, hvalues, heq⟩ := eval_map_eq_ok_iff.mp hmapped
    cases Operand.value.inj heq
    obtain ⟨found, list, hsrc, hlist, heq⟩ := (eval_entries_eq_ok_iff henv).mp hitems
    cases Operand.value.inj heq
    obtain ⟨entries, heq⟩ := Value.entryList_ok hlist
    cases Value.list.inj heq
    obtain ⟨results, heq, rfl⟩ := Value.ofEntryList_eq_ok_iff.mp hresult
    cases Value.list.inj heq
    rw [List.forall₂_map_left_iff, List.forall₂_map_right_iff] at hvalues
    exact ⟨found, entries, results, hsrc, hlist,
      hvalues.imp fun _ _ => bind_entry_eq_ok_iff.mp, rfl⟩
  · rintro ⟨found, entries, results, hsrc, hlist, hresults, rfl⟩
    refine ⟨_, _, eval_map_eq_ok_iff.mpr ⟨_, results.map Value.ofEntry,
      (eval_entries_eq_ok_iff henv).mpr ⟨found, _, hsrc, hlist, rfl⟩, ?_, rfl⟩,
      Value.ofEntryList_eq_ok_iff.mpr ⟨results, rfl, rfl⟩, rfl⟩
    rw [List.forall₂_map_left_iff, List.forall₂_map_right_iff]
    exact hresults.imp fun _ _ => bind_entry_eq_ok_iff.mpr

end TypeScript

open TypeScript (Env Expr Fault Literal Operand Value)

variable {call : String → Value → Except Fault Value} {env : Env} {src : Expr} {operand : Operand}

theorem Operand.ofName_functionName {dir : Direction} {name : String}
    (hlookup : env.lookup (dir.functionName name) = none) :
    Operand.ofName env (dir.functionName name) = .declared (dir.functionName name) := by
  have hhead := dir.head?_functionName name
  have hglobals : ∀ global ∈ ["Object", "Date"], global.toList.head? ∉ [some 'g', some 'c'] := by
    decide
  have hne : ∀ global ∈ ["Object", "Date"], dir.functionName name ≠ global := by
    intro global hglobal heq
    exact hglobals global hglobal (heq ▸ hhead)
  rw [Operand.ofName, hlookup]
  simp only [if_neg (hne "Object" (by simp)), if_neg (hne "Date" (by simp))]

theorem eval_functionName (henv : env.IsLocal) (dir : Direction) (name : String) :
    (Expr.ident (dir.functionName name)).eval call env =
      .ok (.declared (dir.functionName name)) := by
  have hhead := dir.head?_functionName name
  rw [Expr.eval, Operand.ofName_functionName (henv.lookup_eq_none fun hlocal => ?_)]
  simp only [List.mem_cons, List.not_mem_nil, or_false] at hhead hlocal
  rcases hhead with heq | heq <;> simp [heq] at hlocal

/-- A call of a conversion function. -/
theorem eval_functionCall_eq_ok_iff (henv : env.IsLocal) {dir : Direction} {name : String} :
    (Expr.call (.ident (dir.functionName name)) [src]).eval call env = .ok operand ↔
      ∃ found result, src.eval call env = .ok (.value found) ∧
        call (dir.functionName name) found = .ok result ∧ operand = .value result := by
  rw [Expr.eval, eval_functionName henv]
  simp only [Expr.evalAll, bind_eq_ok_iff, pure_eq_ok_iff, Except.ok.injEq]
  constructor
  · rintro ⟨_, rfl, _, ⟨arg, hsrc, _, rfl, rfl⟩, result, hresult, rfl⟩
    cases arg with
    | value found => exact ⟨found, result, hsrc, hresult, rfl⟩
    | _ => cases hresult
  · rintro ⟨found, result, hsrc, hresult, rfl⟩
    exact ⟨_, rfl, _, ⟨_, hsrc, _, rfl, rfl⟩, result, hresult, rfl⟩

theorem eval_millisPerSecond :
    millisPerSecond.eval call env = .ok (.value (.scalar (.number 1000))) := by
  simp [millisPerSecond, Expr.eval, Literal.scalar]

/-- A date is converted exactly. -/
theorem eval_convertDate (henv : env.IsLocal) {dir : Direction} {time : Int}
    (htime : IsInstant time)
    (hsrc : src.eval call env = .ok (.value (dir.source.instant time))) :
    (convertDate src dir).eval call env = .ok (.value (dir.target.instant time)) := by
  cases dir with
  | fromWire =>
      have hmillis : Value.operate .times (Form.wire.instant time) (.scalar (.number 1000)) =
          .ok (.scalar (.number time)) := by
        rw [Form.instant, Value.operate, Rat.div_mul_cancel (by decide)]
      have harg : (Expr.binary src .times millisPerSecond).eval call env =
          .ok (.value (.scalar (.number time))) := by
        simp only [Expr.eval, bind_eq_ok_iff, Operand.toValue_eq_ok_iff, pure_eq_ok_iff]
        exact ⟨_, hsrc, _, rfl, _, eval_millisPerSecond, _, rfl, _, hmillis, rfl⟩
      have hdate : Value.ofTime time = .ok (.date time) := by
        unfold IsInstant at htime
        simp [Value.ofTime, htime]
      have hclass := (@TypeScript.eval_global_of_isLocal call env henv).2
      rw [convertDate, Expr.eval, hclass]
      simp only [Expr.evalAll, bind_eq_ok_iff, pure_eq_ok_iff, Except.ok.injEq]
      exact ⟨_, rfl, _, ⟨_, harg, _, rfl, rfl⟩, _, hdate, rfl⟩
  | toWire =>
      have hseconds : Value.operate .divide (.scalar (.number time)) (.scalar (.number 1000)) =
          .ok (Form.wire.instant time) := by
        simp [Form.instant, Value.operate]
      have htimeOf : (methodCall src "getTime" []).eval call env =
          .ok (.value (.scalar (.number time))) := by
        simp only [methodCall, Expr.eval, Expr.evalAll, bind_eq_ok_iff, pure_eq_ok_iff]
        exact ⟨_, ⟨_, hsrc, rfl⟩, _, rfl, _, rfl, rfl⟩
      simp only [convertDate, Expr.eval, bind_eq_ok_iff, Operand.toValue_eq_ok_iff,
        pure_eq_ok_iff]
      exact ⟨_, htimeOf, _, rfl, _, eval_millisPerSecond, _, rfl, _, hseconds, rfl⟩

/-- A call of `unreachable` has no value. -/
theorem eval_unreachable_ne_ok (found : Value) :
    (Expr.call (.ident HelperName.unreachable) []).eval call env ≠ .ok (.value found) := by
  intro h
  rw [Expr.eval] at h
  obtain ⟨function, hfunction, h⟩ := bind_eq_ok_iff.mp h
  obtain ⟨_, hoperands, h⟩ := bind_eq_ok_iff.mp h
  obtain ⟨result, happly, _⟩ := bind_eq_ok_iff.mp h
  cases hoperands
  cases hfunction
  unfold Operand.ofName at happly
  split at happly
  · cases happly
  · simp [HelperName.unreachable, Operand.apply] at happly

theorem LiteralValue.scalar_render (value : LiteralValue) : value.render.scalar = value.scalar := by
  cases value <;> rfl

theorem LiteralValue.scalar_injective : Function.Injective LiteralValue.scalar := by
  intro first second h
  cases first <;> cases second <;> simp_all [LiteralValue.scalar, Int64.toInt_inj]

namespace TypeIndex

variable {index : TypeIndex} {dir : Direction}

/-- A union is converted by the function of the variant that the discriminant marks. -/
theorem eval_dispatchArms_eq_ok_iff {field : String} {arms : UnionArms}
    (hnodup : (arms.map Prod.snd).Nodup) {result : Expr}
    (hresult : index.dispatchArms dir field src arms = .ok result) {found : Value} :
    result.eval call env = .ok (.value found) ↔ ∃ arm ∈ arms, ∃ converted,
      index.modelCall dir arm.1 src = .ok converted ∧
        (Expr.member src field).eval call env = .ok (.value (.scalar arm.2.scalar)) ∧
        converted.eval call env = .ok (.value found) := by
  induction arms generalizing result with
  | nil =>
      cases hresult
      simp only [List.not_mem_nil, false_and, exists_false, iff_false]
      exact eval_unreachable_ne_ok found
  | cons arm rest ih =>
      obtain ⟨path, value⟩ := arm
      rw [List.map_cons, List.nodup_cons] at hnodup
      obtain ⟨converted, otherwise, hconverted, hotherwise, rfl⟩ :=
        dispatchArms_cons_eq_ok_iff.mp hresult
      rw [TypeScript.eval_choice_eq_ok_iff, value.scalar_render]
      constructor
      · rintro ⟨marked, hmarked, ⟨rfl, heval⟩ | ⟨hne, heval⟩⟩
        · exact ⟨_, List.mem_cons_self, converted, hconverted, hmarked, heval⟩
        · obtain ⟨arm, harm, hrest⟩ := (ih hnodup.2 hotherwise).mp heval
          exact ⟨arm, List.mem_cons_of_mem _ harm, hrest⟩
      · rintro ⟨arm, harm, other, hother, hmarked, heval⟩
        refine ⟨_, hmarked, ?_⟩
        rcases List.mem_cons.mp harm with rfl | hin
        · obtain rfl := Except.ok.inj (hconverted.symm.trans hother)
          exact Or.inl ⟨rfl, heval⟩
        · refine Or.inr ⟨fun heq => ?_, (ih hnodup.2 hotherwise).mpr
            ⟨arm, hin, other, hother, hmarked, heval⟩⟩
          have hsame := LiteralValue.scalar_injective (Value.scalar.inj heq)
          exact hnodup.1 (List.mem_map.mpr ⟨arm, hin, hsame⟩)

end TypeIndex

end SchemaWire
