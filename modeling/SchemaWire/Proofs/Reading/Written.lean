import SchemaWire.Proofs.Reading.Spelling

/-!
Types in expressions. Parameters and casts are the places where an expression has types. Whatever is
read has proper types only, so an expression with another one cannot be read from any text. The main
statement is that an expression that needs no parentheses is read back from its text exactly if all
types in it are proper.
-/
namespace SchemaWire.TypeScript

mutual
/-- The types in an expression: those of its parameters and casts. -/
@[simp] def Expr.types : Expr → List Ty
  | .ident _ | .literal _ | .raw _ => []
  | .call callee args | .construct callee args => callee.types ++ Expr.typesAll args
  | .arrow params body => params.filterMap Param.ty ++ body.types
  | .object entries => Expr.entryTypes entries
  | .member owner _ | .optionalMember owner _ => owner.types
  | .template parts => Expr.partTypes parts
  | .await value | .negate value => value.types
  | .binary left _ right => left.types ++ right.types
  | .conditional condition whenTrue whenFalse =>
      condition.types ++ whenTrue.types ++ whenFalse.types
  | .array items => Expr.typesAll items
  | .cast value ty => value.types ++ [ty]

def Expr.typesAll : List Expr → List Ty
  | [] => []
  | value :: rest => value.types ++ Expr.typesAll rest

def Expr.entryTypes : List ObjectEntry → List Ty
  | [] => []
  | .property _ value :: rest | .spread value :: rest => value.types ++ Expr.entryTypes rest

def Expr.partTypes : List TemplatePart → List Ty
  | [] => []
  | .text _ :: rest => Expr.partTypes rest
  | .hole value :: rest => value.types ++ Expr.partTypes rest
end

def ObjectEntry.types : ObjectEntry → List Ty
  | .property _ value | .spread value => value.types

namespace Expr

theorem typesAll_eq_flatMap (values : List Expr) : typesAll values = values.flatMap types := by
  induction values with
  | nil => rfl
  | cons value rest ih => rw [typesAll, ih, List.flatMap_cons]

theorem entryTypes_eq_flatMap (entries : List ObjectEntry) :
    entryTypes entries = entries.flatMap ObjectEntry.types := by
  induction entries with
  | nil => rfl
  | cons entry rest ih =>
      rw [List.flatMap_cons, ← ih]
      cases entry <;> rfl

/-- Whether parentheses are needed does not depend on the types. -/
theorem Clear.of_types {types others : Ty → Prop} {expr : Expr} (h : expr.Clear types)
    (htypes : ∀ ty ∈ expr.types, others ty) : expr.Clear others := by
  induction h with
  | ident hname => exact .ident hname
  | literal value => exact .literal value
  | call _ hlevel _ ihCallee ihArgs =>
      simp only [Expr.types, typesAll_eq_flatMap, List.forall_mem_append,
        List.forall_mem_flatMap] at htypes
      exact .call (ihCallee htypes.1) hlevel fun arg hmem => ihArgs arg hmem (htypes.2 arg hmem)
  | construct hname _ ih =>
      simp only [Expr.types, typesAll_eq_flatMap, List.nil_append,
        List.forall_mem_flatMap] at htypes
      exact .construct hname fun arg hmem => ih arg hmem (htypes arg hmem)
  | arrow hparams _ hstart ih =>
      simp only [Expr.types, List.forall_mem_append] at htypes
      refine .arrow (fun param hmem => ?_) (ih htypes.2) hstart
      have hparam := hparams param hmem
      exact ⟨hparam.required, hparam.binder, fun ty hty =>
        htypes.1 ty (List.mem_filterMap.mpr ⟨param, hmem, hty⟩)⟩
  | object _ ih =>
      simp only [Expr.types, entryTypes_eq_flatMap, List.flatMap_map,
        List.forall_mem_flatMap] at htypes
      exact .object fun field hmem => ih field hmem (htypes field hmem)
  | member _ hlevel property ih => exact .member (ih htypes) hlevel property
  | binary _ _ hlevel htighter ihLeft ihRight =>
      simp only [Expr.types, List.forall_mem_append] at htypes
      exact .binary (ihLeft htypes.1) (ihRight htypes.2) hlevel htighter
  | conditional _ _ _ hlevel ihCondition ihTrue ihFalse =>
      simp only [Expr.types, List.forall_mem_append] at htypes
      exact .conditional (ihCondition htypes.1.1) (ihTrue htypes.1.2) (ihFalse htypes.2) hlevel
  | array _ ih =>
      simp only [Expr.types, typesAll_eq_flatMap, List.forall_mem_flatMap] at htypes
      exact .array fun item hmem => ih item hmem (htypes item hmem)
  | cast _ hlevel _ ih =>
      simp only [Expr.types, List.forall_mem_append, List.forall_mem_singleton] at htypes
      exact .cast (ih htypes.1) hlevel htypes.2

theorem Clear.types_of {types : Ty → Prop} {expr : Expr} (h : expr.Clear types) :
    ∀ ty ∈ expr.types, types ty := by
  have all {values : List Expr} (h : ∀ value ∈ values, ∀ ty ∈ value.types, types ty) :
      ∀ ty ∈ typesAll values, types ty := by
    rw [typesAll_eq_flatMap]
    exact List.forall_mem_flatMap.mpr h
  induction h with
  | ident hname => exact List.forall_mem_nil _
  | literal value => exact List.forall_mem_nil _
  | call _ _ _ ihCallee ihArgs => exact List.forall_mem_append.mpr ⟨ihCallee, all ihArgs⟩
  | construct _ _ ih => exact all ih
  | arrow hparams _ _ ih =>
      refine List.forall_mem_append.mpr ⟨fun ty hty => ?_, ih⟩
      obtain ⟨param, hmem, hty⟩ := List.mem_filterMap.mp hty
      exact (hparams param hmem).ty ty hty
  | object _ ih =>
      rw [Expr.types, entryTypes_eq_flatMap, List.flatMap_map]
      exact List.forall_mem_flatMap.mpr ih
  | member _ _ _ ih => exact ih
  | binary _ _ _ _ ihLeft ihRight => exact List.forall_mem_append.mpr ⟨ihLeft, ihRight⟩
  | conditional _ _ _ _ ihCondition ihTrue ihFalse =>
      exact List.forall_mem_append.mpr ⟨List.forall_mem_append.mpr ⟨ihCondition, ihTrue⟩, ihFalse⟩
  | array _ ih => exact all ih
  | cast _ _ hty ih => exact List.forall_mem_append.mpr ⟨ih, List.forall_mem_singleton.mpr hty⟩

end Expr

/-! What readers return. -/

/-- Whatever holds of the items that can be read holds of those of a list. -/
theorem readListed_forall {α : Type} {close : Mark} {bound : Nat}
    {item : (lexemes : List Lexeme) → lexemes.length ≤ bound → Option (α × List Lexeme)}
    {p : α → Prop}
    (hitem : ∀ part hbound value rest, item part hbound = some (value, rest) → p value)
    {lexemes rest : List Lexeme} {values : List α} {h : lexemes.length ≤ bound}
    (hread : readListed close bound item lexemes h = some (values, rest)) :
    ∀ value ∈ values, p value := by
  induction hlength : lexemes.length using Nat.strongRecOn
    generalizing lexemes values rest with
  | ind length ih =>
      rw [readListed.eq_def] at hread
      split at hread
      · rename_i first mark after hfirst
        have hp := hitem _ _ _ _ hfirst
        split at hread
        · cases hread
          simpa using hp
        · split at hread
          · rename_i hcomma
            obtain ⟨⟨others, last⟩, hothers, hread⟩ := Option.bind_eq_some_iff.mp hread
            cases hread
            exact List.forall_mem_cons.mpr ⟨hp, ih _ (hlength ▸ hcomma.2) hothers rfl⟩
          · cases hread
      · cases hread
      · obtain ⟨after, _, hread⟩ := Option.bind_eq_some_iff.mp hread
        cases hread
        exact List.forall_mem_nil _

/-- What a type is made from if it is read by itself. -/
def IsAtom (ty : Ty) : Prop :=
  ty.Proper ∧ ty.isUnion = false

theorem isAtom_literal {value : Literal} (h : value ≠ .null) : IsAtom (.literal value) :=
  ⟨.literal h, rfl⟩

theorem isAtom_of_ofWord? {word : String} {ty : Ty} (h : Ty.ofWord? word = some ty) :
    IsAtom ty := by
  unfold Ty.ofWord? at h
  split at h
  · cases h
    exact ⟨.primitive _, rfl⟩
  · rename_i hnone
    split at h
    · cases h
      exact isAtom_literal (by simp)
    · split at h
      · cases h
        exact isAtom_literal (by simp)
      · split at h
        · rename_i hvalid
          cases h
          refine ⟨.named hvalid ?_, rfl⟩
          rintro kind rfl
          cases hnone.symm.trans (PrimitiveTy.ofWord?_print kind)
        · cases h

theorem isAtom_of_applied? {name : String} {args : List Ty} {ty : Ty}
    (h : Ty.applied? name args = some ty) (hargs : ∀ arg ∈ args, arg.Proper) : IsAtom ty := by
  unfold Ty.applied? at h
  split at h
  · cases h
    exact ⟨.array (hargs _ List.mem_cons_self), rfl⟩
  · cases h
    exact ⟨.record (hargs _ List.mem_cons_self)
      (hargs _ (List.mem_cons_of_mem _ List.mem_cons_self)), rfl⟩
  · cases h
  · rename_i hne hnotArray hnotRecord
    split at h
    · rename_i hvalid
      cases h
      refine ⟨.generic hvalid hne ?_ ?_ hargs, rfl⟩
      · rintro rfl hlength
        obtain ⟨element, rfl⟩ := List.length_eq_one_iff.mp hlength
        exact hnotArray element rfl rfl
      · rintro rfl hlength
        obtain ⟨key, value, rfl⟩ := List.length_eq_two.mp hlength
        exact hnotRecord key value rfl rfl
    · cases h

theorem proper_ofMembers {members : List Ty} (hne : members ≠ [])
    (h : ∀ member ∈ members, IsAtom member) : (Ty.ofMembers members).Proper := by
  match members, hne with
  | [only], _ => exact (h only List.mem_cons_self).1
  | first :: second :: rest, _ =>
      exact .union (by simp) (fun member hmem => (h member hmem).2) fun member hmem =>
        (h member hmem).1

variable {lexemes rest : List Lexeme}

/-- All types that are read from less than the lexemes are proper. -/
def ProperBelow (lexemes : List Lexeme) : Prop :=
  ∀ part, part.length < lexemes.length → ∀ ty rest, readTy part = some (ty, rest) → ty.Proper

theorem isAtom_of_readAtom {ty : Ty} (hbelow : ProperBelow lexemes)
    (h : readAtom lexemes = some (ty, rest)) : IsAtom ty := by
  rw [readAtom.eq_def] at h
  split at h
  · obtain ⟨⟨args, after⟩, hargs, h⟩ := Option.bind_eq_some_iff.mp h
    obtain ⟨applied, happlied, h⟩ := Option.bind_eq_some_iff.mp h
    cases h
    refine isAtom_of_applied? happlied (readListed_forall ?_ hargs)
    intro part hbound value last hread
    exact hbelow part (by simp only [List.length_cons]; omega) value last hread
  · obtain ⟨found, hfound, h⟩ := Option.bind_eq_some_iff.mp h
    cases h
    exact isAtom_of_ofWord? hfound
  · cases h
    exact isAtom_literal (by simp)
  · cases h
    exact isAtom_literal (by simp)
  · cases h

theorem isAtom_of_readMembers {members : List Ty} (hbelow : ProperBelow lexemes)
    (h : readMembers lexemes = some (members, rest)) :
    members ≠ [] ∧ ∀ member ∈ members, IsAtom member := by
  induction hlength : lexemes.length using Nat.strongRecOn generalizing lexemes members rest with
  | ind length ih =>
      rw [readMembers.eq_def] at h
      split at h
      · rename_i first after hfirst
        have hatom := isAtom_of_readAtom hbelow hfirst
        split at h
        · rename_i hshorter
          obtain ⟨⟨others, last⟩, hothers, h⟩ := Option.bind_eq_some_iff.mp h
          cases h
          have hrest := ih _ (hlength ▸ hshorter)
            (fun part hpart => hbelow part (Nat.lt_trans hpart hshorter)) hothers rfl
          exact ⟨List.cons_ne_nil _ _, List.forall_mem_cons.mpr ⟨hatom, hrest.2⟩⟩
        · cases h
      · rename_i first after _ hfirst
        cases h
        exact ⟨List.cons_ne_nil _ _,
          List.forall_mem_singleton.mpr (isAtom_of_readAtom hbelow hfirst)⟩
      · cases h

/-- Only proper types are read. -/
theorem proper_of_readTy {ty : Ty} (h : readTy lexemes = some (ty, rest)) : ty.Proper := by
  induction hlength : lexemes.length using Nat.strongRecOn generalizing lexemes ty rest with
  | ind length ih =>
      rw [readTy] at h
      obtain ⟨⟨members, after⟩, hmembers, h⟩ := Option.bind_eq_some_iff.mp h
      cases h
      obtain ⟨hne, hatoms⟩ := isAtom_of_readMembers
        (fun part hpart ty rest hread => ih _ (hlength ▸ hpart) hread rfl) hmembers
      exact proper_ofMembers hne hatoms

/-- All types in the expression can be told from their texts. -/
def Expr.IsProper (expr : Expr) : Prop :=
  ∀ ty ∈ expr.types, ty.Proper

theorem shorter?_eq_some {α : Type} {result : Option (α × List Lexeme)} {value : α}
    {after : List Lexeme} {h : after.length < lexemes.length}
    (hread : shorter? lexemes result = some (value, ⟨after, h⟩)) :
    result = some (value, after) := by
  unfold shorter? at hread
  split at hread
  · split at hread <;> cases hread
    rfl
  · cases hread

theorem followedBy_eq_some {α : Type} {mark : Mark} {result : Option (α × List Lexeme)} {value : α}
    (h : followedBy mark result = some (value, rest)) : ∃ after, result = some (value, after) := by
  obtain ⟨⟨found, after⟩, hfound, h⟩ := Option.bind_eq_some_iff.mp h
  obtain ⟨last, _, h⟩ := Option.bind_eq_some_iff.mp h
  cases h
  exact ⟨after, hfound⟩

theorem proper_of_readParam {param : Param} (h : readParam lexemes = some (param, rest)) :
    ∀ ty ∈ param.ty, ty.Proper := by
  obtain ⟨⟨binder, after⟩, _, h⟩ := Option.bind_eq_some_iff.mp h
  dsimp only at h
  split at h
  · obtain ⟨⟨ty, last⟩, hty, h⟩ := Option.bind_eq_some_iff.mp h
    cases h
    rintro other hother
    cases Option.mem_some_iff.mp hother
    exact proper_of_readTy hty
  · cases h
    exact nofun

theorem proper_of_readParams {params : List Param} (h : readParams lexemes = some (params, rest)) :
    ∀ ty ∈ params.filterMap Param.ty, ty.Proper := by
  obtain ⟨after, h⟩ := followedBy_eq_some h
  have hparams := readListed_forall (p := fun param : Param => ∀ ty ∈ param.ty, ty.Proper)
    (fun _ _ _ _ => proper_of_readParam) h
  intro ty hty
  obtain ⟨param, hmem, hty⟩ := List.mem_filterMap.mp hty
  exact hparams param hmem ty hty

theorem types_readAccesses (owner : Expr) (lexemes : List Lexeme) :
    (readAccesses owner lexemes).1.types = owner.types := by
  fun_induction readAccesses owner lexemes with
  | case1 => simp_all
  | case2 => rfl

theorem types_of_readCallee {callee : Expr} (h : readCallee lexemes = some (callee, rest)) :
    callee.types = [] := by
  obtain ⟨⟨name, after⟩, _, h⟩ := Option.bind_eq_some_iff.mp h
  obtain ⟨last, h⟩ := followedBy_eq_some h
  have hcallee : (readAccesses (.ident name) after).1 = callee :=
    congrArg Prod.fst (Option.some.inj h)
  rw [← hcallee]
  exact types_readAccesses _ _

/-- What is read from less than the lexemes is proper. -/
def IsProperBelow (lexemes : List Lexeme) : Prop :=
  ∀ part, part.length < lexemes.length →
    ∀ level expr rest, read level part = some (expr, rest) → expr.IsProper

theorem IsProperBelow.of_length_le {part : List Lexeme} (h : IsProperBelow lexemes)
    (hle : part.length ≤ lexemes.length) : IsProperBelow part :=
  fun other hother => h other (Nat.lt_of_lt_of_le hother hle)

theorem isProper_of_readEntry {entry : ObjectEntry} (hbelow : IsProperBelow lexemes)
    (h : readEntry lexemes = some (entry, rest)) : ∀ ty ∈ entry.types, ty.Proper := by
  rw [readEntry.eq_def] at h
  split at h
  · obtain ⟨key, _, h⟩ := Option.bind_eq_some_iff.mp h
    obtain ⟨⟨value, after⟩, hvalue, h⟩ := Option.bind_eq_some_iff.mp h
    cases h
    exact hbelow _ (by simp only [List.length_cons]; omega) _ _ _ hvalue
  · cases h

theorem isProper_literal (value : Literal) : (Expr.literal value).IsProper :=
  List.forall_mem_nil _

theorem isProper_of_ofWord? {word : String} {expr : Expr} (h : Expr.ofWord? word = some expr) :
    expr.IsProper := by
  unfold Expr.ofWord? at h
  split at h
  · cases h
    exact isProper_literal _
  · cases h
    exact isProper_literal _
  · cases h
    exact isProper_literal _
  · split at h <;> cases h
    exact List.forall_mem_nil _

/-- The expressions of a list are proper if those are that are read from less. -/
theorem isProper_of_readListed {close : Mark} {part : List Lexeme} {values : List Expr}
    (hbelow : IsProperBelow lexemes) (hlength : part.length < lexemes.length)
    (h : readListed close part.length (fun part _ => read 1 part) part (Nat.le_refl _) =
      some (values, rest)) : ∀ ty ∈ Expr.typesAll values, ty.Proper := by
  have hvalues := readListed_forall (fun part hbound value after hread =>
    hbelow part (Nat.lt_of_le_of_lt hbound hlength) 1 value after hread) h
  rw [Expr.typesAll_eq_flatMap]
  exact List.forall_mem_flatMap.mpr hvalues

theorem isProper_of_readFirst {level limit : Nat} {expr : Expr} (hbelow : IsProperBelow lexemes)
    (h : readFirst level lexemes = some ((expr, limit), rest)) : expr.IsProper := by
  rw [readFirst.eq_def] at h
  split at h
  · rename_i word others
    split at h
    · obtain ⟨⟨callee, after, hafter⟩, hcallee, h⟩ := Option.bind_eq_some_iff.mp h
      obtain ⟨⟨args, last⟩, hargs, h⟩ := Option.bind_eq_some_iff.mp h
      cases h
      have hlist := isProper_of_readListed hbelow (Nat.lt_succ_of_lt hafter) hargs
      intro ty hty
      rw [Expr.types, types_of_readCallee (shorter?_eq_some hcallee), List.nil_append] at hty
      exact hlist ty hty
    · obtain ⟨value, hvalue, h⟩ := Option.bind_eq_some_iff.mp h
      cases h
      exact isProper_of_ofWord? hvalue
  · cases h
    exact isProper_literal _
  · cases h
    exact isProper_literal _
  · obtain ⟨⟨items, after⟩, hitems, h⟩ := Option.bind_eq_some_iff.mp h
    cases h
    exact isProper_of_readListed hbelow (Nat.lt_succ_self _) hitems
  · rename_i others
    obtain ⟨⟨entries, after⟩, hentries, h⟩ := Option.bind_eq_some_iff.mp h
    cases h
    have hall := readListed_forall (p := fun entry : ObjectEntry => ∀ ty ∈ entry.types, ty.Proper)
      (fun part hbound entry last hread => isProper_of_readEntry
        (hbelow.of_length_le (Nat.le_succ_of_le hbound)) hread) hentries
    rw [Expr.IsProper, Expr.types, Expr.entryTypes_eq_flatMap]
    exact List.forall_mem_flatMap.mpr hall
  · split at h
    · rename_i params after hafter hparams
      split at h
      · obtain ⟨⟨body, last⟩, hbody, h⟩ := Option.bind_eq_some_iff.mp h
        cases h
        exact List.forall_mem_append.mpr ⟨proper_of_readParams (shorter?_eq_some hparams),
          hbelow _ (Nat.lt_succ_of_lt hafter) _ _ _ hbody⟩
      · cases h
    · obtain ⟨⟨inner, after⟩, hinner, h⟩ := Option.bind_eq_some_iff.mp h
      cases h
      obtain ⟨last, hread⟩ := followedBy_eq_some hinner
      exact hbelow _ (Nat.lt_succ_self _) _ _ _ hread
  · cases h

/-- What goes on from a proper expression is proper. -/
theorem isProper_of_readOn {level limit : Nat} {left expr : Expr} (hbelow : IsProperBelow lexemes)
    (hleft : left.IsProper) (h : readOn level limit left lexemes = some (expr, rest)) :
    expr.IsProper := by
  induction hlength : lexemes.length using Nat.strongRecOn
    generalizing lexemes limit left expr rest with
  | ind length ih =>
      -- Each way to go on reads something from less, and goes on behind it.
      have hon {after : List Lexeme} {limit : Nat} {next last : Expr}
          (hafter : after.length < lexemes.length)
          (h : readOn level limit next after = some (last, rest)) (hnext : next.IsProper) :
          last.IsProper :=
        ih _ (hlength ▸ hafter) (hbelow.of_length_le (Nat.le_of_lt hafter)) hnext h rfl
      rw [readOn.eq_def] at h
      split at h
      · cases h
        exact hleft
      · rename_i lexeme others
        split at h
        · cases h
          exact hleft
        · split at h
          · obtain ⟨⟨right, after, hafter⟩, hright, h⟩ := Option.bind_eq_some_iff.mp h
            have hproper := hbelow _ (Nat.lt_succ_self _) _ _ _ (shorter?_eq_some hright)
            exact hon (Nat.lt_succ_of_lt hafter) h (List.forall_mem_append.mpr ⟨hleft, hproper⟩)
          · obtain ⟨⟨whenTrue, after, hafter⟩, htrue, h⟩ := Option.bind_eq_some_iff.mp h
            obtain ⟨⟨whenFalse, last, hlast⟩, hfalse, h⟩ := Option.bind_eq_some_iff.mp h
            obtain ⟨_, htrue⟩ := followedBy_eq_some (shorter?_eq_some htrue)
            have hproper := hbelow _ (Nat.lt_succ_self _) _ _ _ htrue
            have hother := hbelow _ (Nat.lt_succ_of_lt hafter) _ _ _ (shorter?_eq_some hfalse)
            exact hon (Nat.lt_succ_of_lt hlast) h (List.forall_mem_append.mpr
              ⟨List.forall_mem_append.mpr ⟨hleft, hproper⟩, hother⟩)
          · obtain ⟨⟨ty, after, hafter⟩, hty, h⟩ := Option.bind_eq_some_iff.mp h
            have hproper := proper_of_readTy (shorter?_eq_some hty)
            exact hon (Nat.lt_succ_of_lt hafter) h
              (List.forall_mem_append.mpr ⟨hleft, List.forall_mem_singleton.mpr hproper⟩)
          · obtain ⟨⟨args, after, hafter⟩, hargs, h⟩ := Option.bind_eq_some_iff.mp h
            have hproper := isProper_of_readListed hbelow (Nat.lt_succ_self _)
              (shorter?_eq_some hargs)
            exact hon (Nat.lt_succ_of_lt hafter) h (List.forall_mem_append.mpr ⟨hleft, hproper⟩)
          · obtain ⟨⟨property, after, hafter⟩, _, h⟩ := Option.bind_eq_some_iff.mp h
            exact hon (Nat.lt_succ_of_lt hafter) h hleft

/-- Only expressions with proper types are read. -/
theorem isProper_of_read {level : Nat} {expr : Expr} (h : read level lexemes = some (expr, rest)) :
    expr.IsProper := by
  induction hlength : lexemes.length using Nat.strongRecOn generalizing lexemes level expr rest with
  | ind length ih =>
      have hbelow : IsProperBelow lexemes := fun part hpart level expr rest hread =>
        ih _ (hlength ▸ hpart) hread rfl
      rw [read] at h
      obtain ⟨⟨⟨first, limit⟩, after, hafter⟩, hfirst, h⟩ := Option.bind_eq_some_iff.mp h
      exact isProper_of_readOn (hbelow.of_length_le (Nat.le_of_lt hafter))
        (isProper_of_readFirst hbelow (shorter?_eq_some hfirst)) h

theorem isProper_of_readExpr {text : String} {expr : Expr} (h : readExpr text = some expr) :
    expr.IsProper := by
  obtain ⟨lexemes, _, h⟩ := Option.bind_eq_some_iff.mp h
  split at h
  · rename_i hread
    cases h
    exact isProper_of_read hread
  · cases h

/-- An expression that needs no parentheses is read back from its text as it is if and only if its
types can be told from theirs. -/
theorem Expr.Clear.readExpr_print_iff {types : Ty → Prop} {expr : Expr} (h : expr.Clear types) :
    readExpr expr.print = some expr ↔ expr.IsProper := by
  refine ⟨isProper_of_readExpr, fun hproper => ?_⟩
  have hclear := h.of_types hproper
  rw [hclear.readExpr_print, hclear.spelled_eq]

end SchemaWire.TypeScript
