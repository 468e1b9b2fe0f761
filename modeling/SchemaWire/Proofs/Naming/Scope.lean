import SchemaWire.Proofs.Naming.Claimant

/-!
What claiming names does to a scope. A scope that has grown by some claimants owns what it owned
before and what they claim, nothing else. Claims succeed as long as all owners come from one
assignment of owners to names; in which order they are made does not matter.
-/
namespace SchemaWire

/-- No name has two owners. -/
def SingleOwners (owns : String → String → Prop) : Prop :=
  ∀ name first second, owns name first → owns name second → first = second

namespace Scope

theorem owner?_claim_iff {scope next : Scope} {name owner : String}
    (h : scope.claim name owner = .ok next) (other text : String) :
    next.owner? other = some text ↔
      scope.owner? other = some text ∨ (name = other ∧ owner = text) := by
  by_cases hname : name = other
  · subst hname
    have hnext := owner?_claim h
    unfold claim at h
    cases howner : scope.owner? name with
    | none => simp [hnext]
    | some current =>
        rw [howner] at h
        simp only at h
        split at h
        · rename_i heq
          simp [hnext, heq]
        · cases h
  · rw [owner?_claim_of_ne h (Ne.symm hname)]
    simp [hname]

@[simp]
theorem enums_claim {scope next : Scope} {name owner : String}
    (h : scope.claim name owner = .ok next) : next.enums = scope.enums := by
  unfold claim at h
  split at h
  · cases h
    rfl
  · split at h <;> cases h
    rfl

/-- The scope `next` owns what `scope` owns and what the claimants claim. -/
def Grown (scope next : Scope) (claimants : List Claimant) : Prop :=
  ∀ name text, next.owner? name = some text ↔
    scope.owner? name = some text ∨
      ∃ claimant ∈ claimants, claimant.name = name ∧ claimant.owner = text

/-- The claimants own their names. -/
def Holds (scope : Scope) (claimants : List Claimant) : Prop :=
  ∀ claimant ∈ claimants, scope.owner? claimant.name = some claimant.owner

/-- All owners that the scope records come from an assignment. -/
def Within (scope : Scope) (owns : String → String → Prop) : Prop :=
  ∀ name text, scope.owner? name = some text → owns name text

theorem Grown.refl (scope : Scope) : scope.Grown scope [] := by
  intro name text
  simp

theorem Grown.trans {scope middle next : Scope} {first second : List Claimant}
    (hfirst : scope.Grown middle first) (hsecond : middle.Grown next second) :
    scope.Grown next (first ++ second) := by
  intro name text
  rw [hsecond name text, hfirst name text, or_assoc]
  simp only [List.mem_append, or_and_right, exists_or]

/-- The enums of a scope have no say in who owns which name. -/
theorem Grown.withEnums {scope next : Scope} {claimants : List Claimant}
    (h : scope.Grown next claimants) (enums : EnumRegistry) :
    scope.Grown { next with enums } claimants :=
  h

theorem grown_claim {scope next : Scope} {claimant : Claimant}
    (h : scope.claim claimant.name claimant.owner = .ok next) : scope.Grown next [claimant] := by
  intro name text
  simpa using owner?_claim_iff h name text

theorem Grown.owner? {scope next : Scope} {claimants : List Claimant} {claimant : Claimant}
    (h : scope.Grown next claimants) (hmem : claimant ∈ claimants) :
    next.owner? claimant.name = some claimant.owner :=
  (h _ _).mpr (Or.inr ⟨claimant, hmem, rfl, rfl⟩)

theorem Grown.holds {scope next : Scope} {before claimants : List Claimant}
    (h : scope.Grown next claimants) (hbefore : scope.Holds before) :
    next.Holds (before ++ claimants) := by
  intro claimant hmem
  rcases List.mem_append.mp hmem with hold | hnew
  · exact (h _ _).mpr (Or.inl (hbefore claimant hold))
  · exact h.owner? hnew

/-- A claim leaves everybody what they own. -/
theorem Holds.claim {scope next : Scope} {claimants : List Claimant} {name owner : String}
    (hholds : scope.Holds claimants) (h : scope.claim name owner = .ok next) :
    next.Holds claimants :=
  fun claimant hmem => (owner?_claim_iff h _ _).mpr (Or.inl (hholds claimant hmem))

theorem Grown.within {scope next : Scope} {claimants : List Claimant}
    {owns : String → String → Prop} (h : scope.Grown next claimants) (hwithin : scope.Within owns)
    (howns : ∀ claimant ∈ claimants, owns claimant.name claimant.owner) : next.Within owns := by
  intro name text howner
  rcases (h name text).mp howner with hold | ⟨claimant, hmem, rfl, rfl⟩
  · exact hwithin name text hold
  · exact howns claimant hmem

/-- A claim that agrees with an assignment of owners keeps to it. -/
theorem Within.claim {scope next : Scope} {owns : String → String → Prop}
    (hwithin : scope.Within owns) {name owner : String} (howns : owns name owner)
    (h : scope.claim name owner = .ok next) : next.Within owns := by
  intro other text howner
  rcases (owner?_claim_iff h other text).mp howner with hold | ⟨rfl, rfl⟩
  · exact hwithin other text hold
  · exact howns

/-- A claim that agrees with an assignment of owners succeeds. -/
theorem exists_claim {scope : Scope} {owns : String → String → Prop} (hsingle : SingleOwners owns)
    (hwithin : scope.Within owns) {name owner : String} (howns : owns name owner) :
    ∃ next, scope.claim name owner = .ok next := by
  unfold claim
  cases hcurrent : scope.owner? name with
  | none => exact ⟨_, rfl⟩
  | some current =>
      have heq := hsingle name current owner (hwithin name current hcurrent) howns
      exact ⟨scope, by simp [heq]⟩

theorem declareTag_eq_ok_iff {scope next : Scope} {tag : EnumTag} {inner : Descriptor} :
    scope.declareTag tag inner = .ok next ↔ tag.check inner = .ok () ∧ ∃ claimed,
      scope.claim tag.name ("enum " ++ tag.name) = .ok claimed ∧
        next = { claimed with enums := claimed.enums.add tag } := by
  simp only [declareTag, bind_eq_ok_iff, pure_eq_ok_iff, @eq_comm _ next]
  exact ⟨fun ⟨_, h⟩ => h, fun h => ⟨(), h⟩⟩

/-- What declaring enum tags does: every tag passes its check, its name is claimed and its values
are added. -/
theorem declareTags_ok {scope next : Scope} {tags : List (EnumTag × Descriptor)}
    (h : scope.declareTags tags = .ok next) :
    (∀ tag ∈ tags, tag.1.check tag.2 = .ok ()) ∧
      scope.Grown next (tags.map fun tag => .enum tag.1.name) ∧
      next.enums = tags.foldl (fun enums tag => enums.add tag.1) scope.enums := by
  induction tags generalizing scope with
  | nil =>
      cases h
      exact ⟨by simp, Grown.refl next, rfl⟩
  | cons head rest ih =>
      obtain ⟨tag, inner⟩ := head
      obtain ⟨middle, hmiddle, hrest⟩ := bind_eq_ok_iff.mp h
      obtain ⟨hcheck, claimed, hclaim, rfl⟩ := declareTag_eq_ok_iff.mp hmiddle
      obtain ⟨hchecks, hgrown, henums⟩ := ih hrest
      refine ⟨?_, ?_, ?_⟩
      · intro entry hentry
        rcases List.mem_cons.mp hentry with rfl | hin
        · exact hcheck
        · exact hchecks entry hin
      · have hhead : scope.Grown claimed [.enum tag.name] :=
          @grown_claim _ _ (.enum tag.name) hclaim
        exact (hhead.withEnums _).trans hgrown
      · rw [henums, enums_claim hclaim]
        rfl

theorem exists_declareTags {scope : Scope} {owns : String → String → Prop}
    (hsingle : SingleOwners owns) (hwithin : scope.Within owns)
    {tags : List (EnumTag × Descriptor)} (hchecks : ∀ tag ∈ tags, tag.1.check tag.2 = .ok ())
    (howns : ∀ tag ∈ tags, owns tag.1.name (Claimant.enum tag.1.name).owner) :
    ∃ next, scope.declareTags tags = .ok next := by
  induction tags generalizing scope with
  | nil => exact ⟨scope, rfl⟩
  | cons head rest ih =>
      obtain ⟨tag, inner⟩ := head
      obtain ⟨claimed, hclaim⟩ := exists_claim hsingle hwithin (howns _ List.mem_cons_self)
      have hclaimed := hwithin.claim (howns _ List.mem_cons_self) hclaim
      obtain ⟨next, hnext⟩ := @ih { claimed with enums := claimed.enums.add tag } hclaimed
        (fun entry hentry => hchecks entry (List.mem_cons_of_mem _ hentry))
        (fun entry hentry => howns entry (List.mem_cons_of_mem _ hentry))
      have htag : scope.declareTag tag inner =
          .ok { claimed with enums := claimed.enums.add tag } :=
        declareTag_eq_ok_iff.mpr ⟨hchecks (tag, inner) List.mem_cons_self, claimed, hclaim, rfl⟩
      exact ⟨next, bind_eq_ok_iff.mpr ⟨_, htag, hnext⟩⟩

end Scope

end SchemaWire
