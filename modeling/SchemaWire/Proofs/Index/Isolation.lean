import SchemaWire.Generate
import SchemaWire.Proofs.Index.Registration

/-!
What the rest of a graph can do to a generation. A traversal asks the graph for the models that it
meets and for no others. The main statement is that two graphs which agree on every model reachable
from the roots and from the models of the routes give the same module, or fail with the same error;
models that are not reachable have no influence, whatever is wrong with them.
-/
namespace SchemaWire

variable {graph other : ModelGraph}

namespace TypeIndex

theorem declare_congr {path : ModelPath} (hagree : graph.get? path = other.get? path)
    (index : TypeIndex) : declare graph path index = declare other path index := by
  rw [declare, declare, ModelGraph.require, ModelGraph.require, hagree]

/-- A traversal depends on the graph only at the paths that are reachable from the pending ones. -/
theorem visit_congr {pending : List ModelPath} {index : TypeIndex}
    (hagree : ∀ path, Reachable graph.references pending path →
      graph.get? path = other.get? path) :
    visit graph pending index = visit other pending index := by
  fun_induction visit graph pending index with
  | case1 index => rw [visit]
  | case2 path pending index hcontains ih =>
      rw [visit, if_pos hcontains]
      exact ih fun found hfound => hagree found (hfound.mono fun root hroot =>
        List.mem_cons_of_mem _ hroot)
  | case3 path pending index hnew fault hdeclare =>
      rw [declare_congr (hagree path (.root List.mem_cons_self))] at hdeclare
      rw [visit, if_neg hnew]
      split <;> simp_all
  | case4 path pending index hnew middle object hdeclare ih =>
      have hreferences : object.references = graph.references path :=
        ((declare_ok hdeclare).declares _ List.mem_cons_self).references_eq.symm
      rw [declare_congr (hagree path (.root List.mem_cons_self))] at hdeclare
      have hrest := ih fun found hfound => hagree found (by
        obtain ⟨root, hroot, hpath⟩ := hfound
        rw [hreferences] at hroot
        rcases List.mem_append.mp hroot with hbelow | hafter
        · exact ⟨path, List.mem_cons_self, .head hbelow hpath⟩
        · exact ⟨root, List.mem_cons_of_mem _ hafter, hpath⟩)
      rw [hrest]
      conv_rhs => rw [visit, if_neg hnew]
      split <;> simp_all

theorem addRoot_congr {root : ModelPath} {index : TypeIndex}
    (hagree : ∀ path, Reachable graph.references [root] path →
      graph.get? path = other.get? path) :
    addRoot graph root index = addRoot other root index := by
  rw [addRoot, addRoot, visit_congr hagree]

theorem addRoots_congr {roots : List ModelPath} {index : TypeIndex}
    (hagree : ∀ path, Reachable graph.references roots path → graph.get? path = other.get? path) :
    addRoots graph roots index = addRoots other roots index := by
  induction roots generalizing index with
  | nil => rfl
  | cons root rest ih =>
      have hroot := @addRoot_congr graph other root index fun path hpath =>
        hagree path (hpath.mono (by simp))
      have hrest : ∀ next, addRoots graph rest next = addRoots other rest next := fun next =>
        ih fun path hpath => hagree path (hpath.mono fun _ => List.mem_cons_of_mem _)
      simp only [addRoots, hroot, hrest]

end TypeIndex

theorem mem_withRouteModels_iff {roots : List ModelPath} {routes : List RouteDef}
    {path : ModelPath} :
    path ∈ withRouteModels roots routes ↔ path ∈ roots ++ routes.flatMap RouteDef.models := by
  unfold withRouteModels
  induction routes.flatMap RouteDef.models generalizing roots with
  | nil => simp
  | cons model rest ih =>
      rw [List.foldl_cons, ih]
      split
      · rename_i hmem
        simp only [List.mem_append, List.mem_cons]
        constructor
        · tauto
        · rintro (hroot | rfl | hrest)
          · exact Or.inl hroot
          · exact Or.inl hmem
          · exact Or.inr hrest
      · simp

/-- A generation depends on the graph only at the models that are reachable from the roots and from
the models of the routes. -/
theorem generate_congr_of_reachable {roots : List ModelPath} {routes : List RouteDef}
    (hagree : ∀ path, Reachable graph.references (roots ++ routes.flatMap RouteDef.models) path →
      graph.get? path = other.get? path) :
    generate graph roots routes = generate other roots routes := by
  have hindex : TypeIndex.register graph (withRouteModels roots routes) =
      TypeIndex.register other (withRouteModels roots routes) :=
    TypeIndex.addRoots_congr fun path hpath => hagree path (hpath.mono fun root hroot =>
      mem_withRouteModels_iff.mp hroot)
  rw [generate, generate, indexFor, indexFor, hindex]

/-- Two models that refer to each other, and a third whose only field has no possible type. -/
def strayGraph : ModelGraph :=
  TypeIndex.mutualGraph.insert ⟨"app.Stray"⟩ ⟨[⟨"nothing", .union [], none⟩]⟩

/-- A route that receives a model. -/
def membersRoute : RouteDef :=
  ⟨"list_members", none, .get, "/members", none, none, some ⟨"app.Org"⟩⟩

/-- The model without a type is not noticed. -/
theorem generate_congr_of_reachable_stray :
    (∀ path, Reachable TypeIndex.mutualGraph.references
        ([⟨"app.User"⟩] ++ [membersRoute].flatMap RouteDef.models) path →
      TypeIndex.mutualGraph.get? path = strayGraph.get? path) ∧
    generate TypeIndex.mutualGraph [⟨"app.User"⟩] [membersRoute] =
      generate strayGraph [⟨"app.User"⟩] [membersRoute] := by
  have hagree : ∀ path, Reachable TypeIndex.mutualGraph.references
      ([⟨"app.User"⟩] ++ [membersRoute].flatMap RouteDef.models) path →
        TypeIndex.mutualGraph.get? path = strayGraph.get? path := by
    intro path hpath
    have hknown : path ∈ [ModelPath.mk "app.User", ⟨"app.Org"⟩] :=
      hpath.holds (by decide) (by decide)
    have hne : path.text ≠ "app.Stray" := by
      simp only [List.mem_cons, List.not_mem_nil, or_false] at hknown
      rcases hknown with rfl | rfl <;> decide
    exact (SortedMap.get?_insert_of_ne _ hne _).symm
  exact ⟨hagree, generate_congr_of_reachable hagree⟩

end SchemaWire
