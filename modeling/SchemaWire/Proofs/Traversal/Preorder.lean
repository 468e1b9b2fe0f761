import Mathlib.Data.List.Basic
import Mathlib.Data.List.Nodup
import Mathlib.Logic.Relation

/-!
Depth-first preorder of a graph given by ordered successor lists. `Preorder next seen pending out`
says that `out` is the order in which a depth-first traversal of `pending` meets the nodes that are
not in `seen`: a node stands before everything first met below it, and that before its later
siblings. The main statements are that no node is met twice and that the nodes met from a list of
roots are exactly the reachable ones.
-/
namespace SchemaWire

variable {α : Type}

/-- The order in which the nodes are first met. -/
inductive Preorder (next : α → List α) : List α → List α → List α → Prop where
  | done (seen : List α) : Preorder next seen [] []
  | skip {seen pending out : List α} {node : α} (hseen : node ∈ seen)
      (hrest : Preorder next seen pending out) : Preorder next seen (node :: pending) out
  | visit {seen pending below after : List α} {node : α} (hnew : node ∉ seen)
      (hbelow : Preorder next (seen ++ [node]) (next node) below)
      (hafter : Preorder next (seen ++ [node] ++ below) pending after) :
      Preorder next seen (node :: pending) (node :: below ++ after)

/-- A node is reachable if successors lead to it from a root. -/
def Reachable (next : α → List α) (roots : List α) (node : α) : Prop :=
  ∃ root ∈ roots, Relation.ReflTransGen (fun a b => b ∈ next a) root node

theorem Reachable.root {next : α → List α} {roots : List α} {node : α} (hmem : node ∈ roots) :
    Reachable next roots node :=
  ⟨node, hmem, .refl⟩

theorem Reachable.step {next : α → List α} {roots : List α} {node child : α}
    (hnode : Reachable next roots node) (hchild : child ∈ next node) :
    Reachable next roots child := by
  obtain ⟨root, hroot, hpath⟩ := hnode
  exact ⟨root, hroot, hpath.tail hchild⟩

theorem Reachable.mono {next : α → List α} {roots others : List α} {node : α}
    (hsub : ∀ root ∈ roots, root ∈ others) (h : Reachable next roots node) :
    Reachable next others node := by
  obtain ⟨root, hroot, hpath⟩ := h
  exact ⟨root, hsub root hroot, hpath⟩

/-- What holds of the roots and passes to successors holds of every reachable node. -/
theorem Reachable.holds {next : α → List α} {roots : List α} {holds : α → Prop}
    (hroots : ∀ root ∈ roots, holds root)
    (hnext : ∀ node, holds node → ∀ child ∈ next node, holds child) {node : α}
    (h : Reachable next roots node) : holds node := by
  obtain ⟨root, hroot, hpath⟩ := h
  induction hpath with
  | refl => exact hroots root hroot
  | tail _ hstep ih => exact hnext _ ih _ hstep

namespace Preorder

variable {next : α → List α} {seen pending out : List α}

/-- A list of pending nodes is traversed part by part, the second part past what the first met. -/
theorem append {first second before after : List α} (hfirst : Preorder next seen first before)
    (hsecond : Preorder next (seen ++ before) second after) :
    Preorder next seen (first ++ second) (before ++ after) := by
  induction hfirst with
  | done seen => simpa using hsecond
  | skip hseen _ ih => exact .skip hseen (ih hsecond)
  | @visit seen pending below after' node hnew hbelow _ _ ih =>
      have hrest := ih (by simpa using hsecond)
      simpa using Preorder.visit hnew hbelow hrest

theorem split {first second : List α} (h : Preorder next seen (first ++ second) out) :
    ∃ before after, Preorder next seen first before ∧
      Preorder next (seen ++ before) second after ∧ out = before ++ after := by
  induction first generalizing seen out with
  | nil => exact ⟨[], out, .done seen, by simpa using h, rfl⟩
  | cons node rest ih =>
      cases h with
      | skip hseen hrest =>
          obtain ⟨before, after, hbefore, hafter, hout⟩ := ih hrest
          exact ⟨before, after, .skip hseen hbefore, hafter, hout⟩
      | @visit _ _ below _ _ hnew hbelow hrest =>
          obtain ⟨before, after, hbefore, hafter, rfl⟩ := ih hrest
          refine ⟨node :: below ++ before, after, .visit hnew hbelow hbefore, ?_, by simp⟩
          simpa using hafter

/-- The order is determined by the graph, the nodes seen before and the pending ones. -/
theorem unique {other : List α} (h : Preorder next seen pending out)
    (hother : Preorder next seen pending other) : out = other := by
  induction h generalizing other with
  | done seen =>
      cases hother
      rfl
  | skip hseen _ ih =>
      cases hother with
      | skip _ hrest => exact ih hrest
      | visit hnew _ _ => exact absurd hseen hnew
  | visit hnew _ _ ihBelow ihAfter =>
      cases hother with
      | skip hseen _ => exact absurd hseen hnew
      | visit _ hbelow hafter =>
          cases ihBelow hbelow
          cases ihAfter hafter
          rfl

/-- Every pending node ends up met. -/
theorem pending_subset (h : Preorder next seen pending out) :
    ∀ node ∈ pending, node ∈ seen ++ out := by
  induction h with
  | done seen => simp
  | skip hseen _ ih =>
      intro node hnode
      rcases List.mem_cons.mp hnode with rfl | hrest
      · exact List.mem_append_left _ hseen
      · exact ih node hrest
  | visit _ _ _ _ ihAfter =>
      intro node hnode
      rcases List.mem_cons.mp hnode with rfl | hrest
      · simp
      · simpa using ihAfter node hrest

/-- The successors of every node met are met. -/
theorem next_subset (h : Preorder next seen pending out) :
    ∀ node ∈ out, ∀ child ∈ next node, child ∈ seen ++ out := by
  induction h with
  | done seen => simp
  | skip _ _ ih => exact ih
  | @visit seen pending below after met hnew hbelow hafter ihBelow ihAfter =>
      intro node hnode child hchild
      have hout : node = met ∨ node ∈ below ∨ node ∈ after := by simpa using hnode
      rcases hout with rfl | hin | hin
      · have := hbelow.pending_subset child hchild
        simp only [List.mem_append, List.mem_cons] at this ⊢
        tauto
      · have := ihBelow node hin child hchild
        simp only [List.mem_append, List.mem_cons] at this ⊢
        tauto
      · have := ihAfter node hin child hchild
        simp only [List.mem_append, List.mem_cons] at this ⊢
        tauto

theorem not_mem_seen (h : Preorder next seen pending out) : ∀ node ∈ out, node ∉ seen := by
  induction h with
  | done seen => simp
  | skip _ _ ih => exact ih
  | visit hnew _ _ ihBelow ihAfter =>
      intro node hnode
      simp only [List.cons_append, List.mem_cons, List.mem_append] at hnode
      rcases hnode with rfl | hin | hin
      · exact hnew
      · exact fun hseen => ihBelow node hin (by simp [hseen])
      · exact fun hseen => ihAfter node hin (by simp [hseen])

/-- No node is met twice. -/
theorem nodup (h : Preorder next seen pending out) : out.Nodup := by
  induction h with
  | done seen => exact List.nodup_nil
  | skip _ _ ih => exact ih
  | visit hnew hbelow hafter ihBelow ihAfter =>
      have hbelowNew := hbelow.not_mem_seen
      have hafterNew := hafter.not_mem_seen
      rw [List.cons_append, List.nodup_cons, List.nodup_append]
      refine ⟨?_, ihBelow, ihAfter, ?_⟩
      · intro hmem
        rcases List.mem_append.mp hmem with hin | hin
        · exact hbelowNew _ hin (by simp)
        · exact hafterNew _ hin (by simp)
      · rintro a ha b hb rfl
        exact hafterNew a hb (by simp [ha])

/-- Only nodes reachable from the pending ones are met. -/
theorem reachable (h : Preorder next seen pending out) :
    ∀ node ∈ out, Reachable next pending node := by
  induction h with
  | done seen => simp
  | skip _ _ ih =>
      intro node hnode
      obtain ⟨root, hroot, hpath⟩ := ih node hnode
      exact ⟨root, List.mem_cons_of_mem _ hroot, hpath⟩
  | @visit _ _ _ _ met _ _ _ ihBelow ihAfter =>
      intro node hnode
      simp only [List.cons_append, List.mem_cons, List.mem_append] at hnode
      rcases hnode with rfl | hin | hin
      · exact .root List.mem_cons_self
      · obtain ⟨child, hchild, hpath⟩ := ihBelow node hin
        exact ⟨met, List.mem_cons_self, .head hchild hpath⟩
      · obtain ⟨root, hroot, hpath⟩ := ihAfter node hin
        exact ⟨root, List.mem_cons_of_mem _ hroot, hpath⟩

/-- A traversal that has seen nothing before meets exactly the reachable nodes. -/
theorem mem_iff_reachable {roots : List α} (h : Preorder next [] roots out) (node : α) :
    node ∈ out ↔ Reachable next roots node := by
  constructor
  · exact h.reachable node
  · rintro ⟨root, hroot, hpath⟩
    induction hpath with
    | refl => simpa using h.pending_subset root hroot
    | tail _ hstep ih => simpa using h.next_subset _ ih _ hstep

end Preorder

end SchemaWire
