import LambdaStepper.Identity.Layout
import LambdaStepper.Proofs.Identity.Highlights

/-! # Identities and positions in layouts

A layout that compares every node with an identity is, where no identity stands at two positions, the layout that
compares every position with that of the identity (`treeDrawing_eq`, `circuitDrawing_eq`).

`Node.nodes` lists a term and its subterms, identities and all, in the order of their positions. -/

namespace LambdaStepper.Node

open Layout

/-! ### Subterms -/

/-- The subterms at all positions, in pre-order. -/
def nodes : Node → List Node
  | .var i m x => [.var i m x]
  | .lam i m x body => .lam i m x body :: body.nodes
  | .app i m func arg => .app i m func arg :: (func.nodes ++ arg.nodes)

@[simp] theorem map_id_nodes (n : Node) : n.nodes.map id = n.ids := by
  induction n with
  | var => rfl
  | lam i m x body ih => simp only [nodes, ids, List.map_cons, ih, id]
  | app i m func arg ihf iha => simp only [nodes, ids, List.map_cons, List.map_append, ihf, iha, id]

@[simp] theorem map_term_nodes (n : Node) : n.nodes.map term = n.term.nodes := by
  induction n with
  | var => rfl
  | lam i m x body ih => simp only [nodes, term, Term.nodes, List.map_cons, ih]
  | app i m func arg ihf iha => simp only [nodes, term, Term.nodes, List.map_cons, List.map_append, ihf, iha]

@[simp] theorem mark_term (n : Node) : n.term.mark = n.mark := by
  cases n <;> rfl

theorem self_mem_nodes (n : Node) : n ∈ n.nodes := by
  cases n <;> exact List.mem_cons_self

theorem nodes_sublist_of_mem {n r : Node} (h : r ∈ n.nodes) : r.nodes.Sublist n.nodes := by
  induction n with
  | var i m x =>
      obtain rfl := List.mem_singleton.mp h
      exact List.Sublist.refl _
  | lam i m x body ih =>
      rcases List.mem_cons.mp h with rfl | h
      · exact List.Sublist.refl _
      · exact (ih h).cons _
  | app i m func arg ihf iha =>
      rcases List.mem_cons.mp h with rfl | h
      · exact List.Sublist.refl _
      · apply List.Sublist.cons
        rcases List.mem_append.mp h with h | h
        · exact (ihf h).trans (List.sublist_append_left _ _)
        · exact (iha h).trans (List.sublist_append_right _ _)

theorem term_mem_nodes {n r : Node} (h : r ∈ n.nodes) : r.term ∈ n.term.nodes := by
  rw [← map_term_nodes]
  exact List.mem_map_of_mem h

theorem id_mem_ids_of_mem_nodes {n r : Node} (h : r ∈ n.nodes) : r.id ∈ n.ids := by
  rw [← map_id_nodes]
  exact List.mem_map_of_mem h

/-- In terms with distinct identities, the parts of an application have distinct identities, none of which are in
both parts or the one of the application. -/
theorem nodup_ids_app {i : Int} {m : Mark} {func arg : Node} (h : (app i m func arg).ids.Nodup) :
    i ∉ func.ids ∧ i ∉ arg.ids ∧ func.ids.Nodup ∧ arg.ids.Nodup ∧ func.ids.Disjoint arg.ids := by
  obtain ⟨hroot, hparts⟩ := List.nodup_cons.mp h
  rw [List.mem_append, not_or] at hroot
  obtain ⟨hfunc, harg, hdisjoint⟩ := List.nodup_append'.mp hparts
  exact ⟨hroot.1, hroot.2, hfunc, harg, hdisjoint⟩

/-- Where the identities are distinct, a subterm of an application is the application itself, or it stands in one
of its parts and its identity only there. -/
theorem mem_nodes_app_cases {i : Int} {m : Mark} {func arg r : Node} (hids : (app i m func arg).ids.Nodup)
    (hr : r ∈ (app i m func arg).nodes) :
    r = app i m func arg ∨ (r ∈ func.nodes ∧ func.ids.Nodup ∧ r.id ≠ i ∧ r.id ∉ arg.ids) ∨
      (r ∈ arg.nodes ∧ arg.ids.Nodup ∧ r.id ≠ i ∧ r.id ∉ func.ids) := by
  obtain ⟨hfunc, harg, hfids, haids, hdisjoint⟩ := nodup_ids_app hids
  rcases List.mem_cons.mp hr with rfl | hr
  · exact .inl rfl
  · rcases List.mem_append.mp hr with hr | hr
    · have hid := id_mem_ids_of_mem_nodes hr
      exact .inr (.inl ⟨hr, hfids, fun h => hfunc (h ▸ hid), fun h => hdisjoint hid h⟩)
    · have hid := id_mem_ids_of_mem_nodes hr
      exact .inr (.inr ⟨hr, haids, fun h => harg (h ▸ hid), fun h => hdisjoint h hid⟩)

theorem some_ne_of_notMem {n : Node} {id : Int} (h : id ∉ n.ids) : ∀ i ∈ n.ids, some id ≠ some i := by
  intro i hi hsame
  obtain rfl := Option.some.inj hsame
  exact h hi

/-! ### The same node -/

theorem sameTarget_position? {n : Node} (h : n.ids.Nodup) (target : Option Int) :
    n.SameTarget 0 target (target.bind n.position?) := by
  intro i id hi
  rw [Nat.zero_add]
  cases target with
  | none => simp
  | some id' =>
      rw [Option.bind_some, position?, Option.some.injEq, List.idxOf?_eq_some_iff]
      obtain ⟨hlt, hget⟩ := List.getElem?_eq_some_iff.mp hi
      constructor
      · rintro rfl
        refine ⟨hlt, hget, fun j hj hsame => ?_⟩
        have := (List.Nodup.getElem_inj_iff h).mp (hsame.trans hget.symm)
        omega
      · rintro ⟨_, hget', -⟩
        rw [← hget', ← hget]

theorem blockFrom_eq {n : Node} {target : Option Int} {position : Nat} {place : Option Nat} {ids : Nat → Int}
    (h : n.SameTarget position target place) (hids : n.Places position fun id k => ids k = id) (depth serial : Nat) :
    n.blockFrom target depth serial = Layout.blockFrom ids place position depth serial n.term := by
  have hroot := h.root
  have hid := hids.root
  induction n generalizing position depth serial with
  | var i m x =>
      simp only [id] at hroot hid
      simp only [blockFrom, term, Layout.blockFrom, hroot, hid]
  | lam i m x body ih =>
      simp only [id] at hroot hid
      simp only [blockFrom, term, Layout.blockFrom, hroot, hid, mark_term,
        ih h.body hids.body _ _ h.body.root hids.body.root]
  | app i m func arg ihf iha =>
      simp only [id] at hroot hid
      simp only [blockFrom, term, Layout.blockFrom, hroot, hid, mark_term,
        ihf h.func hids.func _ _ h.func.root hids.func.root, iha h.arg hids.arg _ _ h.arg.root hids.arg.root]

theorem places_idAt (n : Node) : n.Places 0 fun id k => n.idAt k = id := by
  intro i id hi
  rw [Nat.zero_add, idAt, hi, Option.getD_some]

theorem sketch_eq {n : Node} {target : Option Int} {position : Nat} {place : Option Nat}
    (h : n.SameTarget position target place) (owes : Owes) (row column : Nat)
    (scope : List (String × Binding)) (tag : Option String) (role : Option Role) :
    n.sketch target owes row column scope tag role
      = Layout.sketch place position owes row column scope tag role n.term := by
  have hroot := h.root
  induction n generalizing position owes row column scope tag role with
  | var i m x => rfl
  | lam i m x body ih => simp only [sketch, term, Layout.sketch, ih h.body _ _ _ _ _ _ h.body.root]
  | app i m func arg ihf iha =>
      simp only [id] at hroot
      simp only [sketch, term, Layout.sketch, hroot, ihf h.func _ _ _ _ _ _ h.func.root,
        iha h.arg _ _ _ _ _ _ h.arg.root]

/-- The tree layout that highlights an identity is the one that highlights its position. -/
theorem treeDrawing_eq {n : Node} (h : n.ids.Nodup) (limits : Limits) (target : Option Int) :
    n.treeDrawing limits target
      = Layout.treeDrawing limits n.idAt (target.bind n.position?) (.ofTerm n.term) := by
  simp only [treeDrawing, Layout.treeDrawing, Draft.draw, Draft.term?_ofTerm, tree,
    blockFrom_eq (sameTarget_position? h target) n.places_idAt]

/-- The diagram that highlights an identity is the one that highlights its position. -/
theorem circuitDrawing_eq {n : Node} (h : n.ids.Nodup) (limits : Limits) (target : Option Int) :
    n.circuitDrawing limits target
      = Layout.circuitDrawing limits (target.bind n.position?) (.ofTerm n.term) := by
  simp only [circuitDrawing, Layout.circuitDrawing, Draft.draw, Draft.term?_ofTerm, circuit,
    sketch_eq (sameTarget_position? h target)]

end LambdaStepper.Node
