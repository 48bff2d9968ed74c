import LambdaStepper.Proofs.Identity.Uniqueness
import LambdaStepper.Proofs.Layout.LitTree
import LambdaStepper.Proofs.Layout.StrokeRoles

/-! # Layouts highlight one redex

In a term with pairwise distinct identities both layouts highlight the redex whose identity they are given, and
nothing else (`layouts_highlight_redex`).  A tree layout goes by identities and by marks.  In an unmarked term it
highlights the redex and its edge to the abstraction; where the next redex is marked, the abstraction is
highlighted too, since it carries the other mark (`lit_iff_markRedex`).  A diagram goes by identities alone, and
its strokes have the roles of the parts of the redex. -/

namespace LambdaStepper

open Layout IdSupply

namespace Node

variable {n : Node}

/-! ### Redexes -/

/-- A redex in a term: an application of an abstraction. -/
structure Redex (n : Node) where
  id : Int
  mark : Mark
  func : Node
  arg : Node
  mem : .app id mark func arg ∈ n.nodes
  reducible : func.term.isAbstraction = true

/-- The application. -/
def Redex.node (r : n.Redex) : Node :=
  .app r.id r.mark r.func r.arg

theorem Redex.not_isNormal (r : n.Redex) : ¬ n.term.IsNormal := by
  intro hnormal
  have hmem : r.node.term ∈ n.term.nodes := term_mem_nodes r.mem
  have hredex : r.node.term.isRedex = true := r.reducible
  rw [hnormal _ hmem] at hredex
  cases hredex

theorem Redex.arg_mem (r : n.Redex) : r.arg ∈ n.nodes := by
  apply (nodes_sublist_of_mem r.mem).subset
  exact List.mem_cons_of_mem _ (List.mem_append_right _ r.arg.self_mem_nodes)

/-- The argument of a redex has another identity than the redex and its abstraction. -/
theorem Redex.id_arg_notMem (r : n.Redex) (hids : n.ids.Nodup) : r.arg.id ∉ [r.id, r.func.id] := by
  have hsub : r.node.ids.Sublist n.ids := by
    rw [← map_id_nodes, ← map_id_nodes]
    exact (nodes_sublist_of_mem r.mem).map Node.id
  obtain ⟨-, hroot, -, -, hdisjoint⟩ := nodup_ids_app (hids.sublist hsub)
  have harg := id_mem_ids_of_mem_nodes r.arg.self_mem_nodes
  simp only [List.mem_cons, List.not_mem_nil, or_false, not_or]
  constructor
  · intro h
    exact hroot (h ▸ harg)
  · intro h
    exact hdisjoint (id_mem_ids_of_mem_nodes r.func.self_mem_nodes) (h ▸ harg)

/-! ### Marked terms -/

theorem litAt_term {k : Nat} {u : Node} (h : n.nodes[k]? = some u) :
    n.term.LitAt k ↔ u.mark.isRedex = true := by
  have hnode : n.term.node? k = some u.term := by
    rw [Term.node?, ← map_term_nodes, List.getElem?_map, h, Option.map_some]
  simp only [Term.LitAt, hnode, Option.some.injEq, exists_eq_left', mark_term]

theorem isRedex_mark_eq_false (h : n.term.IsUnlit) {u : Node} (hu : u ∈ n.nodes) : u.mark.isRedex = false := by
  rw [← mark_term]
  exact h _ (term_mem_nodes hu)

theorem id_eq_iff (hids : n.ids.Nodup) {i j : Nat} {u v : Node} (hi : n.nodes[i]? = some u)
    (hj : n.nodes[j]? = some v) : u.id = v.id ↔ i = j := by
  have hidi : n.ids[i]? = some u.id := by rw [← map_id_nodes, List.getElem?_map, hi, Option.map_some]
  have hidj : n.ids[j]? = some v.id := by rw [← map_id_nodes, List.getElem?_map, hj, Option.map_some]
  rw [← List.getElem?_inj (List.getElem?_eq_some_iff.mp hidi).1 hids, hidi, hidj, Option.some.injEq]

theorem getElem?_nodes_succ {i : Nat} {id : Int} {m : Mark} {f a : Node} (h : n.nodes[i]? = some (app id m f a)) :
    n.nodes[i + 1]? = some f := by
  induction n generalizing i with
  | var => cases i <;> cases h
  | lam i' m' x body ih =>
      cases i with
      | zero => cases h
      | succ i => exact ih h
  | app i' m' func arg ihf iha =>
      cases i with
      | zero =>
          obtain ⟨rfl, rfl, rfl, rfl⟩ := Node.app.inj (Option.some.inj h)
          cases func <;> rfl
      | succ i =>
          rw [nodes, List.getElem?_cons_succ] at h ⊢
          by_cases hi : i < func.nodes.length
          · rw [List.getElem?_append_left hi] at h
            rw [List.getElem?_append_left (List.getElem?_eq_some_iff.mp (ihf h)).1, ihf h]
          · rw [List.getElem?_append_right (by omega)] at h
            rw [List.getElem?_append_right (by omega), ← iha h]
            congr 1
            omega

/-- A redex that is marked is the next one, whose identity is told with it; the marks are its own and the one of
its abstraction. -/
theorem lit_iff_markRedex (hids : n.ids.Nodup) (s : IdSupply) (hmarked : (n.markRedex s).1.1.ids.Nodup)
    (hredex : ¬ n.term.IsNormal) :
    let marked := (n.markRedex s).1
    ∃ r : marked.1.Redex, marked.2 = some r.id ∧ n.term.nextRedex?.bind marked.1.idAt? = some r.id ∧
      ∀ u ∈ marked.1.nodes, u.mark.isRedex = true ↔ u.id = r.id ∨ u.id = r.func.id := by
  intro marked
  have hterm : marked.1.term = n.term.markRedex := term_markRedex hids s
  obtain ⟨i, hi⟩ : ∃ i, n.term.reduceStep.redex? = some i := by
    rw [← Option.ne_none_iff_exists', Term.redex?_reduceStep]
    exact fun h => hredex ((Term.isNormal_iff_findIdx? _).mpr h)
  have hnext : marked.1.term.nextRedex? = some i := by rw [hterm, Term.nextRedex?_markRedex, hi]
  -- the subterm at the position of the redex is an application of an abstraction in the marked term, too
  have hredex? := (Term.nextRedex?_eq_redex? _).symm.trans hnext
  obtain ⟨m, m', x, body, arg, happ, -⟩ := Term.exists_redex_of_redex? hredex?
  rw [Term.node?, ← map_term_nodes, List.getElem?_map, Option.map_eq_some_iff] at happ
  obtain ⟨v, hv, happ⟩ := happ
  cases v with
  | var | lam => cases happ
  | app id mark func arg =>
      have hreducible : func.term.isAbstraction = true := by
        rw [(Term.app.inj happ).2.1]
        rfl
      have hid : marked.1.idAt? i = some id := by
        rw [idAt?, ← map_id_nodes, List.getElem?_map, hv]
        rfl
      refine ⟨⟨id, mark, func, arg, List.mem_of_getElem? hv, hreducible⟩, ?_, ?_, ?_⟩
      · have hfound : marked.2 = marked.1.term.nextRedex?.bind marked.1.idAt? := rfl
        rw [hfound, hnext, Option.bind_some, hid]
      · rw [Term.nextRedex?_eq_redex?, hi, Option.bind_some, hid]
      · intro u hu
        obtain ⟨k, hk⟩ := List.mem_iff_getElem?.mp hu
        have hlit := n.term.litAt_markRedex k
        rw [← hterm, hi, litAt_term hk] at hlit
        have hroot : u.id = id ↔ k = i := id_eq_iff hmarked hk hv
        have hfunc : u.id = func.id ↔ k = i + 1 := id_eq_iff hmarked hk (getElem?_nodes_succ hv)
        rw [hlit, hroot, hfunc]
        simp only [Option.some.injEq, exists_eq_left']

theorem size_le_capacity (hids : n.ids.Nodup) {first now : Nat} (h : n.IssuedBetween first now) :
    n.size ≤ capacity := by
  have hsub : n.ids ⊆ List.map Int.ofNat (List.range capacity) := by
    intro id hid
    obtain ⟨time, -, -, rfl⟩ := h id hid
    have hlt : time % capacity < capacity := Nat.mod_lt _ (Nat.succ_pos _)
    exact List.mem_map.mpr ⟨time % capacity, List.mem_range.mpr hlt, rfl⟩
  have hlength := (List.subperm_of_subset hids hsub).length_le
  rwa [List.length_map, List.length_range, length_ids] at hlength

theorem nodup_markRedex (hids : n.ids.Nodup) {first now : Nat} (h : n.IssuedBetween first now) :
    (n.markRedex (after now)).1.1.ids.Nodup :=
  nodup_ids_of_spec ⟨_, n.spec_markRedex⟩ (n.spec_markRedex.issues.fits (size_le_capacity hids h)) now

/-! ### Trees -/

theorem treeDrawing_unlit (hids : n.ids.Nodup) (hunlit : n.term.IsUnlit) :
    ∃ layout, n.treeDrawing .unlimited none = .drawn layout ∧ layout.Highlights n [] [] := by
  refine ⟨_, n.treeDrawing_unlimited none, highlights_place hids ?_ ?_⟩
  · intro u hu
    rw [isRedex_mark_eq_false hunlit hu]
    rfl
  · rw [lit_connectors_outside 0 0 fun _ _ => (Option.some_ne_none _).symm]
    exact .nil

theorem Redex.treeDrawing (r : n.Redex) (hids : n.ids.Nodup) {lit : List Int} (hsub : lit ⊆ [r.id, r.func.id])
    (hlit : ∀ u ∈ n.nodes, (some r.id = some u.id || u.mark.isRedex) = decide (u.id ∈ lit)) :
    ∃ layout, n.treeDrawing .unlimited (some r.id) = .drawn layout ∧
      layout.Highlights n lit [(r.node, r.func)] := by
  refine ⟨_, n.treeDrawing_unlimited (some r.id), highlights_place hids hlit ?_⟩
  have harg : r.arg.mark.isRedex = false := by
    have h := hlit r.arg r.arg_mem
    rw [decide_eq_false fun h => r.id_arg_notMem hids (hsub h)] at h
    exact (Bool.or_eq_false_iff.mp h).2
  obtain ⟨c, hc, hjoins⟩ := lit_connectors_redex 0 0 hids r.mem r.reducible harg
  rw [hc]
  exact .cons hjoins .nil

/-! ### Diagrams -/

theorem circuitDrawing_of_closed (h : n.term.isClosed = true) (target : Option Int) :
    ∃ d, n.circuitDrawing .unlimited target = .drawn d ∧
      d.strokes = (n.sketch target .nothing 0 0 [] none none).strokes := by
  have hfree : n.term.freeNames [] = [] := List.isEmpty_iff.mp h
  let whole := n.sketch target .nothing 0 0 [] none none
  refine ⟨⟨whole.strokes, max 1 whole.right, max 1 whole.bottom⟩, ?_, rfl⟩
  simp [circuitDrawing, Draft.draw, Draft.firstFault?_ofTerm, hfree, whole]

theorem Redex.count_application (r : n.Redex) : n.term.count .application ≠ 0 := by
  apply Nat.ne_of_gt
  apply List.countP_pos_iff.mpr
  exact ⟨r.node.term, term_mem_nodes r.mem, rfl⟩

end Node

/-- What a diagram highlights: one primary and one secondary stroke for each of the given abstractions and
applications, in a drawing with one stroke for each of the term, of which no stroke draws two.  A stroke has one
role at most. -/
structure Layout.Circuit.Highlights (d : Circuit) (n : Node) (primary secondary : List Node.Site) : Prop
    extends CastsRoles d.strokes primary secondary where
  drawn : Depicts d.strokes (n.sites 0 0)
  apart : (n.sites 0 0).Pairwise fun a b => ∀ s : Stroke, s.Draws a → ¬ s.Draws b

namespace Node

variable {n : Node}

/-- The elbow of a redex and the strokes of its abstraction are primary, those of its argument secondary. -/
theorem Redex.circuitDrawing (r : n.Redex) (hids : n.ids.Nodup) (hclosed : n.term.isClosed = true) :
    ∃ d, n.circuitDrawing .unlimited (some r.id) = .drawn d ∧
      ∃ site ∈ n.sites 0 0, site.node = r.node ∧
        d.Highlights n (site :: r.func.sites site.row site.column)
          (r.arg.sites site.row (site.column + r.func.term.count .variable)) := by
  obtain ⟨d, hdrawn, hstrokes⟩ := circuitDrawing_of_closed hclosed (some r.id)
  obtain ⟨site, hsite, hnode, hroles⟩ := castsRoles_sketch .nothing 0 0 [] none hids r.mem
  rw [← hstrokes] at hroles
  refine ⟨d, hdrawn, site, hsite, hnode, hroles, ?_, n.apart_sites 0 0⟩
  rw [hstrokes]
  exact depicts_sketch _ _ _ _ _ _ (.inr r.count_application)

/-! ### Both layouts -/

/-- What the layouts of a term highlight. -/
structure LayoutsHighlight (n : Node) : Prop where
  /-- An identity is drawn as the position it is found at. -/
  positions : ∀ limits target,
    n.treeDrawing limits target = Layout.treeDrawing limits n.idAt (target.bind n.position?) (.ofTerm n.term) ∧
      n.circuitDrawing limits target = Layout.circuitDrawing limits (target.bind n.position?) (.ofTerm n.term)
  /-- Without an identity, nothing is highlighted. -/
  tree_none : n.term.IsUnlit →
    ∃ layout, n.treeDrawing .unlimited none = .drawn layout ∧ layout.Highlights n [] []
  circuit_none : n.term.isClosed = true →
    ∃ d, n.circuitDrawing .unlimited none = .drawn d ∧ ∀ s ∈ d.strokes, s.role = none
  /-- In an unmarked term, the redex and its edge to the abstraction are highlighted. -/
  tree_redex : n.term.IsUnlit → ∀ r : n.Redex,
    ∃ layout, n.treeDrawing .unlimited (some r.id) = .drawn layout ∧
      layout.Highlights n [r.id] [(r.node, r.func)]
  /-- With the next redex marked, its abstraction is highlighted, too. -/
  tree_marked : ∀ now, n.IssuedBetween 0 now → Nonempty n.Redex →
    let marked := (n.markRedex (after now)).1
    marked.1.ids.Nodup ∧
      ∃ r : marked.1.Redex, marked.2 = some r.id ∧ n.term.nextRedex?.bind marked.1.idAt? = some r.id ∧
        ∃ layout, marked.1.treeDrawing .unlimited marked.2 = .drawn layout ∧
          layout.Highlights marked.1 [r.id, r.func.id] [(r.node, r.func)]
  /-- The strokes of the redex and its abstraction are primary, those of its argument secondary. -/
  circuit_redex : n.term.isClosed = true → ∀ r : n.Redex,
    ∃ d, n.circuitDrawing .unlimited (some r.id) = .drawn d ∧
      ∃ site ∈ n.sites 0 0, site.node = r.node ∧
        d.Highlights n (site :: r.func.sites site.row site.column)
          (r.arg.sites site.row (site.column + r.func.term.count .variable))

/-- **Both layouts highlight one redex.**  In a term with pairwise distinct identities, the layouts that are given
the identity of a redex highlight this redex and nothing else, and those that are given none highlight nothing that
is not marked. -/
theorem layouts_highlight_redex (hids : n.ids.Nodup) : n.LayoutsHighlight where
  positions limits target := ⟨treeDrawing_eq hids limits target, circuitDrawing_eq hids limits target⟩
  tree_none := treeDrawing_unlit hids
  circuit_none hclosed := by
    obtain ⟨d, hdrawn, hstrokes⟩ := circuitDrawing_of_closed hclosed none
    refine ⟨d, hdrawn, ?_⟩
    rw [hstrokes]
    exact role_sketch _ _ _ _ _ _ fun _ _ => (Option.some_ne_none _).symm
  tree_redex hunlit r := by
    apply r.treeDrawing hids (List.cons_subset_cons _ (List.nil_subset _))
    intro u hu
    rw [isRedex_mark_eq_false hunlit hu]
    simp [eq_comm]
  tree_marked now hissued := by
    rintro ⟨r₀⟩ marked
    have hmarked : marked.1.ids.Nodup := nodup_markRedex hids hissued
    obtain ⟨r, hid, hnext, hlit⟩ := lit_iff_markRedex hids (after now) hmarked r₀.not_isNormal
    refine ⟨hmarked, r, hid, hnext, ?_⟩
    rw [hid]
    apply r.treeDrawing hmarked (List.Subset.refl _)
    intro u hu
    rw [Bool.eq_iff_iff, Bool.or_eq_true, hlit u hu]
    simp only [decide_eq_true_eq, Option.some.injEq, List.mem_cons, List.not_mem_nil, or_false]
    omega
  circuit_redex hclosed r := r.circuitDrawing hids hclosed

/-- The redex in `λz.z ((λx.x x) (λy.y))` is highlighted: in the tree alone and with its abstraction, and in the
diagram with an elbow and a bar for its abstraction. -/
theorem layouts_highlight_redex_inner :
    let double : Node := .lam 4 {} "x" (.app 3 {} (.var 1 {} "x") (.var 2 {} "x"))
    let same : Node := .lam 6 {} "y" (.var 5 {} "y")
    let redex : Node := .app 7 {} double same
    let n : Node := .lam 9 {} "z" (.app 8 {} (.var 0 {} "z") redex)
    let marked := (n.markRedex (after 10)).1
    n.ids.Nodup ∧
      (∃ layout, n.treeDrawing .unlimited (some 7) = .drawn layout ∧ layout.Highlights n [7] [(redex, double)]) ∧
      (∃ r : marked.1.Redex, ∃ layout, marked.1.treeDrawing .unlimited marked.2 = .drawn layout ∧
        layout.Highlights marked.1 [r.id, r.func.id] [(r.node, r.func)]) ∧
      ∃ d, n.circuitDrawing .unlimited (some 7) = .drawn d ∧
        d.strokes.map Stroke.role
          = [some .primary, some .primary, some .secondary, some .primary, none, none] ∧
        d.Highlights n (⟨1, 1, redex⟩ :: double.sites 1 1) (same.sites 1 3) := by
  intro double same redex n marked
  have hids : n.ids.Nodup := by decide
  have hunlit : n.term.IsUnlit := by
    unfold Term.IsUnlit
    decide
  have hclosed : n.term.isClosed = true := by decide
  have hissued : n.IssuedBetween 0 10 := by
    intro id hid
    refine ⟨id.toNat, ?_⟩
    revert id
    decide
  let r : n.Redex := ⟨7, {}, double, same, by simp [n, redex, nodes], rfl⟩
  have h := layouts_highlight_redex hids
  obtain ⟨-, r', -, -, hmarked⟩ := h.tree_marked 10 hissued ⟨r⟩
  obtain ⟨d, hdrawn, site, hsite, hnode, hlights⟩ := h.circuit_redex hclosed r
  refine ⟨hids, h.tree_redex hunlit r, ⟨r', hmarked⟩, d, hdrawn, ?_, ?_⟩
  · obtain rfl := Drawing.drawn.inj (hdrawn.symm.trans rfl)
    rfl
  · have hsites : n.sites 0 0 = [⟨0, 0, n⟩, ⟨1, 0, .app 8 {} (.var 0 {} "z") redex⟩, ⟨1, 1, redex⟩,
        ⟨1, 1, double⟩, ⟨2, 1, .app 3 {} (.var 1 {} "x") (.var 2 {} "x")⟩, ⟨1, 3, same⟩] := rfl
    rw [hsites] at hsite
    simp only [List.mem_cons, List.not_mem_nil, or_false] at hsite
    rcases hsite with rfl | rfl | rfl | rfl | rfl | rfl
    · cases hnode
    · cases hnode
    · exact hlights
    · cases hnode
    · cases hnode
    · cases hnode

end Node
end LambdaStepper
