import LambdaStepper.Proofs.Identity.Layout
import LambdaStepper.Proofs.Layout.Mirrored

/-! # Highlights of tree layouts

A box is highlighted for the identity of its node or for its mark (`map_highlighted_blockFrom`).  A connector is
highlighted only below a node with the identity.  So in terms without the identity there is none
(`lit_connectors_outside`), and where it belongs to one application, whose argument is not marked, there is the
one that leads to the function (`lit_connectors_redex`).

`Tree.Highlights` says what a whole layout highlights. -/

namespace LambdaStepper

open Layout

/-- The connectors that are highlighted. -/
def Layout.litConnectors (connectors : List Connector) : List Connector :=
  connectors.filter Connector.highlighted

/-- Whether a connector joins the boxes of two nodes, of which it is told where they are placed. -/
def Layout.Connector.JoinsNodes (placed : List (Box × Node)) (c : Connector) (edge : Node × Node) : Prop :=
  ∃ parent child, (parent, edge.1) ∈ placed ∧ (child, edge.2) ∈ placed ∧ c.Joins parent child

namespace Layout

theorem litConnectors_append (cs ds : List Connector) :
    litConnectors (cs ++ ds) = litConnectors cs ++ litConnectors ds :=
  List.filter_append cs ds

theorem litConnectors_shift (dx : Rat) (dy : Int) (cs : List Connector) :
    litConnectors (cs.map (Connector.shift dx dy)) = (litConnectors cs).map (Connector.shift dx dy) :=
  List.filter_map

theorem map_highlighted_shift (dx : Rat) (dy : Int) (boxes : List Box) :
    (boxes.map (Box.shift dx dy)).map Box.highlighted = boxes.map Box.highlighted :=
  List.map_map

/-- Boxes moved to the right and down, each with its node. -/
def shiftPlaced (dx : Rat) (dy : Int) (placed : List (Box × Node)) : List (Box × Node) :=
  placed.map fun b => (b.1.shift dx dy, b.2)

theorem shiftPlaced_zip (dx : Rat) (dy : Int) (boxes : List Box) (nodes : List Node) :
    shiftPlaced dx dy (boxes.zip nodes) = (boxes.map (Box.shift dx dy)).zip nodes := by
  rw [List.zip_map_left]
  rfl

theorem Connector.JoinsNodes.shift {placed placed' : List (Box × Node)} {c : Connector} {edge : Node × Node}
    {dx : Rat} {dy : Int} (h : c.JoinsNodes placed edge) (hsub : shiftPlaced dx dy placed ⊆ placed') :
    (c.shift dx dy).JoinsNodes placed' edge := by
  obtain ⟨parent, child, hparent, hchild, hjoins⟩ := h
  refine ⟨parent.shift dx dy, child.shift dx dy, ?_, ?_, hjoins.shift dx dy⟩
  · exact hsub (List.mem_map_of_mem hparent)
  · exact hsub (List.mem_map_of_mem hchild)

end Layout

namespace Node

variable (target : Option Int) (depth serial : Nat) (i : Int) (m : Mark) (x : String)
  (body func arg : Node)

theorem blockFrom_lam :
    let inner := body.blockFrom target (depth + 1) serial
    let block := ((lam i m x body).blockFrom target depth serial).1
    let dx := ((block.width : Rat) - inner.1.width) / 2
    block.boxes = block.root :: inner.1.boxes.map (Box.shift dx 0) ∧
      block.root.highlighted = (target = some i || m.isRedex) ∧
      block.connectors = inner.1.connectors.map (Connector.shift dx 0) ++
        [connect (inner.2 + 1) block.root (inner.1.root.shift dx 0) (target = some i && body.mark.isRedex)] :=
  ⟨rfl, rfl, rfl⟩

theorem blockFrom_app :
    let left := func.blockFrom target (depth + 1) serial
    let right := arg.blockFrom target (depth + 1) left.2
    let block := ((app i m func arg).blockFrom target depth serial).1
    let offset := ((block.width : Rat) - (left.1.width + horizontalSpacing + right.1.width : Nat)) / 2
    let dx := offset + left.1.width + horizontalSpacing
    block.boxes = block.root ::
        (left.1.boxes.map (Box.shift offset 0) ++ right.1.boxes.map (Box.shift dx 0)) ∧
      block.root.highlighted = (target = some i || m.isRedex) ∧
      block.connectors = left.1.connectors.map (Connector.shift offset 0) ++
        right.1.connectors.map (Connector.shift dx 0) ++
        [connect (right.2 + 1) block.root (left.1.root.shift offset 0)
            (target = some i && (func.mark.isRedex || func.term.isAbstraction)),
         connect (right.2 + 2) block.root (right.1.root.shift dx 0) (target = some i && arg.mark.isRedex)] :=
  ⟨rfl, rfl, rfl⟩

/-- The boxes of the nodes with the identity and of those so marked are highlighted, and no others. -/
theorem map_highlighted_blockFrom (n : Node) :
    (n.blockFrom target depth serial).1.boxes.map Box.highlighted
      = n.nodes.map fun u => (target = some u.id || u.mark.isRedex) := by
  induction n generalizing depth serial with
  | var => rfl
  | lam i m x body ih =>
      obtain ⟨hboxes, hroot, -⟩ := blockFrom_lam target depth serial i m x body
      rw [hboxes, List.map_cons, map_highlighted_shift, ih, hroot]
      rfl
  | app i m func arg ihf iha =>
      obtain ⟨hboxes, hroot, -⟩ := blockFrom_app target depth serial i m func arg
      rw [hboxes, List.map_cons, List.map_append, map_highlighted_shift, map_highlighted_shift, ihf, iha, hroot,
        ← List.map_append]
      rfl

theorem length_boxes_blockFrom (n : Node) :
    (n.blockFrom target depth serial).1.boxes.length = n.nodes.length := by
  have h := congrArg List.length (n.map_highlighted_blockFrom target depth serial)
  rwa [List.length_map, List.length_map] at h

/-- The boxes of a block, each with its node. -/
def placed (n : Node) : List (Box × Node) :=
  (n.blockFrom target depth serial).1.boxes.zip n.nodes

theorem root_mem_placed (n : Node) :
    ((n.blockFrom target depth serial).1.root, n) ∈ n.placed target depth serial := by
  cases n <;> exact List.mem_cons_self

theorem placed_body_subset :
    let block := ((lam i m x body).blockFrom target depth serial).1
    let inner := (body.blockFrom target (depth + 1) serial).1
    shiftPlaced (((block.width : Rat) - inner.width) / 2) 0 (body.placed target (depth + 1) serial)
      ⊆ (lam i m x body).placed target depth serial := by
  intro block inner
  rw [placed, placed, (blockFrom_lam target depth serial i m x body).1, nodes, List.zip_cons_cons,
    shiftPlaced_zip]
  exact List.subset_cons_self _ _

theorem placed_parts_subset :
    let left := func.blockFrom target (depth + 1) serial
    let right := (arg.blockFrom target (depth + 1) left.2).1
    let block := ((app i m func arg).blockFrom target depth serial).1
    let offset := ((block.width : Rat) - (left.1.width + horizontalSpacing + right.width : Nat)) / 2
    let whole := (app i m func arg).placed target depth serial
    shiftPlaced offset 0 (func.placed target (depth + 1) serial) ⊆ whole ∧
      shiftPlaced (offset + left.1.width + horizontalSpacing) 0
        (arg.placed target (depth + 1) left.2) ⊆ whole := by
  intro left right block offset whole
  have hlength : (left.1.boxes.map (Box.shift offset 0)).length = func.nodes.length := by
    rw [List.length_map]
    exact func.length_boxes_blockFrom target _ _
  have hwhole : whole = (block.root, app i m func arg) ::
      ((left.1.boxes.map (Box.shift offset 0)).zip func.nodes ++
        (right.boxes.map (Box.shift (offset + left.1.width + horizontalSpacing) 0)).zip arg.nodes) := by
    rw [← List.zip_append hlength]
    rfl
  rw [hwhole, placed, placed, shiftPlaced_zip, shiftPlaced_zip]
  constructor
  · exact List.subset_cons_of_subset _ (List.subset_append_left _ _)
  · exact List.subset_cons_of_subset _ (List.subset_append_right _ _)

/-- Without the identity there is no highlighted connector. -/
theorem lit_connectors_outside {n : Node} {target : Option Int} (h : ∀ id ∈ n.ids, target ≠ some id) :
    litConnectors (n.blockFrom target depth serial).1.connectors = [] := by
  induction n generalizing depth serial with
  | var => rfl
  | lam i m x body ih =>
      obtain ⟨hroot, hbody⟩ := List.forall_mem_cons.mp h
      rw [(blockFrom_lam target depth serial i m x body).2.2, litConnectors_append, litConnectors_shift,
        ih _ _ hbody]
      simp [litConnectors, connect, hroot]
  | app i m func arg ihf iha =>
      obtain ⟨hroot, hparts⟩ := List.forall_mem_cons.mp h
      obtain ⟨hfunc, harg⟩ := List.forall_mem_append.mp hparts
      rw [(blockFrom_app target depth serial i m func arg).2.2, litConnectors_append,
        litConnectors_append, litConnectors_shift, litConnectors_shift, ihf _ _ hfunc, iha _ _ harg]
      simp [litConnectors, connect, hroot]

/-- Where the identity belongs to a redex with an argument that is not marked, the connector to the function is
highlighted. -/
theorem lit_connectors_redex {n f a : Node} {id : Int} {m : Mark} (hids : n.ids.Nodup)
    (hr : app id m f a ∈ n.nodes) (hf : f.term.isAbstraction = true) (ha : a.mark.isRedex = false) :
    ∃ c, litConnectors (n.blockFrom (some id) depth serial).1.connectors = [c] ∧
      c.JoinsNodes (n.placed (some id) depth serial) (app id m f a, f) := by
  induction n generalizing depth serial with
  | var => simp [nodes] at hr
  | lam i m' x body ih =>
      have hbody : app id m f a ∈ body.nodes := by simpa [nodes] using hr
      obtain ⟨hroot, hids⟩ := List.nodup_cons.mp hids
      have hid : id ∈ body.ids := id_mem_ids_of_mem_nodes hbody
      have hne : id ≠ i := fun h => hroot (h ▸ hid)
      obtain ⟨c, hlit, hjoins⟩ := ih (depth + 1) serial hids hbody
      refine ⟨_, ?_, hjoins.shift (placed_body_subset (some id) depth serial i m' x body)⟩
      rw [(blockFrom_lam (some id) depth serial i m' x body).2.2, litConnectors_append,
        litConnectors_shift, hlit]
      simp [litConnectors, connect, hne]
  | app i m' func arg ihf iha =>
      obtain ⟨hpartf, hparta⟩ := placed_parts_subset (some id) depth serial i m' func arg
      rw [(blockFrom_app (some id) depth serial i m' func arg).2.2, litConnectors_append,
        litConnectors_append, litConnectors_shift, litConnectors_shift]
      rcases mem_nodes_app_cases hids hr with hr | ⟨hr, hfids, hne, harg⟩ | ⟨hr, haids, hne, hfunc⟩
      · -- the redex is the root, so the identity is in neither part
        obtain ⟨rfl, rfl, rfl, rfl⟩ := Node.app.inj hr
        obtain ⟨hfunc, harg, -⟩ := nodup_ids_app hids
        rw [lit_connectors_outside _ _ (some_ne_of_notMem hfunc),
          lit_connectors_outside _ _ (some_ne_of_notMem harg)]
        -- of the two connectors below the root, the one to the argument is not highlighted
        refine ⟨_, (List.filter_cons_of_pos ?_).trans (congrArg _ (List.filter_cons_of_neg ?_)), ?_⟩
        · simp [connect, hf]
        · simp [connect, ha]
        · refine ⟨_, _, root_mem_placed _ _ _ _, hpartf ?_, joins_connect _ _ _ _⟩
          exact List.mem_map_of_mem (root_mem_placed (some id) (depth + 1) serial f)
      · obtain ⟨c, hlit, hjoins⟩ := ihf (depth + 1) serial hfids hr
        simp only [Node.id] at hne harg
        rw [hlit, lit_connectors_outside _ _ (some_ne_of_notMem harg)]
        exact ⟨_, by simp [litConnectors, connect, hne], hjoins.shift hpartf⟩
      · obtain ⟨c, hlit, hjoins⟩ := iha (depth + 1)
          (func.blockFrom (some id) (depth + 1) serial).2 haids hr
        simp only [Node.id] at hne hfunc
        rw [hlit, lit_connectors_outside _ _ (some_ne_of_notMem hfunc)]
        exact ⟨_, by simp [litConnectors, connect, hne], hjoins.shift hparta⟩

theorem treeDrawing_unlimited (n : Node) (target : Option Int) :
    n.treeDrawing .unlimited target = .drawn (n.blockFrom target 0 0).1.place := by
  simp [treeDrawing, Draft.draw, Draft.firstFault?_ofTerm_of_open]

end Node

/-! ### Whole layouts -/

/-- What a tree layout highlights: the boxes of the nodes with the given identities and one connector for each of
the given edges, from the box of the one node to that of the other, and nothing else.  The boxes are those of the
nodes in pre-order. -/
structure Layout.Tree.Highlights (layout : Tree) (n : Node) (lit : List Int) (edges : List (Node × Node)) :
    Prop where
  identities : layout.boxes.map Box.node = n.ids
  boxes : layout.boxes.map Box.highlighted = n.nodes.map fun u => decide (u.id ∈ lit)
  connectors : List.Forall₂ (Connector.JoinsNodes (layout.boxes.zip n.nodes))
    (litConnectors layout.connectors) edges

namespace Node

variable {n : Node} {target : Option Int}

theorem highlights_place (hids : n.ids.Nodup) {lit : List Int} {edges : List (Node × Node)}
    (hboxes : ∀ u ∈ n.nodes, (target = some u.id || u.mark.isRedex) = decide (u.id ∈ lit))
    (hconnectors : List.Forall₂ (Connector.JoinsNodes (n.placed target 0 0))
      (litConnectors (n.blockFrom target 0 0).1.connectors) edges) :
    (n.blockFrom target 0 0).1.place.Highlights n lit edges where
  identities := by
    rw [blockFrom_eq (sameTarget_position? hids target) n.places_idAt]
    exact (mirrors_tree _ n).identities
  boxes := by
    have hplace : (n.blockFrom target 0 0).1.place.boxes.map Box.highlighted
        = (n.blockFrom target 0 0).1.boxes.map Box.highlighted := map_highlighted_shift _ _ _
    rw [hplace, map_highlighted_blockFrom]
    exact List.map_congr_left hboxes
  connectors := by
    have hplace : ∃ dx dy, (n.blockFrom target 0 0).1.place.boxes.zip n.nodes
          = shiftPlaced dx dy (n.placed target 0 0) ∧
        (n.blockFrom target 0 0).1.place.connectors
          = (n.blockFrom target 0 0).1.connectors.map (Connector.shift dx dy) := by
      refine ⟨_, _, ?_, rfl⟩
      rw [placed, shiftPlaced_zip]
      rfl
    obtain ⟨dx, dy, hzip, hmoved⟩ := hplace
    rw [hzip, hmoved, litConnectors_shift, List.forall₂_map_left_iff]
    exact hconnectors.imp fun c edge hjoins => hjoins.shift (List.Subset.refl _)

end Node
end LambdaStepper
