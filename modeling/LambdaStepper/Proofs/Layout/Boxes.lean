import LambdaStepper.Layout.Tree
import Mathlib.Algebra.Order.Field.Rat
import Mathlib.Tactic.Linarith
import Mathlib.Tactic.Ring

/-! # Boxes keep apart

In a tree layout the boxes of two nodes, neither of which stands above the other, are beside each other in
the order of reading, and the boxes of two levels are above each other, at the given distances at least
(`Spaced.keepsApart`).

Every block keeps its boxes between its two sides, where they are so spaced (`Spaced`).  Moving a block to
the right, putting one beside another and putting a root above keep it that way, and a block is built by
nothing else (`spaced_blockFrom`). -/

namespace LambdaStepper

/-- The ways from the root to all nodes, in pre-order: which child to go to, one after the other. -/
def Term.paths : Term → List (List Nat)
  | .var .. => [[]]
  | .lam _ _ body => [] :: body.paths.map (0 :: ·)
  | .app _ func arg => [] :: (func.paths.map (0 :: ·) ++ arg.paths.map (1 :: ·))

example : (Term.app {} (.lam {} "x" (.var {} "x")) (.var {} "y")).paths = [[], [0], [0, 0], [1]] :=
  rfl

namespace Layout

/-! ### Spaced boxes -/

theorem right_shift (dx : Rat) (dy : Int) (b : Box) : (b.shift dx dy).right = b.right + dx := by
  simp only [Box.right, Box.shift]
  ring

/-- Whether a box is beside another on the left, unless the path to it leads on to the other. -/
def Beside (b c : Box × List Nat) : Prop :=
  ¬ b.2 <+: c.2 → b.1.right + horizontalSpacing ≤ c.1.x

theorem beside_shift {dx : Rat} {dy : Int} {b c : Box × List Nat} :
    Beside (b.1.shift dx dy, b.2) (c.1.shift dx dy, c.2) ↔ Beside b c := by
  have hx : (c.1.shift dx dy).x = c.1.x + dx := rfl
  simp only [Beside, right_shift, hx]
  constructor <;> intro h hpath <;> linarith [h hpath]

/-- Boxes at the ends of the given paths, the first of which begins at the given depth, that are spaced
between two sides. -/
structure Spaced (left right : Rat) (depth : Nat) (paths : List (List Nat)) (boxes : List Box) : Prop where
  length : boxes.length = paths.length
  within : ∀ b ∈ boxes, left ≤ b.x ∧ b.right ≤ right
  level : ∀ b ∈ boxes.zip paths, b.1.y = levelTop (depth + b.2.length)
  beside : (boxes.zip paths).Pairwise Beside

namespace Spaced

variable {left right left' right' : Rat} {depth : Nat} {paths paths' : List (List Nat)}
  {boxes boxes' : List Box}

theorem mono (h : Spaced left right depth paths boxes) (hleft : left' ≤ left) (hright : right ≤ right') :
    Spaced left' right' depth paths boxes where
  length := h.length
  within b hb := ⟨hleft.trans (h.within b hb).1, (h.within b hb).2.trans hright⟩
  level := h.level
  beside := h.beside

theorem shift (h : Spaced left right depth paths boxes) (dx : Rat) :
    Spaced (left + dx) (right + dx) depth paths (boxes.map (Box.shift dx 0)) where
  length := by rw [List.length_map, h.length]
  within := by
    rw [List.forall_mem_map]
    intro b hb
    obtain ⟨hleft, hright⟩ := h.within b hb
    rw [right_shift]
    exact ⟨add_le_add_left hleft dx, add_le_add_left hright dx⟩
  level := by
    rw [List.zip_map_left, List.forall_mem_map]
    intro b hb
    simpa [Box.shift] using h.level b hb
  beside := by
    rw [List.zip_map_left, List.pairwise_map]
    exact h.beside.imp fun hbeside => beside_shift.mpr hbeside

theorem child (h : Spaced left right (depth + 1) paths boxes) (k : Nat) :
    Spaced left right depth (paths.map (k :: ·)) boxes where
  length := by rw [List.length_map, h.length]
  within := h.within
  level := by
    rw [List.zip_map_right, List.forall_mem_map]
    intro b hb
    have hdepth : depth + 1 + b.2.length = depth + (k :: b.2).length := by
      rw [List.length_cons]
      omega
    exact hdepth ▸ h.level b hb
  beside := by
    rw [List.zip_map_right, List.pairwise_map]
    exact h.beside.imp fun hbeside hpath => hbeside fun hprefix => hpath (List.cons_prefix_cons.mpr ⟨rfl, hprefix⟩)

theorem append (h : Spaced left right depth paths boxes) (h' : Spaced left' right' depth paths' boxes')
    (hgap : right + horizontalSpacing ≤ left') (hleft : left ≤ left') (hright : right ≤ right') :
    Spaced left right' depth (paths ++ paths') (boxes ++ boxes') where
  length := by rw [List.length_append, List.length_append, h.length, h'.length]
  within := by
    rw [List.forall_mem_append]
    exact ⟨(h.mono le_rfl hright).within, (h'.mono hleft le_rfl).within⟩
  level := by
    rw [List.zip_append h.length, List.forall_mem_append]
    exact ⟨h.level, h'.level⟩
  beside := by
    rw [List.zip_append h.length, List.pairwise_append]
    refine ⟨h.beside, h'.beside, fun b hb c hc _ => ?_⟩
    have hb := (h.within b.1 (List.of_mem_zip hb).1).2
    have hc := (h'.within c.1 (List.of_mem_zip hc).1).1
    linarith

theorem cons (h : Spaced left right depth paths boxes) {root : Box} (hleft : left ≤ root.x)
    (hright : root.right ≤ right) (hlevel : root.y = levelTop depth) :
    Spaced left right depth ([] :: paths) (root :: boxes) where
  length := by rw [List.length_cons, List.length_cons, h.length]
  within := List.forall_mem_cons.mpr ⟨⟨hleft, hright⟩, h.within⟩
  level := List.forall_mem_cons.mpr ⟨hlevel, h.level⟩
  beside := List.pairwise_cons.mpr ⟨fun c _ hpath => absurd ⟨c.2, rfl⟩ hpath, h.beside⟩

theorem nil (left right : Rat) (depth : Nat) : Spaced left right depth [] [] where
  length := rfl
  within := List.forall_mem_nil _
  level := List.forall_mem_nil _
  beside := .nil

theorem centre {width total : Nat} (h : Spaced 0 width depth paths boxes) (hle : width ≤ total) :
    Spaced 0 total depth paths (boxes.map (Box.shift (((total : Rat) - width) / 2) 0)) := by
  have hcast : (width : Rat) ≤ total := by exact_mod_cast hle
  exact (h.shift _).mono (by linarith) (by linarith)

theorem centreBoth {width width' total : Nat} (h : Spaced 0 width depth paths boxes)
    (h' : Spaced 0 width' depth paths' boxes') (hle : width + horizontalSpacing + width' ≤ total) :
    let offset := ((total : Rat) - (width + horizontalSpacing + width' : Nat)) / 2
    Spaced 0 total depth (paths ++ paths')
      (boxes.map (Box.shift offset 0) ++ boxes'.map (Box.shift (offset + width + horizontalSpacing) 0)) := by
  intro offset
  have hcast : (width : Rat) + horizontalSpacing + width' ≤ total := by exact_mod_cast hle
  have hoffset : 2 * offset = total - (width + horizontalSpacing + width') := by
    simp only [offset, Nat.cast_add]
    ring
  have hwidth : (0 : Rat) ≤ width := Nat.cast_nonneg width
  have hwidth' : (0 : Rat) ≤ width' := Nat.cast_nonneg width'
  have hspacing : (0 : Rat) ≤ horizontalSpacing := Nat.cast_nonneg horizontalSpacing
  refine ((h.shift offset).append (h'.shift (offset + width + horizontalSpacing)) ?_ ?_ ?_).mono ?_ ?_ <;>
    linarith

end Spaced

/-! ### Blocks -/

/-- The box of a root in the middle of a block. -/
structure Box.Crowns (root : Box) (id : Int) (depth width : Nat) : Prop where
  node : root.node = id
  level : root.y = levelTop depth
  width_le : root.width ≤ width
  centred : root.x = ((width : Rat) - root.width) / 2

theorem Spaced.crown {width depth : Nat} {paths : List (List Nat)} {boxes : List Box}
    (h : Spaced 0 width depth paths boxes) {root : Box} {id : Int} (hroot : root.Crowns id depth width) :
    Spaced 0 width depth ([] :: paths) (root :: boxes) := by
  have hcast : (root.width : Rat) ≤ width := by exact_mod_cast hroot.width_le
  refine h.cons ?_ ?_ hroot.level
  · rw [hroot.centred]
    linarith
  · rw [Box.right, hroot.centred]
    linarith

theorem map_node_shift (dx : Rat) (dy : Int) (boxes : List Box) :
    (boxes.map (Box.shift dx dy)).map Box.node = boxes.map Box.node :=
  List.map_map

section Blocks

variable (ids : Nat → Int) (target : Option Nat) (position depth serial : Nat) (m : Mark)

theorem crowns_root (t : Term) : (blockFrom ids target position depth serial t).1.root.Crowns (ids position) depth
    (blockFrom ids target position depth serial t).1.width := by
  cases t with
  | var m x => exact ⟨rfl, rfl, le_rfl, by simp [blockFrom]⟩
  | lam m x body => exact ⟨rfl, rfl, le_max_left _ _, rfl⟩
  | app m func arg => exact ⟨rfl, rfl, le_max_left _ _, rfl⟩

/-- The block of an abstraction: the root above the block of the body, the narrower in the middle of the
wider. -/
theorem blockFrom_lam (x : String) (body : Term) :
    let inner := (blockFrom ids target (position + 1) (depth + 1) serial body).1
    let block := (blockFrom ids target position depth serial (.lam m x body)).1
    block.width = max block.root.width inner.width ∧
      block.boxes = block.root :: inner.boxes.map (Box.shift (((block.width : Rat) - inner.width) / 2) 0) :=
  ⟨rfl, rfl⟩

/-- The block of an application: the root above the blocks of the function and of the argument, which stand
beside each other. -/
theorem blockFrom_app (func arg : Term) :
    let left := blockFrom ids target (position + 1) (depth + 1) serial func
    let right := (blockFrom ids target (position + 1 + func.size) (depth + 1) left.2 arg).1
    let block := (blockFrom ids target position depth serial (.app m func arg)).1
    let offset := ((block.width : Rat) - (left.1.width + horizontalSpacing + right.width : Nat)) / 2
    block.width = max block.root.width (left.1.width + horizontalSpacing + right.width) ∧
      block.boxes = block.root :: (left.1.boxes.map (Box.shift offset 0)
        ++ right.boxes.map (Box.shift (offset + left.1.width + horizontalSpacing) 0)) :=
  ⟨rfl, rfl⟩

theorem map_node_blockFrom (t : Term) :
    (blockFrom ids target position depth serial t).1.boxes.map Box.node = (List.range' position t.size).map ids := by
  induction t generalizing position depth serial with
  | var m x => rfl
  | lam m x body ih =>
      rw [(blockFrom_lam ids target position depth serial m x body).2, List.map_cons, map_node_shift, ih,
        (crowns_root ids target position depth serial (.lam m x body)).node, Term.size, List.range'_succ,
        List.map_cons]
  | app m func arg ihf iha =>
      rw [(blockFrom_app ids target position depth serial m func arg).2, List.map_cons, List.map_append,
        map_node_shift, map_node_shift, ihf, iha,
        (crowns_root ids target position depth serial (.app m func arg)).node, ← List.map_append,
        List.range'_append_1, ← List.map_cons, Term.size, ← List.range'_succ]

/-- The boxes of a block are spaced between its sides. -/
theorem spaced_blockFrom (t : Term) :
    Spaced 0 (blockFrom ids target position depth serial t).1.width depth t.paths
      (blockFrom ids target position depth serial t).1.boxes := by
  induction t generalizing position depth serial with
  | var m x => exact (Spaced.nil _ _ _).crown (crowns_root ids target position depth serial (.var m x))
  | lam m x body ih =>
      obtain ⟨hwidth, hboxes⟩ := blockFrom_lam ids target position depth serial m x body
      rw [hboxes]
      exact (((ih _ _ _).child 0).centre (hwidth ▸ le_max_right _ _)).crown (crowns_root ..)
  | app m func arg ihf iha =>
      obtain ⟨hwidth, hboxes⟩ := blockFrom_app ids target position depth serial m func arg
      rw [hboxes]
      exact (((ihf _ _ _).child 0).centreBoth ((iha _ _ _).child 1) (hwidth ▸ le_max_right _ _)).crown
        (crowns_root ..)

end Blocks

/-! ### Trees -/

/-- Whether the boxes of a layout are those of the nodes of a term, in pre-order and apart from each other:
of two nodes neither of which is above the other, the first stands on the left, and of two nodes at
different depths, the upper one stands above. -/
structure Tree.KeepsApart (layout : Tree) (ids : Nat → Int) (t : Term) : Prop where
  nodes : layout.boxes.map Box.node = (List.range t.size).map ids
  beside : (layout.boxes.zip t.paths).Pairwise Beside
  above : ∀ b ∈ layout.boxes.zip t.paths, ∀ c ∈ layout.boxes.zip t.paths, b.2.length < c.2.length →
    b.1.bottom + verticalSpacing ≤ c.1.y

theorem bottom_add_le_levelTop {lower upper : Nat} (h : upper < lower) :
    levelTop upper + nodeHeight + verticalSpacing ≤ levelTop lower := by
  obtain ⟨k, rfl⟩ := Nat.exists_eq_add_of_lt h
  rw [← levelTop_succ]
  simp only [levelTop]
  gcongr
  omega

/-- Spaced boxes keep apart wherever they are moved to. -/
theorem Spaced.keepsApart {left right dx : Rat} {dy : Int} {ids : Nat → Int} {t : Term} {boxes : List Box}
    {layout : Tree} (h : Spaced left right 0 t.paths boxes)
    (hnodes : boxes.map Box.node = (List.range t.size).map ids)
    (hmoved : layout.boxes = boxes.map (Box.shift dx dy)) : layout.KeepsApart ids t := by
  refine ⟨?_, ?_, ?_⟩ <;> rw [hmoved]
  · rw [map_node_shift, hnodes]
  · rw [List.zip_map_left, List.pairwise_map]
    exact h.beside.imp fun hbeside => beside_shift.mpr hbeside
  · rw [List.zip_map_left, List.forall_mem_map]
    intro b hb
    rw [List.forall_mem_map]
    intro c hc hlower
    have habove := bottom_add_le_levelTop (Nat.add_lt_add_left hlower 0)
    rw [Prod.map_snd, Prod.map_snd, id, id, ← h.level b hb, ← h.level c hc] at habove
    simp only [Prod.map_fst, Box.bottom, Box.shift]
    omega

theorem keepsApart_tree (ids : Nat → Int) (target : Option Nat) (t : Term) : (tree ids target t).KeepsApart ids t :=
  (spaced_blockFrom ids target 0 0 0 t).keepsApart
    ((map_node_blockFrom ids target 0 0 0 t).trans (congrArg _ List.range_eq_range'.symm)) rfl

/-- **The boxes of a tree layout keep apart and in the order of reading.** -/
theorem treeDrawing_keepsApart (ids : Nat → Int) (target : Option Nat) (t : Term) :
    ∃ layout, treeDrawing .unlimited ids target (.ofTerm t) = .drawn layout ∧ layout.KeepsApart ids t := by
  have hdrawn : treeDrawing .unlimited ids target (.ofTerm t) = .drawn (tree ids target t) := by
    simp [treeDrawing, Draft.draw, Draft.firstFault?_ofTerm_of_open]
  exact ⟨tree ids target t, hdrawn, keepsApart_tree ids target t⟩

end Layout
end LambdaStepper
