import LambdaStepper.Proofs.Identity.NormalOrder
import LambdaStepper.Proofs.Layout.Boxes
import LambdaStepper.Proofs.Syntax.Spelling
import LambdaStepper.Reduction.Freshener
import Mathlib.Data.List.DropRight
import Mathlib.Data.List.Perm.Basic
import Mathlib.Order.Bounds.Image

/-! # Tree layouts mirror their terms

A tree layout has a box for every node and a connector for every edge, which runs between the middles of the two
boxes; every box stands in the middle over the boxes of its subtree, and all of them keep a margin to the sides of
the canvas (`Tree.Mirrors`, `treeDrawing_mirrors`).

A node is found by the way that leads to it from the root (`Term.paths`).  Laid out, a subtree is moved as a
whole, again and again: its boxes to the right, the ways to its nodes below the way to its root (`moved`).  What
is stated of boxes and ways is such that moving does not matter (`IsCentred.moved`, `Connector.LeadsTo.moved`);
what is added to the blocks of the children are a root and the connectors that lead to them. -/

namespace LambdaStepper

/-- The variable or the parameter of the root; an application has none. -/
def Term.symbol : Term → String
  | .var _ x => x
  | .lam _ x _ => x
  | .app .. => ""

/-- What there is to show of the root: its kind, its variable or parameter, and its tag. -/
def Term.label (t : Term) : NodeKind × String × Option String :=
  (t.kind, t.symbol, t.tag)

namespace Layout

/-- What a box shows of its node. -/
def Box.label (b : Box) : NodeKind × String × Option String :=
  (b.kind, b.symbol, b.tag)

/-- The horizontal middle of a box. -/
def Box.centre (b : Box) : Rat :=
  b.x + (b.width : Rat) / 2

theorem centre_shift (dx : Rat) (dy : Int) (b : Box) : (b.shift dx dy).centre = b.centre + dx := by
  simp only [Box.centre, Box.shift]
  ring

theorem bottom_shift (dx : Rat) (dy : Int) (b : Box) : (b.shift dx dy).bottom = b.bottom + dy := by
  simp only [Box.bottom, Box.shift]
  ring

/-! ### Identifiers -/

theorem rtakeWhile_text (id : ElementId) :
    id.text.toList.rtakeWhile (· != '-') = (toString id.serial).toList := by
  have hdigits : ∀ c ∈ (toString id.serial).toList.reverse, (c != '-') = true := by
    intro c hc
    have hdigit := Syntax.isDigit_of_mem_toString (List.mem_reverse.mp hc)
    simp only [bne_iff_ne, ne_eq]
    rintro rfl
    exact absurd hdigit (by decide)
  have htext : id.text.toList = ("svg-".toList ++ id.word.toList) ++ '-' :: (toString id.serial).toList := by
    simp [ElementId.text]
  rw [htext, List.rtakeWhile, List.reverse_append, List.reverse_cons, List.append_assoc,
    List.takeWhile_append_of_pos hdigits]
  simp

theorem serial_eq_of_text_eq {id id' : ElementId} (h : id.text = id'.text) : id.serial = id'.serial := by
  have hdigits := congrArg (fun s : String => s.toList.rtakeWhile (· != '-')) h
  simp only [rtakeWhile_text] at hdigits
  exact Freshener.toString_injective (String.toList_inj.mp hdigits)

/-- The identifiers of boxes and connectors. -/
def elementIds (boxes : List Box) (connectors : List Connector) : List ElementId :=
  boxes.map Box.id ++ connectors.map Connector.id

theorem elementIds_shift (dx : Rat) (dy : Int) (boxes : List Box) (connectors : List Connector) :
    elementIds (boxes.map (Box.shift dx dy)) (connectors.map (Connector.shift dx dy))
      = elementIds boxes connectors := by
  simp only [elementIds, List.map_map]
  rfl

/-- The numbers of the elements of a block. -/
def Block.serials (b : Block) : List Nat :=
  (elementIds b.boxes b.connectors).map ElementId.serial

theorem nodup_text_of_nodup_serial {ids : List ElementId} (h : (ids.map ElementId.serial).Nodup) :
    (ids.map ElementId.text).Nodup := by
  rw [List.Nodup, List.pairwise_map] at h ⊢
  exact h.imp fun hne htext => hne (serial_eq_of_text_eq htext)

/-! ### Bounding intervals -/

/-- The interval from the left side of the leftmost to the right side of the rightmost of some boxes. -/
structure Spans (left right : Rat) (boxes : Set Box) : Prop where
  left : IsLeast (Box.x '' boxes) left
  right : IsGreatest (Box.right '' boxes) right

namespace Spans

variable {left right left' right' : Rat} {boxes boxes' : Set Box}

theorem singleton (b : Box) : Spans b.x b.right {b} := by
  constructor <;> rw [Set.image_singleton]
  · exact isLeast_singleton
  · exact isGreatest_singleton

theorem union (h : Spans left right boxes) (h' : Spans left' right' boxes') :
    Spans (min left left') (max right right') (boxes ∪ boxes') := by
  constructor <;> rw [Set.image_union]
  · exact h.left.union h'.left
  · exact h.right.union h'.right

theorem shift (h : Spans left right boxes) (dx : Rat) (dy : Int) :
    Spans (left + dx) (right + dx) (Box.shift dx dy '' boxes) := by
  have hmono : Monotone fun x : Rat => x + dx := fun _ _ hle => add_le_add_left hle dx
  have hx : Box.x '' (Box.shift dx dy '' boxes) = (· + dx) '' (Box.x '' boxes) := by
    rw [Set.image_image, Set.image_image]
    rfl
  have hright : Box.right '' (Box.shift dx dy '' boxes) = (· + dx) '' (Box.right '' boxes) := by
    simp only [Set.image_image, right_shift]
  exact ⟨hx ▸ hmono.map_isLeast h.left, hright ▸ hmono.map_isGreatest h.right⟩

theorem sideBySide {width width' : Nat} (h : Spans 0 width boxes) (h' : Spans 0 width' boxes') (offset : Rat) :
    Spans offset (offset + (width + horizontalSpacing + width' : Nat))
      (Box.shift offset 0 '' boxes ∪ Box.shift (offset + width + horizontalSpacing) 0 '' boxes') := by
  have hwidth : (0 : Rat) ≤ width := Nat.cast_nonneg width
  have hwidth' : (0 : Rat) ≤ width' := Nat.cast_nonneg width'
  have hspacing : (0 : Rat) ≤ horizontalSpacing := Nat.cast_nonneg horizontalSpacing
  convert (h.shift offset 0).union (h'.shift (offset + width + horizontalSpacing) 0) using 1
  · rw [min_eq_left] <;> linarith
  · rw [max_eq_right]
    · push_cast
      ring
    · linarith

theorem crown {root : Box} {id : Int} {depth width span : Nat} (hroot : root.Crowns id depth width)
    (hwidth : width = max root.width span)
    (h : Spans (((width : Rat) - span) / 2) (((width : Rat) + span) / 2) boxes) :
    Spans 0 width (insert root boxes) := by
  have hspans := (singleton root).union h
  rw [Set.singleton_union, Box.right, hroot.centred] at hspans
  rcases le_total root.width span with hle | hle
  · have hcast : (root.width : Rat) ≤ span := by exact_mod_cast hle
    rw [max_eq_right hle] at hwidth
    rw [hwidth] at hspans ⊢
    convert hspans using 1
    · rw [min_eq_right] <;> linarith
    · rw [max_eq_right] <;> linarith
  · have hcast : (span : Rat) ≤ root.width := by exact_mod_cast hle
    rw [max_eq_left hle] at hwidth
    rw [hwidth] at hspans ⊢
    convert hspans using 1
    · rw [min_eq_left] <;> linarith
    · rw [max_eq_left] <;> linarith

end Spans

/-! ### Boxes and the ways to their nodes -/

/-- The boxes of the nodes that a way leads to or on to. -/
def below (placed : List (Box × List Nat)) (way : List Nat) : Set Box :=
  { b | ∃ p, (b, p) ∈ placed ∧ way <+: p }

/-- Boxes moved to the right and down, with the ways to them now behind another one. -/
def moved (dx : Rat) (dy : Int) (way : List Nat) (placed : List (Box × List Nat)) : List (Box × List Nat) :=
  placed.map (Prod.map (Box.shift dx dy) (way ++ ·))

/-- Whether a box is in the middle of the bounding interval of the boxes of its subtree. -/
def IsCentred (placed : List (Box × List Nat)) (b : Box × List Nat) : Prop :=
  ∃ left right, Spans left right (below placed b.2) ∧ b.1.centre = (left + right) / 2

/-- Whether a connector runs from the middle of the lower side of a box to the middle of the upper side of another
one. -/
structure Connector.Joins (c : Connector) (parent child : Box) : Prop where
  source : c.source = parent.id
  target : c.target = child.id
  x1 : c.x1 = parent.centre
  y1 : c.y1 = parent.bottom
  x2 : c.x2 = child.centre
  y2 : c.y2 = child.y

/-- Whether a connector leads to the box of a node from that of its parent, straight down if this is an
abstraction. -/
def Connector.LeadsTo (placed : List (Box × List Nat)) (c : Connector) (b : Box × List Nat) : Prop :=
  ∃ parent ∈ placed, (∃ k, b.2 = parent.2 ++ [k]) ∧ c.Joins parent.1 b.1 ∧
    (parent.1.kind = .abstraction → c.x1 = c.x2)

/-- Whether there is a connector for every node but the root, and no other. -/
def Linked (placed : List (Box × List Nat)) (connectors : List Connector) : Prop :=
  ∃ cs, cs.Perm connectors ∧ List.Forall₂ (Connector.LeadsTo placed) cs placed.tail

section Moved

variable {dx : Rat} {dy : Int} {way : List Nat} {placed placed' : List (Box × List Nat)}
  {b : Box × List Nat} {c : Connector}

theorem below_append (way : List Nat) :
    below (placed ++ placed') way = below placed way ∪ below placed' way := by
  ext b
  simp [below, or_and_right, exists_or]

theorem below_moved (p : List Nat) :
    below (moved dx dy way placed) (way ++ p) = Box.shift dx dy '' below placed p := by
  ext b
  constructor
  · rintro ⟨q, hq, hprefix⟩
    obtain ⟨⟨b', q'⟩, hmem, heq⟩ := List.mem_map.mp hq
    obtain ⟨rfl, rfl⟩ := Prod.mk.inj heq
    exact ⟨b', ⟨q', hmem, (List.prefix_append_right_inj way).mp hprefix⟩, rfl⟩
  · rintro ⟨b', ⟨q, hmem, hprefix⟩, rfl⟩
    exact ⟨way ++ q, List.mem_map_of_mem hmem, (List.prefix_append_right_inj way).mpr hprefix⟩

theorem below_moved_of_ne {k j : Nat} (h : j ≠ k) (p : List Nat) :
    below (moved dx dy [k] placed) (j :: p) = ∅ := by
  rw [Set.eq_empty_iff_forall_notMem]
  rintro b ⟨q, hq, hprefix⟩
  obtain ⟨⟨b', q'⟩, -, heq⟩ := List.mem_map.mp hq
  obtain ⟨-, rfl⟩ := Prod.mk.inj heq
  exact h (List.cons_prefix_cons.mp hprefix).1

theorem below_cons_root (root : Box) (k : Nat) (p : List Nat) :
    below ((root, []) :: placed) (k :: p) = below placed (k :: p) := by
  ext b
  constructor
  · rintro ⟨q, hq, hprefix⟩
    rcases List.mem_cons.mp hq with heq | hq
    · obtain ⟨-, rfl⟩ := Prod.mk.inj heq
      exact absurd (List.prefix_nil.mp hprefix) (List.cons_ne_nil k p)
    · exact ⟨q, hq, hprefix⟩
  · rintro ⟨q, hq, hprefix⟩
    exact ⟨q, List.mem_cons_of_mem _ hq, hprefix⟩

theorem below_nil (placed : List (Box × List Nat)) : below placed [] = { b | b ∈ placed.map Prod.fst } := by
  ext b
  simp [below]

theorem below_moved_nil : below (moved dx dy way placed) [] = Box.shift dx dy '' below placed [] := by
  simp only [below_nil]
  ext b
  simp [moved, Prod.map]

theorem below_cons_nil (root : Box) (p : List Nat) :
    below ((root, p) :: placed) [] = insert root (below placed []) := by
  simp only [below_nil, List.map_cons, List.mem_cons]
  rfl

theorem IsCentred.congr (h : IsCentred placed b) (hbelow : below placed' b.2 = below placed b.2) :
    IsCentred placed' b := by
  unfold IsCentred
  rwa [hbelow]

theorem IsCentred.moved (h : IsCentred placed b) :
    IsCentred (moved dx dy way placed) (Prod.map (Box.shift dx dy) (way ++ ·) b) := by
  obtain ⟨left, right, hspans, hcentre⟩ := h
  refine ⟨left + dx, right + dx, ?_, ?_⟩
  · rw [Prod.map_snd, below_moved]
    exact hspans.shift dx dy
  · rw [Prod.map_fst, centre_shift, hcentre]
    ring

theorem Connector.LeadsTo.mono (h : c.LeadsTo placed b) (hsub : placed ⊆ placed') : c.LeadsTo placed' b := by
  obtain ⟨parent, hparent, hjoins⟩ := h
  exact ⟨parent, hsub hparent, hjoins⟩

theorem Connector.Joins.shift {parent child : Box} (h : c.Joins parent child) (dx : Rat) (dy : Int) :
    (c.shift dx dy).Joins (parent.shift dx dy) (child.shift dx dy) where
  source := h.source
  target := h.target
  x1 := by rw [centre_shift, ← h.x1]; rfl
  y1 := by rw [bottom_shift, ← h.y1]; rfl
  x2 := by rw [centre_shift, ← h.x2]; rfl
  y2 := congrArg (· + dy) h.y2

theorem Connector.LeadsTo.moved (h : c.LeadsTo placed b) :
    (c.shift dx dy).LeadsTo (moved dx dy way placed) (Prod.map (Box.shift dx dy) (way ++ ·) b) := by
  obtain ⟨parent, hparent, ⟨k, hk⟩, hjoins, hvertical⟩ := h
  refine ⟨_, List.mem_map_of_mem hparent, ⟨k, ?_⟩, hjoins.shift dx dy, ?_⟩
  · rw [Prod.map_snd, Prod.map_snd, hk, List.append_assoc]
  · exact fun hkind => congrArg (· + dx) (hvertical hkind)

/-- What is linked stays so when it is moved. -/
theorem Linked.moved {connectors : List Connector} (h : Linked placed connectors) :
    Linked (moved dx dy way placed) (connectors.map (Connector.shift dx dy)) := by
  obtain ⟨cs, hperm, hleads⟩ := h
  refine ⟨cs.map (Connector.shift dx dy), hperm.map _, ?_⟩
  rw [Layout.moved, ← List.map_tail, List.forall₂_map_left_iff, List.forall₂_map_right_iff]
  exact hleads.imp fun _ _ hc => hc.moved

/-- A linked child may hang under a root: the connector that leads to it makes up for the missing one. -/
theorem Linked.hang {connectors : List Connector} (h : Linked (b :: placed) connectors)
    {whole : List (Box × List Nat)} (hsub : b :: placed ⊆ whole) (hc : c.LeadsTo whole b) :
    ∃ cs, cs.Perm (connectors ++ [c]) ∧ List.Forall₂ (Connector.LeadsTo whole) cs (b :: placed) := by
  obtain ⟨cs, hperm, hleads⟩ := h
  refine ⟨c :: cs, (hperm.cons c).trans (List.perm_append_singleton c connectors).symm, .cons hc ?_⟩
  exact hleads.imp fun _ _ hc' => hc'.mono hsub

/-- Two children under a root are linked by the connectors of both, and those that lead to them. -/
theorem Linked.under {root : Box} {left right : List (Box × List Nat)} {connectors connectors' : List Connector}
    {edge edge' : Connector}
    (h : ∃ cs, cs.Perm (connectors ++ [edge]) ∧
      List.Forall₂ (Connector.LeadsTo ((root, []) :: (left ++ right))) cs left)
    (h' : ∃ cs, cs.Perm (connectors' ++ [edge']) ∧
      List.Forall₂ (Connector.LeadsTo ((root, []) :: (left ++ right))) cs right) :
    Linked ((root, []) :: (left ++ right)) (connectors ++ connectors' ++ [edge, edge']) := by
  obtain ⟨cs, hperm, hleads⟩ := h
  obtain ⟨cs', hperm', hleads'⟩ := h'
  refine ⟨cs ++ cs', (hperm.append hperm').trans ?_, List.rel_append hleads hleads'⟩
  rw [List.append_assoc, List.append_assoc]
  refine .append_left connectors ?_
  rw [← List.append_assoc]
  exact (List.perm_append_comm.append_right _).trans (by simp)

end Moved

/-! ### Blocks -/

section Blocks

variable (ids : Nat → Int) (target : Option Nat) (position depth serial : Nat) (m : Mark) (x : String) (body func arg : Term)

theorem zip_paths_blockFrom_lam :
    let inner := (blockFrom ids target (position + 1) (depth + 1) serial body).1
    let block := (blockFrom ids target position depth serial (.lam m x body)).1
    block.boxes.zip (Term.lam m x body).paths = (block.root, []) ::
      moved (((block.width : Rat) - inner.width) / 2) 0 [0] (inner.boxes.zip body.paths) := by
  intro inner block
  rw [(blockFrom_lam ids target position depth serial m x body).2, Term.paths, List.zip_cons_cons, List.zip_map]
  rfl

theorem zip_paths_blockFrom_app :
    let left := blockFrom ids target (position + 1) (depth + 1) serial func
    let right := (blockFrom ids target (position + 1 + func.size) (depth + 1) left.2 arg).1
    let block := (blockFrom ids target position depth serial (.app m func arg)).1
    let offset := ((block.width : Rat) - (left.1.width + horizontalSpacing + right.width : Nat)) / 2
    block.boxes.zip (Term.app m func arg).paths = (block.root, []) ::
      (moved offset 0 [0] (left.1.boxes.zip func.paths)
        ++ moved (offset + left.1.width + horizontalSpacing) 0 [1] (right.boxes.zip arg.paths)) := by
  intro left right block offset
  have hlength : (left.1.boxes.map (Box.shift offset 0)).length = (func.paths.map (0 :: ·)).length := by
    rw [List.length_map, List.length_map]
    exact (spaced_blockFrom ids target (position + 1) (depth + 1) serial func).length
  rw [(blockFrom_app ids target position depth serial m func arg).2, Term.paths, List.zip_cons_cons,
    List.zip_append hlength, List.zip_map, List.zip_map]
  rfl

theorem connectors_blockFrom_lam :
    let inner := blockFrom ids target (position + 1) (depth + 1) serial body
    let block := blockFrom ids target position depth serial (.lam m x body)
    let dx := ((block.1.width : Rat) - inner.1.width) / 2
    block.1.root.id.serial = inner.2 ∧ block.2 = inner.2 + 2 ∧
      ∃ highlighted, block.1.connectors = inner.1.connectors.map (Connector.shift dx 0) ++
        [connect (inner.2 + 1) block.1.root (inner.1.root.shift dx 0) highlighted] :=
  ⟨rfl, rfl, _, rfl⟩

theorem connectors_blockFrom_app :
    let left := blockFrom ids target (position + 1) (depth + 1) serial func
    let right := blockFrom ids target (position + 1 + func.size) (depth + 1) left.2 arg
    let block := blockFrom ids target position depth serial (.app m func arg)
    let offset := ((block.1.width : Rat) - (left.1.width + horizontalSpacing + right.1.width : Nat)) / 2
    let dx := offset + left.1.width + horizontalSpacing
    block.1.root.id.serial = right.2 ∧ block.2 = right.2 + 3 ∧
      ∃ highlighted highlighted', block.1.connectors = left.1.connectors.map (Connector.shift offset 0) ++
        right.1.connectors.map (Connector.shift dx 0) ++
        [connect (right.2 + 1) block.1.root (left.1.root.shift offset 0) highlighted,
         connect (right.2 + 2) block.1.root (right.1.root.shift dx 0) highlighted'] :=
  ⟨rfl, rfl, _, _, rfl⟩

theorem label_root (t : Term) : (blockFrom ids target position depth serial t).1.root.label = t.label := by
  cases t <;> rfl

theorem map_label_shift (dx : Rat) (dy : Int) (boxes : List Box) :
    (boxes.map (Box.shift dx dy)).map Box.label = boxes.map Box.label :=
  List.map_map

theorem map_label_blockFrom (t : Term) :
    (blockFrom ids target position depth serial t).1.boxes.map Box.label = t.nodes.map Term.label := by
  induction t generalizing position depth serial with
  | var m x => rfl
  | lam m x body ih =>
      rw [(blockFrom_lam ids target position depth serial m x body).2, List.map_cons, label_root, map_label_shift, ih]
      rfl
  | app m func arg ihf iha =>
      rw [(blockFrom_app ids target position depth serial m func arg).2, List.map_cons, label_root, List.map_append,
        map_label_shift, map_label_shift, ihf, iha, ← List.map_append]
      rfl

theorem serials_blockFrom_lam :
    let inner := blockFrom ids target (position + 1) (depth + 1) serial body
    let block := blockFrom ids target position depth serial (.lam m x body)
    block.1.serials.Perm (inner.1.serials ++ [inner.2, inner.2 + 1]) := by
  intro inner block
  obtain ⟨hroot, -, highlighted, hconnectors⟩ := connectors_blockFrom_lam ids target position depth serial m x body
  have hserials : block.1.serials = inner.2 :: (inner.1.serials ++ [inner.2 + 1]) := by
    rw [Block.serials, (blockFrom_lam ids target position depth serial m x body).2, hconnectors]
    simp [elementIds, Block.serials, Box.shift, Connector.shift, connect, Function.comp_def, inner, hroot]
  rw [hserials]
  exact List.perm_middle.symm

theorem serials_blockFrom_app :
    let left := blockFrom ids target (position + 1) (depth + 1) serial func
    let right := blockFrom ids target (position + 1 + func.size) (depth + 1) left.2 arg
    let block := blockFrom ids target position depth serial (.app m func arg)
    block.1.serials.Perm (left.1.serials ++ right.1.serials ++ [right.2, right.2 + 1, right.2 + 2]) := by
  intro left right block
  obtain ⟨hroot, -, highlighted, highlighted', hconnectors⟩ :=
    connectors_blockFrom_app ids target position depth serial m func arg
  have hserials : block.1.serials = right.2 ::
      ((left.1.boxes.map (·.id.serial) ++ right.1.boxes.map (·.id.serial)) ++
      (left.1.connectors.map (·.id.serial) ++ right.1.connectors.map (·.id.serial)) ++
        [right.2 + 1, right.2 + 2]) := by
    rw [Block.serials, (blockFrom_app ids target position depth serial m func arg).2, hconnectors]
    simp [elementIds, Box.shift, Connector.shift, connect, Function.comp_def, left, right, hroot]
  rw [hserials]
  refine List.perm_middle.symm.trans (List.Perm.append_right _ ?_)
  simp only [Block.serials, elementIds, List.map_append, List.map_map, List.append_assoc]
  exact (List.perm_append_comm_assoc _ _ _).append_left _

/-- The elements of a block are numbered without gaps: a box for each node, and a connector for each but the
root. -/
theorem perm_serials_blockFrom (t : Term) :
    (blockFrom ids target position depth serial t).2 = serial + (2 * t.size - 1) ∧
      (blockFrom ids target position depth serial t).1.serials.Perm (List.range' serial (2 * t.size - 1)) := by
  induction t generalizing position depth serial with
  | var m x => exact ⟨rfl, .refl _⟩
  | lam m x body ih =>
      obtain ⟨hnext, hperm⟩ := ih (position + 1) (depth + 1) serial
      have hsize : 2 * (Term.lam m x body).size - 1 = 2 * body.size - 1 + 2 := by
        have := body.size_pos
        rw [Term.size]
        omega
      rw [(connectors_blockFrom_lam ids target position depth serial m x body).2.1, hsize]
      refine ⟨by rw [hnext, Nat.add_assoc], ?_⟩
      have hblock := serials_blockFrom_lam ids target position depth serial m x body
      dsimp only at hblock
      rw [hnext] at hblock
      rw [← List.range'_append_1]
      exact hblock.trans (hperm.append_right _)
  | app m func arg ihf iha =>
      obtain ⟨hleft, hpermf⟩ := ihf (position + 1) (depth + 1) serial
      obtain ⟨hright, hperma⟩ := iha (position + 1 + func.size) (depth + 1)
        (blockFrom ids target (position + 1) (depth + 1) serial func).2
      have hsize : 2 * (Term.app m func arg).size - 1 = 2 * func.size - 1 + (2 * arg.size - 1) + 3 := by
        have := func.size_pos
        have := arg.size_pos
        rw [Term.size]
        omega
      rw [(connectors_blockFrom_app ids target position depth serial m func arg).2.1, hsize]
      refine ⟨by rw [hright, hleft]; omega, ?_⟩
      have hblock := serials_blockFrom_app ids target position depth serial m func arg
      dsimp only at hblock
      rw [hright] at hblock
      refine hblock.trans ?_
      rw [← List.range'_append_1, ← List.range'_append_1, ← Nat.add_assoc, ← hleft]
      exact (hpermf.append hperma).append_right _

theorem spans_blockFrom (t : Term) :
    Spans 0 (blockFrom ids target position depth serial t).1.width
      (below ((blockFrom ids target position depth serial t).1.boxes.zip t.paths) []) := by
  have hcrowns := crowns_root ids target position depth serial t
  induction t generalizing position depth serial with
  | var m x =>
      have hspans := Spans.singleton (blockFrom ids target position depth serial (.var m x)).1.root
      convert hspans using 1
      · simp [blockFrom]
      · simp [Box.right, blockFrom]
      · ext b
        simp [below, Block.boxes, Term.paths]
  | lam m x body ih =>
      rw [zip_paths_blockFrom_lam, below_cons_nil, below_moved_nil]
      refine Spans.crown hcrowns (blockFrom_lam ids target position depth serial m x body).1 ?_
      convert (ih (position + 1) (depth + 1) serial (crowns_root ..)).shift _ 0 using 1
      · rw [zero_add]
      · ring
  | app m func arg ihf iha =>
      rw [zip_paths_blockFrom_app, below_cons_nil, below_append, below_moved_nil, below_moved_nil]
      refine Spans.crown hcrowns (blockFrom_app ids target position depth serial m func arg).1 ?_
      convert (ihf (position + 1) (depth + 1) serial (crowns_root ..)).sideBySide
        (iha (position + 1 + func.size) (depth + 1) _ (crowns_root ..)) _ using 1
      ring

theorem centred_blockFrom (t : Term) :
    ∀ b ∈ (blockFrom ids target position depth serial t).1.boxes.zip t.paths,
      IsCentred ((blockFrom ids target position depth serial t).1.boxes.zip t.paths) b := by
  -- the root is in the middle of the block, all of which is below it
  have hroot : ∀ (t : Term) (position depth serial : Nat), IsCentred
      ((blockFrom ids target position depth serial t).1.boxes.zip t.paths)
      ((blockFrom ids target position depth serial t).1.root, []) := by
    intro t position depth serial
    refine ⟨_, _, spans_blockFrom ids target position depth serial t, ?_⟩
    rw [Box.centre, (crowns_root ids target position depth serial t).centred]
    ring
  induction t generalizing position depth serial with
  | var m x =>
      intro b hb
      obtain rfl := List.mem_singleton.mp hb
      exact hroot (.var m x) position depth serial
  | lam m x body ih =>
      intro b hb
      have hwhole := hroot (.lam m x body) position depth serial
      rw [zip_paths_blockFrom_lam] at hb hwhole ⊢
      rcases List.mem_cons.mp hb with rfl | hb
      · exact hwhole
      · obtain ⟨c, hc, rfl⟩ := List.mem_map.mp hb
        exact (ih _ _ _ c hc).moved.congr (below_cons_root _ 0 c.2)
  | app m func arg ihf iha =>
      intro b hb
      have hwhole := hroot (.app m func arg) position depth serial
      rw [zip_paths_blockFrom_app] at hb hwhole ⊢
      rcases List.mem_cons.mp hb with rfl | hb
      · exact hwhole
      rcases List.mem_append.mp hb with hb | hb
      · obtain ⟨c, hc, rfl⟩ := List.mem_map.mp hb
        refine (ihf _ _ _ c hc).moved.congr ((below_cons_root _ 0 c.2).trans ?_)
        rw [below_append, below_moved_of_ne zero_ne_one, Set.union_empty]
        rfl
      · obtain ⟨c, hc, rfl⟩ := List.mem_map.mp hb
        refine (iha _ _ _ c hc).moved.congr ((below_cons_root _ 1 c.2).trans ?_)
        rw [below_append, below_moved_of_ne one_ne_zero, Set.empty_union]
        rfl

theorem exists_zip_paths_blockFrom (t : Term) :
    ∃ rest, (blockFrom ids target position depth serial t).1.boxes.zip t.paths
      = ((blockFrom ids target position depth serial t).1.root, []) :: rest := by
  cases t <;> exact ⟨_, rfl⟩

theorem joins_connect (serial : Nat) (parent child : Box) (highlighted : Bool) :
    (connect serial parent child highlighted).Joins parent child :=
  ⟨rfl, rfl, rfl, rfl, rfl, rfl⟩

/-- A block is linked, and so it is with its root hanging under another one. -/
theorem hang_blockFrom {t : Term} {dx : Rat} {k : Nat} {root : Box} {whole : List (Box × List Nat)}
    (h : Linked ((blockFrom ids target position depth serial t).1.boxes.zip t.paths)
      (blockFrom ids target position depth serial t).1.connectors)
    (hroot : (root, []) ∈ whole)
    (hsub : moved dx 0 [k] ((blockFrom ids target position depth serial t).1.boxes.zip t.paths) ⊆ whole)
    (hkind : root.kind = .abstraction →
      root.centre = ((blockFrom ids target position depth serial t).1.root.shift dx 0).centre)
    (number : Nat) (highlighted : Bool) :
    ∃ cs, cs.Perm ((blockFrom ids target position depth serial t).1.connectors.map (Connector.shift dx 0) ++
        [connect number root ((blockFrom ids target position depth serial t).1.root.shift dx 0) highlighted]) ∧
      List.Forall₂ (Connector.LeadsTo whole) cs
        (moved dx 0 [k] ((blockFrom ids target position depth serial t).1.boxes.zip t.paths)) := by
  obtain ⟨rest, hrest⟩ := exists_zip_paths_blockFrom ids target position depth serial t
  have hmoved : Linked (moved dx 0 [k] _) _ := h.moved
  rw [hrest, moved, List.map_cons] at hmoved hsub ⊢
  exact hmoved.hang hsub ⟨_, hroot, ⟨k, rfl⟩, joins_connect _ _ _ _, hkind⟩

theorem linked_blockFrom (t : Term) :
    Linked ((blockFrom ids target position depth serial t).1.boxes.zip t.paths)
      (blockFrom ids target position depth serial t).1.connectors := by
  induction t generalizing position depth serial with
  | var m x => exact ⟨[], .refl _, .nil⟩
  | lam m x body ih =>
      obtain ⟨-, -, highlighted, hconnectors⟩ := connectors_blockFrom_lam ids target position depth serial m x body
      have hcentre : (blockFrom ids target position depth serial (.lam m x body)).1.root.centre
          = ((blockFrom ids target (position + 1) (depth + 1) serial body).1.root.shift
              (((blockFrom ids target position depth serial (.lam m x body)).1.width -
                (blockFrom ids target (position + 1) (depth + 1) serial body).1.width) / 2) 0).centre := by
        rw [centre_shift, Box.centre, Box.centre, (crowns_root ..).centred, (crowns_root ..).centred]
        ring
      rw [zip_paths_blockFrom_lam, hconnectors]
      exact hang_blockFrom ids target _ _ _ (ih _ _ _) List.mem_cons_self (List.subset_cons_self _ _)
        (fun _ => hcentre) _ _
  | app m func arg ihf iha =>
      obtain ⟨-, -, highlighted, highlighted', hconnectors⟩ :=
        connectors_blockFrom_app ids target position depth serial m func arg
      rw [zip_paths_blockFrom_app, hconnectors]
      have hkind : (blockFrom ids target position depth serial (.app m func arg)).1.root.kind ≠ .abstraction := by
        show NodeKind.application ≠ .abstraction
        decide
      refine .under (hang_blockFrom ids target _ _ _ (ihf _ _ _) List.mem_cons_self ?_ (absurd · hkind) _ _)
        (hang_blockFrom ids target _ _ _ (iha _ _ _) List.mem_cons_self ?_ (absurd · hkind) _ _)
      · exact List.subset_cons_of_subset _ (List.subset_append_left _ _)
      · exact List.subset_cons_of_subset _ (List.subset_append_right _ _)

end Blocks

/-! ### Placing a block -/

theorem isLeast_least {α : Type} [LinearOrder α] (x : α) (xs : List α) :
    IsLeast { y | y ∈ x :: xs } (least x xs) := by
  induction xs generalizing x with
  | nil => simp [least]
  | cons y ys ih =>
      have hmin : least x (y :: ys) = least (min x y) ys := by
        rw [least, List.foldl_cons, min_def_lt, least]
        rcases lt_trichotomy x y with h | rfl | h
        · rw [if_neg h.not_gt, if_pos h]
        · simp
        · rw [if_pos h, if_neg h.not_gt]
      rw [hmin]
      obtain ⟨hmem, hle⟩ := ih (min x y)
      constructor
      · rcases List.mem_cons.mp hmem with heq | hys
        · rcases min_choice x y with h | h
          · exact List.mem_cons.mpr (.inl (heq.trans h))
          · exact List.mem_cons_of_mem _ (List.mem_cons.mpr (.inl (heq.trans h)))
        · exact List.mem_cons_of_mem _ (List.mem_cons_of_mem _ hys)
      · intro z hz
        have hle' := hle (List.mem_cons_self : min x y ∈ min x y :: ys)
        rcases List.mem_cons.mp hz with rfl | hz
        · exact hle'.trans (min_le_left _ _)
        rcases List.mem_cons.mp hz with rfl | hz
        · exact hle'.trans (min_le_right _ _)
        · exact hle (List.mem_cons_of_mem _ hz)

theorem isGreatest_greatest {α : Type} [LinearOrder α] (x : α) (xs : List α) :
    IsGreatest { y | y ∈ x :: xs } (greatest x xs) :=
  isLeast_least (α := αᵒᵈ) x xs


theorem nonneg_y_blockFrom (ids : Nat → Int) (target : Option Nat) (t : Term) :
    ∀ b ∈ (blockFrom ids target 0 0 0 t).1.boxes, 0 ≤ b.y := by
  have hspaced := spaced_blockFrom ids target 0 0 0 t
  rw [← List.map_fst_zip hspaced.length.le, List.forall_mem_map]
  exact fun b hb => hspaced.level b hb ▸ Int.natCast_nonneg _

theorem bounds_blockFrom (ids : Nat → Int) (target : Option Nat) (t : Term) :
    let block := (blockFrom ids target 0 0 0 t).1
    least block.root.x (block.below.map fun box => box.x) = 0 ∧
      greatest block.root.right (block.below.map Box.right) = block.width ∧
      least block.root.y (block.below.map fun box => box.y) = 0 := by
  intro block
  have hspans := spans_blockFrom ids target 0 0 0 t
  rw [below_nil, List.map_fst_zip (spaced_blockFrom ids target 0 0 0 t).length.le] at hspans
  have himage : ∀ {α : Type} (f : Box → α),
      f '' { b | b ∈ block.boxes } = { y | y ∈ f block.root :: block.below.map f } := by
    intro α f
    ext y
    simp [Block.boxes, eq_comm]
  refine ⟨?_, ?_, ?_⟩
  · exact (isLeast_least _ _).unique (himage Box.x ▸ hspans.left)
  · exact (isGreatest_greatest _ _).unique (himage Box.right ▸ hspans.right)
  · refine (isLeast_least _ _).unique ⟨List.mem_cons.mpr (.inl ?_), ?_⟩
    · exact ((crowns_root ids target 0 0 0 t).level).symm
    · rw [← himage Box.y]
      rintro _ ⟨b, hb, rfl⟩
      exact nonneg_y_blockFrom ids target t b hb

theorem boxes_tree (ids : Nat → Int) (target : Option Nat) (t : Term) :
    (tree ids target t).boxes = (blockFrom ids target 0 0 0 t).1.boxes.map (Box.shift padding padding) ∧
      (tree ids target t).connectors = (blockFrom ids target 0 0 0 t).1.connectors.map (Connector.shift padding padding) := by
  obtain ⟨hleft, -, htop⟩ := bounds_blockFrom ids target t
  simp only [tree, Block.place, hleft, htop, sub_zero, and_self]

theorem canvas_tree (ids : Nat → Int) (target : Option Nat) (t : Term) {b : Box}
    (h : b ∈ (blockFrom ids target 0 0 0 t).1.boxes) :
    b.right + 2 * padding ≤ (tree ids target t).canvasWidth ∧
      b.bottom + 2 * padding ≤ (tree ids target t).canvasHeight := by
  obtain ⟨hleft, hright, htop⟩ := bounds_blockFrom ids target t
  have hwithin := ((spaced_blockFrom ids target 0 0 0 t).within b h).2
  have hbottom : b.bottom ≤ greatest _ _ :=
    (isGreatest_greatest _ _).2 (List.mem_map_of_mem (f := Box.bottom) h)
  have hwidth := (isGreatest_greatest (minCanvas.1 : Rat)
    [(blockFrom ids target 0 0 0 t).1.width + 2 * (padding : Rat)]).2 (List.mem_cons_of_mem _ (List.mem_singleton_self _))
  have hheight := (isGreatest_greatest (minCanvas.2 : Int) [greatest (blockFrom ids target 0 0 0 t).1.root.bottom
    ((blockFrom ids target 0 0 0 t).1.below.map Box.bottom) + 2 * (padding : Int)]).2
    (List.mem_cons_of_mem _ (List.mem_singleton_self _))
  simp only [tree, Block.place, hleft, hright, htop, sub_zero]
  constructor
  · exact (add_le_add_left hwithin _).trans hwidth
  · exact (add_le_add_left hbottom _).trans hheight

/-! ### Trees -/

/-- Whether a tree layout shows a term as it is: a box for every node, in pre-order, with its identity and what
there is to show of it, and a connector for every edge between the middles of two boxes; the boxes at the level of
their depth and in the middle over their subtrees, the leftmost at the padding, which they all keep to the sides
of the canvas. -/
structure Tree.Mirrors (layout : Tree) (n : Node) : Prop where
  identities : layout.boxes.map Box.node = n.ids
  labels : layout.boxes.map Box.label = n.term.nodes.map Term.label
  linked : Linked (layout.boxes.zip n.term.paths) layout.connectors
  distinct : ((elementIds layout.boxes layout.connectors).map ElementId.text).Nodup
  level : ∀ b ∈ layout.boxes.zip n.term.paths,
    b.1.y = (padding + b.2.length * (nodeHeight + verticalSpacing) : Nat)
  centred : ∀ b ∈ layout.boxes.zip n.term.paths, IsCentred (layout.boxes.zip n.term.paths) b
  leftmost : IsLeast (Box.x '' { b | b ∈ layout.boxes }) padding
  margins : ∀ b ∈ layout.boxes, (padding : Rat) ≤ b.x ∧ b.right + padding ≤ layout.canvasWidth ∧
    (padding : Int) ≤ b.y ∧ b.bottom + padding ≤ layout.canvasHeight

theorem zip_paths_tree (ids : Nat → Int) (target : Option Nat) (t : Term) :
    (tree ids target t).boxes.zip t.paths
      = moved padding padding [] ((blockFrom ids target 0 0 0 t).1.boxes.zip t.paths) := by
  rw [(boxes_tree ids target t).1, List.zip_map_left]
  rfl

theorem level_tree (ids : Nat → Int) (target : Option Nat) (t : Term) {b : Box × List Nat}
    (h : b ∈ (tree ids target t).boxes.zip t.paths) :
    b.1.y = (padding + b.2.length * (nodeHeight + verticalSpacing) : Nat) := by
  rw [zip_paths_tree] at h
  obtain ⟨c, hc, rfl⟩ := List.mem_map.mp h
  have hlevel := (spaced_blockFrom ids target 0 0 0 t).level c hc
  simp only [Prod.map_fst, Prod.map_snd, List.nil_append, Box.shift, hlevel, levelTop, Nat.zero_add]
  push_cast
  ring

theorem leftmost_tree (ids : Nat → Int) (target : Option Nat) (t : Term) :
    IsLeast (Box.x '' { b | b ∈ (tree ids target t).boxes }) padding := by
  have hspans := (spans_blockFrom ids target 0 0 0 t).shift padding padding
  rw [← below_moved_nil, ← zip_paths_tree, below_nil, zero_add] at hspans
  rw [List.map_fst_zip] at hspans
  · exact hspans.left
  · rw [(boxes_tree ids target t).1, List.length_map, (spaced_blockFrom ids target 0 0 0 t).length]

theorem margins_tree (ids : Nat → Int) (target : Option Nat) (t : Term) : ∀ b ∈ (tree ids target t).boxes,
    (padding : Rat) ≤ b.x ∧ b.right + padding ≤ (tree ids target t).canvasWidth ∧
      (padding : Int) ≤ b.y ∧ b.bottom + padding ≤ (tree ids target t).canvasHeight := by
  intro b hb
  rw [(boxes_tree ids target t).1] at hb
  obtain ⟨c, hc, rfl⟩ := List.mem_map.mp hb
  have hleft := ((spaced_blockFrom ids target 0 0 0 t).within c hc).1
  have htop := nonneg_y_blockFrom ids target t c hc
  obtain ⟨hright, hbottom⟩ := canvas_tree ids target t hc
  rw [right_shift, bottom_shift]
  refine ⟨?_, ?_, ?_, ?_⟩
  · exact le_add_of_nonneg_left hleft
  · linarith
  · exact le_add_of_nonneg_left htop
  · linarith

theorem mirrors_tree (target : Option Nat) (n : Node) : (tree n.idAt target n.term).Mirrors n where
  identities := by
    rw [(boxes_tree n.idAt target n.term).1, map_node_shift, map_node_blockFrom, ← List.range_eq_range',
      n.map_idAt_range]
  labels := by rw [(boxes_tree n.idAt target n.term).1, map_label_shift, map_label_blockFrom]
  linked := by
    rw [zip_paths_tree, (boxes_tree n.idAt target n.term).2]
    exact (linked_blockFrom n.idAt target 0 0 0 n.term).moved
  distinct := by
    rw [(boxes_tree n.idAt target n.term).1, (boxes_tree n.idAt target n.term).2, elementIds_shift]
    refine nodup_text_of_nodup_serial ?_
    exact (perm_serials_blockFrom n.idAt target 0 0 0 n.term).2.nodup_iff.mpr List.nodup_range'
  level := fun _ => level_tree n.idAt target n.term
  centred := by
    rw [zip_paths_tree]
    intro b hb
    obtain ⟨c, hc, rfl⟩ := List.mem_map.mp hb
    exact (centred_blockFrom n.idAt target 0 0 0 n.term c hc).moved
  leftmost := leftmost_tree n.idAt target n.term
  margins := margins_tree n.idAt target n.term

/-- **A tree layout mirrors its term.** -/
theorem treeDrawing_mirrors (target : Option Nat) (n : Node) :
    ∃ layout, treeDrawing .unlimited n.idAt target (.ofTerm n.term) = .drawn layout ∧ layout.Mirrors n := by
  have hdrawn : treeDrawing .unlimited n.idAt target (.ofTerm n.term) = .drawn (tree n.idAt target n.term) := by
    simp [treeDrawing, Draft.draw, Draft.firstFault?_ofTerm_of_open]
  exact ⟨tree n.idAt target n.term, hdrawn, mirrors_tree target n⟩

end Layout
end LambdaStepper
