import LambdaStepper.Proofs.Layout.Wires
import Mathlib.Data.List.Perm.Basic
import Mathlib.Tactic.NormNum

/-! # Diagrams do not tangle

Every variable hangs on the bar of its binder by a wire of its own.  `Nameless.hangers` lists those bars, from
left to right, and `perm_legs` says that the legs of a drawing, with the one that it still owes, are the
wires of its variables and no others.

In the exact points of a diagram this says that every column has one wire, which hangs on the right bar, that
the horizontal steps of one row keep apart, bars with their overhang and elbows alike, and that wires do not
go through elbows (`Circuit.Untangled`, `circuitDrawing_untangled`). -/

namespace LambdaStepper.Layout

/-- The bar of an abstraction. -/
structure Bar where
  row : Nat
  first : Nat
  last : Nat
  deriving DecidableEq, Repr

/-- The course of a bar. -/
def Bar.course (b : Bar) : Course :=
  .bar b.row b.first b.last

end LambdaStepper.Layout

namespace LambdaStepper.Nameless

open Layout

/-- The number of columns of a diagram: one for each variable. -/
def width : Nameless → Nat
  | .bound _ | .free _ => 1
  | .lam body => body.width
  | .app func arg => func.width + arg.width

/-- The bars on which the variables of a term hang, from left to right.  The term stands in the given row and
column, inside binders with the given bars, the innermost first. -/
def hangers (row column : Nat) (bars : List Bar) : Nameless → List (Option Bar)
  | .bound i => [bars[i]?]
  | .free _ => [none]
  | .lam body => body.hangers (row + 1) column (⟨row, column, column + body.width - 1⟩ :: bars)
  | .app func arg => func.hangers row column bars ++ arg.hangers row (column + func.width) bars

theorem width_pos (t : Nameless) : 0 < t.width := by
  induction t with
  | bound | free => exact Nat.one_pos
  | lam body ih => exact ih
  | app func arg ihf _ => exact Nat.add_pos_left ihf _

@[simp] theorem length_hangers (row column : Nat) (bars : List Bar) (t : Nameless) :
    (t.hangers row column bars).length = t.width := by
  induction t generalizing row column bars with
  | bound | free => rfl
  | lam body ih => exact ih _ _ _
  | app func arg ihf iha => rw [hangers, List.length_append, ihf, iha, width]

@[simp] theorem right_outline (owes : Owes) (row column : Nat) (rows : List Nat) (t : Nameless) :
    (t.outline owes row column rows).right = column + t.width := by
  induction t generalizing owes row column rows with
  | bound | free =>
      simp only [outline, wireOutline, width]
      split <;> rfl
  | lam body ih => exact ih _ _ _ _
  | app func arg ihf iha =>
      simp only [outline, width]
      rw [iha, ihf, Nat.add_assoc]

end LambdaStepper.Nameless

namespace LambdaStepper.Layout

open List (Perm)
open scoped List

variable (owes : Owes) {row : Nat} (column : Nat) {bars : List Bar}

/-! ### Each variable has its wire -/

/-- The bar of a variable is one of the bars around the term, or one of the term that goes over its column. -/
theorem bar_of_hangers {t : Nameless} {k : Nat} {bar : Bar}
    (h : (t.hangers row column bars)[k]? = some (some bar)) :
    bar ∈ bars ∨ bar.course ∈ (t.outline owes row column (bars.map Bar.row)).courses ∧
      bar.first ≤ column + k ∧ column + k ≤ bar.last := by
  induction t generalizing owes row column bars k with
  | bound i =>
      obtain ⟨rfl, hi⟩ : k = 0 ∧ bars[i]? = some bar := by
        simpa [Nameless.hangers, List.getElem?_singleton] using h
      exact .inl (List.mem_of_getElem? hi)
  | free => simp [Nameless.hangers, List.getElem?_singleton] at h
  | lam body ih =>
      have hk : k < body.width := by
        rw [← Nameless.length_hangers]
        exact (List.getElem?_eq_some_iff.mp h).1
      have hpos := body.width_pos
      rcases ih owes column h with hbar | ⟨hbar, hfirst, hlast⟩
      · rcases List.mem_cons.mp hbar with rfl | hbar
        · refine .inr ⟨List.mem_append_right _ (List.mem_singleton.mpr ?_), ?_, ?_⟩
          · simp only [Bar.course, Nameless.right_outline, Course.bar.injEq, true_and]
            omega
          · exact Nat.le_add_right column k
          · dsimp only
            omega
        · exact .inl hbar
      · exact .inr ⟨List.mem_append_left _ hbar, hfirst, hlast⟩
  | app func arg ihf iha =>
      rw [Nameless.hangers] at h
      rcases Nat.lt_or_ge k func.width with hk | hk
      · rw [List.getElem?_append_left (by simpa using hk)] at h
        rcases ihf .right column h with hbar | ⟨hbar, hcolumns⟩
        · exact .inl hbar
        · exact .inr ⟨List.mem_append_left _ (List.mem_append_left _ hbar), hcolumns⟩
      · rw [List.getElem?_append_right (by simpa using hk), Nameless.length_hangers] at h
        rcases iha .left (column + func.width) h with hbar | ⟨hbar, hcolumns⟩
        · exact .inl hbar
        · refine .inr ⟨List.mem_append_left _ (List.mem_append_right _ ?_), ?_, ?_⟩
          · rwa [Nameless.right_outline]
          · omega
          · omega

theorem isSome_of_mem_hangers {t : Nameless} (ht : Drawable bars.length t) :
    ∀ hanger ∈ t.hangers row column bars, hanger.isSome = true := by
  induction t generalizing row column bars with
  | bound i =>
      have hi : i < bars.length := ht.indices
      simp [Nameless.hangers, hi]
  | free => cases ht.closed
  | lam body ih => exact ih _ ht.body
  | app func arg ihf iha => exact List.forall_mem_append.mpr ⟨ihf _ ht.func, iha _ ht.arg⟩

/-- Where the wires that hang on the given bars start, the first of them in the given column. -/
def wireStarts (column : Nat) (hangers : List (Option Bar)) : List (Int × Int) :=
  (hangers.zipIdx column).map fun e => ((e.2 : Int), ((e.1.elim 0 Bar.row : Nat) : Int))

/-- Where the legs of courses start. -/
def legStarts (courses : List Course) : List (Int × Int) :=
  (legsOf courses).map fun l => (l.column, l.top)

/-- Where the wire starts that is owed. -/
def owedStart (owes : Owes) (hook : Nat × Nat) : List (Int × Int) :=
  if owes = .nothing then [] else [((hook.2 : Int), (hook.1 : Int))]

theorem wireStarts_append (hs hs' : List (Option Bar)) :
    wireStarts column (hs ++ hs') = wireStarts column hs ++ wireStarts (column + hs.length) hs' := by
  simp only [wireStarts, List.zipIdx_append, List.map_append]

theorem column_le_of_mem_wireStarts {hs : List (Option Bar)} {e : Int × Int}
    (h : e ∈ wireStarts column hs) : (column : Int) ≤ e.1 := by
  obtain ⟨⟨hanger, k⟩, hk, rfl⟩ := List.mem_map.mp h
  exact Int.ofNat_le.mpr (List.mem_zipIdx hk).1

theorem filter_wireStarts {hs : List (Option Bar)} {k : Nat} {hanger : Option Bar} (hk : hs[k]? = some hanger) :
    (wireStarts column hs).filter (fun e => e.1 = ((column + k : Nat) : Int))
      = [(((column + k : Nat) : Int), ((hanger.elim 0 Bar.row : Nat) : Int))] := by
  induction hs generalizing column k with
  | nil => cases hk
  | cons h hs ih =>
      have hcons : wireStarts column (h :: hs)
          = ((column : Int), ((h.elim 0 Bar.row : Nat) : Int)) :: wireStarts (column + 1) hs := rfl
      cases k with
      | zero =>
          obtain rfl := Option.some.inj hk
          have hrest :
              (wireStarts (column + 1) hs).filter (fun e => e.1 = ((column + 0 : Nat) : Int)) = [] := by
            rw [List.filter_eq_nil_iff]
            intro e he
            have := column_le_of_mem_wireStarts (column + 1) he
            simp only [decide_eq_true_eq]
            omega
          rw [hcons, List.filter_cons_of_pos (by simp), hrest]
          rfl
      | succ k =>
          have hrest := ih (column + 1) hk
          rw [Nat.add_right_comm] at hrest
          rw [hcons, List.filter_cons_of_neg, ← Nat.add_assoc, hrest]
          simp only [decide_eq_true_eq]
          omega

theorem legStarts_append (cs ds : List Course) : legStarts (cs ++ ds) = legStarts cs ++ legStarts ds := by
  simp only [legStarts, legsOf, List.flatMap_append, List.map_append]

/-- An elbow has the legs of both its parts, but for the one that it owes itself. -/
theorem perm_legStarts_elbow {bottom : Nat} {left right : Nat × Nat} (hleft : left.1 < bottom)
    (hright : right.1 < bottom) :
    (legStarts [elbow owes bottom left right]
        ++ owedStart owes (if owes = .right then right else left)).Perm
      (owedStart .right left ++ owedStart .left right) := by
  have hmin : min (left.1 : Int) bottom = left.1 := min_eq_left (by omega)
  have hmin' : min (bottom : Int) right.1 = right.1 := min_eq_right (by omega)
  cases owes <;> simp [legStarts, legsOf, elbow, Course.legs, owedStart, Leg.top, hmin, hmin']
  exact List.Perm.swap _ _ _

/-- The legs of a drawing and the one that it owes are the wires of its variables. -/
theorem perm_legs {t : Nameless} (habove : ∀ top ∈ bars.map Bar.row, top < row)
    (ht : Drawable bars.length t) :
    (legStarts (t.outline owes row column (bars.map Bar.row)).courses
        ++ owedStart owes (t.outline owes row column (bars.map Bar.row)).hook).Perm
      (wireStarts column (t.hangers row column bars)) := by
  induction t generalizing owes row column bars with
  | bound i =>
      have hi : i < bars.length := ht.indices
      have htop : bars[i].row < row := habove _ (List.mem_map_of_mem (List.getElem_mem hi))
      have hmin : min (bars[i].row : Int) row = bars[i].row := min_eq_left (by omega)
      simp only [Nameless.outline, Nameless.hangers, wireOutline]
      by_cases ho : owes = .nothing <;>
        simp [ho, legStarts, legsOf, Course.legs, owedStart, wireStarts, Leg.top, hi, hmin]
  | free => cases ht.closed
  | lam body ih =>
      have hbar : ∀ last, legStarts [.bar row column last] = [] := fun _ => rfl
      simp only [Nameless.outline, Nameless.hangers]
      rw [legStarts_append, hbar, List.append_nil]
      have habove' : ∀ top ∈ (Bar.mk row column (column + body.width - 1) :: bars).map Bar.row, top < row + 1 :=
        rows_lt_of_cons habove
      exact ih owes column habove' ht.body
  | app func arg ihf iha =>
      have hfunc := ihf .right column habove ht.func
      have harg := iha .left (column + func.width) habove ht.arg
      have htidy := tidy_outline .right column (t := func) habove (by simpa using ht.func)
      have htidy' := tidy_outline .left (column + func.width) (t := arg) habove (by simpa using ht.arg)
      have helbow := perm_legStarts_elbow owes (lt_max_of_lt_left htidy.hook_lt)
        (lt_max_of_lt_right htidy'.hook_lt)
      simp only [Nameless.outline, Nameless.hangers, Nameless.right_outline, legStarts_append,
        wireStarts_append, Nameless.length_hangers]
      generalize func.outline .right row column (bars.map Bar.row) = left at *
      generalize arg.outline .left row (column + func.width) (bars.map Bar.row) = right at *
      rw [List.append_assoc, List.append_assoc]
      calc
        _ ~ legStarts left.courses ++ (legStarts right.courses ++
              (owedStart .right left.hook ++ owedStart .left right.hook)) :=
          (helbow.append_left _).append_left _
        _ ~ legStarts left.courses ++ (owedStart .right left.hook ++
              (legStarts right.courses ++ owedStart .left right.hook)) :=
          (List.perm_append_comm_assoc _ _ _).append_left _
        _ = legStarts left.courses ++ owedStart .right left.hook ++
              (legStarts right.courses ++ owedStart .left right.hook) := (List.append_assoc _ _ _).symm
        _ ~ _ := hfunc.append harg

/-! ### Points -/

/-- The steps of a stroke along rows. -/
def Course.horizontals (m : Metric) (c : Course) : List (Point × Point) :=
  (segmentsOf (c.points m)).filter fun s => s.1.2 = s.2.2

/-- The exact horizontal steps of a stroke. -/
def Stroke.horizontals (s : Stroke) : List (Point × Point) :=
  s.course.horizontals .exact

/-- The step that draws a leg. -/
def Leg.segment (l : Leg) : Point × Point :=
  ((l.column + 1 / 2, l.start + 1 / 2), (l.column + 1 / 2, l.stop + 1 / 2))

theorem verticals_eq {c : Course} (hc : c.Proper) :
    c.verticals .exact = c.legs.map Leg.segment := by
  have helbow := hc.elbow
  cases c with
  | bar row first last => rfl
  | wire top bottom column =>
      simp [Course.verticals, Course.points, segmentsOf, Course.legs, Leg.segment, Course.isBar]
  | forward top bottom left right =>
      have hne : left ≠ right := (helbow rfl).ne
      simp [Course.verticals, Course.points, segmentsOf, Course.legs, Leg.segment, Course.isBar, hne]
  | backward top bottom left right =>
      have hne : left ≠ right := (helbow rfl).ne
      simp [Course.verticals, Course.points, segmentsOf, Course.legs, Leg.segment, Course.isBar, hne]
  | joint top bottom back left right =>
      have hne : left ≠ right := (helbow rfl).ne
      simp [Course.verticals, Course.points, segmentsOf, Course.legs, Leg.segment, Course.isBar, hne]

/-- How far a run goes beyond the middles of its first and last column. -/
def Course.overhang (c : Course) : Rat :=
  if c.isBar then 1 / 3 else 0

/-- The step that draws the run of a course along the given row. -/
def Course.runStep (c : Course) (row : Int) : Point × Point :=
  ((c.leftmost + 1 / 2 - c.overhang, row + 1 / 2), (c.rightmost + 1 / 2 + c.overhang, row + 1 / 2))

theorem Course.Proper.start_ne_stop {c : Course} (hc : c.Proper) {l : Leg} (hl : l ∈ c.legs) :
    l.start ≠ l.stop := by
  have := hc.legs l hl
  simp only [Leg.top, Leg.bottom] at this
  omega

theorem horizontals_eq {c : Course} (hc : c.Proper) :
    c.horizontals .exact = c.run?.toList.map c.runStep := by
  have hlegs : ∀ l ∈ c.legs, l.start ≠ l.stop := fun l => hc.start_ne_stop
  cases c with
  | bar row first last =>
      have hstart : Metric.exact.start first = first + 1 / 2 - 1 / 3 := rfl
      have hstop : Metric.exact.stop last = last + 1 / 2 + 1 / 3 := rfl
      have hpoints := @Course.points_bar .exact row first last hc.ordered
      rw [hstart, hstop] at hpoints
      rw [Course.horizontals, hpoints]
      simp [segmentsOf, Course.run?, Course.runStep, Course.leftmost, Course.rightmost, Course.overhang,
        Course.isBar]
  | wire top bottom column =>
      simp only [Course.legs, List.forall_mem_singleton] at hlegs
      simp [Course.horizontals, Course.points, segmentsOf, Course.run?, hlegs]
  | forward top bottom left right =>
      simp only [Course.legs, List.forall_mem_singleton] at hlegs
      simp [Course.horizontals, Course.points, segmentsOf, Course.run?, Course.runStep, Course.leftmost,
        Course.rightmost, Course.overhang, Course.isBar, hlegs]
  | backward top bottom left right =>
      simp only [Course.legs, List.forall_mem_singleton] at hlegs
      simp [Course.horizontals, Course.points, segmentsOf, Course.run?, Course.runStep, Course.leftmost,
        Course.rightmost, Course.overhang, Course.isBar, hlegs]
  | joint top bottom back left right =>
      simp only [Course.legs, List.forall_mem_cons] at hlegs
      simp [Course.horizontals, Course.points, segmentsOf, Course.run?, Course.runStep, Course.leftmost,
        Course.rightmost, Course.overhang, Course.isBar, hlegs]

theorem Course.overhang_nonneg (c : Course) : 0 ≤ c.overhang := by
  unfold Course.overhang
  split <;> norm_num

theorem Course.overhang_le (c : Course) : c.overhang ≤ 1 / 3 := by
  unfold Course.overhang
  split <;> norm_num

/-- Runs in different columns do not even touch, however far they hang over. -/
theorem runStep_lt {c d : Course} (h : c.rightmost < d.leftmost) (i j : Int) :
    (c.runStep i).2.1 < (d.runStep j).1.1 := by
  have hstep : (c.rightmost : Rat) + 1 ≤ d.leftmost := by exact_mod_cast h
  have hc := c.overhang_le
  have hd := d.overhang_le
  simp only [Course.runStep]
  linarith

theorem runStep_rightwards {c : Course} (hc : c.Proper) {i : Int} (hi : i ∈ c.run?) :
    (c.runStep i).1.1 < (c.runStep i).2.1 := by
  have hordered : (c.leftmost : Rat) ≤ c.rightmost := by exact_mod_cast hc.ordered
  have hoverhang := c.overhang_nonneg
  simp only [Course.runStep]
  by_cases helbow : c.isElbow = true
  · have hlt : (c.leftmost : Rat) < c.rightmost := by exact_mod_cast hc.elbow helbow
    linarith
  · have hbar : c.overhang = 1 / 3 := by
      cases c <;> simp_all [Course.isElbow, Course.run?, Course.overhang, Course.isBar]
    linarith

/-! ### Untangled diagrams -/

/-- The vertical steps of the strokes of a diagram. -/
def Circuit.verticals (d : Circuit) : List (Point × Point) :=
  d.strokes.flatMap Stroke.verticals

/-- The horizontal steps of the strokes of a diagram. -/
def Circuit.horizontals (d : Circuit) : List (Point × Point) :=
  d.strokes.flatMap Stroke.horizontals

/-- The row of the upper end of a step. -/
def upperEnd (s : Point × Point) : Rat :=
  min s.1.2 s.2.2

/-- The row of the lower end of a step. -/
def lowerEnd (s : Point × Point) : Rat :=
  max s.1.2 s.2.2

/-- A diagram of a term whose wires, bars and elbows keep out of each other's way. -/
structure Circuit.Untangled (d : Circuit) (t : Nameless) : Prop where
  /-- A column has one vertical step.  It hangs on the bar of the binder of the variable of that column, and
  that bar goes over the column. -/
  wires : ∀ k < d.width, ∃ bar s, (t.hangers 0 0 [])[k]? = some (some bar) ∧
    bar.course ∈ d.strokes.map Stroke.course ∧ bar.first ≤ k ∧ k ≤ bar.last ∧
    (d.verticals.filter fun s => s.1.1 = (k : Rat) + 1 / 2) = [s] ∧ upperEnd s = bar.row + 1 / 2
  columns : ∀ s ∈ d.verticals, ∃ k < d.width, s.1.1 = (k : Rat) + 1 / 2 ∧ s.2.1 = (k : Rat) + 1 / 2
  rightwards : ∀ s ∈ d.horizontals, s.1.1 < s.2.1
  /-- Of two horizontal steps in one row, one ends before the other starts. -/
  apart : d.horizontals.Pairwise fun s s' => s.1.2 = s'.1.2 → s.2.1 < s'.1.1 ∨ s'.2.1 < s.1.1
  /-- What stands between the two columns of an elbow ends above its run. -/
  clear : ∀ e ∈ d.strokes, e.course.isElbow = true → ∀ h ∈ e.horizontals, ∀ s ∈ d.verticals,
    h.1.1 < s.1.1 → s.1.1 < h.2.1 → lowerEnd s < h.1.2

theorem width_circuit (target : Option Nat) (t : Term) : (circuit target t).width = t.nameless.width := by
  have hright : (sketch target 0 .nothing 0 0 [] none none t).right = 0 + t.nameless.width := by
    rw [← Nameless.right_outline .nothing 0 0 []]
    exact congrArg Outline.right (outline_sketch target 0 .nothing 0 0 [] none none t)
  have hpos := t.nameless.width_pos
  show max 1 (sketch target 0 .nothing 0 0 [] none none t).right = _
  omega

theorem upperEnd_segment (l : Leg) : upperEnd l.segment = l.top + 1 / 2 := by
  simp only [upperEnd, Leg.segment, Leg.top, min_add_add_right, Int.cast_min]

theorem lowerEnd_segment (l : Leg) : lowerEnd l.segment = l.bottom + 1 / 2 := by
  simp only [lowerEnd, Leg.segment, Leg.bottom, max_add_add_right, Int.cast_max]

section Closed

variable {target : Option Nat} {t : Term} (ht : t.isClosed = true)
include ht

theorem tidy_nameless : (t.nameless.outline .nothing 0 0 []).Tidy 0 := by
  exact tidy_outline .nothing 0 (rows_lt_nil 0) (drawable_nameless ht)

theorem exists_leg {k : Nat} (hk : k < t.nameless.width) :
    ∃ bar l, (t.nameless.hangers 0 0 [])[k]? = some (some bar) ∧
      ((legsOf (t.nameless.outline .nothing 0 0 []).courses).filter fun l => l.column = (k : Int)) = [l] ∧
      l.top = bar.row := by
  have hdrawable := drawable_nameless ht
  have habove : ∀ top ∈ ([] : List Bar).map Bar.row, top < 0 := rows_lt_nil 0
  have hperm := perm_legs .nothing 0 habove hdrawable
  have hlt : k < (t.nameless.hangers 0 0 []).length := by
    rwa [Nameless.length_hangers]
  obtain ⟨bar, hbar⟩ := Option.isSome_iff_exists.mp
    (@isSome_of_mem_hangers 0 0 [] t.nameless hdrawable _ (List.getElem_mem hlt))
  have hget : (t.nameless.hangers 0 0 [])[k]? = some (some bar) := by
    rw [List.getElem?_eq_getElem hlt, hbar]
  have hstart := hperm.filter (fun e => e.1 = ((0 + k : Nat) : Int))
  rw [filter_wireStarts 0 hget, List.perm_singleton, owedStart, if_pos rfl, List.append_nil, legStarts,
    List.filter_map, List.map_eq_singleton_iff] at hstart
  obtain ⟨l, hl, hstarts⟩ := hstart
  rw [Nat.zero_add] at hl hstarts
  exact ⟨bar, l, hget, hl, congrArg Prod.snd hstarts⟩

theorem proper_circuit : ∀ s ∈ (circuit target t).strokes, s.course.Proper := by
  intro s hs
  have hmem : s.course ∈ (circuit target t).strokes.map Stroke.course := List.mem_map_of_mem hs
  rw [map_course_circuit] at hmem
  exact (tidy_nameless ht).proper _ hmem

theorem verticals_circuit : (circuit target t).verticals =
    (legsOf (t.nameless.outline .nothing 0 0 []).courses).map Leg.segment := by
  calc (circuit target t).verticals
      = (circuit target t).strokes.flatMap fun s => s.course.legs.map Leg.segment :=
        List.flatMap_congr fun s hs => verticals_eq (proper_circuit ht s hs)
    _ = (legsOf ((circuit target t).strokes.map Stroke.course)).map Leg.segment := by
        rw [legsOf, List.flatMap_map, List.map_flatMap]
    _ = _ := by rw [map_course_circuit]

theorem horizontals_circuit : (circuit target t).horizontals =
    (t.nameless.outline .nothing 0 0 []).courses.flatMap fun c => c.run?.toList.map c.runStep := by
  calc (circuit target t).horizontals
      = (circuit target t).strokes.flatMap fun s => s.course.run?.toList.map s.course.runStep :=
        List.flatMap_congr fun s hs => horizontals_eq (proper_circuit ht s hs)
    _ = ((circuit target t).strokes.map Stroke.course).flatMap fun c => c.run?.toList.map c.runStep := by
        rw [List.flatMap_map]
    _ = _ := by rw [map_course_circuit]

theorem exists_wire {k : Nat} (hk : k < (circuit target t).width) :
    ∃ bar s, (t.nameless.hangers 0 0 [])[k]? = some (some bar) ∧
      bar.course ∈ (circuit target t).strokes.map Stroke.course ∧ bar.first ≤ k ∧ k ≤ bar.last ∧
      ((circuit target t).verticals.filter fun s => s.1.1 = (k : Rat) + 1 / 2) = [s] ∧
      upperEnd s = bar.row + 1 / 2 := by
  rw [width_circuit] at hk
  obtain ⟨bar, l, hbar, hl, htop⟩ := exists_leg ht hk
  obtain hbars | ⟨hcourse, hfirst, hlast⟩ := bar_of_hangers .nothing 0 hbar
  · cases hbars
  rw [Nat.zero_add] at hfirst hlast
  refine ⟨bar, l.segment, hbar, ?_, hfirst, hlast, ?_, ?_⟩
  · rw [map_course_circuit]
    exact hcourse
  · have hcolumn : ((fun s : Point × Point => decide (s.1.1 = (k : Rat) + 1 / 2)) ∘ Leg.segment)
        = fun l => decide (l.column = (k : Int)) := by
      funext l
      simp only [Function.comp_apply, Leg.segment, add_left_inj, decide_eq_decide]
      exact_mod_cast Iff.rfl
    rw [verticals_circuit ht, List.filter_map, hcolumn, hl]
    rfl
  · rw [upperEnd_segment, htop]
    norm_cast

theorem exists_column {s : Point × Point} (hs : s ∈ (circuit target t).verticals) :
    ∃ k < (circuit target t).width, s.1.1 = (k : Rat) + 1 / 2 ∧ s.2.1 = (k : Rat) + 1 / 2 := by
  rw [verticals_circuit ht] at hs
  obtain ⟨l, hl, rfl⟩ := List.mem_map.mp hs
  have hcolumns := (within_columns .nothing 0 0 [] t.nameless).leg hl
  rw [Nameless.right_outline] at hcolumns
  obtain ⟨k, hk⟩ := Int.eq_ofNat_of_zero_le hcolumns.1
  refine ⟨k, ?_, ?_, ?_⟩
  · rw [width_circuit]
    omega
  · simp only [Leg.segment, hk, Int.cast_natCast]
  · simp only [Leg.segment, hk, Int.cast_natCast]

theorem pairwise_horizontals : (circuit target t).horizontals.Pairwise fun s s' =>
    s.1.2 = s'.1.2 → s.2.1 < s'.1.1 ∨ s'.2.1 < s.1.1 := by
  rw [horizontals_circuit ht, List.pairwise_flatMap]
  refine ⟨?_, ?_⟩
  · -- a course has one run at most
    intro c _
    cases c.run? with
    | none => exact List.Pairwise.nil
    | some i => exact List.pairwise_singleton _ _
  · refine (pairwise_apart_outline .nothing 0 (rows_lt_nil 0) (drawable_nameless ht)).imp ?_
    intro c d hcd s hs s' hs' hrow
    obtain ⟨i, hi, rfl⟩ := List.mem_map.mp hs
    obtain ⟨j, hj, rfl⟩ := List.mem_map.mp hs'
    obtain rfl : i = j := by
      simp only [Course.runStep, add_left_inj] at hrow
      exact_mod_cast hrow
    rcases hcd i (Option.mem_toList.mp hi) (Option.mem_toList.mp hj) with h | h
    · exact .inl (runStep_lt h i i)
    · exact .inr (runStep_lt h i i)

theorem lowerEnd_lt_of_elbow {e : Stroke} (he : e ∈ (circuit target t).strokes)
    (helbow : e.course.isElbow = true) {h : Point × Point} (hh : h ∈ e.horizontals)
    {s : Point × Point} (hs : s ∈ (circuit target t).verticals)
    (hafter : h.1.1 < s.1.1) (hbefore : s.1.1 < h.2.1) : lowerEnd s < h.1.2 := by
  have hmem : e.course ∈ (circuit target t).strokes.map Stroke.course := List.mem_map_of_mem he
  rw [map_course_circuit] at hmem
  rw [Stroke.horizontals, horizontals_eq (proper_circuit ht e he)] at hh
  obtain ⟨i, hi, rfl⟩ := List.mem_map.mp hh
  rw [verticals_circuit ht] at hs
  obtain ⟨l, hl, rfl⟩ := List.mem_map.mp hs
  have hbridges : e.course.Bridges l.column := by
    have hoverhang : e.course.overhang = 0 := by
      cases hc : e.course <;> simp_all [Course.isElbow, Course.overhang, Course.isBar]
    simp only [Course.runStep, Leg.segment, hoverhang, sub_zero, add_zero, add_lt_add_iff_right]
      at hafter hbefore
    exact ⟨helbow, by exact_mod_cast hafter, by exact_mod_cast hbefore⟩
  have hclear := clear_outline .nothing 0 (rows_lt_nil 0) (drawable_nameless ht)
  have hlt := hclear e.course hmem l hl hbridges i (Option.mem_toList.mp hi)
  rw [lowerEnd_segment]
  simp only [Course.runStep, add_lt_add_iff_right]
  exact_mod_cast hlt

theorem untangled_circuit : (circuit target t).Untangled t.nameless where
  wires _ hk := exists_wire ht hk
  columns _ hs := exists_column ht hs
  rightwards s hs := by
    rw [horizontals_circuit ht] at hs
    obtain ⟨c, hc, hs⟩ := List.mem_flatMap.mp hs
    obtain ⟨i, hi, rfl⟩ := List.mem_map.mp hs
    exact runStep_rightwards ((tidy_nameless ht).proper c hc) (Option.mem_toList.mp hi)
  apart := pairwise_horizontals ht
  clear _ he helbow _ hh _ hs := lowerEnd_lt_of_elbow ht he helbow hh hs

end Closed

/-- **Diagrams do not tangle**: in the diagram of a closed term every column has the wire of its variable and
no other, which hangs on the bar of the binder, bars and elbows in one row keep apart, and a wire between the
columns of an elbow ends above its run. -/
theorem circuitDrawing_untangled (target : Option Nat) (t : Term) (ht : t.isClosed = true) :
    ∃ d : Circuit, circuitDrawing .unlimited target (.ofTerm t) = .drawn d ∧ d.Untangled t.nameless :=
  ⟨_, circuitDrawing_of_closed target ht, untangled_circuit ht⟩

/-- An argument that is higher than its function, a variable that is bound far outside, and one binder that
binds no variable. -/
theorem circuitDrawing_untangled_nested :
    let t : Term := .lam {} "f" (.app ⟨some "_T", true⟩ (.var {} "f")
      (.app {} (.lam {} "x" (.lam {} "y" (.app {} (.var {} "x") (.var {} "f")))) (.var {} "f")))
    t.isClosed = true ∧
      ∃ d : Circuit, circuitDrawing .unlimited (some 3) (.ofTerm t) = .drawn d ∧
        d.Untangled t.nameless := by
  intro t
  have ht : t.isClosed = true := by decide
  exact ⟨ht, circuitDrawing_untangled (some 3) t ht⟩

end LambdaStepper.Layout
