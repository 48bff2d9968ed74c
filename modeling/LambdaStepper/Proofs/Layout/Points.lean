import LambdaStepper.Proofs.Decimal.Rounding
import LambdaStepper.Proofs.Layout.Outline
import Mathlib.Tactic.NormNum

/-! # Points and courses

A course of known kind can be read from the points it goes through (`eq_of_points_eq`) as long as no two
columns or rows of the grid have the same coordinates (`Metric.Separates`).  Exact coordinates are always
different (`separates_exact`).  The ones that are written are off by less than half a cell, rounding
included, up to the column and row 2 ^ 50 (`separates_binary64`). -/

namespace LambdaStepper.Layout

open Decimal

/-- The columns and rows from 0 to `bound`. -/
def gridSpan (bound : Nat) : Set Int :=
  { i | 0 ≤ i ∧ i ≤ bound }

/-- A course from left to right, inside the columns and rows from 0 to `bound`. -/
structure Course.Fits (bound : Nat) (c : Course) : Prop where
  rows : ∀ i ∈ c.rows, i ∈ gridSpan bound
  left : c.leftmost ∈ gridSpan bound
  right : c.rightmost ∈ gridSpan bound
  ordered : c.leftmost ≤ c.rightmost

/-- Where a bar starts. -/
def Metric.start (m : Metric) (i : Int) : Rat :=
  m.rounded (m.middle i - m.overhang)

/-- Where a bar stops. -/
def Metric.stop (m : Metric) (i : Int) : Rat :=
  m.rounded (m.middle i + m.overhang)

/-- On the columns and rows from 0 to `bound`, neither the middles of two cells nor the ends of two bars
fall together. -/
structure Metric.Separates (m : Metric) (bound : Nat) : Prop where
  middle : Set.InjOn m.middle (gridSpan bound)
  start : Set.InjOn m.start (gridSpan bound)
  stop : Set.InjOn m.stop (gridSpan bound)

theorem Course.points_bar (m : Metric) {row first last : Int} (h : first ≤ last) :
    (Course.bar row first last).points m = [(m.start first, m.middle row), (m.stop last, m.middle row)] :=
  if_neg (not_lt.mpr h)

/-- A course is told by its kind and its points. -/
theorem eq_of_points_eq {m : Metric} {bound : Nat} (hm : m.Separates bound) {c d : Course}
    (hc : c.Fits bound) (hd : d.Fits bound) (hword : c.word = d.word)
    (hpoints : c.points m = d.points m) : c = d := by
  obtain ⟨hrows, hleft, hright, hordered⟩ := hc
  obtain ⟨hrows', hleft', hright', hordered'⟩ := hd
  cases c with
  | bar row first last =>
      cases d with
      | bar row' first' last' =>
          simp only [Course.leftmost, Course.rightmost] at hleft hleft' hright hright' hordered hordered'
          rw [Course.points_bar m hordered, Course.points_bar m hordered'] at hpoints
          simp only [List.cons.injEq, Prod.mk.injEq] at hpoints
          simp only [Course.rows, List.forall_mem_singleton] at hrows hrows'
          obtain ⟨⟨hstart, hrow⟩, ⟨hstop, -⟩, -⟩ := hpoints
          rw [hm.start hleft hleft' hstart, hm.stop hright hright' hstop, hm.middle hrows hrows' hrow]
      | _ => simp [Course.word] at hword
  | wire top bottom column =>
      cases d with
      | wire top' bottom' column' =>
          simp only [Course.leftmost] at hleft hleft'
          simp only [Course.points, List.cons.injEq, Prod.mk.injEq] at hpoints
          simp only [Course.rows, List.forall_mem_cons] at hrows hrows'
          obtain ⟨⟨hcolumn, htop⟩, ⟨-, hbottom⟩, -⟩ := hpoints
          rw [hm.middle hleft hleft' hcolumn, hm.middle hrows.1 hrows'.1 htop,
            hm.middle hrows.2.1 hrows'.2.1 hbottom]
      | _ => simp [Course.word] at hword
  | forward top bottom left right =>
      cases d with
      | forward top' bottom' left' right' =>
          simp only [Course.leftmost, Course.rightmost] at hleft hleft' hright hright'
          simp only [Course.points, List.cons.injEq, Prod.mk.injEq] at hpoints
          simp only [Course.rows, List.forall_mem_cons] at hrows hrows'
          obtain ⟨⟨hl, htop⟩, -, ⟨hr, hbottom⟩, -⟩ := hpoints
          rw [hm.middle hleft hleft' hl, hm.middle hright hright' hr, hm.middle hrows.1 hrows'.1 htop,
            hm.middle hrows.2.1 hrows'.2.1 hbottom]
      | _ => simp [Course.word] at hword
  | backward top bottom left right =>
      cases d with
      | backward top' bottom' left' right' =>
          simp only [Course.leftmost, Course.rightmost] at hleft hleft' hright hright'
          simp only [Course.points, List.cons.injEq, Prod.mk.injEq] at hpoints
          simp only [Course.rows, List.forall_mem_cons] at hrows hrows'
          obtain ⟨⟨hl, hbottom⟩, -, ⟨hr, htop⟩, -⟩ := hpoints
          rw [hm.middle hleft hleft' hl, hm.middle hright hright' hr, hm.middle hrows.1 hrows'.1 htop,
            hm.middle hrows.2.1 hrows'.2.1 hbottom]
      | _ => simp [Course.word] at hword
  | joint top bottom back left right =>
      cases d with
      | joint top' bottom' back' left' right' =>
          simp only [Course.leftmost, Course.rightmost] at hleft hleft' hright hright'
          simp only [Course.points, List.cons.injEq, Prod.mk.injEq] at hpoints
          simp only [Course.rows, List.forall_mem_cons] at hrows hrows'
          obtain ⟨⟨hl, htop⟩, ⟨-, hbottom⟩, -, ⟨hr, hback⟩, -⟩ := hpoints
          rw [hm.middle hleft hleft' hl, hm.middle hright hright' hr, hm.middle hrows.1 hrows'.1 htop,
            hm.middle hrows.2.1 hrows'.2.1 hbottom, hm.middle hrows.2.2.1 hrows'.2.2.1 hback]
      | _ => simp [Course.word] at hword

theorem courses_eq_of_points_eq {m : Metric} {bound : Nat} (hm : m.Separates bound)
    {cs ds : List Course} (hcs : ∀ c ∈ cs, c.Fits bound) (hds : ∀ d ∈ ds, d.Fits bound)
    (h : cs.map (fun c => (c.word, c.points m)) = ds.map fun d => (d.word, d.points m)) : cs = ds := by
  induction cs generalizing ds with
  | nil => exact (List.map_eq_nil_iff.mp h.symm).symm
  | cons c cs ih =>
      cases ds with
      | nil => cases h
      | cons d ds =>
          obtain ⟨hhead, htail⟩ := List.cons.inj h
          obtain ⟨hword, hpoints⟩ := Prod.mk.inj hhead
          obtain ⟨hc, hcs⟩ := List.forall_mem_cons.mp hcs
          obtain ⟨hd, hds⟩ := List.forall_mem_cons.mp hds
          rw [eq_of_points_eq hm hc hd hword hpoints, ih hcs hds htail]

theorem eq_of_abs_sub_lt_one {i j : Int} (h : |(i : Rat) - j| < 1) : i = j := by
  have h' : |i - j| < 1 := by exact_mod_cast h
  exact sub_eq_zero.mp (Int.abs_lt_one_iff.mp h')

theorem injOn_of_abs_sub_lt {f : Int → Rat} (offset : Rat) {s : Set Int}
    (h : ∀ i ∈ s, |f i - (i + offset)| < 1 / 2) : Set.InjOn f s := by
  intro i hi j hj heq
  have h₁ := abs_lt.mp (h i hi)
  have h₂ := abs_lt.mp (h j hj)
  apply eq_of_abs_sub_lt_one
  rw [abs_lt]
  constructor <;> linarith

theorem start_exact (i : Int) : Metric.exact.start i = i + 1 / 6 := by
  show (i : Rat) + 1 / 2 - 1 / 3 = i + 1 / 6
  ring

theorem stop_exact (i : Int) : Metric.exact.stop i = i + 5 / 6 := by
  show (i : Rat) + 1 / 2 + 1 / 3 = i + 5 / 6
  ring

/-- In exact arithmetic no two columns or rows have the same coordinates. -/
theorem separates_exact (bound : Nat) : Metric.exact.Separates bound where
  middle := injOn_of_abs_sub_lt (1 / 2) fun i _ => by
    rw [Metric.middle_exact, sub_self, abs_zero]
    norm_num
  start := injOn_of_abs_sub_lt (1 / 6) fun i _ => by
    rw [start_exact, sub_self, abs_zero]
    norm_num
  stop := injOn_of_abs_sub_lt (5 / 6) fun i _ => by
    rw [stop_exact, sub_self, abs_zero]
    norm_num

theorem abs_middle_binary64_sub_le {i : Int} (hi : i ∈ gridSpan (2 ^ 50)) :
    |Metric.binary64.middle i - (i + 1 / 2)| ≤ 1 / 4 := by
  obtain ⟨h0, hbound⟩ := hi
  have h0' : (0 : Rat) ≤ i := by exact_mod_cast h0
  have hbound' : (i : Rat) ≤ 2 ^ 50 := by exact_mod_cast hbound
  have hi : |roundBinary64 i - i| ≤ 1 / 8 := by
    apply abs_roundBinary64_sub_le
    rw [abs_of_nonneg h0']
    linarith
  have hi' := abs_le.mp hi
  have hmiddle : |roundBinary64 (roundBinary64 i + 1 / 2) - (roundBinary64 i + 1 / 2)| ≤ 1 / 8 := by
    apply abs_roundBinary64_sub_le
    rw [abs_lt]
    constructor <;> linarith
  have hmiddle' := abs_le.mp hmiddle
  show |roundBinary64 (roundBinary64 i + 1 / 2) - (i + 1 / 2)| ≤ 1 / 4
  rw [abs_le]
  constructor <;> linarith

/-- Adding a part of a cell to its middle goes wrong by three eighths of the cell at most. -/
theorem abs_rounded_middle_add_sub_le {i : Int} (hi : i ∈ gridSpan (2 ^ 50)) {x : Rat}
    (hx : |x| ≤ 1) : |roundBinary64 (Metric.binary64.middle i + x) - (i + (1 / 2 + x))| ≤ 3 / 8 := by
  have hmiddle := abs_le.mp (abs_middle_binary64_sub_le hi)
  obtain ⟨h0, hbound⟩ := hi
  have h0' : (0 : Rat) ≤ i := by exact_mod_cast h0
  have hbound' : (i : Rat) ≤ 2 ^ 50 := by exact_mod_cast hbound
  have hx' := abs_le.mp hx
  have hsum : |roundBinary64 (Metric.binary64.middle i + x) - (Metric.binary64.middle i + x)| ≤ 1 / 8 := by
    apply abs_roundBinary64_sub_le
    rw [abs_lt]
    constructor <;> linarith
  have hsum' := abs_le.mp hsum
  rw [abs_le]
  constructor <;> linarith

theorem abs_overhang_binary64_le : |Metric.binary64.overhang| ≤ 1 := by
  have h := abs_le.mp (abs_roundBinary64_sub_le (x := 1 / 3) (by norm_num [abs_of_pos]))
  show |roundBinary64 (1 / 3)| ≤ 1
  rw [abs_le]
  constructor <;> linarith

/-- In binary64 no two of the first 2 ^ 50 columns or rows have the same coordinates. -/
theorem separates_binary64 : Metric.binary64.Separates (2 ^ 50) where
  middle := injOn_of_abs_sub_lt (1 / 2) fun i hi =>
    (abs_middle_binary64_sub_le hi).trans_lt (by norm_num)
  start := injOn_of_abs_sub_lt (1 / 2 + -Metric.binary64.overhang) fun i hi => by
    have h := abs_rounded_middle_add_sub_le hi ((abs_neg _).trans_le abs_overhang_binary64_le)
    rw [← sub_eq_add_neg] at h
    exact h.trans_lt (by norm_num)
  stop := injOn_of_abs_sub_lt (1 / 2 + Metric.binary64.overhang) fun i hi =>
    (abs_rounded_middle_add_sub_le hi abs_overhang_binary64_le).trans_lt (by norm_num)

end LambdaStepper.Layout
