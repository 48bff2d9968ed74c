import LambdaStepper.Proofs.Reduction.Freshness
import Mathlib.Data.Finset.Card

/-! # Rounds of the search for a fresh name

A freshener tries one candidate after the other, and every candidate that is taken costs a round.  `freshWithin`
is this search, cut off after a number of rounds.  Candidates with one base are different names, so each lost
round uses up a taken name of its own (`exists_first_free`), whichever bases the taken names were made of.  The
search therefore ends within one more round than there are taken names, with the name that `fresh` gives out
(`freshWithin_eq_fresh`).

Of a row of calls on one freshener (`freshAll`) every one ends in time, with a name that is not to be avoided,
and no name is given out twice (`fresh_names_found`). -/

namespace LambdaStepper.Freshener

/-! ### One call -/

/-- The search for a fresh name, cut off after the given number of rounds. -/
def freshWithin (base : String) (avoid : List String) : (rounds : Nat) → Freshener →
    Option (String × Freshener)
  | 0, _ => none
  | rounds + 1, f =>
    let name := candidate base f.counter
    if name ∉ avoid ∧ name ∉ f.given then some (name, ⟨f.counter + 1, name :: f.given⟩)
    else freshWithin base avoid rounds ⟨f.counter + 1, f.given⟩

theorem le_card_of_taken {base : String} {taken : List String} {start lost : Nat}
    (h : ∀ j < lost, candidate base (start + j) ∈ taken) : lost ≤ taken.toFinset.card := by
  have hinj : Function.Injective fun j => candidate base (start + j) := by
    intro i j hij
    have := candidate_injective hij
    omega
  have hsub : (Finset.range lost).image (fun j => candidate base (start + j)) ⊆ taken.toFinset := by
    intro name hname
    obtain ⟨j, hj, rfl⟩ := Finset.mem_image.mp hname
    rw [List.mem_toFinset]
    exact h j (Finset.mem_range.mp hj)
  have hcard := Finset.card_le_card hsub
  rwa [Finset.card_image_of_injective _ hinj, Finset.card_range] at hcard

/-- The search stops at the first candidate that is not taken. -/
theorem exists_first_free (base : String) (taken : List String) (start : Nat) :
    ∃ lost ≤ taken.toFinset.card, search base taken start = start + lost ∧
      candidate base (start + lost) ∉ taken ∧ ∀ j < lost, candidate base (start + j) ∈ taken := by
  obtain ⟨k, hk, hfree⟩ := exists_candidate_notMem base taken start
  obtain ⟨lost, hfind⟩ : ∃ lost, (List.range (taken.length + 1)).find?
      (fun k => decide (candidate base (start + k) ∉ taken)) = some lost := by
    rw [← Option.isSome_iff_exists, List.find?_isSome]
    exact ⟨k, hk, decide_eq_true hfree⟩
  obtain ⟨hlost, -, hbefore⟩ := List.find?_range_eq_some.mp hfind
  have htaken : ∀ j < lost, candidate base (start + j) ∈ taken := by
    intro j hj
    simpa using hbefore j hj
  refine ⟨lost, le_card_of_taken htaken, ?_, by simpa using hlost, htaken⟩
  rw [search, hfind]
  rfl

theorem freshWithin_of_first_free {base : String} {avoid : List String} {lost rounds : Nat} {f : Freshener}
    (hrounds : lost < rounds) (hfree : candidate base (f.counter + lost) ∉ avoid ++ f.given)
    (htaken : ∀ j < lost, candidate base (f.counter + j) ∈ avoid ++ f.given) :
    freshWithin base avoid rounds f = some (candidate base (f.counter + lost),
      ⟨f.counter + lost + 1, candidate base (f.counter + lost) :: f.given⟩) := by
  induction lost generalizing rounds f with
  | zero =>
      obtain ⟨rounds, rfl⟩ : ∃ k, rounds = k + 1 := ⟨rounds - 1, by omega⟩
      rw [Nat.add_zero f.counter] at hfree ⊢
      rw [List.mem_append, not_or] at hfree
      rw [freshWithin, if_pos hfree]
  | succ lost ih =>
      -- the first round is lost, and the counter moves on
      obtain ⟨rounds, rfl⟩ : ∃ k, rounds = k + 1 := ⟨rounds - 1, by omega⟩
      have hfirst : ¬ (candidate base f.counter ∉ avoid ∧ candidate base f.counter ∉ f.given) := by
        rw [← not_or, ← List.mem_append, not_not]
        exact htaken 0 (Nat.succ_pos lost)
      have hshift : ∀ j, f.counter + (j + 1) = f.counter + 1 + j := by
        intro j
        omega
      rw [hshift lost] at hfree ⊢
      rw [freshWithin, if_neg hfirst]
      apply ih
      · omega
      · exact hfree
      · intro j hj
        have := htaken (j + 1) (Nat.succ_lt_succ hj)
        rwa [hshift] at this

/-- Within one more round than there are taken names, the search ends with the name that is given out. -/
theorem freshWithin_eq_fresh {base : String} {avoid : List String} {rounds : Nat} {f : Freshener}
    (h : (avoid ++ f.given).toFinset.card < rounds) :
    freshWithin base avoid rounds f = some (f.fresh base avoid) := by
  obtain ⟨lost, hlost, hsearch, hfree, htaken⟩ := exists_first_free base (avoid ++ f.given) f.counter
  rw [freshWithin_of_first_free (by omega) hfree htaken, fresh, hsearch]

theorem card_taken_le (f : Freshener) (avoid : List String) :
    (avoid ++ f.given).toFinset.card ≤ avoid.toFinset.card + f.given.length := by
  rw [List.toFinset_append]
  have hunion := Finset.card_union_le avoid.toFinset f.given.toFinset
  have hgiven := List.toFinset_card_le f.given
  omega

/-! ### Rows of calls -/

/-- The names that a row of calls gives out, each with its base and the names it has to avoid, and the freshener
behind them. -/
def freshAll : (calls : List (String × List String)) → Freshener → List String × Freshener
  | [], f => ([], f)
  | (base, avoid) :: calls, f =>
    let (name, f) := f.fresh base avoid
    let (names, f) := freshAll calls f
    (name :: names, f)

theorem freshAll_append (calls calls' : List (String × List String)) (f : Freshener) :
    freshAll (calls ++ calls') f = ((freshAll calls f).1 ++ (freshAll calls' (freshAll calls f).2).1,
      (freshAll calls' (freshAll calls f).2).2) := by
  induction calls generalizing f with
  | nil => rfl
  | cons call calls ih =>
      simp only [List.cons_append, freshAll, ih]

theorem given_freshAll (calls : List (String × List String)) (f : Freshener) :
    (freshAll calls f).2.given = (freshAll calls f).1.reverse ++ f.given := by
  induction calls generalizing f with
  | nil => rfl
  | cons call calls ih =>
      simp only [freshAll, ih, List.reverse_cons, List.append_assoc]
      rfl

@[simp] theorem length_freshAll (calls : List (String × List String)) (f : Freshener) :
    (freshAll calls f).1.length = calls.length := by
  induction calls generalizing f with
  | nil => rfl
  | cons call calls ih => simp only [freshAll, List.length_cons, ih]

theorem nodup_given_freshAll (calls : List (String × List String)) {f : Freshener} (h : f.given.Nodup) :
    (freshAll calls f).2.given.Nodup := by
  induction calls generalizing f with
  | nil => exact h
  | cons call calls ih =>
      obtain ⟨base, avoid⟩ := call
      apply ih
      exact List.nodup_cons.mpr ⟨(f.fresh_notMem base avoid).2, h⟩

/-- **Fresh names are fresh and always found.**  However many calls a new freshener answers, whatever their bases,
no two of the names it gives out are the same.  Each call ends within as many rounds as there are names to be
avoided and names given out before, and one more, with a name that is not to be avoided. -/
theorem fresh_names_found (calls : List (String × List String)) :
    (freshAll calls {}).1.length = calls.length ∧ (freshAll calls {}).1.Nodup ∧
      ∀ before base avoid after, calls = before ++ (base, avoid) :: after →
        ∃ name f, (freshAll calls {}).1[before.length]? = some name ∧ name ∉ avoid ∧
          freshAll (before ++ [(base, avoid)]) {} = ((freshAll before {}).1 ++ [name], f) ∧
          freshWithin base avoid (avoid.toFinset.card + before.length + 1) (freshAll before {}).2
            = some (name, f) := by
  have hnodup := nodup_given_freshAll calls (f := {}) List.nodup_nil
  rw [given_freshAll, List.append_nil, List.nodup_reverse] at hnodup
  refine ⟨length_freshAll calls {}, hnodup, ?_⟩
  rintro before base avoid after rfl
  have hgiven : (freshAll before {}).2.given.length = before.length := by
    rw [given_freshAll, List.append_nil, List.length_reverse, length_freshAll]
  have htaken := card_taken_le (freshAll before {}).2 avoid
  refine ⟨_, _, ?_, ((freshAll before {}).2.fresh_notMem base avoid).1, ?_,
    freshWithin_eq_fresh (by omega)⟩
  · rw [freshAll_append, List.getElem?_append_right (by rw [length_freshAll]), length_freshAll, Nat.sub_self]
    rfl
  · rw [freshAll_append]
    rfl

/-- A name with the base `x1` is in the way of one with the base `x`.  The ten names that are taken cost a round each,
so the eleventh and last round is needed. -/
theorem fresh_names_found_colliding :
    let avoid := ["x1", "x2", "x3", "x4", "x5", "x6", "x7", "x8", "x9"]
    let calls := [("x1", []), ("x", avoid)]
    (freshAll calls {}).1 = ["x10", "x11"] ∧ avoid.toFinset.card + 1 + 1 = 11 ∧
      freshWithin "x" avoid 10 (freshAll [("x1", [])] {}).2 = none ∧
      ∃ f, freshWithin "x" avoid 11 (freshAll [("x1", [])] {}).2 = some ("x11", f) := by
  intro avoid calls
  have hnames : (freshAll calls {}).1 = ["x10", "x11"] := by decide
  have hcard : avoid.toFinset.card + 1 + 1 = 11 := by decide
  obtain ⟨name, f, hname, -, -, hfound⟩ :=
    (fresh_names_found calls).2.2 [("x1", [])] "x" avoid [] rfl
  rw [hnames] at hname
  obtain rfl := Option.some.inj hname
  refine ⟨hnames, hcard, by decide, f, ?_⟩
  rw [← hcard]
  exact hfound

end LambdaStepper.Freshener
