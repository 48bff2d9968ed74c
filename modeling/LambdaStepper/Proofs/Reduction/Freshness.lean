import LambdaStepper.Reduction.Freshener
import Mathlib.Data.List.Nodup
import Mathlib.Data.List.Perm.Subperm

/-! # Freshness

Candidates with different counts are different names, so among one more candidate than there are taken
names one is not taken (`exists_candidate_notMem`).  The search finds it, which is why a name that was
handed out is always fresh (`fresh_notMem`). -/

namespace LambdaStepper.Freshener

theorem exists_candidate_notMem (base : String) (taken : List String) (start : Nat) :
    ∃ k ∈ List.range (taken.length + 1), candidate base (start + k) ∉ taken := by
  by_contra hno
  let names := (List.range (taken.length + 1)).map fun k => candidate base (start + k)
  have hsub : names ⊆ taken := by
    intro name hname
    obtain ⟨k, hk, rfl⟩ := List.mem_map.mp hname
    by_contra hnot
    exact hno ⟨k, hk, hnot⟩
  have hnodup : names.Nodup := by
    refine List.Nodup.map ?_ List.nodup_range
    intro i j hij
    have := candidate_injective hij
    omega
  have hle := (List.subperm_of_subset hnodup hsub).length_le
  simp only [names, List.length_map, List.length_range] at hle
  omega

theorem candidate_search_notMem (base : String) (taken : List String) (start : Nat) :
    candidate base (search base taken start) ∉ taken := by
  obtain ⟨k, hk, hfree⟩ := exists_candidate_notMem base taken start
  unfold search
  cases hfind : (List.range (taken.length + 1)).find?
      fun k => decide (candidate base (start + k) ∉ taken) with
  | none =>
      have := List.find?_eq_none.mp hfind k hk
      simp [hfree] at this
  | some j =>
      have := List.find?_some hfind
      simpa using this

/-- A name that is handed out is neither to be avoided nor was it handed out before. -/
theorem fresh_notMem (f : Freshener) (base : String) (avoid : List String) :
    (f.fresh base avoid).1 ∉ avoid ∧ (f.fresh base avoid).1 ∉ f.given := by
  have h := candidate_search_notMem base (avoid ++ f.given) f.counter
  rw [List.mem_append, not_or] at h
  exact h

end LambdaStepper.Freshener
