import LambdaStepper.Proofs.Reduction.Tags
import Mathlib.Algebra.Order.BigOperators.Group.Finset

/-! # Free names grow

A node that keeps its tag in a step keeps its structure.  All that may happen to it is that a free name is
renamed to a fresh one, in order that a binder around it captures nothing.  A fresh name is the old one with a
count behind it, so it is longer, and so is the total length of the free names (`freeWeight_rename`).

It follows that renamings never lead back.  What came from a term by renamings has other free names than the
term, or it is the term still (`FreshlyRenamed.eq`). -/

namespace LambdaStepper

theorem Freshener.length_lt_candidate (base : String) (count : Nat) :
    base.length < (candidate base count).length := by
  have hcount : 0 < (toString count).length := Nat.length_repr_pos
  rw [candidate, String.length_append]
  omega

namespace Term

variable {s t u : Term} {x : String}

theorem freeNames_rename {old new : String} {bound : List String} (hnew : new ∉ t.allNames)
    (hold : old ∉ bound) (hbound : new ∉ bound) :
    (t.rename old new).freeNames bound = (t.freeNames bound).map fun y => if y = old then new else y := by
  induction t generalizing bound with
  | var m y =>
      by_cases hy : y = old
      · simp [rename, freeNames, hy, hold, hbound]
      · by_cases hmem : y ∈ bound <;> simp [rename, freeNames, hy, hmem]
  | lam m y body ih =>
      obtain ⟨hy, hbody⟩ := not_or.mp (mt List.mem_cons.mpr hnew)
      by_cases hyold : y = old
      · -- the old name is bound here
        have hkept : ∀ z ∈ body.freeNames (y :: bound), (if z = old then new else z) = z := by
          intro z hz
          have hne : z ≠ old := by
            rintro rfl
            exact ((mem_freeNames_iff body z (y :: bound)).mp hz).2 (by simp [hyold])
          rw [if_neg hne]
        rw [rename, if_pos hyold, freeNames, List.map_congr_left hkept, List.map_id']
      · rw [rename, if_neg hyold, freeNames, freeNames]
        exact ih hbody (by simp [Ne.symm hyold, hold]) (by simp [hy, hbound])
  | app m func arg ihf iha =>
      obtain ⟨hfunc, harg⟩ := not_or.mp (mt List.mem_append.mpr hnew)
      rw [rename, freeNames, freeNames, List.map_append, ihf hfunc hold hbound, iha harg hold hbound]

/-- The total length of the free names of a term, each of them counted once. -/
def freeWeight (t : Term) : Nat :=
  ∑ y ∈ (t.freeNames []).toFinset, y.length

theorem freeWeight_congr (h : ∀ y, y ∈ s.freeNames [] ↔ y ∈ u.freeNames []) : s.freeWeight = u.freeWeight := by
  have heq : (s.freeNames []).toFinset = (u.freeNames []).toFinset := by
    ext y
    rw [List.mem_toFinset, List.mem_toFinset, h]
  rw [freeWeight, freeWeight, heq]

/-- A free name that is renamed to a fresh one gets longer. -/
theorem freeWeight_rename {n : Nat} (hfree : x ∈ t.freeNames [])
    (hfresh : Freshener.candidate x n ∉ t.allNames) :
    t.freeWeight < (t.rename x (Freshener.candidate x n)).freeWeight := by
  let f : String → String := fun y => if y = x then Freshener.candidate x n else y
  have hlt : x.length < (f x).length := by
    simpa [f] using Freshener.length_lt_candidate x n
  have hle : ∀ y, y.length ≤ (f y).length := by
    intro y
    by_cases hy : y = x
    · rw [hy]
      exact hlt.le
    · simp [f, hy]
  have hinjective : Set.InjOn f (t.freeNames []).toFinset := by
    intro y hy z hz heq
    rw [Finset.mem_coe, List.mem_toFinset] at hy hz
    have hne : ∀ {y}, y ∈ t.freeNames [] → y ≠ Freshener.candidate x n := by
      rintro y hy rfl
      exact hfresh (allNames_of_mem_freeNames hy)
    grind
  have himage : ((t.rename x (Freshener.candidate x n)).freeNames []).toFinset
      = (t.freeNames []).toFinset.image f := by
    ext y
    simp [freeNames_rename hfresh List.not_mem_nil List.not_mem_nil, f]
  calc t.freeWeight
      < ∑ y ∈ (t.freeNames []).toFinset, (f y).length :=
        Finset.sum_lt_sum (fun y _ => hle y) ⟨x, List.mem_toFinset.mpr hfree, hlt⟩
    _ = (t.rename x (Freshener.candidate x n)).freeWeight := by
        rw [freeWeight, himage, Finset.sum_image hinjective]

/-- The terms that a term becomes when free names of it are renamed to fresh ones, one after the other, and nothing
else is done to it. -/
inductive FreshlyRenamed (u : Term) : Term → Prop
  | refl : FreshlyRenamed u u
  | rename {s : Term} {x : String} {n : Nat} (h : FreshlyRenamed u s) (hfree : x ∈ s.freeNames [])
      (hfresh : Freshener.candidate x n ∉ s.allNames) : FreshlyRenamed u (s.rename x (Freshener.candidate x n))

theorem FreshlyRenamed.eq_or_freeWeight_lt (h : u.FreshlyRenamed s) :
    s = u ∨ u.isClosed = false ∧ u.freeWeight < s.freeWeight := by
  induction h with
  | refl => exact .inl rfl
  | rename _ hfree hfresh ih =>
      have hlt := freeWeight_rename hfree hfresh
      rcases ih with rfl | ⟨hopen, hle⟩
      · refine .inr ⟨?_, hlt⟩
        rw [isClosed, List.isEmpty_eq_false_iff]
        exact List.ne_nil_of_mem hfree
      · exact .inr ⟨hopen, hle.trans hlt⟩

/-- Where the free names are those of the term, it is the term. -/
theorem FreshlyRenamed.eq (h : u.FreshlyRenamed s)
    (hfree : u.isClosed = true ∨ ∀ y, y ∈ s.freeNames [] ↔ y ∈ u.freeNames []) : s = u := by
  rcases h.eq_or_freeWeight_lt with heq | ⟨hopen, hlt⟩
  · exact heq
  · rcases hfree with hclosed | hfree
    · rw [hclosed] at hopen
      cases hopen
    · rw [freeWeight_congr hfree] at hlt
      exact absurd hlt (lt_irrefl _)

end Term
end LambdaStepper
