import LambdaStepper.Term.Nameless

/-! # Indices

How shifts and instantiations of nameless terms pass each other.  `instantiate_instantiate` is the
substitution lemma; the three before it say that shifts commute with shifts and, above and below the
place that is filled, with instantiation. -/

namespace LambdaStepper.Nameless

variable {i depth : Nat}

theorem shift_bound_of_lt (h : i < depth) : (bound i).shift depth = .bound i := by
  simp [shift, h]

theorem shift_bound_of_le (h : depth ≤ i) : (bound i).shift depth = .bound (i + 1) := by
  have hi : ¬ i < depth := by omega
  simp [shift, hi]

theorem instantiate_bound_of_lt (new : Nameless) (h : i < depth) :
    instantiate depth new (.bound i) = .bound i := by
  simp [instantiate, h]

theorem instantiate_bound_self (depth : Nat) (new : Nameless) :
    instantiate depth new (.bound depth) = new := by
  simp [instantiate]

theorem instantiate_bound_of_gt (new : Nameless) (h : depth < i) :
    instantiate depth new (.bound i) = .bound (i - 1) := by
  have h1 : ¬ i < depth := by omega
  have h2 : i ≠ depth := by omega
  simp [instantiate, h1, h2]

theorem shift_shift {i j : Nat} (h : i ≤ j) (t : Nameless) :
    (t.shift i).shift (j + 1) = (t.shift j).shift i := by
  induction t generalizing i j with
  | bound k =>
      rcases Nat.lt_or_ge k i with hi | hi
      · rw [shift_bound_of_lt hi, shift_bound_of_lt (by omega : k < j), shift_bound_of_lt hi,
          shift_bound_of_lt (by omega)]
      · rw [shift_bound_of_le hi]
        rcases Nat.lt_or_ge k j with hj | hj
        · rw [shift_bound_of_lt hj, shift_bound_of_le hi, shift_bound_of_lt (by omega)]
        · rw [shift_bound_of_le hj, shift_bound_of_le (by omega), shift_bound_of_le (by omega)]
  | free x => rfl
  | lam body ih => exact congrArg lam (ih (by omega))
  | app func arg ihf iha => simp only [shift, ihf h, iha h]

theorem shift_instantiate_of_le {i depth : Nat} (h : i ≤ depth) (new t : Nameless) :
    (instantiate depth new t).shift i = instantiate (depth + 1) (new.shift i) (t.shift i) := by
  induction t generalizing i depth new with
  | bound k =>
      rcases Nat.lt_trichotomy k depth with hk | rfl | hk
      · rw [instantiate_bound_of_lt new hk]
        rcases Nat.lt_or_ge k i with hi | hi
        · rw [shift_bound_of_lt hi, instantiate_bound_of_lt _ (by omega)]
        · rw [shift_bound_of_le hi, instantiate_bound_of_lt _ (by omega)]
      · rw [instantiate_bound_self, shift_bound_of_le h, instantiate_bound_self]
      · rw [instantiate_bound_of_gt new hk, shift_bound_of_le (by omega),
          shift_bound_of_le (by omega), instantiate_bound_of_gt _ (by omega), Nat.add_sub_cancel,
          Nat.sub_add_cancel (by omega)]
  | free x => rfl
  | lam body ih =>
      simp only [instantiate, shift]
      rw [ih (by omega), shift_shift (Nat.zero_le i)]
  | app func arg ihf iha => simp only [instantiate, shift, ihf h, iha h]

theorem shift_instantiate_of_ge {i depth : Nat} (h : depth ≤ i) (new t : Nameless) :
    (instantiate depth new t).shift i = instantiate depth (new.shift i) (t.shift (i + 1)) := by
  induction t generalizing i depth new with
  | bound k =>
      rcases Nat.lt_trichotomy k depth with hk | rfl | hk
      · rw [instantiate_bound_of_lt new hk, shift_bound_of_lt (by omega),
          shift_bound_of_lt (by omega), instantiate_bound_of_lt _ hk]
      · rw [instantiate_bound_self, shift_bound_of_lt (by omega), instantiate_bound_self]
      · rw [instantiate_bound_of_gt new hk]
        rcases Nat.lt_or_ge k (i + 1) with hi | hi
        · rw [shift_bound_of_lt (by omega), shift_bound_of_lt hi, instantiate_bound_of_gt _ hk]
        · rw [shift_bound_of_le (by omega), shift_bound_of_le hi,
            instantiate_bound_of_gt _ (by omega), Nat.add_sub_cancel, Nat.sub_add_cancel (by omega)]
  | free x => rfl
  | lam body ih =>
      simp only [instantiate, shift]
      rw [ih (by omega), shift_shift (Nat.zero_le i)]
  | app func arg ihf iha => simp only [instantiate, shift, ihf h, iha h]

/-- The substitution lemma: of two places that are filled one after the other, the outer one may be
filled first. -/
theorem instantiate_instantiate {i j : Nat} (h : i ≤ j) (outer inner t : Nameless) :
    instantiate j outer (instantiate i inner t)
      = instantiate i (instantiate j outer inner) (instantiate (j + 1) (outer.shift i) t) := by
  induction t generalizing i j outer inner with
  | bound k =>
      rcases Nat.lt_trichotomy k i with hi | rfl | hi
      · rw [instantiate_bound_of_lt inner hi, instantiate_bound_of_lt _ (by omega),
          instantiate_bound_of_lt _ (by omega), instantiate_bound_of_lt _ hi]
      · rw [instantiate_bound_self, instantiate_bound_of_lt _ (by omega), instantiate_bound_self]
      · rw [instantiate_bound_of_gt inner hi]
        rcases Nat.lt_trichotomy k (j + 1) with hj | rfl | hj
        · rw [instantiate_bound_of_lt _ (by omega), instantiate_bound_of_lt _ hj,
            instantiate_bound_of_gt _ hi]
        · rw [instantiate_bound_self, Nat.add_sub_cancel, instantiate_bound_self,
            instantiate_shift]
        · rw [instantiate_bound_of_gt _ (by omega), instantiate_bound_of_gt _ hj,
            instantiate_bound_of_gt _ (by omega)]
  | free x => rfl
  | lam body ih =>
      simp only [instantiate]
      rw [ih (by omega), shift_instantiate_of_le (Nat.zero_le j), shift_shift (Nat.zero_le i)]
  | app func arg ihf iha => simp only [instantiate, ihf h, iha h]

end LambdaStepper.Nameless
