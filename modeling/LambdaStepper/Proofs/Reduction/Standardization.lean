import LambdaStepper.Proofs.Reduction.NormalOrder
import LambdaStepper.Proofs.Term.Indices
import Mathlib.Logic.Relation

/-! # Standardization

Every reduction can be put into a standard order, and a standard reduction to a normal form only ever
contracts the leftmost outermost redex.

`Head` contracts the redex at the head of a term, outside of all abstractions and arguments.  In a
`Standard` reduction head steps expose the root of the result, and its parts are reached by standard
reductions in turn.  Standard reductions are kept by shifts and instantiation, so that a contraction
behind one can be made part of it (`Standard.beta`), which gives one for every reduction
(`standard_of_reduces`).  To a normal form it is a run of `leftmost?` (`leftmost_of_standard`). -/

namespace LambdaStepper.Nameless

open Relation

/-- A contraction of the redex at the head of a term. -/
inductive Head : Nameless → Nameless → Prop where
  | contract (body arg : Nameless) : Head (.app (.lam body) arg) (instantiate 0 arg body)
  | func {t u : Nameless} (arg : Nameless) (h : Head t u) : Head (.app t arg) (.app u arg)

/-- A reduction in standard order: head steps to the root of the result, then standard reductions to
its parts. -/
inductive Standard : Nameless → Nameless → Prop where
  | bound {t : Nameless} (i : Nat) (h : ReflTransGen Head t (.bound i)) : Standard t (.bound i)
  | free {t : Nameless} (x : String) (h : ReflTransGen Head t (.free x)) : Standard t (.free x)
  | lam {t body body' : Nameless} (h : ReflTransGen Head t (.lam body))
      (hbody : Standard body body') : Standard t (.lam body')
  | app {t func func' arg arg' : Nameless} (h : ReflTransGen Head t (.app func arg))
      (hfunc : Standard func func') (harg : Standard arg arg') : Standard t (.app func' arg')

/-- A contraction of the leftmost outermost redex. -/
def Leftmost (t u : Nameless) : Prop :=
  t.leftmost? = some u

/-! ### Head steps -/

theorem Head.shift {t u : Nameless} (h : Head t u) (depth : Nat) :
    Head (t.shift depth) (u.shift depth) := by
  induction h with
  | contract body arg =>
      rw [shift_instantiate_of_ge (Nat.zero_le depth)]
      exact .contract _ _
  | func arg _ ih => exact .func _ ih

theorem Head.instantiate {t u : Nameless} (h : Head t u) (depth : Nat) (new : Nameless) :
    Head (instantiate depth new t) (instantiate depth new u) := by
  induction h with
  | contract body arg =>
      rw [instantiate_instantiate (Nat.zero_le depth)]
      exact .contract _ _
  | func arg _ ih => exact .func _ ih

theorem Head.leftmost {t u : Nameless} (h : Head t u) : Leftmost t u := by
  induction h with
  | contract body arg => rfl
  | @func t u arg h ih =>
      have hlam : ¬ t.IsLam := by
        rintro ⟨body, rfl⟩
        cases h
      unfold Leftmost at ih ⊢
      rw [leftmost?_app hlam, ih]
      rfl

/-! ### Standard reductions -/

theorem Standard.refl (t : Nameless) : Standard t t := by
  induction t with
  | bound i => exact .bound i .refl
  | free x => exact .free x .refl
  | lam body ih => exact .lam .refl ih
  | app func arg ihf iha => exact .app .refl ihf iha

theorem Standard.of_head {t u v : Nameless} (h : ReflTransGen Head t u) (h' : Standard u v) :
    Standard t v := by
  cases h' with
  | bound i h' => exact .bound i (h.trans h')
  | free x h' => exact .free x (h.trans h')
  | lam h' hbody => exact .lam (h.trans h') hbody
  | app h' hfunc harg => exact .app (h.trans h') hfunc harg

theorem Standard.shift {t u : Nameless} (h : Standard t u) (depth : Nat) :
    Standard (t.shift depth) (u.shift depth) := by
  have hlift {t u : Nameless} (h : ReflTransGen Head t u) (depth : Nat) :
      ReflTransGen Head (t.shift depth) (u.shift depth) :=
    h.lift (·.shift depth) fun _ _ hs => hs.shift depth
  induction h generalizing depth with
  | bound i h => exact .of_head (hlift h depth) (.refl _)
  | free x h => exact .of_head (hlift h depth) (.refl _)
  | lam h _ ih => exact .lam (hlift h depth) (ih (depth + 1))
  | app h _ _ ihf iha => exact .app (hlift h depth) (ihf depth) (iha depth)

theorem Standard.instantiate {t u : Nameless} (h : Standard t u) (depth : Nat) {new new' : Nameless}
    (hnew : Standard new new') :
    Standard (instantiate depth new t) (instantiate depth new' u) := by
  have hlift {t u : Nameless} (h : ReflTransGen Head t u) (depth : Nat) (new : Nameless) :
      ReflTransGen Head (Nameless.instantiate depth new t) (Nameless.instantiate depth new u) :=
    h.lift (Nameless.instantiate depth new) fun _ _ hs => hs.instantiate depth new
  induction h generalizing depth new new' with
  | bound i h =>
      refine .of_head (hlift h depth new) ?_
      rcases Nat.lt_trichotomy i depth with hi | rfl | hi
      · rw [instantiate_bound_of_lt _ hi, instantiate_bound_of_lt _ hi]
        exact .refl _
      · rw [instantiate_bound_self, instantiate_bound_self]
        exact hnew
      · rw [instantiate_bound_of_gt _ hi, instantiate_bound_of_gt _ hi]
        exact .refl _
  | free x h => exact .of_head (hlift h depth new) (.refl _)
  | lam h _ ih => exact .lam (hlift h depth new) (ih (depth + 1) (hnew.shift 0))
  | app h _ _ ihf iha => exact .app (hlift h depth new) (ihf depth hnew) (iha depth hnew)

/-- A contraction behind a standard reduction can be made part of it. -/
theorem Standard.beta {t u v : Nameless} (h : Standard t u) (hb : Beta u v) : Standard t v := by
  induction hb generalizing t with
  | contract body arg =>
      cases h with
      | @app _ func _ arg₀ _ h hfunc harg =>
          cases hfunc with
          | @lam _ body₀ _ hfunc hbody =>
              -- the head steps go on: first in the function, then at the redex itself
              have hhead : ReflTransGen Head (.app func arg₀) (.app (.lam body₀) arg₀) :=
                hfunc.lift (Nameless.app · arg₀) fun _ _ hs => .func arg₀ hs
              have hredex := (h.trans hhead).tail (.contract body₀ arg₀)
              exact .of_head hredex (hbody.instantiate 0 harg)
  | body _ ih =>
      cases h with
      | lam h hbody => exact .lam h (ih hbody)
  | func arg _ ih =>
      cases h with
      | app h hfunc harg => exact .app h (ih hfunc) harg
  | arg func _ ih =>
      cases h with
      | app h hfunc harg => exact .app h hfunc (ih harg)

theorem standard_of_reduces {t u : Nameless} (h : Reduces t u) : Standard t u := by
  have hafter {s : Nameless} (hs : Standard s t) : Standard s u := by
    induction h with
    | refl => exact hs
    | step hb _ ih => exact ih (hs.beta hb)
  exact hafter (.refl t)

/-! ### Leftmost reduction to a normal form -/

theorem isNormal_iff_leftmost? (t : Nameless) : t.IsNormal ↔ t.leftmost? = none := by
  constructor
  · intro h
    cases ht : t.leftmost? with
    | none => rfl
    | some u => exact absurd (beta_of_leftmost? ht) (h u)
  · intro h u hu
    have hsome : t.leftmost?.isSome = true := by
      clear h
      induction hu with
      | contract => rfl
      | body _ ih => simpa [leftmost?] using ih
      | @func t u arg _ ih =>
          by_cases hlam : t.IsLam
          · obtain ⟨body, rfl⟩ := hlam
            rfl
          · simp [leftmost?_app hlam, ih]
      | @arg t u func _ ih =>
          by_cases hlam : func.IsLam
          · obtain ⟨body, rfl⟩ := hlam
            rfl
          · simp [leftmost?_app hlam, ih]
    rw [h] at hsome
    cases hsome

theorem Leftmost.isLam {t u : Nameless} (h : Leftmost t u) (hlam : t.IsLam) : u.IsLam := by
  obtain ⟨body, rfl⟩ := hlam
  obtain ⟨body', -, rfl⟩ := Option.map_eq_some_iff.mp h
  exact ⟨body', rfl⟩

theorem isLam_of_leftmost {t u : Nameless} (h : ReflTransGen Leftmost t u) (hlam : t.IsLam) :
    u.IsLam := by
  induction h with
  | refl => exact hlam
  | tail _ hs ih => exact hs.isLam ih

theorem Leftmost.lam {t u : Nameless} (h : Leftmost t u) : Leftmost (.lam t) (.lam u) := by
  unfold Leftmost at h ⊢
  rw [leftmost?, h]
  rfl

theorem Leftmost.func {t u : Nameless} (hlam : ¬ t.IsLam) (arg : Nameless) (h : Leftmost t u) :
    Leftmost (.app t arg) (.app u arg) := by
  unfold Leftmost at h ⊢
  rw [leftmost?_app hlam, h]
  rfl

theorem Leftmost.arg {t u func : Nameless} (hfunc : func.IsNormal) (hlam : ¬ func.IsLam)
    (h : Leftmost t u) : Leftmost (.app func t) (.app func u) := by
  unfold Leftmost at h ⊢
  rw [leftmost?_app hlam, (isNormal_iff_leftmost? func).mp hfunc, h]
  rfl

/-- What does not end as an abstraction never was one, so the root is no redex on the way. -/
theorem leftmost_func {t u : Nameless} (arg : Nameless) (h : ReflTransGen Leftmost t u)
    (hu : ¬ u.IsLam) : ReflTransGen Leftmost (.app t arg) (.app u arg) := by
  induction h using ReflTransGen.head_induction_on with
  | refl => exact .refl
  | head hs h ih =>
      have hlam := fun ht => hu (isLam_of_leftmost h (hs.isLam ht))
      exact ih.head (hs.func hlam arg)

/-- A standard reduction to a normal form contracts leftmost outermost redexes only. -/
theorem leftmost_of_standard {t n : Nameless} (h : Standard t n) (hn : n.IsNormal) :
    ReflTransGen Leftmost t n := by
  have hlift {t u : Nameless} (h : ReflTransGen Head t u) : ReflTransGen Leftmost t u :=
    ReflTransGen.mono (fun _ _ => Head.leftmost) _ _ h
  induction h with
  | bound i h => exact hlift h
  | free x h => exact hlift h
  | lam h _ ih =>
      have hbody := ih fun u hu => hn _ (.body hu)
      exact (hlift h).trans (hbody.lift Nameless.lam fun _ _ hs => hs.lam)
  | @app t func func' arg arg' h _ _ ihf iha =>
      have hfunc : func'.IsNormal := fun u hu => hn _ (.func arg' hu)
      have hlam : ¬ func'.IsLam := by
        rintro ⟨body, rfl⟩
        exact hn _ (.contract body arg')
      have harg := iha fun u hu => hn _ (.arg func' hu)
      have hright := harg.lift (Nameless.app func') fun _ _ hs => hs.arg hfunc hlam
      exact ((hlift h).trans (leftmost_func arg (ihf hfunc) hlam)).trans hright

end LambdaStepper.Nameless
