import LambdaStepper.Proofs.Reduction.NormalOrder
import LambdaStepper.Proofs.Registry.Meaning

/-! # Highlights

Highlighting sets the highlight of every node anew, so what was highlighted before does not matter, and the next
redex is found at the same place again (`nextRedex?_markRedex`).  The nodes that are highlighted are the redex and
its abstraction (`litAt_markRedex`), which are the two that a step takes away: behind it no node is
highlighted (`isUnlit_reduceStep_markRedex`).  A parsed term has no highlights (`isUnlit_of_parse`), and so these
facts hold along every sequence of steps and highlights (`Visits.highlightsNext`). -/

namespace LambdaStepper

namespace Term

variable {t : Term}

/-! ### Terms without highlights -/

/-- Whether no node is highlighted. -/
def IsUnlit (t : Term) : Prop :=
  ∀ s ∈ t.nodes, s.mark.isRedex = false

theorem isUnlit_var {m : Mark} {x : String} : (var m x).IsUnlit ↔ m.isRedex = false :=
  List.forall_mem_singleton

theorem isUnlit_lam {m : Mark} {x : String} {body : Term} :
    (lam m x body).IsUnlit ↔ m.isRedex = false ∧ body.IsUnlit :=
  List.forall_mem_cons

theorem isUnlit_app {m : Mark} {func arg : Term} :
    (app m func arg).IsUnlit ↔ m.isRedex = false ∧ func.IsUnlit ∧ arg.IsUnlit :=
  List.forall_mem_cons.trans (and_congr_right' List.forall_mem_append)

theorem isUnlit_unlit (t : Term) : t.unlit.IsUnlit := by
  induction t with
  | var m x => exact isUnlit_var.mpr rfl
  | lam m x body ih => exact isUnlit_lam.mpr ⟨rfl, ih⟩
  | app m func arg ihf iha => exact isUnlit_app.mpr ⟨rfl, ihf, iha⟩

theorem IsUnlit.rename (h : t.IsUnlit) (old new : String) : (t.rename old new).IsUnlit := by
  induction t with
  | var m x => exact isUnlit_var.mpr (isUnlit_var.mp h)
  | lam m x body ih =>
      simp only [Term.rename]
      split
      · exact h
      · exact isUnlit_lam.mpr ⟨(isUnlit_lam.mp h).1, ih (isUnlit_lam.mp h).2⟩
  | app m func arg ihf iha =>
      obtain ⟨hm, hfunc, harg⟩ := isUnlit_app.mp h
      exact isUnlit_app.mpr ⟨hm, ihf hfunc, iha harg⟩

theorem IsUnlit.substituteFrom {name : String} {replacement : Term} {captured : List String}
    (hreplacement : replacement.IsUnlit) (h : t.IsUnlit) (fresh : Freshener) :
    (substituteFrom name replacement captured t fresh).1.IsUnlit := by
  fun_induction Term.substituteFrom name replacement captured t fresh with
  | case1 m x fresh =>
      dsimp only
      split
      · exact hreplacement
      · exact h
  | case2 | case5 => exact h
  | case3 m x body fresh _ _ x' fresh' _ body' fresh'' hbody ih =>
      obtain ⟨hm, hinner⟩ := isUnlit_lam.mp h
      rw [hbody] at ih
      exact isUnlit_lam.mpr ⟨hm, ih (hinner.rename x x')⟩
  | case4 m x body fresh _ _ body' fresh' hbody ih =>
      obtain ⟨hm, hinner⟩ := isUnlit_lam.mp h
      rw [hbody] at ih
      exact isUnlit_lam.mpr ⟨hm, ih hinner⟩
  | case6 m func arg fresh _ func' fresh' hfunc arg' fresh'' harg ihf iha =>
      obtain ⟨hm, hf, ha⟩ := isUnlit_app.mp h
      rw [hfunc] at ihf
      rw [harg] at iha
      exact isUnlit_app.mpr ⟨hm, ihf hf, iha ha⟩

theorem IsUnlit.reduceStep (h : t.IsUnlit) : t.reduceStep.result.IsUnlit := by
  fun_induction Term.reduceStep t with
  | case1 m x => exact isUnlit_var.mpr rfl
  | case2 m x body body' i hb ih =>
      rw [hb] at ih
      exact isUnlit_lam.mpr ⟨rfl, ih (isUnlit_lam.mp h).2⟩
  | case3 m x body body' hb ih =>
      rw [hb] at ih
      exact isUnlit_lam.mpr ⟨rfl, ih (isUnlit_lam.mp h).2⟩
  | case4 m arg m' x body =>
      obtain ⟨-, hfunc, harg⟩ := isUnlit_app.mp h
      exact harg.substituteFrom (isUnlit_lam.mp hfunc).2 {}
  | case5 m arg func hfunc func' i hf ih =>
      obtain ⟨-, hfunc, harg⟩ := isUnlit_app.mp h
      rw [hf] at ih
      exact isUnlit_app.mpr ⟨rfl, ih hfunc, harg⟩
  | case6 m arg func hfunc func' hf arg' i ha ihf iha =>
      obtain ⟨-, hfunc, harg⟩ := isUnlit_app.mp h
      rw [hf] at ihf
      rw [ha] at iha
      exact isUnlit_app.mpr ⟨rfl, ihf hfunc, iha harg⟩
  | case7 m arg func hfunc func' hf arg' ha ihf iha =>
      obtain ⟨-, hfunc, harg⟩ := isUnlit_app.mp h
      rw [hf] at ihf
      rw [ha] at iha
      exact isUnlit_app.mpr ⟨rfl, ihf hfunc, iha harg⟩

/-! ### Parsed terms -/

theorem IsUnlit.setTag (h : t.IsUnlit) (tag : Option String) : (t.setTag tag).IsUnlit := by
  cases t with
  | var m x =>
      have hm : m.isRedex = false := isUnlit_var.mp h
      exact isUnlit_var.mpr hm
  | lam m x body =>
      have hm : m.isRedex = false ∧ body.IsUnlit := isUnlit_lam.mp h
      exact isUnlit_lam.mpr hm
  | app m func arg =>
      have hm : m.isRedex = false ∧ func.IsUnlit ∧ arg.IsUnlit := isUnlit_app.mp h
      exact isUnlit_app.mpr hm

theorem IsUnlit.tagged (h : t.IsUnlit) (tag : Option String) : (Syntax.tagged tag t).IsUnlit := by
  cases tag with
  | none => exact h
  | some tag =>
      unfold Syntax.tagged
      dsimp only
      split
      · exact h
      · exact h.setTag (some tag)

theorem isUnlit_of_readsMarked {part : Syntax.Part} {ls : List Syntax.Lexeme}
    (h : Syntax.ReadsMarked part ls t) : t.IsUnlit := by
  induction h with
  | name x => exact isUnlit_var.mpr rfl
  | group mark _ ih => exact ih.tagged mark
  | single _ ih => exact ih
  | apply _ _ ih ih' => exact isUnlit_app.mpr ⟨rfl, ih, ih'⟩
  | atoms _ ih => exact ih
  | abstraction x _ ih => exact isUnlit_lam.mpr ⟨rfl, ih⟩
  | applyLast x _ _ ih ih' => exact isUnlit_app.mpr ⟨rfl, ih, isUnlit_lam.mpr ⟨rfl, ih'⟩⟩

/-- No node of a parsed term is highlighted. -/
theorem isUnlit_of_parse {limits : Limits} {r : Registry} {text : String} (h : r.parse limits text = .ok t) :
    t.IsUnlit := by
  obtain ⟨-, tokens, -, hread⟩ := Registry.exists_of_parse h
  exact isUnlit_of_readsMarked hread

/-! ### Setting highlights -/

theorem unlit_highlight (target : Option Nat) (position : Nat) (isHead : Bool) (t : Term) :
    (t.highlight target position isHead).unlit = t.unlit := by
  induction t generalizing position isHead with
  | var m x => rfl
  | lam m x body ih => exact congrArg (lam m.unlit x) (ih _ _)
  | app m func arg ihf iha => exact congrArg₂ (app m.unlit) (ihf _ _) (iha _ _)

@[simp] theorem size_unlit (t : Term) : t.unlit.size = t.size := by
  rw [← size_namelessIn [] t, ← namelessIn_unlit, size_namelessIn]

theorem highlight_of_outside {target : Option Nat} {position : Nat}
    (h : ∀ i < t.size, target ≠ some (position + i)) : t.highlight target position false = t.unlit := by
  have hroot : target ≠ some position := h 0 t.size_pos
  induction t generalizing position with
  | var m x => simp [highlight, unlit, hroot, Mark.unlit]
  | lam m x body ih =>
      have hbody : ∀ i < body.size, target ≠ some (position + 1 + i) := by
        intro i hi
        rw [Nat.add_assoc, Nat.add_comm 1 i]
        exact h (i + 1) (by simp only [size]; omega)
      simp [highlight, unlit, hroot, Mark.unlit, ih hbody (hbody 0 body.size_pos)]
  | app m func arg ihf iha =>
      have hfunc : ∀ i < func.size, target ≠ some (position + 1 + i) := by
        intro i hi
        rw [Nat.add_assoc, Nat.add_comm 1 i]
        exact h (i + 1) (by simp only [size]; omega)
      have harg : ∀ i < arg.size, target ≠ some (position + 1 + func.size + i) := by
        intro i hi
        have := h (1 + func.size + i) (by simp only [size]; omega)
        rwa [← Nat.add_assoc, ← Nat.add_assoc] at this
      simp [highlight, unlit, hroot, Mark.unlit, ihf hfunc (hfunc 0 func.size_pos),
        iha harg (harg 0 arg.size_pos)]

/-! ### The next redex -/

theorem isAbstraction_unlit (t : Term) : t.unlit.isAbstraction = t.isAbstraction := by
  cases t <;> rfl

theorem map_isRedex_unlit (t : Term) : t.unlit.nodes.map isRedex = t.nodes.map isRedex := by
  induction t with
  | var => rfl
  | lam m x body ih => simp [unlit, nodes, isRedex, ih]
  | app m func arg ihf iha => simp [unlit, nodes, isRedex, ihf, iha, isAbstraction_unlit]

theorem redex?_reduceStep_unlit (t : Term) : t.unlit.reduceStep.redex? = t.reduceStep.redex? := by
  have hfind : ∀ u : Term, u.nodes.findIdx? isRedex = (u.nodes.map isRedex).findIdx? id := by
    intro u
    rw [List.findIdx?_map]
    rfl
  rw [redex?_reduceStep, redex?_reduceStep, hfind, hfind, map_isRedex_unlit]

theorem nextRedex?_eq_redex? (t : Term) : t.nextRedex? = t.reduceStep.redex? := by
  rw [nextRedex?_eq_findIdx?, redex?_reduceStep]

/-- The next redex is found at the same place again when it is highlighted. -/
theorem nextRedex?_markRedex (t : Term) : t.markRedex.nextRedex? = t.reduceStep.redex? := by
  rw [nextRedex?_eq_redex?, ← redex?_reduceStep_unlit, markRedex, unlit_highlight, redex?_reduceStep_unlit]

theorem exists_redex_of_redex? {i : Nat} (h : t.reduceStep.redex? = some i) :
    ∃ m m' x body arg, t.node? i = some (app m (lam m' x body) arg) ∧ t.node? (i + 1) = some (lam m' x body) := by
  unfold node?
  fun_induction reduceStep t generalizing i with
  | case1 | case3 | case7 => cases h
  | case2 m x body body' j hb ih =>
      obtain rfl := Option.some.inj h
      rw [hb] at ih
      exact ih rfl
  | case4 m arg m' x body =>
      obtain rfl := Option.some.inj h
      exact ⟨m, m', x, body, arg, rfl, rfl⟩
  | case5 m arg func hfunc func' j hf ih =>
      obtain rfl := Option.some.inj h
      rw [hf] at ih
      obtain ⟨m₁, m₂, x, body, arg', happ, hlam⟩ := ih rfl
      obtain ⟨hj, -⟩ := List.getElem?_eq_some_iff.mp happ
      obtain ⟨hj', -⟩ := List.getElem?_eq_some_iff.mp hlam
      refine ⟨m₁, m₂, x, body, arg', ?_, ?_⟩
      · rw [nodes, List.getElem?_cons_succ, List.getElem?_append_left hj, happ]
      · rw [nodes, List.getElem?_cons_succ, List.getElem?_append_left hj', hlam]
  | case6 m arg func hfunc func' hf arg' j ha ihf iha =>
      obtain rfl := Option.some.inj h
      rw [ha] at iha
      obtain ⟨m₁, m₂, x, body, arg', happ, hlam⟩ := iha rfl
      have hlength := func.length_nodes
      refine ⟨m₁, m₂, x, body, arg', ?_, ?_⟩
      · rw [nodes, List.getElem?_cons_succ, List.getElem?_append_right (by omega), hlength,
          Nat.add_sub_cancel, happ]
      · rw [nodes, List.getElem?_cons_succ, List.getElem?_append_right (by omega), hlength, ← hlam]
        congr 1
        omega

theorem lt_size_of_redex? {i : Nat} (h : t.reduceStep.redex? = some i) : i < t.size := by
  obtain ⟨_, _, _, _, _, happ, -⟩ := exists_redex_of_redex? h
  rw [← length_nodes]
  exact (List.getElem?_eq_some_iff.mp happ).1

/-! ### What is highlighted -/

/-- Whether the node at a position is highlighted. -/
def LitAt (t : Term) (i : Nat) : Prop :=
  ∃ s, t.node? i = some s ∧ s.mark.isRedex = true

theorem IsUnlit.not_litAt (h : t.IsUnlit) (i : Nat) : ¬ t.LitAt i := by
  rintro ⟨s, hs, hlit⟩
  rw [h s (List.mem_of_getElem? hs)] at hlit
  cases hlit

theorem litAt_lam {m : Mark} {x : String} {body : Term} {i : Nat} :
    (lam m x body).LitAt i ↔ (i = 0 ∧ m.isRedex = true) ∨ ∃ j, i = j + 1 ∧ body.LitAt j := by
  cases i with
  | zero => simp [LitAt, node?, nodes, mark]
  | succ i => simp [LitAt, node?, nodes]

theorem litAt_app {m : Mark} {func arg : Term} {i : Nat} :
    (app m func arg).LitAt i ↔ (i = 0 ∧ m.isRedex = true) ∨ (∃ j, i = j + 1 ∧ func.LitAt j)
      ∨ ∃ j, i = j + func.size + 1 ∧ arg.LitAt j := by
  cases i with
  | zero => simp [LitAt, node?, nodes, mark]
  | succ i =>
      have hlength := func.length_nodes
      simp only [LitAt, node?, nodes, List.getElem?_cons_succ]
      by_cases hi : i < func.size
      · rw [List.getElem?_append_left (by omega)]
        constructor
        · intro h
          exact .inr (.inl ⟨i, rfl, h⟩)
        · rintro (⟨h, -⟩ | ⟨j, hj, h⟩ | ⟨j, hj, -⟩)
          · omega
          · obtain rfl : i = j := by omega
            exact h
          · omega
      · rw [List.getElem?_append_right (by omega), hlength]
        constructor
        · intro h
          exact .inr (.inr ⟨i - func.size, by omega, h⟩)
        · rintro (⟨h, -⟩ | ⟨j, hj, s, hs, -⟩ | ⟨j, hj, h⟩)
          · omega
          · obtain ⟨hj', -⟩ := List.getElem?_eq_some_iff.mp hs
            omega
          · obtain rfl : j = i - func.size := by omega
            exact h

/-! ### Highlighting the next redex

`markRedex` follows the recursion of a step: it goes into the part that has the redex and takes the highlights of
all others away. -/

theorem highlight_add (offset : Nat) (target : Option Nat) (position : Nat) (isHead : Bool) (t : Term) :
    t.highlight (target.map (offset + ·)) (offset + position) isHead = t.highlight target position isHead := by
  have hroot : ∀ place, target.map (offset + ·) = some (offset + place) ↔ target = some place := by
    intro place
    cases target <;> simp
  induction t generalizing position isHead with
  | var m x => simp only [highlight, hroot]
  | lam m x body ih => simp only [highlight, hroot, Nat.add_assoc, ih]
  | app m func arg ihf iha => simp only [highlight, hroot, Nat.add_assoc, ihf, iha]

theorem markRedex_of_isNormal (h : t.nextRedex? = none) : t.markRedex = t.unlit := by
  rw [markRedex, h]
  exact highlight_of_outside fun i _ => nofun

theorem markRedex_lam (m : Mark) (x : String) (body : Term) :
    (lam m x body).markRedex = lam m.unlit x body.markRedex := by
  have hnext : (lam m x body).nextRedex? = body.nextRedex?.map (1 + ·) := by
    rw [nextRedex?_eq_findIdx?, nextRedex?_eq_findIdx?, findIdx?_nodes_lam]
    simp only [Nat.add_comm]
  have hroot : body.nextRedex?.map (1 + ·) ≠ some 0 := by
    cases body.nextRedex? <;> simp
  have hbody := highlight_add 1 body.nextRedex? 0 false body
  simp [markRedex, hnext, highlight, hroot, hbody, Mark.unlit]

theorem markRedex_contractible (m m' : Mark) (x : String) (body arg : Term) :
    (app m (lam m' x body) arg).markRedex
      = app { m with isRedex := true } (lam { m' with isRedex := true } x body.unlit) arg.unlit := by
  have hnext : (app m (lam m' x body) arg).nextRedex? = some 0 := by
    rw [nextRedex?_eq_findIdx?]
    rfl
  have hbody : body.highlight (some 0) 2 false = body.unlit :=
    highlight_of_outside fun i _ => by simp; omega
  have harg : arg.highlight (some 0) (1 + (body.size + 1)) false = arg.unlit :=
    highlight_of_outside fun i _ => by simp; omega
  simp [markRedex, hnext, highlight, size, hbody, harg]

section App

variable {m : Mark} {func arg : Term} (habstraction : func.isAbstraction = false)
include habstraction

theorem nextRedex?_app : (app m func arg).nextRedex?
    = (func.nextRedex?.map (1 + ·)).or (arg.nextRedex?.map (1 + func.size + ·)) := by
  simp only [nextRedex?_eq_findIdx?, findIdx?_nodes_app habstraction]
  congr 2
  · funext i
    omega
  · funext i
    omega

theorem markRedex_app_func {i : Nat} (hfunc : func.nextRedex? = some i) :
    (app m func arg).markRedex = app m.unlit func.markRedex arg.unlit := by
  have hnext : (app m func arg).nextRedex? = (some i).map (1 + ·) := by
    rw [nextRedex?_app habstraction, hfunc]
    rfl
  have hlt : i < func.size := lt_size_of_redex? (func.nextRedex?_eq_redex? ▸ hfunc)
  have hinner := highlight_add 1 (some i) 0 false func
  have harg : arg.highlight (some (1 + i)) (1 + func.size) false = arg.unlit :=
    highlight_of_outside fun k _ => by simp; omega
  simp only [Option.map_some] at hnext hinner
  simp [markRedex, hnext, hfunc, highlight, harg, hinner, Mark.unlit]

theorem markRedex_app_arg (hfunc : func.nextRedex? = none) :
    (app m func arg).markRedex = app m.unlit func.unlit arg.markRedex := by
  have hnext : (app m func arg).nextRedex? = arg.nextRedex?.map (1 + func.size + ·) := by
    rw [nextRedex?_app habstraction, hfunc]
    rfl
  have hroot : arg.nextRedex?.map (1 + func.size + ·) ≠ some 0 := by
    cases arg.nextRedex? <;> simp
  have hinner : func.highlight (arg.nextRedex?.map (1 + func.size + ·)) 1 false = func.unlit := by
    refine highlight_of_outside fun k hk => ?_
    cases arg.nextRedex? with
    | none => nofun
    | some i => simp; omega
  have harg := highlight_add (1 + func.size) arg.nextRedex? 0 false arg
  rw [Nat.add_zero] at harg
  simp [markRedex, hnext, highlight, hroot, hinner, harg, Mark.unlit]

end App

theorem litAt_markRedex_of_redex? {i k : Nat} (h : t.reduceStep.redex? = some i) :
    t.markRedex.LitAt k ↔ k = i ∨ k = i + 1 := by
  fun_induction reduceStep t generalizing i k with
  | case1 | case3 | case7 => cases h
  | case2 m x body body' j hb ih =>
      obtain rfl := Option.some.inj h
      rw [hb] at ih
      rw [markRedex_lam, litAt_lam]
      simp only [ih rfl, Mark.unlit, Bool.false_eq_true, and_false, false_or]
      constructor
      · rintro ⟨l, rfl, hl⟩
        omega
      · rintro (rfl | rfl)
        · exact ⟨j, rfl, .inl rfl⟩
        · exact ⟨j + 1, rfl, .inr rfl⟩
  | case4 m arg m' x body =>
      obtain rfl := Option.some.inj h
      have hbody := body.isUnlit_unlit.not_litAt
      have harg := arg.isUnlit_unlit.not_litAt
      rw [markRedex_contractible, litAt_app]
      simp [litAt_lam, hbody, harg]
  | case5 m arg func hfunc func' j hf ih =>
      obtain rfl := Option.some.inj h
      have habstraction := isAbstraction_eq_false hfunc
      have harg := arg.isUnlit_unlit.not_litAt
      have hnext : func.nextRedex? = some j := by rw [nextRedex?_eq_redex?, hf]
      rw [hf] at ih
      rw [markRedex_app_func habstraction hnext, litAt_app]
      simp only [ih rfl, harg, Mark.unlit, Bool.false_eq_true, and_false, false_or, exists_false, or_false]
      constructor
      · rintro ⟨l, rfl, hl⟩
        omega
      · rintro (rfl | rfl)
        · exact ⟨j, rfl, .inl rfl⟩
        · exact ⟨j + 1, rfl, .inr rfl⟩
  | case6 m arg func hfunc func' hf arg' j ha ihf iha =>
      obtain rfl := Option.some.inj h
      have habstraction := isAbstraction_eq_false hfunc
      have hinner := func.isUnlit_unlit.not_litAt
      have hnext : func.nextRedex? = none := by rw [nextRedex?_eq_redex?, hf]
      rw [ha] at iha
      rw [markRedex_app_arg habstraction hnext, litAt_app]
      simp only [iha rfl, hinner, size_unlit, Mark.unlit, Bool.false_eq_true, and_false, false_or, exists_false]
      constructor
      · rintro ⟨l, rfl, hl⟩
        omega
      · rintro (rfl | rfl)
        · exact ⟨j, rfl, .inl rfl⟩
        · exact ⟨j + 1, by omega, .inr rfl⟩

/-- What is highlighted is the next redex and its abstraction, and nothing in a normal form. -/
theorem litAt_markRedex (t : Term) (k : Nat) :
    t.markRedex.LitAt k ↔ ∃ i, t.reduceStep.redex? = some i ∧ (k = i ∨ k = i + 1) := by
  cases h : t.reduceStep.redex? with
  | none =>
      rw [markRedex_of_isNormal (by rw [nextRedex?_eq_redex?, h])]
      simpa using t.isUnlit_unlit.not_litAt k
  | some i => simpa using litAt_markRedex_of_redex? h

/-! ### Steps from highlighted terms -/

theorem isAbstraction_markRedex (t : Term) : t.markRedex.isAbstraction = t.isAbstraction := by
  cases t <;> rfl

theorem reduceStep_app {func : Term} (h : func.isAbstraction = false) (m : Mark) (arg : Term) :
    (app m func arg).reduceStep = match func.reduceStep, arg.reduceStep with
      | ⟨func', some i⟩, _ => ⟨app {} func' arg, some (i + 1)⟩
      | ⟨func', none⟩, ⟨arg', some i⟩ => ⟨app {} func' arg', some (i + func.size + 1)⟩
      | ⟨func', none⟩, ⟨arg', none⟩ => ⟨app m.unlit func' arg', none⟩ := by
  rw [reduceStep]
  · rcases func.reduceStep with ⟨func', _ | i⟩
    · rcases arg.reduceStep with ⟨arg', _ | i⟩ <;> rfl
    · rfl
  · rintro _ _ _ rfl
    cases h

/-- A step takes the highlights away that show what it contracts. -/
theorem reduceStep_markRedex (t : Term) : t.markRedex.reduceStep = t.unlit.reduceStep := by
  cases h : t.reduceStep.redex? with
  | none => rw [markRedex_of_isNormal (by rw [nextRedex?_eq_redex?, h])]
  | some i =>
    fun_induction reduceStep t generalizing i with
    | case1 | case3 | case7 => cases h
    | case2 m x body body' j hb ih =>
        rw [hb] at ih
        rw [markRedex_lam, unlit, reduceStep, reduceStep, ih j rfl]
    | case4 m arg m' x body =>
        rw [markRedex_contractible]
        rfl
    | case5 m arg func hfunc func' j hf ih =>
        have habstraction := isAbstraction_eq_false hfunc
        have hnext : func.nextRedex? = some j := by rw [nextRedex?_eq_redex?, hf]
        have hfound : func.unlit.reduceStep.redex? = some j := by rw [redex?_reduceStep_unlit, hf]
        rw [hf] at ih
        rw [markRedex_app_func habstraction hnext, unlit, reduceStep_app, reduceStep_app, ih j rfl]
        · generalize func.unlit.reduceStep = step at hfound
          obtain ⟨func'', redex?⟩ := step
          obtain rfl := hfound
          rfl
        · rwa [isAbstraction_unlit]
        · rwa [isAbstraction_markRedex]
    | case6 m arg func hfunc func' hf arg' j ha ihf iha =>
        have habstraction := isAbstraction_eq_false hfunc
        have hnext : func.nextRedex? = none := by rw [nextRedex?_eq_redex?, hf]
        rw [ha] at iha
        have hnone : func.unlit.reduceStep.redex? = none := by rw [redex?_reduceStep_unlit, hf]
        have habstraction' : func.unlit.isAbstraction = false := by rwa [isAbstraction_unlit]
        rw [markRedex_app_arg habstraction hnext, unlit, reduceStep_app habstraction',
          reduceStep_app habstraction', iha j rfl]
        -- the argument itself is kept only where the redex is in the function
        generalize func.unlit.reduceStep = step at hnone
        obtain ⟨func'', redex?⟩ := step
        obtain rfl := hnone
        rcases arg.unlit.reduceStep with ⟨arg'', _ | i⟩ <;> rfl

/-- Behind a step from a highlighted term no node is highlighted. -/
theorem isUnlit_reduceStep_markRedex (t : Term) : t.markRedex.reduceStep.result.IsUnlit := by
  rw [reduceStep_markRedex]
  exact t.isUnlit_unlit.reduceStep

/-! ### Steps and highlights in any order -/

/-- The terms that come from one by steps and highlights in any order. -/
inductive Visits (start : Term) : Term → Prop
  | refl : Visits start start
  | reduceStep {u : Term} (h : Visits start u) : Visits start u.reduceStep.result
  | markRedex {u : Term} (h : Visits start u) : Visits start u.markRedex

/-- From a term without highlights on, only the last highlight is ever to be seen. -/
theorem Visits.isUnlit_or_marked {u : Term} (h : t.Visits u) (ht : t.IsUnlit) :
    u.IsUnlit ∨ ∃ v : Term, u = v.markRedex := by
  induction h with
  | refl => exact .inl ht
  | @reduceStep u _ ih =>
      rcases ih with hu | ⟨v, rfl⟩
      · exact .inl hu.reduceStep
      · exact .inl v.isUnlit_reduceStep_markRedex
  | @markRedex u _ _ => exact .inr ⟨u, rfl⟩

/-- What the highlights of a term are worth: they show the application that the next step contracts and its
abstraction, where it is looked for again, and nothing in a normal form; nothing but highlights changes; and the
next step leaves none. -/
structure HighlightsNext (t : Term) : Prop where
  litAt_iff : ∀ k, t.markRedex.LitAt k ↔ ∃ i, t.reduceStep.redex? = some i ∧ (k = i ∨ k = i + 1)
  redex : ∀ i, t.reduceStep.redex? = some i → ∃ m m' x body arg,
    t.node? i = some (app m (lam m' x body) arg) ∧ t.node? (i + 1) = some (lam m' x body)
  normal : t.reduceStep.redex? = none ↔ t.IsNormal
  next : t.markRedex.nextRedex? = t.reduceStep.redex?
  same : t.markRedex.unlit = t.unlit
  isUnlit_step : t.reduceStep.result.IsUnlit

theorem Visits.highlightsNext {u : Term} (h : t.Visits u) (ht : t.IsUnlit) : u.HighlightsNext where
  litAt_iff := u.litAt_markRedex
  redex _ hi := exists_redex_of_redex? hi
  normal := by rw [redex?_reduceStep, isNormal_iff_findIdx?]
  next := u.nextRedex?_markRedex
  same := unlit_highlight _ _ _ u
  isUnlit_step := by
    rcases h.isUnlit_or_marked ht with hu | ⟨v, rfl⟩
    · exact hu.reduceStep
    · exact v.isUnlit_reduceStep_markRedex

end Term
end LambdaStepper
