import LambdaStepper.Proofs.Term.NumeralShape

/-! # Corresponding subterms

Two terms with the same nameless form, each in a scope of its own, have the same shape, so that their nodes
correspond to each other one by one in pre-order (`Term.nodePairs`).  What holds of such terms is shown by
induction on both at once (`Term.namelessIn_induction`): corresponding subterms have the same nameless form again
(`Term.exists_namelessIn_eq_of_mem_nodePairs`), are recognised as the same numbers, and print alike as soon as
the same is printed for corresponding ones (`Term.printFrom_congr`). -/

namespace LambdaStepper

namespace Term

variable {t u : Term} {scope scope' : List String}

/-- Induction on two terms with the same nameless form, with the names that are bound around them. -/
@[elab_as_elim]
theorem namelessIn_induction
    {motive : {t u : Term} → {scope scope' : List String} → t.namelessIn scope = u.namelessIn scope' → Prop}
    (var : ∀ {scope scope' m x m' y} (h : (var m x).namelessIn scope = (var m' y).namelessIn scope'), motive h)
    (lam : ∀ {scope scope' m x body m' y body'}
      (h : body.namelessIn (x :: scope) = body'.namelessIn (y :: scope')), motive h →
      ∀ hlam : (lam m x body).namelessIn scope = (lam m' y body').namelessIn scope', motive hlam)
    (app : ∀ {scope scope' m func arg m' func' arg'} (hf : func.namelessIn scope = func'.namelessIn scope')
      (ha : arg.namelessIn scope = arg'.namelessIn scope'), motive hf → motive ha →
      ∀ happ : (app m func arg).namelessIn scope = (app m' func' arg').namelessIn scope', motive happ)
    (h : t.namelessIn scope = u.namelessIn scope') : motive h := by
  induction t generalizing u scope scope' with
  | var m x =>
      have hvar : ∃ m' y, u = .var m' y := by
        cases u with
        | var m' y => exact ⟨m', y, rfl⟩
        | lam | app =>
            rw [namelessIn] at h
            split at h <;> cases h
      obtain ⟨m', y, rfl⟩ := hvar
      exact var h
  | lam m x body ih =>
      obtain ⟨m', y, body', rfl, hbody⟩ := exists_lam_of_namelessIn_eq_lam h.symm
      exact lam hbody.symm (ih hbody.symm) h
  | app m func arg ihf iha =>
      obtain ⟨m', func', arg', rfl, hf, ha⟩ := exists_app_of_namelessIn_eq_app h.symm
      exact app hf.symm ha.symm (ihf hf.symm) (iha ha.symm) h

theorem kind_eq_of_namelessIn_eq (h : t.namelessIn scope = u.namelessIn scope') : t.kind = u.kind := by
  induction h using namelessIn_induction with
  | var | lam | app => rfl

theorem size_eq_of_namelessIn_eq (h : t.namelessIn scope = u.namelessIn scope') : t.size = u.size := by
  induction h using namelessIn_induction with
  | var => rfl
  | lam h ih => exact congrArg (· + 1) ih
  | app hf ha ihf iha => simp only [size, ihf, iha]

theorem recognise?_eq_of_namelessIn_eq (h : t.namelessIn scope = u.namelessIn scope') :
    Numeral.recognise? t = Numeral.recognise? u := by
  ext n
  rw [Numeral.recognise?_eq_some_iff_church scope, Numeral.recognise?_eq_some_iff_church scope', h]

/-- Terms with the same nameless form in their scopes are alpha-equivalent, if no free name of one of them is bound
around it. -/
theorem alphaEquiv_of_namelessIn_eq (h : t.namelessIn scope = u.namelessIn scope')
    (ht : ∀ x ∈ t.freeNames [], x ∉ scope) : t.AlphaEquiv u := by
  rw [namelessIn_of_disjoint ht] at h
  have hscoped : (u.nameless.enclose scope' 0).Scoped 0 := by
    rw [← namelessIn_eq_enclose, ← h]
    exact t.scoped_namelessIn []
  have hu := Nameless.notMem_of_scoped_enclose hscoped
  rw [freeNames_nameless] at hu
  rw [namelessIn_of_disjoint hu] at h
  exact h

/-! ### Pairs of nodes -/

/-- The subterms of two terms at the same positions. -/
def nodePairs (t u : Term) : List (Term × Term) :=
  t.nodes.zip u.nodes

theorem nodePairs_lam (m m' : Mark) (x y : String) (body body' : Term) :
    (lam m x body).nodePairs (lam m' y body') = (lam m x body, lam m' y body') :: body.nodePairs body' :=
  rfl

theorem nodePairs_app (m m' : Mark) {func func' : Term} (arg arg' : Term)
    (h : func.namelessIn scope = func'.namelessIn scope') :
    (app m func arg).nodePairs (app m' func' arg')
      = (app m func arg, app m' func' arg') :: (func.nodePairs func' ++ arg.nodePairs arg') := by
  have hlength : func.nodes.length = func'.nodes.length := by
    rw [length_nodes, length_nodes, size_eq_of_namelessIn_eq h]
  exact congrArg _ (List.zip_append hlength)

theorem self_mem_nodePairs (t u : Term) : (t, u) ∈ t.nodePairs u := by
  rw [nodePairs, nodes_eq_cons, nodes_eq_cons]
  exact List.mem_cons_self

theorem mem_nodes_of_mem_nodePairs {p : Term × Term} (hp : p ∈ t.nodePairs u) :
    p.1 ∈ t.nodes ∧ p.2 ∈ u.nodes :=
  List.of_mem_zip hp

/-- Corresponding subterms have the same nameless form, in their scopes. -/
theorem exists_namelessIn_eq_of_mem_nodePairs (h : t.namelessIn scope = u.namelessIn scope') :
    ∀ p ∈ t.nodePairs u, ∃ inner inner', p.1.namelessIn inner = p.2.namelessIn inner' := by
  induction h using namelessIn_induction with
  | var h =>
      intro p hp
      obtain rfl := List.mem_singleton.mp hp
      exact ⟨_, _, h⟩
  | lam h ih hlam =>
      intro p hp
      rw [nodePairs_lam] at hp
      rcases List.mem_cons.mp hp with rfl | hp
      · exact ⟨_, _, hlam⟩
      · exact ih p hp
  | app hf ha ihf iha happ =>
      intro p hp
      rw [nodePairs_app _ _ _ _ hf] at hp
      rcases List.mem_cons.mp hp with rfl | hp
      · exact ⟨_, _, happ⟩
      · rcases List.mem_append.mp hp with hp | hp
        · exact ihf p hp
        · exact iha p hp

theorem nodePairs_subset_of_mem (h : t.namelessIn scope = u.namelessIn scope') :
    ∀ p ∈ t.nodePairs u, p.1.nodePairs p.2 ⊆ t.nodePairs u := by
  induction h using namelessIn_induction with
  | var =>
      intro p hp
      obtain rfl := List.mem_singleton.mp hp
      exact List.Subset.refl _
  | lam h ih hlam =>
      intro p hp
      rw [nodePairs_lam] at hp
      rcases List.mem_cons.mp hp with rfl | hp
      · exact List.Subset.refl _
      · exact List.subset_cons_of_subset _ (ih p hp)
  | app hf ha ihf iha happ =>
      intro p hp
      rw [nodePairs_app _ _ _ _ hf] at hp ⊢
      rcases List.mem_cons.mp hp with rfl | hp
      · rw [nodePairs_app _ _ _ _ hf]
        exact List.Subset.refl _
      · rcases List.mem_append.mp hp with hp | hp
        · exact List.subset_cons_of_subset _ (List.subset_append_of_subset_left _ (ihf p hp))
        · exact List.subset_cons_of_subset _ (List.subset_append_of_subset_right _ (iha p hp))

/-! ### Printing -/

theorem lookup_getD_eq {names names' : List (String × String)} {m m' : Mark} {x y : String}
    (hprinted : names.map Prod.snd = names'.map Prod.snd)
    (h : (var m x).namelessIn (names.map Prod.fst) = (var m' y).namelessIn (names'.map Prod.fst)) :
    (names.lookup x).getD x = (names'.lookup y).getD y := by
  rw [lookup_eq_bind_idxOf?, lookup_eq_bind_idxOf?, hprinted]
  rw [namelessIn, namelessIn] at h
  cases hx : (names.map Prod.fst).idxOf? x <;> cases hy : (names'.map Prod.fst).idxOf? y <;> rw [hx, hy] at h
  case none.none => exact Nameless.free.inj h
  case none.some => cases h
  case some.none => cases h
  case some.some i j =>
    obtain rfl := Nameless.bound.inj h
    obtain ⟨hi, -⟩ := List.idxOf?_eq_some_iff.mp hy
    have hi' : i < (names'.map Prod.snd).length := by simpa using hi
    rw [Option.bind_some, List.getElem?_eq_getElem hi']
    rfl

/-- In a canonical style terms with the same nameless form print alike, if the same is printed for corresponding
subterms. -/
theorem printFrom_congr {style : PrintStyle} (hstyle : style.canonical = true)
    (h : t.namelessIn scope = u.namelessIn scope') {names names' : List (String × String)}
    (hscope : names.map Prod.fst = scope) (hscope' : names'.map Prod.fst = scope')
    (hprinted : names.map Prod.snd = names'.map Prod.snd)
    (hatoms : ∀ p ∈ t.nodePairs u, atomText? style p.1 = atomText? style p.2) (counter : Nat)
    (context : PrintContext) :
    printFrom style names counter context t = printFrom style names' counter context u := by
  induction h using namelessIn_induction generalizing names names' counter context with
  | @var scope scope' m x m' y h =>
      subst hscope hscope'
      have hroot := hatoms _ (self_mem_nodePairs _ _)
      simp only [printFrom, hroot, lookup_getD_eq hprinted h]
      rfl
  | @lam scope scope' m x body m' y body' h ih hlam =>
      have hroot := hatoms _ (self_mem_nodePairs _ _)
      simp only [nodePairs_lam, List.forall_mem_cons] at hatoms
      simp only [printFrom, hroot, hstyle, if_true]
      split
      · rfl
      · have hbody := @ih ((x, canonicalName counter) :: names) ((y, canonicalName counter) :: names')
          (congrArg (x :: ·) hscope) (congrArg (y :: ·) hscope') (congrArg (canonicalName counter :: ·) hprinted)
          hatoms.2
        rw [hbody]
        rfl
  | @app scope scope' m func arg m' func' arg' hf ha ihf iha happ =>
      have hroot := hatoms _ (self_mem_nodePairs _ _)
      simp only [nodePairs_app _ _ _ _ hf, List.forall_mem_cons, List.forall_mem_append] at hatoms
      simp only [printFrom, hroot]
      split
      · rfl
      · rw [ihf hscope hscope' hprinted hatoms.2.1, iha hscope hscope' hprinted hatoms.2.2]
        rfl

theorem print_congr {style : PrintStyle} (hstyle : style.canonical = true) (h : t.AlphaEquiv u)
    (hatoms : ∀ p ∈ t.nodePairs u, atomText? style p.1 = atomText? style p.2) (context : PrintContext) :
    t.print style context = u.print style context := by
  have hprinted : printFrom style [] 0 context t = printFrom style [] 0 context u :=
    printFrom_congr hstyle h rfl rfl rfl hatoms 0 context
  rw [print, print, hprinted]

end Term
end LambdaStepper
