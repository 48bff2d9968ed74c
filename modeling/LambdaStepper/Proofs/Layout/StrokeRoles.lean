import LambdaStepper.Proofs.Identity.Layout
import LambdaStepper.Proofs.Layout.Extents

/-! # The roles of strokes

Every abstraction and every application of a term is drawn with a stroke of its own (`depicts_sketch`): a bar over
its columns, and an elbow from a column of its function to a column of its argument.  Which node a stroke draws
is told by where the stroke is (`apart_sites`).

The role of a stroke is handed down from the root.  Where the identity to be highlighted is not in a term, all its
strokes have the role of its surroundings (`role_sketch`).  Where it is the one of an application, the function and
the elbow are primary and the argument is secondary, and what is drawn around them has no role
(`castsRoles_sketch`). -/

namespace LambdaStepper

open Layout

namespace Term

theorem count_variable_pos (t : Term) : 0 < t.count .variable := by
  rw [← t.width_namelessIn []]
  exact Nameless.width_pos _

@[simp] theorem count_variable_lam (m : Mark) (x : String) (body : Term) :
    (lam m x body).count .variable = body.count .variable :=
  count_lam .variable m x body

@[simp] theorem count_variable_app (m : Mark) (func arg : Term) :
    (app m func arg).count .variable = func.count .variable + arg.count .variable :=
  count_app .variable m func arg

end Term

/-- An abstraction or an application, and the row and the column where its drawing begins. -/
structure Node.Site where
  row : Nat
  column : Nat
  node : Node

namespace Node

/-- Where the abstractions and applications of a term are drawn, in pre-order.  Each variable takes a column. -/
def sites (row column : Nat) : Node → List Site
  | .var .. => []
  | .lam i m x body => ⟨row, column, .lam i m x body⟩ :: body.sites (row + 1) column
  | .app i m func arg =>
    ⟨row, column, .app i m func arg⟩ ::
      (func.sites row column ++ arg.sites row (column + func.term.count .variable))

end Node

namespace Layout

open Node (Site)

/-- Whether a stroke draws the abstraction or the application at a site: as a bar over its columns, titled by its
parameter, or as an elbow from a column of the function to one of the argument.  Variables have no sites. -/
def Stroke.Draws (s : Stroke) (site : Site) : Prop :=
  match site.node with
  | .var .. => False
  | .lam _ _ x body =>
    s.title = some x ∧
      s.course = .bar site.row site.column (site.column + body.term.count .variable - 1)
  | .app _ _ func arg =>
    let border := site.column + func.term.count .variable
    s.title = none ∧ s.course.isElbow = true ∧
      site.column ≤ s.course.leftmost ∧ s.course.leftmost < border ∧
      border ≤ s.course.rightmost ∧ s.course.rightmost < border + arg.term.count .variable

/-- Whether strokes draw what is at the given sites: one stroke for each site, in any order. -/
def Depicts (strokes : List Stroke) (sites : List Site) : Prop :=
  ∃ order, order.Perm sites ∧ List.Forall₂ Stroke.Draws strokes order

/-- Whether the primary and the secondary ones among some strokes draw what is at the given sites. -/
structure CastsRoles (strokes : List Stroke) (primary secondary : List Site) : Prop where
  primary : Depicts (strokes.filter fun s => s.role = some .primary) primary
  secondary : Depicts (strokes.filter fun s => s.role = some .secondary) secondary

theorem Stroke.Draws.within {s : Stroke} {site : Site} (h : s.Draws site) :
    site.column ≤ s.course.leftmost ∧ s.course.leftmost ≤ s.course.rightmost ∧
      s.course.rightmost < site.column + site.node.term.count .variable := by
  obtain ⟨row, column, n⟩ := site
  cases n with
  | var => exact h.elim
  | lam i m x body =>
      obtain ⟨-, hcourse⟩ := h
      have hpos := body.term.count_variable_pos
      rw [hcourse, Node.term, Term.count_variable_lam]
      simp only [Course.leftmost, Course.rightmost]
      omega
  | app i m func arg =>
      obtain ⟨-, -, hleft⟩ := h
      rw [Node.term, Term.count_variable_app]
      dsimp only at hleft ⊢
      omega

theorem Stroke.Draws.row_eq {s : Stroke} {site : Site} (h : s.Draws site) {row first last : Int}
    (hbar : s.course = .bar row first last) : site.row = row := by
  obtain ⟨row', column, n⟩ := site
  cases n with
  | var => exact h.elim
  | lam => exact (Course.bar.inj (h.2.symm.trans hbar)).1
  | app =>
      have helbow := h.2.1
      rw [hbar] at helbow
      cases helbow

variable {strokes strokes' : List Stroke} {sites sites' : List Site}

theorem Depicts.append (h : Depicts strokes sites) (h' : Depicts strokes' sites') :
    Depicts (strokes ++ strokes') (sites ++ sites') := by
  obtain ⟨order, hperm, hdraws⟩ := h
  obtain ⟨order', hperm', hdraws'⟩ := h'
  exact ⟨order ++ order', hperm.append hperm', List.rel_append hdraws hdraws'⟩

theorem Depicts.concat (h : Depicts strokes sites) {s : Stroke} {site : Site} (hs : s.Draws site) :
    Depicts (strokes ++ [s]) (site :: sites) := by
  obtain ⟨order, hperm, hdraws⟩ := h
  refine ⟨order ++ [site], ?_, List.rel_append hdraws (.cons hs .nil)⟩
  exact (List.perm_append_singleton site order).trans (hperm.cons site)

theorem filter_role_eq {role : Option Role} (h : ∀ s ∈ strokes, s.role = role) (part : Role) :
    (strokes.filter fun s => s.role = some part) = if role = some part then strokes else [] := by
  split
  · next hrole =>
      rw [List.filter_eq_self]
      intro s hs
      rw [h s hs, hrole, decide_eq_true_iff]
  · next hrole =>
      rw [List.filter_eq_nil_iff]
      intro s hs
      rwa [h s hs, decide_eq_true_iff]

theorem castsRoles_between {before after : List Stroke} {primary secondary : List Site}
    (hbefore : ∀ s ∈ before, s.role = some .primary) (hstrokes : ∀ s ∈ strokes, s.role = some .secondary)
    (hafter : ∀ s ∈ after, s.role = some .primary) (hprimary : Depicts (before ++ after) primary)
    (hsecondary : Depicts strokes secondary) : CastsRoles (before ++ strokes ++ after) primary secondary := by
  constructor
  · simpa [filter_role_eq hbefore, filter_role_eq hstrokes, filter_role_eq hafter] using hprimary
  · simpa [filter_role_eq hbefore, filter_role_eq hstrokes, filter_role_eq hafter] using hsecondary

theorem CastsRoles.around {primary secondary : List Site} (h : CastsRoles strokes primary secondary)
    {before after : List Stroke} (hbefore : ∀ s ∈ before, s.role = none) (hafter : ∀ s ∈ after, s.role = none) :
    CastsRoles (before ++ strokes ++ after) primary secondary := by
  have hfilter : ∀ part, ((before ++ strokes ++ after).filter fun s => s.role = some part)
      = strokes.filter fun s => s.role = some part := by
    intro part
    rw [List.filter_append, List.filter_append, filter_role_eq hbefore, filter_role_eq hafter,
      if_neg (Option.some_ne_none part).symm, if_neg (Option.some_ne_none part).symm, List.nil_append,
      List.append_nil]
  exact ⟨hfilter .primary ▸ h.primary, hfilter .secondary ▸ h.secondary⟩

end Layout

namespace Node

theorem within_sites {n : Node} {row column : Nat} {site : Site} (h : site ∈ n.sites row column) :
    row ≤ site.row ∧ column ≤ site.column ∧
      site.column + site.node.term.count .variable ≤ column + n.term.count .variable := by
  induction n generalizing row column with
  | var => cases h
  | lam i m x body ih =>
      rcases List.mem_cons.mp h with rfl | h
      · exact ⟨le_rfl, le_rfl, le_rfl⟩
      · have := ih h
        rw [term, Term.count_variable_lam]
        omega
  | app i m func arg ihf iha =>
      rcases List.mem_cons.mp h with rfl | h
      · exact ⟨le_rfl, le_rfl, le_rfl⟩
      · rw [term, Term.count_variable_app]
        rcases List.mem_append.mp h with h | h
        · have := ihf h
          omega
        · have := iha h
          omega

/-- No stroke draws two abstractions or applications of a term. -/
theorem apart_sites (n : Node) (row column : Nat) :
    (n.sites row column).Pairwise fun a b => ∀ s : Stroke, s.Draws a → ¬ s.Draws b := by
  induction n generalizing row column with
  | var => exact .nil
  | lam i m x body ih =>
      refine List.pairwise_cons.mpr ⟨?_, ih (row + 1) column⟩
      intro b hb s hs hs'
      -- the root has the first row for itself
      have hrow := hs'.row_eq hs.2
      have := within_sites hb
      dsimp only at hrow
      omega
  | app i m func arg ihf iha =>
      refine List.pairwise_cons.mpr ⟨?_, List.pairwise_append.mpr ⟨ihf row column, iha row _, ?_⟩⟩
      · -- the elbow of the root has one end in the columns of each part
        rintro b hb s ⟨-, -, -, hleft, hright, -⟩ hs'
        have := hs'.within
        dsimp only at hleft hright
        rcases List.mem_append.mp hb with hb | hb
        · have := within_sites hb
          omega
        · have := within_sites hb
          omega
      · intro a ha b hb s hs hs'
        have := hs.within
        have := hs'.within
        have := within_sites ha
        have := within_sites hb
        omega

variable (target : Option Int) (owes : Owes) (row column : Nat) (scope : List (String × Binding))
  (tag : Option String) (role : Option Role)

theorem columns_sketch (n : Node) :
    let d := n.sketch target owes row column scope tag role
    d.right = column + n.term.count .variable ∧ column ≤ d.hook.2 ∧ d.hook.2 < d.right := by
  induction n generalizing owes row column scope tag role with
  | var i m x =>
      simp only [sketch, term, Term.count_var]
      split <;> simp
  | lam i m x body ih =>
      obtain ⟨hright, hhook⟩ := ih owes (row + 1) column ((x, ⟨row, inheritTag m.tag tag⟩) :: scope)
        (inheritTag m.tag tag) role
      rw [term, Term.count_variable_lam]
      exact ⟨hright, hhook⟩
  | app i m func arg ihf iha =>
      intro d
      have hfunc := ihf .right row column scope (inheritTag m.tag tag)
        (if target = some i then some .primary else role)
      have harg := iha .left row (func.sketch target .right row column scope (inheritTag m.tag tag)
          (if target = some i then some .primary else role)).right scope (inheritTag m.tag tag)
        (if target = some i then some .secondary else role)
      rw [term, Term.count_variable_app]
      by_cases howes : owes = .right
      · simp only [d, sketch, if_pos howes]
        omega
      · simp only [d, sketch, if_neg howes]
        omega

theorem strokes_app (i : Int) (m : Mark) (func arg : Node) :
    let tag' := inheritTag m.tag tag
    let own := if target = some i then some .primary else role
    let left := func.sketch target .right row column scope tag' own
    let right := arg.sketch target .left row (column + func.term.count .variable) scope tag'
      (if target = some i then some .secondary else role)
    ∃ e : Stroke, e.role = own ∧ e.Draws ⟨row, column, app i m func arg⟩ ∧
      ((app i m func arg).sketch target owes row column scope tag role).strokes
        = left.strokes ++ right.strokes ++ [e] := by
  intro tag' own left right
  obtain ⟨hleft, hleft'⟩ : left.right = column + func.term.count .variable ∧ column ≤ left.hook.2 ∧
      left.hook.2 < left.right := func.columns_sketch ..
  have hright : right.right = column + func.term.count .variable + arg.term.count .variable ∧
      column + func.term.count .variable ≤ right.hook.2 ∧ right.hook.2 < right.right := arg.columns_sketch ..
  refine ⟨⟨elbow owes (max left.bottom right.bottom) left.hook right.hook, tag', none, own⟩, rfl, ?_, ?_⟩
  · refine ⟨rfl, isElbow_elbow _ _ _ _, ?_⟩
    simp only [leftmost_elbow, rightmost_elbow]
    omega
  · simp only [sketch, right, ← hleft]
    rfl

/-- The strokes of a term draw its abstractions and applications, unless all there is to draw is the wire of a
variable and the bars above it. -/
theorem depicts_sketch {n : Node} {owes : Owes} (h : owes ≠ .nothing ∨ n.term.count .application ≠ 0) :
    Depicts (n.sketch target owes row column scope tag role).strokes (n.sites row column) := by
  induction n generalizing owes row column scope tag role with
  | var i m x =>
      have howes : owes ≠ .nothing := by simpa [term, Term.count_var] using h
      rw [sketch, if_neg howes]
      exact ⟨[], .nil, .nil⟩
  | lam i m x body ih =>
      have hbody : owes ≠ .nothing ∨ body.term.count .application ≠ 0 := by
        simpa [term, Term.count_lam] using h
      obtain ⟨hright, -⟩ := body.columns_sketch target owes (row + 1) column
        ((x, ⟨row, inheritTag m.tag tag⟩) :: scope) (inheritTag m.tag tag) role
      apply (ih (row + 1) column _ _ _ hbody).concat
      refine ⟨rfl, ?_⟩
      dsimp only
      rw [hright]
      push_cast
      rfl
  | app i m func arg ihf iha =>
      obtain ⟨e, -, he, hstrokes⟩ := strokes_app target owes row column scope tag role i m func arg
      rw [hstrokes]
      apply Depicts.concat _ he
      exact (ihf row column _ _ _ (.inl (by decide))).append (iha row _ _ _ _ (.inl (by decide)))

/-- Without the identity in a term, its strokes have the role of the surroundings. -/
theorem role_sketch {n : Node} {target : Option Int} (h : ∀ id ∈ n.ids, target ≠ some id) :
    ∀ s ∈ (n.sketch target owes row column scope tag role).strokes, s.role = role := by
  induction n generalizing owes row column scope tag with
  | var i m x =>
      rw [sketch]
      split
      · exact List.forall_mem_singleton.mpr rfl
      · exact List.forall_mem_nil _
  | lam i m x body ih =>
      have hbody := (List.forall_mem_cons.mp h).2
      exact List.forall_mem_append.mpr ⟨ih _ _ _ _ _ hbody, List.forall_mem_singleton.mpr rfl⟩
  | app i m func arg ihf iha =>
      obtain ⟨hroot, hparts⟩ := List.forall_mem_cons.mp h
      obtain ⟨hfunc, harg⟩ := List.forall_mem_append.mp hparts
      simp only [sketch, if_neg hroot]
      refine List.forall_mem_append.mpr ⟨List.forall_mem_append.mpr ⟨?_, ?_⟩, List.forall_mem_singleton.mpr rfl⟩
      · exact ihf _ _ _ _ _ hfunc
      · exact iha _ _ _ _ _ harg

/-- Where the identity belongs to an application, the strokes of it and its function are primary, those of its
argument secondary, and the others neither. -/
theorem castsRoles_sketch {n f a : Node} {id : Int} {m : Mark} (hids : n.ids.Nodup)
    (hr : app id m f a ∈ n.nodes) :
    ∃ site ∈ n.sites row column, site.node = app id m f a ∧
      CastsRoles (n.sketch (some id) owes row column scope tag none).strokes
        (site :: f.sites site.row site.column)
        (a.sites site.row (site.column + f.term.count .variable)) := by
  induction n generalizing owes row column scope tag with
  | var => simp [nodes] at hr
  | lam i m' x body ih =>
      have hbody : app id m f a ∈ body.nodes := by simpa [nodes] using hr
      obtain ⟨site, hsite, hnode, hroles⟩ := ih owes (row + 1) column
        ((x, ⟨row, inheritTag m'.tag tag⟩) :: scope) (inheritTag m'.tag tag) (List.nodup_cons.mp hids).2 hbody
      refine ⟨site, List.mem_cons_of_mem _ hsite, hnode, ?_⟩
      exact hroles.around (List.forall_mem_nil _) (List.forall_mem_singleton.mpr rfl)
  | app i m' func arg ihf iha =>
      obtain ⟨e, hrole, he, hstrokes⟩ := strokes_app (some id) owes row column scope tag none i m' func arg
      rw [hstrokes]
      rcases mem_nodes_app_cases hids hr with hr | ⟨hr, hfids, hne, harg⟩ | ⟨hr, haids, hne, hfunc⟩
      · -- the redex is the root, so each of its parts has one role
        obtain ⟨rfl, rfl, rfl, rfl⟩ := Node.app.inj hr
        obtain ⟨hfunc, harg, -⟩ := nodup_ids_app hids
        rw [if_pos rfl] at hrole
        have hleft := f.role_sketch .right row column scope (inheritTag m.tag tag) (some .primary)
          (some_ne_of_notMem hfunc)
        have hright := a.role_sketch .left row (column + f.term.count .variable) scope (inheritTag m.tag tag)
          (some .secondary) (some_ne_of_notMem harg)
        rw [if_pos rfl, if_pos rfl]
        refine ⟨_, List.mem_cons_self, rfl, ?_⟩
        apply castsRoles_between hleft hright (List.forall_mem_singleton.mpr hrole)
        · exact (depicts_sketch _ _ _ _ _ _ (.inl (by decide))).concat he
        · exact depicts_sketch _ _ _ _ _ _ (.inl (by decide))
      · have hother : some id ≠ some i := mt Option.some.inj hne
        rw [if_neg hother] at hrole
        rw [if_neg hother, if_neg hother, List.append_assoc]
        obtain ⟨site, hsite, hnode, hroles⟩ := ihf .right row column scope (inheritTag m'.tag tag) hfids hr
        refine ⟨site, List.mem_cons_of_mem _ (List.mem_append_left _ hsite), hnode, ?_⟩
        refine hroles.around (List.forall_mem_nil _) (List.forall_mem_append.mpr ⟨?_, ?_⟩)
        · exact role_sketch _ _ _ _ _ _ (some_ne_of_notMem harg)
        · exact List.forall_mem_singleton.mpr hrole
      · have hother : some id ≠ some i := mt Option.some.inj hne
        rw [if_neg hother] at hrole
        rw [if_neg hother, if_neg hother]
        obtain ⟨site, hsite, hnode, hroles⟩ := iha .left row (column + func.term.count .variable) scope
          (inheritTag m'.tag tag) haids hr
        refine ⟨site, List.mem_cons_of_mem _ (List.mem_append_right _ hsite), hnode, ?_⟩
        refine hroles.around ?_ (List.forall_mem_singleton.mpr hrole)
        exact role_sketch _ _ _ _ _ _ (some_ne_of_notMem hfunc)

end Node
end LambdaStepper
