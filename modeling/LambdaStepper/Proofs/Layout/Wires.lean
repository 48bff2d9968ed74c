import LambdaStepper.Proofs.Layout.Faithful

/-! # Legs and runs

The vertical parts of a course are its legs, the wires of variables; the horizontal part is its run.

A drawing is tidy (`tidy_outline`): all its legs go down and end above its last row, its runs lie between its
first row and its last, and the column of the leg it owes is under none of its elbows.  So nothing that is
drawn later in that column can meet an elbow that is there already.  Hence no two runs of a drawing meet
(`pairwise_apart_outline`), and a leg between the columns of an elbow ends above its run (`clear_outline`). -/

namespace LambdaStepper.Layout

/-! ### Legs and runs -/

/-- A vertical part of a course, from the row where it is begun to the row where it is left. -/
structure Leg where
  column : Int
  start : Int
  stop : Int
  deriving DecidableEq, Repr

namespace Leg

/-- The upper end of a leg. -/
def top (l : Leg) : Int :=
  min l.start l.stop

/-- The lower end of a leg. -/
def bottom (l : Leg) : Int :=
  max l.start l.stop

end Leg

namespace Course

/-- The legs of a course: the parts of it that are the wire of a variable. -/
def legs : Course → List Leg
  | .bar .. => []
  | .wire top bottom column => [⟨column, top, bottom⟩]
  | .forward top bottom left _ => [⟨left, top, bottom⟩]
  | .backward top bottom _ right => [⟨right, bottom, top⟩]
  | .joint top bottom back left right => [⟨left, top, bottom⟩, ⟨right, bottom, back⟩]

/-- The row along which a course runs. -/
def run? : Course → Option Int
  | .bar row _ _ => some row
  | .wire .. => none
  | .forward _ bottom _ _ | .backward _ bottom _ _ | .joint _ bottom _ _ _ => some bottom

/-- A course that goes down its legs and runs to the right. -/
structure Proper (c : Course) : Prop where
  legs : ∀ l ∈ c.legs, l.top < l.bottom
  ordered : c.leftmost ≤ c.rightmost
  elbow : c.isElbow = true → c.leftmost < c.rightmost

end Course

@[simp] theorem run?_elbow (owes : Owes) (bottom : Nat) (left right : Nat × Nat) :
    (elbow owes bottom left right).run? = some (bottom : Int) := by
  cases owes <;> rfl

theorem mem_legs_elbow {owes : Owes} {bottom : Nat} {left right : Nat × Nat} (hleft : left.1 < bottom)
    (hright : right.1 < bottom) {l : Leg} (h : l ∈ (elbow owes bottom left right).legs) :
    (l.column = left.2 ∧ l.top = left.1 ∨ l.column = right.2 ∧ l.top = right.1) ∧ l.bottom = bottom := by
  have hl : l = ⟨left.2, left.1, bottom⟩ ∨ l = ⟨right.2, bottom, right.1⟩ := by
    cases owes <;> simp only [elbow, Course.legs, List.mem_cons, List.not_mem_nil, or_false] at h
    · exact h
    · exact .inr h
    · exact .inl h
  rcases hl with rfl | rfl
  · refine ⟨.inl ⟨rfl, ?_⟩, ?_⟩ <;> simp only [Leg.top, Leg.bottom] <;> omega
  · refine ⟨.inr ⟨rfl, ?_⟩, ?_⟩ <;> simp only [Leg.top, Leg.bottom] <;> omega

theorem proper_elbow {owes : Owes} {bottom : Nat} {left right : Nat × Nat} (hleft : left.1 < bottom)
    (hright : right.1 < bottom) (hlt : left.2 < right.2) : (elbow owes bottom left right).Proper := by
  refine ⟨?_, ?_, ?_⟩
  · intro l hl
    have := mem_legs_elbow hleft hright hl
    omega
  · rw [leftmost_elbow, rightmost_elbow]
    omega
  · intro _
    rw [leftmost_elbow, rightmost_elbow]
    omega

theorem proper_bar {row first last : Int} (h : first ≤ last) : (Course.bar row first last).Proper where
  legs := by simp [Course.legs]
  ordered := h
  elbow := by simp [Course.isElbow]

/-! ### Tidy drawings -/

/-- Whether a column lies strictly between the two columns of an elbow. -/
def Course.Bridges (c : Course) (column : Int) : Prop :=
  c.isElbow = true ∧ c.leftmost < column ∧ column < c.rightmost

@[simp] theorem not_bridges_bar (row first last column : Int) :
    ¬ (Course.bar row first last).Bridges column := by
  simp [Course.Bridges, Course.isElbow]

@[simp] theorem not_bridges_wire (top bottom wire column : Int) :
    ¬ (Course.wire top bottom wire).Bridges column := by
  simp [Course.Bridges, Course.isElbow]

/-- The outline of an abstraction, from that of its body. -/
def Outline.barred (row column : Nat) (o : Outline) : Outline :=
  { o with courses := o.courses ++ [.bar row column ((o.right : Int) - 1)] }

/-- The outline of an application, from those of its parts. -/
def Outline.joined (owes : Owes) (left right : Outline) : Outline :=
  ⟨max left.bottom right.bottom + 1, right.right, if owes = .right then right.hook else left.hook,
    left.courses ++ right.courses ++ [elbow owes (max left.bottom right.bottom) left.hook right.hook]⟩

theorem outline_lam (owes : Owes) (row column : Nat) (rows : List Nat) (body : Nameless) :
    body.lam.outline owes row column rows
      = (body.outline owes (row + 1) column (row :: rows)).barred row column :=
  rfl

theorem outline_app (owes : Owes) (row column : Nat) (rows : List Nat) (func arg : Nameless) :
    (func.app arg).outline owes row column rows
      = .joined owes (func.outline .right row column rows)
          (arg.outline .left row (func.outline .right row column rows).right rows) :=
  rfl

/-- What can be said of the rows of a drawing that begins in the given row. -/
structure Outline.Tidy (o : Outline) (row : Nat) : Prop where
  row_le : row ≤ o.bottom
  hook_lt : o.hook.1 < o.bottom
  proper : ∀ c ∈ o.courses, c.Proper
  legs : ∀ c ∈ o.courses, ∀ l ∈ c.legs, l.bottom < o.bottom
  runs : ∀ c ∈ o.courses, ∀ i ∈ c.run?, row ≤ i ∧ i < o.bottom
  /-- No elbow bridges the column of the owed wire. -/
  bridges : ∀ c ∈ o.courses, ¬ c.Bridges o.hook.2

variable (owes : Owes) {row : Nat} (column : Nat) {rows : List Nat}

theorem tidy_wireOutline {top : Nat} (h : top < row) :
    (wireOutline owes top row column).Tidy row := by
  unfold wireOutline
  split
  · refine ⟨Nat.le_succ row, Nat.lt_succ_of_lt h, ?_, ?_, ?_, ?_⟩ <;>
      rw [List.forall_mem_singleton]
    · refine ⟨?_, le_refl _, by simp [Course.isElbow]⟩
      simp only [Course.legs, List.forall_mem_singleton, Leg.top, Leg.bottom]
      omega
    · simp only [Course.legs, List.forall_mem_singleton, Leg.bottom]
      omega
    · simp [Course.run?]
    · exact not_bridges_wire _ _ _ _
  · exact ⟨le_refl row, h, by simp, by simp, by simp, by simp⟩

theorem rows_lt_nil (row : Nat) : ∀ top ∈ ([] : List Nat), top < row :=
  List.forall_mem_nil _

theorem rows_lt_of_cons (habove : ∀ top ∈ rows, top < row) : ∀ top ∈ row :: rows, top < row + 1 := by
  intro top htop
  rcases List.mem_cons.mp htop with rfl | htop
  · exact Nat.lt_succ_self top
  · exact Nat.lt_succ_of_lt (habove top htop)

theorem Outline.Tidy.barred {o : Outline} (h : o.Tidy (row + 1)) (hwithin : o.Within column) :
    (o.barred row column).Tidy row := by
  have hlt := hwithin.column_lt
  obtain ⟨hrow, hhook, hproper, hlegs, hruns, hbridges⟩ := h
  refine ⟨Nat.le_of_succ_le hrow, hhook, ?_, ?_, ?_, ?_⟩ <;> unfold Outline.barred <;>
    rw [List.forall_mem_append]
  · exact ⟨hproper, List.forall_mem_singleton.mpr (proper_bar (by omega))⟩
  · exact ⟨hlegs, by simp [Course.legs]⟩
  · refine ⟨fun c hc i hi => ?_, List.forall_mem_singleton.mpr fun i hi => ?_⟩
    · have := hruns c hc i hi
      dsimp only
      omega
    · obtain rfl := Option.some.inj hi
      dsimp only
      omega
  · exact ⟨hbridges, List.forall_mem_singleton.mpr (not_bridges_bar _ _ _ _)⟩

variable {left right : Outline}

/-- The owed wire of an application is that of one part, in whose columns the other has no elbow. -/
theorem not_bridges_joined (hl : left.Tidy row) (hr : right.Tidy row) (hl' : left.Within column)
    (hr' : right.Within left.right) :
    ∀ c ∈ (Outline.joined owes left right).courses, ¬ c.Bridges (Outline.joined owes left right).hook.2 := by
  simp only [Outline.joined, List.forall_mem_append, List.forall_mem_singleton]
  refine ⟨⟨fun c hc hbridges => ?_, fun c hc hbridges => ?_⟩, ?_⟩
  · split at hbridges
    · have := (hl'.courses c hc).2.2
      have := hbridges.2.2
      have := hr'.hook_ge
      omega
    · exact hl.bridges c hc hbridges
  · split at hbridges
    · exact hr.bridges c hc hbridges
    · have := (hr'.courses c hc).1
      have := hbridges.2.1
      have := hl'.hook_lt
      omega
  · rintro ⟨-, hafter, hbefore⟩
    rw [leftmost_elbow] at hafter
    rw [rightmost_elbow] at hbefore
    split at hbefore <;> simp_all

theorem Outline.Tidy.joined (hl : left.Tidy row) (hr : right.Tidy row) (hl' : left.Within column)
    (hr' : right.Within left.right) : (Outline.joined owes left right).Tidy row := by
  -- the hooks of both parts are above the run, and in two columns
  have hleft : left.hook.1 < max left.bottom right.bottom := lt_max_of_lt_left hl.hook_lt
  have hright : right.hook.1 < max left.bottom right.bottom := lt_max_of_lt_right hr.hook_lt
  have hhooks : left.hook.2 < right.hook.2 := lt_of_lt_of_le hl'.hook_lt hr'.hook_ge
  refine ⟨?_, ?_, ?_, ?_, ?_, not_bridges_joined owes column hl hr hl' hr'⟩ <;>
    simp only [Outline.joined, List.forall_mem_append, List.forall_mem_singleton]
  · have := hl.row_le
    omega
  · split <;> omega
  · exact ⟨⟨hl.proper, hr.proper⟩, proper_elbow hleft hright hhooks⟩
  · refine ⟨⟨fun c hc l hmem => ?_, fun c hc l hmem => ?_⟩, fun l hmem => ?_⟩
    · have := hl.legs c hc l hmem
      omega
    · have := hr.legs c hc l hmem
      omega
    · have := mem_legs_elbow hleft hright hmem
      omega
  · simp only [run?_elbow]
    refine ⟨⟨fun c hc i hi => ?_, fun c hc i hi => ?_⟩, fun i hi => ?_⟩
    · have := hl.runs c hc i hi
      omega
    · have := hr.runs c hc i hi
      omega
    · obtain rfl := Option.some.inj hi
      have := hl.row_le
      omega

/-- Below the bars of its binders a drawing is tidy. -/
theorem tidy_outline {t : Nameless} (habove : ∀ top ∈ rows, top < row)
    (ht : Drawable rows.length t) : (t.outline owes row column rows).Tidy row := by
  induction t generalizing owes row column rows with
  | bound i =>
      have hi : i < rows.length := ht.indices
      apply tidy_wireOutline owes column
      rw [List.getD_eq_getElem _ _ hi]
      exact habove _ (List.getElem_mem hi)
  | free => cases ht.closed
  | lam body ih =>
      rw [outline_lam]
      exact (ih owes column (rows_lt_of_cons habove) ht.body).barred column
        (within_columns owes (row + 1) column (row :: rows) body)
  | app func arg ihf iha =>
      rw [outline_app]
      exact (ihf .right column habove ht.func).joined owes column (iha .left _ habove ht.arg)
        (within_columns .right row column rows func) (within_columns .left row _ rows arg)

/-! ### Runs and elbows -/

/-- Courses that run along the same row have no column in common. -/
def Course.Apart (c d : Course) : Prop :=
  ∀ i ∈ c.run?, i ∈ d.run? → c.rightmost < d.leftmost ∨ d.rightmost < c.leftmost

theorem apart_of_run_lt {c d : Course} (h : ∀ i ∈ c.run?, ∀ j ∈ d.run?, i < j ∨ j < i) : c.Apart d := by
  intro i hi hj
  have := h i hi i hj
  omega

/-- No two runs of a drawing meet. -/
theorem pairwise_apart_outline {t : Nameless} (habove : ∀ top ∈ rows, top < row)
    (ht : Drawable rows.length t) : (t.outline owes row column rows).courses.Pairwise Course.Apart := by
  induction t generalizing owes row column rows with
  | bound | free =>
      simp only [Nameless.outline, wireOutline]
      split
      · exact List.pairwise_singleton _ _
      · exact List.Pairwise.nil
  | lam body ih =>
      have habove' := rows_lt_of_cons habove
      have htidy := tidy_outline owes column habove' ht.body
      refine List.pairwise_append.mpr ⟨ih owes column habove' ht.body, List.pairwise_singleton _ _, ?_⟩
      intro c hc d hd
      obtain rfl := List.mem_singleton.mp hd
      -- everything inside runs below the bar
      apply apart_of_run_lt
      intro i hi j hj
      obtain rfl := Option.some.inj hj
      have := htidy.runs c hc i hi
      omega
  | app func arg ihf iha =>
      have hl := tidy_outline .right column habove ht.func
      have hr := tidy_outline .left (func.outline .right row column rows).right habove ht.arg
      have hl' := within_columns .right row column rows func
      have hr' := within_columns .left row (func.outline .right row column rows).right rows arg
      simp only [outline_app, Outline.joined, List.pairwise_append]
      refine ⟨⟨ihf .right column habove ht.func, iha .left _ habove ht.arg, ?_⟩, List.pairwise_singleton _ _, ?_⟩
      · intro c hc d hd i _ _
        have := (hl'.courses c hc).2.2
        have := (hr'.courses d hd).1
        omega
      · intro c hc d hd
        obtain rfl := List.mem_singleton.mp hd
        -- both parts run above the elbow
        apply apart_of_run_lt
        intro i hi j hj
        rw [run?_elbow] at hj
        obtain rfl := Option.some.inj hj
        rcases List.mem_append.mp hc with hc | hc
        · have := hl.runs c hc i hi
          omega
        · have := hr.runs c hc i hi
          omega

/-- The legs of a drawing. -/
def legsOf (courses : List Course) : List Leg :=
  courses.flatMap Course.legs

theorem column_of_mem_legs {c : Course} {l : Leg} (h : l ∈ c.legs) :
    l.column = c.leftmost ∨ l.column = c.rightmost := by
  cases c <;> simp only [Course.legs, List.mem_cons, List.not_mem_nil, or_false] at h
  · exact .inl (h ▸ rfl)
  · exact .inl (h ▸ rfl)
  · exact .inr (h ▸ rfl)
  · rcases h with rfl | rfl
    · exact .inl rfl
    · exact .inr rfl

theorem mem_legsOf_append {cs ds : List Course} {l : Leg} :
    l ∈ legsOf (cs ++ ds) ↔ l ∈ legsOf cs ∨ l ∈ legsOf ds := by
  rw [legsOf, List.flatMap_append, List.mem_append]
  rfl

theorem mem_legsOf_singleton {c : Course} {l : Leg} : l ∈ legsOf [c] ↔ l ∈ c.legs := by
  rw [legsOf, List.flatMap_singleton]

theorem Outline.Tidy.leg {o : Outline} (h : o.Tidy row) {l : Leg} (hl : l ∈ legsOf o.courses) :
    l.bottom < o.bottom := by
  obtain ⟨c, hc, hl⟩ := List.mem_flatMap.mp hl
  exact h.legs c hc l hl

theorem Outline.Within.leg {o : Outline} {column : Nat} (h : o.Within column) {l : Leg}
    (hl : l ∈ legsOf o.courses) : column ≤ l.column ∧ l.column < o.right := by
  obtain ⟨c, hc, hl⟩ := List.mem_flatMap.mp hl
  have := h.courses c hc
  rcases column_of_mem_legs hl with h | h <;> omega

/-- The legs that an elbow of the drawing bridges end above its run. -/
def Outline.Clear (o : Outline) : Prop :=
  ∀ c ∈ o.courses, ∀ l ∈ legsOf o.courses, c.Bridges l.column → ∀ i ∈ c.run?, l.bottom < i

theorem Outline.Clear.barred {o : Outline} (h : o.Clear) : (o.barred row column).Clear := by
  intro c hc l hl hbridges
  rcases List.mem_append.mp hc with hc | hc
  · rcases mem_legsOf_append.mp hl with hl | hl
    · exact h c hc l hl hbridges
    · cases hl
  · obtain rfl := List.mem_singleton.mp hc
    exact absurd hbridges (not_bridges_bar _ _ _ _)

theorem Outline.Clear.joined (hleft : left.Clear) (hright : right.Clear) (hl : left.Tidy row)
    (hr : right.Tidy row) (hl' : left.Within column) (hr' : right.Within left.right) :
    (Outline.joined owes left right).Clear := by
  intro c hc l hmem hbridges i hi
  -- a leg of the elbow is the owed wire of one part
  have hleg : l ∈ (elbow owes (max left.bottom right.bottom) left.hook right.hook).legs →
      l.column = left.hook.2 ∨ l.column = right.hook.2 := by
    intro hmem
    have := mem_legs_elbow (lt_max_of_lt_left hl.hook_lt) (lt_max_of_lt_right hr.hook_lt) hmem
    omega
  simp only [Outline.joined, List.mem_append, List.mem_singleton, mem_legsOf_append, mem_legsOf_singleton]
    at hc hmem
  rcases hc with (hc | hc) | rfl
  · have hcolumns := hl'.courses c hc
    have hbefore := hbridges.2.2
    rcases hmem with (hmem | hmem) | hmem
    · exact hleft c hc l hmem hbridges i hi
    · have := hr'.leg hmem
      omega
    · rcases hleg hmem with h | h
      · exact absurd (h ▸ hbridges) (hl.bridges c hc)
      · have := hr'.hook_ge
        omega
  · have hcolumns := hr'.courses c hc
    have hafter := hbridges.2.1
    rcases hmem with (hmem | hmem) | hmem
    · have := hl'.leg hmem
      omega
    · exact hright c hc l hmem hbridges i hi
    · rcases hleg hmem with h | h
      · have := hl'.hook_lt
        omega
      · exact absurd (h ▸ hbridges) (hr.bridges c hc)
  · -- the elbow itself runs below everything
    rw [run?_elbow] at hi
    obtain rfl := Option.some.inj hi
    rcases hmem with (hmem | hmem) | hmem
    · have := hl.leg hmem
      omega
    · have := hr.leg hmem
      omega
    · obtain ⟨-, hafter, hbefore⟩ := hbridges
      rw [leftmost_elbow] at hafter
      rw [rightmost_elbow] at hbefore
      have := hl'.hook_lt
      have := hr'.hook_ge
      rcases hleg hmem with h | h <;> omega

/-- A leg that an elbow bridges ends above its run. -/
theorem clear_outline {t : Nameless} (habove : ∀ top ∈ rows, top < row)
    (ht : Drawable rows.length t) : (t.outline owes row column rows).Clear := by
  induction t generalizing owes row column rows with
  | bound | free =>
      intro c hc l _ hbridges
      simp only [Nameless.outline, wireOutline] at hc
      split at hc
      · obtain rfl := List.mem_singleton.mp hc
        exact absurd hbridges (not_bridges_wire _ _ _ _)
      · cases hc
  | lam body ih =>
      rw [outline_lam]
      exact (ih owes column (rows_lt_of_cons habove) ht.body).barred column
  | app func arg ihf iha =>
      rw [outline_app]
      exact (ihf .right column habove ht.func).joined owes column (iha .left _ habove ht.arg)
        (tidy_outline .right column habove ht.func) (tidy_outline .left _ habove ht.arg)
        (within_columns .right row column rows func) (within_columns .left row _ rows arg)

end LambdaStepper.Layout
