import LambdaStepper.Proofs.Syntax.Spelling
import LambdaStepper.Proofs.Term.Scope
import LambdaStepper.Term.Print
import Mathlib.Data.List.Nodup

/-! # Canonical printing and alpha-equivalence

Printed with canonical names and without tags, a term shows its nameless form and nothing else:
`Nameless.text` prints the nameless form to the same text (`printFrom_structural`), so alpha-equivalent
terms print alike.

The other way round, a nameless form can be read off the text it starts (`text_append_injective`).  What
tells the forms apart is the first character: a name starts with a character of names, a compound term in
parentheses with `(`, an abstraction with `λ`.  A name ends before the first character that no name holds,
and a name of a binder, which starts with `@`, is no identifier. -/

namespace LambdaStepper

open Syntax

/-! ### Canonical names -/

namespace Term

theorem canonicalName_toList (n : Nat) :
    (canonicalName n).toList
      = '@' :: if n < 26 then [Char.ofNat (97 + n)] else (toString n).toList := by
  unfold canonicalName
  split <;> simp [String.toList_append]

theorem letter_of_lt : ∀ n < 26, isWordChar (Char.ofNat (97 + n)) = true
    ∧ (Char.ofNat (97 + n)).isDigit = false ∧ (Char.ofNat (97 + n)).toNat = 97 + n := by
  decide

theorem canonicalName_injective {m n : Nat} (h : canonicalName m = canonicalName n) : m = n := by
  have hl := congrArg String.toList h
  rw [canonicalName_toList, canonicalName_toList, List.cons.injEq] at hl
  -- a letter is no digit, so both names are of the same kind
  have hmixed {i j : Nat} (hi : i < 26) (hij : [Char.ofNat (97 + i)] = (toString j).toList) :
      False := by
    have hdigit := isDigit_of_mem_toString (n := j) (hij ▸ List.mem_singleton_self _)
    rw [(letter_of_lt i hi).2.1] at hdigit
    cases hdigit
  by_cases hm : m < 26 <;> by_cases hn : n < 26
  · rw [if_pos hm, if_pos hn, List.singleton_inj] at hl
    have hnat := congrArg Char.toNat hl.2
    rw [(letter_of_lt m hm).2.2, (letter_of_lt n hn).2.2] at hnat
    omega
  · rw [if_pos hm, if_neg hn] at hl
    exact (hmixed hm hl.2).elim
  · rw [if_neg hm, if_pos hn] at hl
    exact (hmixed hn hl.2.symm).elim
  · rw [if_neg hm, if_neg hn] at hl
    exact Freshener.toString_injective (String.toList_inj.mp hl.2)

end Term

/-! ### The text of a nameless term -/

namespace Nameless

/-- The number of abstractions. -/
def binders : Nameless → Nat
  | .bound _ | .free _ => 0
  | .lam body => body.binders + 1
  | .app func arg => func.binders + arg.binders

/-- Whether a term is no variable, and so takes parentheses as a function or an argument. -/
def isCompound : Nameless → Bool
  | .bound _ | .free _ => false
  | .lam _ | .app .. => true

/-- The text of a term put in parentheses unless the term is a variable. -/
def enclosed (t : Nameless) (cs : List Char) : List Char :=
  if t.isCompound then '(' :: cs ++ [')'] else cs

/-- The canonical text of a nameless term inside binders with the given printed names, the innermost
first, when `counter` binders have been named so far. -/
def text (names : List String) (counter : Nat) : Nameless → List Char
  | .bound i => (names.getD i "").toList
  | .free x => x.toList
  | .lam body =>
    'λ' :: (Term.canonicalName counter).toList
      ++ '.' :: body.text (Term.canonicalName counter :: names) (counter + 1)
  | .app func arg =>
    func.enclosed (func.text names counter)
      ++ ' ' :: arg.enclosed (arg.text names (counter + func.binders))

end Nameless

namespace Term

theorem bracket_eq (t : Term) (context : PrintContext) (scope : List String) (cs : List Char) :
    bracket t context cs
      = if context = .func ∨ context = .arg then (t.namelessIn scope).enclosed cs else cs := by
  cases t with
  | var m x => cases hx : scope.idxOf? x <;> cases context <;>
      simp [bracket, needsParentheses, namelessIn, Nameless.enclosed, Nameless.isCompound, hx]
  | lam | app => cases context <;>
      simp [bracket, needsParentheses, namelessIn, Nameless.enclosed, Nameless.isCompound]

/-- The canonical text of a term without its tags is that of its nameless form. -/
theorem printFrom_structural (t : Term) (scope : List (String × String)) (counter : Nat)
    (context : PrintContext) :
    printFrom .structural scope counter context t
      = (bracket t context ((t.namelessIn (scope.map Prod.fst)).text (scope.map Prod.snd) counter),
          counter + (t.namelessIn (scope.map Prod.fst)).binders) := by
  induction t generalizing scope counter context with
  | var m x =>
      simp only [printFrom, atomText?, PrintStyle.structural, Bool.false_and, Bool.false_eq_true,
        if_false, namelessIn, lookup_eq_bind_idxOf?]
      cases hx : (scope.map Prod.fst).idxOf? x with
      | none => rfl
      | some i =>
          obtain ⟨hi, -⟩ := List.idxOf?_eq_some_iff.mp hx
          rw [List.length_map] at hi
          simp [Nameless.text, Nameless.binders, hi]
  | lam m x body ih =>
      have h := ih ((x, canonicalName counter) :: scope) (counter + 1) .body
      simp only [printFrom, atomText?, PrintStyle.structural, Bool.false_and, Bool.false_eq_true,
        if_false, if_true] at h ⊢
      rw [h]
      simp only [bracket_eq body .body (x :: scope.map Prod.fst), namelessIn, Nameless.text,
        Nameless.binders, List.map_cons, reduceCtorEq, or_self, if_false, Prod.mk.injEq, true_and]
      omega
  | app m func arg ihf iha =>
      simp only [printFrom, atomText?, PrintStyle.structural, Bool.false_and, Bool.false_eq_true,
        if_false] at ihf iha ⊢
      rw [ihf, iha]
      simp only [bracket_eq func .func (scope.map Prod.fst), bracket_eq arg .arg (scope.map Prod.fst),
        namelessIn, Nameless.text, Nameless.binders, true_or, or_true, if_true, Prod.mk.injEq,
        true_and]
      omega

theorem print_structural (t : Term) :
    t.print .structural .top = String.ofList (t.nameless.text [] 0) := by
  unfold print
  rw [printFrom_structural, bracket_eq t .top []]
  rfl

end Term

/-! ### Reading a nameless term off its text -/

/-- Whether a character may stand in a printed name, which is an identifier or a canonical name. -/
def isNameChar (c : Char) : Bool :=
  isWordChar c || c = '@'

/-- Whether a printed name ends before the given text. -/
def stopsName : List Char → Bool
  | [] => true
  | c :: _ => !isNameChar c

/-- Whether a printed term ends before the given text when it is not in parentheses itself. -/
def stopsTerm : List Char → Bool
  | [] => true
  | c :: _ => c = ')'

theorem stopsName_of_stopsTerm {cs : List Char} (h : stopsTerm cs = true) : stopsName cs = true := by
  cases cs with
  | nil => rfl
  | cons c cs =>
      obtain rfl : c = ')' := of_decide_eq_true h
      rfl

/-- A text that is a printed name. -/
structure IsPrintedName (cs : List Char) : Prop where
  ne_nil : cs ≠ []
  all : ∀ c ∈ cs, isNameChar c = true

namespace IsPrintedName

theorem of_isIdentifier {cs : List Char} (h : isIdentifier cs = true) : IsPrintedName cs := by
  refine ⟨?_, ?_⟩
  · rintro rfl
    cases h
  intro c hc
  simp [isNameChar, chars_of_isIdentifier h c hc]

theorem canonicalName (n : Nat) : IsPrintedName (Term.canonicalName n).toList := by
  rw [Term.canonicalName_toList]
  refine ⟨List.cons_ne_nil _ _, List.forall_mem_cons.mpr ⟨rfl, ?_⟩⟩
  intro c hc
  split at hc
  · next hn =>
    rw [List.mem_singleton] at hc
    simp [isNameChar, hc, (Term.letter_of_lt n hn).1]
  · simp [isNameChar, isWordChar_of_isDigit (isDigit_of_mem_toString hc)]

theorem exists_cons {cs : List Char} (h : IsPrintedName cs) :
    ∃ c ds, cs = c :: ds ∧ isNameChar c = true := by
  cases cs with
  | nil => exact absurd rfl h.ne_nil
  | cons c ds => exact ⟨c, ds, rfl, h.all c List.mem_cons_self⟩

/-- A name can be cut off the text it starts. -/
theorem append_injective {xs ys rest rest' : List Char} (hx : IsPrintedName xs)
    (hy : IsPrintedName ys) (hrest : stopsName rest = true) (hrest' : stopsName rest' = true)
    (h : xs ++ rest = ys ++ rest') : xs = ys ∧ rest = rest' := by
  have hnil {r : List Char} (hr : stopsName r = true) : r.takeWhile isNameChar = [] := by
    cases r with
    | nil => rfl
    | cons c r =>
        simp only [stopsName, Bool.not_eq_true'] at hr
        simp [hr]
  have htake := congrArg (List.takeWhile isNameChar) h
  rw [List.takeWhile_append_of_pos hx.all, List.takeWhile_append_of_pos hy.all, hnil hrest,
    hnil hrest', List.append_nil, List.append_nil] at htake
  subst htake
  exact ⟨rfl, List.append_cancel_left h⟩

end IsPrintedName

namespace Nameless

/-- What holds of the printed names of the binders around a term: they are different, and canonical
names that were given out before. -/
structure PrintedScope (names : List String) (counter : Nat) : Prop where
  nodup : names.Nodup
  canonical : ∀ x ∈ names, ∃ j < counter, x = Term.canonicalName j

theorem PrintedScope.nil (counter : Nat) : PrintedScope [] counter :=
  ⟨List.nodup_nil, fun _ h => absurd h List.not_mem_nil⟩

theorem PrintedScope.mono {names : List String} {counter counter' : Nat}
    (h : PrintedScope names counter) (hle : counter ≤ counter') : PrintedScope names counter' := by
  refine ⟨h.nodup, ?_⟩
  intro x hx
  obtain ⟨j, hj, rfl⟩ := h.canonical x hx
  exact ⟨j, by omega, rfl⟩

theorem PrintedScope.cons {names : List String} {counter : Nat} (h : PrintedScope names counter) :
    PrintedScope (Term.canonicalName counter :: names) (counter + 1) := by
  refine ⟨List.nodup_cons.mpr ⟨?_, h.nodup⟩, List.forall_mem_cons.mpr ⟨⟨counter, by omega, rfl⟩, ?_⟩⟩
  · intro hmem
    obtain ⟨j, hj, heq⟩ := h.canonical _ hmem
    have := Term.canonicalName_injective heq
    omega
  · exact (h.mono (Nat.le_succ counter)).canonical

/-- A term that can be read off its text: its indices refer to the binders around it, and its free
names are identifiers. -/
structure Readable (names : List String) (t : Nameless) : Prop where
  bounded : t.Scoped names.length
  identifiers : ∀ x ∈ t.freeNames, isIdentifier x.toList = true

namespace Readable

variable {names : List String} {t u : Nameless}

theorem body (h : Readable names (.lam t)) (x : String) : Readable (x :: names) t :=
  ⟨h.bounded, h.identifiers⟩

theorem func (h : Readable names (.app t u)) : Readable names t :=
  ⟨h.bounded.1, fun x hx => h.identifiers x (List.mem_append_left _ hx)⟩

theorem arg (h : Readable names (.app t u)) : Readable names u :=
  ⟨h.bounded.2, fun x hx => h.identifiers x (List.mem_append_right _ hx)⟩

end Readable

variable {names : List String} {counter : Nat} {t u : Nameless} {rest rest' : List Char}

theorem text_bound {i : Nat} (hi : i < names.length) :
    (bound i).text names counter = names[i].toList := by
  simp [text, hi]

theorem isPrintedName_text (hs : PrintedScope names counter) (ht : Readable names t)
    (hleaf : t.isCompound = false) : IsPrintedName (t.text names counter) := by
  cases t with
  | bound i =>
      rw [text_bound ht.bounded]
      obtain ⟨j, -, hj⟩ := hs.canonical _ (List.getElem_mem ht.bounded)
      rw [hj]
      exact .canonicalName j
  | free x => exact .of_isIdentifier (ht.identifiers x (List.mem_singleton_self x))
  | lam | app => cases hleaf

theorem bound_text_ne_free {i : Nat} {x : String} (hs : PrintedScope names counter)
    (hi : i < names.length) (hx : isIdentifier x.toList = true) :
    (bound i).text names counter ≠ (free x).text names counter := by
  intro h
  obtain ⟨j, -, hj⟩ := hs.canonical _ (List.getElem_mem hi)
  rw [text_bound hi, hj, Term.canonicalName_toList, text] at h
  rw [← h] at hx
  simp [isIdentifier, startsName, isLetter] at hx

theorem eq_of_text_eq (hs : PrintedScope names counter) (ht : Readable names t)
    (hu : Readable names u) (hleaf : t.isCompound = false) (hleaf' : u.isCompound = false)
    (h : t.text names counter = u.text names counter) : t = u := by
  cases t with
  | bound i =>
      cases u with
      | bound j =>
          rw [text_bound ht.bounded, text_bound hu.bounded, String.toList_inj] at h
          rw [(List.Nodup.getElem_inj_iff hs.nodup).mp h]
      | free x =>
          exact absurd h (bound_text_ne_free hs ht.bounded (hu.identifiers x (List.mem_singleton_self x)))
      | lam | app => cases hleaf'
  | free x =>
      cases u with
      | bound j =>
          exact absurd h.symm
            (bound_text_ne_free hs hu.bounded (ht.identifiers x (List.mem_singleton_self x)))
      | free y => rw [String.toList_inj.mp h]
      | lam | app => cases hleaf'
  | lam | app => cases hleaf

theorem exists_enclosed_eq_cons (hs : PrintedScope names counter) (ht : Readable names t) :
    ∃ c cs, t.enclosed (t.text names counter) = c :: cs ∧ (c = '(' ∨ isNameChar c = true) := by
  unfold enclosed
  cases hc : t.isCompound with
  | true => exact ⟨'(', _, rfl, .inl rfl⟩
  | false =>
      obtain ⟨c, cs, hcs, hname⟩ := (isPrintedName_text hs ht hc).exists_cons
      exact ⟨c, cs, by simpa using hcs, .inr hname⟩

theorem text_append_ne (hs : PrintedScope names counter) (ht : Readable names t)
    (hu : Readable names u) (hleaf : t.isCompound = false) (hcompound : u.isCompound = true)
    (hrest : stopsTerm rest = true) :
    t.text names counter ++ rest ≠ u.text names counter ++ rest' := by
  have hname := isPrintedName_text hs ht hleaf
  intro h
  cases u with
  | bound | free => cases hcompound
  | lam body =>
      obtain ⟨c, cs, hcs, hc⟩ := hname.exists_cons
      rw [hcs] at h
      obtain rfl : c = 'λ' := (List.cons.inj h).1
      cases hc
  | app func arg =>
      rw [text, List.append_assoc] at h
      unfold enclosed at h
      cases hf : func.isCompound with
      | true =>
          obtain ⟨c, cs, hcs, hc⟩ := hname.exists_cons
          rw [hcs, hf] at h
          obtain rfl : c = '(' := (List.cons.inj h).1
          cases hc
      | false =>
          -- the name would go on with the blank behind the function, which ends no term
          rw [hf] at h
          obtain ⟨-, hblank⟩ := hname.append_injective (isPrintedName_text hs hu.func hf)
            (stopsName_of_stopsTerm hrest) rfl h
          rw [hblank] at hrest
          cases hrest

/-- A function or an argument can be cut off the text it starts if a term can. -/
theorem enclosed_append_injective (hs : PrintedScope names counter) (ht : Readable names t)
    (hu : Readable names u) (hrest : stopsName rest = true) (hrest' : stopsName rest' = true)
    (hinj : ∀ {r r' : List Char}, stopsTerm r = true → stopsTerm r' = true →
      t.text names counter ++ r = u.text names counter ++ r' → t = u ∧ r = r')
    (h : t.enclosed (t.text names counter) ++ rest = u.enclosed (u.text names counter) ++ rest') :
    t = u ∧ rest = rest' := by
  have hhead {v : Nameless} {cs ds : List Char} (hv : Readable names v) (hleaf : v.isCompound = false)
      (h : v.text names counter ++ cs = '(' :: ds) : False := by
    obtain ⟨c, vs, hvs, hc⟩ := (isPrintedName_text hs hv hleaf).exists_cons
    rw [hvs] at h
    obtain rfl : c = '(' := (List.cons.inj h).1
    cases hc
  unfold enclosed at h
  cases htc : t.isCompound <;> cases huc : u.isCompound <;> rw [htc, huc] at h
  · obtain ⟨heq, hrests⟩ := (isPrintedName_text hs ht htc).append_injective
      (isPrintedName_text hs hu huc) hrest hrest' h
    exact ⟨eq_of_text_eq hs ht hu htc huc heq, hrests⟩
  · exact (hhead ht htc h).elim
  · exact (hhead hu huc h.symm).elim
  · simp only [if_true, List.cons_append, List.append_assoc, List.nil_append, List.cons.injEq,
      true_and] at h
    obtain ⟨heq, hrests⟩ := hinj rfl rfl h
    exact ⟨heq, (List.cons.inj hrests).2⟩

/-- **A nameless term can be read off the text it starts**, wherever a term may end. -/
theorem text_append_injective (hs : PrintedScope names counter) (ht : Readable names t)
    (hu : Readable names u) (hrest : stopsTerm rest = true) (hrest' : stopsTerm rest' = true)
    (h : t.text names counter ++ rest = u.text names counter ++ rest') : t = u ∧ rest = rest' := by
  induction t generalizing u names counter rest rest' with
  | bound | free =>
      cases hu' : u.isCompound with
      | true => exact absurd h (text_append_ne hs ht hu rfl hu' hrest)
      | false =>
          obtain ⟨heq, hrests⟩ := (isPrintedName_text hs ht rfl).append_injective
            (isPrintedName_text hs hu hu') (stopsName_of_stopsTerm hrest)
            (stopsName_of_stopsTerm hrest') h
          exact ⟨eq_of_text_eq hs ht hu rfl hu' heq, hrests⟩
  | lam body ih =>
      cases u with
      | bound | free => exact absurd h.symm (text_append_ne hs hu ht rfl rfl hrest')
      | lam body' =>
          simp only [text, List.cons_append, List.append_assoc, List.cons.injEq, true_and,
            List.append_cancel_left_eq] at h
          obtain ⟨rfl, hrests⟩ := ih hs.cons (ht.body _) (hu.body _) hrest hrest' h
          exact ⟨rfl, hrests⟩
      | app func' arg' =>
          obtain ⟨c, cs, hcs, hc⟩ := exists_enclosed_eq_cons hs hu.func
          simp only [text, List.cons_append, hcs, List.cons.injEq] at h
          obtain ⟨rfl, -⟩ := h
          exact absurd hc (by decide)
  | app func arg ihf iha =>
      cases u with
      | bound | free => exact absurd h.symm (text_append_ne hs hu ht rfl rfl hrest')
      | lam body' =>
          obtain ⟨c, cs, hcs, hc⟩ := exists_enclosed_eq_cons hs ht.func
          simp only [text, List.cons_append, hcs, List.cons.injEq] at h
          obtain ⟨rfl, -⟩ := h
          exact absurd hc (by decide)
      | app func' arg' =>
          simp only [text, List.append_assoc, List.cons_append] at h
          obtain ⟨rfl, h⟩ := enclosed_append_injective hs ht.func hu.func rfl rfl
            (fun hr hr' => ihf hs ht.func hu.func hr hr') h
          have hs' := hs.mono (Nat.le_add_right counter func.binders)
          obtain ⟨rfl, hrests⟩ := enclosed_append_injective hs' ht.arg hu.arg
            (stopsName_of_stopsTerm hrest) (stopsName_of_stopsTerm hrest')
            (fun hr hr' => iha hs' ht.arg hu.arg hr hr') (List.cons.inj h).2
          exact ⟨rfl, hrests⟩

end Nameless

namespace Term

theorem readable_nameless {t : Term} (h : ∀ x ∈ t.allNames, isIdentifier x.toList = true) :
    Nameless.Readable [] t.nameless := by
  refine ⟨t.scoped_namelessIn [], ?_⟩
  intro x hx
  rw [freeNames_nameless] at hx
  exact h x (allNames_of_mem_freeNames hx)

/-- **Canonical printing decides alpha-equivalence**: terms whose names are identifiers print alike with
canonical names exactly if their nameless forms are the same. -/
theorem alphaEquals_iff_alphaEquiv (t u : Term)
    (ht : ∀ x ∈ t.allNames, isIdentifier x.toList = true)
    (hu : ∀ x ∈ u.allNames, isIdentifier x.toList = true) :
    t.alphaEquals u = true ↔ t.AlphaEquiv u := by
  unfold alphaEquals AlphaEquiv
  rw [decide_eq_true_iff, print_structural, print_structural, ← String.toList_inj,
    String.toList_ofList, String.toList_ofList]
  constructor
  · intro h
    have htext : t.nameless.text [] 0 ++ [] = u.nameless.text [] 0 ++ [] := by rw [h]
    exact (Nameless.text_append_injective (.nil 0) (readable_nameless ht) (readable_nameless hu)
      rfl rfl htext).1
  · intro h
    rw [h]

/-- Terms with tags whose binders shadow one another, and in which a free name is spelled like a
parameter. -/
theorem alphaEquals_iff_alphaEquiv_shadowed :
    let t : Term := .lam ⟨some "_ID", false⟩ "x"
      (.app {} (.lam {} "x" (.app {} (.var {} "x") (.var {} "y"))) (.var {} "x"))
    let u : Term := .lam {} "y'" (.app ⟨some "_2", true⟩
      (.lam {} "z" (.app {} (.var {} "z") (.var {} "y"))) (.var {} "y'"))
    (∀ x ∈ t.allNames, isIdentifier x.toList = true) ∧
      (∀ x ∈ u.allNames, isIdentifier x.toList = true) ∧
      (t.alphaEquals u = true ↔ t.AlphaEquiv u) := by
  intro t u
  have ht : ∀ x ∈ t.allNames, isIdentifier x.toList = true := by decide +kernel
  have hu : ∀ x ∈ u.allNames, isIdentifier x.toList = true := by decide +kernel
  exact ⟨ht, hu, alphaEquals_iff_alphaEquiv t u ht hu⟩

end Term
end LambdaStepper
