import TreeScript.Expr.Reader
import TreeScript.Proofs.Failures
import TreeScript.Proofs.Scanner

/-!
# What readers of expressions keep

A reader of expressions looks at characters, moves on and enters sections, and it reports errors where it
stands.  A property of scanners that these keep is kept by the reader, and if the errors are of some kind where
they are reported, the reader fails with errors of this kind only.  The scanners of sections may have a
property of their own.

- `Kept`: what is known when a reader is done.
- `Scanner.Invariant`: a property that is kept where a scanner moves on.
- `Expr.Invariant`: a property that readers of expressions keep.
- `Expr.Invariant.readOperand`, `Expr.Invariant.readTail`: the parts of an expression.
- `Expr.Invariant.read`: an expression, by induction on the length of the text.
-/

namespace TreeScript

open Scanner Text

/-- A reader was done: its errors are of some kind, and its scanner has a property. -/
structure Kept {α : Type} (P : Scanner → Prop) (E : Error → Prop)
    (outcome : Except Error α × Scanner) : Prop where
  failsOnly : FailsOnly E outcome.1
  scanner : P outcome.2

section Kept

variable {α β : Type} {P : Scanner → Prop} {E : Error → Prop} {s : Scanner}

theorem kept_of_failsOnly {result : Except Error α} (hresult : FailsOnly E result) (h : P s) :
    Kept P E (result, s) := ⟨hresult, h⟩

theorem kept_ok (a : α) (h : P s) : Kept P E ((.ok a : Except Error α), s) :=
  kept_of_failsOnly (failsOnly_ok a) h

theorem kept_error {e : Error} (he : E e) (h : P s) : Kept P E ((.error e : Except Error α), s) :=
  kept_of_failsOnly (failsOnly_error he) h

/-- A reader that hands on the error of another one has done what that one did. -/
theorem Kept.error {outcome : Except Error α × Scanner} {e : Error} (h : Kept P E outcome)
    (heq : outcome = (.error e, s)) : Kept P E ((.error e : Except Error β), s) := by
  subst heq
  exact kept_error (h.failsOnly e rfl) h.scanner

theorem Kept.of_ok {outcome : Except Error α × Scanner} {a : α} (h : Kept P E outcome)
    (heq : outcome = (.ok a, s)) : P s := by
  subst heq
  exact h.scanner

theorem Kept.mono {P' : Scanner → Prop} {E' : Error → Prop} {outcome : Except Error α × Scanner}
    (h : Kept P E outcome) (hP : ∀ s, P s → P' s) (hE : ∀ e, E e → E' e) : Kept P' E' outcome :=
  ⟨h.failsOnly.mono hE, hP _ h.scanner⟩

theorem Kept.map {outcome : Except Error α × Scanner} (h : Kept P E outcome) (f : α → β) :
    Kept P E (outcome.1.map f, outcome.2) :=
  ⟨h.failsOnly.map f, h.scanner⟩

end Kept

/-- A property of scanners that is kept where they look ahead and move on. -/
structure Scanner.Invariant (P : Scanner → Prop) : Prop where
  touch : ∀ {s}, P s → P s.touch
  advance : ∀ {s} n, P s → P (s.advance n)

namespace Scanner.Invariant

variable {P : Scanner → Prop} {s : Scanner}

theorem takeWhile (h : Invariant P) (hs : P s) (p : Char → Bool) : P (s.takeWhile p).2 :=
  h.touch (h.advance _ hs)

theorem skipBlank (h : Invariant P) (hs : P s) : P s.skipBlank := h.takeWhile hs isBlank

theorem accept (h : Invariant P) (hs : P s) (c : Char) : P (s.accept c).2 := by
  unfold Scanner.accept
  split
  · exact h.advance 1 hs
  · exact h.touch hs

theorem of_forall {ι : Type} {P : ι → Scanner → Prop} (h : ∀ i, Invariant (P i)) :
    Invariant fun s => ∃ i, P i s where
  touch := fun ⟨i, hs⟩ => ⟨i, (h i).touch hs⟩
  advance n := fun ⟨i, hs⟩ => ⟨i, (h i).advance n hs⟩

end Scanner.Invariant

namespace Expr

/-- A property `P` of scanners that readers of expressions keep, while the scanners of the sections that they
enter have the property `Q`, and all errors are of the kind `E`. -/
structure Invariant (P Q : Scanner → Prop) (E : Error → Prop) : Prop extends Scanner.Invariant P where
  operandExpected : ∀ {s}, P s → Flush s.stream →
    E (.malformed (.operandExpected s.stream.head?) s.position)
  operatorUnrecognized : ∀ {s} c, P s → E (.malformed (.operatorUnrecognized c) s.position)
  findSection : ∀ {s cs}, P s → s.stream = '(' :: cs → Kept P E (s.findSection '(' ')') ∧
    ∀ body, (s.findSection '(' ')').1 = .ok body → Q body.scanner

namespace Invariant

variable {P Q : Scanner → Prop} {E : Error → Prop} {s t : Scanner}

/-- A scanner that has one of several properties, whichever it is. -/
theorem of_forall {ι : Type} {P : ι → Scanner → Prop} (h : ∀ i, Invariant (P i) Q E) :
    Invariant (fun s => ∃ i, P i s) Q E where
  toInvariant := .of_forall fun i => (h i).toInvariant
  operandExpected := fun ⟨i, hs⟩ => (h i).operandExpected hs
  operatorUnrecognized c := fun ⟨i, hs⟩ => (h i).operatorUnrecognized c hs
  findSection := fun ⟨i, hs⟩ hstream =>
    have hfind := (h i).findSection hs hstream
    ⟨hfind.1.mono (fun _ ht => ⟨i, ht⟩) fun _ => id, hfind.2⟩

theorem readToken (h : Invariant P Q E) (hs : P s) (hflush : Flush s.stream) :
    Kept P E (readToken s.position s) := by
  let stop : Char → Bool := fun c => isBlank c || c ∈ tokenStops
  have hstream : s.stream = (s.readUntil stop false).1 ++ (s.readUntil stop false).2.stream :=
    stream_eq_readUntil stop s
  have hend : P (s.readUntil stop false).2 := h.takeWhile hs _
  simp only [Expr.readToken]
  split
  · next hempty =>
    -- the token is empty, so the character that was found stands at the place
    have hnone : (s.readUntil stop false).1 = [] := List.isEmpty_iff.1 hempty
    rw [hnone, List.nil_append] at hstream
    refine kept_error ?_ hend
    show E (.malformed (.operandExpected (s.readUntil stop false).2.stream.head?) s.position)
    rw [← hstream]
    exact h.operandExpected hs hflush
  · exact kept_ok _ hend

theorem readOperand {readSection : SectionReader s} (h : Invariant P Q E) (hs : P s)
    (hsections : ∀ t ht, Q t → FailsOnly E (readSection t ht)) :
    Kept P E (readOperand s readSection) := by
  fun_induction Expr.readOperand s readSection with
  | case1 s readSection cs hstream e t hfind =>
    exact (h.findSection (h.skipBlank hs) hstream).1.error hfind
  | case2 s readSection cs hstream body t hfind =>
    obtain ⟨hkept, hsection⟩ := h.findSection (h.skipBlank hs) hstream
    exact kept_of_failsOnly (hsections _ _ (hsection body (congrArg Prod.fst hfind))) (hkept.of_ok hfind)
  | case3 s readSection cs hstream shorter inner t hinner ih =>
    have hkept := ih (h.advance 1 (h.skipBlank hs)) fun u hu => hsections u _
    rw [hinner] at hkept
    exact hkept.map negate
  | case4 s readSection hstream => exact h.readToken (h.skipBlank hs) s.flush_skipBlank

theorem readOperator? {op : Operator} (h : Invariant P Q E) (hs : P s)
    (hread : readOperator? s = some (op, t)) : P t := by
  obtain ⟨op', -, heq⟩ := Option.map_eq_some_iff.1 hread
  obtain ⟨-, rfl⟩ := Prod.mk.inj heq
  split
  · exact h.accept (h.advance 1 hs) '='
  · exact h.advance 1 hs

theorem readTail {left : Expr} {readSection : SectionReader s} (h : Invariant P Q E) (hs : P s)
    (hsections : ∀ t ht, Q t → FailsOnly E (readSection t ht)) :
    Kept P E (readTail left s readSection) := by
  fun_induction Expr.readTail left s readSection with
  | case1 left s readSection hop => exact kept_ok left (h.skipBlank hs)
  | case2 left s readSection op t hop shorter e u hright =>
    have hkept := h.readOperand (h.readOperator? (h.skipBlank hs) hop) fun v hv =>
      hsections v (Nat.lt_trans hv shorter)
    exact hkept.error hright
  | case3 left s readSection op t hop shorter right u hright shorter' ih =>
    have hkept := h.readOperand (h.readOperator? (h.skipBlank hs) hop) fun v hv =>
      hsections v (Nat.lt_trans hv shorter)
    exact ih (hkept.of_ok hright) fun v hv => hsections v _

theorem readWith {readSection : SectionReader s} (h : Invariant P Q E) (hs : P s)
    (hsections : ∀ t ht, Q t → FailsOnly E (readSection t ht)) :
    Kept P E (readWith s readSection) := by
  have hkept := h.readOperand hs hsections
  unfold Expr.readWith
  split
  · next e t hleft => exact hkept.error hleft
  · next left t hleft => exact h.readTail (hkept.of_ok hleft) fun v hv => hsections v _

theorem wholeText {outcome : Except Error Expr × Scanner} (h : Invariant P Q E)
    (houtcome : Kept P E outcome) : FailsOnly E (wholeText outcome) := by
  obtain ⟨result, t⟩ := outcome
  cases result with
  | error e => exact failsOnly_error (houtcome.failsOnly e rfl)
  | ok e =>
    simp only [Expr.wholeText]
    split
    · exact failsOnly_ok e
    · exact failsOnly_error (h.operatorUnrecognized _ (h.skipBlank houtcome.scanner))

/-- Sections are shorter than the text around them. -/
theorem read (h : Invariant P Q E) (hinside : Invariant Q Q E) (hs : P s) : Kept P E (read s) := by
  induction hn : s.remaining using Nat.strong_induction_on generalizing s P with
  | _ n ih =>
    subst hn
    rw [Expr.read]
    exact h.readWith hs fun t ht hq => hinside.wholeText (ih _ ht hinside hq rfl)

end Invariant

end Expr

end TreeScript
