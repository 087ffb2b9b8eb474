import TreeScript.Proofs.Derivations
import TreeScript.Proofs.Procedures

/-!
# Readers do not know where they are

A reader goes by the characters that are still to be read.  Where they stand, which of them were put back,
and what is known of damage behind them makes no difference: what is read is the same, and so are the errors
apart from their places.

- `Displaced`, `Parallel`: outcomes that are the same apart from places.
- `Scanner.findSection_parallel`: sections.
- `Expr.operand_parallel`, `Expr.tail_parallel`, `Expr.read_parallel`: expressions.
- `Item.unplaced`, `Item.readArguments_parallel`, `Item.read_parallel`: items.
- `Procedure.readItems_displaced`: all items that are left.
-/

namespace TreeScript

open Text

variable {α β : Type}

/-- Results that are the same, apart from the places of errors. -/
inductive Displaced (same : α → α → Prop) : Except Error α → Except Error α → Prop
  | ok {a b : α} (h : same a b) : Displaced same (.ok a) (.ok b)
  | malformed (flaw : Flaw) (place other : Position) :
      Displaced same (.error (.malformed flaw place)) (.error (.malformed flaw other))

/-- Outcomes of readers that are the same, apart from the places of errors and of what is left. -/
inductive Parallel (same : α → α → Prop) :
    Except Error α × Scanner → Except Error α × Scanner → Prop
  | ok {a b : α} {s t : Scanner} (h : same a b) (hs : s.stream = t.stream) :
      Parallel same (.ok a, s) (.ok b, t)
  | malformed (flaw : Flaw) (place other : Position) {s t : Scanner} (hs : s.stream = t.stream) :
      Parallel same (.error (.malformed flaw place), s) (.error (.malformed flaw other), t)

section

variable {same : α → α → Prop} {left right : Except Error α × Scanner}

theorem Displaced.map {same' : β → β → Prop} {f g : α → β} {x y : Except Error α}
    (h : Displaced same x y) (hf : ∀ a b, same a b → same' (f a) (g b)) :
    Displaced same' (x.map f) (y.map g) := by
  cases h with
  | ok h => exact .ok (hf _ _ h)
  | malformed flaw place other => exact .malformed flaw place other

theorem Parallel.of_displaced {x y : Except Error α} {s t : Scanner} (h : Displaced same x y)
    (hs : s.stream = t.stream) : Parallel same (x, s) (y, t) := by
  cases h with
  | ok h => exact .ok h hs
  | malformed flaw place other => exact .malformed flaw place other hs

theorem Parallel.displaced (h : Parallel same left right) : Displaced same left.1 right.1 := by
  cases h with
  | ok h => exact .ok h
  | malformed flaw place other => exact .malformed flaw place other

theorem Parallel.stream_eq (h : Parallel same left right) : left.2.stream = right.2.stream := by
  cases h with
  | ok h hs => exact hs
  | malformed flaw place other hs => exact hs

/-- The two ways in which parallel readers end. -/
theorem Parallel.ok_or_malformed (h : Parallel same left right) :
    (∃ a b s t, left = (.ok a, s) ∧ right = (.ok b, t) ∧ same a b ∧ s.stream = t.stream) ∨
      ∃ flaw place other s t, left = (.error (.malformed flaw place), s) ∧
        right = (.error (.malformed flaw other), t) ∧ s.stream = t.stream := by
  cases h with
  | ok h hs => exact .inl ⟨_, _, _, _, rfl, rfl, h, hs⟩
  | malformed flaw place other hs => exact .inr ⟨flaw, place, other, _, _, rfl, rfl, hs⟩

theorem Parallel.map {same' : β → β → Prop} {f g : α → β} (h : Parallel same left right)
    (hf : ∀ a b, same a b → same' (f a) (g b)) :
    Parallel same' (left.1.map f, left.2) (right.1.map g, right.2) :=
  .of_displaced (h.displaced.map hf) h.stream_eq

end

variable {s t : Scanner}

/-! ### Scanners -/

namespace Scanner

theorem stream_skipBlank_congr (h : s.stream = t.stream) : s.skipBlank.stream = t.skipBlank.stream := by
  simp only [stream_skipBlank, h]

theorem stream_advance_congr (h : s.stream = t.stream) (n : Nat) :
    (s.advance n).stream = (t.advance n).stream := by
  simp only [stream_advance, h]

/-- The same characters are read up to a stop. -/
theorem readUntil_congr (h : s.stream = t.stream) (stop : Char → Bool) :
    ∃ text u v, s.readUntil stop false = (text, u) ∧ t.readUntil stop false = (text, v) ∧
      u.stream = v.stream := by
  refine ⟨(s.readUntil stop false).1, (s.readUntil stop false).2, (t.readUntil stop false).2, rfl,
    Prod.ext ?_ rfl, ?_⟩
  · simp only [fst_readUntil, h]
  · simp only [stream_readUntil, h]

/-- The same character is next. -/
theorem next_congr (h : s.stream = t.stream) :
    ∃ c u v, s.next = (c, u) ∧ t.next = (c, v) ∧ u.stream = v.stream := by
  refine ⟨s.next.1, s.next.2, t.next.2, rfl, Prod.ext ?_ rfl, ?_⟩
  · simp only [next, h]
  · simp only [next, stream_advance, stream_touch, h]

/-- A character is accepted in both places, or in none. -/
theorem accept_congr (h : s.stream = t.stream) (c : Char) :
    ∃ found u v, s.accept c = (found, u) ∧ t.accept c = (found, v) ∧ u.stream = v.stream := by
  unfold accept
  rw [h]
  split
  · exact ⟨true, _, _, rfl, rfl, stream_advance_congr h 1⟩
  · exact ⟨false, _, _, rfl, rfl, by simpa using h⟩

theorem stream_accept_congr (h : s.stream = t.stream) (c : Char) :
    (s.accept c).2.stream = (t.accept c).2.stream := by
  obtain ⟨found, u, v, hu, hv, huv⟩ := accept_congr h c
  rw [hu, hv]
  exact huv

theorem stream_scanner_congr {body other : Section} (h : body.text = other.text) :
    body.scanner.stream = other.scanner.stream := by
  simp only [Section.scanner, stream_ofChars, h]

/-- Sections have the same text, wherever they stand. -/
theorem findSection_parallel (opening closing : Char) (h : s.stream = t.stream) :
    Parallel (fun body other => body.text = other.text) (s.findSection opening closing)
      (t.findSection opening closing) := by
  have houter : (s.skipUntilChar opening false).stream = (t.skipUntilChar opening false).stream := by
    obtain ⟨skipped, u, v, hu, hv, huv⟩ := readUntil_congr h (· = opening)
    simpa only [skipUntilChar, readUntilChar, hu, hv] using huv
  have hinner := stream_advance_congr houter 1
  simp only [findSection, houter, hinner]
  split
  · exact .malformed _ _ _ houter
  · split
    · exact .ok rfl (stream_advance_congr hinner _)
    · exact .malformed _ _ _ (by simp only [stream_drain])

end Scanner

/-! ### Expressions -/

namespace Expr

theorem readToken_parallel (place other : Position) (h : s.stream = t.stream) :
    Parallel Eq (readToken place s) (readToken other t) := by
  obtain ⟨token, u, v, hu, hv, huv⟩ :=
    Scanner.readUntil_congr h fun c => isBlank c || decide (c ∈ tokenStops)
  simp only [readToken, Scanner.readUntilBlankOr, hu, hv, huv]
  split
  · exact .malformed _ _ _ huv
  · exact .ok rfl huv

/-- Operands are the same, if the insides of parentheses are. -/
theorem operand_parallel
    (hsection : ∀ u v : Scanner, u.remaining < s.remaining → u.stream = v.stream →
      Displaced Eq (wholeText (read u)) (wholeText (read v)))
    (h : s.stream = t.stream) : Parallel Eq (operand s) (operand t) := by
  -- only a minus leads to another operand, which has less to read
  induction hn : s.remaining using Nat.strong_induction_on generalizing s t with
  | _ n ih =>
    subst hn
    have hskip := Scanner.stream_skipBlank_congr h
    rw [operand_eq s, operand_eq t, ← hskip]
    split
    · obtain ⟨body, other, u, v, hu, hv, hbody, huv⟩ | ⟨flaw, place, other, u, v, hu, hv, huv⟩ :=
        (Scanner.findSection_parallel '(' ')' hskip).ok_or_malformed
      · rw [hu, hv]
        have hlt : body.scanner.remaining < s.remaining :=
          Nat.lt_of_lt_of_le (Scanner.remaining_scanner_lt hu) s.remaining_skipBlank_le
        exact .of_displaced (hsection _ _ hlt (Scanner.stream_scanner_congr hbody)) huv
      · rw [hu, hv]
        exact .malformed flaw place other huv
    · next cs hminus =>
      have hlt : (s.skipBlank.advance 1).remaining < s.remaining := by
        have hle := s.remaining_skipBlank_le
        simp only [Scanner.remaining, Scanner.stream_advance, hminus, List.length_drop,
          List.length_cons] at hle ⊢
        omega
      have hinner := ih _ hlt (fun u v hu => hsection u v (Nat.lt_trans hu hlt))
        (Scanner.stream_advance_congr hskip 1) rfl
      exact hinner.map fun e f hef => congrArg negate hef
    · exact readToken_parallel _ _ hskip

/-- What is next is no operator, or it is the same one. -/
theorem readOperator?_congr (h : s.stream = t.stream) :
    (readOperator? s = none ∧ readOperator? t = none) ∨
      ∃ op u v, readOperator? s = some (op, u) ∧ readOperator? t = some (op, v) ∧
        u.stream = v.stream := by
  simp only [readOperator?, h]
  cases t.stream.head?.bind Operator.ofSign? with
  | none => exact .inl ⟨rfl, rfl⟩
  | some op =>
    refine .inr ⟨op, _, _, rfl, rfl, ?_⟩
    have hnext := Scanner.stream_advance_congr h 1
    split
    · exact Scanner.stream_accept_congr hnext '='
    · exact hnext

theorem tail_parallel {left : Expr}
    (hsection : ∀ u v : Scanner, u.remaining < s.remaining → u.stream = v.stream →
      Displaced Eq (wholeText (read u)) (wholeText (read v)))
    (h : s.stream = t.stream) : Parallel Eq (tail left s) (tail left t) := by
  induction hn : s.remaining using Nat.strong_induction_on generalizing s t left with
  | _ n ih =>
    subst hn
    have hskip := Scanner.stream_skipBlank_congr h
    rw [tail_eq left s, tail_eq left t]
    obtain ⟨hs, ht⟩ | ⟨op, u, v, hs, ht, huv⟩ := readOperator?_congr hskip
    · rw [hs, ht]
      exact .ok rfl hskip
    · rw [hs, ht]
      have hlt : u.remaining < s.remaining :=
        Nat.lt_of_lt_of_le (remaining_readOperator?_lt hs) s.remaining_skipBlank_le
      have hright := operand_parallel (fun w x hw => hsection w x (Nat.lt_trans hw hlt)) huv
      obtain ⟨e, _, w, x, hw, hx, rfl, hwx⟩ | ⟨flaw, place, other, w, x, hw, hx, hwx⟩ :=
        hright.ok_or_malformed
      · simp only [hw, hx]
        have hlt' : w.remaining < s.remaining := Nat.lt_trans (remaining_readOperand_lt hw) hlt
        exact ih _ hlt' (fun y z hy => hsection y z (Nat.lt_trans hy hlt')) hwx rfl
      · simp only [hw, hx]
        exact .malformed flaw place other hwx

/-- A whole text is over in both places, or goes on in both. -/
theorem Parallel.wholeText {left right : Except Error Expr × Scanner} (h : Parallel Eq left right) :
    Displaced Eq (wholeText left) (Expr.wholeText right) := by
  cases h with
  | malformed flaw place other => exact .malformed flaw place other
  | ok he hs =>
    obtain rfl := he
    have hskip := Scanner.stream_skipBlank_congr hs
    simp only [Expr.wholeText, hskip]
    split
    · exact .ok rfl
    · exact .malformed _ _ _

/-- **Expressions are the same** wherever they stand. -/
theorem read_parallel (h : s.stream = t.stream) : Parallel Eq (read s) (read t) := by
  -- the inside of parentheses is shorter than the text around it
  induction hn : s.remaining using Nat.strong_induction_on generalizing s t with
  | _ n ih =>
    subst hn
    have hsection : ∀ u v : Scanner, u.remaining < s.remaining → u.stream = v.stream →
        Displaced Eq (wholeText (read u)) (wholeText (read v)) :=
      fun u v hu huv => Parallel.wholeText (ih _ hu huv rfl)
    rw [read_eq s, read_eq t]
    obtain ⟨e, _, u, v, hu, hv, rfl, huv⟩ | ⟨flaw, place, other, u, v, hu, hv, huv⟩ :=
      (operand_parallel hsection h).ok_or_malformed
    · rw [hu, hv]
      have hlt : u.remaining < s.remaining := remaining_readOperand_lt hu
      exact tail_parallel (fun w x hw => hsection w x (Nat.lt_trans hw hlt)) huv
    · rw [hu, hv]
      exact .malformed flaw place other huv

end Expr

/-! ### Items -/

namespace Item

/-- An item without the place where it stands. -/
def unplaced : Item → Item
  | call native arguments _ => call native arguments .start
  | item => item

/-- The item is the same, apart from the place of a call. -/
abbrev SameItem (i j : Item) : Prop := i.unplaced = j.unplaced

theorem readName_congr (h : s.stream = t.stream) :
    ∃ name u v, readName s = (name, u) ∧ readName t = (name, v) ∧ u.stream = v.stream := by
  obtain ⟨name, u, v, hu, hv, huv⟩ :=
    Scanner.readUntil_congr h fun c => isBlank c || decide (c ∈ nameStops)
  refine ⟨String.ofList name, u, v, ?_, ?_, huv⟩
  · simp only [readName, Scanner.readUntilBlankOr, hu]
  · simp only [readName, Scanner.readUntilBlankOr, hv]

theorem readArgumentDomain_congr (h : s.stream = t.stream) :
    ∃ domain u v, readArgumentDomain s = (domain, u) ∧ readArgumentDomain t = (domain, v) ∧
      u.stream = v.stream := by
  obtain ⟨word, u, v, hu, hv, huv⟩ :=
    Scanner.readUntil_congr h fun c => isBlank c || decide (c ∈ [']', ';', '('])
  have hback : (u.unread word).stream = (v.unread word).stream := by
    simp only [Scanner.stream_unread, huv]
  simp only [readArgumentDomain, Scanner.readUntilBlankOr, hu, hv]
  cases (Keyword.ofWord? (String.ofList word)).bind Keyword.domain? with
  | none => exact ⟨_, _, _, rfl, rfl, hback⟩
  | some domain =>
    simp only [huv]
    split
    · exact ⟨_, _, _, rfl, rfl, huv⟩
    · exact ⟨_, _, _, rfl, rfl, hback⟩

theorem readArgument_parallel (fixed : Option Domain) (h : s.stream = t.stream) :
    Parallel Eq (readArgument fixed s) (readArgument fixed t) := by
  cases fixed with
  | some domain =>
    exact (Expr.read_parallel h).map fun e f hef => congrArg (TypedExpr.mk · domain) hef
  | none =>
    obtain ⟨domain, u, v, hu, hv, huv⟩ := readArgumentDomain_congr h
    simp only [readArgument, hu, hv]
    exact (Expr.read_parallel huv).map fun e f hef => congrArg (TypedExpr.mk · domain) hef

theorem readArguments_parallel (fixed : Option Domain) (opened other : Position)
    (h : s.stream = t.stream) :
    Parallel Eq (readArguments fixed opened s) (readArguments fixed other t) := by
  induction hn : s.remaining using Nat.strong_induction_on generalizing s t with
  | _ n ih =>
    subst hn
    have hskip := Scanner.stream_skipBlank_congr h
    rw [readArguments_eq fixed opened s, readArguments_eq fixed other t, ← hskip]
    split
    · exact .malformed _ _ _ hskip
    · split
      · exact .ok rfl (Scanner.stream_advance_congr hskip 1)
      · obtain ⟨a, _, u, v, hu, hv, rfl, huv⟩ | ⟨flaw, place, other, u, v, hu, hv, huv⟩ :=
          (readArgument_parallel fixed hskip).ok_or_malformed
        · have hbehind := Scanner.stream_skipBlank_congr huv
          simp only [hu, hv, hbehind]
          split
          · have hlt : (u.skipBlank.accept ';').2.remaining < s.remaining := by
              have h₁ := s.remaining_skipBlank_le
              have h₂ := remaining_readArgument_lt hu
              have h₃ := u.remaining_skipBlank_le
              have h₄ := u.skipBlank.remaining_accept_le ';'
              omega
            exact (ih _ hlt (Scanner.stream_accept_congr hbehind ';') rfl).map
              fun as bs has => congrArg (a :: ·) has
          · exact .malformed _ _ _ hbehind
        · rw [hu, hv]
          exact .malformed flaw place other huv

theorem readCall_parallel (fixed : Option Domain) (native : String) (place other : Position)
    (h : s.stream = t.stream) :
    Parallel SameItem (readCall fixed native place s) (readCall fixed native other t) := by
  unfold readCall
  obtain ⟨as, _, u, v, hu, hv, rfl, huv⟩ | ⟨flaw, place, other, u, v, hu, hv, huv⟩ :=
    (readArguments_parallel fixed s.position t.position h).ok_or_malformed
  · rw [hu, hv]
    exact .ok rfl (Scanner.stream_accept_congr (Scanner.stream_skipBlank_congr huv) ';')
  · rw [hu, hv]
    exact .malformed flaw place other huv

theorem readAssignment_parallel (keyword : Keyword) (domain : Domain) (name : String)
    (h : s.stream = t.stream) :
    Parallel SameItem (readAssignment keyword domain name s) (readAssignment keyword domain name t) := by
  unfold readAssignment
  obtain ⟨e, _, u, v, hu, hv, rfl, huv⟩ | ⟨flaw, place, other, u, v, hu, hv, huv⟩ :=
    (Expr.read_parallel h).ok_or_malformed
  · obtain ⟨closed, w, x, hw, hx, hwx⟩ :=
      Scanner.accept_congr (Scanner.stream_skipBlank_congr huv) ';'
    simp only [hu, hv, hw, hx]
    cases closed with
    | true => exact .ok rfl hwx
    | false => exact .malformed _ _ _ hwx
  · rw [hu, hv]
    exact .malformed flaw place other huv

theorem readDeclaration_parallel (keyword : Keyword) (h : s.stream = t.stream) :
    Parallel SameItem (readDeclaration keyword s) (readDeclaration keyword t) := by
  obtain ⟨name, u, v, hu, hv, huv⟩ := readName_congr (Scanner.stream_skipBlank_congr h)
  obtain ⟨found, w, x, hw, hx, hwx⟩ := Scanner.next_congr (Scanner.stream_skipBlank_congr huv)
  simp only [readDeclaration, hu, hv, hw, hx]
  split
  · exact .malformed _ _ _ huv
  · generalize keyword.domain? = domain
    split
    · next hfound =>
      obtain ⟨rfl, rfl⟩ := Prod.mk.inj hfound
      exact .ok rfl hwx
    · next hfound =>
      obtain ⟨rfl, rfl⟩ := Prod.mk.inj hfound
      exact readAssignment_parallel _ _ _ hwx
    · next hfound =>
      obtain ⟨rfl, rfl⟩ := Prod.mk.inj hfound
      exact readCall_parallel _ _ _ _ hwx
    · next hfound =>
      obtain ⟨rfl, rfl⟩ := Prod.mk.inj hfound
      exact .malformed _ _ _ hwx
    · next hfound =>
      obtain ⟨rfl, rfl⟩ := Prod.mk.inj hfound
      exact .malformed _ _ _ hwx
    · next hfound _ _ _ _ =>
      obtain ⟨rfl, rfl⟩ := Prod.mk.inj hfound
      simp only
      exact .malformed _ _ _ hwx

/-- **Items are the same** wherever they stand. -/
theorem read_parallel (h : s.stream = t.stream) : Parallel SameItem (read s) (read t) := by
  obtain ⟨name, u, v, hu, hv, huv⟩ := readName_congr h
  simp only [read, hu, hv, huv]
  split
  · exact .malformed _ _ _ huv
  · split
    · exact readDeclaration_parallel _ huv
    · obtain ⟨opened, w, x, hw, hx, hwx⟩ :=
        Scanner.accept_congr (Scanner.stream_skipBlank_congr huv) '['
      simp only [hw, hx]
      cases opened with
      | true => exact readCall_parallel _ _ _ _ hwx
      | false => exact .malformed _ _ _ hwx

end Item

/-! ### All items that are left -/

namespace Procedure

theorem addItem_displaced (natives : Registry α) (p : Procedure) {i j : Item} (h : Item.SameItem i j) :
    Displaced Eq (p.addItem natives i) (p.addItem natives j) := by
  cases i <;> cases j <;> cases h
  · exact .ok rfl
  · exact .ok rfl
  · next native arguments place other =>
    simp only [addItem]
    split
    · exact .ok rfl
    · split
      · exact .malformed _ _ _
      · exact .ok rfl

/-- **What is left is read the same**, wherever it stands: the same procedure comes out, or the same error. -/
theorem readItems_displaced (natives : Registry α) (p : Procedure) (h : s.stream = t.stream) :
    Displaced Eq (readItems natives p s) (readItems natives p t) := by
  induction hn : s.remaining using Nat.strong_induction_on generalizing s t p with
  | _ n ih =>
    subst hn
    have hskip := Scanner.stream_skipBlank_congr h
    rw [readItems_eq natives p s, readItems_eq natives p t, ← hskip]
    split
    · exact .ok rfl
    · obtain ⟨i, j, u, v, hu, hv, hitem, huv⟩ | ⟨flaw, place, other, u, v, hu, hv, huv⟩ :=
        (Item.read_parallel hskip).ok_or_malformed
      · simp only [hu, hv]
        have hlt : u.remaining < s.remaining :=
          Nat.lt_of_lt_of_le (Item.remaining_read_lt hu) s.remaining_skipBlank_le
        have hadd := addItem_displaced natives p hitem
        generalize p.addItem natives i = left at hadd ⊢
        generalize p.addItem natives j = right at hadd ⊢
        cases hadd with
        | malformed flaw place other => exact .malformed flaw place other
        | ok hq =>
          obtain rfl := hq
          exact ih _ hlt _ huv rfl
      · rw [hu, hv]
        exact .malformed flaw place other

end Procedure

end TreeScript
