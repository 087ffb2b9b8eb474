import TreeScript.Proofs.Places

/-!
# The characters that are no operands

Where an operand should stand and another character does, the error names the character and a place.  The
place is that of the character, as long as nothing was put back; behind a run that was put back it is another
one.

- `Text.CharAt.not_pastRun`: a place of a character is not behind a run with it.
- `Procedure.ItemAt`: the items of a procedure.
- `operandExpected_points`: expressions and procedures.
-/

namespace TreeScript

open Scanner Text

namespace Text

variable {text word : List Char} {place : Position} {c : Char}

theorem offset_le_after (p : Position) (cs : List Char) : p.offset + cs.length ≤ (p.after cs).offset := by
  induction cs generalizing p with
  | nil => exact Nat.le_refl _
  | cons c cs ih =>
    have hstep : p.offset + 1 ≤ (p.step c).offset := by
      have hsize := c.utf8Size_pos
      unfold Position.step
      split <;> exact Nat.add_le_add_left hsize _
    have hcs := ih (p.step c)
    rw [Position.after_cons, List.length_cons]
    omega

theorem eq_of_isPrefix_of_after_eq {cs ds : List Char} (hcs : cs <+: ds)
    (hplace : Position.start.after cs = Position.start.after ds) : cs = ds := by
  obtain ⟨es, rfl⟩ := hcs
  have hle := offset_le_after (Position.start.after cs) es
  rw [← Position.after_append, ← hplace] at hle
  have hnil : es = [] := List.length_eq_zero_iff.1 (by omega)
  rw [hnil, List.append_nil]

/-- Different places of a text have different positions. -/
theorem eq_of_after_eq {front behind front' behind' : List Char} (h : text = front ++ behind)
    (h' : text = front' ++ behind')
    (hplace : Position.start.after front = Position.start.after front') : front = front' := by
  obtain hprefix | hprefix := List.prefix_or_prefix_of_prefix ⟨behind, h.symm⟩ ⟨behind', h'.symm⟩
  · exact eq_of_isPrefix_of_after_eq hprefix hplace
  · exact (eq_of_isPrefix_of_after_eq hprefix hplace.symm).symm

/-- Behind a run another character stands. -/
theorem CharAt.not_pastRun (h : CharAt text place c) : ¬PastRun text place c := by
  rintro ⟨word, hc, ⟨before, behind, htext, hplace, d, hd, hend⟩, hword⟩
  obtain ⟨front, rest, htext', hplace'⟩ := h
  obtain rfl : front = before ++ word := eq_of_after_eq htext' htext (hplace'.symm.trans hplace)
  rw [htext, List.append_cancel_left_eq] at htext'
  rw [htext', List.head?_cons, Option.mem_some_iff] at hd
  subst hd
  rw [hword c hc] at hend
  cases hend

end Text

/-! ### Procedures -/

namespace Procedure

variable {α : Type} {natives : Registry α} {engine : Engine} {text : String} {s t : Scanner} {e : Error}

/-- A scanner in front of an item of the first procedure of a text, or at the end of the procedure. -/
inductive ItemAt (text : String) : Scanner → Prop
  | first {body : Section} {s t : Scanner} {metadata : Option Node}
      (hfind : ((Scanner.ofString text).findSection '[' ']').1 = .ok body)
      (hname : (body.scanner.skipBlank.readUntilChar ':' false).2.accept ':' = (true, s))
      (hmetadata : readMetadata s = (.ok metadata, t)) : ItemAt text t.skipBlank
  | next {s t : Scanner} {item : Item} (h : ItemAt text s) (hread : Item.read s = (.ok item, t)) :
      ItemAt text t.skipBlank

/-- The text of the first procedure of a text is a piece that is closed behind it. -/
theorem exists_within_body {body : Section}
    (hfind : ((Scanner.ofString text).findSection '[' ']').1 = .ok body) :
    ∃ p : Piece (unifyLineEnds text.toList), p.behind.head? = some ']' ∧ Within p (fun _ => False) body.scanner := by
  have hstart : Within (Piece.whole text.toList) (fun _ => False) (.ofString text) := within_ofString text
  obtain ⟨p, hbehind, hp⟩ := (hstart.findSection '[' ']' id (by decide)).2 body hfind
  exact ⟨p, hbehind, hp _⟩

/-- In front of an item nothing is put back. -/
theorem ItemAt.within (h : ItemAt text s) : ∃ p : Piece (unifyLineEnds text.toList),
    p.behind.head? = some ']' ∧ Within p (fun _ => False) s := by
  induction h with
  | @first body s t metadata hfind hname hmetadata =>
    obtain ⟨p, hbehind, hp⟩ := exists_within_body hfind
    have hs : Within p (fun _ => False) s := ((hp.skipBlank.readUntil _).accept ':').of_eq hname
    exact ⟨p, hbehind, ((stays_readMetadata hs).of_ok hmetadata).skipBlank⟩
  | @next s t item h hread ih =>
    obtain ⟨p, hbehind, hs⟩ := ih
    have hsettles := Item.settles_read hs hbehind
    rw [hread] at hsettles
    exact ⟨p, hbehind, (hsettles.within item rfl).skipBlank⟩

theorem itemAt_of_readItems {q : Procedure} (h : ItemAt text s.skipBlank)
    (herror : readItems natives q s = .error e) (he : ¬AsksNoOperand e) :
    ∃ u, ItemAt text u ∧ (Item.read u).1 = .error e := by
  fun_induction readItems natives q s with
  | case1 q s hend => cases herror
  | case2 q s hmore e' t hread =>
    obtain rfl := Except.error.inj herror
    exact ⟨s.skipBlank, h, congrArg Prod.fst hread⟩
  | case3 q s hmore item t hread e' hadd =>
    obtain rfl := Except.error.inj herror
    obtain ⟨p, hbehind, hs⟩ := h.within
    have hplaced := (Item.settles_read hs hbehind).result item (congrArg Prod.fst hread)
    exact absurd (plain_addItem hplaced q _ hadd).asksNoOperand he
  | case4 q s hmore item t hread r hadd ih => exact ih (h.next hread) herror

/-- An error about an operand is that of an item. -/
theorem itemAt_of_parse (herror : parse natives engine text = .error e) (he : ¬AsksNoOperand e) :
    ∃ u, ItemAt text u ∧ (Item.read u).1 = .error e := by
  rw [parse, fst_read] at herror
  cases hfind : ((Scanner.ofString text).findSection '[' ']').1 with
  | error e' =>
    rw [hfind] at herror
    obtain rfl := Except.error.inj herror
    have hstart : Within (Piece.whole text.toList) (fun _ => False) (.ofString text) := within_ofString text
    obtain ⟨hstays, -⟩ := hstart.findSection '[' ']' id (by decide)
    exact absurd (hstays.failsOnly _ hfind).asksNoOperand he
  | ok body =>
    rw [hfind] at herror
    simp only [Except.bind, readInside] at herror
    split at herror
    · obtain rfl := Except.error.inj herror
      exact absurd trivial he
    · next u hname =>
      split at herror
      · next e' v hmetadata =>
        obtain rfl := Except.error.inj herror
        obtain ⟨p, -, hp⟩ := exists_within_body hfind
        have hu : Within p (fun _ => False) u := ((hp.skipBlank.readUntil _).accept ':').of_eq hname
        exact absurd ((stays_readMetadata hu).failsOnly _ (congrArg Prod.fst hmetadata)).asksNoOperand he
      · next metadata v hmetadata => exact itemAt_of_readItems (.first hfind hname hmetadata) herror he

end Procedure

/-! ### Texts -/

/-- **The places of missing operands.**  Where an expression is asked for an operand and finds a character,
the error stands at the character.  In a procedure it stands there, or else behind the run that was put back,
which has the character in it.  In items that begin with a keyword, that is, in assignments and in arguments of
a fixed domain, it stands at the character. -/
theorem operandExpected_points (text : String) (c : Char) (place : Position) :
    (Expr.parse text = .error (.malformed (.operandExpected (some c)) place) →
      CharAt (unifyLineEnds text.toList) place c) ∧
    ∀ {α : Type} (natives : Registry α) (engine : Engine),
      Procedure.parse natives engine text = .error (.malformed (.operandExpected (some c)) place) →
        (¬CharAt (unifyLineEnds text.toList) place c ↔ PastRun (unifyLineEnds text.toList) place c) ∧
        ∃ s, Procedure.ItemAt text s ∧
          (Item.read s).1 = .error (.malformed (.operandExpected (some c)) place) ∧
          ((Keyword.ofWord? (Item.readName s).1).isSome = true →
            CharAt (unifyLineEnds text.toList) place c) := by
  constructor
  · intro herror
    have hpoints := (Expr.reported_parse text _ herror).points c place rfl
    exact hpoints.resolve_right And.left
  · intro α natives engine herror
    obtain ⟨s, hitem, hread⟩ := Procedure.itemAt_of_parse herror id
    obtain ⟨p, hbehind, hs⟩ := hitem.within
    have hpoints := ((Item.settles_read hs hbehind).failsOnly _ hread).points c place rfl
    refine ⟨⟨fun hnot => (hpoints.resolve_left hnot).2, fun hpast hat => hat.not_pastRun hpast⟩,
      s, hitem, hread, fun hkeyword => ?_⟩
    refine hpoints.resolve_right fun hrun => ?_
    rw [hrun.1] at hkeyword
    cases hkeyword

/-- A character of two bytes in front of the operand, and a section around it. -/
theorem operandExpected_section :
    (Expr.parse "(é + *2)").map (fun _ => ()) = .error (.malformed (.operandExpected (some '*')) ⟨1, 6, 6⟩) := by
  with_unfolding_all rfl

/-- The run in front of the argument is `*x`, which is no keyword and is put back. -/
theorem operandExpected_putBack :
    (Procedure.parse (Registry.ofNames []) {} "[f: print[*x]]").map (fun _ => ()) =
      .error (.malformed (.operandExpected (some '*')) ⟨1, 13, 12⟩) := by
  with_unfolding_all rfl

theorem operandExpected_points_sample :
    CharAt (unifyLineEnds "(é + *2)".toList) ⟨1, 6, 6⟩ '*' ∧
    (CharAt (unifyLineEnds "[f: print[*x]]".toList) ⟨1, 13, 12⟩ '*' ∨
      PastRun (unifyLineEnds "[f: print[*x]]".toList) ⟨1, 13, 12⟩ '*') := by
  obtain ⟨hexpr, -⟩ := operandExpected_points "(é + *2)" '*' ⟨1, 6, 6⟩
  obtain ⟨-, hprocedure⟩ := operandExpected_points "[f: print[*x]]" '*' ⟨1, 13, 12⟩
  obtain ⟨hpast, -⟩ := hprocedure _ _ (map_eq_error_iff.1 operandExpected_putBack)
  exact ⟨hexpr (map_eq_error_iff.1 operandExpected_section), or_iff_not_imp_left.2 hpast.1⟩

/-- The place of the error is that of the bracket, two characters behind the one that is no operand. -/
theorem exists_operandExpected_elsewhere :
    ∃ (text : String) (c : Char) (place : Position),
      Procedure.parse (Registry.ofNames []) {} text = .error (.malformed (.operandExpected (some c)) place) ∧
      ¬CharAt (unifyLineEnds text.toList) place c := by
  refine ⟨"[f: print[*x]]", '*', ⟨1, 13, 12⟩, map_eq_error_iff.1 operandExpected_putBack, fun hat => ?_⟩
  have hword : ∀ c ∈ ['*', 'x'], isRunEnd c = false :=
    List.forall_mem_cons.2 ⟨by decide, List.forall_mem_singleton.2 (by decide)⟩
  have hrun : RunEnds (unifyLineEnds "[f: print[*x]]".toList) ['*', 'x'] ⟨1, 13, 12⟩ :=
    ⟨⟨"[f: print[".toList, "]]\n".toList, by decide, by decide, ']', by decide, by decide⟩, hword⟩
  exact hat.not_pastRun ⟨_, by decide, hrun⟩

end TreeScript
