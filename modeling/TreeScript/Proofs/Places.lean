import TreeScript.Proofs.Items
import TreeScript.Proofs.Natives

/-!
# Errors and their places

The readers of nodes, of expressions and of procedures are put together from readers that stay in a
piece of the text.  They open scanners for sections only, which are pieces again.  So every error that
they report stands at a place of the text, or behind the line feed that the scanner of a section has put
at its end.

- `Node.stays_readAll`: readers of nodes stay in their piece.
- `Procedure.located_readAll`: the errors of procedures.
- `malformed_placed`: every error of the three parsers, and that it has a place.
-/

namespace TreeScript

open Scanner Text

variable {text : List Char} {p : Piece text} {pushable : Char → Prop} {s : Scanner} {place : Position}

/-! ### Nodes -/

namespace Node

theorem stays_readLeaf (key : List Char) (hplace : Placed text place) (h : Within p pushable s) :
    Stays p pushable (readLeaf key place s) := by
  have hend := (h.skipBlank.readUntil (· = ';')).accept ';'
  simp only [readLeaf]
  split
  · next u haccept => exact kept_ok _ (hend.of_eq haccept)
  · next u haccept => exact kept_error ⟨⟨_, _, rfl, hplace⟩, trivial⟩ (hend.of_eq haccept)

theorem plain_readInside {mode : ReadMode}
    {readNodes : (t : Scanner) → t.remaining ≤ s.remaining → Except Error (List Node)}
    (h : Within p pushable s)
    (hnodes : ∀ t ht, Within p pushable t → FailsOnly (Plain text) (readNodes t ht)) :
    FailsOnly (Plain text) (readInside mode s readNodes) := by
  simp only [readInside]
  split
  · exact failsOnly_error (h.skipBlank.plain trivial)
  · split
    · exact failsOnly_ok _
    · exact (hnodes _ _ ((h.skipBlank.readUntil _).accept ':')).map _

theorem stays_readWith {mode : ReadMode}
    {readNodes : (t : Scanner) → t.remaining < s.remaining → Except Error (List Node)}
    (h : Within p (fun _ => False) s)
    (hnodes : ∀ (q : Piece text) t ht, Within q (fun _ => False) t →
      FailsOnly (Plain text) (readNodes t ht)) :
    Stays p (fun _ => False) (readWith mode s readNodes) := by
  have hkey : Within p (fun _ => False) (s.skipBlank.readUntilAny ['[', ':', ']'] false).2 :=
    h.skipBlank.readUntil _
  obtain ⟨hstays, hsection⟩ := hkey.findSection '[' ']' id (by decide)
  simp only [readWith]
  split
  · exact kept_error (h.skipBlank.plain trivial) hkey
  · exact kept_ok _ (hkey.advance 1)
  · exact stays_readLeaf _ h.skipBlank.placed (hkey.advance 1)
  · split
    · exact kept_error (h.skipBlank.plain trivial) hkey
    · split
      · next e t hfind => exact hstays.error hfind
      · next body t hfind =>
        obtain ⟨q, -, hq⟩ := hsection body (congrArg Prod.fst hfind)
        have hend := hstays.of_ok hfind
        refine kept_of_failsOnly (plain_readInside (hq fun _ => False) ?_) hend
        exact fun u hu hu' => hnodes q u _ hu'

theorem stays_readAll (mode : ReadMode) (h : Within p (fun _ => False) s) :
    Stays p (fun _ => False) (readAll mode s) := by
  induction hn : s.remaining using Nat.strong_induction_on generalizing s p with
  | _ n ih =>
    subst hn
    have hfirst : Stays p (fun _ => False) (readWith mode s fun t _ => (readAll mode t).1) :=
      stays_readWith h fun q t ht hq => (ih _ ht hq rfl).failsOnly
    rw [readAll_eq]
    split
    · exact kept_ok _ h.skipBlank
    · split
      · next e t hread => exact hfirst.error hread
      · next node t hread =>
        have hend := hfirst.of_ok hread
        exact (ih _ (remaining_readWith_lt hread) hend rfl).map (node :: ·)

theorem stays_read (mode : ReadMode) (h : Within p (fun _ => False) s) :
    Stays p (fun _ => False) (read mode s) :=
  stays_readWith h fun _ _ _ hq => (stays_readAll mode hq).failsOnly

end Node

/-! ### Procedures -/

namespace Procedure

variable {α : Type} {natives : Registry α} {engine : Engine}

theorem plain_addItem {item : Item} (hitem : item.Placed text) (q : Procedure) :
    FailsOnly (Plain text) (q.addItem natives item) := by
  cases item with
  | declare keyword name => exact failsOnly_ok _
  | assign keyword name value => exact failsOnly_ok _
  | call native arguments position =>
    rw [addItem]
    split
    · exact failsOnly_ok _
    · split
      · exact failsOnly_error ⟨⟨_, _, rfl, hitem⟩, trivial⟩
      · exact failsOnly_ok _

theorem located_readItems (q : Procedure) (h : Within p (fun _ => False) s)
    (hbehind : p.behind.head? = some ']') : FailsOnly (Located text) (readItems natives q s) := by
  fun_induction readItems natives q s with
  | case1 q s hend => exact failsOnly_ok q
  | case2 q s hmore e t hread =>
    have hsettles := Item.settles_read h.skipBlank hbehind
    exact failsOnly_error (hsettles.failsOnly e (congrArg Prod.fst hread)).located
  | case3 q s hmore item t hread e hadd =>
    have hsettles := Item.settles_read h.skipBlank hbehind
    have hplaced := hsettles.result item (congrArg Prod.fst hread)
    exact failsOnly_error (plain_addItem hplaced q e hadd).located
  | case4 q s hmore item t hread r hadd ih =>
    have hsettles := Item.settles_read h.skipBlank hbehind
    rw [hread] at hsettles
    exact ih (hsettles.within item rfl)

theorem stays_readMetadata (h : Within p (fun _ => False) s) :
    Stays p (fun _ => False) (readMetadata s) := by
  simp only [readMetadata]
  split
  · exact (Node.stays_read .recursive h.skipBlank).map some
  · exact kept_ok none h.skipBlank

theorem located_readInside (h : Within p (fun _ => False) s) (hbehind : p.behind.head? = some ']') :
    FailsOnly (Located text) (readInside natives engine s) := by
  have hname := (h.skipBlank.readUntil (· = ':')).accept ':'
  simp only [readInside]
  split
  · exact failsOnly_error ⟨_, _, rfl, h.skipBlank.placed⟩
  · next u haccept =>
    have hmetadata := stays_readMetadata (hname.of_eq haccept)
    split
    · next e v hread => exact failsOnly_error (hmetadata.failsOnly e (congrArg Prod.fst hread)).located
    · next metadata v hread => exact located_readItems _ (hmetadata.of_ok hread) hbehind

theorem kept_read (h : Within p (fun _ => False) s) :
    Kept (Within p fun _ => False) (Located text) (read natives engine s) := by
  obtain ⟨hstays, hsection⟩ := h.findSection '[' ']' id (by decide)
  refine ⟨?_, hstays.scanner⟩
  rw [fst_read]
  cases hfind : (s.findSection '[' ']').1 with
  | error e => exact failsOnly_error (hstays.failsOnly e hfind).located
  | ok body =>
    obtain ⟨q, hbehind, hq⟩ := hsection body hfind
    simp only [Except.bind]
    exact located_readInside (hq fun _ => False) hbehind

theorem located_readAll (h : Within p (fun _ => False) s) :
    FailsOnly (Located text) (readAll natives engine s) := by
  fun_induction readAll natives engine s with
  | case1 s hend => exact failsOnly_ok []
  | case2 s hmore e t hread =>
    exact failsOnly_error ((kept_read h.skipBlank).failsOnly e (congrArg Prod.fst hread))
  | case3 s hmore q t hread ih => exact (ih ((kept_read h.skipBlank).of_ok hread)).map _

end Procedure

/-- **The places of errors.**  Whatever is wrong with a text, each of the three parsers says so with a
position that is a place of the normalised text, or that the end of a section would have if its last line
were ended. -/
theorem malformed_placed (text : String) :
    FailsOnly (Located (unifyLineEnds text.toList)) (Node.parseAll text) ∧
    FailsOnly (Located (unifyLineEnds text.toList)) (Expr.parse text) ∧
    ∀ {α : Type} (natives : Registry α) (engine : Engine),
      FailsOnly (Located (unifyLineEnds text.toList)) (Procedure.parseAll natives engine text) :=
  ⟨(Node.stays_readAll .recursive (within_ofString text)).failsOnly.mono fun _ he => he.located,
    (Expr.reported_parse text).mono fun _ he => he.located,
    fun _ _ => (Procedure.located_readAll (within_ofString text)).map _⟩

/-- The semicolon is missing in front of the bracket, which is the thirteenth character of the one line.
-/
theorem assignmentUnclosed_secondLine :
    (Procedure.parseAll (Registry.ofNames []) {} "[f: int x: 1]").map (fun _ => ()) =
      .error (.malformed (.assignmentUnclosed "x") ⟨2, 1, 13⟩) := by
  with_unfolding_all rfl

theorem malformed_placed_sample :
    Placed (unifyLineEnds "[f: int x: 1]".toList) ⟨2, 1, 13⟩ ∧
      unifyLineEnds "[f: int x: 1]".toList = "[f: int x: 1]\n".toList := by
  obtain ⟨-, -, hprocedures⟩ := malformed_placed "[f: int x: 1]"
  have herror := map_eq_error_iff.1 assignmentUnclosed_secondLine
  obtain ⟨flaw, position, heq, hplaced⟩ := hprocedures (Registry.ofNames []) {} _ herror
  cases heq
  exact ⟨hplaced, by decide⟩

/-- A position behind a line feed that is not there is no place of the text. -/
theorem exists_malformed_outside :
    ∃ (text : String) (flaw : Flaw) (position : Position),
      Procedure.parseAll (Registry.ofNames []) {} text = .error (.malformed flaw position) ∧
      ∀ front behind, unifyLineEnds text.toList = front ++ behind →
        position ≠ Position.start.after front := by
  refine ⟨"[f: int x: 1]", _, _, map_eq_error_iff.1 assignmentUnclosed_secondLine, ?_⟩
  intro front behind h
  have hall : ∀ n ≤ 14, (⟨2, 1, 13⟩ : Position) ≠
      Position.start.after ((unifyLineEnds "[f: int x: 1]".toList).take n) := by
    with_unfolding_all decide
  have hfront : front = (unifyLineEnds "[f: int x: 1]".toList).take front.length := by
    rw [h, List.take_left]
  have hlength : front.length ≤ 14 := by
    have := congrArg List.length h
    rw [List.length_append] at this
    have htotal : (unifyLineEnds "[f: int x: 1]".toList).length = 14 := by decide
    omega
  rw [hfront]
  exact hall _ hlength

end TreeScript
