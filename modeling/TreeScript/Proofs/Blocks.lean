import TreeScript.Proofs.Natives
import TreeScript.Proofs.Positions

/-!
# The blocks of a text

A text of procedures is read block by block.  In front of each block the reader passes over everything
up to the next opening bracket, and it looks at what is left once there is no block any more; so text
that stands in front of a block is passed over, and only behind the last block it is an error.

- `Procedure.Blocks`: a text as blocks, with a kind of text that may stand in front of each.
- `Procedure.Follows`, `Follows.findSection`: a scanner behind some blocks, and the next one.
- `Procedure.blocks_of_readAll`, `Procedure.Blocks.readAll_eq`: both directions, for scanners.
- `Procedure.parseAll_blocks`: both directions, for texts.
-/

namespace TreeScript.Procedure

open Scanner Text

variable {α : Type} {natives : Registry α} {engine : Engine} {gap : List Char → Prop}

/-- The text behind `before` is a sequence of blocks, each with a procedure inside and a text of some
kind in front of it, and a tail without opening brackets.  The inside of a block is read at its place.
-/
inductive Blocks (natives : Registry α) (engine : Engine) (gap : List Char → Prop) :
    List Char → List Char → List Procedure → List Char → Prop
  | tail {before tail : List Char} (htail : '[' ∉ tail) : Blocks natives engine gap before tail [] tail
  | block {before lead body rest tail : List Char} {p : Procedure} {ps : List Procedure}
      (hlead : gap lead) (hbody : Balanced '[' ']' body)
      (hinside : readInside natives engine
        (Section.scanner ⟨body, Position.start.after (before ++ lead ++ ['['])⟩) = .ok p)
      (hrest : Blocks natives engine gap (before ++ lead ++ '[' :: (body ++ [']'])) rest ps tail) :
      Blocks natives engine gap before (lead ++ '[' :: (body ++ ']' :: rest)) (p :: ps) tail

/-- A text without opening brackets. -/
def NoOpening (cs : List Char) : Prop := '[' ∉ cs

theorem noOpening_of_allBlank {cs : List Char} (h : AllBlank cs) : NoOpening cs := by
  intro hmem
  exact absurd (h '[' hmem) (by decide)

/-! ### One block -/

variable {cs before : List Char} {s t : Scanner}

/-- A scanner for a text, behind some of its characters. -/
structure Follows (cs before : List Char) (s : Scanner) : Prop where
  within : Within (Piece.whole cs) (fun _ => False) s
  text_eq : unifyLineEnds cs = before ++ s.stream

theorem follows_ofString (text : String) : Follows text.toList [] (.ofString text) :=
  ⟨within_ofString text, rfl⟩

theorem Follows.position_eq (h : Follows cs before s) : s.position = Position.start.after before := by
  obtain ⟨taken, hinner, hposition⟩ := h.within.taken
  have hpushed : s.pushed = [] := List.eq_nil_iff_forall_not_mem.2 h.within.pushed
  have hsame : taken ++ s.stream = before ++ s.stream := by
    rw [stream, hpushed, List.nil_append, ← hinner, ← List.nil_append s.rest, ← hpushed]
    exact (endLine_unifyLineEnds cs).trans h.text_eq
  rw [hposition, ← List.append_cancel_right hsame]
  rfl

theorem Follows.skipBlank (h : Follows cs before s) :
    ∃ pad, AllBlank pad ∧ s.stream = pad ++ s.skipBlank.stream ∧
      Follows cs (before ++ pad) s.skipBlank := by
  obtain ⟨pad, hpad, hs⟩ := s.stream_eq_skipBlank
  exact ⟨pad, hpad, hs, h.within.skipBlank, by rw [h.text_eq, hs, List.append_assoc]⟩

/-- The next section, and what it is behind. -/
theorem Follows.findSection {body : Section} (h : Follows cs before s)
    (hfind : s.findSection '[' ']' = (.ok body, t)) :
    ∃ lead, NoOpening lead ∧ Balanced '[' ']' body.text ∧
      s.stream = lead ++ '[' :: (body.text ++ ']' :: t.stream) ∧
      body.origin = Position.start.after (before ++ lead ++ ['[']) ∧
      Follows cs (before ++ lead ++ '[' :: (body.text ++ [']'])) t := by
  obtain ⟨lead, hlead, hbody, hs⟩ := findSection_sound (by decide) hfind
  obtain ⟨hstays, -⟩ := h.within.findSection '[' ']' id (by decide)
  refine ⟨lead, hlead, hbody, hs, ?_, hstays.of_ok hfind, ?_⟩
  · obtain ⟨-, hcase⟩ | ⟨inner, rfl, hopen, ⟨-, hcase⟩ | ⟨text, behind, hinner, -, hcase⟩⟩ :=
      findSection_cases '[' ']' s
    · rw [hcase] at hfind
      cases hfind
    · rw [hcase] at hfind
      cases hfind
    · rw [hcase] at hfind
      obtain ⟨hbody, rfl⟩ := Prod.mk.inj hfind
      obtain rfl := Except.ok.inj hbody
      obtain ⟨hwithin, -⟩ := h.within.opened id hopen
      have hfollows : Follows cs (before ++ lead ++ ['['])
          ((s.skipUntilChar '[' false).advance 1) := by
        refine ⟨hwithin, ?_⟩
        rw [h.text_eq, hs, hinner]
        simp [hinner]
      exact hfollows.position_eq
  · rw [h.text_eq, hs]
    simp

/-- A block that stands next in the text is found, and what is behind it is left. -/
theorem Follows.findSection_of_stream {lead body rest : List Char} (h : Follows cs before s)
    (hlead : NoOpening lead) (hbody : Balanced '[' ']' body)
    (hs : s.stream = lead ++ '[' :: (body ++ ']' :: rest)) :
    ∃ t, s.findSection '[' ']' =
        (.ok ⟨body, Position.start.after (before ++ lead ++ ['['])⟩, t) ∧ t.stream = rest ∧
      Follows cs (before ++ lead ++ '[' :: (body ++ [']'])) t := by
  obtain ⟨origin, t, hfind, ht⟩ := findSection_complete (by decide) hlead hbody hs
  obtain ⟨lead', -, -, hs', rfl, hrest⟩ := h.findSection hfind
  obtain rfl : lead = lead' := by
    rw [hs, ht] at hs'
    exact List.append_cancel_right hs'
  exact ⟨t, hfind, ht, hrest⟩

/-! ### All blocks -/

theorem read_eq_ok_iff {p : Procedure} : read natives engine s = (.ok p, t) ↔
    ∃ body, s.findSection '[' ']' = (.ok body, t) ∧ readInside natives engine body.scanner = .ok p := by
  simp only [read]
  rcases s.findSection '[' ']' with ⟨found, u⟩
  cases found with
  | error e => simp [Except.bind]
  | ok body =>
    simp only [Except.bind, Prod.mk.injEq, Except.ok.injEq]
    constructor
    · rintro ⟨hinside, rfl⟩
      exact ⟨body, ⟨rfl, rfl⟩, hinside⟩
    · rintro ⟨_, ⟨rfl, rfl⟩, hinside⟩
      exact ⟨hinside, rfl⟩

theorem readAll_of_read {p : Procedure} (h : read natives engine s.skipBlank = (.ok p, t)) :
    readAll natives engine s = (readAll natives engine t).map (p :: ·) := by
  have hmore : ¬s.skipBlank.stream.isEmpty = true := by
    intro hend
    have hlt := remaining_read_lt h
    rw [remaining, remaining, List.isEmpty_iff.1 hend] at hlt
    exact Nat.not_lt_zero _ hlt
  rw [readAll, if_neg hmore]
  split
  · next hread =>
    rw [h] at hread
    cases hread
  · next hread =>
    rw [h] at hread
    cases hread
    rfl

/-- What is read is a sequence of blocks with blanks behind it. -/
theorem blocks_of_readAll {ps : List Procedure} (h : Follows cs before s)
    (hread : readAll natives engine s = .ok ps) :
    ∃ tail, Blocks natives engine NoOpening before s.stream ps tail ∧ AllBlank tail := by
  obtain ⟨pad, hpad, hs, hskip⟩ := h.skipBlank
  fun_induction Procedure.readAll natives engine s generalizing before pad ps with
  | case1 s hend =>
    obtain rfl := Except.ok.inj hread
    have hstream : s.stream = pad := by rw [hs, List.isEmpty_iff.1 hend, List.append_nil]
    rw [hstream]
    exact ⟨pad, .tail (noOpening_of_allBlank hpad), hpad⟩
  | case2 => cases hread
  | case3 s hmore first t hfirst ih =>
    obtain ⟨others, hothers, rfl⟩ := map_eq_ok_iff.1 hread
    obtain ⟨body, hfind, hinside⟩ := read_eq_ok_iff.1 hfirst
    obtain ⟨lead, hlead, hbody, hstream, horigin, hrest⟩ := hskip.findSection hfind
    obtain ⟨pad', hpad', ht, htskip⟩ := hrest.skipBlank
    obtain ⟨tail, hblocks, htail⟩ := ih hrest hothers pad' hpad' ht htskip
    have hfront : NoOpening (pad ++ lead) := fun hmem =>
      (List.mem_append.1 hmem).elim (noOpening_of_allBlank hpad) hlead
    have hlocated : readInside natives engine
        (Section.scanner ⟨body.text, Position.start.after (before ++ (pad ++ lead) ++ ['['])⟩) =
          .ok first := by
      rw [← List.append_assoc, ← horigin]
      exact hinside
    rw [List.append_assoc before pad lead] at hblocks
    have hall := Blocks.block hfront hbody hlocated hblocks
    rw [hs, hstream]
    exact ⟨tail, by simpa using hall, htail⟩

/-- The reader goes through the blocks and arrives at what is behind them. -/
theorem Blocks.readAll_eq {rest tail : List Char} {ps : List Procedure}
    (h : Blocks natives engine NoOpening before rest ps tail) (hfollows : Follows cs before s)
    (hs : s.stream = rest) :
    ∃ front t, Follows cs front t ∧ t.stream = tail ∧
      Procedure.readAll natives engine s =
        (Procedure.readAll natives engine t).map (ps ++ ·) := by
  induction h generalizing s with
  | @tail before rest htail =>
    refine ⟨before, s, hfollows, hs, ?_⟩
    cases Procedure.readAll natives engine s <;> rfl
  | @block before lead body rest tail p ps hlead hbody hinside hrest ih =>
    obtain ⟨pad, hpad, hstream, hskip⟩ := hfollows.skipBlank
    -- the blanks that are skipped stand in front of the bracket
    obtain ⟨lead', rfl, hlead'⟩ : ∃ lead', lead = pad ++ lead' ∧
        s.skipBlank.stream = lead' ++ '[' :: (body ++ ']' :: rest) := by
      rw [hs] at hstream
      obtain ⟨blanks, rfl, hrest⟩ | hlead := List.append_eq_append_iff.1 hstream
      · cases blanks with
        | nil => exact ⟨[], by simp, hrest.symm⟩
        | cons c blanks =>
          obtain rfl : '[' = c := (List.cons.inj hrest).1
          exact absurd (hpad '[' (by simp)) (by decide)
      · exact hlead
    have hopening : NoOpening lead' := fun hmem => hlead (List.mem_append_right pad hmem)
    obtain ⟨t, hfind, ht, hfollows'⟩ := hskip.findSection_of_stream hopening hbody hlead'
    rw [List.append_assoc before pad lead'] at hfind hfollows'
    have hread : read natives engine s.skipBlank = (.ok p, t) :=
      read_eq_ok_iff.2 ⟨_, hfind, hinside⟩
    obtain ⟨front, u, hu, htail, hothers⟩ := ih hfollows' ht
    refine ⟨front, u, hu, htail, ?_⟩
    rw [readAll_of_read hread, hothers]
    cases Procedure.readAll natives engine u <;> rfl

/-- Behind the last block there are blanks only, or there is an error at the first other character. -/
theorem readAll_of_noOpening (natives : Registry α) (engine : Engine) (h : Follows cs before s)
    (htail : NoOpening s.stream) :
    (AllBlank s.stream ∧ readAll natives engine s = .ok []) ∨
    ∃ pad rest, s.stream = pad ++ rest ∧ AllBlank pad ∧ Flush rest ∧ rest ≠ [] ∧
      readAll natives engine s =
        .error (.malformed (.openingExpected "[") (Position.start.after (before ++ pad))) := by
  obtain ⟨pad, hpad, hs, hskip⟩ := h.skipBlank
  rw [readAll]
  by_cases hend : s.skipBlank.stream.isEmpty = true
  · rw [if_pos hend]
    left
    rw [hs, List.isEmpty_iff.1 hend, List.append_nil]
    exact ⟨hpad, rfl⟩
  · right
    refine ⟨pad, s.skipBlank.stream, hs, hpad, s.flush_skipBlank, by simpa using hend, ?_⟩
    have hfind : read natives engine s.skipBlank =
        (.error (.malformed (.openingExpected "[") (Position.start.after (before ++ pad))),
          s.skipBlank.skipUntilChar '[' false) := by
      obtain ⟨-, hfind⟩ | ⟨inner, -, hopen, -⟩ := findSection_cases '[' ']' s.skipBlank
      · simp only [read, hfind, hskip.position_eq]
        rfl
      · have hsplit := s.skipBlank.stream_eq_readUntil (· = '[')
        have hmem : '[' ∈ s.stream := by
          rw [hs, hsplit]
          refine List.mem_append_right pad (List.mem_append_right _ ?_)
          show '[' ∈ (s.skipBlank.skipUntilChar '[' false).stream
          simp [hopen]
        exact absurd hmem htail
    rw [if_neg hend]
    split
    · next hread =>
      rw [hfind] at hread
      cases hread
      rfl
    · next hread =>
      rw [hfind] at hread
      cases hread

theorem Blocks.noOpening_tail {rest tail : List Char} {ps : List Procedure}
    (h : Blocks natives engine gap before rest ps tail) : NoOpening tail := by
  induction h with
  | tail htail => exact htail
  | block hlead hbody hinside hrest ih => exact ih

/-! ### Texts -/

/-- **What is passed over.**  A text is accepted if it is a sequence of blocks, one for each procedure,
with blanks behind the last one and any text without opening brackets in front of each.  Other text
behind the last block is an error, at its first character that is no blank. -/
theorem parseAll_blocks (natives : Registry α) (engine : Engine) (text : String) :
    (∀ list, parseAll natives engine text = .ok list ↔
      ∃ ps tail, Blocks natives engine NoOpening [] (unifyLineEnds text.toList) ps tail ∧
        AllBlank tail ∧ list = .ofList ps) ∧
    ∀ ps tail, Blocks natives engine NoOpening [] (unifyLineEnds text.toList) ps tail →
      ¬AllBlank tail →
      ∃ front pad rest, unifyLineEnds text.toList = front ++ pad ++ rest ∧ tail = pad ++ rest ∧
        AllBlank pad ∧ Flush rest ∧ rest ≠ [] ∧
        parseAll natives engine text =
          .error (.malformed (.openingExpected "[") (Position.start.after (front ++ pad))) := by
  have hstart := follows_ofString text
  have hstream : (Scanner.ofString text).stream = unifyLineEnds text.toList := rfl
  refine ⟨fun list => ⟨fun h => ?_, ?_⟩, fun ps tail hblocks htail => ?_⟩
  · obtain ⟨ps, hps, rfl⟩ := map_eq_ok_iff.1 h
    obtain ⟨tail, hblocks, htail⟩ := blocks_of_readAll hstart hps
    exact ⟨ps, tail, hblocks, htail, rfl⟩
  · rintro ⟨ps, tail, hblocks, htail, rfl⟩
    obtain ⟨front, t, ht, rfl, hread⟩ := hblocks.readAll_eq hstart hstream
    obtain ⟨-, hend⟩ | ⟨pad, rest, hsplit, hpad, hflush, hrest, -⟩ :=
      readAll_of_noOpening natives engine ht hblocks.noOpening_tail
    · rw [parseAll, hread, hend]
      simp [Except.map]
    · rw [hsplit, allBlank_append] at htail
      obtain ⟨c, cs, rfl⟩ := List.exists_cons_of_ne_nil hrest
      have hblank := (allBlank_cons.1 htail.2).1
      rw [flush_cons.1 hflush] at hblank
      cases hblank
  · obtain ⟨front, t, ht, rfl, hread⟩ := hblocks.readAll_eq hstart hstream
    obtain ⟨hblank, -⟩ | ⟨pad, rest, hsplit, hpad, hflush, hrest, herror⟩ :=
      readAll_of_noOpening natives engine ht hblocks.noOpening_tail
    · exact absurd hblank htail
    · refine ⟨front, pad, rest, ?_, hsplit, hpad, hflush, hrest, ?_⟩
      · rw [ht.text_eq, hsplit, List.append_assoc]
      · rw [parseAll, hread, herror]
        rfl

theorem parseAll_blocks_sample :
    (∃ ps tail, Blocks (Registry.ofNames []) {} NoOpening [] "[a:] junk [b:]\n".toList ps tail ∧
      AllBlank tail ∧ ps.length = 2) ∧
    ∃ position, parseAll (Registry.ofNames []) {} "[a:] junk" =
      .error (.malformed (.openingExpected "[") position) := by
  constructor
  · have hkeys : (parseAll (Registry.ofNames []) {} "[a:] junk [b:]").map KeyedList.size = .ok 2 := by
      with_unfolding_all rfl
    obtain ⟨list, hlist, hsize⟩ := map_eq_ok_iff.1 hkeys
    obtain ⟨ps, tail, hblocks, htail, rfl⟩ :=
      ((parseAll_blocks (Registry.ofNames []) {} "[a:] junk [b:]").1 list).1 hlist
    have hperm := (KeyedList.isStableSort_ofList ps).perm
    exact ⟨ps, tail, hblocks, htail, hperm.length_eq.symm.trans hsize⟩
  · have hname : (readInside (Registry.ofNames []) {}
        (Section.scanner ⟨"a:".toList, Position.start.after ([] ++ [] ++ ['['])⟩)).map (·.name) =
          .ok "a" := by
      with_unfolding_all rfl
    obtain ⟨p, hp, -⟩ := map_eq_ok_iff.1 hname
    have hbody : Balanced '[' ']' "a:".toList := balanced_of_not_mem (by decide) (by decide)
    have htail : NoOpening " junk\n".toList := by
      rw [NoOpening]
      decide
    have hblocks : Blocks (Registry.ofNames []) {} NoOpening []
        ([] ++ '[' :: ("a:".toList ++ ']' :: " junk\n".toList)) [p] " junk\n".toList :=
      .block List.not_mem_nil hbody hp (.tail htail)
    obtain ⟨front, pad, rest, -, -, -, -, -, herror⟩ :=
      (parseAll_blocks (Registry.ofNames []) {} "[a:] junk").2 _ _ hblocks fun hblank =>
        absurd (hblank 'j' (by decide)) (by decide)
    exact ⟨_, herror⟩

/-! ### Blanks between blocks -/

section AllBlank

variable {rest tail : List Char} {ps : List Procedure}

/-- If there are blanks only in front of blocks, then a block is what stands behind blanks. -/
theorem Blocks.eq_opening {pad : List Char} {c : Char}
    (h : Blocks natives engine AllBlank before (pad ++ c :: rest) ps tail) (hpad : AllBlank pad)
    (hc : isBlank c = false) (hopening : '[' ∈ rest) : c = '[' := by
  generalize htext : pad ++ c :: rest = text at h
  cases h with
  | tail htail =>
    rw [← htext] at htail
    exact absurd (List.mem_append_right pad (List.mem_cons_of_mem c hopening)) htail
  | block hlead hbody hinside hrest =>
    have hbracket : isBlank '[' = false := by decide
    obtain ⟨-, hsame⟩ := append_inj_of_stop htext hpad (by simp [hc]) hlead (by simp [hbracket])
    exact (List.cons.inj hsame).1

theorem Blocks.of_block {body : List Char}
    (h : Blocks natives engine AllBlank before ('[' :: (body ++ ']' :: rest)) ps tail)
    (hbody : Balanced '[' ']' body) :
    ∃ before' ps', Blocks natives engine AllBlank before' rest ps' tail := by
  generalize htext : '[' :: (body ++ ']' :: rest) = text at h
  cases h with
  | tail htail =>
    rw [← htext] at htail
    exact absurd List.mem_cons_self htail
  | block hlead hbody' hinside hrest =>
    have hbracket : isBlank '[' = false := by decide
    obtain ⟨rfl, hsame⟩ := append_inj_of_stop (a := []) htext (by simp) (by simp [hbracket]) hlead
      (by simp [hbracket])
    obtain ⟨rfl, rfl⟩ := balanced_append_inj (by decide) hbody hbody' (List.cons.inj hsame).2
    exact ⟨_, _, hrest⟩

end AllBlank

/-- Text between two blocks is passed over, so that there is more than blanks around the blocks of a text
that is accepted. -/
theorem exists_passed_over :
    ∃ (text : String) (list : KeyedList Procedure),
      parseAll (Registry.ofNames []) {} text = .ok list ∧
      ¬∃ ps tail, Blocks (Registry.ofNames []) {} AllBlank [] (unifyLineEnds text.toList) ps tail := by
  have hkeys : (parseAll (Registry.ofNames []) {} "[a:] junk [b:]").map KeyedList.keys =
      .ok ["a", "b"] := by
    with_unfolding_all rfl
  obtain ⟨list, hlist, -⟩ := map_eq_ok_iff.1 hkeys
  refine ⟨"[a:] junk [b:]", list, hlist, ?_⟩
  rintro ⟨ps, tail, hblocks⟩
  have hbody : Balanced '[' ']' "a:".toList := balanced_of_not_mem (by decide) (by decide)
  have hfirst : Blocks (Registry.ofNames []) {} AllBlank []
      ('[' :: ("a:".toList ++ ']' :: " junk [b:]\n".toList)) ps tail := hblocks
  obtain ⟨before, ps', hothers⟩ := hfirst.of_block hbody
  have hjunk : Blocks (Registry.ofNames []) {} AllBlank before
      ([' '] ++ 'j' :: "unk [b:]\n".toList) ps' tail := hothers
  have hopening : 'j' = '[' := hjunk.eq_opening allBlank_space (by decide) (by decide)
  cases hopening

end TreeScript.Procedure
