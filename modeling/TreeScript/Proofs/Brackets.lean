import TreeScript.Proofs.Scanner
import TreeScript.Scanner.Section

/-!
# Balanced sections

A section ends at the first closing delimiter that brings the depth of its brackets back to zero.
Its text is therefore balanced, and every balanced text between two delimiters is a section.

- `Balanced`: no prefix closes more than it opens, and the whole text closes what it opens.
- `depth?`: the depth behind a text, which depends on the text in front of it through its depth
  alone (`depth?_append`); `balanced_iff_depth?` ties the two together.
- `depth_induction`: the recursion of `depth?` and of `Scanner.bodyLength?` as an induction.
- `balanced_congr`, `Balanced.append`, `Balanced.enclose`: how balanced texts are made.
- `findSection_cases`: the three ways in which a search for a section ends.
- `findSection_sound`, `findSection_complete`: the reader of sections finds the balanced texts
  between delimiters, and nothing else.
-/

namespace TreeScript

namespace Text

/-- A text whose delimiters belong together in pairs. -/
structure Balanced (opening closing : Char) (cs : List Char) : Prop where
  /-- Nothing is closed that was not opened before. -/
  closed_le : ∀ p, p <+: cs → p.count closing ≤ p.count opening
  /-- Everything that was opened is closed. -/
  closed_eq : cs.count closing = cs.count opening

/-- The number of open sections behind a text in front of which `depth` sections are open, if the
text does not close more of them than are open. -/
def depth? (opening closing : Char) : Nat → List Char → Option Nat
  | depth, [] => some depth
  | depth, c :: cs =>
    if c = closing then
      match depth with
      | 0 => none
      | outer + 1 => depth? opening closing outer cs
    else if c = opening then depth? opening closing (depth + 1) cs
    else depth? opening closing depth cs

section

variable {opening closing : Char}

@[simp] theorem depth?_nil (d : Nat) : depth? opening closing d [] = some d := rfl

@[simp] theorem depth?_closing_zero (cs : List Char) :
    depth? opening closing 0 (closing :: cs) = none :=
  if_pos rfl

@[simp] theorem depth?_closing_succ (d : Nat) (cs : List Char) :
    depth? opening closing (d + 1) (closing :: cs) = depth? opening closing d cs :=
  if_pos rfl

theorem depth?_opening (hne : opening ≠ closing) (d : Nat) (cs : List Char) :
    depth? opening closing d (opening :: cs) = depth? opening closing (d + 1) cs :=
  (if_neg hne).trans (if_pos rfl)

theorem depth?_other {c : Char} (hc : c ≠ closing) (ho : c ≠ opening) (d : Nat) (cs : List Char) :
    depth? opening closing d (c :: cs) = depth? opening closing d cs :=
  (if_neg hc).trans (if_neg ho)

/-- Induction over a text together with the depth in front of it: a closing delimiter takes a section
away or ends the text, an opening one adds a section, and no other character matters. -/
@[elab_as_elim]
theorem depth_induction (opening closing : Char) {motive : Nat → List Char → Prop}
    (nil : ∀ d, motive d [])
    (ends : ∀ cs, motive 0 (closing :: cs))
    (closes : ∀ d cs, motive d cs → motive (d + 1) (closing :: cs))
    (opens : ∀ d cs, opening ≠ closing → motive (d + 1) cs → motive d (opening :: cs))
    (other : ∀ d c cs, c ≠ closing → c ≠ opening → motive d cs → motive d (c :: cs))
    (d : Nat) (cs : List Char) : motive d cs := by
  induction cs generalizing d with
  | nil => exact nil d
  | cons c cs ih =>
    by_cases hc : c = closing
    · subst hc
      cases d with
      | zero => exact ends cs
      | succ d => exact closes d cs (ih d)
    · by_cases ho : c = opening
      · subst ho
        exact opens d cs hc (ih (d + 1))
      · exact other d c cs hc ho (ih d)

theorem depth?_append (d : Nat) (as bs : List Char) :
    depth? opening closing d (as ++ bs) =
      (depth? opening closing d as).bind (depth? opening closing · bs) := by
  induction d, as using depth_induction opening closing with
  | nil d => rfl
  | ends cs => simp
  | closes d cs ih => simp [ih]
  | opens d cs hne ih => simp [depth?_opening hne, ih]
  | other d c cs hc ho ih => simp [depth?_other hc ho, ih]

/-- Sections that are open all along do not matter. -/
theorem depth?_add {d e : Nat} {cs : List Char} (h : depth? opening closing d cs = some e)
    (k : Nat) : depth? opening closing (d + k) cs = some (e + k) := by
  induction d, cs using depth_induction opening closing with
  | nil d => simpa using h
  | ends cs => simp at h
  | closes d cs ih =>
    rw [depth?_closing_succ] at h
    rw [Nat.add_right_comm, depth?_closing_succ]
    exact ih h
  | opens d cs hne ih =>
    rw [depth?_opening hne] at h
    rw [depth?_opening hne, Nat.add_right_comm]
    exact ih h
  | other d c cs hc ho ih =>
    rw [depth?_other hc ho] at h
    rw [depth?_other hc ho]
    exact ih h

/-- The delimiters of a text, without everything else. -/
def delimiters (opening closing : Char) (cs : List Char) : List Char :=
  cs.filter fun c => c = opening ∨ c = closing

@[simp] theorem delimiters_append (as bs : List Char) :
    delimiters opening closing (as ++ bs) =
      delimiters opening closing as ++ delimiters opening closing bs :=
  List.filter_append ..

theorem delimiters_of_not_mem {cs : List Char} (ho : opening ∉ cs) (hc : closing ∉ cs) :
    delimiters opening closing cs = [] := by
  refine List.filter_eq_nil_iff.2 fun c hmem => ?_
  have : c ≠ opening ∧ c ≠ closing := ⟨fun h => ho (h ▸ hmem), fun h => hc (h ▸ hmem)⟩
  simpa using this

/-- Only the delimiters of a text matter. -/
theorem depth?_delimiters (d : Nat) (cs : List Char) :
    depth? opening closing d (delimiters opening closing cs) = depth? opening closing d cs := by
  unfold delimiters
  induction d, cs using depth_induction opening closing with
  | nil d => rfl
  | ends cs => simp
  | closes d cs ih => simpa using ih
  | opens d cs hne ih => simpa [depth?_opening hne] using ih
  | other d c cs hc ho ih => simpa [hc, ho, depth?_other hc ho] using ih

/-- The depth counts what was opened and not closed again. -/
theorem depth?_eq_some_iff (hne : opening ≠ closing) {d e : Nat} {cs : List Char} :
    depth? opening closing d cs = some e ↔
      (∀ p, p <+: cs → p.count closing ≤ d + p.count opening) ∧
        e + cs.count closing = d + cs.count opening := by
  induction cs generalizing d with
  | nil => simp [eq_comm]
  | cons c cs ih =>
    have hall : ∀ P : List Char → Prop,
        (∀ p, p <+: c :: cs → P p) ↔ P [] ∧ ∀ p, p <+: cs → P (c :: p) := by
      intro P
      constructor
      · intro h
        exact ⟨h [] (List.nil_prefix), fun p hp => h _ ((List.prefix_cons_inj c).2 hp)⟩
      · rintro ⟨hnil, hcons⟩ p hp
        rcases List.prefix_cons_iff.1 hp with rfl | ⟨t, rfl, ht⟩
        · exact hnil
        · exact hcons t ht
    rw [hall]
    simp only [List.count_nil, Nat.zero_le, true_and]
    -- a closing delimiter needs an open section; it is the empty prefix that says so
    by_cases hc : c = closing
    · subst hc
      cases d with
      | zero =>
        simp only [depth?_closing_zero, reduceCtorEq, false_iff, not_and]
        intro h
        have := h [] List.nil_prefix
        simp [hne.symm] at this
      | succ d =>
        rw [depth?_closing_succ, ih]
        simp only [List.count_cons, beq_self_eq_true, if_true, beq_iff_eq, hne.symm, if_false]
        constructor <;> rintro ⟨h₁, h₂⟩ <;> refine ⟨fun p hp => ?_, by omega⟩ <;>
          · have := h₁ p hp
            omega
    · by_cases ho : c = opening
      · subst ho
        rw [depth?_opening hne, ih]
        simp only [List.count_cons, beq_self_eq_true, if_true, beq_iff_eq, hc, if_false]
        constructor <;> rintro ⟨h₁, h₂⟩ <;> refine ⟨fun p hp => ?_, by omega⟩ <;>
          · have := h₁ p hp
            omega
      · rw [depth?_other hc ho, ih]
        simp [hc, ho]

theorem balanced_iff_depth? (hne : opening ≠ closing) {cs : List Char} :
    Balanced opening closing cs ↔ depth? opening closing 0 cs = some 0 := by
  rw [depth?_eq_some_iff hne]
  simp only [Nat.zero_add]
  exact ⟨fun h => ⟨h.closed_le, h.closed_eq⟩, fun h => ⟨h.1, h.2⟩⟩

/-- Delimiters that are the same character always belong together. -/
theorem balanced_self (c : Char) (cs : List Char) : Balanced c c cs :=
  ⟨fun _ _ => Nat.le_refl _, rfl⟩

/-- Whether a text is balanced depends on its delimiters only. -/
theorem balanced_congr {as bs : List Char}
    (h : delimiters opening closing as = delimiters opening closing bs) :
    Balanced opening closing as ↔ Balanced opening closing bs := by
  by_cases hne : opening = closing
  · subst hne
    exact ⟨fun _ => balanced_self opening bs, fun _ => balanced_self opening as⟩
  · rw [balanced_iff_depth? hne, balanced_iff_depth? hne, ← depth?_delimiters, h, depth?_delimiters]

theorem balanced_of_not_mem {cs : List Char} (ho : opening ∉ cs) (hc : closing ∉ cs) :
    Balanced opening closing cs where
  closed_le := by
    intro p hp
    rw [List.count_eq_zero.2 fun hmem => hc (hp.mem hmem)]
    exact Nat.zero_le _
  closed_eq := by rw [List.count_eq_zero.2 hc, List.count_eq_zero.2 ho]

theorem Balanced.append {as bs : List Char} (ha : Balanced opening closing as)
    (hb : Balanced opening closing bs) : Balanced opening closing (as ++ bs) := by
  by_cases hne : opening = closing
  · subst hne
    exact balanced_self opening (as ++ bs)
  · rw [balanced_iff_depth? hne] at ha hb ⊢
    rw [depth?_append, ha, Option.bind_some, hb]

/-- A balanced text between two delimiters is balanced. -/
theorem Balanced.enclose {cs : List Char} (h : Balanced opening closing cs) :
    Balanced opening closing (opening :: (cs ++ [closing])) := by
  by_cases hne : opening = closing
  · subst hne
    exact balanced_self opening _
  · rw [balanced_iff_depth? hne] at h ⊢
    have hinside : depth? opening closing (0 + 1) cs = some (0 + 1) := depth?_add h 1
    rw [depth?_opening hne, depth?_append, hinside, Option.bind_some, depth?_closing_succ]
    rfl

end

end Text

namespace Scanner

open Text

section

variable {opening closing : Char}

@[simp] theorem bodyLength?_closing_zero (cs : List Char) :
    bodyLength? opening closing 0 (closing :: cs) = some 0 :=
  if_pos rfl

@[simp] theorem bodyLength?_closing_succ (d : Nat) (cs : List Char) :
    bodyLength? opening closing (d + 1) (closing :: cs) =
      (bodyLength? opening closing d cs).map (· + 1) :=
  if_pos rfl

theorem bodyLength?_opening (hne : opening ≠ closing) (d : Nat) (cs : List Char) :
    bodyLength? opening closing d (opening :: cs) =
      (bodyLength? opening closing (d + 1) cs).map (· + 1) :=
  (if_neg hne).trans (if_pos rfl)

theorem bodyLength?_other {c : Char} (hc : c ≠ closing) (ho : c ≠ opening) (d : Nat)
    (cs : List Char) :
    bodyLength? opening closing d (c :: cs) = (bodyLength? opening closing d cs).map (· + 1) :=
  (if_neg hc).trans (if_neg ho)

/-- The body of a section reaches to the closing delimiter in front of which the depth is zero. -/
theorem bodyLength?_eq_some_iff {d n : Nat} {cs : List Char} :
    bodyLength? opening closing d cs = some n ↔
      ∃ body rest, cs = body ++ closing :: rest ∧ body.length = n ∧
        depth? opening closing d body = some 0 := by
  constructor
  · intro h
    induction d, cs using depth_induction opening closing generalizing n with
    | nil d => cases h
    | ends cs =>
      obtain rfl : 0 = n := by simpa using h
      exact ⟨[], cs, rfl, rfl, rfl⟩
    | closes d cs ih =>
      rw [bodyLength?_closing_succ] at h
      obtain ⟨m, hm, rfl⟩ := Option.map_eq_some_iff.1 h
      obtain ⟨body, rest, rfl, rfl, hbody⟩ := ih hm
      exact ⟨closing :: body, rest, rfl, rfl, by simpa using hbody⟩
    | opens d cs hne ih =>
      rw [bodyLength?_opening hne] at h
      obtain ⟨m, hm, rfl⟩ := Option.map_eq_some_iff.1 h
      obtain ⟨body, rest, rfl, rfl, hbody⟩ := ih hm
      exact ⟨opening :: body, rest, rfl, rfl, by simpa [depth?_opening hne] using hbody⟩
    | other d c cs hc ho ih =>
      rw [bodyLength?_other hc ho] at h
      obtain ⟨m, hm, rfl⟩ := Option.map_eq_some_iff.1 h
      obtain ⟨body, rest, rfl, rfl, hbody⟩ := ih hm
      exact ⟨c :: body, rest, rfl, rfl, by simpa [depth?_other hc ho] using hbody⟩
  · rintro ⟨body, rest, rfl, rfl, hbody⟩
    induction d, body using depth_induction opening closing with
    | nil d =>
      obtain rfl : d = 0 := by simpa using hbody
      simp
    | ends cs => simp at hbody
    | closes d cs ih =>
      rw [depth?_closing_succ] at hbody
      simp [ih hbody]
    | opens d cs hne ih =>
      rw [depth?_opening hne] at hbody
      simp [bodyLength?_opening hne, ih hbody]
    | other d c cs hc ho ih =>
      rw [depth?_other hc ho] at hbody
      simp [bodyLength?_other hc ho, ih hbody]

theorem bodyLength?_zero_eq_some_iff (hne : opening ≠ closing) {n : Nat} {cs : List Char} :
    bodyLength? opening closing 0 cs = some n ↔
      ∃ body rest, cs = body ++ closing :: rest ∧ body.length = n ∧
        Balanced opening closing body := by
  simp only [bodyLength?_eq_some_iff, balanced_iff_depth? hne]

/-- Where a section ends is determined by the text. -/
theorem balanced_append_inj {as bs cs ds : List Char}
    (hne : opening ≠ closing) (ha : Balanced opening closing as)
    (hc : Balanced opening closing cs) (h : as ++ closing :: bs = cs ++ closing :: ds) :
    as = cs ∧ bs = ds := by
  have h₁ := (bodyLength?_zero_eq_some_iff hne).2 ⟨as, bs, rfl, rfl, ha⟩
  have h₂ := (bodyLength?_zero_eq_some_iff hne).2 ⟨cs, ds, h, rfl, hc⟩
  obtain ⟨rfl, htail⟩ := List.append_inj h (Option.some.inj (h₁.symm.trans h₂))
  exact ⟨rfl, (List.cons.inj htail).2⟩

/-- A search for a character ends at the end of the text, or in front of the first one. -/
theorem skipUntilChar_cases (c : Char) (s : Scanner) :
    (c ∉ s.stream ∧ (s.skipUntilChar c false).stream = []) ∨
    ∃ skipped rest, c ∉ skipped ∧ s.stream = skipped ++ c :: rest ∧
      (s.skipUntilChar c false).stream = c :: rest := by
  have hsplit : s.stream = (s.readUntilChar c false).1 ++ (s.skipUntilChar c false).stream :=
    s.stream_eq_readUntil (· = c)
  have hskipped : c ∉ (s.readUntilChar c false).1 := by
    intro hmem
    simpa using not_stop_of_mem_readUntil hmem
  cases hrest : (s.skipUntilChar c false).stream with
  | nil =>
    rw [hrest, List.append_nil] at hsplit
    exact .inl ⟨hsplit ▸ hskipped, rfl⟩
  | cons d rest =>
    obtain rfl : d = c := by simpa using stop_of_head?_readUntil hrest
    exact .inr ⟨_, rest, hskipped, hsplit.trans (by rw [hrest]), rfl⟩

/-- A search for a section ends in one of three ways: there is no opening delimiter, or no closing one
that belongs to it, or there is a section. -/
theorem findSection_cases (opening closing : Char) (s : Scanner) :
    ((s.skipUntilChar opening false).stream = [] ∧ s.findSection opening closing =
      (.error (.malformed (.openingExpected opening.toString) s.position),
        s.skipUntilChar opening false)) ∨
    ∃ inner, inner = (s.skipUntilChar opening false).advance 1 ∧
      (s.skipUntilChar opening false).stream = opening :: inner.stream ∧
      ((bodyLength? opening closing 0 inner.stream = none ∧ s.findSection opening closing =
        (.error (.malformed (.sectionUnclosed closing.toString) inner.position), inner.drain.2)) ∨
      ∃ body behind, inner.stream = body ++ closing :: behind ∧
        depth? opening closing 0 body = some 0 ∧ s.findSection opening closing =
          (.ok ⟨body, inner.position⟩, inner.advance (body.length + 1))) := by
  obtain ⟨-, houter⟩ | ⟨_, rest, -, -, houter⟩ := skipUntilChar_cases opening s
  · refine .inl ⟨houter, ?_⟩
    simp only [findSection, houter, List.isEmpty_nil, if_true]
  · have hinner : ((s.skipUntilChar opening false).advance 1).stream = rest := by simp [houter]
    refine .inr ⟨_, rfl, by rw [hinner, houter], ?_⟩
    rw [hinner]
    cases hlength : bodyLength? opening closing 0 rest with
    | none =>
      refine .inl ⟨rfl, ?_⟩
      simp only [findSection, houter, List.isEmpty_cons, Bool.false_eq_true, if_false, hinner, hlength]
    | some n =>
      obtain ⟨body, behind, rfl, rfl, hbody⟩ := bodyLength?_eq_some_iff.1 hlength
      refine .inr ⟨body, behind, rfl, hbody, ?_⟩
      simp only [findSection, houter, List.isEmpty_cons, Bool.false_eq_true, if_false, hinner, hlength,
        List.take_left]

/-- A section that was found stands between the first opening delimiter and the closing one that brings
the depth back to where it was. -/
theorem depth?_of_findSection {s t : Scanner} {body : Section}
    (h : s.findSection opening closing = (.ok body, t)) :
    ∃ skipped, opening ∉ skipped ∧ depth? opening closing 0 body.text = some 0 ∧
      s.stream = skipped ++ opening :: (body.text ++ closing :: t.stream) := by
  obtain ⟨-, hfind⟩ | ⟨inner, rfl, hopen, ⟨-, hfind⟩ | ⟨text, behind, htext, hdepth, hfind⟩⟩ :=
    findSection_cases opening closing s
  · rw [hfind] at h
    cases h
  · rw [hfind] at h
    cases h
  · rw [hfind] at h
    obtain ⟨hbody, rfl⟩ := Prod.mk.inj h
    obtain rfl := Except.ok.inj hbody
    obtain ⟨-, hend⟩ | ⟨skipped, rest, hskipped, hs, hrest⟩ := skipUntilChar_cases opening s
    · rw [hend] at hopen
      cases hopen
    · refine ⟨skipped, hskipped, hdepth, ?_⟩
      rw [hs, ← hrest, hopen, htext, stream_advance, htext]
      simp

/-- A text between the first opening delimiter and a closing one is found if the depth behind it is the
one in front of it. -/
theorem findSection_of_depth? {s : Scanner} {skipped body rest : List Char}
    (hskipped : opening ∉ skipped) (hbody : depth? opening closing 0 body = some 0)
    (hs : s.stream = skipped ++ opening :: (body ++ closing :: rest)) :
    ∃ origin t, s.findSection opening closing = (.ok ⟨body, origin⟩, t) ∧ t.stream = rest := by
  have hskip : (s.skipUntilChar opening false).stream = opening :: (body ++ closing :: rest) := by
    rw [skipUntilChar, readUntilChar, stream_readUntil, hs]
    refine dropWhile_append_of_stop (fun c hc => ?_) (by simp)
    have : c ≠ opening := by
      rintro rfl
      exact hskipped hc
    simpa using this
  have hlength : bodyLength? opening closing 0 ((s.skipUntilChar opening false).advance 1).stream =
      some body.length := by
    rw [stream_advance, hskip]
    exact bodyLength?_eq_some_iff.2 ⟨body, rest, rfl, rfl, hbody⟩
  refine ⟨((s.skipUntilChar opening false).advance 1).position,
    ((s.skipUntilChar opening false).advance 1).advance (body.length + 1), ?_, ?_⟩
  · simp only [findSection, hlength, hskip, List.isEmpty_cons, Bool.false_eq_true, if_false]
    simp [hskip]
  · simp [hskip]

/-- A section that was found is balanced and stands between the first opening delimiter and a
closing one. -/
theorem findSection_sound (hne : opening ≠ closing) {s t : Scanner} {body : Section}
    (h : s.findSection opening closing = (.ok body, t)) :
    ∃ skipped, opening ∉ skipped ∧ Balanced opening closing body.text ∧
      s.stream = skipped ++ opening :: (body.text ++ closing :: t.stream) := by
  obtain ⟨skipped, hskipped, hdepth, hs⟩ := depth?_of_findSection h
  exact ⟨skipped, hskipped, (balanced_iff_depth? hne).2 hdepth, hs⟩

/-- A balanced text between the first opening delimiter and a closing one is found. -/
theorem findSection_complete (hne : opening ≠ closing) {s : Scanner}
    {skipped body rest : List Char} (hskipped : opening ∉ skipped)
    (hbody : Balanced opening closing body)
    (hs : s.stream = skipped ++ opening :: (body ++ closing :: rest)) :
    ∃ origin t, s.findSection opening closing = (.ok ⟨body, origin⟩, t) ∧ t.stream = rest :=
  findSection_of_depth? hskipped ((balanced_iff_depth? hne).1 hbody) hs

/-- A scanner for a section sees its text with the last line ended. -/
theorem stream_scanner (body : Section) (h : '\r' ∉ body.text) :
    body.scanner.stream = endLine body.text := by
  rw [Section.scanner, stream_ofChars, unifyLineEnds_of_not_mem h]

end

end Scanner

end TreeScript
