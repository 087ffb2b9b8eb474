import TreeScript.Proofs.Brackets

/-!
# What a section is

The reader of sections counts the sections that are open.  What it returns can be said without the
counter: of all ways to cut a text at its first opening delimiter and at a closing one there is at most
one in which the text between them is balanced, and that is the section.

- `Inside`, `Cut`: a text cut at its first section; `Cut.unique`: there is one way to do it.
- `readSection_eq_ok_iff`, `findSection_eq_error`: when a section is returned, and what an error leaves.
- `openSections`, `one_le_openSections`: the counter, as a number that could become negative.
- `readSection_exact`: all of it in one statement.
-/

namespace TreeScript

namespace Text

/-- What can stand between two delimiters.  Delimiters that are the same character do not nest. -/
def Inside (opening closing : Char) (cs : List Char) : Prop :=
  if opening = closing then closing ∉ cs else Balanced opening closing cs

/-- A text cut at its first section: what is in front of it, what is inside, and what is behind. -/
structure Cut (opening closing : Char) (cs skipped body rest : List Char) : Prop where
  text_eq : cs = skipped ++ opening :: (body ++ closing :: rest)
  first : opening ∉ skipped
  inside : Inside opening closing body

/-- The number of open sections behind a text in front of which some are open.  A closing delimiter
closes one even if none is. -/
def openSections (opening closing : Char) (outer : Int) (cs : List Char) : Int :=
  cs.foldl (fun n c => if c = closing then n - 1 else if c = opening then n + 1 else n) outer

variable {opening closing : Char} {cs : List Char}

/-! ### What is inside -/

theorem depth?_self_eq_some_zero_iff (c : Char) (cs : List Char) :
    depth? c c 0 cs = some 0 ↔ c ∉ cs := by
  induction cs with
  | nil => simp
  | cons d cs ih =>
    by_cases hd : d = c
    · subst hd
      simp
    · rw [depth?_other hd hd, ih]
      simp [Ne.symm hd]

theorem inside_iff_depth? : Inside opening closing cs ↔ depth? opening closing 0 cs = some 0 := by
  rw [Inside]
  split
  · next heq =>
    subst heq
    exact (depth?_self_eq_some_zero_iff _ cs).symm
  · next hne => exact balanced_iff_depth? hne

/-- **There is one way to cut a text**: the first opening delimiter is where it is, and no text that is
balanced goes on, behind a closing delimiter, as a balanced one. -/
theorem Cut.unique {skipped body rest skipped' body' rest' : List Char}
    (h : Cut opening closing cs skipped body rest)
    (h' : Cut opening closing cs skipped' body' rest') :
    skipped = skipped' ∧ body = body' ∧ rest = rest' := by
  obtain ⟨rfl, htail⟩ :=
    append_cons_inj_of_not_mem h.first h'.first (h.text_eq.symm.trans h'.text_eq)
  have hlength := Scanner.bodyLength?_eq_some_iff.2 ⟨body, rest, rfl, rfl, inside_iff_depth?.1 h.inside⟩
  have hlength' :=
    Scanner.bodyLength?_eq_some_iff.2 ⟨body', rest', htail, rfl, inside_iff_depth?.1 h'.inside⟩
  obtain ⟨rfl, hrest⟩ := List.append_inj htail (Option.some.inj (hlength.symm.trans hlength'))
  exact ⟨rfl, rfl, (List.cons.inj hrest).2⟩

/-! ### The counter -/

/-- The counter is one more than the depth, which leaves the outermost section out. -/
theorem openSections_of_depth? {d e : Nat} (h : depth? opening closing d cs = some e) :
    openSections opening closing (d + 1) cs = e + 1 := by
  rw [openSections]
  induction d, cs using depth_induction opening closing with
  | nil d => simp_all
  | ends cs => simp at h
  | closes d cs ih =>
    rw [depth?_closing_succ] at h
    rw [List.foldl_cons, if_pos rfl, ← ih h, Int.natCast_succ, Int.add_sub_cancel]
  | opens d cs hne ih =>
    rw [depth?_opening hne] at h
    rw [List.foldl_cons, if_neg hne, if_pos rfl, ← ih h, Int.natCast_succ]
  | other d c cs hc ho ih =>
    rw [depth?_other hc ho] at h
    rw [List.foldl_cons, if_neg hc, if_neg ho, ih h]

/-- As long as a text closes no more than it opens, the section around it is open. -/
theorem one_le_openSections {e : Nat} {p : List Char} (h : depth? opening closing 0 cs = some e)
    (hp : p <+: cs) : 1 ≤ openSections opening closing 1 p := by
  obtain ⟨more, rfl⟩ := hp
  rw [depth?_append] at h
  obtain ⟨f, hf, -⟩ := Option.bind_eq_some_iff.1 h
  have hcounter := openSections_of_depth? hf
  rw [Int.natCast_zero, Int.zero_add] at hcounter
  omega

theorem openSections_concat_closing {body : List Char} (h : depth? opening closing 0 body = some 0) :
    openSections opening closing 1 (body ++ [closing]) = 0 := by
  have hbody := openSections_of_depth? h
  rw [Int.natCast_zero, Int.zero_add, openSections] at hbody
  rw [openSections, List.foldl_append, hbody]
  simp

end Text

namespace Scanner

open Text

variable {opening closing : Char} {s : Scanner}

/-- A section that is not closed stands around all of the text. -/
theorem exists_depth?_of_bodyLength? {d : Nat} {cs : List Char}
    (h : bodyLength? opening closing d cs = none) : ∃ e, depth? opening closing d cs = some e := by
  induction d, cs using depth_induction opening closing with
  | nil d => exact ⟨d, rfl⟩
  | ends cs => simp at h
  | closes d cs ih =>
    rw [bodyLength?_closing_succ] at h
    rw [depth?_closing_succ]
    exact ih (Option.map_eq_none_iff.1 h)
  | opens d cs hne ih =>
    rw [bodyLength?_opening hne] at h
    rw [depth?_opening hne]
    exact ih (Option.map_eq_none_iff.1 h)
  | other d c cs hc ho ih =>
    rw [bodyLength?_other hc ho] at h
    rw [depth?_other hc ho]
    exact ih (Option.map_eq_none_iff.1 h)

/-- A section is returned exactly where the text can be cut. -/
theorem readSection_eq_ok_iff {text rest : List Char} :
    (s.readSection opening closing).1 = .ok text ∧ (s.readSection opening closing).2.stream = rest ↔
      ∃ skipped, Cut opening closing s.stream skipped text rest := by
  constructor
  · rintro ⟨hok, rfl⟩
    cases hfind : (s.findSection opening closing).1 with
    | error e => simp [readSection, hfind, Except.map] at hok
    | ok body =>
      obtain rfl : body.text = text := by simpa [readSection, hfind, Except.map] using hok
      obtain ⟨skipped, hskipped, hdepth, hs⟩ := depth?_of_findSection (Prod.ext hfind rfl)
      exact ⟨skipped, hs, hskipped, inside_iff_depth?.2 hdepth⟩
  · rintro ⟨skipped, hs, hskipped, hinside⟩
    obtain ⟨origin, t, hfind, rfl⟩ := findSection_of_depth? hskipped (inside_iff_depth?.1 hinside) hs
    rw [readSection, hfind]
    exact ⟨rfl, rfl⟩

/-- An error says what is missing, and leaves nothing. -/
theorem findSection_eq_error {e : Error} {t : Scanner}
    (h : s.findSection opening closing = (.error e, t)) :
    t.stream = [] ∧
      (opening ∉ s.stream ∧ e = .malformed (.openingExpected opening.toString) s.position ∨
        opening ∈ s.stream ∧
          ∃ place, e = .malformed (.sectionUnclosed closing.toString) place) := by
  obtain ⟨hend, hfind⟩ | ⟨inner, -, hopen, ⟨-, hfind⟩ | ⟨body, behind, -, -, hfind⟩⟩ :=
    findSection_cases opening closing s
  · obtain ⟨he, rfl⟩ := Prod.mk.inj (hfind.symm.trans h)
    obtain ⟨hnone, -⟩ | ⟨_, _, -, -, hsome⟩ := skipUntilChar_cases opening s
    · exact ⟨hend, .inl ⟨hnone, (Except.error.inj he).symm⟩⟩
    · rw [hend] at hsome
      cases hsome
  · obtain ⟨he, rfl⟩ := Prod.mk.inj (hfind.symm.trans h)
    obtain ⟨-, hnone⟩ | ⟨_, _, -, hs, -⟩ := skipUntilChar_cases opening s
    · rw [hnone] at hopen
      cases hopen
    · exact ⟨stream_drain inner, .inr ⟨by simp [hs], _, (Except.error.inj he).symm⟩⟩
  · rw [hfind] at h
    cases h

theorem readSection_eq_error {e : Error} (h : (s.readSection opening closing).1 = .error e) :
    (s.readSection opening closing).2.stream = [] ∧ ∃ flaw place, e = .malformed flaw place := by
  cases hfind : (s.findSection opening closing).1 with
  | ok body => simp [readSection, hfind, Except.map] at h
  | error e' =>
    obtain rfl : e' = e := by simpa [readSection, hfind, Except.map] using h
    obtain ⟨hend, ⟨-, rfl⟩ | ⟨-, place, rfl⟩⟩ := findSection_eq_error (Prod.ext hfind rfl)
    · exact ⟨hend, _, _, rfl⟩
    · exact ⟨hend, _, place, rfl⟩

/-- **The counter stays above zero**: behind the first opening delimiter the reader has a section open
until it reads the delimiter that closes it, and then it stops. -/
theorem openSections_of_readSection {skipped taken p : List Char} (hskipped : opening ∉ skipped)
    (hs : s.stream = skipped ++ opening :: (taken ++ (s.readSection opening closing).2.stream))
    (hp : p <+: taken) :
    0 ≤ openSections opening closing 1 p ∧ (p ≠ taken → 1 ≤ openSections opening closing 1 p) := by
  cases hread : (s.readSection opening closing).1 with
  | ok text =>
    obtain ⟨skipped', hcut⟩ := readSection_eq_ok_iff.1 ⟨hread, rfl⟩
    obtain ⟨-, htail⟩ := append_cons_inj_of_not_mem hskipped hcut.first (hs.symm.trans hcut.text_eq)
    obtain rfl : taken = text ++ [closing] :=
      List.append_cancel_right (htail.trans (List.append_cons ..))
    have hdepth := inside_iff_depth?.1 hcut.inside
    rcases List.prefix_concat_iff.1 hp with rfl | hp
    · have hzero := openSections_concat_closing hdepth
      exact ⟨by omega, fun hne => absurd rfl hne⟩
    · have hone := one_le_openSections hdepth hp
      exact ⟨by omega, fun _ => hone⟩
  | error e =>
    obtain ⟨hend, -⟩ := readSection_eq_error hread
    rw [hend, List.append_nil] at hs
    -- the section was not closed, so its depth behind all of the text is a number
    have hlength : bodyLength? opening closing 0 taken = none := by
      cases hlength : bodyLength? opening closing 0 taken with
      | none => rfl
      | some n =>
        obtain ⟨body, rest, rfl, -, hdepth⟩ := bodyLength?_eq_some_iff.1 hlength
        have hcut : Cut opening closing s.stream skipped body rest :=
          ⟨hs, hskipped, inside_iff_depth?.2 hdepth⟩
        have hok := (readSection_eq_ok_iff.2 ⟨_, hcut⟩).1
        rw [hread] at hok
        cases hok
    obtain ⟨d, hdepth⟩ := exists_depth?_of_bodyLength? hlength
    have hone := one_le_openSections hdepth hp
    exact ⟨by omega, fun _ => hone⟩

/-- **Sections are exact**: a section is returned where the text can be cut, with what is inside and
what is behind; there is one way to cut a text; an error is reported exactly where there is none, and
then nothing is left to read; and the counter of open sections never goes below zero, and is zero only
where the reader stops. -/
theorem readSection_exact (opening closing : Char) (s : Scanner) :
    (∀ text rest, (s.readSection opening closing).1 = .ok text ∧
        (s.readSection opening closing).2.stream = rest ↔
      ∃ skipped, Cut opening closing s.stream skipped text rest) ∧
    (∀ skipped text rest skipped' text' rest', Cut opening closing s.stream skipped text rest →
      Cut opening closing s.stream skipped' text' rest' →
        skipped = skipped' ∧ text = text' ∧ rest = rest') ∧
    ((∃ flaw place, (s.readSection opening closing).1 = .error (.malformed flaw place)) ↔
      ¬∃ skipped text rest, Cut opening closing s.stream skipped text rest) ∧
    (∀ e, (s.readSection opening closing).1 = .error e →
      (s.readSection opening closing).2.stream = []) ∧
    (∀ skipped taken, opening ∉ skipped →
      s.stream = skipped ++ opening :: (taken ++ (s.readSection opening closing).2.stream) →
        ∀ p, p <+: taken →
          0 ≤ openSections opening closing 1 p ∧ (p ≠ taken → 1 ≤ openSections opening closing 1 p)) := by
  refine ⟨fun text rest => readSection_eq_ok_iff, fun _ _ _ _ _ _ h h' => h.unique h', ⟨?_, ?_⟩,
    fun e he => (readSection_eq_error he).1,
    fun _ _ hskipped hs _ hp => openSections_of_readSection hskipped hs hp⟩
  · rintro ⟨flaw, place, herror⟩ ⟨skipped, text, rest, hcut⟩
    have hok := (readSection_eq_ok_iff.2 ⟨skipped, hcut⟩).1
    rw [herror] at hok
    cases hok
  · intro hnone
    cases hread : (s.readSection opening closing).1 with
    | ok text =>
      obtain ⟨skipped, hcut⟩ := readSection_eq_ok_iff.1 ⟨hread, rfl⟩
      exact absurd ⟨skipped, text, _, hcut⟩ hnone
    | error e =>
      obtain ⟨-, flaw, place, rfl⟩ := readSection_eq_error hread
      exact ⟨flaw, place, rfl⟩

theorem readSection_exact_sample :
    let s : Scanner := (ofChars "(c)d)e".toList).unread "a(b".toList
    let t : Scanner := ofChars "a(b(c)".toList
    Cut '(' ')' s.stream "a".toList "b(c)d".toList "e\n".toList ∧
      (s.readSection '(' ')').1 = .ok "b(c)d".toList ∧
      (∀ skipped text rest, Cut '(' ')' s.stream skipped text rest →
        "a".toList = skipped ∧ "b(c)d".toList = text ∧ "e\n".toList = rest) ∧
      (t.readSection '(' ')').1 = .error (.malformed (.sectionUnclosed ")") ⟨1, 3, 2⟩) ∧
      (t.readSection '(' ')').2.stream = [] ∧
      1 ≤ openSections '(' ')' 1 "b(c)".toList := by
  intro s t
  have hcut : Cut '(' ')' s.stream "a".toList "b(c)d".toList "e\n".toList :=
    ⟨by decide, by decide, inside_iff_depth?.2 (by decide)⟩
  have herror : (t.readSection '(' ')').1 = .error (.malformed (.sectionUnclosed ")") ⟨1, 3, 2⟩) := by
    with_unfolding_all rfl
  obtain ⟨hiff, hunique, -⟩ := readSection_exact '(' ')' s
  obtain ⟨-, -, -, hend, hcounter⟩ := readSection_exact '(' ')' t
  refine ⟨hcut, ((hiff _ _).2 ⟨_, hcut⟩).1, fun _ _ _ => hunique _ _ _ _ _ _ hcut, herror,
    hend _ herror, ?_⟩
  refine (hcounter "a".toList "b(c)\n".toList (by decide) ?_ "b(c)".toList ?_).2 (by decide)
  · rw [hend _ herror]
    decide
  · exact ⟨['\n'], by decide⟩

end Scanner

end TreeScript
