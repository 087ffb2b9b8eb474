import Mathlib.Data.List.DropRight
import TreeScript.Text.Blank
import TreeScript.Text.LineEnds

/-!
# Cutting texts

Every reader cuts its text in front of the first character of some class, trims what it gets, and
sees line ends in one form.  The facts about these three operations are collected here.

- `takeWhile_append_of_stop`, `append_inj_of_stop`, `append_cons_inj_of_not_mem`: where a run of
  characters ends.
- `AllBlank`, `Flush`: texts of blanks only, and texts that do not start with a blank.
- `trim_eq_self_iff`, `trim_trim`: trimming.
- `endLine`, `unifyLineEnds_of_not_mem`: a text without carriage returns only gets its last line
  ended.
- `lineEnds_induction`: induction over the line ends of a text.
- `lineFeeds_append_cases`: the line ends of two texts where they meet.
- `exists_of_lineFeeds_eq_append`: the parts of a text whose line ends were written anew.
-/

namespace TreeScript.Text

/-! ### Runs -/

section Runs

variable {α : Type} {p : α → Bool} {a b c d : List α}

/-- A run of characters that pass a test is cut off in front of the first one that does not. -/
theorem takeWhile_append_of_stop (ha : ∀ x ∈ a, p x) (hb : ∀ x ∈ b.head?, ¬ p x) :
    (a ++ b).takeWhile p = a := by
  rw [List.takeWhile_append_of_pos ha]
  cases b with
  | nil => simp
  | cons x xs => simp [hb x rfl]

theorem dropWhile_append_of_stop (ha : ∀ x ∈ a, p x) (hb : ∀ x ∈ b.head?, ¬ p x) :
    (a ++ b).dropWhile p = b := by
  rw [List.dropWhile_append_of_pos ha]
  cases b with
  | nil => rfl
  | cons x xs => simp [hb x rfl]

/-- Two ways to cut a text in front of the first character that fails a test are the same. -/
theorem append_inj_of_stop (h : a ++ b = c ++ d) (ha : ∀ x ∈ a, p x) (hb : ∀ x ∈ b.head?, ¬ p x)
    (hc : ∀ x ∈ c, p x) (hd : ∀ x ∈ d.head?, ¬ p x) : a = c ∧ b = d := by
  constructor
  · rw [← takeWhile_append_of_stop ha hb, h, takeWhile_append_of_stop hc hd]
  · rw [← dropWhile_append_of_stop ha hb, h, dropWhile_append_of_stop hc hd]

/-- A run without a given character, in front of it, is determined by the text. -/
theorem append_cons_inj_of_not_mem {x : α} (ha : x ∉ a) (hc : x ∉ c) (h : a ++ x :: b = c ++ x :: d) :
    a = c ∧ b = d := by
  classical
  have hne : ∀ run : List α, x ∉ run → ∀ y ∈ run, (!decide (y = x)) = true := by
    intro run hrun y hy
    have : y ≠ x := by
      rintro rfl
      exact hrun hy
    simpa using this
  obtain ⟨h₁, h₂⟩ := append_inj_of_stop (p := fun y => !decide (y = x)) h
    (hne a ha) (by simp) (hne c hc) (by simp)
  exact ⟨h₁, (List.cons.inj h₂).2⟩

theorem forall_mem_takeWhile (p : α → Bool) (xs : List α) : ∀ x ∈ xs.takeWhile p, p x :=
  List.all_eq_true.1 List.all_takeWhile

theorem not_head?_dropWhile (p : α → Bool) (xs : List α) :
    ∀ x ∈ (xs.dropWhile p).head?, ¬ p x := by
  intro x hx
  have h := List.head?_dropWhile_not p xs
  rw [Option.mem_def.1 hx] at h
  simpa using h

end Runs

/-! ### Blanks -/

/-- A text of blanks only. -/
def AllBlank (cs : List Char) : Prop := ∀ c ∈ cs, isBlank c = true

/-- A text that does not start with a blank. -/
def Flush (cs : List Char) : Prop := ∀ c ∈ cs.head?, ¬ isBlank c = true

@[simp] theorem allBlank_nil : AllBlank [] := by simp [AllBlank]

@[simp] theorem allBlank_cons {c : Char} {cs : List Char} :
    AllBlank (c :: cs) ↔ isBlank c = true ∧ AllBlank cs := by simp [AllBlank]

@[simp] theorem allBlank_append {cs ds : List Char} :
    AllBlank (cs ++ ds) ↔ AllBlank cs ∧ AllBlank ds := by
  simp [AllBlank, or_imp, forall_and]

theorem allBlank_space : AllBlank [' '] := allBlank_cons.2 ⟨by decide, allBlank_nil⟩

theorem allBlank_lineFeed : AllBlank ['\n'] := allBlank_cons.2 ⟨by decide, allBlank_nil⟩

theorem allBlank_replicate_tab (n : Nat) : AllBlank (List.replicate n '\t') := by
  intro c hc
  rw [List.eq_of_mem_replicate hc]
  decide

@[simp] theorem flush_nil : Flush [] := by simp [Flush]

@[simp] theorem flush_cons {c : Char} {cs : List Char} : Flush (c :: cs) ↔ isBlank c = false := by
  simp [Flush]

theorem Flush.append {cs ds : List Char} (h : Flush cs) (hd : Flush ds) : Flush (cs ++ ds) := by
  cases cs with
  | nil => exact hd
  | cons c cs => exact h

/-- Blanks at the end of a text stand behind each of its characters that is none. -/
theorem exists_append_of_allBlank {front back cs pad : List Char} {c : Char} (hc : isBlank c = false)
    (hpad : AllBlank pad) (h : front ++ [c] ++ back = cs ++ pad) :
    ∃ more, cs = front ++ [c] ++ more ∧ back = more ++ pad := by
  rcases List.append_eq_append_iff.1 h with hmore | ⟨more, hmore, rfl⟩
  · exact hmore
  · rcases List.eq_nil_or_concat' more with rfl | ⟨more, d, rfl⟩
    · exact ⟨[], by simpa using hmore.symm, rfl⟩
    · rw [← List.append_assoc] at hmore
      obtain rfl : c = d := (List.cons.inj (List.append_inj' hmore rfl).2).1
      exact absurd (hpad c (by simp)) (by simp [hc])

theorem trimStart_eq_self_iff {cs : List Char} : trimStart cs = cs ↔ Flush cs := by
  cases cs with
  | nil => simp [trimStart]
  | cons c cs =>
    rw [flush_cons, trimStart, List.dropWhile_cons]
    by_cases hc : isBlank c = true
    · have : (cs.dropWhile isBlank).length ≤ cs.length := (List.dropWhile_sublist _).length_le
      simp only [hc, if_true, reduceCtorEq, iff_false]
      intro h
      have := congrArg List.length h
      simp only [List.length_cons] at this
      omega
    · simp [hc]

theorem flush_trimStart (cs : List Char) : Flush (trimStart cs) :=
  not_head?_dropWhile _ _

theorem trimStart_append_of_allBlank {pad cs : List Char} (h : AllBlank pad) :
    trimStart (pad ++ cs) = trimStart cs :=
  List.dropWhile_append_of_pos h

theorem trimEnd_eq_self_iff {cs : List Char} : trimEnd cs = cs ↔ Flush cs.reverse := by
  rw [← trimStart_eq_self_iff, trimStart, trimEnd]
  constructor
  · intro h
    rw [← List.reverse_reverse (List.dropWhile _ _), h]
  · intro h
    rw [h, List.reverse_reverse]

theorem trimEnd_isPrefix (cs : List Char) : trimEnd cs <+: cs :=
  List.rdropWhile_prefix isBlank cs

theorem trimEnd_trimEnd (cs : List Char) : trimEnd (trimEnd cs) = trimEnd cs :=
  List.rdropWhile_idempotent isBlank cs

theorem Flush.of_isPrefix {cs ds : List Char} (h : Flush cs) (hd : ds <+: cs) : Flush ds := by
  obtain ⟨es, rfl⟩ := hd
  cases ds with
  | nil => simp
  | cons d ds => exact h

/-- A text is trimmed when a blank stands at neither end. -/
theorem trim_eq_self_iff {cs : List Char} : trim cs = cs ↔ Flush cs ∧ trimEnd cs = cs := by
  constructor
  · intro h
    have hend : (trim cs).length ≤ (trimStart cs).length := (trimEnd_isPrefix _).length_le
    have hsub : (trimStart cs) <:+ cs := List.dropWhile_suffix _
    have hstart : trimStart cs = cs :=
      hsub.eq_of_length (Nat.le_antisymm hsub.length_le (by rwa [h] at hend))
    refine ⟨trimStart_eq_self_iff.1 hstart, ?_⟩
    rwa [trim, hstart] at h
  · rintro ⟨hflush, hend⟩
    rw [trim, trimStart_eq_self_iff.2 hflush, hend]

theorem trim_trim (cs : List Char) : trim (trim cs) = trim cs := by
  rw [trim_eq_self_iff]
  exact ⟨(flush_trimStart cs).of_isPrefix (trimEnd_isPrefix _), trimEnd_trimEnd _⟩

theorem trim_trimEnd_of_flush {cs : List Char} (h : Flush cs) : trim (trimEnd cs) = trimEnd cs :=
  trim_eq_self_iff.2 ⟨h.of_isPrefix (trimEnd_isPrefix _), trimEnd_trimEnd _⟩

theorem AllBlank.eq_nil_of_flush {cs : List Char} (h : AllBlank cs) (hf : Flush cs) : cs = [] := by
  cases cs with
  | nil => rfl
  | cons c cs => exact absurd (allBlank_cons.1 h).1 (by simp [flush_cons.1 hf])

/-- Nothing but blanks is trimmed away. -/
theorem trim_eq_nil_iff {cs : List Char} : trim cs = [] ↔ AllBlank cs := by
  constructor
  · intro h
    have hblank : AllBlank (trimStart cs) := List.rdropWhile_eq_nil_iff.1 h
    exact List.dropWhile_eq_nil_iff.1 (hblank.eq_nil_of_flush (flush_trimStart cs))
  · intro h
    rw [trim, trimStart, List.dropWhile_eq_nil_iff.2 h]
    rfl

/-- A text is what trimming leaves of it, with blanks around. -/
theorem exists_eq_append_trim (cs : List Char) :
    ∃ front back, AllBlank front ∧ AllBlank back ∧ cs = front ++ (trim cs ++ back) := by
  refine ⟨cs.takeWhile isBlank, ((trimStart cs).reverse.takeWhile isBlank).reverse,
    forall_mem_takeWhile _ _, fun c hc => forall_mem_takeWhile _ _ c (List.mem_reverse.1 hc), ?_⟩
  have hend : trim cs ++ ((trimStart cs).reverse.takeWhile isBlank).reverse = trimStart cs := by
    rw [trim, trimEnd, ← List.reverse_append, List.takeWhile_append_dropWhile, List.reverse_reverse]
  rw [hend, trimStart, List.takeWhile_append_dropWhile]

theorem mem_of_mem_trim {c : Char} {cs : List Char} (h : c ∈ trim cs) : c ∈ cs :=
  (List.dropWhile_sublist _).mem ((trimEnd_isPrefix _).mem h)

/-- A text without blanks is trimmed. -/
theorem trim_eq_self_of_forall {cs : List Char} (h : ∀ c ∈ cs, isBlank c = false) :
    trim cs = cs := by
  have hflush : ∀ ds : List Char, (∀ c ∈ ds, isBlank c = false) → Flush ds := by
    intro ds hds
    cases ds with
    | nil => simp
    | cons d ds => simpa using hds d (by simp)
  rw [trim_eq_self_iff, trimEnd_eq_self_iff]
  exact ⟨hflush cs h, hflush _ fun c hc => h c (List.mem_reverse.1 hc)⟩

/-! ### Line ends -/

/-- A text with its last line ended. -/
def endLine (cs : List Char) : List Char :=
  if cs = [] ∨ cs.getLast? = some '\n' then cs else cs ++ ['\n']

theorem mem_endLine {c : Char} (hfeed : c ≠ '\n') {cs : List Char} : c ∈ endLine cs ↔ c ∈ cs := by
  unfold endLine
  split
  · rfl
  · simp [hfeed]

theorem not_mem_endLine {c : Char} {cs : List Char} (h : c ∉ cs) (hc : c ≠ '\n') :
    c ∉ endLine cs :=
  mt (mem_endLine hc).1 h

theorem endLine_concat {c : Char} (hc : c ≠ '\n') (cs : List Char) :
    endLine (cs ++ [c]) = cs ++ [c, '\n'] := by
  simp [endLine, hc]

theorem endLine_cons_lineFeed (cs : List Char) : endLine ('\n' :: cs) = '\n' :: endLine cs := by
  cases cs with
  | nil => rfl
  | cons c cs => by_cases h : (c :: cs).getLast? = some '\n' <;> simp [endLine, h]

theorem endLine_cons_cons (c d : Char) (cs : List Char) :
    endLine (c :: d :: cs) = c :: endLine (d :: cs) := by
  by_cases h : (d :: cs).getLast? = some '\n' <;> simp [endLine, h]

/-- A text with each line end written as one line feed. -/
def lineFeeds : List Char → List Char
  | [] => []
  | '\r' :: '\n' :: cs => '\n' :: lineFeeds cs
  | '\r' :: cs => '\n' :: lineFeeds cs
  | c :: cs => c :: lineFeeds cs

@[simp] theorem lineFeeds_nil : lineFeeds [] = [] := rfl

@[simp] theorem lineFeeds_pair (cs : List Char) : lineFeeds ('\r' :: '\n' :: cs) = '\n' :: lineFeeds cs :=
  rfl

theorem lineFeeds_cons_of_ne {c : Char} (h : c ≠ '\r') (cs : List Char) :
    lineFeeds (c :: cs) = c :: lineFeeds cs := by
  rw [lineFeeds]
  · rintro ds rfl
    exact absurd rfl h
  · exact h

theorem lineFeeds_cons_return {cs : List Char} (h : cs.head? ≠ some '\n') :
    lineFeeds ('\r' :: cs) = '\n' :: lineFeeds cs := by
  rw [lineFeeds]
  rintro ds rfl
  exact h rfl

theorem head?_ne_of_forall {c : Char} {cs : List Char} (h : ∀ ds, cs = c :: ds → False) :
    cs.head? ≠ some c := by
  intro hhead
  obtain ⟨ds, rfl⟩ := List.head?_eq_some_iff.1 hhead
  exact h ds rfl

/-- Induction over the line ends of a text: a pair is one step, and so is a carriage return that
stands alone.  The cases are those of `lineFeeds`, whose equations the lemmas above give. -/
@[elab_as_elim]
theorem lineEnds_induction {motive : List Char → Prop} (nil : motive [])
    (pair : ∀ cs, motive cs → motive ('\r' :: '\n' :: cs))
    (alone : ∀ cs, cs.head? ≠ some '\n' → motive cs → motive ('\r' :: cs))
    (other : ∀ c cs, c ≠ '\r' → motive cs → motive (c :: cs)) (cs : List Char) : motive cs := by
  fun_induction lineFeeds cs with
  | case1 => exact nil
  | case2 cs ih => exact pair cs ih
  | case3 cs hpair ih => exact alone cs (head?_ne_of_forall hpair) ih
  | case4 c cs hpair hreturn ih => exact other c cs hreturn ih

theorem lineFeeds_append_of_not_mem {as : List Char} (h : '\r' ∉ as) (bs : List Char) :
    lineFeeds (as ++ bs) = as ++ lineFeeds bs := by
  induction as with
  | nil => rfl
  | cons a as ih =>
    have ha : a ≠ '\r' := fun heq => h (by simp [heq])
    rw [List.cons_append, lineFeeds_cons_of_ne ha, ih fun hmem => h (by simp [hmem]),
      List.cons_append]

theorem lineFeeds_of_not_mem {cs : List Char} (h : '\r' ∉ cs) : lineFeeds cs = cs := by
  have happend := lineFeeds_append_of_not_mem h []
  rwa [List.append_nil, lineFeeds_nil, List.append_nil] at happend

/-- The line ends of two parts are those of the whole text, unless a pair stands where they meet. -/
theorem lineFeeds_append_of_head? {bs : List Char} (h : bs.head? ≠ some '\n') (as : List Char) :
    lineFeeds (as ++ bs) = lineFeeds as ++ lineFeeds bs := by
  induction as using lineEnds_induction with
  | nil => rfl
  | pair cs ih => rw [lineFeeds_pair, List.cons_append, List.cons_append, lineFeeds_pair, ih, List.cons_append]
  | alone cs halone ih =>
    -- the carriage return stands alone also when the second part is put behind
    have hhead : (cs ++ bs).head? ≠ some '\n' := by
      cases cs with
      | nil => exact h
      | cons c cs => exact halone
    rw [List.cons_append, lineFeeds_cons_return hhead, lineFeeds_cons_return halone, ih, List.cons_append]
  | other c cs hreturn ih =>
    rw [List.cons_append, lineFeeds_cons_of_ne hreturn, lineFeeds_cons_of_ne hreturn, ih, List.cons_append]

theorem lineFeeds_append_of_getLast? {as : List Char} (h : as.getLast? ≠ some '\r')
    (bs : List Char) : lineFeeds (as ++ bs) = lineFeeds as ++ lineFeeds bs := by
  induction as using lineEnds_induction with
  | nil => rfl
  | pair cs ih =>
    have hlast : cs.getLast? ≠ some '\r' := by
      intro heq
      exact h (by simp [List.getLast?_cons, heq])
    rw [lineFeeds_pair, List.cons_append, List.cons_append, lineFeeds_pair, ih hlast, List.cons_append]
  | alone cs halone ih =>
    -- the carriage return is not the last character, so what follows it is known
    cases cs with
    | nil => exact absurd rfl h
    | cons c cs =>
      have hhead : (c :: cs ++ bs).head? ≠ some '\n' := halone
      rw [List.cons_append, lineFeeds_cons_return hhead, lineFeeds_cons_return halone,
        ih (by simpa using h), List.cons_append]
  | other c cs hreturn ih =>
    have hlast : cs.getLast? ≠ some '\r' := by
      intro heq
      exact h (by simp [List.getLast?_cons, heq])
    rw [List.cons_append, lineFeeds_cons_of_ne hreturn, lineFeeds_cons_of_ne hreturn, ih hlast,
      List.cons_append]

/-- Where two texts meet, a line end of each of them can become one. -/
theorem lineFeeds_append_cases (as bs : List Char) :
    lineFeeds (as ++ bs) = lineFeeds as ++ lineFeeds bs ∨
      ∃ cs ds, lineFeeds as = cs ++ ['\n'] ∧ lineFeeds bs = '\n' :: ds ∧
        lineFeeds (as ++ bs) = cs ++ '\n' :: ds := by
  by_cases hlast : as.getLast? = some '\r'
  · by_cases hhead : bs.head? = some '\n'
    · obtain ⟨cs, rfl⟩ := List.getLast?_eq_some_iff.1 hlast
      obtain ⟨ds, rfl⟩ := List.head?_eq_some_iff.1 hhead
      refine .inr ⟨lineFeeds cs, lineFeeds ds, lineFeeds_append_of_head? (by decide) cs,
        lineFeeds_cons_of_ne (by decide) ds, ?_⟩
      rw [List.append_assoc, lineFeeds_append_of_head? (by simp)]
      rfl
    · exact .inl (lineFeeds_append_of_head? hhead as)
  · exact .inl (lineFeeds_append_of_getLast? hlast bs)

theorem lineFeeds_ne_nil {cs : List Char} (h : cs ≠ []) : lineFeeds cs ≠ [] := by
  induction cs using lineEnds_induction with
  | nil => exact absurd rfl h
  | pair cs => simp
  | alone cs halone => simp [lineFeeds_cons_return halone]
  | other c cs hreturn => simp [lineFeeds_cons_of_ne hreturn]

theorem mem_of_mem_lineFeeds {c : Char} {cs : List Char} (h : c ∈ lineFeeds cs) :
    c = '\n' ∨ c ∈ cs := by
  induction cs using lineEnds_induction with
  | nil => exact .inr h
  | pair cs ih =>
    rw [lineFeeds_pair] at h
    grind
  | alone cs halone ih =>
    rw [lineFeeds_cons_return halone] at h
    grind
  | other d cs hreturn ih =>
    rw [lineFeeds_cons_of_ne hreturn] at h
    grind

theorem AllBlank.lineFeeds {cs : List Char} (h : AllBlank cs) : AllBlank (lineFeeds cs) := by
  intro c hc
  rcases mem_of_mem_lineFeeds hc with rfl | hc
  · decide
  · exact h c hc

/-- Blanks behind a text stay blanks. -/
theorem exists_lineFeeds_append_blank {pad : List Char} (hpad : AllBlank pad) (cs : List Char) :
    ∃ back, AllBlank back ∧ lineFeeds (cs ++ pad) = lineFeeds cs ++ back := by
  obtain happend | ⟨as, bs, has, hbs, happend⟩ := lineFeeds_append_cases cs pad
  · exact ⟨_, hpad.lineFeeds, happend⟩
  · have hback : AllBlank ('\n' :: bs) := hbs ▸ hpad.lineFeeds
    exact ⟨bs, (allBlank_cons.1 hback).2, by simp [happend, has]⟩

/-- Blanks in front of a text stay blanks. -/
theorem exists_lineFeeds_blank_append {pad : List Char} (hpad : AllBlank pad) (cs : List Char) :
    ∃ front, AllBlank front ∧ lineFeeds (pad ++ cs) = front ++ lineFeeds cs := by
  obtain happend | ⟨as, bs, has, hbs, happend⟩ := lineFeeds_append_cases pad cs
  · exact ⟨_, hpad.lineFeeds, happend⟩
  · have hfront : AllBlank (as ++ ['\n']) := has ▸ hpad.lineFeeds
    exact ⟨as, (allBlank_append.1 hfront).1, by rw [happend, hbs]⟩

theorem not_mem_lineFeeds (cs : List Char) : '\r' ∉ lineFeeds cs := by
  induction cs using lineEnds_induction with
  | nil => exact List.not_mem_nil
  | pair cs ih => simpa using ih
  | alone cs halone ih => simpa [lineFeeds_cons_return halone] using ih
  | other c cs hreturn ih => simpa [lineFeeds_cons_of_ne hreturn, hreturn.symm] using ih

theorem mem_lineFeeds_of_mem {c : Char} {cs : List Char} (h : c ∈ cs) :
    c ∈ lineFeeds cs ∨ c = '\r' ∧ '\n' ∈ lineFeeds cs := by
  induction cs using lineEnds_induction with
  | nil => exact .inl h
  | pair cs ih =>
    rw [lineFeeds_pair]
    grind
  | alone cs halone ih =>
    rw [lineFeeds_cons_return halone]
    grind
  | other d cs hreturn ih =>
    rw [lineFeeds_cons_of_ne hreturn]
    grind

/-- A text in which no line end was written anew is as it was. -/
theorem eq_of_lineFeeds_eq {as cs : List Char} (h : lineFeeds cs = as) (hfeed : '\n' ∉ as) : cs = as := by
  rw [← h, lineFeeds_of_not_mem]
  intro hreturn
  rcases mem_lineFeeds_of_mem hreturn with hmem | ⟨-, hmem⟩
  · exact not_mem_lineFeeds cs hmem
  · exact hfeed (h ▸ hmem)

/-- What becomes blanks has been blanks. -/
theorem AllBlank.of_lineFeeds {cs : List Char} (h : AllBlank (Text.lineFeeds cs)) : AllBlank cs := by
  intro c hc
  rcases mem_lineFeeds_of_mem hc with hmem | ⟨rfl, -⟩
  · exact h c hmem
  · decide

/-- A text that is cut after its line ends were written anew could have been cut before. -/
theorem exists_of_lineFeeds_eq_append {as bs cs : List Char} (h : lineFeeds cs = as ++ bs) :
    ∃ ds es, cs = ds ++ es ∧ lineFeeds ds = as ∧ lineFeeds es = bs := by
  induction cs using lineEnds_induction generalizing as with
  | nil =>
    obtain ⟨rfl, rfl⟩ := List.append_eq_nil_iff.1 h.symm
    exact ⟨[], [], rfl, rfl, rfl⟩
  | pair cs ih =>
    cases as with
    | nil => exact ⟨[], _, rfl, rfl, h⟩
    | cons a as =>
      obtain ⟨rfl, htail⟩ := List.cons.inj h
      obtain ⟨ds, es, rfl, rfl, rfl⟩ := ih htail
      exact ⟨'\r' :: '\n' :: ds, es, rfl, rfl, rfl⟩
  | alone cs halone ih =>
    cases as with
    | nil => exact ⟨[], _, rfl, rfl, h⟩
    | cons a as =>
      obtain ⟨rfl, htail⟩ := List.cons.inj ((lineFeeds_cons_return halone).symm.trans h)
      obtain ⟨ds, es, rfl, rfl, rfl⟩ := ih htail
      have hhead : ds.head? ≠ some '\n' := by
        intro hhead
        obtain ⟨ds, rfl⟩ := List.head?_eq_some_iff.1 hhead
        exact halone rfl
      exact ⟨'\r' :: ds, es, rfl, lineFeeds_cons_return hhead, rfl⟩
  | other c cs hreturn ih =>
    cases as with
    | nil => exact ⟨[], _, rfl, rfl, h⟩
    | cons a as =>
      obtain ⟨rfl, htail⟩ := List.cons.inj ((lineFeeds_cons_of_ne hreturn cs).symm.trans h)
      obtain ⟨ds, es, rfl, rfl, rfl⟩ := ih htail
      exact ⟨c :: ds, es, rfl, lineFeeds_cons_of_ne hreturn _, rfl⟩

theorem exists_of_lineFeeds_eq_cons {c : Char} {bs cs : List Char} (hc : c ≠ '\n')
    (h : lineFeeds cs = c :: bs) : ∃ es, cs = c :: es ∧ lineFeeds es = bs := by
  have hsplit : lineFeeds cs = [c] ++ bs := h
  obtain ⟨ds, es, rfl, hds, hes⟩ := exists_of_lineFeeds_eq_append hsplit
  obtain rfl := eq_of_lineFeeds_eq hds (by simpa using hc.symm)
  exact ⟨es, rfl, hes⟩

/-- There is no line end at either end of a trimmed text. -/
theorem trim_lineFeeds {cs : List Char} (h : trim cs = cs) : trim (lineFeeds cs) = lineFeeds cs := by
  obtain ⟨hstart, hend⟩ := trim_eq_self_iff.1 h
  rw [trimEnd_eq_self_iff] at hend
  refine trim_eq_self_iff.2 ⟨?_, trimEnd_eq_self_iff.2 ?_⟩
  · cases cs with
    | nil => exact flush_nil
    | cons c cs =>
      have hc : c ≠ '\r' := by
        rintro rfl
        exact absurd (flush_cons.1 hstart) (by decide)
      rw [lineFeeds_cons_of_ne hc]
      exact flush_cons.2 (flush_cons.1 hstart)
  · rcases List.eq_nil_or_concat' cs with rfl | ⟨front, c, rfl⟩
    · exact flush_nil
    · rw [List.reverse_append] at hend
      have hblank : isBlank c = false := flush_cons.1 hend
      have hreturn : c ≠ '\r' := by
        rintro rfl
        exact absurd hblank (by decide)
      have hfeed : [c].head? ≠ some '\n' := by
        intro heq
        obtain rfl : c = '\n' := by simpa using heq
        exact absurd hblank (by decide)
      rw [lineFeeds_append_of_head? hfeed, lineFeeds_cons_of_ne hreturn, lineFeeds_nil,
        List.reverse_append]
      exact flush_cons.2 hblank

/-- A reader sees line feeds for line ends, and the last line ended. -/
theorem unifyLineEnds_eq (cs : List Char) : unifyLineEnds cs = endLine (lineFeeds cs) := by
  fun_induction unifyLineEnds cs with
  | case1 => rfl
  | case2 cs ih => rw [ih, lineFeeds_pair, endLine_cons_lineFeed]
  | case3 cs hpair ih =>
    rw [ih, lineFeeds_cons_return (head?_ne_of_forall hpair), endLine_cons_lineFeed]
  | case4 cs ih => rw [ih, lineFeeds_cons_of_ne (by decide), endLine_cons_lineFeed]
  | case5 c hreturn hfeed =>
    rw [lineFeeds_cons_of_ne hreturn, lineFeeds_nil, ← List.nil_append [c], endLine_concat hfeed]
    rfl
  | case6 c d cs hpair hreturn hfeed ih =>
    obtain ⟨e, es, hes⟩ := List.exists_cons_of_ne_nil (lineFeeds_ne_nil (List.cons_ne_nil d cs))
    rw [lineFeeds_cons_of_ne hreturn, ih, hes, endLine_cons_cons]

theorem not_mem_unifyLineEnds (cs : List Char) : '\r' ∉ unifyLineEnds cs := by
  rw [unifyLineEnds_eq]
  exact not_mem_endLine (not_mem_lineFeeds cs) (by decide)

/-- Characters that are no line ends stay. -/
theorem mem_unifyLineEnds {c : Char} (hreturn : c ≠ '\r') (hfeed : c ≠ '\n') (cs : List Char) :
    c ∈ unifyLineEnds cs ↔ c ∈ cs := by
  rw [unifyLineEnds_eq, mem_endLine hfeed]
  constructor
  · exact fun h => (mem_of_mem_lineFeeds h).resolve_left hfeed
  · exact fun h => (mem_lineFeeds_of_mem h).resolve_right fun hboth => hreturn hboth.1

/-- Line ends that were written anew stay as they are. -/
theorem unifyLineEnds_lineFeeds (cs : List Char) : unifyLineEnds (lineFeeds cs) = unifyLineEnds cs := by
  rw [unifyLineEnds_eq, unifyLineEnds_eq, lineFeeds_of_not_mem (not_mem_lineFeeds cs)]

/-- In a text without carriage returns only the end of the last line can be missing. -/
theorem unifyLineEnds_of_not_mem {cs : List Char} (h : '\r' ∉ cs) :
    unifyLineEnds cs = endLine cs := by
  rw [unifyLineEnds_eq, lineFeeds_of_not_mem h]

theorem endLine_append_lineFeed (cs : List Char) : endLine (cs ++ ['\n']) = cs ++ ['\n'] := by
  simp [endLine]

theorem endLine_eq_append (cs : List Char) : ∃ tail, AllBlank tail ∧ endLine cs = cs ++ tail := by
  unfold endLine
  split
  · exact ⟨[], by simp⟩
  · exact ⟨['\n'], allBlank_lineFeed, rfl⟩

end TreeScript.Text
