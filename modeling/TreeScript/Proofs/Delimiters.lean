import TreeScript.Proofs.Brackets

/-!
# Delimiters of one character

There are two readers of sections: one for delimiters that are characters, which counts, and one for
delimiters that are strings, which searches for the next one and recurses.  For strings of one character
a search never has to put characters back, so it goes through the text as the counting reader does, and
both readers do the same.

- `takeCandidate_singletons`, `search_cons`: a search, one character at a time.
- `skipUntilString_singleton`, `readBody_singletons`: the parts of the reader for strings.
- `readSectionStrings_singleton`: the two readers agree.
-/

namespace TreeScript.Scanner

variable {s : Scanner} {c opening closing : Char} {cs set : List Char}

/-! ### One character at a time -/

/-- Where every terminator is one character, the first character that is taken decides. -/
theorem takeCandidate_singletons (set : List Char) (c : Char) (s : Scanner) :
    s.takeCandidate (set.map fun d => [d]) [c] = ((decide (c ∈ set), [c]), s) := by
  have hbeginning : isBeginning (set.map fun d => [d]) [c] = false := by
    simp [isBeginning]
  rw [takeCandidate, hbeginning]
  by_cases hc : c ∈ set <;> simp [hc]

theorem search_of_nil (hs : s.stream = []) :
    s.search (set.map fun d => [d]) = (([], none), s.touch) := by
  have hnext : s.next = (none, s.touch) := by
    simp [next, hs, advance_of_stream_nil]
  rw [search]
  split
  · next t h =>
    obtain ⟨-, rfl⟩ := Prod.mk.inj (hnext.symm.trans h)
    rfl
  · next h => simp [hnext] at h

/-- A search takes the next character, and stops or goes on behind it. -/
theorem search_cons (set : List Char) (hs : s.stream = c :: cs) :
    s.search (set.map fun d => [d]) =
      if c ∈ set then (([], some [c]), s.advance 1)
      else
        ((c :: ((s.advance 1).search (set.map fun d => [d])).1.1,
          ((s.advance 1).search (set.map fun d => [d])).1.2),
          ((s.advance 1).search (set.map fun d => [d])).2) := by
  have htouch : s.touch = s := touch_of_stream_ne_nil (by simp [hs])
  have hnext : s.next = (some c, s.advance 1) := by simp [next, hs, htouch]
  rw [search]
  split
  · next h => simp [hnext] at h
  · next h =>
    obtain ⟨hc, rfl⟩ := Prod.mk.inj (hnext.symm.trans h)
    obtain rfl := Option.some.inj hc
    split
    · next h =>
      obtain ⟨htaken, rfl⟩ := Prod.mk.inj ((takeCandidate_singletons set c _).symm.trans h)
      obtain ⟨hmem, rfl⟩ := Prod.mk.inj htaken
      rw [if_pos (of_decide_eq_true hmem)]
    · next h =>
      obtain ⟨htaken, rfl⟩ := Prod.mk.inj ((takeCandidate_singletons set c _).symm.trans h)
      obtain ⟨hmem, rfl⟩ := Prod.mk.inj htaken
      rw [if_neg (of_decide_eq_false hmem)]
      rfl

/-! ### The reader for strings -/

/-- A string of one character is skipped to as that character is, and then it is read too. -/
theorem skipUntilString_singleton (c : Char) (s : Scanner) :
    s.skipUntilString [c] =
      if (s.skipUntilChar c false).stream = [] then (false, s.skipUntilChar c false)
      else (true, (s.skipUntilChar c false).advance 1) := by
  have hsearch : ∀ s : Scanner, s.skipUntilString [c] =
      ((s.search ([c].map fun d => [d])).1.2.isSome, (s.search ([c].map fun d => [d])).2) :=
    fun _ => rfl
  rw [hsearch]
  induction hcs : s.stream generalizing s with
  | nil =>
    rw [search_of_nil hcs, skipUntilChar, readUntilChar, readUntil_of_nil _ hcs,
      if_pos (by simpa using hcs)]
    rfl
  | cons d cs ih =>
    rw [search_cons _ hcs]
    by_cases hd : d = c
    · subst hd
      rw [if_pos (List.mem_singleton.2 rfl), skipUntilChar, readUntilChar,
        readUntil_of_stop hcs (by simp), if_neg (by simp [hcs])]
      rfl
    · rw [if_neg (by simpa using hd), skipUntilChar, readUntilChar, readUntil_cons hcs (by simpa using hd)]
      exact ih (s.advance 1) (by simp [hcs])

/-- The reader of the text of a section: up to the next delimiter, and on behind it. -/
theorem readBody_eq (opening closing : Char) (depth : Nat) (s : Scanner) :
    s.readBody [opening] [closing] depth =
      match s.search ([opening, closing].map fun d => [d]) with
      | ((_, none), s) => (none, s)
      | ((text, some t), s) =>
        if t = [closing] then
          match depth with
          | 0 => (some text, s)
          | inner + 1 =>
            ((s.readBody [opening] [closing] inner).1.map (text ++ t ++ ·),
              (s.readBody [opening] [closing] inner).2)
        else
          ((s.readBody [opening] [closing] (depth + 1)).1.map (text ++ t ++ ·),
            (s.readBody [opening] [closing] (depth + 1)).2) := by
  have hsearch : s.readUntilStrings [[opening], [closing]] =
      s.search ([opening, closing].map fun d => [d]) := rfl
  rw [readBody, ← hsearch]
  split
  · next h =>
    generalize s.readUntilStrings [[opening], [closing]] = found at h ⊢
    subst h
    rfl
  · next h =>
    generalize s.readUntilStrings [[opening], [closing]] = found at h ⊢
    subst h
    rfl

theorem readBody_of_nil (opening closing : Char) (depth : Nat) (hs : s.stream = []) :
    s.readBody [opening] [closing] depth = (none, s.touch) := by
  rw [readBody_eq, search_of_nil hs]

theorem readBody_cons_closing (opening : Char) (depth : Nat) (hs : s.stream = closing :: cs) :
    s.readBody [opening] [closing] depth =
      match depth with
      | 0 => (some [], s.advance 1)
      | inner + 1 =>
        (((s.advance 1).readBody [opening] [closing] inner).1.map (closing :: ·),
          ((s.advance 1).readBody [opening] [closing] inner).2) := by
  rw [readBody_eq, search_cons _ hs, if_pos (by simp)]
  cases depth <;> simp

theorem readBody_cons_opening (hne : opening ≠ closing) (depth : Nat)
    (hs : s.stream = opening :: cs) :
    s.readBody [opening] [closing] depth =
      (((s.advance 1).readBody [opening] [closing] (depth + 1)).1.map (opening :: ·),
        ((s.advance 1).readBody [opening] [closing] (depth + 1)).2) := by
  rw [readBody_eq, search_cons _ hs, if_pos (by simp)]
  simp [hne]

theorem readBody_cons_other (hclosing : c ≠ closing) (hopening : c ≠ opening) (depth : Nat)
    (hs : s.stream = c :: cs) :
    s.readBody [opening] [closing] depth =
      (((s.advance 1).readBody [opening] [closing] depth).1.map (c :: ·),
        ((s.advance 1).readBody [opening] [closing] depth).2) := by
  rw [readBody_eq, readBody_eq opening closing depth (s.advance 1), search_cons _ hs,
    if_neg (by simp [hclosing, hopening])]
  rcases (s.advance 1).search ([opening, closing].map fun d => [d]) with ⟨⟨text, t⟩, u⟩
  cases t with
  | none => rfl
  | some t =>
    by_cases ht : t = [closing]
    · cases depth <;> simp [ht, Function.comp_def]
    · simp [ht, Function.comp_def]

/-- What is read of a text in which a section ends behind a given number of characters, if it does. -/
def takeBody (length : Option Nat) (s : Scanner) : Option (List Char) × Scanner :=
  match length with
  | some n => (some (s.stream.take n), s.advance (n + 1))
  | none => (none, s.drain.2)

theorem takeBody_succ (length : Option Nat) (hs : s.stream = c :: cs) :
    takeBody (length.map (· + 1)) s =
      ((takeBody length (s.advance 1)).1.map (c :: ·), (takeBody length (s.advance 1)).2) := by
  cases length with
  | none =>
    have hdrain : s.drain = (c :: (s.advance 1).drain.1, (s.advance 1).drain.2) :=
      @readUntil_cons s c _ (fun _ => false) hs rfl
    simp [takeBody, hdrain]
  | some n => simp [takeBody, hs, advance_advance, Nat.add_comm]

/-- **The text of a section is read as far as the counting reader goes**, and without its end everything
is read. -/
theorem readBody_singletons (opening closing : Char) (depth : Nat) (s : Scanner) :
    s.readBody [opening] [closing] depth =
      takeBody (bodyLength? opening closing depth s.stream) s := by
  generalize hcs : s.stream = cs
  induction depth, cs using Text.depth_induction opening closing generalizing s with
  | nil depth =>
    rw [readBody_of_nil _ _ _ hcs]
    exact Prod.ext rfl (congrArg Prod.snd (readUntil_of_nil (fun _ => false) hcs)).symm
  | ends cs =>
    rw [readBody_cons_closing _ _ hcs, bodyLength?_closing_zero]
    rfl
  | closes depth cs ih =>
    rw [readBody_cons_closing _ _ hcs, bodyLength?_closing_succ, takeBody_succ _ hcs,
      ← ih (s.advance 1) (by simp [hcs])]
  | opens depth cs hne ih =>
    rw [readBody_cons_opening hne _ hcs, bodyLength?_opening hne, takeBody_succ _ hcs,
      ← ih (s.advance 1) (by simp [hcs])]
  | other depth c cs hclosing hopening ih =>
    rw [readBody_cons_other hclosing hopening _ hcs, bodyLength?_other hclosing hopening,
      takeBody_succ _ hcs, ← ih (s.advance 1) (by simp [hcs])]

/-! ### Both readers -/

/-- **The two readers of sections agree**: for delimiters of one character each, from any scanner, they
return the same text or the same error at the same place, and leave the same scanner. -/
theorem readSectionStrings_singleton (opening closing : Char) (s : Scanner) :
    s.readSectionStrings opening.toString closing.toString = s.readSection opening closing := by
  have htoList : ∀ c : Char, c.toString.toList = [c] := by simp
  rw [readSectionStrings, readSection, htoList, htoList, skipUntilString_singleton]
  obtain ⟨hend, hfind⟩ | ⟨inner, rfl, hopen, hcase⟩ := findSection_cases opening closing s
  · rw [if_pos hend, hfind]
    rfl
  · have hmore : (s.skipUntilChar opening false).stream ≠ [] := by
      rw [hopen]
      exact List.cons_ne_nil _ _
    rw [if_neg hmore]
    simp only [if_true]
    rw [readBody_singletons]
    obtain ⟨hlength, hfind⟩ | ⟨body, behind, hinner, hdepth, hfind⟩ := hcase
    · rw [hlength, hfind]
      rfl
    · have hlength := bodyLength?_eq_some_iff.2 ⟨body, behind, hinner, rfl, hdepth⟩
      rw [hlength, hfind, takeBody, hinner, List.take_left]
      rfl

end TreeScript.Scanner
