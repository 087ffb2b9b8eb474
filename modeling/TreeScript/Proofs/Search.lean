import TreeScript.Proofs.Scanner

/-!
# Searching for strings

A search for several strings takes characters on trial, and puts them back when they come to nothing.
What it finds is what a look at the whole stream would find: of the places where a terminator starts the
leftmost one, and of the terminators that start there the shortest one.

- `IsShortest`, `NoneStarts`, `FirstAt`: what is to be found in a text.
- `decides_takeCandidate`: what becomes of characters that were taken on trial.
- `Searched`, `searched_search`: what a whole search finds, and what it leaves.
- `readUntilStrings_first`: the search from any scanner, whatever was put back in front of it.
-/

namespace TreeScript.Scanner

/-! ### What is to be found -/

/-- A shortest one of the terminators that start a text.  An empty terminator never does. -/
structure IsShortest (terminators : List (List Char)) (cs t : List Char) : Prop where
  mem : t ∈ terminators
  ne_nil : t ≠ []
  starts : t <+: cs
  least : ∀ u ∈ terminators, u ≠ [] → u <+: cs → t.length ≤ u.length

/-- No terminator starts a text. -/
def NoneStarts (terminators : List (List Char)) (cs : List Char) : Prop :=
  ∀ u ∈ terminators, u ≠ [] → ¬u <+: cs

/-- The first place of a text where a terminator starts, and the shortest one that starts there. -/
structure FirstAt (terminators : List (List Char)) (cs : List Char) (p : Nat) (t : List Char) : Prop where
  shortest : IsShortest terminators (cs.drop p) t
  leftmost : ∀ q < p, NoneStarts terminators (cs.drop q)

variable {terminators : List (List Char)} {c : Char} {cs t u : List Char} {p q : Nat}

instance : Decidable (NoneStarts terminators cs) :=
  inferInstanceAs (Decidable (∀ u ∈ terminators, u ≠ [] → ¬u <+: cs))

instance : Decidable (IsShortest terminators cs t) :=
  decidable_of_iff (terminators.contains t = true ∧ t ≠ [] ∧ t <+: cs ∧
      ∀ u ∈ terminators, u ≠ [] → u <+: cs → t.length ≤ u.length)
    ⟨fun h => ⟨List.contains_iff_mem.1 h.1, h.2.1, h.2.2.1, h.2.2.2⟩,
      fun h => ⟨List.contains_iff_mem.2 h.mem, h.ne_nil, h.starts, h.least⟩⟩

instance : Decidable (FirstAt terminators cs p t) :=
  decidable_of_iff (IsShortest terminators (cs.drop p) t ∧ ∀ q < p, NoneStarts terminators (cs.drop q))
    ⟨fun h => ⟨h.1, h.2⟩, fun h => ⟨h.shortest, h.leftmost⟩⟩

theorem IsShortest.not_noneStarts (h : IsShortest terminators cs t) : ¬NoneStarts terminators cs :=
  fun hnone => hnone t h.mem h.ne_nil h.starts

theorem IsShortest.unique (ht : IsShortest terminators cs t) (hu : IsShortest terminators cs u) :
    t = u := by
  have hlength : t.length = u.length :=
    Nat.le_antisymm (ht.least u hu.mem hu.ne_nil hu.starts) (hu.least t ht.mem ht.ne_nil ht.starts)
  exact (List.prefix_of_prefix_length_le ht.starts hu.starts hlength.le).eq_of_length hlength

/-- There is one first place, and one terminator there. -/
theorem FirstAt.unique (hp : FirstAt terminators cs p t) (hq : FirstAt terminators cs q u) :
    p = q ∧ t = u := by
  have hle : ∀ {p q : Nat} {t u : List Char}, FirstAt terminators cs p t →
      FirstAt terminators cs q u → p ≤ q := by
    intro p q t u hp hq
    by_contra hlt
    exact hq.shortest.not_noneStarts (hp.leftmost q (Nat.lt_of_not_le hlt))
  obtain rfl : p = q := Nat.le_antisymm (hle hp hq) (hle hq hp)
  exact ⟨rfl, hp.shortest.unique hq.shortest⟩

theorem firstAt_zero (h : IsShortest terminators cs t) : FirstAt terminators cs 0 t where
  shortest := h
  leftmost := fun _ hq => absurd hq (Nat.not_lt_zero _)

/-- A character in front at which no terminator starts moves the first place. -/
theorem FirstAt.cons (hc : NoneStarts terminators (c :: cs)) (h : FirstAt terminators cs p t) :
    FirstAt terminators (c :: cs) (p + 1) t where
  shortest := h.shortest
  leftmost := by
    intro q hq
    cases q with
    | zero => exact hc
    | succ q => exact h.leftmost q (Nat.lt_of_succ_lt_succ hq)

/-- Empty terminators make no difference. -/
theorem noneStarts_filter :
    NoneStarts (terminators.filter (!·.isEmpty)) cs ↔ NoneStarts terminators cs := by
  simp only [NoneStarts, List.mem_filter, Bool.not_eq_true', List.isEmpty_eq_false_iff, and_imp]
  exact ⟨fun h u hu hne => h u hu hne hne, fun h u hu hne _ => h u hu hne⟩

theorem isShortest_filter :
    IsShortest (terminators.filter (!·.isEmpty)) cs t ↔ IsShortest terminators cs t := by
  have hmem : ∀ u : List Char, u ≠ [] → (u ∈ terminators.filter (!·.isEmpty) ↔ u ∈ terminators) := by
    intro u hu
    simp [List.mem_filter, hu]
  constructor
  · intro h
    exact ⟨(hmem t h.ne_nil).1 h.mem, h.ne_nil, h.starts,
      fun u hu hne => h.least u ((hmem u hne).2 hu) hne⟩
  · intro h
    exact ⟨(hmem t h.ne_nil).2 h.mem, h.ne_nil, h.starts,
      fun u hu hne => h.least u ((hmem u hne).1 hu) hne⟩

theorem firstAt_filter :
    FirstAt (terminators.filter (!·.isEmpty)) cs p t ↔ FirstAt terminators cs p t :=
  ⟨fun h => ⟨isShortest_filter.1 h.shortest, fun q hq => noneStarts_filter.1 (h.leftmost q hq)⟩,
    fun h => ⟨isShortest_filter.2 h.shortest, fun q hq => noneStarts_filter.2 (h.leftmost q hq)⟩⟩

/-! ### Characters taken on trial -/

/-- What became of a text at whose start characters were taken: a terminator that starts it, or the
knowledge that there is none. -/
def Decides (terminators : List (List Char)) (cs : List Char) (found : Bool) (taken : List Char) : Prop :=
  if found then IsShortest terminators cs taken else NoneStarts terminators cs

/-- A terminator that a candidate can become has the candidate at its start. -/
theorem isBeginning_of_lt {candidate : List Char} (hu : u ∈ terminators)
    (hlt : candidate.length < u.length) (hcandidate : candidate <+: u) :
    isBeginning terminators candidate = true := by
  rw [isBeginning, List.any_eq_true]
  exact ⟨u, hu, by simp [hlt, hcandidate]⟩

/-- A terminator that starts a text behind a candidate which is none, and that is not shorter, is longer
and has the candidate at its start. -/
theorem longer_of_starts {candidate rest : List Char} (hnot : candidate ∉ terminators)
    (hu : u ∈ terminators) (hle : candidate.length ≤ u.length) (hstarts : u <+: candidate ++ rest) :
    candidate.length < u.length ∧ candidate <+: u := by
  have hfront := List.prefix_of_prefix_length_le (List.prefix_append candidate rest) hstarts hle
  refine ⟨Nat.lt_of_le_of_ne hle fun hlength => ?_, hfront⟩
  exact hnot (hfront.eq_of_length hlength ▸ hu)

/-- Where the terminators that start a text are not shorter than the candidate in front of it, the
candidate decides which one it is. -/
theorem decides_takeCandidate {candidate taken : List Char} {found : Bool} {s t : Scanner}
    (hcandidate : candidate ≠ [])
    (hlong : ∀ u ∈ terminators, u ≠ [] → u <+: candidate ++ s.stream → candidate.length ≤ u.length)
    (h : s.takeCandidate terminators candidate = ((found, taken), t)) :
    Decides terminators (candidate ++ s.stream) found taken := by
  fun_induction takeCandidate terminators candidate s with
  | case1 candidate s hmem =>
    obtain ⟨hresult, -⟩ := Prod.mk.inj h
    obtain ⟨rfl, rfl⟩ := Prod.mk.inj hresult
    exact ⟨List.contains_iff_mem.1 hmem, hcandidate, List.prefix_append _ _, hlong⟩
  | case2 candidate s hmem hbeginning c v hnext ih =>
    have hnot : candidate ∉ terminators := mt List.contains_iff_mem.2 hmem
    obtain ⟨hhead, rfl⟩ := Prod.mk.inj hnext
    obtain ⟨cs, hcs⟩ := List.head?_eq_some_iff.1 hhead
    have hstream : candidate ++ [c] ++ (s.touch.advance 1).stream = candidate ++ s.stream := by
      simp [hcs]
    rw [← hstream]
    refine ih (by simp) ?_ h
    rw [hstream]
    intro u hu hne hstarts
    have hlt := (longer_of_starts hnot hu (hlong u hu hne hstarts) hstarts).1
    rw [List.length_append, List.length_singleton]
    omega
  | case3 candidate s hmem hbeginning v hnext =>
    have hnot : candidate ∉ terminators := mt List.contains_iff_mem.2 hmem
    obtain ⟨hresult, -⟩ := Prod.mk.inj h
    obtain ⟨rfl, -⟩ := Prod.mk.inj hresult
    have hend : s.stream = [] := List.head?_eq_none_iff.1 (Prod.mk.inj hnext).1
    -- behind the candidate there is nothing that a longer terminator could go on with
    intro u hu hne hstarts
    have hlt := (longer_of_starts hnot hu (hlong u hu hne hstarts) hstarts).1
    have hle := hstarts.length_le
    rw [hend, List.append_nil] at hle
    omega
  | case4 candidate s hmem hbeginning =>
    have hnot : candidate ∉ terminators := mt List.contains_iff_mem.2 hmem
    obtain ⟨hresult, -⟩ := Prod.mk.inj h
    obtain ⟨rfl, -⟩ := Prod.mk.inj hresult
    intro u hu hne hstarts
    obtain ⟨hlt, hfront⟩ := longer_of_starts hnot hu (hlong u hu hne hstarts) hstarts
    exact hbeginning (isBeginning_of_lt hu hlt hfront)

/-! ### Whole searches -/

/-- What a search of a text finds, and what it leaves. -/
inductive Searched (terminators : List (List Char)) (cs : List Char) :
    List Char × Option (List Char) → List Char → Prop
  | found {p : Nat} {t : List Char} (h : FirstAt terminators cs p t) :
    Searched terminators cs (cs.take p, some t) (cs.drop (p + t.length))
  | absent (h : ∀ q, NoneStarts terminators (cs.drop q)) : Searched terminators cs (cs, none) []

theorem searched_here (h : IsShortest terminators cs t) :
    Searched terminators cs ([], some t) (cs.drop t.length) := by
  have hfound := Searched.found (firstAt_zero h)
  rwa [List.take_zero, Nat.zero_add] at hfound

theorem Searched.cons {text rest : List Char} {t : Option (List Char)}
    (hc : NoneStarts terminators (c :: cs)) (h : Searched terminators cs (text, t) rest) :
    Searched terminators (c :: cs) (c :: text, t) rest := by
  cases h with
  | @found p t h =>
    have hfound := Searched.found (h.cons hc)
    rwa [List.take_succ_cons, Nat.add_right_comm, List.drop_succ_cons] at hfound
  | absent h =>
    refine .absent fun q => ?_
    cases q with
    | zero => exact hc
    | succ q => exact h q

theorem noneStarts_nil : NoneStarts terminators [] :=
  fun _ _ hne hstarts => hne (List.prefix_nil.1 hstarts)

/-- **A search finds the first terminator.**  Each of its rounds takes one character out of the stream for
good, or finds the terminator that starts there. -/
theorem searched_search (terminators : List (List Char)) (s : Scanner) :
    Searched terminators s.stream (s.search terminators).1 (s.search terminators).2.stream := by
  have hone : ∀ (c : Char) (s : Scanner), ∀ u ∈ terminators, u ≠ [] → u <+: [c] ++ s.stream →
      [c].length ≤ u.length :=
    fun c s u _ hne _ => List.length_pos_iff.2 hne
  fun_induction search terminators s with
  | case1 s v hnext =>
    obtain ⟨hhead, rfl⟩ := Prod.mk.inj hnext
    have hend : s.stream = [] := List.head?_eq_none_iff.1 hhead
    rw [hend, stream_advance, stream_touch, hend]
    refine .absent fun q => ?_
    rw [List.drop_nil]
    exact noneStarts_nil
  | case2 s c v hnext t w hcandidate =>
    obtain ⟨hhead, rfl⟩ := Prod.mk.inj hnext
    obtain ⟨cs, hcs⟩ := List.head?_eq_some_iff.1 hhead
    have hstream : [c] ++ (s.touch.advance 1).stream = s.stream := by simp [hcs]
    have hshortest : IsShortest terminators s.stream t := by
      have hdecides := decides_takeCandidate (by simp) (hone c _) hcandidate
      rwa [hstream] at hdecides
    have hrest : s.stream = t ++ w.stream := by
      rw [← hstream, (append_stream_takeCandidate hcandidate).2]
    have hsearched := searched_here hshortest
    rwa [hrest, List.drop_left, ← hrest] at hsearched
  | case3 s c v hnext taken w hcandidate text t x hsearch ih =>
    obtain ⟨hhead, rfl⟩ := Prod.mk.inj hnext
    obtain ⟨cs, hcs⟩ := List.head?_eq_some_iff.1 hhead
    have hstream : [c] ++ (s.touch.advance 1).stream = s.stream := by simp [hcs]
    have hnone : NoneStarts terminators s.stream := by
      have hdecides := decides_takeCandidate (by simp) (hone c _) hcandidate
      rwa [hstream] at hdecides
    rw [stream_unread_takeCandidate hcandidate, hsearch] at ih
    rw [← hstream] at hnone ⊢
    exact Searched.cons hnone ih

/-- A terminator that occurs starts somewhere. -/
theorem exists_starts_of_isInfix (h : t <:+: cs) : ∃ q, t <+: cs.drop q := by
  obtain ⟨front, back, rfl⟩ := h
  refine ⟨front.length, ?_⟩
  rw [List.append_assoc, List.drop_left]
  exact List.prefix_append _ _

/-- **Leftmost, then shortest.**  From any scanner, with or without characters that were put back, a
search ends in front of the first place of the stream where a terminator starts, takes the shortest
terminator that starts there, and leaves what is behind it; it finds a terminator whenever one occurs;
and where none does it reads the whole stream. -/
theorem readUntilStrings_first (terminators : List (List Char)) (s : Scanner) :
    (∀ p t, FirstAt terminators s.stream p t →
      (s.readUntilStrings terminators).1 = (s.stream.take p, some t) ∧
        (s.readUntilStrings terminators).2.stream = s.stream.drop (p + t.length)) ∧
    ((∃ t ∈ terminators, t ≠ [] ∧ t <:+: s.stream) → ∃ p t, FirstAt terminators s.stream p t) ∧
    ((∀ t ∈ terminators, t ≠ [] → ¬t <:+: s.stream) →
      (s.readUntilStrings terminators).1 = (s.stream, none) ∧
        (s.readUntilStrings terminators).2.stream = []) := by
  have hsearched := searched_search (terminators.filter (!·.isEmpty)) s
  rw [readUntilStrings]
  generalize s.search (terminators.filter (!·.isEmpty)) = outcome at hsearched ⊢
  obtain ⟨result, u⟩ := outcome
  generalize hrest : u.stream = rest at hsearched ⊢
  cases hsearched with
  | @found p t hfound =>
    have hfirst := firstAt_filter.1 hfound
    refine ⟨fun p' t' hfirst' => ?_, fun _ => ⟨p, t, hfirst⟩, fun hnone => ?_⟩
    · obtain ⟨rfl, rfl⟩ := hfirst.unique hfirst'
      exact ⟨rfl, rfl⟩
    · have hstarts := hfirst.shortest.starts.isInfix.trans (List.drop_suffix p s.stream).isInfix
      exact absurd hstarts (hnone t hfirst.shortest.mem hfirst.shortest.ne_nil)
  | absent hnone =>
    refine ⟨fun p t hfirst => ?_, fun ⟨t, hmem, hne, hinfix⟩ => ?_, fun _ => ⟨rfl, rfl⟩⟩
    · exact absurd (noneStarts_filter.1 (hnone p)) hfirst.shortest.not_noneStarts
    · obtain ⟨q, hstarts⟩ := exists_starts_of_isInfix hinfix
      exact absurd hstarts (noneStarts_filter.1 (hnone q) t hmem hne)

theorem readUntilStrings_first_sample :
    let s : Scanner := (ofChars "bc->".toList).unread "xaa".toList
    let terminators := ["abc", "", "ab", "aac"].map String.toList
    FirstAt terminators s.stream 2 "ab".toList ∧
      (s.readUntilStrings terminators).1 = ("xa".toList, some "ab".toList) ∧
      (s.readUntilStrings terminators).2.stream = "c->\n".toList := by
  intro s terminators
  have hfirst : FirstAt terminators s.stream 2 "ab".toList := by decide
  exact ⟨hfirst, (readUntilStrings_first terminators s).1 2 _ hfirst⟩

end TreeScript.Scanner
