import TreeScript.Proofs.Cursors
import TreeScript.Proofs.Recognition

/-!
# Sources with damage

A scanner takes damage in its source for the end of the text.  So a document that is cut off may look
like a whole one, or like one with a mistake in it.  It is enough to ask at the end whether the damage
was met: a reader that has not met it has not looked behind the readable text, so whatever it has found
does not depend on what stands there; and whoever has read a whole document has looked.

- `Scanner.extend`: the same place in a longer text.
- `HonestAt`, `Honest`: readers that do not know what they have not looked at.
- `honest_takeWhile`, `honest_findSection` and so on: the readers of a scanner are honest.
- `Node.honest_readWith`, `Node.honest_readAll`: and so are those of nodes.
- `Source.ofBytes_readable_append`: what is read when other bytes follow the readable ones.
- `Node.parseSource_faithful`: all of it for the nodes of a source.
-/

namespace TreeScript

/-! ### Honest readers -/

namespace Scanner

variable {α β : Type} {s : Scanner}

/-- The same place when more text follows, and what is known of damage behind that. -/
def extend (more : List Char) (fault : Fault) (s : Scanner) : Scanner :=
  { s with rest := s.rest ++ more, fault := fault }

@[simp] theorem stream_extend (more : List Char) (fault : Fault) (s : Scanner) :
    (s.extend more fault).stream = s.stream ++ more := by
  simp [stream, extend]

theorem extend_advance {n : Nat} (h : n ≤ s.stream.length) (more : List Char) (fault : Fault) :
    (s.extend more fault).advance n = (s.advance n).extend more fault := by
  have hrest : n - s.pushed.length ≤ s.rest.length := by
    rw [stream, List.length_append] at h
    omega
  simp [advance, extend, List.drop_append_of_le_length hrest, List.take_append_of_le_length hrest]

/-- Damage that is ahead of a scanner stays ahead or is met; and a reader that does not meet it does the
same when other text stands in its place. -/
structure HonestAt (read : Scanner → α × Scanner) (s : Scanner) : Prop where
  keeps : s.fault ≠ .ahead → (read s).2.fault = s.fault
  unmet : s.fault = .ahead → (read s).2.fault = .met ∨
    (read s).2.fault = .ahead ∧ ∀ more fault,
      read (s.extend more fault) = ((read s).1, (read s).2.extend more fault)

/-- A reader that is honest at every place. -/
def Honest (read : Scanner → α × Scanner) : Prop := ∀ s, HonestAt read s

theorem honest_pure (a : α) : Honest fun s => (a, s) :=
  fun _ => ⟨fun _ => rfl, fun h => .inr ⟨h, fun _ _ => rfl⟩⟩

theorem honest_position : Honest fun s => (s.position, s) :=
  fun _ => ⟨fun _ => rfl, fun h => .inr ⟨h, fun _ _ => rfl⟩⟩

/-- Readers that agree at a place, and where more text follows, are honest there alike. -/
theorem HonestAt.of_eq {read other : Scanner → α × Scanner} (h : HonestAt read s)
    (heq : ∀ t more, t.stream = s.stream ++ more → other t = read t) : HonestAt other s := by
  have hs : other s = read s := heq s [] (List.append_nil _).symm
  constructor
  · rw [hs]
    exact h.keeps
  · intro hahead
    rw [hs]
    rcases h.unmet hahead with hmet | ⟨hstill, hsame⟩
    · exact .inl hmet
    · exact .inr ⟨hstill, fun more fault => by rw [heq _ more (stream_extend ..), hsame]⟩

theorem Honest.of_eq {read other : Scanner → α × Scanner} (h : Honest read)
    (heq : ∀ s, other s = read s) : Honest other :=
  fun s => (h s).of_eq fun t _ _ => heq t

/-- Honest readers can be put one behind the other. -/
theorem HonestAt.bind {read : Scanner → α × Scanner} {next : α → Scanner → β × Scanner}
    (h : HonestAt read s) (hnext : HonestAt (next (read s).1) (read s).2) :
    HonestAt (fun s => next (read s).1 (read s).2) s := by
  constructor
  · intro hs
    have hread := h.keeps hs
    rw [hnext.keeps (by rwa [hread]), hread]
  · intro hs
    rcases h.unmet hs with hmet | ⟨hahead, hsame⟩
    · exact .inl (by rw [hnext.keeps (by rw [hmet]; exact nofun), hmet])
    · rcases hnext.unmet hahead with hmet | ⟨hahead', hsame'⟩
      · exact .inl hmet
      · exact .inr ⟨hahead', fun more fault => by rw [hsame, hsame']⟩

theorem Honest.bind {read : Scanner → α × Scanner} {next : α → Scanner → β × Scanner}
    (h : Honest read) (hnext : ∀ a, Honest (next a)) :
    Honest fun s => next (read s).1 (read s).2 :=
  fun s => (h s).bind (hnext _ _)

theorem HonestAt.map {read : Scanner → α × Scanner} (h : HonestAt read s) (f : α → β) :
    HonestAt (fun s => (f (read s).1, (read s).2)) s := by
  constructor
  · exact h.keeps
  · intro hs
    rcases h.unmet hs with hmet | ⟨hahead, hsame⟩
    · exact .inl hmet
    · exact .inr ⟨hahead, fun more fault => by rw [hsame]⟩

theorem Honest.map {read : Scanner → α × Scanner} (h : Honest read) (f : α → β) :
    Honest fun s => (f (read s).1, (read s).2) :=
  fun s => (h s).map f

/-- Characters that are there can be passed over. -/
theorem HonestAt.advance {read : Scanner → α × Scanner} {n : Nat} (hn : n ≤ s.stream.length)
    (h : HonestAt read (s.advance n)) : HonestAt (fun s => read (s.advance n)) s := by
  constructor
  · exact fun hs => h.keeps hs
  · intro hs
    rcases h.unmet hs with hmet | ⟨hahead, hsame⟩
    · exact .inl hmet
    · exact .inr ⟨hahead, fun more fault => by rw [extend_advance hn, hsame]⟩

/-- A reader that looks at the next character first has to be honest in front of one only. -/
theorem Honest.touch {read : Scanner → α × Scanner}
    (hnil : ∀ s, s.stream = [] → (read s).2.fault = s.fault)
    (hmore : ∀ s, s.stream ≠ [] → HonestAt read s) : Honest fun s => read s.touch := by
  intro s
  by_cases hend : s.stream = []
  · have hfault : (read s.touch).2.fault = s.touch.fault := hnil _ ((stream_touch s).trans hend)
    constructor
    · exact fun hs => hfault.trans (fault_touch_of_ne hs)
    · exact fun hs => .inl (hfault.trans (fault_touch_eq_met_iff.2 (.inr ⟨hs, hend⟩)))
  · refine (hmore s hend).of_eq fun t more ht => ?_
    rw [touch_of_stream_ne_nil]
    rw [ht]
    exact List.append_ne_nil_of_left_ne_nil hend more

/-! ### The readers of a scanner -/

theorem takeWhile_append_of_ne {p : Char → Bool} {cs : List Char} (h : cs.dropWhile p ≠ [])
    (more : List Char) : (cs ++ more).takeWhile p = cs.takeWhile p := by
  rw [List.takeWhile_append, if_neg]
  intro hlength
  rw [← drop_length_takeWhile, hlength, List.drop_length] at h
  exact h rfl

theorem dropWhile_append_of_ne {p : Char → Bool} {cs : List Char} (h : cs.dropWhile p ≠ [])
    (more : List Char) : (cs ++ more).dropWhile p = cs.dropWhile p ++ more := by
  rw [← drop_length_takeWhile, takeWhile_append_of_ne h,
    List.drop_append_of_le_length (List.takeWhile_prefix p).length_le, drop_length_takeWhile]

theorem honest_takeWhile (p : Char → Bool) : Honest (takeWhile p) := by
  intro s
  by_cases hend : s.stream.dropWhile p = []
  · have hstream : (s.advance (s.stream.takeWhile p).length).stream = [] := by
      rw [stream_advance, drop_length_takeWhile, hend]
    constructor
    · exact fun hs => fault_touch_of_ne hs
    · exact fun hs => .inl (fault_touch_eq_met_iff.2 (.inr ⟨hs, hstream⟩))
  · have hlength : (s.stream.takeWhile p).length ≤ s.stream.length :=
      (List.takeWhile_prefix p).length_le
    refine ((honest_pure (s.stream.takeWhile p) _).advance hlength).of_eq fun t more ht => ?_
    have hrun : t.stream.takeWhile p = s.stream.takeWhile p := by
      rw [ht, takeWhile_append_of_ne hend]
    have hne : (t.advance (s.stream.takeWhile p).length).stream ≠ [] := by
      rw [stream_advance, ← hrun, drop_length_takeWhile, ht, dropWhile_append_of_ne hend]
      exact List.append_ne_nil_of_left_ne_nil hend more
    simp only [takeWhile, hrun, touch_of_stream_ne_nil hne]

/-- Who skips blanks up to the end of a text has looked at it. -/
theorem fault_skipBlank_of_nil (h : s.skipBlank.stream = []) : s.skipBlank.fault ≠ .ahead :=
  fault_touch_of_stream_nil ((stream_touch _).symm.trans h)

theorem honest_readUntil (stop : Char → Bool) : Honest (readUntil stop false) :=
  honest_takeWhile (!stop ·)

theorem honest_skipBlank : Honest fun s => ((), s.skipBlank) :=
  (honest_takeWhile Text.isBlank).map fun _ => ()

theorem honest_accept (c : Char) : Honest (accept c) := by
  intro s
  by_cases hend : s.stream = []
  · have haccept : s.accept c = (false, s.touch) := if_neg (by simp [hend])
    constructor
    · rw [haccept]
      exact fun hs => fault_touch_of_ne hs
    · rw [haccept]
      exact fun hs => .inl (fault_touch_eq_met_iff.2 (.inr ⟨hs, hend⟩))
  · have hone : 1 ≤ s.stream.length := List.length_pos_iff.2 hend
    -- more text does not change which character is next
    have hhead : ∀ (t : Scanner) more, t.stream = s.stream ++ more →
        t.stream.head? = s.stream.head? ∧ t.stream ≠ [] := by
      intro t more ht
      rw [ht]
      exact ⟨List.head?_append_of_ne_nil _ hend, List.append_ne_nil_of_left_ne_nil hend more⟩
    by_cases hc : s.stream.head? = some c
    · refine ((honest_pure true (s.advance 1)).advance hone).of_eq fun t more ht => ?_
      rw [accept, if_pos ((hhead t more ht).1.trans hc)]
    · refine (honest_pure false s).of_eq fun t more ht => ?_
      rw [accept, if_neg, touch_of_stream_ne_nil (hhead t more ht).2]
      rwa [(hhead t more ht).1]

/-- More text does not change where a section ends. -/
theorem bodyLength?_append {opening closing : Char} {depth n : Nat} {cs : List Char}
    (h : bodyLength? opening closing depth cs = some n) (more : List Char) :
    bodyLength? opening closing depth (cs ++ more) = some n := by
  obtain ⟨body, rest, rfl, hlength, hbody⟩ := bodyLength?_eq_some_iff.1 h
  refine bodyLength?_eq_some_iff.2 ⟨body, rest ++ more, ?_, hlength, hbody⟩
  rw [List.append_assoc, List.cons_append]

/-- The rest of a section, from its opening delimiter. -/
def sectionFrom (opening closing : Char) (start : Position) (outer : Scanner) :
    Except Error Section × Scanner :=
  if outer.stream.isEmpty then
    (.error (.malformed (.openingExpected opening.toString) start), outer)
  else
    match bodyLength? opening closing 0 (outer.advance 1).stream with
    | some n =>
      (.ok ⟨(outer.advance 1).stream.take n, (outer.advance 1).position⟩,
        (outer.advance 1).advance (n + 1))
    | none =>
      (.error (.malformed (.sectionUnclosed closing.toString) (outer.advance 1).position),
        (outer.advance 1).drain.2)

theorem findSection_eq (opening closing : Char) (s : Scanner) :
    s.findSection opening closing =
      sectionFrom opening closing s.position (s.readUntilChar opening false).2.touch := by
  rw [readUntilChar, touch_readUntil]
  rfl

theorem sectionFrom_of_some {opening closing : Char} {start : Position} {n : Nat}
    (hne : s.stream ≠ []) (h : bodyLength? opening closing 0 (s.advance 1).stream = some n) :
    sectionFrom opening closing start s =
      (.ok ⟨(s.advance 1).stream.take n, (s.advance 1).position⟩,
        (s.advance 1).advance (n + 1)) := by
  rw [sectionFrom, if_neg (by simpa using hne), h]

/-- Who reads everything meets what is behind it. -/
theorem fault_drain (h : s.fault = .ahead) : s.drain.2.fault = .met := by
  have hend : (s.advance (s.stream.takeWhile fun _ => true).length).stream = [] := by
    rw [← stream_touch]
    exact stream_drain s
  exact fault_touch_eq_met_iff.2 (.inr ⟨h, hend⟩)

theorem honest_sectionFrom (opening closing : Char) (start : Position) :
    Honest fun s => sectionFrom opening closing start s.touch := by
  refine Honest.touch ?_ ?_
  · intro s hend
    rw [sectionFrom, if_pos (by simpa using hend)]
  · intro s hne
    have hone : 1 ≤ s.stream.length := List.length_pos_iff.2 hne
    cases hlength : bodyLength? opening closing 0 (s.advance 1).stream with
    | none =>
      have hsection : (sectionFrom opening closing start s).2 = (s.advance 1).drain.2 := by
        rw [sectionFrom, if_neg (by simpa using hne), hlength]
      constructor
      · rw [hsection]
        exact fun hs => (honest_takeWhile _ (s.advance 1)).keeps hs
      · rw [hsection]
        exact fun hs => .inl (fault_drain hs)
    | some n =>
      have hn : n + 1 ≤ (s.advance 1).stream.length := bodyLength?_lt hlength
      have hsection : HonestAt (fun s =>
          ((.ok ⟨s.stream.take n, s.position⟩ : Except Error Section), s.advance (n + 1)))
          (s.advance 1) := by
        refine ⟨fun _ => rfl, fun hs => .inr ⟨hs, fun more fault => ?_⟩⟩
        rw [extend_advance hn, stream_extend,
          List.take_append_of_le_length (Nat.le_of_succ_le hn)]
        rfl
      refine (hsection.advance hone).of_eq fun t more ht => ?_
      have hne' : t.stream ≠ [] := by
        rw [ht]
        exact List.append_ne_nil_of_left_ne_nil hne more
      refine sectionFrom_of_some hne' ?_
      rw [stream_advance, ht, List.drop_append_of_le_length hone, ← stream_advance,
        bodyLength?_append hlength]

theorem honest_findSection (opening closing : Char) : Honest (findSection opening closing) := by
  have hread := honest_position.bind fun start =>
    (honest_readUntil (· = opening)).bind fun _ => honest_sectionFrom opening closing start
  exact hread.of_eq (findSection_eq opening closing)

end Scanner

/-! ### The readers of nodes -/

namespace Node

open Scanner

variable {s : Scanner}

/-- The leaf with a value, if the value was closed. -/
def closeLeaf (key : List Char) (start : Position) (value : List Char) (closed : Bool) :
    Except Error Node :=
  if closed then .ok (leafOfText (keyOf key) (String.ofList (Text.trimEnd value)))
  else .error (.malformed (.valueUnclosed (keyOf key)) start)

theorem readLeaf_eq (key : List Char) (start : Position) (s : Scanner) :
    readLeaf key start s =
      (closeLeaf key start (s.skipBlank.readUntilChar ';' false).1
        ((s.skipBlank.readUntilChar ';' false).2.accept ';').1,
        ((s.skipBlank.readUntilChar ';' false).2.accept ';').2) := by
  unfold readLeaf
  rcases s.skipBlank.readUntilChar ';' false with ⟨value, t⟩
  rcases haccept : t.accept ';' with ⟨found, u⟩
  cases found <;> simp [haccept, closeLeaf]

theorem honest_readLeaf (key : List Char) (start : Position) : Honest (readLeaf key start) := by
  have hclose : ∀ value, Honest fun s =>
      (closeLeaf key start value (s.accept ';').1, (s.accept ';').2) :=
    fun value => (honest_accept ';').map (closeLeaf key start value)
  have hvalue := (honest_readUntil (· = ';')).bind hclose
  have hread := honest_skipBlank.bind fun _ => hvalue
  exact hread.of_eq (readLeaf_eq key start)

/-- The rest of a composite node, from its opening bracket. -/
def composed (mode : ReadMode) (readNodes : Scanner → Except Error (List Node)) (s : Scanner) :
    Except Error Node × Scanner :=
  ((s.findSection '[' ']').1.bind fun body =>
    readInside mode body.scanner fun t _ => readNodes t, (s.findSection '[' ']').2)

theorem honest_composed (mode : ReadMode) (readNodes : Scanner → Except Error (List Node)) :
    Honest (composed mode readNodes) :=
  (honest_findSection '[' ']').map fun found => found.bind fun body =>
    readInside mode body.scanner fun t _ => readNodes t

/-- The rest of a node, from the character behind its key. -/
def behindKey (mode : ReadMode) (readNodes : Scanner → Except Error (List Node))
    (start : Position) (key : List Char) (s : Scanner) : Except Error Node × Scanner :=
  match s.stream with
  | [] => (.error (.malformed .nodeExpected start), s)
  | ']' :: _ => (.ok placeholder, s.advance 1)
  | ':' :: _ => readLeaf key start (s.advance 1)
  | _ :: _ =>
    if Text.trim key ≠ [] then (.error (.malformed (.textBeforeBracket (keyOf key)) start), s)
    else composed mode readNodes s

section

variable {mode : ReadMode} {readNodes : Scanner → Except Error (List Node)} {start : Position}
  {key cs : List Char} {c : Char}

theorem behindKey_of_nil (h : s.stream = []) :
    behindKey mode readNodes start key s = (.error (.malformed .nodeExpected start), s) := by
  simp only [behindKey, h]

theorem behindKey_of_closing (h : s.stream = ']' :: cs) :
    behindKey mode readNodes start key s = (.ok placeholder, s.advance 1) := by
  simp only [behindKey, h]

theorem behindKey_of_colon (h : s.stream = ':' :: cs) :
    behindKey mode readNodes start key s = readLeaf key start (s.advance 1) := by
  simp only [behindKey, h]

theorem behindKey_of_ne (h : s.stream = c :: cs) (hclosing : c ≠ ']') (hcolon : c ≠ ':') :
    behindKey mode readNodes start key s =
      if Text.trim key ≠ [] then (.error (.malformed (.textBeforeBracket (keyOf key)) start), s)
      else composed mode readNodes s := by
  unfold behindKey
  rw [h]
  split
  · next heq => cases heq
  · next heq => exact absurd (List.cons.inj heq).1 hclosing
  · next heq => exact absurd (List.cons.inj heq).1 hcolon
  · rfl

end

theorem readWith_eq_behindKey (mode : ReadMode) (readNodes : Scanner → Except Error (List Node))
    (s : Scanner) :
    readWith mode s (fun t _ => readNodes t) =
      behindKey mode readNodes s.skipBlank.position
        (s.skipBlank.readUntilAny ['[', ':', ']'] false).1
        (s.skipBlank.readUntilAny ['[', ':', ']'] false).2.touch := by
  have htouch : (s.skipBlank.readUntilAny ['[', ':', ']'] false).2.touch =
      (s.skipBlank.readUntilAny ['[', ':', ']'] false).2 :=
    touch_readUntil _ s.skipBlank
  rw [htouch]
  simp only [readWith]
  split
  · next hs => rw [behindKey_of_nil hs]
  · next hs => rw [behindKey_of_closing hs]
  · next hs => rw [behindKey_of_colon hs]
  · next c cs hclosing hcolon hs =>
    have hclosing : c ≠ ']' := fun hc => hclosing (by rw [hc])
    have hcolon : c ≠ ':' := fun hc => hcolon (by rw [hc])
    rw [behindKey_of_ne hs hclosing hcolon]
    split
    · rfl
    · rw [composed]
      split
      · next hsection =>
        rw [hsection]
        rfl
      · next hsection =>
        rw [hsection]
        rfl

theorem honest_behindKey (mode : ReadMode) (readNodes : Scanner → Except Error (List Node))
    (start : Position) (key : List Char) :
    Honest fun s => behindKey mode readNodes start key s.touch := by
  refine Honest.touch ?_ ?_
  · intro s hend
    rw [behindKey_of_nil hend]
  · intro s hne
    obtain ⟨c, cs, hs⟩ := List.exists_cons_of_ne_nil hne
    have hone : 1 ≤ s.stream.length := List.length_pos_iff.2 hne
    -- where more text follows, the character is the same
    have hhead : ∀ (t : Scanner) more, t.stream = s.stream ++ more → t.stream = c :: (cs ++ more) := by
      intro t more ht
      rw [ht, hs, List.cons_append]
    by_cases hclosing : c = ']'
    · subst hclosing
      exact ((honest_pure (.ok placeholder) (s.advance 1)).advance hone).of_eq
        fun t more ht => behindKey_of_closing (hhead t more ht)
    · by_cases hcolon : c = ':'
      · subst hcolon
        exact ((honest_readLeaf key start (s.advance 1)).advance hone).of_eq
          fun t more ht => behindKey_of_colon (hhead t more ht)
      · by_cases htrim : Text.trim key = []
        · refine (honest_composed mode readNodes s).of_eq fun t more ht => ?_
          rw [behindKey_of_ne (hhead t more ht) hclosing hcolon, if_neg (not_not.2 htrim)]
        · refine (honest_pure (.error (.malformed (.textBeforeBracket (keyOf key)) start)) s).of_eq
            fun t more ht => ?_
          rw [behindKey_of_ne (hhead t more ht) hclosing hcolon, if_pos htrim]

theorem honest_readWith (mode : ReadMode) (readNodes : Scanner → Except Error (List Node)) :
    Honest fun s => readWith mode s fun t _ => readNodes t := by
  have hkey := fun start => (honest_readUntil (· ∈ ['[', ':', ']'])).bind
    (honest_behindKey mode readNodes start)
  have hread := honest_skipBlank.bind fun _ => honest_position.bind hkey
  exact hread.of_eq (readWith_eq_behindKey mode readNodes)

/-- The nodes behind a node that was read. -/
def others (mode : ReadMode) (found : Except Error Node) (s : Scanner) :
    Except Error (List Node) × Scanner :=
  match found with
  | .error e => (.error e, s)
  | .ok node => ((readAll mode s).1.map (node :: ·), (readAll mode s).2)

theorem readAll_of_ne {mode : ReadMode} (h : s.skipBlank.stream ≠ []) :
    readAll mode s =
      others mode (readWith mode s fun t _ => (readAll mode t).1).1
        (readWith mode s fun t _ => (readAll mode t).1).2 := by
  rw [readAll_eq, if_neg h]
  rcases readWith mode s fun t _ => (readAll mode t).1 with ⟨found, t⟩
  cases found <;> rfl

theorem honest_readAll (mode : ReadMode) : Honest (readAll mode) := by
  intro s
  -- the nodes behind the first one are fewer characters
  induction hn : s.remaining using Nat.strong_induction_on generalizing s with
  | _ n ih =>
    subst hn
    by_cases hend : s.skipBlank.stream = []
    · have hread : (readAll mode s).2 = s.skipBlank := by rw [readAll_eq, if_pos hend]
      obtain ⟨hkeeps, hunmet⟩ := honest_skipBlank s
      refine ⟨fun hs => by rw [hread]; exact hkeeps hs, fun hs => .inl ?_⟩
      rw [hread]
      exact (hunmet hs).resolve_right fun hahead => fault_skipBlank_of_nil hend hahead.1
    · have hothers : HonestAt
          (others mode (readWith mode s fun t _ => (readAll mode t).1).1)
          (readWith mode s fun t _ => (readAll mode t).1).2 := by
        rcases hfirst : readWith mode s fun t _ => (readAll mode t).1 with ⟨found, t⟩
        cases found with
        | error e => exact honest_pure (Except.error e : Except Error (List Node)) t
        | ok node =>
          have hbehind := ih _ (remaining_readWith_lt hfirst) t rfl
          exact hbehind.map (Except.map (node :: ·))
      refine ((honest_readWith mode (fun t => (readAll mode t).1) s).bind hothers).of_eq ?_
      intro t more ht
      refine readAll_of_ne ?_
      rw [stream_skipBlank] at hend ⊢
      rw [ht, dropWhile_append_of_ne hend]
      exact List.append_ne_nil_of_left_ne_nil hend more

/-- Who has read a document has looked for more. -/
theorem fault_readAll_of_ok {mode : ReadMode} {nodes : List Node}
    (h : (readAll mode s).1 = .ok nodes) : (readAll mode s).2.fault ≠ .ahead := by
  induction hn : s.remaining using Nat.strong_induction_on generalizing s nodes with
  | _ n ih =>
    subst hn
    by_cases hend : s.skipBlank.stream = []
    · rw [readAll_eq, if_pos hend]
      exact fault_skipBlank_of_nil hend
    · rw [readAll_of_ne hend] at h ⊢
      rcases hfirst : readWith mode s fun t _ => (readAll mode t).1 with ⟨found, t⟩
      rw [hfirst] at h
      cases found with
      | error e => cases h
      | ok node =>
        obtain ⟨behind, hbehind, -⟩ := map_eq_ok_iff.1 h
        exact ih _ (remaining_readWith_lt hfirst) hbehind rfl

end Node

/-! ### Other bytes behind the readable ones -/

namespace Source

open Text

theorem ofBytes_of_splitLines {bytes line rest : List UInt8} {cs : List Char}
    (h : splitLines (· = 10) bytes = line :: splitLines (· = 10) rest)
    (hdecode : decodeLine? line = some cs) :
    ofBytes bytes = ⟨cs ++ (ofBytes rest).text, (ofBytes rest).damaged⟩ := by
  rw [ofBytes_eq, h, ofLines_cons_some hdecode, ofBytes_eq]

/-- In a damaged source the readable lines end, so other bytes behind them start a line. -/
theorem ofBytes_readable_append {bytes : List UInt8} (h : (ofBytes bytes).damaged = true)
    (tail : List UInt8) :
    (ofBytes (readable bytes ++ tail)).damaged = (ofBytes tail).damaged ∧
      unifyLineEnds (ofBytes (readable bytes ++ tail)).text =
        unifyLineEnds (ofBytes bytes).text ++ unifyLineEnds (ofBytes tail).text := by
  induction hlines : splitLines (· = (10 : UInt8)) bytes generalizing bytes with
  | nil =>
    rw [ofBytes_eq, hlines] at h
    cases h
  | cons line lines ih =>
    obtain ⟨rest, -, hrest, hfirst⟩ := isFirstLine_of_splitLines hlines
    subst hrest
    cases hdecode : decodeLine? line with
    | none =>
      have hnone : readable bytes = [] := by simp [readable, hlines, hdecode]
      rw [hnone, List.nil_append, ofBytes_eq bytes, hlines, ofLines_cons_none hdecode]
      exact ⟨rfl, rfl⟩
    | some cs =>
      have hbytes := ofBytes_of_splitLines hlines hdecode
      have hdamaged : (ofBytes rest).damaged = true := by rwa [hbytes] at h
      have hreadable : readable bytes = line ++ readable rest := by
        rw [readable, hlines, List.takeWhile_cons_of_pos (by simp [hdecode])]
        rfl
      cases hfirst with
      | last hne hline hnil =>
        subst hnil
        cases hdamaged
      | ended body e hline he hbody =>
        have hsplit : splitLines (· = 10) (readable bytes ++ tail) =
            line :: splitLines (· = 10) (readable rest ++ tail) := by
          rw [hreadable, hline, List.append_assoc, List.append_assoc, List.singleton_append]
          refine splitLines_append_cons ?_ hbody _
          exact he
        have hfirst : ∀ more, unifyLineEnds (cs ++ (ofBytes more).text) =
            ended (innerLines cs) ++ unifyLineEnds (ofBytes more).text :=
          fun more => unifyLineEnds_append_of_isFirstLine (.ended body e hline he hbody) hdecode
        obtain ⟨hdamaged', htext⟩ := ih hdamaged rfl
        rw [ofBytes_of_splitLines hsplit hdecode, hbytes]
        exact ⟨hdamaged', by rw [hfirst, hfirst, htext, List.append_assoc]⟩

end Source

/-- With other bytes behind the readable ones, the scanner of a source has more text in front of it. -/
theorem Scanner.ofSource_readable_append {bytes : List UInt8}
    (h : (Source.ofBytes bytes).damaged = true) (tail : List UInt8) :
    ofSource (.ofBytes (Source.readable bytes ++ tail)) =
      (ofSource (.ofBytes bytes)).extend (Text.unifyLineEnds (Source.ofBytes tail).text)
        (if (Source.ofBytes tail).damaged then .ahead else .absent) := by
  obtain ⟨hdamaged, htext⟩ := Source.ofBytes_readable_append h tail
  simp only [ofSource, extend, hdamaged, htext]

/-! ### The nodes of a source -/

namespace Node

/-- To read the nodes of a source, someone looks for a character behind its readable lines. -/
def MeetsDamage (mode : ReadMode) (bytes : List UInt8) : Prop :=
  (readAll mode (.ofSource (.ofBytes bytes))).2.fault = .met

instance (mode : ReadMode) (bytes : List UInt8) : Decidable (MeetsDamage mode bytes) :=
  inferInstanceAs (Decidable (_ = _))

theorem parseSource_of_met {mode : ReadMode} {source : Source}
    (h : (readAll mode (.ofSource source)).2.fault = .met) :
    parseSource mode source = .error (.sourceFailed Source.damage) := by
  simp only [parseSource, Scanner.takeFault, h, if_true]

theorem parseSource_of_not_met {mode : ReadMode} {source : Source}
    (h : (readAll mode (.ofSource source)).2.fault ≠ .met) :
    parseSource mode source = (readAll mode (.ofSource source)).1 := by
  simp only [parseSource, Scanner.takeFault, h, if_false]

/-- In a source without damage none is met. -/
theorem parseSource_of_not_damaged (mode : ReadMode) (text : List Char) :
    parseSource mode ⟨text, false⟩ = (readAll mode (.ofChars text)).1 := by
  have hfault : (readAll mode (.ofSource ⟨text, false⟩)).2.fault = .absent :=
    (honest_readAll mode (.ofSource ⟨text, false⟩)).keeps nofun
  exact parseSource_of_not_met (by rw [hfault]; exact nofun)

theorem parseSource_of_damaged (mode : ReadMode) {bytes : List UInt8}
    (h : (Source.ofBytes bytes).damaged = true) :
    ∃ e, parseSource mode (.ofBytes bytes) = .error e ∧
      (MeetsDamage mode bytes → e = .sourceFailed Source.damage) ∧
      (¬MeetsDamage mode bytes →
        ∀ tail, parseSource mode (.ofBytes (Source.readable bytes ++ tail)) = .error e) := by
  have hahead : (Scanner.ofSource (.ofBytes bytes)).fault = .ahead := by
    simp [Scanner.ofSource, h]
  rcases (honest_readAll mode _).unmet hahead with hmet | ⟨hstill, hsame⟩
  · exact ⟨_, parseSource_of_met hmet, fun _ => rfl, fun hnot => absurd hmet hnot⟩
  · -- the reader has stopped early, and it would have stopped there in any case
    have hnot : (readAll mode (.ofSource (.ofBytes bytes))).2.fault ≠ .met := by
      intro hmet
      rw [hstill] at hmet
      cases hmet
    cases hresult : (readAll mode (.ofSource (.ofBytes bytes))).1 with
    | ok nodes => exact absurd hstill (fault_readAll_of_ok hresult)
    | error e =>
      refine ⟨e, by rw [parseSource_of_not_met hnot, hresult], fun hmet => absurd hmet hnot, ?_⟩
      intro _ tail
      have hread := hsame (Text.unifyLineEnds (Source.ofBytes tail).text)
        (if (Source.ofBytes tail).damaged then .ahead else .absent)
      rw [← Scanner.ofSource_readable_append h, hresult] at hread
      have hnot' : (readAll mode (.ofSource (.ofBytes (Source.readable bytes ++ tail)))).2.fault ≠
          .met := by
        rw [hread]
        show (if _ then Fault.ahead else Fault.absent) ≠ .met
        split <;> simp
      rw [parseSource_of_not_met hnot', hread]

/-- **A damaged source is never taken for a whole one.**  Nodes are read from a source only if it is
UTF-8, and then they are those of its text; so are its errors.  A source that is not UTF-8 has an error:
the failure itself if someone has looked behind the readable lines, and otherwise one that these lines
have, whatever stands behind them. -/
theorem parseSource_faithful (mode : ReadMode) (bytes : List UInt8) :
    (∀ nodes, parseSource mode (.ofBytes bytes) = .ok nodes →
      ∃ text, String.fromUTF8? ⟨bytes.toArray⟩ = some text ∧
        (readAll mode (.ofString text)).1 = .ok nodes) ∧
    (∀ text, String.fromUTF8? ⟨bytes.toArray⟩ = some text →
      parseSource mode (.ofBytes bytes) = (readAll mode (.ofString text)).1) ∧
    (String.fromUTF8? ⟨bytes.toArray⟩ = none →
      ∃ e, parseSource mode (.ofBytes bytes) = .error e ∧
        (MeetsDamage mode bytes → e = .sourceFailed Source.damage) ∧
        (¬MeetsDamage mode bytes →
          ∀ tail, parseSource mode (.ofBytes (Source.readable bytes ++ tail)) = .error e)) := by
  have hdamaged (h : String.fromUTF8? ⟨bytes.toArray⟩ = none) :
      (Source.ofBytes bytes).damaged = true := by
    rw [Source.damaged_ofBytes_iff, Source.decodeLine?, h]
    rfl
  have hwhole (text : String) (h : String.fromUTF8? ⟨bytes.toArray⟩ = some text) :
      parseSource mode (.ofBytes bytes) = (readAll mode (.ofString text)).1 := by
    have hbytes : bytes = Text.encode text.toList := by
      rw [← Text.decodeLine?_eq_some_iff, Source.decodeLine?, h]
      rfl
    rw [hbytes, Source.ofBytes_encode]
    exact parseSource_of_not_damaged mode text.toList
  refine ⟨fun nodes hnodes => ?_, hwhole, fun h => parseSource_of_damaged mode (hdamaged h)⟩
  cases htext : String.fromUTF8? ⟨bytes.toArray⟩ with
  | some text => exact ⟨text, rfl, by rw [← hwhole text htext, hnodes]⟩
  | none =>
    obtain ⟨e, he, -⟩ := parseSource_of_damaged mode (hdamaged htext)
    rw [hnodes] at he
    cases he

/-- The readers of `a:1;` and of `x[`, each with a line behind it that is not UTF-8: the first one goes
on to that line. -/
theorem parseSource_faithful_sample :
    parseSource .recursive (.ofBytes [97, 58, 49, 59]) =
      (readAll .recursive (.ofString "a:1;")).1 ∧
    parseSource .recursive (.ofBytes [97, 58, 49, 59, 10, 255]) =
      .error (.sourceFailed Source.damage) ∧
    ∀ tail, parseSource .recursive (.ofBytes ([120, 91, 10] ++ tail)) =
      .error (.malformed (.textBeforeBracket "x") ⟨1, 1, 0⟩) := by
  have htext : String.fromUTF8? ⟨[97, 58, 49, 59].toArray⟩ = some "a:1;" := by with_unfolding_all rfl
  have hreached : String.fromUTF8? ⟨[97, 58, 49, 59, 10, 255].toArray⟩ = none := by with_unfolding_all rfl
  have hnot : String.fromUTF8? ⟨[120, 91, 10, 255].toArray⟩ = none := by with_unfolding_all rfl
  refine ⟨(parseSource_faithful .recursive [97, 58, 49, 59]).2.1 _ htext, ?_, ?_⟩
  · obtain ⟨e, he, hmet, -⟩ := (parseSource_faithful .recursive _).2.2 hreached
    rw [he, hmet (by with_unfolding_all rfl)]
  · obtain ⟨e, he, -, htail⟩ := (parseSource_faithful .recursive _).2.2 hnot
    have hresult : parseSource .recursive (.ofBytes [120, 91, 10, 255]) =
        .error (.malformed (.textBeforeBracket "x") ⟨1, 1, 0⟩) := by
      with_unfolding_all rfl
    rw [hresult] at he
    obtain rfl := Except.error.inj he
    exact htail (by with_unfolding_all decide)

end Node

end TreeScript
