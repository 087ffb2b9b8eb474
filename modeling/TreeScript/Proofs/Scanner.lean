import TreeScript.Proofs.Text
import TreeScript.Scanner.Search

/-!
# What readers take from the stream

A reader is described by how it cuts the stream: what it returns, and what it leaves.  For a stream
that is given as an append the two halves are found by `takeWhile_append_of_stop` and its sibling.

- `fst_readUntil`, `stream_readUntil`: reading up to a stop.
- `readUntil_of_nil`, `readUntil_of_stop`, `readUntil_cons`: the same, one character at a time.
- `readUntil_of_stream`, `skipBlank_of_stream`: the same for a stream that is given in two parts.
- `skipBlank_skipBlank`: skipping blanks twice.
- `accept_of_stream`, `stream_of_accept`: reading a given character.
- `touch_of_stream_ne_nil`, `advance_of_stream_nil`: where looking and moving do nothing.
- `advance_advance`: moving twice.
- `fault_touch_eq_ahead_iff`, `fault_touch_eq_met_iff`: what looking does to damage.
- `touch_touch`, `touch_readUntil`: looking twice.
-/

namespace TreeScript.Scanner

open Text

variable {s t : Scanner}

theorem touch_of_stream_ne_nil (h : s.stream ≠ []) : s.touch = s := by
  rw [touch, if_neg (by simp [h])]

@[simp] theorem pushed_touch (s : Scanner) : s.touch.pushed = s.pushed := by
  unfold touch; split <;> rfl

@[simp] theorem rest_touch (s : Scanner) : s.touch.rest = s.rest := by
  unfold touch; split <;> rfl

@[simp] theorem position_touch (s : Scanner) : s.touch.position = s.position := by
  unfold touch; split <;> rfl

theorem fault_touch_eq_ahead_iff : s.touch.fault = .ahead ↔ s.fault = .ahead ∧ s.stream ≠ [] := by
  by_cases hend : s.stream = []
  · cases hfault : s.fault <;> simp [touch, hend, hfault]
  · simp [touch_of_stream_ne_nil hend, hend]

theorem fault_touch_eq_met_iff :
    s.touch.fault = .met ↔ s.fault = .met ∨ s.fault = .ahead ∧ s.stream = [] := by
  by_cases hend : s.stream = []
  · cases hfault : s.fault <;> simp [touch, hend, hfault]
  · simp [touch_of_stream_ne_nil hend, hend]

/-- The end of a text is not looked at without meeting what is behind it. -/
theorem fault_touch_of_stream_nil (h : s.stream = []) : s.touch.fault ≠ .ahead := by
  rw [Ne, fault_touch_eq_ahead_iff]
  exact fun hahead => hahead.2 h

theorem fault_touch_of_ne (h : s.fault ≠ .ahead) : s.touch.fault = s.fault := by
  rw [touch, if_neg (by simp [h])]

theorem touch_touch (s : Scanner) : s.touch.touch = s.touch := by
  by_cases hend : s.touch.stream = []
  · have hfault := fault_touch_of_stream_nil ((stream_touch s).symm.trans hend)
    rw [touch.eq_def s.touch, if_neg (by simp [hfault])]
  · exact touch_of_stream_ne_nil hend

/-- A reader that stops in front of a character has looked at it. -/
theorem touch_readUntil (stop : Char → Bool) (s : Scanner) :
    (s.readUntil stop false).2.touch = (s.readUntil stop false).2 :=
  touch_touch _

theorem advance_of_stream_nil (h : s.stream = []) (n : Nat) : s.advance n = s := by
  obtain ⟨hpushed, hrest⟩ := List.append_eq_nil_iff.1 h
  cases s
  simp_all [advance]

@[simp] theorem advance_zero (s : Scanner) : s.advance 0 = s := by
  simp [advance]

theorem advance_advance (m n : Nat) (s : Scanner) : (s.advance m).advance n = s.advance (m + n) := by
  -- what is not put back starts to leave the text when the characters that were put back are read
  have hcount : m + n - s.pushed.length =
      m - s.pushed.length + (n - (s.pushed.drop m).length) := by
    rw [List.length_drop]
    omega
  simp only [advance, List.drop_drop, ← Position.after_append, hcount, List.take_add]

@[simp] theorem fst_readUntil (stop : Char → Bool) (discard : Bool) (s : Scanner) :
    (s.readUntil stop discard).1 = s.stream.takeWhile (!stop ·) := rfl

@[simp] theorem stream_readUntil (stop : Char → Bool) (s : Scanner) :
    (s.readUntil stop false).2.stream = s.stream.dropWhile (!stop ·) := by
  simp [readUntil]

@[simp] theorem stream_drain (s : Scanner) : s.drain.2.stream = [] := by
  rw [drain, stream_takeWhile, List.dropWhile_eq_nil_iff]
  exact fun _ _ => rfl

/-! ### One character at a time -/

section

variable {c : Char} {cs : List Char}

theorem readUntil_of_nil (stop : Char → Bool) (hs : s.stream = []) :
    s.readUntil stop false = ([], s.touch) := by
  simp [readUntil, takeWhile, hs]

theorem readUntil_of_stop {stop : Char → Bool} (hs : s.stream = c :: cs) (hc : stop c = true) :
    s.readUntil stop false = ([], s) := by
  have htouch : s.touch = s := touch_of_stream_ne_nil (by simp [hs])
  simp [readUntil, takeWhile, hs, hc, htouch]

theorem readUntil_cons {stop : Char → Bool} (hs : s.stream = c :: cs) (hc : stop c = false) :
    s.readUntil stop false =
      (c :: ((s.advance 1).readUntil stop false).1, ((s.advance 1).readUntil stop false).2) := by
  simp [readUntil, takeWhile, hs, hc, advance_advance, Nat.add_comm]

end

/-! ### Streams in two parts -/

/-- What is read in front of a stop, and what is left. -/
theorem readUntil_of_stream (stop : Char → Bool) {text rest : List Char}
    (hs : s.stream = text ++ rest) (htext : ∀ c ∈ text, stop c = false)
    (hrest : ∀ c ∈ rest.head?, stop c = true) :
    ∃ t, s.readUntil stop false = (text, t) ∧ t.stream = rest := by
  have htext' : ∀ c ∈ text, (!stop c) = true := fun c hc => by simp [htext c hc]
  have hrest' : ∀ c ∈ rest.head?, ¬ (!stop c) = true := fun c hc => by simp [hrest c hc]
  refine ⟨(s.readUntil stop false).2, Prod.ext ?_ rfl, ?_⟩
  · rw [fst_readUntil, hs, takeWhile_append_of_stop htext' hrest']
  · rw [stream_readUntil, hs, dropWhile_append_of_stop htext' hrest']

/-- The stream is what was read, and what is left starts with a stop. -/
theorem stream_eq_readUntil (stop : Char → Bool) (s : Scanner) :
    s.stream = (s.readUntil stop false).1 ++ (s.readUntil stop false).2.stream := by
  rw [fst_readUntil, stream_readUntil, List.takeWhile_append_dropWhile]

theorem not_stop_of_mem_readUntil {stop : Char → Bool} {c : Char}
    (h : c ∈ (s.readUntil stop false).1) : stop c = false := by
  simpa using forall_mem_takeWhile _ _ _ h

theorem stop_of_head?_readUntil {stop : Char → Bool} {c : Char} {rest : List Char}
    (h : (s.readUntil stop false).2.stream = c :: rest) : stop c = true := by
  rw [stream_readUntil] at h
  have hc := not_head?_dropWhile (!stop ·) s.stream c (by rw [h]; rfl)
  cases hstop : stop c with
  | true => rfl
  | false => simp [hstop] at hc

/-- Blanks are skipped up to the first character that is none. -/
theorem skipBlank_of_stream {pad rest : List Char} (hs : s.stream = pad ++ rest)
    (hpad : AllBlank pad) (hrest : Flush rest) : s.skipBlank.stream = rest := by
  rw [stream_skipBlank, hs, dropWhile_append_of_stop hpad hrest]

theorem stream_eq_skipBlank (s : Scanner) :
    ∃ pad, AllBlank pad ∧ s.stream = pad ++ s.skipBlank.stream := by
  refine ⟨s.stream.takeWhile isBlank, forall_mem_takeWhile _ _, ?_⟩
  rw [stream_skipBlank, List.takeWhile_append_dropWhile]

theorem flush_skipBlank (s : Scanner) : Flush s.skipBlank.stream := by
  rw [stream_skipBlank]
  exact not_head?_dropWhile _ _

/-- Behind blanks there are no more of them. -/
theorem skipBlank_skipBlank (s : Scanner) : s.skipBlank.skipBlank = s.skipBlank := by
  have hnone : s.skipBlank.stream.takeWhile isBlank = [] :=
    List.takeWhile_eq_nil_iff.2 fun hpos hblank =>
      s.flush_skipBlank _ (List.head?_eq_getElem? ▸ List.getElem?_eq_getElem hpos) hblank
  rw [skipBlank.eq_def s.skipBlank, takeWhile, hnone, List.length_nil, advance_zero]
  exact touch_touch _

theorem accept_of_stream {c : Char} {rest : List Char} (hs : s.stream = c :: rest) :
    ∃ t, s.accept c = (true, t) ∧ t.stream = rest :=
  ⟨s.advance 1, by simp [accept, hs], by simp [hs]⟩

theorem next_of_stream {c : Char} {rest : List Char} (hs : s.stream = c :: rest) :
    ∃ t, s.next = (some c, t) ∧ t.stream = rest :=
  ⟨s.touch.advance 1, by simp [next, hs], by simp [hs]⟩

theorem stream_accept_of_ne {c : Char} (h : s.stream.head? ≠ some c) :
    (s.accept c).2.stream = s.stream := by
  rw [accept, if_neg h, stream_touch]

theorem stream_of_accept {c : Char} (h : s.accept c = (true, t)) : s.stream = c :: t.stream := by
  unfold accept at h
  split at h
  · next hc =>
    obtain ⟨-, rfl⟩ := Prod.mk.inj h
    cases hs : s.stream with
    | nil => simp [hs] at hc
    | cons d ds =>
      obtain rfl : d = c := by simpa [hs] using hc
      simp [hs]
  · simp at h

end TreeScript.Scanner
