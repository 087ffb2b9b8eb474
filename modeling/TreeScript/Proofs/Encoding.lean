import TreeScript.Text.Encoded

/-!
# Lines of bytes and lines of characters

A source is cut into lines before anyone knows whether its bytes are UTF-8.  This does no harm: the
byte that ends a line is no part of any other character, so the lines of an encoded text are its encoded
lines, and a source is UTF-8 as a whole if each of its lines is.

- `encode`, `decodeLine?_eq_some_iff`: the bytes of a text, and back.
- `splitLines_encode`: lines and encoding.
- `IsFirstLine`, `isFirstLine_of_splitLines`: the first line of a source.
- `Source.ofLines`, `Source.ofBytes_encode`, `Source.damaged_ofBytes_iff`: what can be read of a source.
- `Source.readable`, `decodeLine?_readable`: the bytes that it is read from.
-/

namespace TreeScript

namespace Text

/-! ### Encoded characters -/

/-- The bytes of a text. -/
def encode (cs : List Char) : List UInt8 := cs.flatMap String.utf8EncodeChar

@[simp] theorem encode_nil : encode [] = [] := rfl

@[simp] theorem encode_cons (c : Char) (cs : List Char) :
    encode (c :: cs) = String.utf8EncodeChar c ++ encode cs := rfl

@[simp] theorem encode_append (cs ds : List Char) : encode (cs ++ ds) = encode cs ++ encode ds :=
  List.flatMap_append

/-- The byte of a line feed is no part of any other character. -/
theorem eq_lineFeed_of_mem {c : Char} (h : 10 ∈ String.utf8EncodeChar c) : c = '\n' := by
  have hbyte : ∀ n : Nat, (10 : UInt8) = UInt8.ofNat n → n % 256 = 10 := by
    intro n hn
    have := congrArg UInt8.toNat hn
    simpa [eq_comm] using this
  unfold String.utf8EncodeChar at h
  simp only at h
  split at h
  · have := hbyte _ (List.mem_singleton.1 h)
    have hval : c.val.toNat = 10 := by omega
    exact Char.ext (UInt32.toNat_inj.1 hval)
  · -- the bytes of a longer character are not below 128
    exfalso
    split at h
    · simp only [List.mem_cons, List.not_mem_nil, or_false] at h
      rcases h with h | h <;> have := hbyte _ h <;> omega
    · split at h
      · simp only [List.mem_cons, List.not_mem_nil, or_false] at h
        rcases h with h | h | h <;> have := hbyte _ h <;> omega
      · simp only [List.mem_cons, List.not_mem_nil, or_false] at h
        rcases h with h | h | h | h <;> have := hbyte _ h <;> omega

theorem lineFeed_mem_encode_iff {cs : List Char} : 10 ∈ encode cs ↔ '\n' ∈ cs := by
  constructor
  · intro h
    obtain ⟨c, hc, hmem⟩ := List.mem_flatMap.1 h
    rwa [← eq_lineFeed_of_mem hmem]
  · intro h
    exact List.mem_flatMap.2 ⟨'\n', h, by decide⟩

theorem decodeLine?_eq_some_iff {bytes : List UInt8} {cs : List Char} :
    Source.decodeLine? bytes = some cs ↔ bytes = encode cs := by
  have hbytes : (⟨bytes.toArray⟩ : ByteArray) = bytes.toByteArray := ByteArray.ext (by simp)
  rw [Source.decodeLine?, hbytes, Option.map_eq_some_iff]
  constructor
  · rintro ⟨text, htext, rfl⟩
    have hsame : text.toByteArray = bytes.toByteArray := by
      rw [String.fromUTF8?] at htext
      split at htext
      · obtain rfl := Option.some.inj htext
        rfl
      · cases htext
    rw [← String.utf8Encode_toList, List.utf8Encode, List.toByteArray_inj] at hsame
    exact hsame.symm
  · rintro rfl
    have hvalid : (encode cs).toByteArray.IsValidUTF8 := ⟨cs, rfl⟩
    refine ⟨String.ofList cs, ?_, String.toList_ofList⟩
    rw [String.fromUTF8?, dif_pos hvalid]
    refine congrArg some (String.toByteArray_inj.1 ?_)
    rw [String.toByteArray_ofList]
    rfl

theorem decodeLine?_encode (cs : List Char) : Source.decodeLine? (encode cs) = some cs :=
  decodeLine?_eq_some_iff.2 rfl

/-! ### Lines -/

section Lines

variable {α : Type} {isEnd : α → Bool} {x : α} {xs ys line : List α} {lines : List (List α)}

theorem splitLines_cons_of_isEnd (h : isEnd x = true) (xs : List α) :
    splitLines isEnd (x :: xs) = [x] :: splitLines isEnd xs := by
  simp [splitLines, h]

theorem splitLines_cons_of_not (h : isEnd x = false) (xs : List α) :
    splitLines isEnd (x :: xs) =
      (x :: (splitLines isEnd xs).headD []) :: (splitLines isEnd xs).tail := by
  simp only [splitLines, List.foldr_cons, h, Bool.false_eq_true, if_false]
  split <;> simp_all

/-- Characters that do not end a line go to the front of the line behind them. -/
theorem splitLines_append_of_not (hne : xs ≠ []) (h : ∀ x ∈ xs, isEnd x = false) (ys : List α) :
    splitLines isEnd (xs ++ ys) =
      (xs ++ (splitLines isEnd ys).headD []) :: (splitLines isEnd ys).tail := by
  induction xs with
  | nil => exact absurd rfl hne
  | cons x xs ih =>
    obtain ⟨hx, hxs⟩ := List.forall_mem_cons.1 h
    rw [List.cons_append, splitLines_cons_of_not hx]
    by_cases hnil : xs = []
    · subst hnil
      rfl
    · rw [ih hnil hxs]
      rfl

/-- A line that ends stays the first one, whatever follows. -/
theorem splitLines_append_cons {e : α} (he : isEnd e = true) (h : ∀ x ∈ xs, isEnd x = false)
    (ys : List α) : splitLines isEnd (xs ++ e :: ys) = (xs ++ [e]) :: splitLines isEnd ys := by
  by_cases hne : xs = []
  · rw [hne]
    exact splitLines_cons_of_isEnd he ys
  · rw [splitLines_append_of_not hne h, splitLines_cons_of_isEnd he]
    rfl

/-- The lines of an encoded text are its encoded lines. -/
theorem splitLines_encode (cs : List Char) :
    splitLines (· = 10) (encode cs) = (splitLines (· = '\n') cs).map encode := by
  induction cs with
  | nil => rfl
  | cons c cs ih =>
    rw [encode_cons]
    by_cases hc : c = '\n'
    · subst hc
      show splitLines _ (10 :: encode cs) = _
      rw [splitLines_cons_of_isEnd (by decide), splitLines_cons_of_isEnd (by decide), ih]
      rfl
    · have hbytes : ∀ b ∈ String.utf8EncodeChar c, decide (b = (10 : UInt8)) = false := by
        intro b hb
        refine decide_eq_false fun h10 => hc (eq_lineFeed_of_mem ?_)
        rwa [← h10]
      have hlines : splitLines (· = '\n') (c :: cs) =
          (c :: (splitLines (· = '\n') cs).headD []) :: (splitLines (· = '\n') cs).tail :=
        splitLines_cons_of_not (by simpa using hc) cs
      rw [splitLines_append_of_not String.utf8EncodeChar_ne_nil hbytes, hlines, ih]
      cases splitLines (fun x => decide (x = '\n')) cs <;> simp

/-- A line is the first one of a source: it goes up to an end of line, or it is all there is. -/
inductive IsFirstLine (isEnd : α → Bool) (line rest : List α) : Prop
  | ended (body : List α) (e : α) (hline : line = body ++ [e]) (he : isEnd e = true)
      (hbody : ∀ x ∈ body, isEnd x = false)
  | last (hne : line ≠ []) (hline : ∀ x ∈ line, isEnd x = false) (hrest : rest = [])

theorem IsFirstLine.cons (hx : isEnd x = false) (h : IsFirstLine isEnd line ys) :
    IsFirstLine isEnd (x :: line) ys := by
  cases h with
  | ended body e hline he hbody =>
    exact .ended (x :: body) e (by rw [hline, List.cons_append]) he
      (List.forall_mem_cons.2 ⟨hx, hbody⟩)
  | last hne hline hrest =>
    exact .last (List.cons_ne_nil _ _) (List.forall_mem_cons.2 ⟨hx, hline⟩) hrest

/-- The first line, and the lines of what is behind it. -/
theorem isFirstLine_of_splitLines (h : splitLines isEnd xs = line :: lines) :
    ∃ rest, xs = line ++ rest ∧ lines = splitLines isEnd rest ∧ IsFirstLine isEnd line rest := by
  induction xs generalizing line lines with
  | nil => cases h
  | cons x xs ih =>
    by_cases hx : isEnd x = true
    · rw [splitLines_cons_of_isEnd hx] at h
      obtain ⟨rfl, rfl⟩ := List.cons.inj h
      exact ⟨xs, rfl, rfl, .ended [] x rfl hx (List.forall_mem_nil _)⟩
    · have hx : isEnd x = false := Bool.eq_false_iff.2 hx
      rw [splitLines_cons_of_not hx] at h
      cases hlines : splitLines isEnd xs with
      | nil =>
        have hnil : xs = [] := by rw [← flatten_splitLines isEnd xs, hlines]; rfl
        rw [hlines] at h
        obtain ⟨rfl, rfl⟩ := List.cons.inj h
        subst hnil
        exact ⟨[], rfl, rfl, .last (List.cons_ne_nil _ _) (List.forall_mem_singleton.2 hx) rfl⟩
      | cons first others =>
        rw [hlines] at h
        obtain ⟨rfl, rfl⟩ := List.cons.inj h
        obtain ⟨rest, hxs, hothers, hfirst⟩ := ih hlines
        exact ⟨rest, by rw [hxs]; rfl, hothers, hfirst.cons hx⟩

end Lines

end Text

/-! ### Sources -/

namespace Source

open Text

/-- What can be read of a source that is given as its lines. -/
def ofLines (lines : List (List UInt8)) : Source where
  text := (((lines.map decodeLine?).takeWhile Option.isSome).filterMap id).flatten
  damaged := (lines.map decodeLine?).any Option.isNone

theorem ofBytes_eq (bytes : List UInt8) : ofBytes bytes = ofLines (splitLines (· = 10) bytes) := rfl

@[simp] theorem ofLines_nil : ofLines [] = ⟨[], false⟩ := rfl

theorem ofLines_cons_some {line : List UInt8} {cs : List Char} (h : decodeLine? line = some cs)
    (lines : List (List UInt8)) :
    ofLines (line :: lines) = ⟨cs ++ (ofLines lines).text, (ofLines lines).damaged⟩ := by
  simp [ofLines, h]

theorem ofLines_cons_none {line : List UInt8} (h : decodeLine? line = none)
    (lines : List (List UInt8)) : ofLines (line :: lines) = ⟨[], true⟩ := by
  simp [ofLines, h]

theorem ofLines_map_encode (lines : List (List Char)) :
    ofLines (lines.map encode) = ⟨lines.flatten, false⟩ := by
  induction lines with
  | nil => rfl
  | cons line lines ih =>
    rw [List.map_cons, ofLines_cons_some (decodeLine?_encode line), ih]
    rfl

/-- A source that is UTF-8 can be read as a whole. -/
theorem ofBytes_encode (cs : List Char) : ofBytes (encode cs) = ⟨cs, false⟩ := by
  rw [ofBytes_eq, splitLines_encode, ofLines_map_encode, flatten_splitLines]

theorem ofString_eq_ofBytes (text : String) : ofString text = ofBytes (encode text.toList) :=
  (ofBytes_encode text.toList).symm

theorem damaged_ofLines_iff {lines : List (List UInt8)} :
    (ofLines lines).damaged = true ↔ ∃ line ∈ lines, decodeLine? line = none := by
  simp [ofLines]

/-- Lines that are all UTF-8 are the encoded text. -/
theorem flatten_of_not_damaged {lines : List (List UInt8)} (h : (ofLines lines).damaged = false) :
    lines.flatten = encode (ofLines lines).text := by
  induction lines with
  | nil => rfl
  | cons line lines ih =>
    cases hline : decodeLine? line with
    | none =>
      rw [ofLines_cons_none hline] at h
      cases h
    | some cs =>
      rw [ofLines_cons_some hline] at h ⊢
      rw [List.flatten_cons, ih h, decodeLine?_eq_some_iff.1 hline]
      exact (encode_append _ _).symm

/-- A source is damaged if it is not UTF-8. -/
theorem damaged_ofBytes_iff {bytes : List UInt8} :
    (ofBytes bytes).damaged = true ↔ decodeLine? bytes = none := by
  constructor
  · intro h
    cases hdecode : decodeLine? bytes with
    | none => rfl
    | some cs =>
      rw [decodeLine?_eq_some_iff.1 hdecode, ofBytes_encode] at h
      cases h
  · intro h
    cases hdamaged : (ofBytes bytes).damaged with
    | true => rfl
    | false =>
      have hflatten := flatten_of_not_damaged hdamaged
      rw [flatten_splitLines] at hflatten
      rw [hflatten, decodeLine?_encode] at h
      cases h

/-- The whole lines of a source in front of the first one that is not UTF-8, or all of them. -/
def readable (bytes : List UInt8) : List UInt8 :=
  ((splitLines (· = 10) bytes).takeWhile fun line => (decodeLine? line).isSome).flatten

/-- The readable lines are those whose text can be read. -/
theorem decodeLine?_readable (bytes : List UInt8) :
    decodeLine? (readable bytes) = some (ofBytes bytes).text := by
  rw [decodeLine?_eq_some_iff, readable, ofBytes_eq]
  induction splitLines (fun b => decide (b = (10 : UInt8))) bytes with
  | nil => rfl
  | cons line lines ih =>
    cases hline : decodeLine? line with
    | none => simp [ofLines_cons_none hline, hline]
    | some cs =>
      rw [List.takeWhile_cons_of_pos (by simp [hline]), List.flatten_cons, ih, ofLines_cons_some hline,
        decodeLine?_eq_some_iff.1 hline]
      exact (encode_append _ _).symm

end Source

end TreeScript
