/-!
# Positions in a text

A position counts lines and columns from one, columns in characters, and offsets from zero, in
bytes of the UTF-8 form.  It is the fold of `Position.step` over the characters in front of it.
-/

namespace TreeScript

/-- A place in a text whose line ends are single line feeds. -/
structure Position where
  /-- Line number, from one. -/
  line : Nat
  /-- Column number, from one, in characters. -/
  column : Nat
  /-- Number of bytes in front of the place. -/
  offset : Nat
deriving Repr, DecidableEq

namespace Position

/-- The place in front of the first character. -/
def start : Position := ⟨1, 1, 0⟩

instance : Inhabited Position := ⟨start⟩

/-- The place behind one more character: a line feed opens a new line. -/
def step (p : Position) (c : Char) : Position :=
  if c = '\n' then ⟨p.line + 1, 1, p.offset + c.utf8Size⟩
  else ⟨p.line, p.column + 1, p.offset + c.utf8Size⟩

/-- The place behind a whole run of characters. -/
def after (p : Position) (cs : List Char) : Position := cs.foldl step p

@[simp] theorem after_nil (p : Position) : p.after [] = p := rfl

@[simp] theorem after_cons (p : Position) (c : Char) (cs : List Char) :
    p.after (c :: cs) = (p.step c).after cs := rfl

theorem after_append (p : Position) (cs ds : List Char) :
    p.after (cs ++ ds) = (p.after cs).after ds := List.foldl_append

end Position

end TreeScript
