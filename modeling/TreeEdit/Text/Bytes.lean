/-!
# Byte offsets into a text

Offsets and lengths count the bytes of the UTF-8 form, while a text is a list of characters. An
offset is a *boundary* when it falls between two characters or at an end of the text; `between`
cuts a text at two boundaries.
-/

namespace TreeEdit.Text

/-- The number of bytes of a text. -/
def size (t : List Char) : Nat :=
  t.foldr (fun c n => c.utf8Size + n) 0

@[simp] theorem size_nil : size [] = 0 := rfl

@[simp] theorem size_cons (c : Char) (t : List Char) : size (c :: t) = c.utf8Size + size t := rfl

@[simp] theorem size_append (s t : List Char) : size (s ++ t) = size s + size t := by
  induction s with
  | nil => simp
  | cons c s ih => rw [List.cons_append, size_cons, size_cons, ih, Nat.add_assoc]

/-- Does the offset fall between two characters, or at an end? -/
def isBoundary : List Char → Nat → Bool
  | _, 0 => true
  | [], _ + 1 => false
  | c :: t, n + 1 => c.utf8Size ≤ n + 1 && isBoundary t (n + 1 - c.utf8Size)

def drop : Nat → List Char → List Char
  | 0, t => t
  | _ + 1, [] => []
  | n + 1, c :: t => drop (n + 1 - c.utf8Size) t

def take : Nat → List Char → List Char
  | 0, _ => []
  | _ + 1, [] => []
  | n + 1, c :: t => c :: take (n + 1 - c.utf8Size) t

def between (t : List Char) (start stop : Nat) : List Char :=
  take (stop - start) (drop start t)

end TreeEdit.Text
