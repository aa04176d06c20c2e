import TreeEdit.Markdown.Block.Opening

/-!
# Blocks that hold blocks

Quotes, items of lists and notes. A line says by its beginning which of the open ones go on in it
(`Container.continue?`) and which new ones it starts (`Container.opening?`).
-/

namespace TreeEdit.Markdown

/-- A block that holds blocks. -/
inductive Container where
  | quote
  /-- An item, with its mark, the number of columns that its lines are indented by, and whether
  nothing but the mark was there so far. -/
  | item (mark : Char) (width : Nat) (bare : Bool)
  /-- A note, with its label. -/
  | note (label : List Char)

/-- The mark of an item: the character that items of one list share, its width, and whether an item
so marked can come right behind a paragraph. -/
def marker? (cs : List Char) : Option (Char × Nat × Bool) :=
  let digits := cs.takeWhile Char.isDigit
  let candidate : Option (Char × Nat × Bool) :=
    match cs, cs.drop digits.length with
    | [], _ => none
    | c :: _, rest =>
      if ['-', '+', '*'].contains c then some (c, 1, true)
      else
        match rest with
        | [] => none
        | d :: _ =>
          if (d == '.' || d == ')') && 1 ≤ digits.length && digits.length ≤ 9 then
            some (d, digits.length + 1, digits == ['1'])
          else none
  candidate.filter fun m => (cs.drop m.2.1).head?.all isSpace

/-- The label of a note up to its closing bracket, as it is written. -/
def noteLabel? : List Char → Option (List Char × List Char)
  | [] => none
  | ']' :: cs => some ([], cs)
  | '\\' :: c :: cs =>
    if ['[', '\\', ']'].contains c then (noteLabel? cs).map fun r => ('\\' :: c :: r.1, r.2)
    else (noteLabel? (c :: cs)).map fun r => ('\\' :: r.1, r.2)
  | c :: cs => if isSpace c || c == '[' then none else (noteLabel? cs).map fun r => (c :: r.1, r.2)

namespace Container

/-- What a line has behind the sign of a quote. -/
def quoted? (l : Line) : Option Line :=
  match l.body with
  | '>' :: c :: _ => if l.isOpen then some (l.skip (l.indent + if isSpace c then 2 else 1)) else none
  | ['>'] => if l.isOpen then some (l.skip (l.indent + 1)) else none
  | _ => none

/-- The item that a line starts, and the rest of the line. An item without text, or with a number
other than one, cannot interrupt text. -/
def item? (inText : Bool) (l : Line) : Option (Container × Line) :=
  if l.isThematicBreak || !l.isOpen then none
  else
    match marker? l.body with
    | none => none
    | some (mark, size, first) =>
      let width := l.indent + size
      let rest := l.skip width
      if inText && (rest.isBlank || !first) then none
      else if rest.isBlank then some (.item mark (width + 1) true, rest)
      else
        let gap := if rest.indent ≤ 4 then max 1 rest.indent else 1
        some (.item mark (width + gap) false, rest.skip gap)

/-- The note that a line starts, and the rest of the line. -/
def note? (l : Line) : Option (Container × Line) :=
  match l.body with
  | '[' :: '^' :: cs =>
    match noteLabel? cs with
    | some (label, ':' :: rest) =>
      let gap := (rest.takeWhile isSpace).length
      if l.isOpen && !label.isEmpty && Text.size label ≤ Reader.labelLimit then
        some (.note label, l.skip (l.indent + label.length + 4 + gap))
      else none
    | _ => none
  | _ => none

/-- The block of blocks that a line starts, and the rest of the line. -/
def opening? (o : Options) (inText : Bool) (l : Line) : Option (Container × Line) :=
  match quoted? l with
  | some rest => some (.quote, rest)
  | none => (item? inText l).or (if o.gfm then note? l else none)

/-- The blocks of blocks that a line starts, outermost first, each with its offset, and the rest of
the line. -/
def openings (o : Options) (inText : Bool) (l : Line) : List (Container × Nat) × Line :=
  match opening? o inText l with
  | none => ([], l)
  | some (c, rest) =>
    if _h : rest.text.length < l.text.length then
      let (cs, last) := openings o inText rest
      ((c, l.start) :: cs, last)
    else ([], l)
termination_by l.text.length

/-- What a line has for the block, if it goes on in it. Quotes go on with their sign, the others with
their indentation or a blank line. -/
def continue? (l : Line) : Container → Option (Container × Line)
  | quote => (quoted? l).map fun rest => (quote, rest)
  | item mark width bare =>
    if l.isBlank then
      if bare then none else some (item mark width false, l.skip (min width l.text.length))
    else if width ≤ l.indent then some (item mark width false, l.skip width)
    else none
  | note label =>
    if l.isBlank then some (note label, l.skip (min 4 l.text.length))
    else if 4 ≤ l.indent then some (note label, l.skip 4)
    else none

end Container

end TreeEdit.Markdown
