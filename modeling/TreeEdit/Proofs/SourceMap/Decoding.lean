import TreeEdit.SourceMap.Segment

/-!
# Reading the text of mappings

`Segment.decode` reads a text of mappings by the rules of revision 3 of the format: segments end at commas and
semicolons, a semicolon starts a new line, and the numbers of a segment are differences from the segment before, of which
only the generated column starts anew on each line. A segment of one number has no source, one of four numbers has one,
and one of five has a name too.

A text that was made of mappings in the order of their lines is read back as these mappings (`decode_encode`): digits as
their number (`numbers_natDigits`), a segment as its mapping (`finish_segment`), and what stands between two segments as
the way from the line of the one to that of the other (`decodeFrom_between`).
-/

namespace TreeEdit.Segment

/-! ## Numbers -/

def digitValue (c : Char) : Option Nat :=
  alphabet.idxOf? c

/-- Puts five bits below the first of some numbers. -/
def withLowBits (d : Nat) : List Nat → Option (List Nat)
  | [] => none
  | n :: ns => some ((d + 32 * n) :: ns)

/-- The numbers that some digits give. A digit of 32 or more has its lower five bits below the number that follows. -/
def numbers : List Char → Option (List Nat)
  | [] => some []
  | c :: t => do
    let d ← digitValue c
    let ns ← numbers t
    if d < 32 then return d :: ns else withLowBits (d - 32) ns

/-- A number whose lowest bit is its sign. -/
def unsign (n : Nat) : Int :=
  if n % 2 = 0 then (n / 2 : Nat) else -(n / 2 : Nat)

def isSeparator (c : Char) : Bool :=
  c == ',' || c == ';'

theorem digit_facts {n : Nat} (h : n < 64) : digitValue (digit n) = some n ∧ isSeparator (digit n) = false := by
  have hall : ∀ m ∈ List.range 64, digitValue (digit m) = some m ∧ isSeparator (digit m) = false := by decide +kernel
  exact hall n (List.mem_range.mpr h)

theorem numbers_cons {n : Nat} (h : n < 64) (t : List Char) :
    numbers (digit n :: t) = (numbers t).bind fun ns => if n < 32 then some (n :: ns) else withLowBits (n - 32) ns := by
  rw [numbers, (digit_facts h).1]
  rfl

theorem numbers_natDigits (n : Nat) (t : List Char) : numbers (natDigits n ++ t) = (numbers t).map (n :: ·) := by
  induction n using Nat.strongRecOn with
  | ind n ih =>
    rw [natDigits]
    split
    · rename_i hlt
      rw [List.singleton_append, numbers_cons (by omega)]
      cases numbers t with
      | none => rfl
      | some ns => simp [hlt]
    · rename_i hge
      have hmore : ¬ n % 32 + 32 < 32 := by omega
      rw [List.cons_append, numbers_cons (by omega), ih (n / 32) (by omega)]
      cases numbers t with
      | none => rfl
      | some ns => simp [withLowBits, hmore, Nat.mod_add_div]

theorem unsign_zigzag (i : Int) : unsign (zigzag i) = i := by
  cases i with
  | ofNat n =>
    have hhalf : 2 * n / 2 = n := by omega
    simp [unsign, zigzag, hhalf]
  | negSucc n =>
    have hodd : (2 * (n + 1) + 1) % 2 = 1 := by omega
    have hhalf : (2 * (n + 1) + 1) / 2 = n + 1 := by omega
    simp only [unsign, zigzag, hodd, hhalf]
    rfl

theorem numbers_intDigits (i : Int) (t : List Char) : numbers (intDigits i ++ t) = (numbers t).map (zigzag i :: ·) :=
  numbers_natDigits _ _

theorem isSeparator_of_mem_natDigits {n : Nat} {c : Char} (h : c ∈ natDigits n) : isSeparator c = false := by
  induction n using Nat.strongRecOn with
  | ind n ih =>
    rw [natDigits] at h
    split at h
    · rw [List.mem_singleton.mp h]
      exact (digit_facts (by omega)).2
    · rcases List.mem_cons.mp h with rfl | h
      · exact (digit_facts (by omega)).2
      · exact ih _ (by omega) h

theorem natDigits_ne_nil (n : Nat) : natDigits n ≠ [] := by
  rw [natDigits]
  split <;> simp

/-! ## Segments -/

/-- What the numbers of the next segment are added to, and its line. -/
structure Running where
  line : Nat := 0
  column : Int := 0
  source : Int := 0
  sourceLine : Int := 0
  sourceColumn : Int := 0
  name : Int := 0

/-- What a segment says: a position in the edited text, the source that it comes from by its index, with the position
there, and the index of a name. -/
structure Decoded where
  generated : Position
  origin : Option (Nat × Position)
  name : Option Nat
  deriving DecidableEq

def Running.generated? (s : Running) : Option Position :=
  s.column.toNat?.map fun column => ⟨s.line, column⟩

def Running.origin? (s : Running) : Option (Nat × Position) := do
  return (← s.source.toNat?, ⟨← s.sourceLine.toNat?, ← s.sourceColumn.toNat?⟩)

/-- Adds the numbers of a segment, and gives what it says. -/
def Running.read (s : Running) : List Int → Option (Running × Decoded)
  | [column] => do
    let s := { s with column := s.column + column }
    return (s, ⟨← s.generated?, none, none⟩)
  | [column, source, line, sourceColumn] => do
    let s := { s with
      column := s.column + column
      source := s.source + source
      sourceLine := s.sourceLine + line
      sourceColumn := s.sourceColumn + sourceColumn }
    return (s, ⟨← s.generated?, some (← s.origin?), none⟩)
  | [column, source, line, sourceColumn, name] => do
    let s := { s with
      column := s.column + column
      source := s.source + source
      sourceLine := s.sourceLine + line
      sourceColumn := s.sourceColumn + sourceColumn
      name := s.name + name }
    return (s, ⟨← s.generated?, some (← s.origin?), some (← s.name.toNat?)⟩)
  | _ => none

/-- Reads the text of a segment; an empty one says nothing. -/
def Running.finish (s : Running) (text : List Char) : Option (Running × List Decoded) :=
  if text.isEmpty then some (s, [])
  else ((numbers text).map (·.map unsign)).bind fun ns => (s.read ns).map fun r => (r.1, [r.2])

def Running.nextLine (s : Running) : Running :=
  { s with line := s.line + 1, column := 0 }

/-- Reads the rest of a text of mappings, where `text` is what there is of a segment so far. -/
def decodeFrom (s : Running) (text : List Char) : List Char → Option (List Decoded)
  | [] => (s.finish text).map (·.2)
  | c :: rest =>
    if isSeparator c then
      (s.finish text).bind fun r =>
        (decodeFrom (if c = ';' then r.1.nextLine else r.1) [] rest).map (r.2 ++ ·)
    else decodeFrom s (text ++ [c]) rest

def decode (text : List Char) : Option (List Decoded) :=
  decodeFrom {} [] text

/-! ## Reading back -/

theorem decodeFrom_append (s : Running) (text : List Char) {front : List Char}
    (hfront : ∀ c ∈ front, isSeparator c = false) (rest : List Char) :
    decodeFrom s text (front ++ rest) = decodeFrom s (text ++ front) rest := by
  induction front generalizing text with
  | nil => simp
  | cons c front ih =>
    rw [List.cons_append, decodeFrom, if_neg (by simp [hfront c (by simp)]),
      ih _ fun d hd => hfront d (by simp [hd]), List.append_assoc, List.singleton_append]

theorem finish_nil (s : Running) : s.finish [] = some (s, []) := rfl

section

variable {s s' : Running} {text : List Char} {ds : List Decoded}

theorem decodeFrom_separator (h : s.finish text = some (s', ds)) {c : Char} (hc : isSeparator c = true)
    (rest : List Char) :
    decodeFrom s text (c :: rest) = (decodeFrom (if c = ';' then s'.nextLine else s') [] rest).map (ds ++ ·) := by
  rw [decodeFrom, if_pos hc, h]
  rfl

theorem decodeFrom_semicolons (h : s.finish text = some (s', ds)) (n : Nat) (rest : List Char) :
    decodeFrom s text (List.replicate (n + 1) ';' ++ rest) =
      (decodeFrom { s' with line := s'.line + (n + 1), column := 0 } [] rest).map (ds ++ ·) := by
  induction n generalizing s s' text ds with
  | zero => exact decodeFrom_separator h rfl rest
  | succ n ih =>
    have hline : s'.nextLine.line + (n + 1) = s'.line + (n + 1 + 1) := by
      simp only [Running.nextLine]
      omega
    rw [List.replicate_succ, List.cons_append, decodeFrom_separator h rfl, if_pos rfl, ih (finish_nil _), hline]
    simp [Running.nextLine]

end

/-- What a segment is read relative to, if it is written relative to the context. -/
def Context.running (c : Context) : Running where
  line := c.generated.line
  column := c.generated.column
  sourceLine := c.source.line
  sourceColumn := c.source.column

/-- The same on the line of a mapping, which may be a later one. -/
def Context.runningFor (c : Context) (m : Mapping) : Running where
  line := m.generated.line
  column := if m.generated.line = c.generated.line then c.generated.column else 0
  sourceLine := c.source.line
  sourceColumn := c.source.column

def Context.behind (m : Mapping) : Context :=
  ⟨m.generated, m.source, false⟩

/-- A mapping as what its segment says. -/
def Decoded.ofMapping (m : Mapping) : Decoded :=
  ⟨m.generated, some (0, m.source), none⟩

theorem numbers_segment (c : Context) (m : Mapping) :
    (numbers (segment c m)).map (·.map unsign) = some [m.generated.column - (c.runningFor m).column, 0,
      m.source.line - c.source.line, m.source.column - c.source.column] := by
  have hcolumn : (c.runningFor m).column =
      (if m.generated.line = c.generated.line then c.generated.column else 0 : Nat) := by
    rw [Context.runningFor]
    split <;> rfl
  rw [segment, List.append_assoc, List.append_assoc, numbers_intDigits, numbers_intDigits, numbers_intDigits,
    ← List.append_nil (intDigits (m.source.column - c.source.column)), numbers_intDigits, hcolumn]
  simp [numbers, unsign_zigzag]

theorem finish_segment (c : Context) (m : Mapping) :
    (c.runningFor m).finish (segment c m) = some ((Context.behind m).running, [.ofMapping m]) := by
  have hne : (segment c m).isEmpty = false := by
    rw [List.isEmpty_eq_false_iff, segment, List.append_assoc, List.append_assoc]
    exact List.append_ne_nil_of_left_ne_nil (natDigits_ne_nil _) _
  have hcolumn : (c.runningFor m).column + (m.generated.column - (c.runningFor m).column) = m.generated.column := by
    omega
  have hline : (c.runningFor m).sourceLine + (m.source.line - c.source.line) = m.source.line := by
    simp only [Context.runningFor]
    omega
  have hsource : (c.runningFor m).sourceColumn + (m.source.column - c.source.column) = m.source.column := by
    simp only [Context.runningFor]
    omega
  rw [Running.finish, hne, numbers_segment, if_neg Bool.false_ne_true, Option.bind_some, Running.read]
  simp only [hcolumn, hline, hsource]
  rfl

theorem isSeparator_of_mem_segment {c : Context} {m : Mapping} {ch : Char} (h : ch ∈ segment c m) :
    isSeparator ch = false := by
  rw [segment, List.mem_append, List.mem_append, List.mem_append] at h
  rcases h with ((h | h) | h) | h <;> exact isSeparator_of_mem_natDigits h

theorem decodeFrom_between {s : Running} {text : List Char} {ds : List Decoded} {c : Context} {m : Mapping}
    (h : s.finish text = some (c.running, ds)) (hfirst : c.first = true → text = [])
    (hline : c.generated.line ≤ m.generated.line) (rest : List Char) :
    decodeFrom s text (separator c m ++ rest) = (decodeFrom (c.runningFor m) [] rest).map (ds ++ ·) := by
  rw [separator]
  split
  · rename_i hsame
    have hrunning : c.runningFor m = c.running := by simp [Context.runningFor, Context.running, hsame]
    rw [hrunning]
    split
    · rename_i hc
      rw [hfirst hc, finish_nil] at h
      obtain ⟨rfl, rfl⟩ : s = c.running ∧ ds = [] := by simpa [eq_comm] using h
      simp [hfirst hc]
    · exact decodeFrom_separator h rfl rest
  · rename_i hother
    obtain ⟨n, hn⟩ : ∃ n, m.generated.line - c.generated.line = n + 1 := Nat.exists_eq_add_one.mpr (by omega)
    have hrunning : c.runningFor m = { c.running with line := c.running.line + (n + 1), column := 0 } := by
      have hdown : m.generated.line = c.generated.line + (n + 1) := by omega
      simp [Context.runningFor, Context.running, hdown]
    rw [hn, hrunning]
    exact decodeFrom_semicolons h n rest

theorem decodeFrom_encode {s : Running} {text : List Char} {ds : List Decoded} {c : Context} {ms : List Mapping}
    (h : s.finish text = some (c.running, ds)) (hfirst : c.first = true → text = [])
    (hline : ∀ m ∈ ms, c.generated.line ≤ m.generated.line)
    (hlines : ms.Pairwise (·.generated.line ≤ ·.generated.line)) :
    decodeFrom s text (encode c ms) = some (ds ++ ms.map .ofMapping) := by
  induction ms generalizing s text ds c with
  | nil => simp [encode, decodeFrom, h]
  | cons m ms ih =>
    obtain ⟨hm, hms⟩ := List.pairwise_cons.mp hlines
    rw [encode, List.append_assoc, decodeFrom_between h hfirst (hline m (by simp)),
      decodeFrom_append _ _ fun _ => isSeparator_of_mem_segment, List.nil_append]
    have hrest := @ih _ _ _ (Context.behind m) (finish_segment c m) (fun hf => absurd hf Bool.false_ne_true) hm hms
    rw [Context.behind] at hrest
    rw [hrest]
    simp

theorem decode_encode {ms : List Mapping} (hlines : ms.Pairwise (·.generated.line ≤ ·.generated.line)) :
    decode (encode {} ms) = some (ms.map .ofMapping) :=
  @decodeFrom_encode {} [] [] {} ms rfl (fun _ => rfl) (fun _ _ => Nat.zero_le _) hlines

example : decode "AAAA,IAAK;;C".toList =
    some [⟨⟨0, 0⟩, some (0, ⟨0, 0⟩), none⟩, ⟨⟨0, 4⟩, some (0, ⟨0, 5⟩), none⟩, ⟨⟨2, 1⟩, none, none⟩] := by decide +kernel

end TreeEdit.Segment
