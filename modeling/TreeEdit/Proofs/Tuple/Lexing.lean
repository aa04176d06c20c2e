import TreeEdit.Tuple.Token

/-!
# Texts and their tokens

`Spells` says which tokens a text consists of, in whatever way they are found: runs of digits that are as long as
they can be, parentheses and delimiters, with white space anywhere between them. `Places` says the same of tokens
with their spans. Tokens that are found are in their places (`places_of_tokenizeAt`), and for a character that can
separate items, tokens in their places are found (`Places.tokenizeAt`). So `tokenize` gives just the tokens that a text
consists of (`spells_iff`), and there is at most one list of them (`Spells.unique`).
-/

namespace TreeEdit.Tuple

/-- The text consists of tokens of the given kinds, with white space before, between and after them. -/
inductive Spells (d : Char) : List Char → List Kind → Prop
  | nil : Spells d [] []
  | blank {c text kinds} (hc : Text.isBlank c = true) (h : Spells d text kinds) : Spells d (c :: text) kinds
  | opening {text kinds} (h : Spells d text kinds) : Spells d ('(' :: text) (.opening :: kinds)
  | closing {text kinds} (h : Spells d text kinds) : Spells d (')' :: text) (.closing :: kinds)
  | delimiter {text kinds} (h : Spells d text kinds) : Spells d (d :: text) (.delimiter :: kinds)
  | integer {digits text kinds} (hne : digits ≠ []) (hdigits : ∀ c ∈ digits, c.isDigit = true)
    (hmax : ∀ c ∈ text.head?, c.isDigit = false) (h : Spells d text kinds) :
    Spells d (digits ++ text) (.integer digits :: kinds)

def Kind.word (d : Char) : Kind → List Char
  | .integer digits => digits
  | .opening => ['(']
  | .closing => [')']
  | .delimiter => [d]

/-- Can a token of the kind be told where the text follows it? Digits can be when no digit follows. -/
def Kind.EndsBefore (text : List Char) : Kind → Prop
  | .integer digits =>
    digits ≠ [] ∧ (∀ c ∈ digits, c.isDigit = true) ∧ ∀ c ∈ text.head?, c.isDigit = false
  | _ => True

/-- The text at an offset consists of these tokens, with white space before, between and after them, and each token
has the span where it is written. -/
inductive Places (d : Char) : Nat → List Char → List Token → Prop
  | nil {pos} : Places d pos [] []
  | blank {pos c text tokens} (hc : Text.isBlank c = true) (h : Places d (pos + c.utf8Size) text tokens) :
    Places d pos (c :: text) tokens
  | token {pos text tokens} (kind : Kind) (hkind : kind.EndsBefore text)
    (h : Places d (pos + Text.size (kind.word d)) text tokens) :
    Places d pos (kind.word d ++ text) (⟨kind, ⟨pos, pos + Text.size (kind.word d)⟩⟩ :: tokens)

/-- The character is no ASCII digit, no parenthesis and no white space. -/
def Separates (d : Char) : Prop :=
  ¬ ('0' ≤ d ∧ d ≤ '9') ∧ d ≠ '(' ∧ d ≠ ')' ∧ Text.isBlank d = false

theorem isDigit_iff {c : Char} : c.isDigit = true ↔ '0' ≤ c ∧ c ≤ '9' := by
  rw [Char.isDigit, Bool.and_eq_true, decide_eq_true_eq, decide_eq_true_eq]
  exact Iff.rfl

theorem isDelimiter_iff {d : Char} : isDelimiter d = true ↔ Separates d := by
  unfold isDelimiter Separates
  rw [← isDigit_iff]
  simp [and_assoc]

theorem isDigit_of_isBlank {c : Char} (h : Text.isBlank c = true) : c.isDigit = false := by
  rw [Bool.eq_false_iff]
  intro hdigit
  obtain ⟨hlow, hhigh⟩ := isDigit_iff.mp hdigit
  have hlow' : 48 ≤ c.toNat := hlow
  have hhigh' : c.toNat ≤ 57 := hhigh
  simp [Text.isBlank, Text.blankRanges] at h
  omega

/-! ## The tokens that are found -/

theorem takeWhile_digits {digits text : List Char} (hdigits : ∀ c ∈ digits, c.isDigit = true)
    (hmax : ∀ c ∈ text.head?, c.isDigit = false) :
    (digits ++ text).takeWhile Char.isDigit = digits ∧ (digits ++ text).dropWhile Char.isDigit = text := by
  rw [List.takeWhile_append_of_pos hdigits, List.dropWhile_append_of_pos hdigits]
  cases text with
  | nil => simp
  | cons c text =>
    have hc : c.isDigit = false := hmax c rfl
    simp [hc]

theorem map_cons_eq_ok {t : Token} {rest : Except Fault (List Token)} {tokens : List Token} :
    rest.map (t :: ·) = .ok tokens ↔ ∃ ts, rest = .ok ts ∧ tokens = t :: ts := by
  cases rest with
  | error e => simp [Except.map]
  | ok ts => simp [Except.map, eq_comm]

theorem utf8Size_of_isDigit {c : Char} (h : c.isDigit = true) : c.utf8Size = 1 := by
  obtain ⟨-, hhigh⟩ := isDigit_iff.mp h
  have hhigh' : c.val ≤ 57 := hhigh
  rw [Char.utf8Size_eq_one_iff]
  exact UInt32.le_trans hhigh' (by decide)

theorem size_of_digits {digits : List Char} (h : ∀ c ∈ digits, c.isDigit = true) :
    Text.size digits = digits.length := by
  induction digits with
  | nil => rfl
  | cons c digits ih =>
    obtain ⟨hc, hdigits⟩ := List.forall_mem_cons.mp h
    rw [Text.size_cons, utf8Size_of_isDigit hc, ih hdigits, List.length_cons, Nat.add_comm]

theorem Places.tokenizeAt {d : Char} (hd : Separates d) {pos : Nat} {text : List Char} {tokens : List Token}
    (h : Places d pos text tokens) : tokenizeAt d pos text = .ok tokens := by
  obtain ⟨hdigit, hopening, hclosing, hblank⟩ := hd
  rw [← isDigit_iff] at hdigit
  induction h with
  | nil => rw [Tuple.tokenizeAt]
  | @blank pos c text tokens hc h ih =>
    have hother : c ≠ '(' ∧ c ≠ ')' ∧ c ≠ d := by
      refine ⟨?_, ?_, ?_⟩ <;> rintro rfl
      · cases hc
      · cases hc
      · rw [hblank] at hc
        cases hc
    rw [Tuple.tokenizeAt]
    simp only [isDigit_of_isBlank hc, hother, hc, beq_iff_eq, Bool.false_eq_true, if_false, if_true]
    exact ih
  | @token pos text tokens kind hkind h ih =>
    cases kind with
    | opening =>
      rw [Kind.word, List.singleton_append, Tuple.tokenizeAt]
      exact map_cons_eq_ok.mpr ⟨tokens, ih, rfl⟩
    | closing =>
      rw [Kind.word, List.singleton_append, Tuple.tokenizeAt]
      exact map_cons_eq_ok.mpr ⟨tokens, ih, rfl⟩
    | delimiter =>
      rw [Kind.word, List.singleton_append, Tuple.tokenizeAt]
      simp only [hdigit, hopening, hclosing, beq_iff_eq, if_false, if_true]
      exact map_cons_eq_ok.mpr ⟨tokens, ih, rfl⟩
    | integer digits =>
      obtain ⟨hne, hdigits, hmax⟩ := hkind
      have hsize := size_of_digits hdigits
      simp only [Kind.word, hsize] at ih ⊢
      cases digits with
      | nil => exact absurd rfl hne
      | cons c digits =>
        obtain ⟨hc, hdigits⟩ := List.forall_mem_cons.mp hdigits
        obtain ⟨htake, hdrop⟩ := takeWhile_digits hdigits hmax
        rw [List.cons_append, Tuple.tokenizeAt]
        simp only [hc, htake, hdrop, if_true]
        exact map_cons_eq_ok.mpr ⟨tokens, ih, rfl⟩

theorem places_of_tokenizeAt {d : Char} {pos : Nat} {text : List Char} {tokens : List Token}
    (h : tokenizeAt d pos text = .ok tokens) : Places d pos text tokens := by
  fun_induction tokenizeAt d pos text generalizing tokens with
  | case1 pos =>
    cases h
    exact .nil
  | case2 pos c cs hc digits stop =>
    rename_i ih
    obtain ⟨ts, hts, rfl⟩ := map_cons_eq_ok.mp h
    have hsplit : c :: cs = digits ++ cs.dropWhile Char.isDigit := by
      rw [List.cons_append, List.takeWhile_append_dropWhile]
    have hdigits : ∀ c ∈ digits, c.isDigit = true :=
      List.forall_mem_cons.mpr ⟨hc, List.all_eq_true.mp List.all_takeWhile⟩
    have hstop : stop = pos + Text.size digits := by rw [size_of_digits hdigits]
    rw [hsplit]
    rw [hstop] at ih ⊢
    refine Places.token (.integer digits) ⟨List.cons_ne_nil _ _, hdigits, ?_⟩ (ih (hstop ▸ hts))
    intro x hx
    have hfirst := List.head?_dropWhile_not Char.isDigit cs
    rw [Option.mem_def.mp hx] at hfirst
    exact hfirst
  | case3 pos c cs hdigit stop hc =>
    rename_i ih
    obtain ⟨ts, hts, rfl⟩ := map_cons_eq_ok.mp h
    obtain rfl := beq_iff_eq.mp hc
    exact .token .opening trivial (ih hts)
  | case4 pos c cs hdigit stop hopening hc =>
    rename_i ih
    obtain ⟨ts, hts, rfl⟩ := map_cons_eq_ok.mp h
    obtain rfl := beq_iff_eq.mp hc
    exact .token .closing trivial (ih hts)
  | case5 pos c cs hdigit stop hopening hclosing hc =>
    rename_i ih
    obtain ⟨ts, hts, rfl⟩ := map_cons_eq_ok.mp h
    obtain rfl := beq_iff_eq.mp hc
    exact .token .delimiter trivial (ih hts)
  | case6 pos c cs hdigit stop hopening hclosing hother hc =>
    rename_i ih
    exact .blank hc (ih h)
  | case7 => cases h

theorem Places.spells {d : Char} {pos : Nat} {text : List Char} {tokens : List Token}
    (h : Places d pos text tokens) : Spells d text (tokens.map (·.kind)) := by
  induction h with
  | nil => exact .nil
  | blank hc h ih => exact .blank hc ih
  | token kind hkind h ih =>
    cases kind with
    | integer digits => exact .integer hkind.1 hkind.2.1 hkind.2.2 ih
    | opening => exact .opening ih
    | closing => exact .closing ih
    | delimiter => exact .delimiter ih

theorem Spells.places {d : Char} {text : List Char} {kinds : List Kind} (h : Spells d text kinds) (pos : Nat) :
    ∃ tokens, Places d pos text tokens ∧ tokens.map (·.kind) = kinds := by
  have htoken : ∀ {pos text kinds} (kind : Kind), kind.EndsBefore text →
      (∃ tokens, Places d (pos + Text.size (kind.word d)) text tokens ∧ tokens.map (·.kind) = kinds) →
      ∃ tokens, Places d pos (kind.word d ++ text) tokens ∧ tokens.map (·.kind) = kind :: kinds := by
    rintro pos text kinds kind hkind ⟨tokens, hplaces, rfl⟩
    exact ⟨_, .token kind hkind hplaces, rfl⟩
  induction h generalizing pos with
  | nil => exact ⟨[], .nil, rfl⟩
  | blank hc h ih =>
    obtain ⟨tokens, hplaces, hkinds⟩ := ih _
    exact ⟨tokens, .blank hc hplaces, hkinds⟩
  | opening h ih => exact htoken .opening trivial (ih _)
  | closing h ih => exact htoken .closing trivial (ih _)
  | delimiter h ih => exact htoken .delimiter trivial (ih _)
  | integer hne hdigits hmax h ih => exact htoken (.integer _) ⟨hne, hdigits, hmax⟩ (ih _)

/-- **The tokens of a text** are those that are found. -/
theorem spells_iff {d : Char} (hd : Separates d) {text : List Char} {kinds : List Kind} :
    Spells d text kinds ↔ ∃ tokens, tokenize d text = .ok tokens ∧ tokens.map (·.kind) = kinds := by
  constructor
  · intro h
    obtain ⟨tokens, hplaces, hkinds⟩ := h.places 0
    exact ⟨tokens, hplaces.tokenizeAt hd, hkinds⟩
  · rintro ⟨tokens, htokens, rfl⟩
    exact (places_of_tokenizeAt htokens).spells

theorem Spells.unique {d : Char} (hd : Separates d) {text : List Char} {kinds kinds' : List Kind}
    (h : Spells d text kinds) (h' : Spells d text kinds') : kinds' = kinds := by
  obtain ⟨tokens, htokens, rfl⟩ := (spells_iff hd).mp h
  obtain ⟨tokens', htokens', rfl⟩ := (spells_iff hd).mp h'
  cases htokens.symm.trans htokens'
  rfl

end TreeEdit.Tuple
