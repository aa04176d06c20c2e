import TreeEdit.Proofs.Tuple.Grammar

/-!
# Where a text stops being a program

A text that is not a program is at fault at its first illegal character, if it has one (`tokenize_of_illegal`). Otherwise
the fault is at the first token that cannot stand where it does. What the machine has read up to there can be continued to
a program, by closing all groups that are open (`Read.begins`). With the token at fault it cannot, as the machine reads
every program to its end (`not_begins_of_fault`). Where there is no such token, the text ends inside a group
(`fault_at_first_wrong_token`).
-/

namespace TreeEdit.Tuple

/-- The character is an ASCII digit, a parenthesis, the delimiter or white space. -/
def Legal (d c : Char) : Prop :=
  ('0' ≤ c ∧ c ≤ '9') ∨ c = '(' ∨ c = ')' ∨ c = d ∨ Text.isBlank c = true

/-- The tokens can be continued to a program, by the tokens of some text. -/
def Begins (d : Char) (kinds : List Kind) : Prop :=
  ∃ text rest tree, Spells d text rest ∧ Derives (.program tree) (kinds ++ rest)

/-! ## Illegal characters -/

theorem legal_of_digits {d : Char} {digits : List Char} (h : ∀ c ∈ digits, c.isDigit = true) :
    ∀ c ∈ digits, Legal d c :=
  fun c hc => .inl (isDigit_iff.mp (h c hc))

theorem Spells.legal {d : Char} {text : List Char} {kinds : List Kind} (h : Spells d text kinds) :
    ∀ c ∈ text, Legal d c := by
  induction h with
  | nil => exact fun c hc => (nomatch hc)
  | blank hc h ih => exact List.forall_mem_cons.mpr ⟨.inr (.inr (.inr (.inr hc))), ih⟩
  | opening h ih => exact List.forall_mem_cons.mpr ⟨.inr (.inl rfl), ih⟩
  | closing h ih => exact List.forall_mem_cons.mpr ⟨.inr (.inr (.inl rfl)), ih⟩
  | delimiter h ih => exact List.forall_mem_cons.mpr ⟨.inr (.inr (.inr (.inl rfl))), ih⟩
  | integer hne hdigits hmax h ih => exact List.forall_mem_append.mpr ⟨legal_of_digits hdigits, ih⟩

/-- The fault is the first illegal character of the text that starts at `pos`. -/
def Fault.IsFirstIllegal (d : Char) (pos : Nat) (text : List Char) (f : Fault) : Prop :=
  ∃ pre c post, text = pre ++ c :: post ∧ (∀ x ∈ pre, Legal d x) ∧ ¬ Legal d c ∧ f = .character c (pos + Text.size pre)

theorem Fault.IsFirstIllegal.after {d : Char} {pos : Nat} {front text : List Char} {f : Fault}
    (h : f.IsFirstIllegal d (pos + Text.size front) text) (hfront : ∀ x ∈ front, Legal d x) :
    f.IsFirstIllegal d pos (front ++ text) := by
  obtain ⟨pre, c, post, rfl, hpre, hc, rfl⟩ := h
  exact ⟨front ++ pre, c, post, by simp, List.forall_mem_append.mpr ⟨hfront, hpre⟩, hc, by simp [Nat.add_assoc]⟩

theorem Fault.IsFirstIllegal.cons {d c : Char} {pos : Nat} {text : List Char} {f : Fault}
    (h : f.IsFirstIllegal d (pos + c.utf8Size) text) (hc : Legal d c) : f.IsFirstIllegal d pos (c :: text) :=
  @after d pos [c] text f h (List.forall_mem_singleton.mpr hc)

theorem error_of_map_cons {t : Token} {rest : Except Fault (List Token)} {f : Fault}
    (h : rest.map (t :: ·) = .error f) : rest = .error f := by
  cases rest with
  | error g =>
    cases h
    rfl
  | ok ts => cases h

theorem isFirstIllegal_of_tokenizeAt {d : Char} {pos : Nat} {text : List Char} {f : Fault}
    (h : tokenizeAt d pos text = .error f) : f.IsFirstIllegal d pos text := by
  fun_induction tokenizeAt d pos text with
  | case1 pos => cases h
  | case2 pos c cs hc digits stop =>
    rename_i ih
    have hdigits : ∀ c ∈ digits, c.isDigit = true :=
      List.forall_mem_cons.mpr ⟨hc, List.all_eq_true.mp List.all_takeWhile⟩
    have hsplit : c :: cs = digits ++ cs.dropWhile Char.isDigit := by
      rw [List.cons_append, List.takeWhile_append_dropWhile]
    have hrest := ih (error_of_map_cons h)
    unfold stop at hrest
    rw [← size_of_digits hdigits] at hrest
    rw [hsplit]
    exact hrest.after (legal_of_digits hdigits)
  | case3 pos c cs hdigit stop hc =>
    rename_i ih
    exact (ih (error_of_map_cons h)).cons (.inr (.inl (beq_iff_eq.mp hc)))
  | case4 pos c cs hdigit stop hopening hc =>
    rename_i ih
    exact (ih (error_of_map_cons h)).cons (.inr (.inr (.inl (beq_iff_eq.mp hc))))
  | case5 pos c cs hdigit stop hopening hclosing hc =>
    rename_i ih
    exact (ih (error_of_map_cons h)).cons (.inr (.inr (.inr (.inl (beq_iff_eq.mp hc)))))
  | case6 pos c cs hdigit stop hopening hclosing hother hc =>
    rename_i ih
    exact (ih h).cons (.inr (.inr (.inr (.inr hc))))
  | case7 pos c cs hdigit hopening hclosing hother hblank =>
    cases h
    refine ⟨[], c, cs, rfl, by simp, ?_, rfl⟩
    unfold Legal
    rw [← isDigit_iff]
    simp_all

theorem first_unique {P : Char → Prop} {pre pre' post post' : List Char} {c c' : Char}
    (h : pre ++ c :: post = pre' ++ c' :: post') (hpre : ∀ x ∈ pre, P x) (hc : ¬ P c) (hpre' : ∀ x ∈ pre', P x)
    (hc' : ¬ P c') : pre = pre' ∧ c = c' := by
  rcases List.append_eq_append_iff.mp h with ⟨mid, rfl, hmid⟩ | ⟨mid, rfl, hmid⟩
  · cases mid with
    | nil => exact ⟨by simp, (List.cons.inj hmid).1⟩
    | cons x mid =>
      obtain ⟨rfl, -⟩ := List.cons.inj hmid
      exact absurd (hpre' c (by simp)) hc
  · cases mid with
    | nil => exact ⟨by simp, (List.cons.inj hmid).1.symm⟩
    | cons x mid =>
      obtain ⟨rfl, -⟩ := List.cons.inj hmid
      exact absurd (hpre c' (by simp)) hc'

theorem tokenize_of_illegal {d c : Char} {pre post : List Char} (hpre : ∀ x ∈ pre, Legal d x) (hc : ¬ Legal d c) :
    tokenize d (pre ++ c :: post) = .error (.character c (Text.size pre)) := by
  cases htokens : tokenize d (pre ++ c :: post) with
  | ok tokens => exact absurd ((places_of_tokenizeAt htokens).spells.legal c (by simp)) hc
  | error f =>
    obtain ⟨pre', c', post', heq, hpre', hc', rfl⟩ := isFirstIllegal_of_tokenizeAt htokens
    obtain ⟨rfl, rfl⟩ := first_unique heq hpre hc hpre' hc'
    rw [Nat.zero_add]

/-! ## What has been read can be continued -/

theorem spells_closings (d : Char) (n : Nat) : Spells d (List.replicate n ')') (List.replicate n .closing) := by
  induction n with
  | zero => exact .nil
  | succ n ih =>
    rw [List.replicate_succ, List.replicate_succ]
    exact .closing ih

theorem Open.closed {groups : List Tree} {levels : List Level} {kinds : List Kind} (h : Open groups levels kinds)
    {u : Tree} {kinds' : List Kind} (hu : Derives (.group u) kinds') :
    ∃ ts, Derives (.groups ts) (kinds ++ (kinds' ++ List.replicate levels.length .closing)) := by
  induction h generalizing u kinds' with
  | nil h => exact ⟨_, by simpa using h.more hu⟩
  | cons h hdue ih =>
    -- the group is an item of the innermost group, which is closed next
    obtain ⟨ts, hts⟩ := ih (hdue.item hu.nested).filled
    refine ⟨ts, ?_⟩
    simpa [List.replicate_succ] using hts

/-- **What has been read** is the beginning of a program. -/
theorem Read.begins {s : State} {kinds : List Kind} (h : Read s kinds) (d : Char) : Begins d kinds := by
  cases h with
  | @due levels due groups kinds h hdue =>
    obtain ⟨ts, hts⟩ := h.closed .empty
    exact ⟨_, _, _, .opening (.closing (spells_closings d levels.length)), hts.program⟩
  | @full l ls groups kinds inner h hitems =>
    obtain ⟨ts, hts⟩ := h.closed hitems.filled
    refine ⟨_, _, programTree ts, .closing (spells_closings d ls.length), ?_⟩
    simpa using hts.program

/-! ## The token at fault -/

theorem exists_step_of_error {s : State} {tokens : List Token} {f : Fault}
    (h : tokens.foldlM State.step s = .error f) :
    ∃ front t back s', tokens = front ++ t :: back ∧ front.foldlM State.step s = .ok s' ∧ s'.step t = .error f := by
  induction tokens generalizing s with
  | nil => cases h
  | cons t tokens ih =>
    cases hstep : s.step t with
    | error g =>
      rw [List.foldlM_cons, hstep] at h
      cases h
      exact ⟨[], t, tokens, s, rfl, rfl, hstep⟩
    | ok s₁ =>
      rw [foldlM_cons_of_ok hstep] at h
      obtain ⟨front, u, back, s', rfl, hfront, hfault⟩ := ih h
      exact ⟨t :: front, u, back, s', rfl, by rw [foldlM_cons_of_ok hstep, hfront], hfault⟩

theorem offset_of_integer {digits : List Char} {span : Span} {f : Fault} (h : integer digits span = .error f) :
    f.toParseError.offset = some span.start := by
  simp only [integer] at h
  split at h
  · cases h
  · cases h
    rfl

theorem offset_of_step {s : State} {t : Token} {f : Fault} (h : s.step t = .error f) :
    f.toParseError.offset = some t.span.start := by
  unfold State.step at h
  split at h
  · split at h <;> cases h <;> rfl
  · split at h
    · rename_i digits _ _
      cases hint : integer digits t.span with
      | error g =>
        rw [hint] at h
        cases h
        exact offset_of_integer hint
      | ok u =>
        rw [hint] at h
        cases h
    · cases h
    · cases h
    · split at h <;> cases h
      rfl
    · cases h
      rfl

theorem not_begins_of_fault {d : Char} {front : List Token} {t : Token} {s : State} {f : Fault}
    (hfront : front.foldlM State.step {} = .ok s) (hfault : s.step t = .error f) :
    ¬ Begins d ((front ++ [t]).map (·.kind)) := by
  rintro ⟨text, rest, tree, -, hderives⟩
  let more : List Token := rest.map fun kind => ⟨kind, .empty 0⟩
  have hkinds : (front ++ t :: more).map (·.kind) = (front ++ [t]).map (·.kind) ++ rest := by
    simp [more, Function.comp_def]
  obtain ⟨u, -, hforms⟩ := hderives.formedBy hkinds
  have hread : parseTokens 0 (front ++ t :: more) = .ok u := hforms.readFrom 0
  unfold parseTokens at hread
  rw [foldlM_append_of_ok hfront, List.foldlM_cons, hfault] at hread
  cases hread

theorem not_derives_of_parseTokens {len : Nat} {tokens : List Token} {f : Fault} (h : parseTokens len tokens = .error f) :
    ¬ ∃ tree, Derives (.program tree) (tokens.map (·.kind)) := by
  rintro ⟨tree, hderives⟩
  obtain ⟨u, -, hparse⟩ := (@parseTokens_iff len tokens tree).mpr hderives
  rw [h] at hparse
  cases hparse

/-- The tokens are at fault at an offset: where one of them starts that cannot be there, or at the end, where more of
them are missing. -/
def FaultAt (d : Char) (len : Nat) (tokens : List Token) (offset : Nat) : Prop :=
  (∃ front t back, tokens = front ++ t :: back ∧ offset = t.span.start ∧
    Begins d (front.map (·.kind)) ∧ ¬ Begins d ((front ++ [t]).map (·.kind))) ∨
  (offset = len ∧ Begins d (tokens.map (·.kind)) ∧ ¬ ∃ tree, Derives (.program tree) (tokens.map (·.kind)))

theorem read_of_run {tokens : List Token} {s : State} (h : tokens.foldlM State.step {} = .ok s) :
    Read s (tokens.map (·.kind)) := by
  have hstart : Read ⟨[], false, []⟩ [] := .due (.nil .none) (.inl rfl)
  exact hstart.run h

/-- **The machine stops** at the first token that cannot be there. -/
theorem faultAt_of_parseTokens {len : Nat} {tokens : List Token} {f : Fault} (h : parseTokens len tokens = .error f)
    (d : Char) : ∃ offset, f.toParseError.offset = some offset ∧ FaultAt d len tokens offset := by
  cases hrun : tokens.foldlM State.step {} with
  | error g =>
    obtain rfl : g = f := by
      rw [parseTokens, hrun] at h
      cases h
      rfl
    obtain ⟨front, t, back, s, rfl, hfront, hfault⟩ := exists_step_of_error hrun
    exact ⟨t.span.start, offset_of_step hfault, .inl ⟨front, t, back, rfl, rfl, (read_of_run hfront).begins d,
      not_begins_of_fault hfront hfault⟩⟩
  | ok s =>
    have hend : f = .unclosed len := by
      rw [parseTokens, hrun] at h
      obtain ⟨levels, due, groups⟩ := s
      cases levels with
      | nil => cases h
      | cons l ls =>
        cases h
        rfl
    subst hend
    exact ⟨len, rfl, .inr ⟨rfl, (read_of_run hrun).begins d, not_derives_of_parseTokens h⟩⟩

/-! ## The parser -/

theorem parse_eq_error {d : Char} {code : String} {e : ParseError} (hd : Separates d) (h : parse ⟨d⟩ code = .error e) :
    ∃ f : Fault, e = f.toParseError ∧ (tokenize d code.toList = .error f ∨
      ∃ tokens, tokenize d code.toList = .ok tokens ∧ parseTokens (Text.size code.toList) tokens = .error f) := by
  unfold parse parseText at h
  rw [if_pos (isDelimiter_iff.mpr hd)] at h
  cases htokens : tokenize d code.toList with
  | error f =>
    rw [htokens] at h
    cases h
    exact ⟨f, rfl, .inl rfl⟩
  | ok tokens =>
    rw [htokens] at h
    cases hparse : parseTokens (Text.size code.toList) tokens with
    | error f =>
      simp only [bind, Except.bind, hparse, Except.mapError] at h
      cases h
      exact ⟨f, rfl, .inr ⟨tokens, rfl, hparse⟩⟩
    | ok tree =>
      simp only [bind, Except.bind, hparse, Except.mapError] at h
      cases h

/-- **Errors point at the first wrong token.** Let a text be no program, with a delimiter that can be told from all else.
If it has illegal characters, the error is at the first of them. Otherwise it is where a token starts such that the tokens
in front of it can be continued to a program, but not with the token; or it is at the end of the text, which can be
continued to a program but is none. -/
theorem fault_at_first_wrong_token {d : Char} {code : String} {e : ParseError} (hd : Separates d)
    (h : parse ⟨d⟩ code = .error e) :
    (∀ pre c post, code.toList = pre ++ c :: post → (∀ x ∈ pre, Legal d x) → ¬ Legal d c →
      e.offset = some (Text.size pre)) ∧
    ((∀ c ∈ code.toList, Legal d c) → ∃ tokens offset, Places d 0 code.toList tokens ∧ e.offset = some offset ∧
      FaultAt d (Text.size code.toList) tokens offset) := by
  obtain ⟨f, rfl, hfault⟩ := parse_eq_error hd h
  constructor
  · intro pre c post htext hpre hc
    have hillegal : tokenize d code.toList = .error (.character c (Text.size pre)) :=
      htext ▸ tokenize_of_illegal hpre hc
    rcases hfault with hfault | ⟨tokens, htokens, -⟩
    · cases hillegal.symm.trans hfault
      rfl
    · cases hillegal.symm.trans htokens
  · intro hlegal
    rcases hfault with hfault | ⟨tokens, htokens, hparse⟩
    · obtain ⟨pre, c, post, htext, -, hc, -⟩ := isFirstIllegal_of_tokenizeAt hfault
      exact absurd (hlegal c (by simp [htext])) hc
    · obtain ⟨offset, hoffset, hat⟩ := faultAt_of_parseTokens hparse d
      exact ⟨tokens, offset, places_of_tokenizeAt htokens, hoffset, hat⟩

/-- Behind a delimiter of two bytes, a group is closed where an item is due. -/
theorem fault_at_first_wrong_token_wide_delimiter :
    let code := "(1 · )\n"
    let e : ParseError := .invalidSource "Unexpected closing paren at offset 6" (some 6)
    Separates '·' ∧ parse ⟨'·'⟩ code = .error e ∧ (∀ c ∈ code.toList, Legal '·' c) ∧
      ∃ tokens offset, Places '·' 0 code.toList tokens ∧ e.offset = some offset ∧
        FaultAt '·' (Text.size code.toList) tokens offset := by
  intro code e
  have hd : Separates '·' := isDelimiter_iff.mp (by decide)
  have htokens : tokenize '·' code.toList = .ok [⟨.opening, ⟨0, 1⟩⟩, ⟨.integer ['1'], ⟨1, 2⟩⟩, ⟨.delimiter, ⟨3, 5⟩⟩,
      ⟨.closing, ⟨6, 7⟩⟩] := by
    simp [code, tokenize, tokenizeAt, Except.map, Char.utf8Size, Text.isBlank, Text.blankRanges]
  have hparse : parse ⟨'·'⟩ code = .error e := by
    unfold parse parseText
    rw [if_pos (isDelimiter_iff.mpr hd), htokens]
    rfl
  have hlegal : ∀ c ∈ code.toList, Legal '·' c := (places_of_tokenizeAt htokens).spells.legal
  exact ⟨hd, hparse, hlegal, (fault_at_first_wrong_token hd hparse).2 hlegal⟩

end TreeEdit.Tuple
