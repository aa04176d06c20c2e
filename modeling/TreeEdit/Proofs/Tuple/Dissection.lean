import TreeEdit.Proofs.Tuple.FirstFault
import TreeEdit.Proofs.Tuple.Layout

/-!
# Tokens and the gaps between them

`Dissects` says what tokens are to a text, by their spans alone. Each is a range with some bytes and has its word there
(`Token.IsIn`), and an integer is a run of digits that no other run of digits reaches beyond (`MaximalRun`). The tokens are
one behind the other, nothing but white space is left before, between and behind them, and the text is the gaps and the
words by turns.

Tokens in their places dissect the text (`Places.dissects`), and tokens that dissect it are in their places
(`Dissects.places`). So the tokens that `tokenize` finds do, no others do, and some are found just when all characters are
legal (`tokenize_dissects`).
-/

namespace TreeEdit

/-- What some spans leave out from an offset to the stop: the gaps before, between and behind them. -/
def Span.gaps (pos stop : Nat) : List Span → List Span
  | [] => [⟨pos, stop⟩]
  | s :: spans => ⟨pos, s.start⟩ :: gaps s.stop stop spans

namespace Text

def cut (text : List Char) (span : Span) : List Char :=
  between text span.start span.stop

/-- Gaps and words by turns, from the first gap to the last. -/
def weave : List (List Char) → List (List Char) → List Char
  | gap :: gaps, word :: words => gap ++ (word ++ weave gaps words)
  | gaps, _ => gaps.flatten

theorem cut_split (pre mid post : List Char) : cut (pre ++ (mid ++ post)) ⟨size pre, size pre + size mid⟩ = mid :=
  between_size_append pre mid post

theorem size_eq_zero_iff {t : List Char} : size t = 0 ↔ t = [] := by
  cases t with
  | nil => simp
  | cons c t =>
    have := c.utf8Size_pos
    simp only [size_cons, reduceCtorEq, iff_false]
    omega

end Text

theorem Arena.exists_split {text : List Char} {span : Span} (h : validSpan text span = true) :
    ∃ pre mid post, text = pre ++ (mid ++ post) ∧ span = ⟨Text.size pre, Text.size pre + Text.size mid⟩ := by
  obtain ⟨hle, -, hstart, hstop⟩ := validSpan_iff.mp h
  obtain ⟨pre, mid, post, htext, hpre, hmid⟩ := Text.exists_cut hstart hstop hle
  exact ⟨pre, mid, post, htext, by rw [hmid, hpre]⟩

namespace Tuple

open Text (size cut weave)

/-- The span is a range of the text with nothing but ASCII digits in it. -/
structure DigitRun (text : List Char) (span : Span) : Prop where
  range : Arena.validSpan text span = true
  digits : ∀ c ∈ cut text span, '0' ≤ c ∧ c ≤ '9'

/-- No other run of digits has this one in it. -/
structure MaximalRun (text : List Char) (span : Span) : Prop extends DigitRun text span where
  maximal : ∀ wider, DigitRun text wider → wider.start ≤ span.start → span.stop ≤ wider.stop → wider = span

/-- The span of the token is a range with its word in it; for an integer, it has the whole run of digits. -/
structure Token.IsIn (d : Char) (text : List Char) (t : Token) : Prop where
  filled : t.span.start < t.span.stop
  range : Arena.validSpan text t.span = true
  word : cut text t.span = t.kind.word d
  run : ∀ digits, t.kind = .integer digits → MaximalRun text t.span

/-- The tokens and the white space between them are all of the text. -/
structure Dissects (d : Char) (text : List Char) (tokens : List Token) : Prop where
  isIn : ∀ t ∈ tokens, t.IsIn d text
  apart : tokens.Pairwise fun t u => t.span.stop ≤ u.span.start
  blank : ∀ g ∈ Span.gaps 0 (size text) (tokens.map (·.span)), Blanks (cut text g)
  whole : text = weave ((Span.gaps 0 (size text) (tokens.map (·.span))).map (cut text)) (tokens.map (·.kind.word d))

variable {d : Char} {pos : Nat} {text pre rest post digits : List Char} {tokens : List Token} {t : Token}

/-! ## Runs of digits -/

theorem digitRun_split (hdigits : ∀ c ∈ digits, c.isDigit = true) :
    DigitRun (pre ++ (digits ++ post)) ⟨size pre, size pre + size digits⟩ where
  range := Arena.validSpan_size pre digits post
  digits c hc := by
    rw [Text.cut_split] at hc
    exact isDigit_iff.mp (hdigits c hc)

theorem DigitRun.exists_around {wider : Span} (h : DigitRun (pre ++ (digits ++ post)) wider)
    (hstart : wider.start ≤ size pre) (hstop : size pre + size digits ≤ wider.stop) :
    ∃ front left right back, pre = front ++ left ∧ post = right ++ back ∧ (∀ c ∈ left ++ right, c.isDigit = true) ∧
      wider = ⟨size front, size pre + size digits + size right⟩ := by
  obtain ⟨front, mid, back, heq, rfl⟩ := Arena.exists_split h.range
  obtain ⟨left, rfl, hmid⟩ := Text.append_eq_append_of_size_le heq.symm hstart
  have hle : size (left ++ digits) ≤ size mid := by
    simp only [Text.size_append] at hstop ⊢
    omega
  obtain ⟨right, rfl, rfl⟩ := Text.append_eq_append_of_size_le ((List.append_assoc _ _ _).trans hmid.symm) hle
  refine ⟨front, left, right, back, rfl, rfl, fun c hc => ?_, ?_⟩
  · have hdigit := h.digits c
    rw [heq, Text.cut_split] at hdigit
    refine isDigit_iff.mpr (hdigit ?_)
    simp only [List.mem_append] at hc ⊢
    tauto
  · simp [Nat.add_assoc]

theorem MaximalRun.eq_nil {front left right back : List Char}
    (h : MaximalRun (front ++ left ++ (digits ++ (right ++ back))) ⟨size (front ++ left), size (front ++ left) + size digits⟩)
    (hdigits : ∀ c ∈ digits, c.isDigit = true) (hleft : ∀ c ∈ left, c.isDigit = true)
    (hright : ∀ c ∈ right, c.isDigit = true) : left = [] ∧ right = [] := by
  have hrun : DigitRun (front ++ left ++ (digits ++ (right ++ back)))
      ⟨size front, size front + size (left ++ (digits ++ right))⟩ := by
    rw [show front ++ left ++ (digits ++ (right ++ back)) = front ++ (left ++ (digits ++ right) ++ back) by simp]
    exact digitRun_split (List.forall_mem_append.mpr ⟨hleft, List.forall_mem_append.mpr ⟨hdigits, hright⟩⟩)
  have hsame := h.maximal _ hrun (by simp) (by simp only [Text.size_append]; omega)
  simp only [Text.size_append, Span.mk.injEq] at hsame
  exact ⟨Text.size_eq_zero_iff.mp (by omega), Text.size_eq_zero_iff.mp (by omega)⟩

theorem maximal_iff (hdigits : ∀ c ∈ digits, c.isDigit = true) :
    MaximalRun (pre ++ (digits ++ post)) ⟨size pre, size pre + size digits⟩ ↔
      (∀ c ∈ pre.getLast?, c.isDigit = false) ∧ ∀ c ∈ post.head?, c.isDigit = false := by
  constructor
  · intro h
    refine ⟨fun c hc => ?_, fun c hc => ?_⟩ <;> rw [Bool.eq_false_iff] <;> intro hdigit
    · obtain ⟨front, rfl⟩ := List.getLast?_eq_some_iff.mp hc
      have hnone := (@MaximalRun.eq_nil digits front [c] [] post h hdigits (by simpa using hdigit) (by simp)).1
      cases hnone
    · obtain ⟨back, rfl⟩ := List.head?_eq_some_iff.mp hc
      rw [← List.append_nil pre] at h
      have hnone := (@MaximalRun.eq_nil digits pre [] [c] back h hdigits (by simp) (by simpa using hdigit)).2
      cases hnone
  · rintro ⟨hpre, hpost⟩
    refine ⟨digitRun_split hdigits, fun wider hwider hstart hstop => ?_⟩
    obtain ⟨front, left, right, back, rfl, rfl, hmore, rfl⟩ := hwider.exists_around hstart hstop
    have hleft : left = [] := by
      rcases List.eq_nil_or_concat left with hnil | ⟨left', c, rfl⟩
      · exact hnil
      · have := hpre c (by simp)
        rw [hmore c (by simp)] at this
        cases this
    have hright : right = [] := by
      cases right with
      | nil => rfl
      | cons c right =>
        have := hpost c rfl
        rw [hmore c (by simp)] at this
        cases this
    simp [hleft, hright]

/-! ## One token -/

/-- Can a token of the kind stand between the two texts? Digits can when there is no digit next to them. -/
def Kind.Fits (front back : List Char) : Kind → Prop
  | .integer digits =>
    (digits ≠ [] ∧ ∀ c ∈ digits, c.isDigit = true) ∧
      (∀ c ∈ front.getLast?, c.isDigit = false) ∧ ∀ c ∈ back.head?, c.isDigit = false
  | _ => True

theorem Kind.Fits.word_ne_nil {kind : Kind} (h : kind.Fits pre post) : kind.word d ≠ [] := by
  cases kind with
  | integer digits => exact h.1.1
  | opening => exact List.cons_ne_nil _ _
  | closing => exact List.cons_ne_nil _ _
  | delimiter => exact List.cons_ne_nil _ _

theorem Kind.Fits.endsBefore {kind : Kind} (h : kind.Fits pre post) : kind.EndsBefore post := by
  cases kind with
  | integer digits => exact ⟨h.1.1, h.1.2, h.2.2⟩
  | opening => trivial
  | closing => trivial
  | delimiter => trivial

theorem Token.isIn_iff : t.IsIn d text ↔ ∃ front back, text = front ++ (t.kind.word d ++ back) ∧
    t.span = ⟨size front, size front + size (t.kind.word d)⟩ ∧ t.kind.Fits front back := by
  constructor
  · rintro ⟨hfilled, hrange, hword, hrun⟩
    obtain ⟨front, mid, back, rfl, hspan⟩ := Arena.exists_split hrange
    rw [hspan, Text.cut_split] at hword
    subst hword
    refine ⟨front, back, rfl, hspan, ?_⟩
    rw [hspan] at hfilled hrun
    cases hkind : t.kind with
    | integer digits =>
      have hmaximal := hrun digits hkind
      rw [hkind] at hmaximal hfilled
      have hdigits : ∀ c ∈ digits, c.isDigit = true := by
        intro c hc
        refine isDigit_iff.mpr (hmaximal.digits c ?_)
        rw [Text.cut_split]
        exact hc
      refine ⟨⟨?_, hdigits⟩, (maximal_iff hdigits).mp hmaximal⟩
      rintro rfl
      exact Nat.lt_irrefl _ hfilled
    | opening => trivial
    | closing => trivial
    | delimiter => trivial
  · rintro ⟨front, back, rfl, hspan, hfits⟩
    constructor
    · rw [hspan]
      exact Nat.lt_add_of_pos_right (Nat.pos_of_ne_zero (mt Text.size_eq_zero_iff.mp hfits.word_ne_nil))
    · rw [hspan]
      exact Arena.validSpan_size _ _ _
    · rw [hspan, Text.cut_split]
    · intro digits hkind
      rw [hkind] at hfits
      rw [hspan, hkind]
      exact (maximal_iff hfits.1.2).mpr hfits.2

/-! ## Tokens in their places dissect the text -/

/-- Where the text is cut in two, no digits go on from the one part to the other. -/
def Parted (front back : List Char) : Prop :=
  (∀ c ∈ front.getLast?, c.isDigit = false) ∨ ∀ c ∈ back.head?, c.isDigit = false

theorem parted_concat {c : Char} (h : c.isDigit = false) (front back : List Char) : Parted (front ++ [c]) back :=
  .inl (by simpa using h)

theorem Kind.EndsBefore.parted (hd : Separates d) {kind : Kind} (h : kind.EndsBefore post) (front : List Char) :
    Parted (front ++ kind.word d) post := by
  cases kind with
  | integer digits => exact .inr h.2.2
  | opening => exact parted_concat rfl _ _
  | closing => exact parted_concat rfl _ _
  | delimiter =>
    refine parted_concat ?_ _ _
    rw [Bool.eq_false_iff]
    exact fun hdigit => hd.1 (isDigit_iff.mp hdigit)

theorem Kind.EndsBefore.fits {kind : Kind} (h : kind.EndsBefore post) (hparted : Parted pre (kind.word d ++ post)) :
    kind.Fits pre post := by
  cases kind with
  | integer digits =>
    obtain ⟨hne, hdigits, hmax⟩ := h
    refine ⟨⟨hne, hdigits⟩, hparted.resolve_right fun hhead => ?_, hmax⟩
    obtain ⟨c, digits, rfl⟩ := List.exists_cons_of_ne_nil hne
    have := hhead c rfl
    rw [hdigits c (by simp)] at this
    cases this
  | opening => trivial
  | closing => trivial
  | delimiter => trivial

theorem Places.isIn (hd : Separates d) (h : Places d pos rest tokens) (pre : List Char) (hpos : size pre = pos)
    (hparted : Parted pre rest) : ∀ t ∈ tokens, t.IsIn d (pre ++ rest) := by
  induction h generalizing pre with
  | nil => exact List.forall_mem_nil _
  | @blank pos c text tokens hc h ih =>
    have hlater := ih (pre ++ [c]) (by simp [hpos]) (parted_concat (isDigit_of_isBlank hc) _ _)
    rwa [List.append_assoc] at hlater
  | @token pos text tokens kind hkind h ih =>
    subst hpos
    have hlater := ih (pre ++ kind.word d) (by simp) (hkind.parted hd pre)
    rw [List.append_assoc] at hlater
    refine List.forall_mem_cons.mpr ⟨?_, hlater⟩
    exact Token.isIn_iff.mpr ⟨pre, text, rfl, rfl, hkind.fits hparted⟩

theorem Places.gaps (h : Places d pos rest tokens) (pre : List Char) (hpos : size pre = pos) (htext : text = pre ++ rest) :
    (∀ g ∈ Span.gaps pos (size text) (tokens.map (·.span)), Blanks (cut text g)) ∧
      rest = weave ((Span.gaps pos (size text) (tokens.map (·.span))).map (cut text)) (tokens.map (·.kind.word d)) := by
  induction tokens generalizing pos pre rest with
  | nil =>
    have hcut : cut text ⟨pos, size text⟩ = rest := by
      rw [htext, ← hpos, Text.size_append]
      simpa using Text.cut_split pre rest []
    refine ⟨List.forall_mem_singleton.mpr ?_, ?_⟩
    · rw [hcut]
      exact h.blanks
    · simp [Span.gaps, weave, hcut]
  | cons t tokens ih =>
    obtain ⟨b, rest', hb, rfl, -, hspan, hrest⟩ := h.exists_first
    have hcut : cut text ⟨pos, t.span.start⟩ = b := by
      rw [htext, hspan, ← hpos]
      exact Text.cut_split pre b _
    have hstop : t.span.stop = pos + size b + size (t.kind.word d) := by rw [hspan]
    rw [← hstop] at hrest
    obtain ⟨hblank, hwhole⟩ := ih hrest (pre ++ (b ++ t.kind.word d))
      (by simp [hstop, hpos, Nat.add_assoc]) (by simp [htext])
    refine ⟨List.forall_mem_cons.mpr ⟨?_, hblank⟩, ?_⟩
    · rw [hcut]
      exact hb
    · rw [List.map_cons, Span.gaps, List.map_cons, List.map_cons, weave, hcut, ← hwhole]

theorem Places.dissects (hd : Separates d) (h : Places d 0 text tokens) : Dissects d text tokens where
  isIn := h.isIn hd [] rfl (.inl (by simp))
  apart := h.ordered.2
  blank := (h.gaps [] rfl rfl).1
  whole := (h.gaps [] rfl rfl).2

/-! ## Tokens that dissect the text are in their places -/

theorem places_of_gaps (pre : List Char) (hpos : size pre = pos) (htext : text = pre ++ rest)
    (hin : ∀ t ∈ tokens, t.IsIn d text) (hapart : tokens.Pairwise fun t u => t.span.stop ≤ u.span.start)
    (hfrom : ∀ t ∈ tokens, pos ≤ t.span.start)
    (hblank : ∀ g ∈ Span.gaps pos (size text) (tokens.map (·.span)), Blanks (cut text g)) :
    Places d pos rest tokens := by
  induction tokens generalizing pos pre rest with
  | nil =>
    have hrest := hblank ⟨pos, size text⟩ (by simp [Span.gaps])
    rw [htext, ← hpos, Text.size_append] at hrest
    have hcut := Text.cut_split pre rest []
    rw [List.append_nil] at hcut
    rw [hcut] at hrest
    simpa using Places.blanks_append hrest Places.nil
  | cons t tokens ih =>
    obtain ⟨hint, hin⟩ := List.forall_mem_cons.mp hin
    obtain ⟨hbehind, hapart⟩ := List.pairwise_cons.mp hapart
    obtain ⟨hgap, hblank⟩ : Blanks (cut text ⟨pos, t.span.start⟩) ∧
        ∀ g ∈ Span.gaps t.span.stop (size text) (tokens.map (·.span)), Blanks (cut text g) :=
      List.forall_mem_cons.mp hblank
    obtain ⟨front, back, hsplit, hspan, hfits⟩ := Token.isIn_iff.mp hint
    have hle : size pre ≤ size front := by
      have hstart := hfrom t (by simp)
      rw [hspan, ← hpos] at hstart
      exact hstart
    obtain ⟨b, rfl, rfl⟩ := Text.append_eq_append_of_size_le (htext.symm.trans hsplit) hle
    have hb : Blanks b := by
      rw [htext, hspan, ← hpos, Text.size_append, Text.cut_split] at hgap
      exact hgap
    rw [Text.size_append, hpos] at hspan
    have hstop : t.span.stop = pos + size b + size (t.kind.word d) := by rw [hspan]
    have hrest : text = pre ++ (b ++ t.kind.word d) ++ back := by simp [htext]
    have hlater := ih _ (by simp [hstop, hpos, Nat.add_assoc]) hrest hin hapart hbehind hblank
    rw [hstop] at hlater
    rw [show t = ⟨t.kind, _⟩ from congrArg (Token.mk t.kind) hspan]
    exact Places.blanks_append hb (.token t.kind hfits.endsBefore hlater)

theorem Dissects.places (h : Dissects d text tokens) : Places d 0 text tokens :=
  places_of_gaps [] rfl rfl h.isIn h.apart (fun _ _ => Nat.zero_le _) h.blank

/-! ## What is found -/

theorem exists_error_iff : (∃ f, tokenize d text = .error f) ↔ ∃ c ∈ text, ¬ Legal d c := by
  constructor
  · rintro ⟨f, hf⟩
    obtain ⟨front, c, back, rfl, -, hc, -⟩ := isFirstIllegal_of_tokenizeAt hf
    exact ⟨c, by simp, hc⟩
  · rintro ⟨c, hmem, hc⟩
    cases htokens : tokenize d text with
    | ok tokens => exact absurd ((places_of_tokenizeAt htokens).spells.legal c hmem) hc
    | error f => exact ⟨f, rfl⟩

/-- **Nothing is lost in the tokens of a text.** Let the delimiter be one that can be told from all else. If all characters
of a text are legal, tokens are found that dissect it: they are ranges with some bytes, one behind the other, and have
their words there; an integer is a maximal run of digits; and there is only white space before, between and behind them. No
other tokens dissect the text. If there is an illegal character no tokens are found, and only then. -/
theorem tokenize_dissects (hd : isDelimiter d = true) (text : List Char) :
    ((∀ c ∈ text, Legal d c) → ∃ tokens, tokenize d text = .ok tokens ∧ Dissects d text tokens) ∧
    (∀ tokens, Dissects d text tokens → tokenize d text = .ok tokens) ∧
    ((∃ f, tokenize d text = .error f) ↔ ∃ c ∈ text, ¬ Legal d c) := by
  have hseparates := isDelimiter_iff.mp hd
  refine ⟨fun hlegal => ?_, fun tokens h => h.places.tokenizeAt hseparates, exists_error_iff⟩
  cases htokens : tokenize d text with
  | error f =>
    obtain ⟨c, hc, hillegal⟩ := exists_error_iff.mp ⟨f, htokens⟩
    exact absurd (hlegal c hc) hillegal
  | ok tokens => exact ⟨tokens, rfl, (places_of_tokenizeAt htokens).dissects hseparates⟩

/-- A delimiter and a blank of two bytes each stand between two integers. With a sign in front, the text has no tokens. -/
theorem tokenize_dissects_wide_blank :
    let text := " (10·\u00a007)".toList
    let tokens : List Token := [⟨.opening, ⟨1, 2⟩⟩, ⟨.integer ['1', '0'], ⟨2, 4⟩⟩, ⟨.delimiter, ⟨4, 6⟩⟩,
      ⟨.integer ['0', '7'], ⟨8, 10⟩⟩, ⟨.closing, ⟨10, 11⟩⟩]
    isDelimiter '·' = true ∧ (∀ c ∈ text, Legal '·' c) ∧ Dissects '·' text tokens ∧ tokenize '·' text = .ok tokens ∧
      (∃ c ∈ '-' :: text, ¬ Legal '·' c) ∧ ∃ f, tokenize '·' ('-' :: text) = .error f := by
  intro text tokens
  have hd : isDelimiter '·' = true := by decide
  have htokens : tokenize '·' text = .ok tokens := by
    simp [text, tokens, tokenize, tokenizeAt, Except.map, Char.utf8Size, Text.isBlank, Text.blankRanges]
  have hlegal : ∀ c ∈ text, Legal '·' c := (places_of_tokenizeAt htokens).spells.legal
  have hsign : ¬ Legal '·' '-' := by
    unfold Legal
    decide
  obtain ⟨found, hfound, hdissects⟩ := (tokenize_dissects hd text).1 hlegal
  cases htokens.symm.trans hfound
  exact ⟨hd, hlegal, hdissects, (tokenize_dissects hd text).2.1 tokens hdissects, ⟨'-', by simp, hsign⟩,
    (tokenize_dissects hd ('-' :: text)).2.2.mpr ⟨'-', by simp, hsign⟩⟩

end Tuple

end TreeEdit
