import TreeEdit.Proofs.Buffer.Sound
import TreeEdit.Proofs.Engine.Postorder
import TreeEdit.Proofs.Tuple.Grammar

/-!
# Programs as they are written

`Written` is the grammar of tuples once more, now for the text itself: what a phrase looks like from its first character
to its last, white space inside included, and where that puts each of its nodes. A text that the parser accepts is
written in this way (`written_of_parse`). From there the spans of its tree can be read off: each of them is a range of
the text, and they are nested (`Written.liesIn`).
-/

namespace TreeEdit

theorem Span.merge_of_le {s t : Span} (hstart : s.start ≤ t.start) (hstop : s.stop ≤ t.stop) :
    s.merge t = ⟨s.start, t.stop⟩ := by
  rw [Span.merge, Nat.min_eq_left hstart, Nat.max_eq_right hstop]

theorem Arena.validSpan_size (pre seg post : List Char) :
    validSpan (pre ++ (seg ++ post)) ⟨Text.size pre, Text.size pre + Text.size seg⟩ = true := by
  refine validSpan_iff.mpr ⟨by simp, by simp, Text.isBoundary_size_append _ _, ?_⟩
  rw [← List.append_assoc, ← Text.size_append]
  exact Text.isBoundary_size_append _ _

namespace Tree

theorem nestedIn_singleton {pos stop : Nat} {t : Tree} (hspan : t.span = ⟨pos, stop⟩) (ht : t.Nested) :
    NestedIn pos stop [t] := by
  rw [NestedIn, hspan]
  exact ⟨Nat.le_refl _, Nat.le_refl _, ht, trivial⟩

theorem NestedIn.concat {pos mid stop : Nat} {ts : List Tree} {t : Tree} (h : NestedIn pos mid ts) (hpos : pos ≤ mid)
    (hstart : mid ≤ t.span.start) (hstop : t.span.stop ≤ stop) (ht : t.Nested) : NestedIn pos stop (ts ++ [t]) := by
  induction ts generalizing pos with
  | nil =>
    rw [List.nil_append, NestedIn]
    exact ⟨Nat.le_trans hpos hstart, hstop, ht, trivial⟩
  | cons u ts ih =>
    rw [NestedIn] at h
    obtain ⟨hu, hmid, hnested, hrest⟩ := h
    have := ht.start_lt_stop
    rw [List.cons_append, NestedIn]
    exact ⟨hu, by omega, hnested, ih hrest hmid⟩

theorem NestedIn.widen {pos pos' stop stop' : Nat} {ts : List Tree} (h : NestedIn pos stop ts) (hpos : pos' ≤ pos)
    (hstop : stop ≤ stop') : NestedIn pos' stop' ts := by
  induction ts generalizing pos pos' with
  | nil => trivial
  | cons t ts ih =>
    rw [NestedIn] at h ⊢
    obtain ⟨hstart, hle, ht, hts⟩ := h
    exact ⟨by omega, by omega, ht, ih hts (Nat.le_refl _)⟩

theorem NestedIn.lt {pos stop : Nat} {ts : List Tree} (h : NestedIn pos stop ts) (hne : ts ≠ []) : pos < stop := by
  cases ts with
  | nil => exact absurd rfl hne
  | cons t ts =>
    rw [NestedIn] at h
    have := h.2.2.1.start_lt_stop
    omega

end Tree

namespace Tuple

open Text (size)

/-- White space, or nothing. -/
def Blanks (text : List Char) : Prop :=
  ∀ c ∈ text, Text.isBlank c = true

theorem Blanks.nil : Blanks [] :=
  List.forall_mem_nil _

theorem Blanks.append {b b' : List Char} (h : Blanks b) (h' : Blanks b') : Blanks (b ++ b') :=
  List.forall_mem_append.mpr ⟨h, h'⟩

theorem Blanks.not_digit {b : List Char} (hb : Blanks b) : ∀ c ∈ b.head?, c.isDigit = false :=
  fun c hc => isDigit_of_isBlank (hb c (List.mem_of_mem_head? hc))

theorem Blanks.head_append {b x : List Char} (hb : Blanks b) (hx : ∀ c ∈ x.head?, c.isDigit = false) :
    ∀ c ∈ (b ++ x).head?, c.isDigit = false := by
  cases b with
  | nil => exact hx
  | cons y b => exact hb.not_digit

/-- How phrases are written, the first character being at an offset. No phrase but a program has white space around it,
and each node has the span where it is written. -/
inductive Written (d : Char) : Nat → List Char → Phrase → Prop
  | integer {pos digits} (hne : digits ≠ []) (hdigits : ∀ c ∈ digits, c.isDigit = true)
    (hvalue : value digits ≤ 2 ^ 64 - 1) :
    Written d pos digits (.item { integerTree digits with span := ⟨pos, pos + size digits⟩ })
  | nested {pos seg t} (h : Written d pos seg (.group t)) : Written d pos seg (.item t)
  | first {pos seg t} (h : Written d pos seg (.item t)) : Written d pos seg (.items [t])
  | next {pos seg b b' seg' ts t} (hs : Written d pos seg (.items ts)) (hb : Blanks b) (hb' : Blanks b')
    (h : Written d (pos + size (seg ++ (b ++ d :: b'))) seg' (.item t)) :
    Written d pos (seg ++ ((b ++ d :: b') ++ seg')) (.items (ts ++ [t]))
  | empty {pos b} (hb : Blanks b) : Written d pos ('(' :: (b ++ [')']))
    (.group { groupTree [] with span := ⟨pos, pos + size ('(' :: (b ++ [')']))⟩ })
  | filled {pos b seg b' ts} (hb : Blanks b) (hb' : Blanks b')
    (h : Written d (pos + size ('(' :: b)) seg (.items ts)) : Written d pos ('(' :: b ++ (seg ++ (b' ++ [')'])))
    (.group { groupTree ts with span := ⟨pos, pos + size ('(' :: b ++ (seg ++ (b' ++ [')'])))⟩ })
  | none {pos} : Written d pos [] (.groups [])
  | single {pos seg t} (h : Written d pos seg (.group t)) : Written d pos seg (.groups [t])
  | more {pos seg b seg' ts t} (hne : ts ≠ []) (hs : Written d pos seg (.groups ts)) (hb : Blanks b)
    (h : Written d (pos + size (seg ++ b)) seg' (.group t)) :
    Written d pos (seg ++ (b ++ seg')) (.groups (ts ++ [t]))
  | blank {pos b} (hb : Blanks b) : Written d pos b (.program (programTree []))
  | program {pos b seg b' ts} (hne : ts ≠ []) (hb : Blanks b) (hb' : Blanks b')
    (h : Written d (pos + size b) seg (.groups ts)) : Written d pos (b ++ (seg ++ b'))
    (.program { programTree ts with span := ⟨pos + size b, pos + size b + size seg⟩ })

/-! ## Cutting a text at its tokens -/

variable {d : Char} {pos : Nat} {text : List Char} {tokens : List Token}

theorem Kind.EndsBefore.of_append {kind : Kind} {front back : List Char} (h : kind.EndsBefore (front ++ back)) :
    kind.EndsBefore front := by
  cases kind with
  | integer digits =>
    refine ⟨h.1, h.2.1, fun c hc => h.2.2 c ?_⟩
    cases front with
    | nil => cases hc
    | cons x front => exact hc
  | opening => trivial
  | closing => trivial
  | delimiter => trivial

theorem Places.blanks_append {b : List Char} (hb : Blanks b) (h : Places d (pos + size b) text tokens) :
    Places d pos (b ++ text) tokens := by
  induction b generalizing pos with
  | nil => exact h
  | cons c b ih =>
    obtain ⟨hc, hb⟩ := List.forall_mem_cons.mp hb
    refine .blank hc (ih hb ?_)
    rw [Nat.add_assoc]
    exact h

theorem Places.blanks (h : Places d pos text []) : Blanks text := by
  generalize hnone : ([] : List Token) = tokens at h
  induction h with
  | nil => exact .nil
  | blank hc h ih => exact List.forall_mem_cons.mpr ⟨hc, ih hnone⟩
  | token kind hkind h ih => cases hnone

theorem Places.exists_first {kind : Kind} {span : Span} (h : Places d pos text (⟨kind, span⟩ :: tokens)) :
    ∃ b rest, Blanks b ∧ text = b ++ (kind.word d ++ rest) ∧ kind.EndsBefore rest ∧
      span = ⟨pos + size b, pos + size b + size (kind.word d)⟩ ∧
      Places d (pos + size b + size (kind.word d)) rest tokens := by
  generalize hcons : ⟨kind, span⟩ :: tokens = all at h
  induction h with
  | nil => cases hcons
  | @blank pos c text all hc h ih =>
    obtain ⟨b, rest, hb, rfl, hends, hspan, hrest⟩ := ih hcons
    rw [Nat.add_assoc pos] at hspan hrest
    exact ⟨c :: b, rest, List.forall_mem_cons.mpr ⟨hc, hb⟩, rfl, hends, hspan, hrest⟩
  | @token pos text all kind hkind h ih =>
    cases hcons
    exact ⟨[], text, .nil, rfl, hkind, rfl, h⟩

theorem Places.split {xs ys : List Token} (h : Places d pos text (xs ++ ys)) :
    ∃ front back, text = front ++ back ∧ Places d pos front xs ∧ Places d (pos + size front) back ys := by
  induction xs generalizing pos text with
  | nil => exact ⟨[], text, rfl, .nil, h⟩
  | cons t xs ih =>
    obtain ⟨b, rest, hb, rfl, hends, hspan, hrest⟩ := h.exists_first
    obtain ⟨front, back, rfl, hfront, hback⟩ := ih hrest
    refine ⟨b ++ (t.kind.word d ++ front), back, by simp, ?_, ?_⟩
    · rw [show t = ⟨t.kind, _⟩ from congrArg (Token.mk t.kind) hspan]
      exact Places.blanks_append hb (.token t.kind hends.of_append hfront)
    · simpa [Nat.add_assoc] using hback

theorem Places.ordered (h : Places d pos text tokens) :
    (∀ t ∈ tokens, pos ≤ t.span.start ∧ t.span.start ≤ t.span.stop) ∧
      tokens.Pairwise fun t u => t.span.stop ≤ u.span.start := by
  induction h with
  | nil => exact ⟨fun t ht => (nomatch ht), .nil⟩
  | blank hc h ih =>
    refine ⟨fun t ht => ?_, ih.2⟩
    have := ih.1 t ht
    omega
  | token kind hkind h ih =>
    refine ⟨List.forall_mem_cons.mpr ⟨by simp, fun t ht => ?_⟩, List.pairwise_cons.mpr ⟨fun t ht => ?_, ih.2⟩⟩
    · have := ih.1 t ht
      omega
    · exact (ih.1 t ht).1

/-! ## Phrases of tokens in their places -/

/-- The tokens reach from the one offset to the other. -/
def Reach (tokens : List Token) (start stop : Nat) : Prop :=
  tokens.head?.map (·.span.start) = some start ∧ tokens.getLast?.map (·.span.stop) = some stop

theorem Reach.singleton (t : Token) : Reach [t] t.span.start t.span.stop :=
  ⟨rfl, rfl⟩

theorem Reach.enclosed {t u : Token} (mid : List Token) {start stop : Nat} (hstart : t.span.start = start)
    (hstop : u.span.stop = stop) : Reach (t :: (mid ++ [u])) start stop := by
  constructor
  · rw [List.head?_cons, Option.map_some, hstart]
  · rw [← List.cons_append, List.getLast?_concat, Option.map_some, hstop]

theorem Reach.append {xs ys : List Token} {i j k l : Nat} (hx : Reach xs i j) (hy : Reach ys k l) :
    Reach (xs ++ ys) i l := by
  obtain ⟨t, hhead, rfl⟩ := Option.map_eq_some_iff.mp hx.1
  obtain ⟨u, hlast, rfl⟩ := Option.map_eq_some_iff.mp hy.2
  constructor
  · rw [List.head?_append, hhead]
    rfl
  · rw [List.getLast?_append, hlast]
    rfl

theorem Reach.programSpan {start stop : Nat} (h : Reach tokens start stop) (hplaces : Places d pos text tokens) :
    programSpan tokens = ⟨start, stop⟩ := by
  obtain ⟨t, hhead, rfl⟩ := Option.map_eq_some_iff.mp h.1
  obtain ⟨u, hlast, rfl⟩ := Option.map_eq_some_iff.mp h.2
  obtain ⟨hspans, hpair⟩ := hplaces.ordered
  have ht := hspans t (List.mem_of_mem_head? hhead)
  have hu := hspans u (List.mem_of_getLast? hlast)
  have horder : t = u ∨ t.span.stop ≤ u.span.start := by
    cases tokens with
    | nil => cases hhead
    | cons x tokens =>
      cases hhead
      rcases List.mem_cons.mp (List.mem_of_getLast? hlast) with rfl | hmem
      · exact .inl rfl
      · exact .inr ((List.pairwise_cons.mp hpair).1 u hmem)
  rw [Tuple.programSpan, hhead, hlast]
  refine Span.merge_of_le ?_ ?_ <;> rcases horder with rfl | horder <;> omega

/-- The phrase is written in the text, with white space around it, and its tokens, if it has any, reach over all of it.
The white space around a program is part of the program. -/
def Phrase.StandsIn (d : Char) (pos : Nat) (text : List Char) (tokens : List Token) : Phrase → Prop
  | .program t => Written d pos text (.program t)
  | p => ∃ b seg b', Blanks b ∧ Blanks b' ∧ text = b ++ (seg ++ b') ∧ Written d (pos + size b) seg p ∧
    (p ≠ .groups [] → Reach tokens (pos + size b) (pos + size b + size seg))

theorem Written.eq_nil {seg : List Char} (h : Written d pos seg (.groups [])) : seg = [] := by
  generalize hp : Phrase.groups [] = p at h
  cases h with
  | none => rfl
  | single => simp at hp
  | more => simp at hp
  | _ => cases hp

theorem Forms.eq_nil (h : Forms (.groups []) tokens) : tokens = [] := by
  generalize hp : Phrase.groups [] = p at h
  cases h with
  | none => rfl
  | more => simp at hp
  | _ => cases hp

theorem Forms.standsIn {p : Phrase} (h : Forms p tokens) (hplaces : Places d pos text tokens) :
    p.StandsIn d pos text tokens := by
  induction h generalizing pos text with
  | @integer digits span hvalue =>
    obtain ⟨b, rest, hb, rfl, ⟨hne, hdigits, -⟩, rfl, hrest⟩ := hplaces.exists_first
    exact ⟨b, digits, rest, hb, hrest.blanks, rfl, .integer hne hdigits hvalue, fun _ => .singleton _⟩
  | nested h ih =>
    obtain ⟨b, seg, b', hb, hb', htext, hseg, hreach⟩ := ih hplaces
    exact ⟨b, seg, b', hb, hb', htext, hseg.nested, fun _ => hreach (by simp)⟩
  | first h ih =>
    obtain ⟨b, seg, b', hb, hb', htext, hseg, hreach⟩ := ih hplaces
    exact ⟨b, seg, b', hb, hb', htext, hseg.first, fun _ => hreach (by simp)⟩
  | @next ts t tokens tokens' span hs h ihs ih =>
    obtain ⟨front, back, rfl, hfront, hback⟩ := hplaces.split
    obtain ⟨b₂, rest, hb₂, rfl, -, -, hrest⟩ := hback.exists_first
    obtain ⟨b, seg, b₁, hb, hb₁, rfl, hseg, hreach⟩ := ihs hfront
    obtain ⟨b₃, seg', b', hb₃, hb', rfl, hseg', hreach'⟩ := ih hrest
    have hpos : pos + size (b ++ (seg ++ b₁)) + size b₂ + size (Kind.word d .delimiter) + size b₃ =
        pos + size b + size (seg ++ (b₁ ++ b₂ ++ d :: b₃)) := by
      simp [Kind.word]
      omega
    rw [hpos] at hseg' hreach'
    refine ⟨b, seg ++ ((b₁ ++ b₂ ++ d :: b₃) ++ seg'), b', hb, hb', by simp [Kind.word],
      hseg.next (hb₁.append hb₂) hb₃ hseg', fun _ => ?_⟩
    have hall := (hreach (by simp)).append ((Reach.singleton ⟨.delimiter, span⟩).append (hreach' (by simp)))
    simpa [Nat.add_assoc] using hall
  | empty =>
    obtain ⟨b, rest, hb, rfl, -, rfl, hrest⟩ := hplaces.exists_first
    obtain ⟨b₁, b', hb₁, rfl, -, rfl, hb'⟩ := hrest.exists_first
    refine ⟨b, '(' :: (b₁ ++ [')']), b', hb, hb'.blanks, by simp [Kind.word], ?_, fun _ => ?_⟩
    · have hgroup := @Written.empty d (pos + size b) b₁ hb₁
      rw [Span.merge_of_le (by simp only; omega) (by simp only; omega)]
      simpa [Kind.word, Nat.add_assoc] using hgroup
    · exact Reach.enclosed [] rfl (by simp [Kind.word, Nat.add_assoc])
  | @filled ts tokens _ _ h ih =>
    obtain ⟨b, rest, hb, rfl, -, rfl, hrest⟩ := hplaces.exists_first
    obtain ⟨front, back, rfl, hfront, hback⟩ := hrest.split
    obtain ⟨b₁, seg, b₂, hb₁, hb₂, rfl, hseg, hreach⟩ := ih hfront
    obtain ⟨b₃, b', hb₃, rfl, -, rfl, hb'⟩ := hback.exists_first
    have hpos : pos + size b + size (Kind.word d .opening) + size b₁ = pos + size b + size ('(' :: b₁) := by
      simp [Kind.word]
      omega
    rw [hpos] at hseg
    refine ⟨b, '(' :: b₁ ++ (seg ++ (b₂ ++ b₃ ++ [')'])), b', hb, hb'.blanks, by simp [Kind.word], ?_, fun _ => ?_⟩
    · have hgroup := hseg.filled hb₁ (hb₂.append hb₃)
      rw [Span.merge_of_le (by simp only; omega) (by simp only; omega)]
      simpa [Kind.word, Nat.add_assoc] using hgroup
    · exact Reach.enclosed tokens rfl (by simp [Kind.word, Nat.add_assoc])
  | none => exact ⟨text, [], [], hplaces.blanks, .nil, by simp, .none, fun h => absurd rfl h⟩
  | @more ts t tokens tokens' hs h ihs ih =>
    obtain ⟨front, back, rfl, hfront, hback⟩ := hplaces.split
    obtain ⟨b, seg, b₁, hb, hb₁, rfl, hseg, hreach⟩ := ihs hfront
    obtain ⟨b₂, seg', b', hb₂, hb', rfl, hseg', hreach'⟩ := ih hback
    by_cases hne : ts = []
    · -- the first group: there is nothing but white space in front of it
      subst hne
      obtain rfl := hs.eq_nil
      obtain rfl := hseg.eq_nil
      have hpos : pos + size (b ++ ([] ++ b₁)) + size b₂ = pos + size (b ++ b₁ ++ b₂) := by
        simp [Nat.add_assoc]
      rw [hpos] at hseg' hreach'
      exact ⟨b ++ b₁ ++ b₂, seg', b', (hb.append hb₁).append hb₂, hb', by simp, hseg'.single, fun _ => hreach' (by simp)⟩
    · have hpos : pos + size (b ++ (seg ++ b₁)) + size b₂ = pos + size b + size (seg ++ (b₁ ++ b₂)) := by
        simp [Nat.add_assoc]
      rw [hpos] at hseg' hreach'
      refine ⟨b, seg ++ ((b₁ ++ b₂) ++ seg'), b', hb, hb', by simp, hseg.more hne (hb₁.append hb₂) hseg', fun _ => ?_⟩
      have hall := (hreach (by simpa using hne)).append (hreach' (by simp))
      simpa [Nat.add_assoc] using hall
  | @program ts tokens h ih =>
    obtain ⟨b, seg, b', hb, hb', rfl, hseg, hreach⟩ := ih hplaces
    by_cases hne : ts = []
    · subst hne
      obtain rfl := h.eq_nil
      obtain rfl := hseg.eq_nil
      exact .blank (hb.append hb')
    · rw [(hreach (by simpa using hne)).programSpan hplaces]
      exact .program hne hb hb' hseg

theorem written_of_parse {code : String} {root : Tree} (h : parse ⟨d⟩ code = .ok root) :
    Written d 0 code.toList (.program root) := by
  obtain ⟨hd, tokens, htokens, hparse⟩ := parse_eq_ok_iff.mp h
  exact (forms_of_parseTokens hparse).standsIn (places_of_tokenizeAt htokens)

/-! ## The spans of a program -/

/-- The phrase takes up the text between two offsets, its nodes are nested, and the span of each is a range of the
text. A program without tokens has an empty span. -/
def Phrase.LiesIn (text : List Char) (pos stop : Nat) : Phrase → Prop
  | .item t | .group t =>
    t.span = ⟨pos, stop⟩ ∧ t.Nested ∧ ∀ u ∈ t.preorder, Arena.validSpan text u.span = true
  | .items ts | .groups ts =>
    Tree.NestedIn pos stop ts ∧ ∀ t ∈ ts, ∀ u ∈ t.preorder, Arena.validSpan text u.span = true
  | .program t =>
    (t.children ≠ [] → t.Nested) ∧ ∀ u ∈ t.preorder, Arena.validSpan text u.span = true

theorem liesIn_concat {mid start stop stop' : Nat} {ts : List Tree} {t : Tree}
    (hs : Tree.NestedIn pos mid ts ∧ ∀ v ∈ ts, ∀ u ∈ v.preorder, Arena.validSpan text u.span = true)
    (h : t.span = ⟨start, stop⟩ ∧ t.Nested ∧ ∀ u ∈ t.preorder, Arena.validSpan text u.span = true)
    (hpos : pos ≤ mid) (hmid : mid ≤ start) (hstop : stop ≤ stop') :
    Tree.NestedIn pos stop' (ts ++ [t]) ∧ ∀ v ∈ ts ++ [t], ∀ u ∈ v.preorder, Arena.validSpan text u.span = true := by
  obtain ⟨hspan, hnested, hvalid⟩ := h
  refine ⟨hs.1.concat hpos ?_ ?_ hnested, List.forall_mem_append.mpr ⟨hs.2, List.forall_mem_singleton.mpr hvalid⟩⟩
  · rw [hspan]
    exact hmid
  · rw [hspan]
    exact hstop

theorem Written.liesIn {seg pre post : List Char} {p : Phrase} (h : Written d pos seg p)
    (htext : text = pre ++ (seg ++ post)) (hpre : size pre = pos) : p.LiesIn text pos (pos + size seg) := by
  induction h generalizing pre post with
  | @integer pos digits hne hdigits hvalue =>
    subst hpre htext
    refine ⟨rfl, ⟨?_, trivial⟩, Tree.forall_mem_preorder (Arena.validSpan_size pre digits post) fun c hc => (nomatch hc)⟩
    have := List.length_pos_of_ne_nil hne
    rw [size_of_digits hdigits]
    exact Nat.lt_add_of_pos_right this
  | nested h ih => exact ih htext hpre
  | first h ih =>
    obtain ⟨hspan, hnested, hvalid⟩ := ih htext hpre
    exact ⟨Tree.nestedIn_singleton hspan hnested, List.forall_mem_singleton.mpr hvalid⟩
  | @next pos seg b b' seg' ts t hs hb hb' h ihs ih =>
    have hitems := @ihs pre (b ++ d :: b' ++ (seg' ++ post)) (by simp [htext]) hpre
    have hitem := @ih (pre ++ (seg ++ (b ++ d :: b'))) post (by simp [htext]) (by simp [hpre])
    exact liesIn_concat hitems hitem (by simp) (by simp) (by simp [Nat.add_assoc])
  | @empty pos b hb =>
    subst hpre htext
    refine ⟨rfl, ⟨?_, trivial⟩, Tree.forall_mem_preorder (Arena.validSpan_size pre _ post) fun c hc => (nomatch hc)⟩
    have := Char.utf8Size_pos '('
    simp
    omega
  | @filled pos b seg b' ts hb hb' h ih =>
    obtain ⟨hnested, hvalid⟩ := @ih (pre ++ '(' :: b) (b' ++ [')'] ++ post) (by simp [htext]) (by simp [hpre])
    subst hpre htext
    refine ⟨rfl, ⟨?_, hnested.widen ?_ ?_⟩, Tree.forall_mem_preorder (Arena.validSpan_size pre _ post) hvalid⟩
    · have := Char.utf8Size_pos '('
      simp
      omega
    · simp
    · simp
      omega
  | none => exact ⟨trivial, fun t ht => (nomatch ht)⟩
  | single h ih =>
    obtain ⟨hspan, hnested, hvalid⟩ := ih htext hpre
    exact ⟨Tree.nestedIn_singleton hspan hnested, List.forall_mem_singleton.mpr hvalid⟩
  | @more pos seg b seg' ts t hne hs hb h ihs ih =>
    have hgroups := @ihs pre (b ++ (seg' ++ post)) (by simp [htext]) hpre
    have hgroup := @ih (pre ++ (seg ++ b)) post (by simp [htext]) (by simp [hpre])
    exact liesIn_concat hgroups hgroup (by simp) (by simp) (by simp [Nat.add_assoc])
  | blank hb =>
    refine ⟨fun h => absurd rfl h, Tree.forall_mem_preorder ?_ fun c hc => (nomatch hc)⟩
    exact Arena.validSpan_iff.mpr ⟨Nat.le_refl _, Nat.zero_le _, Text.isBoundary_zero _, Text.isBoundary_zero _⟩
  | @program pos b seg b' ts hne hb hb' h ih =>
    obtain ⟨hnested, hvalid⟩ := @ih (pre ++ b) (b' ++ post) (by simp [htext]) (by simp [hpre])
    refine ⟨fun _ => ⟨hnested.lt hne, hnested⟩, Tree.forall_mem_preorder ?_ hvalid⟩
    have hspan := Arena.validSpan_size (pre ++ b) seg (b' ++ post)
    simpa [htext, hpre] using hspan

end Tuple

end TreeEdit
