import TreeEdit.Proofs.Engine.Settlement
import TreeEdit.Proofs.Tuple.Layout

/-!
# The spans of a program

Where a phrase is written in a text says what the span of each of its nodes covers (`Written.stands`): an integer covers
its digits, with no digit beside them, and a group reaches from a parenthesis to the one that matches it, as all that is
written between the two is balanced (`Written.balanced`). With the nesting of spans this is all that can be said of them
(`program_spans`). As they are ranges of the text, no job fails because of the span of a node.
-/

namespace TreeEdit

/-! ## Children inside of their parents -/

namespace Tree

/-- The children of the node have some text each, within that of the node, one behind the other. -/
structure Encloses (u : Tree) : Prop where
  within : ∀ c ∈ u.children, u.span.start ≤ c.span.start ∧ c.span.start < c.span.stop ∧ c.span.stop ≤ u.span.stop
  apart : u.children.Pairwise fun c c' => c.span.stop ≤ c'.span.start

theorem NestedIn.of_mem {pos stop : Nat} {ts : List Tree} (h : NestedIn pos stop ts) {t : Tree} (ht : t ∈ ts) :
    pos ≤ t.span.start ∧ t.span.stop ≤ stop ∧ t.Nested := by
  induction ts generalizing pos with
  | nil => cases ht
  | cons u ts ih =>
    rw [NestedIn] at h
    obtain ⟨hstart, hstop, hu, hts⟩ := h
    rcases List.mem_cons.mp ht with rfl | ht
    · exact ⟨hstart, hstop, hu⟩
    · have hlater := ih hts ht
      have := hu.start_lt_stop
      exact ⟨by omega, hlater.2⟩

theorem NestedIn.pairwise {pos stop : Nat} {ts : List Tree} (h : NestedIn pos stop ts) :
    ts.Pairwise fun t t' => t.span.stop ≤ t'.span.start := by
  induction ts generalizing pos with
  | nil => exact .nil
  | cons u ts ih =>
    rw [NestedIn] at h
    exact List.pairwise_cons.mpr ⟨fun t ht => (h.2.2.2.of_mem ht).1, ih h.2.2.2⟩

theorem NestedIn.encloses {u : Tree} (h : NestedIn u.span.start u.span.stop u.children) : u.Encloses where
  within c hc := by
    obtain ⟨hstart, hstop, hc⟩ := h.of_mem hc
    exact ⟨hstart, hc.start_lt_stop, hstop⟩
  apart := h.pairwise

theorem encloses_of_nested :
    (∀ t : Tree, t.Nested → ∀ u ∈ t.preorder, u.Encloses) ∧
    ∀ ts : List Tree, ∀ pos stop, NestedIn pos stop ts → ∀ t ∈ ts, ∀ u ∈ t.preorder, u.Encloses := by
  apply induct
  · intro kind span value data children ih h
    exact forall_mem_preorder (NestedIn.encloses h.children) (ih _ _ h.children)
  · intro pos stop h t ht
    cases ht
  · intro t ts iht ihts pos stop h
    rw [NestedIn] at h
    exact List.forall_mem_cons.mpr ⟨iht h.2.2.1, ihts _ _ h.2.2.2⟩

end Tree

namespace Tuple

open Text (size)

/-! ## Balanced parentheses -/

/-- Each parenthesis of the text that closes has one in front of it that opens, and all that open are closed. -/
structure Balanced (t : List Char) : Prop where
  closed : t.count '(' = t.count ')'
  opened : ∀ front, front <+: t → front.count ')' ≤ front.count '('

theorem count_of_no_parentheses {t : List Char} (h : ∀ c ∈ t, c ≠ '(' ∧ c ≠ ')') : t.count '(' = 0 ∧ t.count ')' = 0 :=
  ⟨List.count_eq_zero.mpr fun hmem => (h _ hmem).1 rfl, List.count_eq_zero.mpr fun hmem => (h _ hmem).2 rfl⟩

theorem balanced_of_no_parentheses {t : List Char} (h : ∀ c ∈ t, c ≠ '(' ∧ c ≠ ')') : Balanced t where
  closed := by rw [(count_of_no_parentheses h).1, (count_of_no_parentheses h).2]
  opened front hfront := by
    rw [(count_of_no_parentheses fun c hc => h c (hfront.subset hc)).2]
    exact Nat.zero_le _

theorem Balanced.append {s t : List Char} (hs : Balanced s) (ht : Balanced t) : Balanced (s ++ t) where
  closed := by rw [List.count_append, List.count_append, hs.closed, ht.closed]
  opened front hfront := by
    rcases List.prefix_or_prefix_of_prefix hfront (List.prefix_append s t) with hshort | ⟨more, rfl⟩
    · exact hs.opened front hshort
    · have hmore := ht.opened more ((List.prefix_append_right_inj s).mp hfront)
      rw [List.count_append, List.count_append, hs.closed]
      omega

theorem Balanced.enclosed {t : List Char} (h : Balanced t) : Balanced ('(' :: (t ++ [')'])) where
  closed := by simp [h.closed]
  opened front hfront := by
    rcases List.prefix_cons_iff.mp hfront with rfl | ⟨inner, rfl, hinner⟩
    · simp
    · rcases List.prefix_concat_iff.mp hinner with rfl | hinner
      · simp [h.closed]
      · have := h.opened inner hinner
        simp
        omega

variable {d : Char} {pos : Nat} {text seg pre post : List Char}

theorem Blanks.no_parentheses {b : List Char} (hb : Blanks b) : ∀ c ∈ b, c ≠ '(' ∧ c ≠ ')' := by
  intro c hc
  have hblank := hb c hc
  constructor <;> rintro rfl <;> cases hblank

theorem Blanks.balanced {b : List Char} (hb : Blanks b) : Balanced b :=
  balanced_of_no_parentheses hb.no_parentheses

theorem Separates.balanced (hd : Separates d) {b b' : List Char} (hb : Blanks b) (hb' : Blanks b') :
    Balanced (b ++ d :: b') := by
  refine balanced_of_no_parentheses (List.forall_mem_append.mpr ⟨hb.no_parentheses, ?_⟩)
  exact List.forall_mem_cons.mpr ⟨⟨hd.2.1, hd.2.2.1⟩, hb'.no_parentheses⟩

theorem not_parenthesis_of_isDigit {c : Char} (h : c.isDigit = true) : c ≠ '(' ∧ c ≠ ')' := by
  constructor <;> rintro rfl <;> cases h

theorem Written.balanced (hd : Separates d) {p : Phrase} (h : Written d pos seg p) : Balanced seg := by
  induction h with
  | integer hne hdigits hvalue => exact balanced_of_no_parentheses fun c hc => not_parenthesis_of_isDigit (hdigits c hc)
  | nested h ih => exact ih
  | first h ih => exact ih
  | next hs hb hb' h ihs ih => exact ihs.append ((hd.balanced hb hb').append ih)
  | empty hb => exact hb.balanced.enclosed
  | filled hb hb' h ih =>
    have hgroup := (hb.balanced.append (ih.append hb'.balanced)).enclosed
    simpa using hgroup
  | none => exact balanced_of_no_parentheses fun c hc => (nomatch hc)
  | single h ih => exact ih
  | more hne hs hb h ihs ih => exact ihs.append (hb.balanced.append ih)
  | blank hb => exact hb.balanced
  | program hne hb hb' h ih => exact hb.balanced.append (ih.append hb'.balanced)

/-! ## What the spans cover -/

/-- The node is an integer, in the place of some digits of the text. -/
structure IntegerAt (text pre digits post : List Char) (u : Tree) : Prop where
  kind : u.kind = "integer"
  split : text = pre ++ (digits ++ post)
  span : u.span = ⟨size pre, size pre + size digits⟩
  numeral : digits ≠ [] ∧ ∀ c ∈ digits, '0' ≤ c ∧ c ≤ '9'
  value : u.value = some (String.ofList digits)
  data : u.data = .integer (Tuple.value digits)
  /-- There is no other digit next to these. -/
  whole : (∀ c ∈ pre.getLast?, c.isDigit = false) ∧ ∀ c ∈ post.head?, c.isDigit = false

/-- The node is a group, from a parenthesis of the text to the one that matches it. -/
structure GroupAt (text pre inner post : List Char) (u : Tree) : Prop where
  kind : u.kind = "group"
  split : text = pre ++ ('(' :: (inner ++ [')']) ++ post)
  span : u.span = ⟨size pre, size pre + size ('(' :: (inner ++ [')']))⟩
  matching : Balanced inner

/-- The node is an integer or a group of the text. -/
def Stands (text : List Char) (u : Tree) : Prop :=
  (∃ pre digits post, IntegerAt text pre digits post u) ∨ ∃ pre inner post, GroupAt text pre inner post u

def Phrase.trees : Phrase → List Tree
  | .item t | .group t => [t]
  | .items ts | .groups ts => ts
  | .program t => t.children

/-- Can the phrase stand between the two texts? A group can stand anywhere, as it has its own parentheses. -/
def Phrase.Fits (pre post : List Char) : Phrase → Prop
  | .item _ | .items _ => (∀ c ∈ pre.getLast?, c.isDigit = false) ∧ ∀ c ∈ post.head?, c.isDigit = false
  | _ => True

theorem Blanks.last_append {b x : List Char} (hb : Blanks b) (hx : ∀ c ∈ x.getLast?, c.isDigit = false) :
    ∀ c ∈ (x ++ b).getLast?, c.isDigit = false := by
  intro c hc
  rw [List.getLast?_append] at hc
  cases hlast : b.getLast? with
  | none => exact hx c (by simpa [hlast] using hc)
  | some y =>
    obtain rfl : y = c := by simpa [hlast] using hc
    exact isDigit_of_isBlank (hb y (List.mem_of_getLast? hlast))

/-- **What is written has its nodes in their places.** -/
theorem Written.stands (hd : Separates d) {p : Phrase} (h : Written d pos seg p) (htext : text = pre ++ (seg ++ post))
    (hpre : size pre = pos) (hfits : p.Fits pre post) : ∀ t ∈ p.trees, ∀ u ∈ t.preorder, Stands text u := by
  have hdigit : d.isDigit = false := by
    rw [Bool.eq_false_iff]
    exact fun hdigit => hd.1 (isDigit_iff.mp hdigit)
  induction h generalizing pre post with
  | @integer pos digits hne hdigits hvalue =>
    subst hpre
    refine List.forall_mem_singleton.mpr (Tree.forall_mem_preorder (.inl ⟨pre, digits, post, ?_⟩) fun c hc => (nomatch hc))
    exact ⟨rfl, htext, rfl, ⟨hne, fun c hc => isDigit_iff.mp (hdigits c hc)⟩, rfl, rfl, hfits⟩
  | nested h ih => exact ih htext hpre trivial
  | first h ih => exact ih htext hpre hfits
  | @next pos seg b b' seg' ts t hs hb hb' h ihs ih =>
    have hafter : ∀ c ∈ (b ++ d :: b' ++ (seg' ++ post)).head?, c.isDigit = false := by
      rw [List.append_assoc]
      exact hb.head_append (by simpa using hdigit)
    have hbefore : ∀ c ∈ (pre ++ (seg ++ (b ++ d :: b'))).getLast?, c.isDigit = false := by
      rw [show pre ++ (seg ++ (b ++ d :: b')) = (pre ++ (seg ++ (b ++ [d]))) ++ b' by simp]
      exact hb'.last_append (by simpa using hdigit)
    refine List.forall_mem_append.mpr ⟨?_, ?_⟩
    · exact ihs (by simp [htext]) hpre ⟨hfits.1, hafter⟩
    · exact ih (by simp [htext]) (by simp [hpre]) ⟨hbefore, hfits.2⟩
  | @empty pos b hb =>
    subst hpre
    refine List.forall_mem_singleton.mpr (Tree.forall_mem_preorder (.inr ⟨pre, b, post, ?_⟩) fun c hc => (nomatch hc))
    exact ⟨rfl, htext, rfl, hb.balanced⟩
  | @filled pos b seg b' ts hb hb' h ih =>
    have hafter : ∀ c ∈ (b' ++ [')'] ++ post).head?, c.isDigit = false := by
      rw [List.append_assoc]
      exact hb'.head_append (by simp)
    have hbefore : ∀ c ∈ (pre ++ '(' :: b).getLast?, c.isDigit = false := by
      rw [show pre ++ '(' :: b = (pre ++ ['(']) ++ b by simp]
      exact hb.last_append (by simp)
    have hitems := @ih (pre ++ '(' :: b) (b' ++ [')'] ++ post) (by simp [htext]) (by simp [hpre])
      ⟨hbefore, hafter⟩
    subst hpre
    refine List.forall_mem_singleton.mpr (Tree.forall_mem_preorder (.inr ⟨pre, b ++ (seg ++ b'), post, ?_⟩) hitems)
    have hinner := hb.balanced.append ((h.balanced hd).append hb'.balanced)
    exact ⟨rfl, by simp [htext], by simp, hinner⟩
  | none => exact fun t ht => (nomatch ht)
  | single h ih => exact ih htext hpre trivial
  | @more pos seg b seg' ts t hne hs hb h ihs ih =>
    refine List.forall_mem_append.mpr ⟨?_, ?_⟩
    · exact @ihs pre (b ++ (seg' ++ post)) (by simp [htext]) hpre trivial
    · exact @ih (pre ++ (seg ++ b)) post (by simp [htext]) (by simp [hpre]) trivial
  | blank hb => exact fun t ht => (nomatch ht)
  | @program pos b seg b' ts hne hb hb' h ih =>
    exact @ih (pre ++ b) (b' ++ post) (by simp [htext]) (by simp [hpre]) trivial

/-! ## The program -/

theorem kind_of_forms {tokens : List Token} {root : Tree} (h : Forms (.program root) tokens) :
    root.kind = "program" ∧ root.span = programSpan tokens := by
  generalize hp : Phrase.program root = p at h
  cases h with
  | program h =>
    cases hp
    exact ⟨rfl, rfl⟩
  | _ => cases hp

theorem Written.encloses {root : Tree} (h : Written d 0 text (.program root)) : ∀ u ∈ root.preorder, u.Encloses := by
  have htext : text = [] ++ (text ++ []) := by simp
  obtain ⟨hnested, -⟩ := h.liesIn htext rfl
  by_cases hchildren : root.children = []
  · refine Tree.forall_mem_preorder ⟨?_, ?_⟩ ?_ <;> rw [hchildren]
    · exact fun c hc => (nomatch hc)
    · exact .nil
    · exact fun c hc => (nomatch hc)
  · exact Tree.encloses_of_nested.1 root (hnested hchildren)

/-- **The spans of a program.** Let a text have a tree. The span of each node is a range of the text, so the tree can be
registered, and a job fails only because a turn does, never because of a span. Below the root, a node is an integer that
covers its digits, or a group from one parenthesis to the matching one. Children have some text each, within that of their
parent, one behind the other. The root reaches from the first token to the last, and is empty and at the start of the text
if there is none. -/
theorem program_spans {d : Char} {code : String} {root : Tree} (h : parse ⟨d⟩ code = .ok root) :
    (∀ u ∈ root.preorder, Arena.validSpan code.toList u.span = true) ∧
    Arena.register code.toList root = .ok (Arena.ofTree root) ∧
    (∀ job : Job, job.code = code → job.parsed = parse ⟨d⟩ code → Moment.FailsOnlyInTurns job) ∧
    root.kind = "program" ∧ (∀ t ∈ root.children, ∀ u ∈ t.preorder, Stands code.toList u) ∧
    (∀ u ∈ root.preorder, u.Encloses) ∧
    ∃ tokens, Places d 0 code.toList tokens ∧ (tokens = [] → root.span = ⟨0, 0⟩) ∧
      ∀ first last, tokens.head? = some first → tokens.getLast? = some last →
        root.span = ⟨first.span.start, last.span.stop⟩ := by
  obtain ⟨hd, tokens, htokens, hparse⟩ := parse_eq_ok_iff.mp h
  have hplaces := places_of_tokenizeAt htokens
  have hwritten := written_of_parse h
  have htext : code.toList = [] ++ (code.toList ++ []) := by simp
  obtain ⟨-, hvalid⟩ := hwritten.liesIn htext rfl
  obtain ⟨hkind, hspan⟩ := kind_of_forms (forms_of_parseTokens hparse)
  refine ⟨hvalid, Arena.register_eq_ok_iff.mpr ⟨rfl, hvalid⟩, ?_, hkind, hwritten.stands hd htext rfl trivial,
    hwritten.encloses, tokens, hplaces, ?_, ?_⟩
  · rintro job rfl hparsed
    exact Moment.failsOnlyInTurns (hparsed.trans h) hvalid
  · rintro rfl
    exact hspan
  · intro first last hfirst hlast
    have hreach : Reach tokens first.span.start last.span.stop := ⟨by rw [hfirst]; rfl, by rw [hlast]; rfl⟩
    rw [hspan, hreach.programSpan hplaces]

/-- Two groups, one of them with a group inside and items that are separated by two bytes. -/
theorem program_spans_wide_delimiter :
    let root : Tree :=
      { kind := "program", span := ⟨1, 16⟩, children := [
        { kind := "group", span := ⟨1, 13⟩, children := [
          { kind := "integer", span := ⟨2, 4⟩, value := some "10", data := .integer 10 },
          { kind := "group", span := ⟨6, 12⟩, children := [
            { kind := "integer", span := ⟨7, 8⟩, value := some "2", data := .integer 2 },
            { kind := "integer", span := ⟨10, 11⟩, value := some "3", data := .integer 3 }] }] },
        { kind := "group", span := ⟨14, 16⟩ }] }
    let code := " (10·(2·3)) ()\n"
    parse ⟨'·'⟩ code = .ok root ∧ (∀ u ∈ root.preorder, Arena.validSpan code.toList u.span = true) ∧
      (∀ job : Job, job.code = code → job.parsed = parse ⟨'·'⟩ code → Moment.FailsOnlyInTurns job) ∧
      (∀ t ∈ root.children, ∀ u ∈ t.preorder, Stands code.toList u) ∧ ∀ u ∈ root.preorder, u.Encloses := by
  intro root code
  have hd : Separates '·' := isDelimiter_iff.mp (by decide)
  have htokens : tokenize '·' code.toList = .ok [⟨.opening, ⟨1, 2⟩⟩, ⟨.integer ['1', '0'], ⟨2, 4⟩⟩,
      ⟨.delimiter, ⟨4, 6⟩⟩, ⟨.opening, ⟨6, 7⟩⟩, ⟨.integer ['2'], ⟨7, 8⟩⟩, ⟨.delimiter, ⟨8, 10⟩⟩,
      ⟨.integer ['3'], ⟨10, 11⟩⟩, ⟨.closing, ⟨11, 12⟩⟩, ⟨.closing, ⟨12, 13⟩⟩, ⟨.opening, ⟨14, 15⟩⟩,
      ⟨.closing, ⟨15, 16⟩⟩] := by
    simp [code, tokenize, tokenizeAt, Except.map, Char.utf8Size, Text.isBlank, Text.blankRanges]
  have hroot : parse ⟨'·'⟩ code = .ok root := parse_eq_ok_iff.mpr ⟨hd, _, htokens, rfl⟩
  obtain ⟨hvalid, -, hjobs, -, hstands, hencloses, -⟩ := program_spans hroot
  exact ⟨hroot, hvalid, hjobs, hstands, hencloses⟩

end Tuple

end TreeEdit
