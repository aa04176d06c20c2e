import TreeEdit.Proofs.Engine.Overriding
import TreeEdit.Proofs.Tuple.Layout

/-!
# Rewriting a program

When integers of a program are overridden with items, the text that comes out is a program again, and its tree is the
old one with the trees of the items in place of the integers (`rewriting_stays_in_language`).

The reason is that tokens are cut from a text in one way only, wherever white space, a delimiter or a parenthesis stands
between two of them (`Spells.append`), and that nothing else stands beside an integer. So the new text of each phrase can
be cut like the old one, with the tokens of the items where the integers were (`Written.respelled`).
-/

namespace TreeEdit

/-! ## Other trees in the places of nodes -/

theorem Text.between_of_eq {text pre seg post : List Char} {pos stop : Nat} (htext : text = pre ++ (seg ++ post))
    (hpos : Text.size pre = pos) (hstop : pos + Text.size seg = stop) : Text.between text pos stop = seg := by
  subst htext hpos hstop
  exact Text.between_size_append pre seg post

theorem Text.splice_concat (text : List Char) (stop pos : Nat) (edits : List (Span × List Char)) (span : Span)
    (new : List Char) : Text.splice text stop pos (edits ++ [(span, new)]) =
      Text.splice text span.start pos edits ++ (new ++ Text.between text span.stop stop) := by
  induction edits generalizing pos with
  | nil => rfl
  | cons edit edits ih => simp [Text.splice, ih]

namespace Tree

mutual

/-- The tree, whose root has the number `id`, with other trees in the places of those nodes that there is one for. -/
def replaced (new : Nat → Option Tree) (id : Nat) : Tree → Tree
  | ⟨kind, span, value, data, children⟩ =>
    match new id with
    | some t => t
    | none => ⟨kind, span, value, data, replacedList new (id + 1) children⟩

def replacedList (new : Nat → Option Tree) (id : Nat) : List Tree → List Tree
  | [] => []
  | t :: ts => t.replaced new id :: replacedList new (id + t.size) ts

end

theorem replaced_of_none {new : Nat → Option Tree} {id : Nat} (t : Tree) (h : new id = none) :
    t.replaced new id = { t with children := replacedList new (id + 1) t.children } := by
  cases t
  rw [replaced, h]

theorem replaced_of_some {new : Nat → Option Tree} {id : Nat} {u : Tree} (t : Tree) (h : new id = some u) :
    t.replaced new id = u := by
  cases t
  rw [replaced, h]

theorem rewritten_of_some {text : List Char} {last : Nat → Option String} {id : Nat} {new : String} (t : Tree)
    (h : last id = some new) : t.rewritten text last id = new.toList := by
  cases t
  rw [rewritten, h]

theorem replacedList_concat (new : Nat → Option Tree) (id : Nat) (ts : List Tree) (t : Tree) :
    replacedList new id (ts ++ [t]) = replacedList new id ts ++ [t.replaced new (id + sizeList ts)] := by
  induction ts generalizing id with
  | nil => rfl
  | cons u ts ih => simp [replacedList, sizeList, ih, Nat.add_assoc]

theorem rewrittenList_concat (text : List Char) (last : Nat → Option String) (id : Nat) (ts : List Tree) (t : Tree) :
    rewrittenList text last id (ts ++ [t]) =
      rewrittenList text last id ts ++ [(t.span, t.rewritten text last (id + sizeList ts))] := by
  induction ts generalizing id with
  | nil => rfl
  | cons u ts ih => simp [rewrittenList, sizeList, ih, Nat.add_assoc]

theorem postorderList_concat (run : RunId) (key : TreeKey) (id : Nat) (ts : List Tree) (t : Tree) :
    postorderList run key id (ts ++ [t]) =
      postorderList run key id ts ++ t.postorder run key (id + sizeList ts) := by
  induction ts generalizing id with
  | nil => simp [postorderList, sizeList]
  | cons u ts ih => simp [postorderList, sizeList, ih, Nat.add_assoc]

end Tree

namespace Tuple

open Text (size)

variable {d : Char}

/-! ## Cutting what is put together -/

theorem Spells.append {x y : List Char} {kinds kinds' : List Kind} (h : Spells d x kinds) (h' : Spells d y kinds')
    (hy : ∀ c ∈ y.head?, c.isDigit = false) : Spells d (x ++ y) (kinds ++ kinds') := by
  induction h with
  | nil => exact h'
  | blank hc h ih => exact .blank hc ih
  | opening h ih => exact .opening ih
  | closing h ih => exact .closing ih
  | delimiter h ih => exact .delimiter ih
  | @integer digits text kinds hne hdigits hmax h ih =>
    rw [List.append_assoc]
    refine .integer hne hdigits (fun c hc => ?_) ih
    cases text with
    | nil => exact hy c hc
    | cons x text => exact hmax c hc

theorem Spells.digits {digits : List Char} (hne : digits ≠ []) (hdigits : ∀ c ∈ digits, c.isDigit = true) :
    Spells d digits [.integer digits] := by
  have h := @Spells.integer d digits [] [] hne hdigits (fun c hc => (nomatch hc)) .nil
  rwa [List.append_nil] at h

theorem Spells.after_blanks {b x : List Char} {kinds : List Kind} (hb : Blanks b) (h : Spells d x kinds) :
    Spells d (b ++ x) kinds := by
  induction b with
  | nil => exact h
  | cons c b ih =>
    obtain ⟨hc, hb⟩ := List.forall_mem_cons.mp hb
    exact .blank hc (ih hb)

theorem Blanks.spells {b : List Char} (hb : Blanks b) : Spells d b [] := by
  have h := Spells.after_blanks hb (d := d) .nil
  rwa [List.append_nil] at h

/-! ## Items in the places of integers -/

/-- The text is an item, perhaps with white space around it, and the tree is the one of that item, spans aside. -/
def IsItem (d : Char) (text : List Char) (t : Tree) : Prop :=
  ∃ kinds, Spells d text kinds ∧ Derives (.item t.unplaced) kinds

/-- Some nodes, by their numbers, with a text and its tree for each. -/
def Choice : Type :=
  Nat → Option (String × Tree)

def Choice.text (choice : Choice) (id : Nat) : Option String :=
  (choice id).map Prod.fst

def Choice.tree (choice : Choice) (id : Nat) : Option Tree :=
  (choice id).map Prod.snd

/-- Of these nodes only integers are chosen, each with an item. -/
def Choice.Suits (choice : Choice) (d : Char) (nodes : List Node) : Prop :=
  ∀ n ∈ nodes, ∀ text t, choice n.id = some (text, t) → n.tree.kind = "integer" ∧ IsItem d text.toList t

variable {choice : Choice} {run : RunId} {key : TreeKey} {text : List Char}

theorem Choice.Suits.eq_none {id : Nat} {t : Tree} (h : choice.Suits d (t.postorder run key id))
    (hkind : t.kind ≠ "integer") : choice id = none := by
  cases hc : choice id with
  | none => rfl
  | some p => exact absurd (h _ (t.root_mem_postorder id) p.1 p.2 hc).1 hkind

theorem Choice.Suits.children {id : Nat} {t : Tree} (h : choice.Suits d (t.postorder run key id)) :
    choice.Suits d (Tree.postorderList run key (id + 1) t.children) := by
  cases t
  rw [Tree.postorder] at h
  exact fun n hn => h n (List.mem_append_left _ hn)

theorem Choice.Suits.concat {id : Nat} {ts : List Tree} {t : Tree}
    (h : choice.Suits d (Tree.postorderList run key id (ts ++ [t]))) :
    choice.Suits d (Tree.postorderList run key id ts) ∧
      choice.Suits d (t.postorder run key (id + Tree.sizeList ts)) := by
  rw [Tree.postorderList_concat] at h
  exact List.forall_mem_append.mp h

theorem rewritten_of_unchosen {id : Nat} (t : Tree) (h : choice id = none) :
    t.rewritten text choice.text id =
      Text.splice text t.span.stop t.span.start (Tree.rewrittenList text choice.text (id + 1) t.children) :=
  Tree.rewritten_of_none t (by rw [Choice.text, h]; rfl)

theorem replaced_of_unchosen {id : Nat} (t : Tree) (h : choice id = none) :
    t.replaced choice.tree id = { t with children := Tree.replacedList choice.tree (id + 1) t.children } :=
  Tree.replaced_of_none t (by rw [Choice.tree, h]; rfl)

theorem rewritten_group {id : Nat} (ts : List Tree) (span : Span) (h : choice id = none) :
    ({ groupTree ts with span } : Tree).rewritten text choice.text id =
      Text.splice text span.stop span.start (Tree.rewrittenList text choice.text (id + 1) ts) :=
  rewritten_of_unchosen _ h

theorem replaced_group {id : Nat} (ts : List Tree) (span : Span) (h : choice id = none) :
    (({ groupTree ts with span } : Tree).replaced choice.tree id).unplaced =
      groupTree ((Tree.replacedList choice.tree (id + 1) ts).map Tree.unplaced) := by
  rw [replaced_of_unchosen _ h]
  simp [groupTree, Tree.unplaced, Tree.unplacedList_eq_map]

/-- Whatever is around, the edits put the new text in the place of what is between the two offsets. -/
def Spliced (text : List Char) (pos stop : Nat) (edits : List (Span × List Char)) (new : List Char) : Prop :=
  ∀ start' stop', Text.splice text stop' start' edits =
    Text.between text start' pos ++ (new ++ Text.between text stop stop')

theorem Spliced.single {pos stop : Nat} {span : Span} (h : span = ⟨pos, stop⟩) (new : List Char) :
    Spliced text pos stop [(span, new)] new := by
  subst h
  exact fun start' stop' => rfl

theorem Spliced.concat {last : Nat → Option String} {pos id : Nat} {ts : List Tree} {t : Tree}
    {old pre seg sep seg' post : List Char}
    (h : Spliced text pos (pos + size seg) (Tree.rewrittenList text last id ts) old)
    (htext : text = pre ++ (seg ++ (sep ++ (seg' ++ post)))) (hpre : size pre = pos)
    (hspan : t.span = ⟨pos + size (seg ++ sep), pos + size (seg ++ sep) + size seg'⟩) :
    Spliced text pos (pos + size (seg ++ (sep ++ seg'))) (Tree.rewrittenList text last id (ts ++ [t]))
      (old ++ (sep ++ t.rewritten text last (id + Tree.sizeList ts))) := by
  have hsep : Text.between text (pos + size seg) (pos + size (seg ++ sep)) = sep :=
    Text.between_of_eq (htext.trans (List.append_assoc _ _ _).symm) (by simp [hpre]) (by simp [Nat.add_assoc])
  have hstop : pos + size (seg ++ sep) + size seg' = pos + size (seg ++ (sep ++ seg')) := by
    simp [Nat.add_assoc]
  intro start' stop'
  rw [Tree.rewrittenList_concat, Text.splice_concat, hspan, h, hsep, hstop]
  simp

def Phrase.nodes (run : RunId) (key : TreeKey) (id : Nat) : Phrase → List Node
  | .item t | .group t | .program t => t.postorder run key id
  | .items ts | .groups ts => Tree.postorderList run key id ts

/-- What the phrase between two offsets is rewritten to consists of the tokens of the phrase with the chosen trees in
their places. A group begins with its parenthesis, so it can follow anything. -/
def Phrase.Respelled (d : Char) (choice : Choice) (text : List Char) (pos stop id : Nat) : Phrase → Prop
  | .item t => ∃ kinds, Spells d (t.rewritten text choice.text id) kinds ∧
    Derives (.item (t.replaced choice.tree id).unplaced) kinds
  | .items ts => ∃ new kinds, Spliced text pos stop (Tree.rewrittenList text choice.text id ts) new ∧
    Spells d new kinds ∧ Derives (.items ((Tree.replacedList choice.tree id ts).map Tree.unplaced)) kinds
  | .group t => ∃ kinds, Spells d (t.rewritten text choice.text id) kinds ∧
    Derives (.group (t.replaced choice.tree id).unplaced) kinds ∧
    (t.rewritten text choice.text id).head? = some '('
  | .groups ts => ts ≠ [] → ∃ new kinds, Spliced text pos stop (Tree.rewrittenList text choice.text id ts) new ∧
    Spells d new kinds ∧ Derives (.groups ((Tree.replacedList choice.tree id ts).map Tree.unplaced)) kinds
  | .program _ => True

theorem Written.respelled (hd : Separates d) {pos : Nat} {seg : List Char} {p : Phrase} (h : Written d pos seg p)
    {pre post : List Char} (htext : text = pre ++ (seg ++ post)) (hpre : size pre = pos) {id : Nat}
    (hsuits : choice.Suits d (p.nodes run key id)) : p.Respelled d choice text pos (pos + size seg) id := by
  have hdelimiter : d.isDigit = false := by
    rw [Bool.eq_false_iff, ne_eq, isDigit_iff]
    exact hd.1
  induction h generalizing pre post id with
  | @integer pos digits hne hdigits hvalue =>
    cases hc : choice id with
    | none =>
      have hkept : Text.between text pos (pos + size digits) = digits := Text.between_of_eq htext hpre rfl
      refine ⟨[.integer digits], ?_, ?_⟩
      · rw [rewritten_of_unchosen _ hc]
        show Spells d (Text.between text pos (pos + size digits)) _
        rw [hkept]
        exact .digits hne hdigits
      · rw [replaced_of_unchosen _ hc]
        exact .integer hvalue
    | some chosen =>
      obtain ⟨new, t⟩ := chosen
      obtain ⟨-, kinds, hspells, hderives⟩ := hsuits _ (Tree.root_mem_postorder _ id) new t hc
      refine ⟨kinds, ?_, ?_⟩
      · rwa [Tree.rewritten_of_some _ (show choice.text id = some new by rw [Choice.text, hc]; rfl)]
      · rwa [Tree.replaced_of_some _ (show choice.tree id = some t by rw [Choice.tree, hc]; rfl)]
  | nested h ih =>
    obtain ⟨kinds, hspells, hderives, -⟩ := ih htext hpre hsuits
    exact ⟨kinds, hspells, hderives.nested⟩
  | @first pos seg t h ih =>
    have hone : choice.Suits d (t.postorder run key id) := by simpa [Phrase.nodes, Tree.postorderList] using hsuits
    obtain ⟨kinds, hspells, hderives⟩ := ih htext hpre hone
    exact ⟨_, kinds, .single (h.liesIn htext hpre).1 _, hspells, hderives.first⟩
  | @next pos seg b b' seg' ts t hs hb hb' h ihs ih =>
    obtain ⟨hsuits, hsuits'⟩ := Choice.Suits.concat hsuits
    have htext₁ : text = pre ++ (seg ++ ((b ++ d :: b') ++ (seg' ++ post))) := by simp [htext]
    have htext₂ : text = (pre ++ (seg ++ (b ++ d :: b'))) ++ (seg' ++ post) := by simp [htext]
    have hpre₂ : size (pre ++ (seg ++ (b ++ d :: b'))) = pos + size (seg ++ (b ++ d :: b')) := by simp [hpre]
    obtain ⟨new, kinds, hspliced, hspells, hderives⟩ := ihs htext₁ hpre hsuits
    obtain ⟨kinds', hspells', hderives'⟩ := ih htext₂ hpre₂ hsuits'
    refine ⟨_, kinds ++ .delimiter :: kinds',
      hspliced.concat htext₁ hpre (h.liesIn htext₂ hpre₂).1, hspells.append ?_ ?_, ?_⟩
    · rw [List.append_assoc, List.cons_append]
      exact .after_blanks hb (.delimiter (.after_blanks hb' hspells'))
    · rw [List.append_assoc]
      refine hb.head_append fun c hc => ?_
      cases hc
      exact hdelimiter
    · rw [Tree.replacedList_concat, List.map_append]
      exact hderives.next hderives'
  | @empty pos b hb =>
    have hc : choice id = .none := Choice.Suits.eq_none hsuits (show "group" ≠ "integer" by decide)
    have hkept : Text.between text pos (pos + size ('(' :: (b ++ [')']))) = '(' :: (b ++ [')']) :=
      Text.between_of_eq htext hpre rfl
    have hsame := (rewritten_group [] ⟨pos, _⟩ hc).trans hkept
    refine ⟨[.opening, .closing], ?_, ?_, ?_⟩
    · rw [hsame]
      exact .opening (.after_blanks hb (.closing .nil))
    · rw [replaced_group _ _ hc]
      exact .empty
    · rw [hsame]
      rfl
  | @filled pos b seg b' ts hb hb' h ih =>
    have hc : choice id = .none := Choice.Suits.eq_none hsuits (show "group" ≠ "integer" by decide)
    have htext₁ : text = pre ++ (('(' :: b) ++ (seg ++ (b' ++ [')']) ++ post)) := by simp [htext]
    have htext₂ : text = (pre ++ '(' :: b) ++ (seg ++ ((b' ++ [')']) ++ post)) := by simp [htext]
    have htext₃ : text = (pre ++ ('(' :: b ++ seg)) ++ ((b' ++ [')']) ++ post) := by simp [htext]
    obtain ⟨new, kinds, hspliced, hspells, hderives⟩ := ih htext₂ (by simp [hpre]) (Choice.Suits.children hsuits)
    have hfront : Text.between text pos (pos + size ('(' :: b)) = '(' :: b := Text.between_of_eq htext₁ hpre rfl
    have hback : Text.between text (pos + size ('(' :: b) + size seg)
        (pos + size ('(' :: b ++ (seg ++ (b' ++ [')'])))) = b' ++ [')'] :=
      Text.between_of_eq htext₃ (by simp [hpre, Nat.add_assoc]) (by simp [Nat.add_assoc])
    have hnew := (rewritten_group ts ⟨pos, pos + size ('(' :: b ++ (seg ++ (b' ++ [')'])))⟩ hc).trans (hspliced _ _)
    simp only [hfront, hback] at hnew
    refine ⟨.opening :: (kinds ++ [.closing]), ?_, ?_, ?_⟩
    · rw [hnew]
      refine .opening (.after_blanks hb (hspells.append (.after_blanks hb' (.closing .nil)) ?_))
      refine hb'.head_append fun c hc => ?_
      cases hc
      rfl
    · rw [replaced_group _ _ hc]
      exact hderives.filled
    · rw [hnew]
      rfl
  | none => exact fun hne => absurd rfl hne
  | @single pos seg t h ih =>
    have hone : choice.Suits d (t.postorder run key id) := by simpa [Phrase.nodes, Tree.postorderList] using hsuits
    obtain ⟨kinds, hspells, hderives, -⟩ := ih htext hpre hone
    exact fun _ => ⟨_, kinds, .single (h.liesIn htext hpre).1 _, hspells, .more .none hderives⟩
  | @more pos seg b seg' ts t hne hs hb h ihs ih =>
    obtain ⟨hsuits, hsuits'⟩ := Choice.Suits.concat hsuits
    have htext₁ : text = pre ++ (seg ++ (b ++ (seg' ++ post))) := by simp [htext]
    have htext₂ : text = (pre ++ (seg ++ b)) ++ (seg' ++ post) := by simp [htext]
    have hpre₂ : size (pre ++ (seg ++ b)) = pos + size (seg ++ b) := by simp [hpre]
    obtain ⟨new, kinds, hspliced, hspells, hderives⟩ := ihs htext₁ hpre hsuits hne
    obtain ⟨kinds', hspells', hderives', hhead⟩ := ih htext₂ hpre₂ hsuits'
    refine fun _ => ⟨_, kinds ++ kinds', hspliced.concat htext₁ hpre (h.liesIn htext₂ hpre₂).1,
      hspells.append (.after_blanks hb hspells') ?_, ?_⟩
    · refine hb.head_append fun c hc => ?_
      cases hhead.symm.trans hc
      rfl
    · rw [Tree.replacedList_concat, List.map_append]
      exact hderives.more hderives'
  | blank hb => trivial
  | program hne hb hb' h ih => trivial

/-! ## The language -/

theorem exists_parse (hd : Separates d) {kinds : List Kind} {t : Tree} (hspells : Spells d text kinds)
    (hderives : Derives (.program t) kinds) : ∃ u, parse ⟨d⟩ (String.ofList text) = .ok u ∧ u.unplaced = t := by
  obtain ⟨tokens, htokens, rfl⟩ := (spells_iff hd).mp hspells
  obtain ⟨u, hu, hparse⟩ := parseTokens_iff.mpr hderives
  rw [← String.toList_ofList (l := text)] at htokens
  exact ⟨u, parse_eq_ok_iff.mpr ⟨hd, tokens, htokens, hparse⟩, hu⟩

theorem Written.kind_program {pos : Nat} {seg : List Char} {root : Tree} (h : Written d pos seg (.program root)) :
    root.kind = "program" := by
  cases h with
  | blank => rfl
  | program => rfl

theorem Written.program_respelled (hd : Separates d) {root : Tree} (h : Written d 0 text (.program root))
    (hne : root.children ≠ []) (hsuits : choice.Suits d (root.postorder run key 0)) :
    ∃ kinds, Spells d (Text.splice text (size text) 0 [(root.span, root.rewritten text choice.text 0)]) kinds ∧
      Derives (.program (root.replaced choice.tree 0).unplaced) kinds := by
  have hc : choice 0 = .none := hsuits.eq_none (by rw [h.kind_program]; decide)
  cases h with
  | blank hb => exact absurd rfl hne
  | @program _ b seg b' ts hts hb hb' h =>
    simp only [Nat.zero_add] at h hsuits ⊢
    have htext : b ++ (seg ++ b') = b ++ (seg ++ b') := rfl
    obtain ⟨new, kinds, hspliced, hspells, hderives⟩ := h.respelled hd htext rfl hsuits.children hts
    have hfront : Text.between (b ++ (seg ++ b')) 0 (size b) = b :=
      Text.between_of_eq (List.nil_append _).symm rfl (Nat.zero_add _)
    have hback : Text.between (b ++ (seg ++ b')) (size b + size seg) (size (b ++ (seg ++ b'))) = b' :=
      Text.between_of_eq (show _ = (b ++ seg) ++ (b' ++ []) by simp) (by simp) (by simp [Nat.add_assoc])
    have hroot := (rewritten_of_unchosen { programTree ts with span := ⟨size b, size b + size seg⟩ } hc).trans
      (hspliced _ _)
    simp only [Text.between_self, List.nil_append, List.append_nil] at hroot
    refine ⟨kinds, ?_, ?_⟩
    · rw [hroot, Text.splice, Text.splice]
      simp only [hfront, hback]
      have hall := Spells.after_blanks hb (hspells.append hb'.spells hb'.not_digit)
      simpa using hall
    · rw [replaced_of_unchosen _ hc]
      have hprogram := hderives.program
      simpa [programTree, Tree.unplaced, Tree.unplacedList_eq_map] using hprogram

theorem Written.fits {root : Tree} (h : Written d 0 text (.program root)) :
    (∀ u ∈ root.preorder, Arena.validSpan text u.span = true) ∧ (root.children ≠ [] → root.Fits text) := by
  have htext : text = [] ++ (text ++ []) := by simp
  obtain ⟨hnested, hvalid⟩ := h.liesIn htext rfl
  exact ⟨hvalid, fun hne => ⟨hnested hne, hvalid⟩⟩

/-- All that is chosen are integers of the tree, each with an item. -/
def Choice.OfIntegers (choice : Choice) (d : Char) (root : Tree) : Prop :=
  ∀ id text t, choice id = some (text, t) →
    (∃ u, root.preorder[id]? = some u ∧ u.kind = "integer") ∧ IsItem d text.toList t

theorem Choice.OfIntegers.suits {root : Tree} (h : choice.OfIntegers d root) :
    choice.Suits d (root.postorder run key 0) := by
  intro n hn text t hc
  obtain ⟨⟨u, hu, hkind⟩, hitem⟩ := h n.id text t hc
  rw [Tree.getElem?_preorder hn] at hu
  cases hu
  exact ⟨hkind, hitem⟩

theorem Choice.OfIntegers.eq_none {pos : Nat} {seg : List Char} {root : Tree} (h : choice.OfIntegers d root)
    (hroot : Written d pos seg (.program root)) (hchildren : root.children = []) (id : Nat) : choice id = none := by
  cases hc : choice id with
  | none => rfl
  | some chosen =>
    obtain ⟨⟨u, hu, hkind⟩, -⟩ := h id chosen.1 chosen.2 hc
    have hmem := List.mem_of_getElem? hu
    rw [Tree.preorder_eq, hchildren, List.flatMap_nil, List.mem_singleton] at hmem
    rw [hmem, hroot.kind_program] at hkind
    exact absurd hkind (by decide)

/-- **Rewriting stays in the language.** Let a job have a program to read, with whatever delimiter, and let some of its
integers be chosen, each with the text and the tree of an item. The transformation that overrides just these integers
gives a text which is a program again, and its tree, spans aside, is the old one with the trees of the items in place of
the integers. -/
theorem rewriting_stays_in_language (s : Session) (job : Job) (d : Char) (root : Tree) (choice : Choice)
    (hparsed : job.parsed = parse ⟨d⟩ job.code) (hready : job.parsePolls = none)
    (hroot : parse ⟨d⟩ job.code = .ok root) (hchoice : choice.OfIntegers d root) :
    ∃ report tree, (∀ polls, (s.transform job (overriding choice.text) polls).1 = some (.ok report)) ∧
      parse ⟨d⟩ report.code = .ok tree ∧ tree.unplaced = (root.replaced choice.tree 0).unplaced := by
  have hd : Separates d := (parse_eq_ok_iff.mp hroot).1
  have hwritten := written_of_parse hroot
  obtain ⟨hvalid, hfits⟩ := hwritten.fits
  have hnone : root.children = [] → ∀ id, choice.text id = none := fun hchildren id => by
    rw [Choice.text, hchoice.eq_none hwritten hchildren id]
    rfl
  obtain ⟨report, hstart, hrewritten, hsame⟩ := Session.start_overriding (hparsed.trans hroot) hready hvalid
    (fun id hid => hfits fun hchildren => hid (hnone hchildren id)) s
  have htransform := Session.transform_of_finished hstart
  by_cases hchildren : root.children = []
  · -- without groups there is nothing to choose, and the text is the same
    refine ⟨report, root, htransform, by rw [hsame (hnone hchildren), hroot], ?_⟩
    rw [replaced_of_unchosen root (hchoice.eq_none hwritten hchildren 0), hchildren]
    obtain ⟨kind, span, value, data, children⟩ := root
    subst hchildren
    rfl
  · have hsuits : choice.Suits d (root.postorder 0 (.ofRun 0) 0) := hchoice.suits
    obtain ⟨kinds, hspells, hderives⟩ := hwritten.program_respelled hd hchildren hsuits
    obtain ⟨tree, hparse, htree⟩ := exists_parse hd hspells hderives
    exact ⟨report, tree, htransform, by rw [hrewritten (hfits hchildren), hparse], htree⟩

/-- With a delimiter of two bytes, an integer becomes a group, and another one an integer with white space around it. -/
theorem rewriting_stays_in_language_wide_delimiter :
    let adapter : Adapter := { name := "tuple", isNode := fun _ => true }
    let root : Tree :=
      { kind := "program", span := ⟨0, 12⟩, children := [
        { kind := "group", span := ⟨0, 12⟩, children := [
          { kind := "integer", span := ⟨1, 3⟩, value := some "10", data := .integer 10 },
          { kind := "group", span := ⟨5, 11⟩, children := [
            { kind := "integer", span := ⟨6, 7⟩, value := some "2", data := .integer 2 },
            { kind := "integer", span := ⟨9, 10⟩, value := some "3", data := .integer 3 }] }] }] }
    let job : Job :=
      { name := "job", binding := 0, code := "(10·(2·3))\n", parsePolls := none,
        parsed := parse ⟨'·'⟩ "(10·(2·3))\n", sharedTree := false, map := {}, lookups := [] }
    let digit : Char → Nat → Tree := fun c n =>
      { kind := "integer", span := .empty 0, value := some (String.ofList [c]), data := .integer n }
    let choice : Choice := fun id =>
      if id = 2 then some ("(7·8)", groupTree [digit '7' 7, digit '8' 8])
      else if id = 5 then some (" 9 ", digit '9' 9) else none
    let s : Session := { bindings := #[{ adapter }] }
    parse ⟨'·'⟩ job.code = .ok root ∧ choice.OfIntegers '·' root ∧
      ∃ report tree, (∀ polls, (s.transform job (overriding choice.text) polls).1 = some (.ok report)) ∧
        parse ⟨'·'⟩ report.code = .ok tree ∧ tree.unplaced = (root.replaced choice.tree 0).unplaced := by
  intro adapter root job digit choice s
  have hd : Separates '·' := isDelimiter_iff.mp (by decide)
  have htokens : tokenize '·' job.code.toList = .ok [⟨.opening, ⟨0, 1⟩⟩, ⟨.integer ['1', '0'], ⟨1, 3⟩⟩,
      ⟨.delimiter, ⟨3, 5⟩⟩, ⟨.opening, ⟨5, 6⟩⟩, ⟨.integer ['2'], ⟨6, 7⟩⟩, ⟨.delimiter, ⟨7, 9⟩⟩,
      ⟨.integer ['3'], ⟨9, 10⟩⟩, ⟨.closing, ⟨10, 11⟩⟩, ⟨.closing, ⟨11, 12⟩⟩] := by
    simp [job, tokenize, tokenizeAt, Except.map, Char.utf8Size, Text.isBlank, Text.blankRanges]
  have hroot : parse ⟨'·'⟩ job.code = .ok root := parse_eq_ok_iff.mpr ⟨hd, _, htokens, rfl⟩
  have h₇ := derives_of_integer (show integer ['7'] (.empty 0) = .ok (digit '7' 7) from rfl)
  have h₈ := derives_of_integer (show integer ['8'] (.empty 0) = .ok (digit '8' 8) from rfl)
  have h₉ := derives_of_integer (show integer ['9'] (.empty 0) = .ok (digit '9' 9) from rfl)
  have hgroup : IsItem '·' "(7·8)".toList (groupTree [digit '7' 7, digit '8' 8]) := by
    refine ⟨_, (spells_iff hd).mpr ⟨[⟨.opening, ⟨0, 1⟩⟩, ⟨.integer ['7'], ⟨1, 2⟩⟩, ⟨.delimiter, ⟨2, 4⟩⟩,
      ⟨.integer ['8'], ⟨4, 5⟩⟩, ⟨.closing, ⟨5, 6⟩⟩], ?_, rfl⟩, (h₇.first.next h₈).filled.nested⟩
    simp [tokenize, tokenizeAt, Except.map, Char.utf8Size]
  have hinteger : IsItem '·' " 9 ".toList (digit '9' 9) := by
    refine ⟨_, (spells_iff hd).mpr ⟨[⟨.integer ['9'], ⟨1, 2⟩⟩], ?_, rfl⟩, h₉⟩
    simp [tokenize, tokenizeAt, Except.map, Char.utf8Size, Text.isBlank, Text.blankRanges]
  have hchoice : choice.OfIntegers '·' root := by
    intro id text t hc
    by_cases h₂ : id = 2
    · subst h₂
      cases hc
      exact ⟨⟨_, rfl, rfl⟩, hgroup⟩
    · by_cases h₅ : id = 5
      · subst h₅
        cases hc
        exact ⟨⟨_, rfl, rfl⟩, hinteger⟩
      · simp [choice, h₂, h₅] at hc
  exact ⟨hroot, hchoice, rewriting_stays_in_language s job '·' root choice rfl rfl hroot hchoice⟩

end Tuple

end TreeEdit
