import TreeEdit.Proofs.Handle.Heap

/-!
# Handles that are shared

The steps of a bench can be done in memory, where handles are references under names, and nodes may be shared by names and
by other nodes. Which of them share a node depends on all that was done before. It cannot be told from any answer
whether a node was taken over or copied, nor at which free address a cell was put: memory shows a bench (`Memory.Shows`), each
step answers as the step on the bench does, and shows the bench after it (`Memory.Step.shows`).
-/

namespace TreeEdit

/-- Cells, and references to them under names. -/
structure Memory where
  heap : Heap := {}
  names : List (String × Nat) := []

namespace Memory

/-- A reference that is at hand is put under a name, and the one that was there is dropped. -/
def Puts (m : Memory) (name : String) (a : Nat) (m' : Memory) : Prop :=
  ∃ h, Heap.Drops m.heap (m.names.lookup name).toList h ∧ m' = ⟨h, putNamed name a m.names⟩

/-- The reference under a name as one at hand: it is taken from there, or there is one more. -/
def grasp (m : Memory) (name : String) (a : Nat) (keep : Bool) : Memory :=
  if keep then { m with heap := m.heap.retain [a] } else { m with names := eraseNamed name m.names }

/-- The step asks for a handle that is not there. -/
def Lacks (m : Memory) : Bench.Step → Prop
  | .clone source _ | .withValue source .. | .withData source .. | .describe source => m.names.lookup source = none
  | .child source index _ =>
    ∀ a, m.names.lookup source = some a → ∃ c, (a, c) ∈ m.heap.cells ∧ c.children[index]? = none
  | .same first second => m.names.lookup first = none ∨ m.names.lookup second = none
  | .build .. | .leaf .. | .parent .. => False

/-- What a step does in memory, and what it answers. -/
inductive Step : Memory → Bench.Step → Bench.Reply → Memory → Prop
  | build {m m' : Memory} {name : String} {t : Tree} {a : Nat} {h : Heap} (hbuilds : Heap.Builds m.heap t a h)
    (hputs : Puts { m with heap := h } name a m') : Step m (.build name t) .nothing m'
  | leaf {m m' : Memory} {name kind : String} {span : Span} {a : Nat} (hfree : a ∉ m.heap.addresses)
    (hputs : Puts { m with heap := m.heap.alloc a { kind, span } } name a m') : Step m (.leaf name kind span) .nothing m'
  | parent {m m' : Memory} {name kind : String} {span : Span} {children : List String} {as : List Nat} {a : Nat}
    (has : as = children.filterMap fun child => m.names.lookup child) (hfree : a ∉ m.heap.addresses)
    (hputs : Puts { m with heap := (m.heap.retain as).alloc a { kind, span, children := as } } name a m') :
    Step m (.parent name kind span children) .nothing m'
  | clone {m m' : Memory} {source name : String} {a : Nat} (ha : m.names.lookup source = some a)
    (hputs : Puts { m with heap := m.heap.retain [a] } name a m') : Step m (.clone source name) .nothing m'
  | child {m m' : Memory} {source name : String} {index a k : Nat} {c : Cell} (ha : m.names.lookup source = some a)
    (hcell : (a, c) ∈ m.heap.cells) (hk : c.children[index]? = some k)
    (hputs : Puts { m with heap := m.heap.retain [k] } name k m') : Step m (.child source index name) .nothing m'
  | withValue {m m' : Memory} {source name value : String} {keep : Bool} {a a' : Nat} {h : Heap}
    (ha : m.names.lookup source = some a)
    (hrenews : Heap.Renews (Cell.withValue value) (m.grasp source a keep).heap a a' h)
    (hputs : Puts { m.grasp source a keep with heap := h } name a' m') : Step m (.withValue source name value keep) .nothing m'
  | withData {m m' : Memory} {source name : String} {data : NodeData} {keep : Bool} {a a' : Nat} {h : Heap}
    (ha : m.names.lookup source = some a)
    (hrenews : Heap.Renews (Cell.withData data) (m.grasp source a keep).heap a a' h)
    (hputs : Puts { m.grasp source a keep with heap := h } name a' m') : Step m (.withData source name data keep) .nothing m'
  | same {m : Memory} {first second : String} {a a' : Nat} (ha : m.names.lookup first = some a)
    (ha' : m.names.lookup second = some a') : Step m (.same first second) (.same (a == a')) m
  | describe {m : Memory} {source : String} {a : Nat} {t : Tree} (ha : m.names.lookup source = some a)
    (ht : Heap.Reads m.heap a t) : Step m (.describe source) (.tree t) m
  | nothing {m : Memory} {s : Bench.Step} (h : m.Lacks s) : Step m s .nothing m

/-- Steps in order, with what they answer, starting from nothing. -/
inductive Runs : List Bench.Step → List Bench.Reply → Memory → Prop
  | start : Runs [] [] {}
  | next {ss : List Bench.Step} {rs : List Bench.Reply} {m m' : Memory} {s : Bench.Step} {r : Bench.Reply}
    (hruns : Runs ss rs m) (hstep : Step m s r m') : Runs (ss ++ [s]) (rs ++ [r]) m'

/-! ## Memory shows a bench -/

variable {m m' : Memory} {b : Bench} {view : Nat → Handle} {a : Nat} {hand : List Nat} {name : String}

/-- The memory shows the bench, with some references at hand. -/
structure Shows (view : Nat → Handle) (hand : List Nat) (m : Memory) (b : Bench) : Prop where
  counted : m.heap.Counted (hand ++ m.names.map Prod.snd)
  viewed : m.heap.Viewed view b.next
  names : b.handles = m.names.map fun p => (p.1, view p.2)
  distinct : (m.names.map Prod.fst).Nodup

theorem shows_start : Shows (fun _ => default) [] {} {} where
  counted := ⟨.nil, fun _ => rfl, fun _ ha => (nomatch ha)⟩
  viewed := ⟨fun _ _ hcell => (nomatch hcell), fun _ ha => (nomatch ha), fun _ ha => (nomatch ha)⟩
  names := rfl
  distinct := .nil

theorem lookup_map (view : Nat → Handle) (name : String) (names : List (String × Nat)) :
    (names.map fun p => (p.1, view p.2)).lookup name = (names.lookup name).map view := by
  induction names with
  | nil => rfl
  | cons p names ih =>
    rw [List.map_cons, List.lookup_cons, List.lookup_cons]
    split
    · rfl
    · exact ih

namespace Shows

theorem get? (hs : Shows view hand m b) (name : String) : b.get? name = (m.names.lookup name).map view := by
  rw [Bench.get?, hs.names, lookup_map]

theorem mem_addresses (hs : Shows view hand m b) (ha : m.names.lookup name = some a) : a ∈ m.heap.addresses := by
  refine hs.counted.found a (List.mem_append_left _ (List.mem_append_right _ ?_))
  exact List.mem_map.mpr ⟨_, mem_of_lookup ha, rfl⟩

theorem mem_of_names (hs : Shows view hand m b) (children : List String) :
    ∀ x ∈ children.filterMap (fun child => m.names.lookup child), x ∈ m.heap.addresses := by
  intro x hx
  obtain ⟨child, -, hx⟩ := List.mem_filterMap.mp hx
  exact hs.mem_addresses hx

theorem retain (hs : Shows view hand m b) {more : List Nat} (hmore : ∀ a ∈ more, a ∈ m.heap.addresses) :
    Shows view (more ++ hand) { m with heap := m.heap.retain more } b where
  counted := List.append_assoc .. ▸ hs.counted.retain hmore
  viewed := ⟨hs.viewed.cell, hs.viewed.marks, hs.viewed.used⟩
  names := hs.names
  distinct := hs.distinct

theorem take (hs : Shows view [] m b) (ha : m.names.lookup name = some a) :
    Shows view [a] { m with names := eraseNamed name m.names } (b.erase name) where
  counted := hs.counted.perm ((perm_of_lookup hs.distinct ha).map Prod.snd)
  viewed := hs.viewed
  names := by
    rw [Bench.erase, hs.names, eraseNamed, List.filter_map]
    rfl
  distinct := nodup_eraseNamed hs.distinct name

theorem grasp (hs : Shows view [] m b) (ha : m.names.lookup name = some a) (keep : Bool) :
    Shows view [a] (m.grasp name a keep) (if keep then b else b.erase name) := by
  cases keep with
  | false => exact hs.take ha
  | true =>
    have hmem : ∀ x ∈ [a], x ∈ m.heap.addresses := by
      intro x hx
      rw [List.mem_singleton.mp hx]
      exact hs.mem_addresses ha
    exact hs.retain hmem

theorem alloc {c : Cell} (hs : Shows view (c.children ++ hand) m b) (hfree : a ∉ m.heap.addresses) :
    ∃ view', Shows view' (a :: hand) { m with heap := m.heap.alloc a c } { b with next := b.next + 1 } ∧
      view' a = c.handle b.next view := by
  have hc : m.heap.Counted (c.children ++ (hand ++ m.names.map Prod.snd)) := List.append_assoc .. ▸ hs.counted
  have hmark : ∀ x ∈ m.heap.addresses, (view x).mark ≠ b.next := fun x hx => Nat.ne_of_lt (hs.viewed.used x hx)
  refine ⟨_, ⟨hc.alloc hfree, hs.viewed.alloc hc hfree hmark (Nat.le_succ _) (Nat.lt_succ_self _), ?_, hs.distinct⟩,
    Function.update_self ..⟩
  refine hs.names.trans (List.map_congr_left fun p hp => ?_)
  have hne : p.2 ≠ a := fun heq => hfree (heq ▸ hc.found p.2 (by
    exact List.mem_append_left _ (List.mem_append_right _ (List.mem_append_right _ (List.mem_map_of_mem hp)))))
  rw [Function.update_of_ne hne]

theorem perm_putNamed (hs : Shows view [a] m b) (name : String) :
    ([a] ++ m.names.map Prod.snd).Perm ((m.names.lookup name).toList ++ (putNamed name a m.names).map Prod.snd) := by
  cases hlookup : m.names.lookup name with
  | none =>
    have hkept := eraseNamed_of_lookup_none hlookup
    rw [eraseNamed] at hkept
    rw [putNamed, hkept]
    exact List.Perm.refl _
  | some old =>
    have hrest := (perm_of_lookup hs.distinct hlookup).map Prod.snd
    exact (hrest.cons a).trans (List.Perm.swap old a _)

theorem put (hs : Shows view [a] m b) (hputs : m.Puts name a m') : Shows view [] m' (b.put name (view a)) := by
  obtain ⟨h, hdrops, rfl⟩ := hputs
  obtain ⟨hcounted, hsub⟩ := hdrops.counted (hs.counted.perm (hs.perm_putNamed name))
  refine ⟨hcounted, hs.viewed.mono hsub (Nat.le_refl _), ?_, nodup_putNamed hs.distinct name a⟩
  rw [Bench.put, hs.names, putNamed, List.map_cons, List.filter_map]
  rfl

theorem build {t : Tree} {h : Heap} (hs : Shows view [] m b) (hbuilds : Heap.Builds m.heap t a h) :
    ∃ view', Shows view' [a] { m with heap := h } { b with next := (Handle.ofTree t b.next).2 } ∧
      view' a = (Handle.ofTree t b.next).1 := by
  obtain ⟨view', hcounted, hviewed, hshown, hext⟩ :=
    Heap.viewed_of_builds.1 t _ _ _ hbuilds _ view b.next hs.counted hs.viewed
  refine ⟨view', ⟨hcounted, hviewed, ?_, hs.distinct⟩, hshown⟩
  refine hs.names.trans (List.map_congr_left fun p hp => ?_)
  have hmem : p.2 ∈ m.heap.addresses := hs.counted.found p.2 (List.mem_append_left _ (List.mem_map_of_mem hp))
  rw [(hext.kept p.2 hmem).2]

theorem renew {source : String} {keep : Bool} {a' : Nat} {h : Heap} {change : Cell → Cell} (hs : Shows view [] m b)
    (ha : m.names.lookup source = some a) (hrenews : Heap.Renews change (m.grasp source a keep).heap a a' h)
    (hchange : ∀ c, (change c).children = c.children) :
    let b₀ := if keep then b else b.erase source
    ∃ c view', view a = c.handle (view a).mark view ∧ view' a' = (change c).handle b.next view ∧
      Shows view' [a'] { m.grasp source a keep with heap := h } { b₀ with next := b.next + 1 } := by
  intro b₀
  have hgrasp := hs.grasp ha keep
  have hnext : b₀.next = b.next := by cases keep <;> rfl
  obtain ⟨h₀, c, hcell, hsub, hcounted, hfree, rfl⟩ := hrenews.counted hgrasp.counted
  have hleft : Shows view ((change c).children ++ []) { m.grasp source a keep with heap := h₀ } b₀ := by
    refine ⟨?_, hgrasp.viewed.mono hsub (Nat.le_refl _), hgrasp.names, hgrasp.distinct⟩
    rw [hchange, List.append_nil]
    exact hcounted
  obtain ⟨view', hnew, hshown⟩ := hleft.alloc hfree
  rw [hnext] at hnew hshown
  exact ⟨c, view', hgrasp.viewed.cell a c hcell, hshown, hnew⟩

theorem step_of_lacks {s : Bench.Step} (hs : Shows view [] m b) (hlacks : m.Lacks s) : b.step s = (.nothing, b) := by
  have hnone : ∀ name, m.names.lookup name = none → b.get? name = none := by
    intro name hname
    rw [hs.get?, hname]
    rfl
  cases s with
  | build | leaf | parent => exact hlacks.elim
  | clone source name => simp only [Bench.step, hnone source hlacks]
  | withValue source name value keep => simp only [Bench.step, hnone source hlacks]
  | withData source name data keep => simp only [Bench.step, hnone source hlacks]
  | describe source => simp only [Bench.step, hnone source hlacks]
  | same first second =>
    rcases hlacks with h | h
    · simp only [Bench.step, hnone first h]
    · rw [Bench.step, hnone second h]
      cases b.get? first <;> rfl
  | child source index name =>
    have hchild : (b.get? source).bind (·.children[index]?) = none := by
      rw [hs.get?]
      cases ha : m.names.lookup source with
      | none => rfl
      | some a =>
        obtain ⟨c, hcell, hc⟩ := hlacks a ha
        rw [Option.map_some, Option.bind_some, hs.viewed.cell a c hcell, Cell.handle, List.getElem?_map, hc]
        rfl
    simp only [Bench.step, hchild]

end Shows

/-- **One step in memory** answers as the step on the bench does, and shows the bench after it. -/
theorem Step.shows {s : Bench.Step} {r : Bench.Reply} (hstep : Step m s r m') (hs : Shows view [] m b) :
    r = (b.step s).1 ∧ ∃ view', Shows view' [] m' (b.step s).2 := by
  cases hstep with
  | build hbuilds hputs =>
    obtain ⟨view', hnew, hshown⟩ := hs.build hbuilds
    have hput := hnew.put hputs
    rw [hshown] at hput
    exact ⟨rfl, view', hput⟩
  | leaf hfree hputs =>
    obtain ⟨view', hnew, hshown⟩ := Shows.alloc (c := { kind := _, span := _ }) hs hfree
    have hput := hnew.put hputs
    rw [hshown] at hput
    exact ⟨rfl, view', hput⟩
  | @parent _ name kind span children as a has hfree hputs =>
    have hmem : ∀ x ∈ as, x ∈ m.heap.addresses := has ▸ hs.mem_of_names children
    obtain ⟨view', hnew, hshown⟩ := Shows.alloc (c := { kind, span, children := as }) (hs.retain hmem) hfree
    have hput := hnew.put hputs
    have hchildren : as.map view = children.filterMap b.get? := by
      rw [has, List.map_filterMap]
      exact congrArg (List.filterMap · children) (funext fun child => (hs.get? child).symm)
    rw [hshown, Cell.handle, hchildren] at hput
    exact ⟨rfl, view', hput⟩
  | clone ha hputs =>
    have hput := (hs.grasp ha true).put hputs
    rw [Bench.step, hs.get?, ha]
    exact ⟨rfl, view, hput⟩
  | @child _ source name index a k c ha hcell hk hputs =>
    have hmem : ∀ x ∈ [k], x ∈ m.heap.addresses := by
      intro x hx
      rw [List.mem_singleton.mp hx]
      exact hs.counted.found_child hcell (List.mem_of_getElem? hk)
    have hput := (hs.retain hmem).put hputs
    have hchild : (b.get? source).bind (·.children[index]?) = some (view k) := by
      rw [hs.get?, ha, Option.map_some, Option.bind_some, hs.viewed.cell a c hcell, Cell.handle, List.getElem?_map, hk]
      rfl
    rw [Bench.step, hchild]
    exact ⟨rfl, view, hput⟩
  | @withValue _ source name value keep a a' h ha hrenews hputs =>
    obtain ⟨c, view', hcell, hshown, hnew⟩ := hs.renew ha hrenews fun c => rfl
    have hput := hnew.put hputs
    rw [hshown] at hput
    have hget : b.get? source = some (view a) := by rw [hs.get?, ha, Option.map_some]
    rw [Bench.step_withValue hget, hcell]
    cases keep <;> exact ⟨rfl, view', hput⟩
  | @withData _ source name data keep a a' h ha hrenews hputs =>
    obtain ⟨c, view', hcell, hshown, hnew⟩ := hs.renew ha hrenews fun c => rfl
    have hput := hnew.put hputs
    rw [hshown] at hput
    have hget : b.get? source = some (view a) := by rw [hs.get?, ha, Option.map_some]
    rw [Bench.step_withData hget, hcell]
    cases keep <;> exact ⟨rfl, view', hput⟩
  | @same first second a a' ha ha' =>
    have hsame : (view a).same (view a') = (a == a') := by
      rw [Handle.same, Bool.eq_iff_iff, beq_iff_eq, beq_iff_eq]
      exact ⟨hs.viewed.marks a (hs.mem_addresses ha) a' (hs.mem_addresses ha'), fun heq => heq ▸ rfl⟩
    have hbench : b.step (.same first second) = (.same (a == a'), b) := by
      rw [← hsame]
      simp only [Bench.step, hs.get?, ha, ha', Option.map_some]
    rw [hbench]
    exact ⟨rfl, view, hs⟩
  | describe ha ht =>
    rw [Bench.step, hs.get?, ha, hs.viewed.eq_of_reads.1 _ _ ht]
    exact ⟨rfl, view, hs⟩
  | nothing hlacks =>
    rw [hs.step_of_lacks hlacks]
    exact ⟨rfl, view, hs⟩

theorem Shows.exists_puts (hs : Shows view [a] m b) (name : String) : ∃ m', m.Puts name a m' := by
  obtain ⟨h, hdrops⟩ := Heap.exists_drops _ (hs.counted.perm (hs.perm_putNamed name)) hs.viewed
  exact ⟨_, h, hdrops, rfl⟩

theorem Shows.exists_renews {source : String} (hs : Shows view [] m b) (ha : m.names.lookup source = some a) (keep : Bool)
    (name : String) (change : Cell → Cell) (hchange : ∀ c, (change c).children = c.children) :
    ∃ a' h m', Heap.Renews change (m.grasp source a keep).heap a a' h ∧
      Puts { m.grasp source a keep with heap := h } name a' m' := by
  have hmem : a ∈ (m.grasp source a keep).heap.addresses := (hs.grasp ha keep).counted.found a (by simp)
  obtain ⟨a', h, hrenews⟩ := Heap.exists_renews change hmem
  obtain ⟨c, view', -, -, hnew⟩ := hs.renew ha hrenews hchange
  obtain ⟨m', hputs⟩ := hnew.exists_puts name
  exact ⟨a', h, m', hrenews, hputs⟩

theorem Shows.exists_step (hs : Shows view [] m b) (s : Bench.Step) : ∃ r m', Step m s r m' := by
  have hretain : ∀ x ∈ m.heap.addresses, Shows view [x] { m with heap := m.heap.retain [x] } b := by
    intro x hx
    have hmem : ∀ y ∈ [x], y ∈ m.heap.addresses := fun y hy => List.mem_singleton.mp hy ▸ hx
    exact hs.retain hmem
  cases s with
  | build name t =>
    obtain ⟨a, h, hbuilds⟩ := Heap.exists_builds.1 t m.heap
    obtain ⟨view', hnew, -⟩ := hs.build hbuilds
    obtain ⟨m', hputs⟩ := hnew.exists_puts name
    exact ⟨_, m', .build hbuilds hputs⟩
  | leaf name kind span =>
    obtain ⟨a, hfree⟩ := m.heap.exists_free
    obtain ⟨view', hnew, -⟩ := Shows.alloc (c := { kind, span }) hs hfree
    obtain ⟨m', hputs⟩ := hnew.exists_puts name
    exact ⟨_, m', .leaf hfree hputs⟩
  | parent name kind span children =>
    obtain ⟨a, hfree⟩ := m.heap.exists_free
    obtain ⟨view', hnew, -⟩ := Shows.alloc (c := { kind, span, children := _ }) (hs.retain (hs.mem_of_names children)) hfree
    obtain ⟨m', hputs⟩ := hnew.exists_puts name
    exact ⟨_, m', .parent rfl hfree hputs⟩
  | clone source name =>
    cases ha : m.names.lookup source with
    | none => exact ⟨_, m, .nothing ha⟩
    | some a =>
      obtain ⟨m', hputs⟩ := (hretain a (hs.mem_addresses ha)).exists_puts name
      exact ⟨_, m', .clone ha hputs⟩
  | child source index name =>
    cases ha : m.names.lookup source with
    | none => exact ⟨_, m, .nothing fun a ha' => by rw [ha] at ha'; cases ha'⟩
    | some a =>
      obtain ⟨c, hcell⟩ := Heap.exists_cell (hs.mem_addresses ha)
      cases hk : c.children[index]? with
      | none =>
        refine ⟨_, m, .nothing fun a' ha' => ⟨c, ?_, hk⟩⟩
        cases ha.symm.trans ha'
        exact hcell
      | some k =>
        have hmem := hs.counted.found_child hcell (List.mem_of_getElem? hk)
        obtain ⟨m', hputs⟩ := (hretain k hmem).exists_puts name
        exact ⟨_, m', .child ha hcell hk hputs⟩
  | withValue source name value keep =>
    cases ha : m.names.lookup source with
    | none => exact ⟨_, m, .nothing ha⟩
    | some a =>
      obtain ⟨a', h, m', hrenews, hputs⟩ := hs.exists_renews ha keep name (Cell.withValue value) fun c => rfl
      exact ⟨_, m', .withValue ha hrenews hputs⟩
  | withData source name data keep =>
    cases ha : m.names.lookup source with
    | none => exact ⟨_, m, .nothing ha⟩
    | some a =>
      obtain ⟨a', h, m', hrenews, hputs⟩ := hs.exists_renews ha keep name (Cell.withData data) fun c => rfl
      exact ⟨_, m', .withData ha hrenews hputs⟩
  | same first second =>
    cases ha : m.names.lookup first with
    | none => exact ⟨_, m, .nothing (.inl ha)⟩
    | some a =>
      cases ha' : m.names.lookup second with
      | none => exact ⟨_, m, .nothing (.inr ha')⟩
      | some a' => exact ⟨_, m, .same ha ha'⟩
  | describe source =>
    cases ha : m.names.lookup source with
    | none => exact ⟨_, m, .nothing ha⟩
    | some a => exact ⟨_, m, .describe ha ((hs.viewed.reads hs.counted).1 _ a (hs.mem_addresses ha) rfl)⟩

theorem Runs.shows {ss : List Bench.Step} {rs : List Bench.Reply} (hruns : Runs ss rs m) :
    rs = (({} : Bench).steps ss).1 ∧ ∃ view, Shows view [] m (Bench.after ss) := by
  induction hruns with
  | start => exact ⟨rfl, _, shows_start⟩
  | next _ hstep ih =>
    obtain ⟨rfl, view, hs⟩ := ih
    obtain ⟨rfl, hnext⟩ := hstep.shows hs
    rw [Bench.steps_concat, Bench.after_concat]
    exact ⟨rfl, hnext⟩

theorem exists_runs (ss : List Bench.Step) : ∃ rs m, Runs ss rs m := by
  induction ss using List.reverseRecOn with
  | nil => exact ⟨_, _, .start⟩
  | append_singleton ss s ih =>
    obtain ⟨rs, m, hruns⟩ := ih
    obtain ⟨-, view, hs⟩ := hruns.shows
    obtain ⟨r, m', hstep⟩ := hs.exists_step s
    exact ⟨_, m', hruns.next hstep⟩

end Memory

/-! ## Handles as values -/

namespace Bench

/-- A node that takes the place of another: all is equal but what was set, the children are the same nodes, and none that there
ever was is the same node. -/
structure Renewal (ss : List Step) (h h' : Handle) (t : Tree) : Prop where
  tree : h'.tree = t
  children : List.Forall₂ (fun c' c => c'.same c = true) h'.children h.children
  new : ∀ k, Ever ss k → h'.same k = false

theorem forall₂_same (hs : List Handle) : List.Forall₂ (fun c' c => c'.same c = true) hs hs := by
  induction hs with
  | nil => exact .nil
  | cons h hs ih => exact .cons (beq_self_eq_true h.mark) ih

theorem same_of_ever {ss : List Step} {h k : Handle} (hmark : h.mark = (after ss).next) (hk : Ever ss k) :
    h.same k = false := by
  have hlt := ((ever_marked ss).range k hk).2
  exact beq_false_of_ne (by omega)

theorem exists_renewal_withValue {ss : List Step} {source : String} {h : Handle} (hget : (after ss).get? source = some h)
    (name value : String) (keep : Bool) :
    ∃ h', ((after ss).step (.withValue source name value keep)).2.get? name = some h' ∧
      Renewal ss h h' { h.tree with value := some value } := by
  have hnext : (if keep then after ss else (after ss).erase source).next = (after ss).next := by cases keep <;> rfl
  refine ⟨h.withValue (after ss).next value, ?_, ?_, forall₂_same h.children, fun k hk => same_of_ever rfl hk⟩
  · rw [step_withValue hget, ← hnext]
    exact get?_put_self ..
  · cases h
    rfl

theorem exists_renewal_withData {ss : List Step} {source : String} {h : Handle} (hget : (after ss).get? source = some h)
    (name : String) (data : NodeData) (keep : Bool) :
    ∃ h', ((after ss).step (.withData source name data keep)).2.get? name = some h' ∧
      Renewal ss h h' { h.tree with data } := by
  have hnext : (if keep then after ss else (after ss).erase source).next = (after ss).next := by cases keep <;> rfl
  refine ⟨h.withData (after ss).next data, ?_, ?_, forall₂_same h.children, fun k hk => same_of_ever rfl hk⟩
  · rw [step_withData hget, ← hnext]
    exact get?_put_self ..
  · cases h
    rfl

/-- **Handles are values with an identity.** Whatever is built, cloned, taken from among children and set, handles with the
same mark are the same in everything, at all times; and what is under a name stays as it is unless the step puts something
there or takes it away. Setting a value or data gives a node that differs in nothing else, over the same children, and that is
a new one. In memory, where a node that is not shared is taken over and any other one is copied, the steps can all be done, and
the answers are the same. -/
theorem handles_immutable (ss : List Step) :
    (∀ h k, Ever ss h → Ever ss k → h.same k = true → h = k) ∧
    (∀ s name, name ∉ s.changes → ((after ss).step s).2.get? name = (after ss).get? name) ∧
    (∀ source h, (after ss).get? source = some h → ∀ name keep,
      (∀ value, ∃ h', ((after ss).step (.withValue source name value keep)).2.get? name = some h' ∧
        Renewal ss h h' { h.tree with value := some value }) ∧
      ∀ data, ∃ h', ((after ss).step (.withData source name data keep)).2.get? name = some h' ∧
        Renewal ss h h' { h.tree with data }) ∧
    (∃ rs m, Memory.Runs ss rs m) ∧ ∀ rs m, Memory.Runs ss rs m → rs = (({} : Bench).steps ss).1 := by
  refine ⟨fun h k hh hk hsame => ?_, fun s name hname => get?_step_of_not_mem hname, fun source h hget name keep => ?_,
    Memory.exists_runs ss, fun rs m hruns => hruns.shows.1⟩
  · exact (ever_marked ss).unique h k hh hk (beq_iff_eq.mp hsame)
  · exact ⟨fun value => exists_renewal_withValue hget name value keep,
      fun data => exists_renewal_withData hget name data keep⟩

end Bench

end TreeEdit
