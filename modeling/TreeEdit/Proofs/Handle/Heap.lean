import Mathlib.Data.Fintype.EquivFin
import Mathlib.Data.List.Perm.Basic
import TreeEdit.Proofs.Handle.Identity

/-!
# Nodes in memory

In memory a node is a cell, which has the addresses of its children and not the children. A handle is a reference to a cell,
and the references to each cell are counted. Setting a value or data gives a reference to a new cell; but when nothing else
refers to the old cell, that one is taken over, and only otherwise copied (`Heap.Renews`).

The counts are right at all times (`Heap.Counted`), so a cell with a count of one has no other references to it. Therefore
both ways come to the same (`Heap.Renews.counted`). Each address that is in use shows a handle (`Heap.Viewed`), different ones
show different handles, and a new cell does not change what the others show (`Heap.Viewed.alloc`).
-/

namespace TreeEdit

/-- What memory has of a node: its fields, and where its children are. -/
structure Cell where
  kind : String
  span : Span
  value : Option String := none
  data : NodeData := .none
  children : List Nat := []

namespace Cell

def withValue (value : String) (c : Cell) : Cell :=
  { c with value := some value }

def withData (data : NodeData) (c : Cell) : Cell :=
  { c with data }

/-- The handle that a cell shows, when its children show theirs. -/
def handle (c : Cell) (mark : Nat) (view : Nat → Handle) : Handle :=
  ⟨mark, c.kind, c.span, c.value, c.data, c.children.map view⟩

end Cell

/-- Cells at addresses, and how many references there are to each address. -/
structure Heap where
  cells : List (Nat × Cell) := []
  counts : Nat → Nat := fun _ => 0

namespace Heap

def addresses (h : Heap) : List Nat :=
  h.cells.map Prod.fst

def references (h : Heap) : List Nat :=
  h.cells.flatMap (·.2.children)

/-- More references to cells that are there. -/
def retain (h : Heap) (more : List Nat) : Heap :=
  { h with counts := fun x => h.counts x + more.count x }

def release (h : Heap) (a : Nat) : Heap :=
  { h with counts := fun x => if x = a then h.counts x - 1 else h.counts x }

def free (h : Heap) (a : Nat) : Heap :=
  ⟨h.cells.filter (·.1 != a), fun x => if x = a then 0 else h.counts x⟩

def alloc (h : Heap) (a : Nat) (c : Cell) : Heap :=
  ⟨(a, c) :: h.cells, fun x => if x = a then 1 else h.counts x⟩

/-- References are dropped. With the last reference to a cell the cell goes, and its own references are dropped too. -/
inductive Drops : Heap → List Nat → Heap → Prop
  | done {h : Heap} : Drops h [] h
  | shared {h h' : Heap} {a : Nat} {rest : List Nat} (hcount : 1 < h.counts a) (hrest : Drops (h.release a) rest h') :
    Drops h (a :: rest) h'
  | last {h h' : Heap} {a : Nat} {c : Cell} {rest : List Nat} (hcell : (a, c) ∈ h.cells) (hcount : h.counts a = 1)
    (hrest : Drops (h.free a) (c.children ++ rest) h') : Drops h (a :: rest) h'

/-- A reference is given up for one to a cell that differs by `change`. A cell without other references to it is taken over,
from any other one a copy is made. -/
inductive Renews (change : Cell → Cell) : Heap → Nat → Nat → Heap → Prop
  | takenOver {h : Heap} {a a' : Nat} {c : Cell} (hcell : (a, c) ∈ h.cells) (hcount : h.counts a = 1)
    (hfree : a' ∉ (h.free a).addresses) : Renews change h a a' ((h.free a).alloc a' (change c))
  | copied {h : Heap} {a a' : Nat} {c : Cell} (hcell : (a, c) ∈ h.cells) (hcount : h.counts a ≠ 1)
    (hfree : a' ∉ h.addresses) : Renews change h a a' (((h.retain c.children).release a).alloc a' (change c))

mutual

/-- A tree is built, children first, at addresses that are not in use. -/
inductive Builds : Heap → Tree → Nat → Heap → Prop
  | node {h h' : Heap} {kind : String} {span : Span} {value : Option String} {data : NodeData} {children : List Tree}
    {addresses : List Nat} {a : Nat} (hchildren : BuildsAll h children addresses h') (hfree : a ∉ h'.addresses) :
    Builds h ⟨kind, span, value, data, children⟩ a (h'.alloc a ⟨kind, span, value, data, addresses⟩)

inductive BuildsAll : Heap → List Tree → List Nat → Heap → Prop
  | nil {h : Heap} : BuildsAll h [] [] h
  | cons {h h₁ h₂ : Heap} {t : Tree} {ts : List Tree} {a : Nat} {addresses : List Nat} (hfirst : Builds h t a h₁)
    (hrest : BuildsAll h₁ ts addresses h₂) : BuildsAll h (t :: ts) (a :: addresses) h₂

end

mutual

/-- What is read from an address on. -/
inductive Reads (h : Heap) : Nat → Tree → Prop
  | node {a : Nat} {c : Cell} {ts : List Tree} (hcell : (a, c) ∈ h.cells) (hchildren : ReadsAll h c.children ts) :
    Reads h a ⟨c.kind, c.span, c.value, c.data, ts⟩

inductive ReadsAll (h : Heap) : List Nat → List Tree → Prop
  | nil : ReadsAll h [] []
  | cons {a : Nat} {addresses : List Nat} {t : Tree} {ts : List Tree} (hfirst : Reads h a t)
    (hrest : ReadsAll h addresses ts) : ReadsAll h (a :: addresses) (t :: ts)

end

variable {h h' : Heap} {a : Nat} {c : Cell} {roots more : List Nat}

/-! ## Counts -/

/-- Each count is the number of references, the given ones and those of cells, and all of them lead to cells. -/
structure Counted (h : Heap) (roots : List Nat) : Prop where
  nodup : h.addresses.Nodup
  counts : ∀ a, h.counts a = (roots ++ h.references).count a
  found : ∀ a ∈ roots ++ h.references, a ∈ h.addresses

theorem Counted.found_child (hc : h.Counted roots) (hcell : (a, c) ∈ h.cells) {x : Nat} (hx : x ∈ c.children) :
    x ∈ h.addresses :=
  hc.found x (List.mem_append_right roots (List.mem_flatMap.mpr ⟨(a, c), hcell, hx⟩))

theorem Counted.perm (hc : h.Counted roots) (hperm : roots.Perm more) : h.Counted more := by
  have happend : (roots ++ h.references).Perm (more ++ h.references) := hperm.append_right _
  exact ⟨hc.nodup, fun a => (hc.counts a).trans (happend.count_eq a), fun a ha => hc.found a (happend.mem_iff.mpr ha)⟩

theorem Counted.retain (hc : h.Counted roots) (hmore : ∀ a ∈ more, a ∈ h.addresses) :
    (h.retain more).Counted (more ++ roots) := by
  refine ⟨hc.nodup, fun a => ?_, fun a ha => ?_⟩
  · have := hc.counts a
    simp only [Heap.retain, references, List.count_append] at this ⊢
    omega
  · rw [List.append_assoc] at ha
    rcases List.mem_append.mp ha with ha | ha
    · exact hmore a ha
    · exact hc.found a ha

theorem Counted.release (hc : h.Counted (a :: roots)) : (h.release a).Counted roots := by
  refine ⟨hc.nodup, fun x => ?_, fun x hx => hc.found x (List.mem_cons_of_mem a hx)⟩
  have hcount := hc.counts x
  rw [List.cons_append, List.count_cons] at hcount
  by_cases hx : x = a
  · subst hx
    simp only [Heap.release, beq_self_eq_true, if_true] at hcount ⊢
    rw [hcount]
    rfl
  · simp only [Heap.release, if_neg hx]
    rw [hcount, if_neg (by simpa using Ne.symm hx)]
    rfl

theorem Counted.references_perm (hc : h.Counted roots) (hcell : (a, c) ∈ h.cells) :
    h.references.Perm (c.children ++ (h.free a).references) := by
  have hperm := (perm_of_mem hc.nodup hcell).flatMap fun p _ => List.Perm.refl p.2.children
  exact hperm

theorem Counted.free (hc : h.Counted (a :: roots)) (hcell : (a, c) ∈ h.cells) (hcount : h.counts a = 1) :
    (h.free a).Counted (c.children ++ roots) := by
  have hperm : (a :: roots ++ h.references).Perm (a :: (c.children ++ roots ++ (h.free a).references)) := by
    refine List.Perm.cons a ?_
    calc roots ++ h.references
      _ |>.Perm (roots ++ (c.children ++ (h.free a).references)) := (hc.references_perm hcell).append_left roots
      _ |>.Perm (c.children ++ roots ++ (h.free a).references) := by
        rw [← List.append_assoc]
        exact List.perm_append_comm.append_right _
  have hnone : a ∉ c.children ++ roots ++ (h.free a).references := by
    rw [hc.counts a, hperm.count_eq a, List.count_cons_self] at hcount
    exact List.count_eq_zero.mp (by omega)
  refine ⟨(List.filter_sublist.map Prod.fst).nodup hc.nodup, fun x => ?_, fun x hx => ?_⟩
  · by_cases hx : x = a
    · subst hx
      rw [List.count_eq_zero.mpr hnone]
      simp [Heap.free]
    · have hcounts := hc.counts x
      rw [hperm.count_eq x, List.count_cons_of_ne (Ne.symm hx)] at hcounts
      simp only [Heap.free, if_neg hx, hcounts]
  · have hne : x ≠ a := fun heq => hnone (heq ▸ hx)
    have hmem := hc.found x (hperm.mem_iff.mpr (List.mem_cons_of_mem a hx))
    obtain ⟨p, hp, rfl⟩ := List.mem_map.mp hmem
    exact List.mem_map_of_mem (List.mem_filter.mpr ⟨hp, by simpa using hne⟩)

theorem Counted.alloc (hc : h.Counted (c.children ++ roots)) (hfree : a ∉ h.addresses) :
    (h.alloc a c).Counted (a :: roots) := by
  have hperm : (a :: roots ++ (h.alloc a c).references).Perm (a :: (c.children ++ roots ++ h.references)) := by
    refine List.Perm.cons a ?_
    have hswap : (roots ++ (c.children ++ h.references)).Perm (c.children ++ roots ++ h.references) := by
      rw [← List.append_assoc]
      exact List.perm_append_comm.append_right _
    exact hswap
  refine ⟨List.nodup_cons.mpr ⟨hfree, hc.nodup⟩, fun x => ?_, fun x hx => ?_⟩
  · rw [hperm.count_eq x]
    by_cases hx : x = a
    · subst hx
      have hnone : (c.children ++ roots ++ h.references).count x = 0 :=
        List.count_eq_zero.mpr fun hmem => hfree (hc.found x hmem)
      rw [List.count_cons_self, hnone]
      exact if_pos rfl
    · rw [List.count_cons_of_ne (Ne.symm hx), ← hc.counts x]
      simp [Heap.alloc, hx]
  · rcases List.mem_cons.mp (hperm.mem_iff.mp hx) with rfl | hmem
    · exact List.mem_cons_self
    · exact List.mem_cons_of_mem a (hc.found x hmem)

theorem Drops.counted {dropped : List Nat} (hdrops : Drops h dropped h') (hc : h.Counted (dropped ++ roots)) :
    h'.Counted roots ∧ h'.cells ⊆ h.cells := by
  induction hdrops generalizing roots with
  | done => exact ⟨hc, fun _ hp => hp⟩
  | shared hcount _ ih => exact ih hc.release
  | last hcell hcount _ ih =>
    obtain ⟨hcounted, hsub⟩ := ih (List.append_assoc .. ▸ hc.free hcell hcount)
    exact ⟨hcounted, fun p hp => List.mem_of_mem_filter (hsub hp)⟩

theorem Renews.counted {change : Cell → Cell} {a' : Nat} (hrenews : Renews change h a a' h') (hc : h.Counted (a :: roots)) :
    ∃ (h₀ : Heap) (c : Cell), (a, c) ∈ h.cells ∧ h₀.cells ⊆ h.cells ∧ h₀.Counted (c.children ++ roots) ∧
      a' ∉ h₀.addresses ∧ h' = h₀.alloc a' (change c) := by
  cases hrenews with
  | takenOver hcell hcount hfree =>
    exact ⟨_, _, hcell, fun p hp => List.mem_of_mem_filter hp, hc.free hcell hcount, hfree, rfl⟩
  | @copied c hcell hcount hfree =>
    have hchildren : ∀ x ∈ c.children, x ∈ h.addresses := fun x hx => hc.found_child hcell hx
    exact ⟨(h.retain c.children).release a, c, hcell, fun p hp => hp,
      ((hc.retain hchildren).perm List.perm_middle).release, hfree, rfl⟩

/-! ## What cells show -/

variable {view : Nat → Handle} {next : Nat}

/-- Each cell shows a handle, different cells different ones, with marks that have been used. -/
structure Viewed (h : Heap) (view : Nat → Handle) (next : Nat) : Prop where
  cell : ∀ a c, (a, c) ∈ h.cells → view a = c.handle (view a).mark view
  marks : ∀ a ∈ h.addresses, ∀ a' ∈ h.addresses, (view a).mark = (view a').mark → a = a'
  used : ∀ a ∈ h.addresses, (view a).mark < next

theorem addresses_subset (hsub : h'.cells ⊆ h.cells) : h'.addresses ⊆ h.addresses := by
  intro a ha
  obtain ⟨p, hp, rfl⟩ := List.mem_map.mp ha
  exact List.mem_map_of_mem (hsub hp)

theorem exists_cell (ha : a ∈ h.addresses) : ∃ c, (a, c) ∈ h.cells := by
  obtain ⟨p, hp, rfl⟩ := List.mem_map.mp ha
  exact ⟨p.2, hp⟩

theorem Viewed.mono (hv : h.Viewed view next) (hsub : h'.cells ⊆ h.cells) {next' : Nat} (hle : next ≤ next') :
    h'.Viewed view next' where
  cell a c hcell := hv.cell a c (hsub hcell)
  marks a ha a' ha' := hv.marks a (addresses_subset hsub ha) a' (addresses_subset hsub ha')
  used a ha := Nat.lt_of_lt_of_le (hv.used a (addresses_subset hsub ha)) hle

theorem Viewed.alloc (hv : h.Viewed view next) (hc : h.Counted (c.children ++ roots)) (hfree : a ∉ h.addresses) {mark : Nat}
    (hmark : ∀ x ∈ h.addresses, (view x).mark ≠ mark) {next' : Nat} (hle : next ≤ next') (hlt : mark < next') :
    (h.alloc a c).Viewed (Function.update view a (c.handle mark view)) next' := by
  let view' := Function.update view a (c.handle mark view)
  have hnew : view' a = c.handle mark view := Function.update_self ..
  have hold : ∀ x ∈ h.addresses, view' x = view x := by
    intro x hx
    have hne : x ≠ a := fun heq => hfree (heq ▸ hx)
    exact Function.update_of_ne hne _ _
  have hchildren : ∀ xs : List Nat, (∀ x ∈ xs, x ∈ h.addresses) → xs.map view' = xs.map view := fun xs hxs =>
    List.map_congr_left fun x hx => hold x (hxs x hx)
  have hown : c.children.map view' = c.children.map view :=
    hchildren _ fun x hx => hc.found x (by simp [hx])
  refine ⟨fun x d hcell => ?_, fun x hx y hy heq => ?_, fun x hx => ?_⟩
  · rcases List.mem_cons.mp hcell with heq | hcell
    · cases heq
      change view' a = c.handle (view' a).mark view'
      rw [hnew, Cell.handle, Cell.handle, hown]
    · have hx : x ∈ h.addresses := List.mem_map_of_mem hcell
      have hbelow : d.children.map view' = d.children.map view :=
        hchildren _ fun y hy => hc.found_child hcell hy
      change view' x = d.handle (view' x).mark view'
      rw [hold x hx, Cell.handle, hbelow]
      exact hv.cell x d hcell
  · change (view' x).mark = (view' y).mark at heq
    rcases List.mem_cons.mp hx with hxa | hxh <;> rcases List.mem_cons.mp hy with hya | hyh
    · exact hxa.trans hya.symm
    · rw [hxa, hnew, hold y hyh] at heq
      exact absurd heq.symm (hmark y hyh)
    · rw [hya, hnew, hold x hxh] at heq
      exact absurd heq (hmark x hxh)
    · rw [hold x hxh, hold y hyh] at heq
      exact hv.marks x hxh y hyh heq
  · change (view' x).mark < next'
    rcases List.mem_cons.mp hx with hxa | hxh
    · rw [hxa, hnew]
      exact hlt
    · rw [hold x hxh]
      exact Nat.lt_of_lt_of_le (hv.used x hxh) hle

/-! ## Building, reading and dropping -/

theorem exists_free (h : Heap) : ∃ a, a ∉ h.addresses := by
  obtain ⟨a, ha⟩ := Infinite.exists_notMem_finset h.addresses.toFinset
  exact ⟨a, by simpa using ha⟩

/-- What is shown by addresses that were in use stays, and what others show has marks from `first` on. -/
structure Extends (h h' : Heap) (view view' : Nat → Handle) (first : Nat) : Prop where
  kept : ∀ a ∈ h.addresses, a ∈ h'.addresses ∧ view' a = view a
  new : ∀ a ∈ h'.addresses, a ∈ h.addresses ∨ first ≤ (view' a).mark

theorem viewed_of_builds :
    (∀ (t : Tree) (h h' : Heap) a, Builds h t a h' → ∀ roots view next, h.Counted roots → h.Viewed view next →
      ∃ view', h'.Counted (a :: roots) ∧ h'.Viewed view' (Handle.ofTree t next).2 ∧
        view' a = (Handle.ofTree t next).1 ∧ Extends h h' view view' next) ∧
    ∀ (ts : List Tree) (h h' : Heap) as, BuildsAll h ts as h' → ∀ roots view next, h.Counted roots → h.Viewed view next →
      ∃ view', h'.Counted (as ++ roots) ∧ h'.Viewed view' (Handle.ofTreeList ts next).2 ∧
        as.map view' = (Handle.ofTreeList ts next).1 ∧ Extends h h' view view' next := by
  apply Tree.induct
  · intro kind span value data children ih h h' a hbuilds roots view next hc hv
    cases hbuilds with
    | @node _ h₁ _ _ _ _ _ as _ hchildren hfree =>
      obtain ⟨view₁, hc₁, hv₁, hshown, hext⟩ := ih _ _ _ hchildren roots view (next + 1) hc
        (hv.mono (fun _ hp => hp) (Nat.le_succ next))
      have hmark : ∀ x ∈ h₁.addresses, (view₁ x).mark ≠ next := by
        intro x hx
        rcases hext.new x hx with hold | hnew
        · have := hv.used x hold
          rw [(hext.kept x hold).2]
          omega
        · omega
      have hle : next < (Handle.ofTreeList children (next + 1)).2 := (Handle.ofTree_marked.2 children (next + 1)).le
      refine ⟨_, hc₁.alloc hfree, hv₁.alloc hc₁ hfree hmark (Nat.le_refl _) hle, ?_, ?_, ?_⟩
      · rw [Function.update_self, Cell.handle, hshown]
        rfl
      · intro x hx
        have hne : x ≠ a := fun heq => hfree (heq ▸ (hext.kept x hx).1)
        rw [Function.update_of_ne hne]
        exact ⟨List.mem_cons_of_mem a (hext.kept x hx).1, (hext.kept x hx).2⟩
      · intro x hx
        rcases List.mem_cons.mp hx with rfl | hx₁
        · rw [Function.update_self]
          exact .inr (Nat.le_refl next)
        · have hne : x ≠ a := fun heq => hfree (heq ▸ hx₁)
          rw [Function.update_of_ne hne]
          exact (hext.new x hx₁).imp id (by omega)
  · intro h h' as hbuilds roots view next hc hv
    cases hbuilds with
    | nil => exact ⟨view, hc, hv, rfl, fun x hx => ⟨hx, rfl⟩, fun x hx => .inl hx⟩
  · intro t ts iht ihts h h' as hbuilds roots view next hc hv
    cases hbuilds with
    | @cons _ h₁ _ _ _ a as hfirst hrest =>
      obtain ⟨view₁, hc₁, hv₁, hshown₁, hext₁⟩ := iht _ _ _ hfirst roots view next hc hv
      obtain ⟨view₂, hc₂, hv₂, hshown₂, hext₂⟩ := ihts _ _ _ hrest (a :: roots) view₁ _ hc₁ hv₁
      have ha : a ∈ h₁.addresses := hc₁.found a (by simp)
      have hle := (Handle.ofTree_marked.1 t next).le
      refine ⟨view₂, hc₂.perm List.perm_middle, hv₂, ?_, fun x hx => ?_, fun x hx => ?_⟩
      · rw [List.map_cons, (hext₂.kept a ha).2, hshown₁, hshown₂]
        rfl
      · have hx₁ := hext₁.kept x hx
        have hx₂ := hext₂.kept x hx₁.1
        exact ⟨hx₂.1, hx₂.2.trans hx₁.2⟩
      · rcases hext₂.new x hx with hx₁ | hmark
        · rw [(hext₂.kept x hx₁).2]
          exact hext₁.new x hx₁
        · exact .inr (by omega)

theorem exists_builds :
    (∀ (t : Tree) h, ∃ a h', Builds h t a h') ∧ ∀ (ts : List Tree) h, ∃ as h', BuildsAll h ts as h' := by
  apply Tree.induct
  · intro kind span value data children ih h
    obtain ⟨as, h', hchildren⟩ := ih h
    obtain ⟨a, hfree⟩ := h'.exists_free
    exact ⟨a, _, .node hchildren hfree⟩
  · intro h
    exact ⟨[], h, .nil⟩
  · intro t ts iht ihts h
    obtain ⟨a, h₁, hfirst⟩ := iht h
    obtain ⟨as, h₂, hrest⟩ := ihts h₁
    exact ⟨a :: as, h₂, .cons hfirst hrest⟩

/-- **What is read from an address on** is the tree of the handle that it shows. -/
theorem Viewed.eq_of_reads (hv : h.Viewed view next) :
    (∀ t a, Reads h a t → t = (view a).tree) ∧ ∀ ts as, ReadsAll h as ts → ts = Handle.treeList (as.map view) := by
  apply Tree.induct
  · intro kind span value data children ih a hreads
    cases hreads with
    | node hcell hchildren =>
      rw [hv.cell a _ hcell, Cell.handle, Handle.tree, ← ih _ hchildren]
  · intro as hreads
    cases hreads
    rfl
  · intro t ts iht ihts as hreads
    cases hreads with
    | cons hfirst hrest => rw [List.map_cons, Handle.treeList, ← iht _ hfirst, ← ihts _ hrest]

theorem Viewed.reads (hv : h.Viewed view next) (hc : h.Counted roots) :
    (∀ t a, a ∈ h.addresses → t = (view a).tree → Reads h a t) ∧
      ∀ ts as, (∀ a ∈ as, a ∈ h.addresses) → ts = Handle.treeList (as.map view) → ReadsAll h as ts := by
  apply Tree.induct
  · intro kind span value data children ih a ha htree
    obtain ⟨c, hcell⟩ := exists_cell ha
    rw [hv.cell a c hcell, Cell.handle, Handle.tree] at htree
    cases htree
    exact .node hcell (ih c.children (fun x hx => hc.found_child hcell hx) rfl)
  · intro as has htrees
    cases as with
    | nil => exact .nil
    | cons a as => cases htrees
  · intro t ts iht ihts as has htrees
    cases as with
    | nil => cases htrees
    | cons a as =>
      rw [List.map_cons, Handle.treeList] at htrees
      cases htrees
      exact .cons (iht a (has a List.mem_cons_self) rfl) (ihts as (fun x hx => has x (List.mem_cons_of_mem a hx)) rfl)

theorem sizeList_append (ts us : List Tree) : Tree.sizeList (ts ++ us) = Tree.sizeList ts + Tree.sizeList us := by
  induction ts with
  | nil => simp [Tree.sizeList]
  | cons t ts ih =>
    rw [List.cons_append, Tree.sizeList, Tree.sizeList, ih]
    omega

theorem treeList_eq_map (hs : List Handle) : Handle.treeList hs = hs.map Handle.tree := by
  induction hs with
  | nil => rfl
  | cons h hs ih => rw [Handle.treeList, List.map_cons, ih]

theorem exists_drops (dropped : List Nat) (hc : h.Counted (dropped ++ roots)) (hv : h.Viewed view next) :
    ∃ h', Drops h dropped h' := by
  generalize hsize : Tree.sizeList (dropped.map (Handle.tree ∘ view)) = size
  induction size using Nat.strongRecOn generalizing h dropped with
  | ind size ih =>
    cases dropped with
    | nil => exact ⟨h, .done⟩
    | cons a rest =>
      obtain ⟨c, hcell⟩ := exists_cell (hc.found a (by simp))
      have hshown : (view a).tree = ⟨c.kind, c.span, c.value, c.data, c.children.map (Handle.tree ∘ view)⟩ := by
        rw [hv.cell a c hcell, Cell.handle, Handle.tree, treeList_eq_map, List.map_map]
      rw [List.map_cons, Tree.sizeList, Function.comp_apply, hshown, Tree.size] at hsize
      by_cases hcount : h.counts a = 1
      · have hsmaller : Tree.sizeList ((c.children ++ rest).map (Handle.tree ∘ view)) < size := by
          rw [List.map_append, sizeList_append]
          omega
        have hleft : (h.free a).Counted (c.children ++ rest ++ roots) := List.append_assoc .. ▸ hc.free hcell hcount
        have hviewed : (h.free a).Viewed view next := hv.mono (fun p hp => List.mem_of_mem_filter hp) (Nat.le_refl _)
        obtain ⟨h', hrest⟩ := ih _ hsmaller _ hleft hviewed rfl
        exact ⟨h', .last hcell hcount hrest⟩
      · have hmore : 1 < h.counts a := by
          have hpos : 0 < h.counts a := by
            rw [hc.counts a]
            exact List.count_pos_iff.mpr (by simp)
          omega
        have hsmaller : Tree.sizeList (rest.map (Handle.tree ∘ view)) < size := by omega
        have hviewed : (h.release a).Viewed view next := ⟨hv.cell, hv.marks, hv.used⟩
        obtain ⟨h', hrest⟩ := ih _ hsmaller rest hc.release hviewed rfl
        exact ⟨h', .shared hmore hrest⟩

theorem exists_renews (change : Cell → Cell) (ha : a ∈ h.addresses) : ∃ a' h', Renews change h a a' h' := by
  obtain ⟨c, hcell⟩ := exists_cell ha
  by_cases hcount : h.counts a = 1
  · obtain ⟨a', hfree⟩ := (h.free a).exists_free
    exact ⟨a', _, .takenOver hcell hcount hfree⟩
  · obtain ⟨a', hfree⟩ := h.exists_free
    exact ⟨a', _, .copied hcell hcount hfree⟩

end Heap

end TreeEdit
