import TreeEdit.Proofs.Engine.Deferral
import TreeEdit.Proofs.Engine.Effects

/-!
# What happens to runs

Whatever is done in a session, there is little that can happen to a run (`Run.Change`). Only a run in flight is
edited, has its nodes moved on or comes to its end, and it comes to a good end only when all its nodes are
handled. Each step of a session brings runs on by such changes, and may begin a new one (`Step.evolves`); so does
every history (`Leads.evolves`).

Therefore nothing but what it has seen changes in a run that has finished (`Reachable.finished`), and in one that came
to a good end all nodes are handled (`Reachable.regular`).
-/

namespace TreeEdit

/-! ## Changes -/

namespace Run

/-- Something that happens to a run. -/
inductive Change : Run → Run → Prop
  | edited {r r' : Run} {id : Nat} {text : String} (h : r.override id text = .ok r') : Change r r'
  | recorded {r : Run} (e : Event) : Change r (r.record e)
  /-- Nobody awaits the result any more. -/
  | released {r : Run} : Change r { r with held := false }
  | advanced {r : Run} (id : Nat) (state : NodeState) (h : r.phase = .inFlight) : Change r (r.advance id state)
  | settled {r : Run} (walked : Except TransformError Unit) (h : r.phase = .inFlight)
    (hall : walked = .ok () → r.AllHandled) : Change r { r with phase := .ofWalk walked }

abbrev Changes : Run → Run → Prop :=
  Relation.ReflTransGen Change

structure Begun (k : RunId) (r : Run) : Prop where
  id : r.id = k
  phase : r.phase = .inFlight

theorem override_granted {r r' : Run} {id : Nat} {text : String} (h : r.override id text = .ok r') :
    r.phase = .inFlight ∧ ∃ e, r.arena.get? id = some e ∧ e.state ≠ .handled := by
  unfold override at h
  split at h
  · cases h
  · rename_i e he
    split at h
    · cases h
    · rename_i hstate
      split at h
      · cases h
      · rename_i hphase
        exact ⟨Decidable.not_not.mp hphase, e, he, hstate⟩

theorem Change.finished {r r' : Run} (h : Change r r') (hphase : r.phase ≠ .inFlight) :
    r'.buffer = r.buffer ∧ r'.status = r.status := by
  cases h with
  | edited h => exact absurd (override_granted h).1 hphase
  | recorded e => exact ⟨rfl, rfl⟩
  | released => exact ⟨rfl, rfl⟩
  | advanced id state h => exact absurd h hphase
  | settled walked h => exact absurd h hphase

theorem Changes.finished {r r' : Run} (h : Changes r r') (hphase : r.phase ≠ .inFlight) :
    r'.buffer = r.buffer ∧ r'.status = r.status := by
  induction h with
  | refl => exact ⟨rfl, rfl⟩
  | @tail r₁ r₂ _ hchange ih =>
    have hphase₁ : r₁.phase = r.phase := congrArg Status.phase ih.2
    obtain ⟨hbuffer, hstatus⟩ := hchange.finished (hphase₁ ▸ hphase)
    exact ⟨hbuffer.trans ih.1, hstatus.trans ih.2⟩

/-- A run under its number, with all nodes handled if it came to a good end. -/
structure Regular (k : RunId) (r : Run) : Prop where
  id : r.id = k
  completed : r.phase = .completed → r.AllHandled

theorem Begun.regular {k : RunId} {r : Run} (h : r.Begun k) : r.Regular k where
  id := h.id
  completed hphase := by rw [h.phase] at hphase; cases hphase

theorem Regular.change {k : RunId} {r r' : Run} (h : r.Regular k) (hchange : Change r r') : r'.Regular k := by
  cases hchange with
  | edited hover =>
    obtain ⟨e, buffer, -, -, rfl⟩ := override_eq_ok hover
    exact ⟨h.id, h.completed⟩
  | recorded e => exact ⟨h.id, h.completed⟩
  | released => exact ⟨h.id, h.completed⟩
  | advanced id state hphase =>
    refine ⟨h.id, fun hcompleted => ?_⟩
    rw [show (r.advance id state).phase = r.phase from rfl, hphase] at hcompleted
    cases hcompleted
  | settled walked hphase hall =>
    refine ⟨h.id, fun hcompleted => ?_⟩
    cases walked with
    | error e => cases hcompleted
    | ok u => exact hall rfl

theorem Regular.changes {k : RunId} {r r' : Run} (h : r.Regular k) (hchanges : Changes r r') : r'.Regular k := by
  induction hchanges with
  | refl => exact h
  | tail _ hchange ih => exact ih.change hchange

end Run

/-! ## Sessions -/

namespace Session

variable {s s' : Session}

/-- Runs are brought on by changes, and new ones begin; adapters stay. -/
structure Evolves (s s' : Session) : Prop where
  adapter : ∀ b, s'.adapter? b = s.adapter? b
  forth : ∀ (k : RunId) r, s.runs[k]? = some r → ∃ r', s'.runs[k]? = some r' ∧ r.Changes r'
  back : ∀ (k : RunId) r', s'.runs[k]? = some r' →
    ∃ r, r.Changes r' ∧ (s.runs[k]? = some r ∨ s.runs[k]? = none ∧ r.Begun k)

theorem evolves_of_runs (h : s'.runs = s.runs) (hadapter : ∀ b, s'.adapter? b = s.adapter? b) :
    Evolves s s' where
  adapter := hadapter
  forth _ r hr := ⟨r, h ▸ hr, .refl⟩
  back _ r hr := ⟨r, .refl, .inl (h ▸ hr)⟩

theorem Evolves.trans {s₁ s₂ s₃ : Session} (h : Evolves s₁ s₂) (h' : Evolves s₂ s₃) : Evolves s₁ s₃ where
  adapter b := (h'.adapter b).trans (h.adapter b)
  forth k r hr := by
    obtain ⟨r₂, hr₂, hchanges⟩ := h.forth k r hr
    obtain ⟨r₃, hr₃, hchanges'⟩ := h'.forth k r₂ hr₂
    exact ⟨r₃, hr₃, hchanges.trans hchanges'⟩
  back k r₃ hr₃ := by
    obtain ⟨r₂, hchanges', hr₂ | ⟨hnone, hbegun⟩⟩ := h'.back k r₃ hr₃
    · obtain ⟨r₁, hchanges, hr₁⟩ := h.back k r₂ hr₂
      exact ⟨r₁, hchanges.trans hchanges', hr₁⟩
    · refine ⟨r₂, hchanges', .inr ⟨?_, hbegun⟩⟩
      -- a run that was there before would still be
      cases hr₁ : s₁.runs[k]? with
      | none => rfl
      | some r₁ =>
        obtain ⟨r, hr, -⟩ := h.forth k r₁ hr₁
        rw [hnone] at hr
        cases hr

theorem evolves_modifyRun (s : Session) (run : RunId) {f : Run → Run}
    (hf : ∀ r, s.runs[run]? = some r → r.Changes (f r)) : Evolves s (s.modifyRun run f) where
  adapter _ := rfl
  forth k r hr := by
    rw [modifyRun, Array.getElem?_modify]
    split
    · rename_i heq
      subst heq
      exact ⟨f r, by rw [hr]; rfl, hf r hr⟩
    · exact ⟨r, hr, .refl⟩
  back k r' hr' := by
    rw [modifyRun, Array.getElem?_modify] at hr'
    split at hr'
    · rename_i heq
      subst heq
      obtain ⟨r, hr, rfl⟩ := Option.map_eq_some_iff.mp hr'
      exact ⟨r, hf r hr, .inl hr⟩
    · exact ⟨r', .refl, .inl hr'⟩

theorem evolves_addRun (s : Session) (job : Job) (arena : Arena) : Evolves s (s.addRun job arena).2 where
  adapter b := by
    rw [addRun, adapter?_modifyStore]
    rfl
  forth k r hr := by
    refine ⟨r, ?_, .refl⟩
    have hne : k ≠ s.runs.size := Nat.ne_of_lt (Array.getElem?_eq_some_iff.mp hr).1
    simpa only [addRun, modifyStore, Array.getElem?_push, if_neg hne] using hr
  back k r' hr' := by
    simp only [addRun, modifyStore, Array.getElem?_push] at hr'
    split at hr'
    · rename_i heq
      cases hr'
      exact ⟨_, .refl, .inr ⟨Array.getElem?_eq_none (Nat.le_of_eq heq.symm), heq.symm, rfl⟩⟩
    · exact ⟨r', .refl, .inl hr'⟩

theorem evolves_finish (s : Session) (run : RunId) (job : Job) (walked : Except TransformError Unit)
    (hrun : ∀ r, s.runs[run]? = some r → r.phase = .inFlight ∧ (walked = .ok () → r.AllHandled)) :
    Evolves s (s.finish run job walked).2 := by
  rw [finish_session]
  have hstore : s.Evolves (s.modifyStore job.binding fun store => store.filter (· != run)) :=
    evolves_of_runs rfl fun b => s.adapter?_modifyStore _ _ b
  refine hstore.trans (evolves_modifyRun _ run fun r hr => ?_)
  obtain ⟨hphase, hall⟩ := hrun r hr
  exact .single (.settled walked hphase hall)

theorem evolves_edit {run : RunId} {id : Nat} {text : String} {r r' : Run} (hr : s.runs[run]? = some r)
    (hover : r.override id text = .ok r') : Evolves s (s.modifyRun run fun _ => r') := by
  refine evolves_modifyRun s run fun r₁ hr₁ => ?_
  obtain rfl : r = r₁ := Option.some.inj (hr.symm.trans hr₁)
  exact .single (.edited hover)

theorem Effect.evolves {work : RunId → Prop} {edits : Prop} (h : Effect work edits s s') : Evolves s s' := by
  cases h with
  | tables hruns hbindings => exact evolves_of_runs hruns fun b => by rw [adapter?, hbindings, adapter?]
  | edited _ hr hover => exact evolves_edit hr hover
  | recorded run e => exact evolves_modifyRun s run fun _ _ => .single (.recorded e)
  | released run => exact evolves_modifyRun s run fun _ _ => .single .released
  | advanced id state _ hphase => exact evolves_modifyRun s _ fun r hr => .single (.advanced id state (hphase r hr))
  | begun hreg => exact s.evolves_addRun _ _
  | @finished run job r walked _ hr _ hphase hall =>
    refine s.evolves_finish run job walked fun r₁ hr₁ => ?_
    obtain rfl : r = r₁ := Option.some.inj (hr.symm.trans hr₁)
    exact ⟨hphase, hall⟩

theorem Effects.evolves {work : RunId → Prop} {edits : Prop} (h : Effects work edits s s') : Evolves s s' := by
  induction h with
  | refl => exact evolves_of_runs rfl fun _ => rfl
  | tail _ heffect ih => exact ih.trans heffect.evolves

end Session

namespace Moment

theorem Step.evolves {c c' : Moment} (h : c.Inv) (hstep : Step c c') : c.session.Evolves c'.session :=
  (hstep.effects h).evolves

theorem Leads.evolves {c c' : Moment} (h : c.Inv) (hleads : Leads c c') : c.session.Evolves c'.session := by
  induction hleads with
  | refl => exact Session.evolves_of_runs rfl fun _ => rfl
  | tail hleads hstep ih => exact ih.trans (hstep.evolves (h.leads hleads))

section

variable {adapters : Array Adapter} {c : Moment}

theorem Reachable.evolves (h : Reachable adapters c) : (Session.ofAdapters adapters).Evolves c.session :=
  Leads.evolves (Reachable.inv .refl) h

theorem Reachable.recognises (h : Reachable adapters c) {k : RunId} {r : Run} (hr : c.session.runs[k]? = some r)
    (t : Tree) : c.session.recognises k t = (adapters[r.binding]?).any (·.isNode t) := by
  have hadapter : c.session.adapter? r.binding = adapters[r.binding]? := by
    rw [h.evolves.adapter, Session.adapter?_ofAdapters]
  rw [Session.recognises, hr, Option.bind_some, ← hadapter, Session.adapter?, Option.any_map]

/-- **Every run of every history** has come from its beginning by changes. -/
theorem Reachable.regular (h : Reachable adapters c) {k : RunId} {r : Run}
    (hr : c.session.runs[k]? = some r) : r.Regular k := by
  obtain ⟨r₀, hchanges, hr₀ | ⟨-, hbegun⟩⟩ := h.evolves.back k r hr
  · simp [Session.ofAdapters] at hr₀
  · exact hbegun.regular.changes hchanges

theorem Reachable.finished (h : Reachable adapters c) {k : RunId} {r : Run}
    (hr : c.session.runs[k]? = some r) (hphase : r.phase ≠ .inFlight) {c' : Moment} (hleads : Leads c c') :
    ∃ r', c'.session.runs[k]? = some r' ∧ r'.buffer = r.buffer ∧ r'.status = r.status := by
  obtain ⟨r', hr', hchanges⟩ := (Leads.evolves h.inv hleads).forth k r hr
  exact ⟨r', hr', hchanges.finished hphase⟩

end

end Moment

end TreeEdit
