import TreeEdit.Engine.Walk
import TreeEdit.Proofs.Engine.RunBuffer

/-!
# What only its walk changes in a run

Requests change the buffer of a run and what it has seen, and a task that is given up lets go of its run. The
nodes of a run with their states, its binding and its phase are changed by its own walk alone: all else in a
session is `Quiet` about them. A store holds nothing but runs of its binding that are in flight
(`StoresSound`).
-/

namespace TreeEdit

/-- What only its walk changes in a run. -/
structure Status where
  arena : Arena
  binding : BindingId
  phase : Phase

def Run.status (r : Run) : Status :=
  ⟨r.arena, r.binding, r.phase⟩

def Phase.ofWalk : Except TransformError Unit → Phase
  | .ok _ => .completed
  | .error _ => .failed

namespace Session

variable {s s' : Session}

def status (s : Session) (run : RunId) : Option Status :=
  (s.runs[run]?).map Run.status

theorem status_modifyRun (s : Session) (run : RunId) {f : Run → Run} {g : Status → Status}
    (hf : ∀ r, (f r).status = g r.status) (k : RunId) :
    (s.modifyRun run f).status k = if run = k then (s.status k).map g else s.status k := by
  rw [status, modifyRun, Array.getElem?_modify]
  split
  · simp only [status, Option.map_map, Function.comp_def, hf]
  · rfl

theorem status_advance (s : Session) (run : RunId) {f : Run → Run} {id : Nat} {state : NodeState}
    (hf : ∀ r, (f r).status = (r.advance id state).status) (k : RunId) :
    (s.modifyRun run f).status k =
      if run = k then (s.status k).map fun st => { st with arena := st.arena.advance id state }
      else s.status k :=
  s.status_modifyRun run (g := fun st => { st with arena := st.arena.advance id state }) hf k

theorem status_size (s : Session) : s.status s.runs.size = none := by
  rw [status, Array.getElem?_eq_none (Nat.le_refl _)]
  rfl

/-! ## Requests and tasks -/

/-- Nothing changes in the stores of bindings, and nothing in runs that their walks decide. -/
structure Quiet (s s' : Session) : Prop where
  bindings : s'.bindings = s.bindings
  status : ∀ k, s'.status k = s.status k

theorem Quiet.refl (s : Session) : Quiet s s :=
  ⟨rfl, fun _ => rfl⟩

theorem Quiet.trans {s₁ s₂ s₃ : Session} (h : Quiet s₁ s₂) (h' : Quiet s₂ s₃) : Quiet s₁ s₃ :=
  ⟨h'.bindings.trans h.bindings, fun k => (h'.status k).trans (h.status k)⟩

theorem quiet_modifyRun (s : Session) (run : RunId) {f : Run → Run}
    (hf : ∀ r, s.runs[run]? = some r → (f r).status = r.status) : Quiet s (s.modifyRun run f) := by
  refine ⟨rfl, fun k => ?_⟩
  rw [Session.status, modifyRun, Array.getElem?_modify]
  split
  · rename_i heq
    subst heq
    rw [Session.status]
    cases hr : s.runs[run]? with
    | none => rfl
    | some r => exact congrArg some (hf r hr)
  · rfl

theorem override_eq_ok {actor : Actor} {n : Node} {text : String} (h : s.override actor n text = .ok s') :
    ∃ run id r r', s.resolve actor n = .node run id ∧ s.runs[run]? = some r ∧
      r.override id text = .ok r' ∧ s' = s.modifyRun run fun _ => r' := by
  rw [override] at h
  split at h
  · rename_i run id hplace
    split at h
    · cases h
    · rename_i r hr
      cases hover : r.override id text with
      | error e => rw [hover] at h; cases h
      | ok r' =>
        rw [hover] at h
        exact ⟨run, id, r, r', hplace, hr, hover, (Except.ok.inj h).symm⟩
  · cases h
  · cases h

theorem quiet_edit {run : RunId} {id : Nat} {text : String} {r r' : Run} (hr : s.runs[run]? = some r)
    (hover : r.override id text = .ok r') : Quiet s (s.modifyRun run fun _ => r') := by
  refine quiet_modifyRun s run fun r₁ hr₁ => ?_
  obtain rfl : r = r₁ := Option.some.inj (hr.symm.trans hr₁)
  obtain ⟨-, -, -, -, rfl⟩ := Run.override_eq_ok hover
  rfl

theorem quiet_override {actor : Actor} {n : Node} {text : String} (h : s.override actor n text = .ok s') :
    Quiet s s' ∧ s'.tasks = s.tasks := by
  obtain ⟨run, id, r, r', -, hr, hover, rfl⟩ := override_eq_ok h
  exact ⟨quiet_edit hr hover, rfl⟩

theorem quiet_perform (s : Session) (q : Request) :
    Quiet s (s.perform q).2 ∧ (s.perform q).2.tasks = s.tasks := by
  cases q with
  | override actor n text =>
    rw [perform]
    split
    · rename_i s' h
      exact quiet_override h
    · exact ⟨.refl s, rfl⟩
  | _ => exact ⟨⟨rfl, fun _ => rfl⟩, rfl⟩

theorem quiet_respond (s : Session) (run : RunId) (q : Request) :
    Quiet s (s.respond (some run) q).2 ∧ (s.respond (some run) q).2.tasks = s.tasks := by
  obtain ⟨hquiet, htasks⟩ := s.quiet_perform q
  exact ⟨hquiet.trans (quiet_modifyRun _ run fun _ _ => rfl), htasks⟩

theorem quiet_release (s : Session) (t : Task) : Quiet s (s.release t) ∧ (s.release t).tasks = s.tasks := by
  rw [release]
  split
  · exact ⟨.refl s, rfl⟩
  · exact ⟨quiet_modifyRun s _ fun _ _ => rfl, rfl⟩

theorem quiet_putTask (s : Session) (name : String) (t : Task) :
    Quiet s (s.putTask name t) ∧ (s.putTask name t).tasks = putNamed name t s.tasks := by
  rw [putTask]
  split
  · exact ⟨⟨rfl, fun _ => rfl⟩, rfl⟩
  · rename_i old _
    obtain ⟨hquiet, htasks⟩ := quiet_release { s with tasks := putNamed name t s.tasks } old
    exact ⟨⟨hquiet.bindings, hquiet.status⟩, htasks⟩

theorem quiet_takeTask {name : String} {t : Task} (h : s.takeTask name = some (t, s')) :
    Quiet s s' ∧ s.tasks.lookup name = some t ∧ s'.tasks = eraseNamed name s.tasks := by
  obtain ⟨t', ht, heq⟩ := Option.map_eq_some_iff.mp h
  cases heq
  exact ⟨⟨rfl, fun _ => rfl⟩, ht, rfl⟩

theorem quiet_drop (s : Session) (name : String) :
    Quiet s (s.drop name).2 ∧
      ((s.drop name).2.tasks = s.tasks ∨ (s.drop name).2.tasks = eraseNamed name s.tasks) := by
  rw [drop]
  split
  · exact ⟨.refl s, .inl rfl⟩
  · rename_i t s' htake
    obtain ⟨hquiet, -, htasks⟩ := quiet_takeTask htake
    obtain ⟨hquiet', htasks'⟩ := s'.quiet_release t
    exact ⟨hquiet.trans hquiet', .inr (htasks'.trans htasks)⟩

/-! ## The start and the end of a run -/

theorem status_addRun (s : Session) (job : Job) (arena : Arena) (k : RunId) :
    (s.addRun job arena).2.status k =
      if k = s.runs.size then some ⟨arena, job.binding, .inFlight⟩ else s.status k := by
  simp only [addRun, modifyStore, status, Array.getElem?_push]
  split <;> rfl

theorem status_addRun_of_some {k : RunId} {st : Status} (hst : s.status k = some st) (job : Job)
    (arena : Arena) : (s.addRun job arena).2.status k = some st := by
  rw [status_addRun, if_neg, hst]
  rintro rfl
  rw [status_size] at hst
  cases hst

theorem modifyRun_of_none {run : RunId} (h : s.runs[run]? = none) (f : Run → Run) :
    s.modifyRun run f = s := by
  have hruns : s.runs.modify run f = s.runs := by
    refine Array.ext_getElem? fun k => ?_
    rw [Array.getElem?_modify]
    split
    · rename_i heq
      rw [← heq, h]
      rfl
    · rfl
  rw [modifyRun, hruns]

theorem finish_session (s : Session) (run : RunId) (job : Job) (walked : Except TransformError Unit) :
    (s.finish run job walked).2 =
      (s.modifyStore job.binding fun store => store.filter (· != run)).modifyRun run
        fun r => { r with phase := .ofWalk walked } := by
  cases walked with
  | error e => rfl
  | ok u =>
    cases hr : (s.modifyStore job.binding fun store => store.filter (· != run)).runs[run]? with
    | none =>
      rw [modifyRun_of_none hr]
      simp only [finish, hr]
    | some r =>
      simp only [finish, hr]
      rfl

theorem finish_of_run {run : RunId} {r : Run} (hr : s.runs[run]? = some r) (job : Job)
    (walked : Except TransformError Unit) :
    (s.finish run job walked).1 = (walked.map fun _ => r.report job.lookups) ∧
      (s.finish run job walked).2.runs[run]? = some { r with phase := .ofWalk walked } := by
  constructor
  · cases walked with
    | error e => rfl
    | ok u =>
      have hr' : (s.modifyStore job.binding fun store => store.filter (· != run)).runs[run]? = some r := hr
      simp only [finish, hr']
      rfl
  · rw [finish_session, modifyRun, Array.getElem?_modify, if_pos rfl, modifyStore, hr]
    rfl

theorem status_finish (s : Session) (run : RunId) (job : Job) (walked : Except TransformError Unit)
    (k : RunId) :
    (s.finish run job walked).2.status k =
      if run = k then (s.status k).map fun st => { st with phase := .ofWalk walked }
      else s.status k := by
  rw [finish_session]
  exact status_modifyRun _ run (fun _ => rfl) k

/-! ## Stores -/

/-- A store holds runs of its binding that are in flight. -/
def StoresSound (s : Session) : Prop :=
  ∀ b binding, s.bindings[b]? = some binding → ∀ k ∈ binding.store,
    ∃ st, s.status k = some st ∧ st.binding = b ∧ st.phase = .inFlight

theorem StoresSound.of_status (h : s.StoresSound) (hbindings : s'.bindings = s.bindings)
    (hstatus : ∀ k st, s.status k = some st →
      ∃ st', s'.status k = some st' ∧ st'.binding = st.binding ∧ st'.phase = st.phase) :
    s'.StoresSound := by
  intro b binding hb k hk
  obtain ⟨st, hst, hbinding, hphase⟩ := h b binding (hbindings ▸ hb) k hk
  obtain ⟨st', hst', hbinding', hphase'⟩ := hstatus k st hst
  exact ⟨st', hst', hbinding'.trans hbinding, hphase'.trans hphase⟩

theorem StoresSound.quiet (h : s.StoresSound) (hquiet : Quiet s s') : s'.StoresSound :=
  h.of_status hquiet.bindings fun k st hst => ⟨st, (hquiet.status k).trans hst, rfl, rfl⟩

theorem bindings_modifyStore (s : Session) (b : BindingId) (f : List RunId → List RunId) (b' : BindingId) :
    (s.modifyStore b f).bindings[b']? =
      if b = b' then (s.bindings[b']?).map fun x => { x with store := f x.store } else s.bindings[b']? := by
  rw [modifyStore, Array.getElem?_modify]

theorem StoresSound.addRun (h : s.StoresSound) (job : Job) (arena : Arena) :
    (s.addRun job arena).2.StoresSound := by
  have hold : ∀ {b k}, (∃ st, s.status k = some st ∧ st.binding = b ∧ st.phase = .inFlight) →
      ∃ st, (s.addRun job arena).2.status k = some st ∧ st.binding = b ∧ st.phase = .inFlight := by
    rintro b k ⟨st, hst, hrest⟩
    exact ⟨st, status_addRun_of_some hst job arena, hrest⟩
  intro b binding hb k hk
  rw [Session.addRun, bindings_modifyStore] at hb
  split at hb
  · rename_i heq
    obtain ⟨old, hold', rfl⟩ := Option.map_eq_some_iff.mp hb
    rw [List.mem_append, List.mem_singleton] at hk
    rcases hk with hk | rfl
    · exact hold (h b old hold' k (List.mem_of_mem_filter hk))
    · exact ⟨_, by rw [status_addRun, if_pos rfl], heq, rfl⟩
  · exact hold (h b binding hb k hk)

theorem StoresSound.finish (h : s.StoresSound) {run : RunId} {job : Job} {st : Status}
    (hst : s.status run = some st) (hbinding : st.binding = job.binding)
    (walked : Except TransformError Unit) :
    (s.finish run job walked).2.StoresSound ∧
      ∀ binding ∈ (s.finish run job walked).2.bindings, run ∉ binding.store := by
  have hstore : ∀ (b : BindingId) (binding : Binding),
      (s.finish run job walked).2.bindings[b]? = some binding →
      ∃ old : Binding, s.bindings[b]? = some old ∧ ∀ k ∈ binding.store, k ∈ old.store ∧ k ≠ run := by
    intro b binding hb
    rw [finish_session, modifyRun, bindings_modifyStore] at hb
    split at hb
    · obtain ⟨old, hold, rfl⟩ := Option.map_eq_some_iff.mp hb
      exact ⟨old, hold, fun k hk => by simpa using hk⟩
    · rename_i hne
      refine ⟨binding, hb, fun k hk => ⟨hk, ?_⟩⟩
      -- the run is of another binding
      rintro rfl
      obtain ⟨st', hst', hb', -⟩ := h b binding hb k hk
      obtain rfl : st = st' := Option.some.inj (hst.symm.trans hst')
      exact hne (hbinding.symm.trans hb')
  constructor
  · intro b binding hb k hk
    obtain ⟨old, hold, hmem⟩ := hstore b binding hb
    obtain ⟨hk, hne⟩ := hmem k hk
    rw [status_finish, if_neg (Ne.symm hne)]
    exact h b old hold k hk
  · intro binding hb hk
    obtain ⟨b, hb⟩ := Array.mem_iff_getElem?.mp hb
    obtain ⟨old, hold, hmem⟩ := hstore b binding hb
    exact (hmem run hk).2 rfl

/-! ## What a walk does -/

/-- Nothing changes outside of one run that is of any concern to walks. -/
structure Only (run : RunId) (s s' : Session) : Prop where
  status : ∀ j, j ≠ run → s'.status j = s.status j
  stores : s.StoresSound → s'.StoresSound
  tasks : s'.tasks = s.tasks

theorem Only.refl (run : RunId) (s : Session) : Only run s s :=
  ⟨fun _ _ => rfl, id, rfl⟩

theorem Only.trans {run : RunId} {s₁ s₂ s₃ : Session} (h : Only run s₁ s₂) (h' : Only run s₂ s₃) :
    Only run s₁ s₃ :=
  ⟨fun j hj => (h'.status j hj).trans (h.status j hj), h'.stores ∘ h.stores, h'.tasks.trans h.tasks⟩

theorem only_advance (s : Session) (run : RunId) (f : Run → Run) {id : Nat} {state : NodeState}
    (hf : ∀ r, (f r).status = (r.advance id state).status) : Only run s (s.modifyRun run f) where
  status j hj := by rw [status_advance s run hf, if_neg hj.symm]
  stores h := by
    refine h.of_status rfl fun k st hst => ?_
    rw [status_advance s run hf, hst]
    split
    · exact ⟨_, rfl, rfl, rfl⟩
    · exact ⟨st, rfl, rfl, rfl⟩
  tasks := rfl

theorem only_addRun (s : Session) (job : Job) (arena : Arena) : Only s.runs.size s (s.addRun job arena).2 where
  status j hj := by rw [status_addRun, if_neg hj]
  stores h := h.addRun job arena
  tasks := rfl

theorem only_finish {run : RunId} {job : Job} {st : Status} (hst : s.status run = some st)
    (hbinding : st.binding = job.binding) (walked : Except TransformError Unit) :
    Only run s (s.finish run job walked).2 where
  status j hj := by rw [status_finish, if_neg hj.symm]
  stores h := (h.finish hst hbinding walked).1
  tasks := by rw [finish_session]; rfl

end Session

end TreeEdit
