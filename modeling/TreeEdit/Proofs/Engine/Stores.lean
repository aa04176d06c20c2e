import TreeEdit.Proofs.Engine.Effects

/-!
# Stores of runs in flight

What walks do is done to runs at work. So a run that is not at work is left as it is (`Session.Effects.status_eq`),
and an awaited run is in the store of its binding, once (`Reachable.stocked`).
-/

namespace TreeEdit

namespace Session

variable {s s' : Session} {work : RunId → Prop} {edits : Prop}

/-! ## Runs that are not at work -/

theorem Effect.status_eq (h : Effect work edits s s') {k : RunId} (hk : ¬ work k) {st : Status}
    (hst : s.status k = some st) : s'.status k = some st := by
  cases h with
  | tables hruns _ => rwa [status, hruns]
  | edited _ hr hover => rw [(quiet_edit hr hover).status, hst]
  | recorded run e => rw [(quiet_modifyRun s run (f := (·.record e)) fun _ _ => rfl).status, hst]
  | released run => rw [(quiet_modifyRun s run (f := ({ · with held := false })) fun _ _ => rfl).status, hst]
  | advanced id state hwork _ =>
    rw [status_advance s _ fun _ => rfl, if_neg, hst]
    rintro rfl
    exact hk hwork
  | begun hreg => exact status_addRun_of_some hst _ _
  | finished walked hwork _ _ _ _ =>
    rw [status_finish, if_neg, hst]
    rintro rfl
    exact hk hwork

theorem Effects.status_eq (h : Effects work edits s s') {k : RunId} (hk : ¬ work k) {st : Status}
    (hst : s.status k = some st) : s'.status k = some st := by
  induction h with
  | refl => exact hst
  | tail _ heffect ih => exact heffect.status_eq hk ih

/-! ## Awaited runs are in store -/

/-- No store has a run twice, and an awaited run is in the store of its binding. -/
structure Stocked (s : Session) : Prop where
  sound : s.StoresSound
  nodup : ∀ (b : BindingId) (binding : Binding), s.bindings[b]? = some binding → binding.store.Nodup
  awaited : ∀ (k : RunId) st binding, s.Awaited k → s.status k = some st →
    s.bindings[st.binding]? = some binding → k ∈ binding.store

theorem Stocked.of_bindings (h : s.Stocked) (hsound : s'.StoresSound) (hbindings : s'.bindings = s.bindings)
    (hawaited : ∀ k, s'.Awaited k → s.Awaited k)
    (hstatus : ∀ k st', s'.status k = some st' → ∃ st, s.status k = some st ∧ st.binding = st'.binding) : s'.Stocked where
  sound := hsound
  nodup b binding hb := h.nodup b binding (hbindings ▸ hb)
  awaited k st' binding hk hst' hb := by
    obtain ⟨st, hst, hbinding⟩ := hstatus k st' hst'
    rw [hbindings, ← hbinding] at hb
    exact h.awaited k st binding (hawaited k hk) hst hb

theorem alive_of_awaited {k : RunId} (h : s.Awaited k) : s.alive k = true := by
  obtain ⟨r, hr, -, hheld⟩ := h
  simp [alive, hr, hheld]

theorem Stocked.addRun (h : s.Stocked) (job : Job) (arena : Arena) : (s.addRun job arena).2.Stocked := by
  -- the new run is in no store yet, since all that are in store have a status
  have hnew : ∀ (b : BindingId) (binding : Binding), s.bindings[b]? = some binding → s.runs.size ∉ binding.store := by
    intro b binding hb hmem
    obtain ⟨st, hst, -⟩ := h.sound b binding hb _ hmem
    rw [s.status_size] at hst
    cases hst
  refine ⟨h.sound.addRun job arena, fun b binding hb => ?_, fun k st binding hk hst hb => ?_⟩
  · rw [Session.addRun, bindings_modifyStore] at hb
    split at hb
    · obtain ⟨old, hold, rfl⟩ := Option.map_eq_some_iff.mp hb
      refine List.nodup_append.mpr ⟨(h.nodup b old hold).filter _, by simp, fun x hx y hy => ?_⟩
      rw [List.mem_singleton.mp hy]
      rintro rfl
      exact hnew b old hold (List.mem_of_mem_filter hx)
    · exact h.nodup b binding hb
  · rw [Session.addRun, bindings_modifyStore] at hb
    rw [status_addRun] at hst
    rw [awaited_addRun] at hk
    by_cases hsize : k = s.runs.size
    · rw [if_pos hsize] at hst
      cases hst
      rw [if_pos rfl] at hb
      obtain ⟨old, -, rfl⟩ := Option.map_eq_some_iff.mp hb
      exact List.mem_append_right _ (List.mem_singleton.mpr hsize)
    · rw [if_neg hsize] at hst
      have hawaited : s.Awaited k := hk.resolve_left hsize
      split at hb
      · obtain ⟨old, hold, rfl⟩ := Option.map_eq_some_iff.mp hb
        refine List.mem_append_left _ (List.mem_filter.mpr ⟨h.awaited k st old hawaited hst hold, ?_⟩)
        obtain ⟨r, hr, hphase, hheld⟩ := hawaited
        exact alive_of_awaited ⟨r, by simpa only [Array.getElem?_push, if_neg hsize] using hr, hphase, hheld⟩
      · exact h.awaited k st binding hawaited hst hb

theorem Stocked.finish (h : s.Stocked) {run : RunId} {job : Job} {st : Status} (hst : s.status run = some st)
    (hbinding : st.binding = job.binding) (walked : Except TransformError Unit) :
    (s.finish run job walked).2.Stocked := by
  refine ⟨(h.sound.finish hst hbinding walked).1, fun b binding hb => ?_, fun k st' binding hk hst' hb => ?_⟩
  · rw [finish_session, modifyRun, bindings_modifyStore] at hb
    split at hb
    · obtain ⟨old, hold, rfl⟩ := Option.map_eq_some_iff.mp hb
      exact (h.nodup b old hold).filter _
    · exact h.nodup b binding hb
  · obtain ⟨hawaited, hne⟩ := (s.awaited_finish run job walked k).mp hk
    rw [status_finish, if_neg hne] at hst'
    rw [finish_session, modifyRun, bindings_modifyStore] at hb
    split at hb
    · obtain ⟨old, hold, rfl⟩ := Option.map_eq_some_iff.mp hb
      exact List.mem_filter.mpr ⟨h.awaited k st' old hawaited hst' hold, by simpa using hne.symm⟩
    · exact h.awaited k st' binding hawaited hst' hb

theorem Stocked.quiet (h : s.Stocked) (hquiet : Quiet s s') (hawaited : ∀ k, s'.Awaited k → s.Awaited k) : s'.Stocked :=
  h.of_bindings (h.sound.quiet hquiet) hquiet.bindings hawaited fun k st' hst' =>
    ⟨st', by rw [← hquiet.status, hst'], rfl⟩

theorem Stocked.advance (h : s.Stocked) (run : RunId) (id : Nat) (state : NodeState) :
    (s.modifyRun run (·.advance id state)).Stocked := by
  have honly := s.only_advance run (·.advance id state) fun _ => rfl
  refine h.of_bindings (honly.stores h.sound) rfl (fun k => ?_) fun k st' hst' => ?_
  · exact (s.awaited_keeping run (f := (·.advance id state)) (fun _ _ => ⟨rfl, rfl⟩) k).mp
  · rw [status_advance s run fun _ => rfl] at hst'
    split at hst'
    · obtain ⟨st, hst, rfl⟩ := Option.map_eq_some_iff.mp hst'
      exact ⟨st, hst, rfl⟩
    · exact ⟨st', hst', rfl⟩

theorem Stocked.effect (h : s.Stocked) (heffect : Effect work edits s s') : s'.Stocked := by
  cases heffect with
  | tables hruns hbindings =>
    exact h.quiet ⟨hbindings, fun k => by rw [status, hruns, status]⟩ fun k => (awaited_of_runs hruns k).mp
  | @edited run id text r r' _ hr hover =>
    refine h.quiet (quiet_edit hr hover) fun k => (s.awaited_keeping run (fun r₁ hr₁ => ?_) k).mp
    obtain rfl : r = r₁ := Option.some.inj (hr.symm.trans hr₁)
    obtain ⟨-, -, -, -, rfl⟩ := Run.override_eq_ok hover
    exact ⟨rfl, rfl⟩
  | recorded run e =>
    refine h.quiet (quiet_modifyRun s run fun _ _ => rfl) fun k => ?_
    exact (s.awaited_keeping run (f := (·.record e)) (fun _ _ => ⟨rfl, rfl⟩) k).mp
  | released run =>
    refine h.quiet (quiet_modifyRun s run fun _ _ => rfl) fun k hk => ?_
    exact ((s.awaited_ending run (fun _ => .inr rfl) k).mp hk).1
  | advanced id state _ _ => exact h.advance _ id state
  | begun hreg => exact h.addRun _ _
  | finished walked _ hr hbinding _ _ => exact h.finish (by rw [status, hr]; rfl) hbinding walked

theorem Stocked.effects (h : s.Stocked) (heffects : Effects work edits s s') : s'.Stocked := by
  induction heffects with
  | refl => exact h
  | tail _ heffect ih => exact ih.effect heffect

end Session

namespace Moment

/-- **Stores are kept up** at every moment of every history. -/
theorem Reachable.stocked {adapters : Array Adapter} {c : Moment} (h : Reachable adapters c) : c.session.Stocked := by
  induction h with
  | refl =>
    have hinv : (rest (.ofAdapters adapters) []).Inv := Reachable.inv .refl
    refine ⟨hinv.stores, fun b binding hb => ?_, fun k st binding hk => ?_⟩
    · rw [rest, Session.ofAdapters, Array.getElem?_map] at hb
      obtain ⟨a, -, rfl⟩ := Option.map_eq_some_iff.mp hb
      exact List.nodup_nil
    · simp [Session.Awaited, rest, Session.ofAdapters] at hk
  | tail h hstep ih => exact ih.effects (hstep.effects (Reachable.inv h))

end Moment

end TreeEdit
