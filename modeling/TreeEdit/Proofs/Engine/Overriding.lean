import TreeEdit.Proofs.Engine.BottomUp
import TreeEdit.Proofs.Engine.Status

/-!
# Overriding chosen nodes

The simplest of all manipulators has a new text for some nodes, known beforehand, and overrides just these
(`overriding`). No turn of it waits and none fails, so a job is finished as soon as it is started
(`start_overriding`): with the root rewritten by the new texts where the spans are nested, and with the text as it
was where there is no new text at all.
-/

namespace TreeEdit

/-- Overrides the nodes that there is a new text for, by their numbers, and leaves all others alone. -/
def overriding (new : Nat → Option String) : Manipulator := fun _ node =>
  match new node.id with
  | none => .done (.ok ())
  | some text => .call (.override (.helpers node) node text) fun answer => .done answer

theorem overriding_own (new : Nat → Option String) (seen : Transcript) (node : Node) :
    (overriding new seen node).OwnNodeOnly node := by
  unfold overriding
  cases new node.id with
  | none => trivial
  | some text => exact ⟨.inr ⟨text, rfl⟩, fun _ => trivial⟩

theorem Buffer.Sound.code_of_untouched {b : Buffer} (hb : b.Sound) (hbare : b.insertions = [])
    (hnone : b.replacements = []) : b.code = b.base := by
  have hgap : b.scan true 0 b.size 0 = Text.between b.base 0 b.size ++ b.scan true 0 b.size b.size := by
    refine scan_gap hbare (Text.isBoundary_zero _) (Text.isBoundary_size _) (Nat.zero_le _) (Nat.le_refl _) ?_
    rw [hnone]
    exact fun r hr => (nomatch hr)
  have hall := Text.between_size_append [] b.base []
  rw [hb.code_eq_scan, hgap, scan_of_not_lt (Nat.lt_irrefl _), emitted_of_bare hbare, List.append_nil]
  simpa [Buffer.size] using hall

theorem standing_none (nodes : List Node) : standing (fun _ => none) nodes = [] := by
  induction nodes with
  | nil => rfl
  | cons n nodes ih => exact ih

section

variable {text : List Char} {root : Tree} {key : TreeKey} {new : Nat → Option String} {done todo : List Node} {v : Node}

theorem exec_overriding (hfits : new v.id ≠ none → root.Fits text)
    (hall : root.postorder v.run key 0 = done ++ v :: todo) (polled : Bool) {seen : Transcript} {s : Session} {r : Run}
    (hr : s.runs[v.run]? = some r) (h : r.InTurn text (overriding new) done v todo (overriding new seen v))
    (hnone : lastOverride r.transcript v.id = none) :
    ∃ s' r', (overriding new seen v).exec polled (some v.run) s = (.finished (.ok ()), s') ∧
      s'.runs[v.run]? = some r' ∧ r'.InTurn text (overriding new) done v todo (.done (.ok ())) ∧
      lastOverride r'.transcript v.id = new v.id ∧
      ∀ id, v.id ≠ id → lastOverride r'.transcript id = lastOverride r.transcript id := by
  cases hnew : new v.id with
  | none =>
    have hturn : overriding new seen v = .done (.ok ()) := by simp [overriding, hnew]
    rw [hturn] at h ⊢
    exact ⟨s, r, rfl, hr, h, hnone, fun id _ => rfl⟩
  | some text =>
    have hturn : overriding new seen v =
        .call (.override (.helpers v) v text) fun answer => .done answer := by simp [overriding, hnew]
    rw [hturn] at h ⊢
    obtain ⟨r', hok, hnext⟩ := h.override (hfits (by rw [hnew]; simp)) hall
    obtain ⟨e, buffer, -, -, rfl⟩ := Run.override_eq_ok hok
    rw [Turn.exec, Session.respond_override hr h.after.held hok]
    refine ⟨_, _, rfl, ?_, hnext, lastOverride_override_self _ v text _ _, fun id hid => ?_⟩
    · rw [Session.runs_modifyRun, Array.getElem?_modify, if_pos rfl, hr]
      rfl
    · exact lastOverride_override_of_ne _ text _ _ hid

end

namespace Session

variable {job : Job} {root : Tree} {run : RunId} {new : Nat → Option String}

/-- **A walk** comes to its end, and each node is overridden as it should be. -/
theorem walk_overriding (hfits : ∀ id, new id ≠ none → root.Fits job.code.toList) (polled : Bool)
    {steps : List WalkStep} (hrun : ∀ step ∈ steps, step.node.run = run) {done : List Node}
    (hall : job.nodes root run = done ++ visits steps) {s : Session} {r : Run} (hr : s.runs[run]? = some r)
    (h : r.AfterTurns job.code.toList done (visits steps))
    (hdone : ∀ n ∈ done, lastOverride r.transcript n.id = new n.id) :
    ∃ s' r', walk (fun seen node => (overriding new seen node).exec polled (some run)) steps s =
        (.finished (.ok ()), s') ∧ s'.runs[run]? = some r' ∧
      r'.AfterTurns job.code.toList (job.nodes root run) [] ∧
      ∀ n ∈ job.nodes root run, lastOverride r'.transcript n.id = new n.id := by
  induction steps generalizing done s r with
  | nil =>
    have hnodes : job.nodes root run = done := by simpa [visits] using hall
    rw [hnodes]
    exact ⟨s, r, rfl, hr, h, hdone⟩
  | cons step rest ih =>
    have hrest : ∀ step ∈ rest, step.node.run = run := fun d hd => hrun d (by simp [hd])
    cases step with
    | enter node =>
      obtain rfl : node.run = run := hrun (.enter node) (by simp)
      rw [walk]
      refine ih hrest hall (r := r.advance node.id .traversingChildren) ?_ (h.advance (.inl (by decide))) hdone
      rw [runs_modifyRun, hr]
      rfl
    | visit node =>
      obtain rfl : node.run = run := hrun (.visit node) (by simp)
      have hin := h.visit (overriding_own new r.transcript node)
      have hr₁ : (s.modifyRun node.run fun r =>
          (r.advance node.id .running).record (.visited node)).runs[node.run]? =
          some ((r.advance node.id .running).record (.visited node)) := by
        rw [runs_modifyRun, hr]
        rfl
      obtain ⟨s', r', hexec, hr', hin', hself, hothers⟩ :=
        exec_overriding (hfits node.id) hall polled hr₁ hin (h.waiting node (by simp)).2
      obtain ⟨hr₂, hend⟩ := afterTurns_endTurn hall hr' hin'
      simp only [walk, transcript_of_runs hr, hexec]
      refine ih hrest (by rw [hall, visits_visit, List.append_cons]) hr₂ hend fun n hn => ?_
      rcases List.mem_append.mp hn with hn | hn
      · have hne : node.id ≠ n.id := (Tree.id_of_split hall).2.1 n hn
        exact (hothers n.id hne).trans (hdone n hn)
      · rw [List.mem_singleton.mp hn]
        exact hself

theorem transform_of_finished {s : Session} {m : Manipulator} {result : Except TransformError Report}
    (h : (s.start job m).1 = .finished result) (polls : Nat) : (s.transform job m polls).1 = some result := by
  rw [transform]
  generalize s.start job m = started at h ⊢
  obtain ⟨started, s'⟩ := started
  cases h
  rfl

theorem start_overriding (hparsed : job.parsed = .ok root) (hready : job.parsePolls = none)
    (hvalid : ∀ u ∈ root.preorder, Arena.validSpan job.code.toList u.span = true)
    (hfits : ∀ id, new id ≠ none → root.Fits job.code.toList) (s : Session) :
    ∃ report, (s.start job (overriding new)).1 = .finished (.ok report) ∧
      (root.Fits job.code.toList → report.code = String.ofList
        (Text.splice job.code.toList (Text.size job.code.toList) 0
          [(root.span, root.rewritten job.code.toList new 0)])) ∧
      ((∀ id, new id = none) → report.code = job.code) := by
  have hreg : Arena.register job.code.toList root = .ok (Arena.ofTree root) :=
    Arena.register_eq_ok_iff.mpr ⟨rfl, hvalid⟩
  obtain ⟨r, hr, hafter⟩ := addRun_afterTurns hvalid s
  have hall : job.nodes root s.runs.size = [] ++ visits (root.plan s.runs.size
      (if job.sharedTree then .ofBinding job.binding else .ofRun s.runs.size)) := by
    rw [Tree.visits_plan]
    rfl
  rw [hall] at hafter
  obtain ⟨s', r', hwalk, hr', hafter', hnew⟩ := walk_overriding hfits false (fun step => Tree.run_of_mem_plan) hall hr
    hafter fun n hn => (nomatch hn)
  have hlast : ∀ id, id < root.size → lastOverride r'.transcript id = new id := by
    intro id hid
    obtain ⟨n, hn, rfl⟩ := Tree.exists_mem_postorder.1 root 0 id (Nat.zero_le _) (by omega)
    exact hnew n hn
  refine ⟨r'.report job.lookups, ?_, fun hroot => ?_, fun hnone => ?_⟩
  · have hfinish : (s'.finish s.runs.size job (.ok ())).1 = .ok (r'.report job.lookups) :=
      (finish_of_run hr' job (.ok ())).1
    have hbegin : (begin (fun run seen node => (overriding new seen node).exec false (some run)) job (overriding new) s).1 =
        .finished (.ok (r'.report job.lookups)) := by
      simp only [begin, hparsed, hreg, walkOn]
      rw [show (s.addRun job (Arena.ofTree root)).1 = s.runs.size from rfl, hwalk]
      exact congrArg Progression.finished hfinish
    rcases start_cases s job (overriding new) with ⟨n, hn, -⟩ | ⟨-, ⟨result, t, heq, hstart⟩ | ⟨task, t, heq, hstart⟩⟩
    · rw [hready] at hn
      cases hn
    · rw [heq] at hbegin
      cases hbegin
      rw [hstart]
    · rw [heq] at hbegin
      cases hbegin
  · have hcode := Outcome.of_afterTurns ⟨hparsed, hroot, overriding_own new⟩ hafter' job.lookups
    have hsame : root.rewritten job.code.toList (lastOverride r'.transcript) 0 = root.rewritten job.code.toList new 0 :=
      Tree.rewritten_congr.1 root 0 fun j _ hj => hlast j (by omega)
    rw [Outcome, hsame] at hcode
    exact hcode
  · have hreplaced : r'.buffer.replacements = [] := by
      have hstanding : standing (lastOverride r'.transcript) (job.nodes root s.runs.size) = standing (fun _ => none) _ :=
        standing_congr fun n hn => (hnew n hn).trans (hnone n.id)
      rw [hafter'.replaced, hstanding]
      exact standing_none _
    have hcode := hafter'.sound.buffer.code_of_untouched hafter'.bare hreplaced
    rw [hafter'.sound.base] at hcode
    exact (congrArg String.ofList hcode).trans (String.ofList_toList)

end Session

end TreeEdit
