import TreeEdit.Proofs.Engine.Posts

/-!
# What becomes of a job

A job that comes back finished is `Settled`: its parse failed, or some node has a span that is no range of the
text, and then there never was a run; or its walk came to the end, with all turns well, or with the first that
failed. It comes back to whoever started it just when nothing was put off (`outcome_tag`). Which error it
gives is a matter of the first failure, in the order of parse, spans and turns (`first_failure`).
-/

namespace TreeEdit

/-! ## How jobs come out -/

/-- Nothing was put off, neither the parse nor a turn. -/
def Job.AtOnce (job : Job) (run : Option RunId) (ms : List Mark) : Prop :=
  job.parsePolls = none ∧ ∀ k, run = some k → wasPutOff k ms = false

theorem Job.atOnce_cons {job : Job} {run : Option RunId} {ms : List Mark} (x : Mark)
    (hx : x.isDeferral = false) : job.AtOnce run (x :: ms) ↔ job.AtOnce run ms := by
  simp only [AtOnce, wasPutOff_cons x hx]

/-- How a finished job has come out, by its run, if there is one, and its result. -/
inductive Settled (job : Job) (s : Session) (ms : List Mark) :
    Option RunId → Except TransformError Report → Prop
  | unparsed {e} (hparsed : job.parsed = .error e) : Settled job s ms none (.error (.parse e))
  | unregistered {root u} (hparsed : job.parsed = .ok root)
    (hfirst : root.preorder.find? (fun u => !Arena.validSpan job.code.toList u.span) = some u) :
    Settled job s ms none (.error (.invalidSpan u.span (Text.size job.code.toList)))
  | completed {run root r} (hparsed : job.parsed = .ok root)
    (hvalid : ∀ u ∈ root.preorder, Arena.validSpan job.code.toList u.span = true)
    (hturns : turnsOf run ms = turned (job.nodes root run)) (hr : s.runs[run]? = some r)
    (hphase : r.phase = .completed) (hstores : ∀ binding ∈ s.bindings, run ∉ binding.store) :
    Settled job s ms (some run) (.ok (r.report job.lookups))
  | failed {run root r done v todo e} (hparsed : job.parsed = .ok root)
    (hvalid : ∀ u ∈ root.preorder, Arena.validSpan job.code.toList u.span = true)
    (hnodes : job.nodes root run = done ++ v :: todo)
    (hturns : turnsOf run ms = turned done ++ [.started v, .completed v (.error e)])
    (hr : s.runs[run]? = some r) (hphase : r.phase = .failed)
    (hstores : ∀ binding ∈ s.bindings, run ∉ binding.store) :
    Settled job s ms (some run) (.error e)

namespace Work.At

variable {w : Work} {root : Tree} {past rest : List WalkStep} {here : Option Node} {n : Node} {po : Bool}
  {s s' : Session} {ms : List Mark}

theorem exists_run (h : w.At root past here rest po s ms) : ∃ r, s.runs[w.run]? = some r := by
  obtain ⟨r, hr, -⟩ := Option.map_eq_some_iff.mp h.status
  exact ⟨r, hr⟩

theorem atOnce_iff (h : w.At root past here rest po s ms) :
    po = false ↔ w.job.AtOnce (some w.run) ms := by
  rw [← Bool.not_eq_true, h.putOff, Job.AtOnce]
  simp

theorem completed (h : w.At root past none [] po s ms) (hstores : s.StoresSound) :
    Settled w.job (s.finish w.run w.job (.ok ())).2 ms (some w.run) (s.finish w.run w.job (.ok ())).1 := by
  obtain ⟨r, hr⟩ := h.exists_run
  obtain ⟨hresult, hr'⟩ := Session.finish_of_run hr w.job (.ok ())
  have hsteps : w.job.steps root w.run = past := by
    rw [h.plan]
    simp
  rw [hresult]
  refine .completed (r := { r with phase := .completed }) h.parsed h.valid ?_ hr' rfl
    (hstores.finish h.status rfl (.ok ())).2
  rw [h.turns, ← hsteps, w.job.visits_steps]
  simp

theorem failed (h : w.At root past (some n) rest po s ms) (hstores : s.StoresSound) (e : TransformError) :
    Settled w.job ((s.endTurn n).finish w.run w.job (.error e)).2 (.completed n (.error e) :: ms)
      (some w.run) ((s.endTurn n).finish w.run w.job (.error e)).1 := by
  have hrun : n.run = w.run := h.run_of_mem (.visit n) (by simp)
  obtain ⟨r, hr⟩ := h.succeed.exists_run
  obtain ⟨hresult, hr'⟩ := Session.finish_of_run hr w.job (.error e)
  have hnodes : w.job.nodes root w.run = visits past ++ n :: visits rest := by
    rw [← w.job.visits_steps, h.plan]
    simp
  have hstores' : (s.endTurn n).StoresSound :=
    (s.only_advance n.run (·.advance n.id .handled) fun _ => rfl).stores hstores
  rw [hresult]
  refine .failed h.parsed h.valid hnodes ?_ hr' rfl (hstores'.finish h.succeed.status rfl (.error e)).2
  rw [turnsOf_cons (.completed n _) hrun rfl, h.turns]
  simp

end Work.At

namespace Moment

/-- What is known of a job that comes back to its caller. -/
def Returns (c : Moment) : Prop :=
  match c.focus with
  | .back job _ run (.finished result) =>
    (polled c.callers = false ↔ job.AtOnce run c.marks) ∧ Settled job c.session c.marks run result
  | .back job m run (.pending t) => t.job = job ∧ t.manipulator = m ∧ t.run? = run
  | _ => True

variable {job : Job} {m : Manipulator} {cs : List Caller} {s : Session} {ms : List Mark}

theorem returns_begin (hpolled : polled cs = false ↔ job.parsePolls = none) :
    (begin job m cs s ms).Returns := by
  have htag : polled cs = false ↔ job.AtOnce none ms := by
    rw [hpolled, Job.AtOnce]
    simp
  cases hparsed : job.parsed with
  | error e =>
    simp only [begin, hparsed]
    exact ⟨htag, .unparsed hparsed⟩
  | ok root =>
    cases hfirst : root.preorder.find? (fun u => !Arena.validSpan job.code.toList u.span) with
    | some u =>
      simp only [begin, hparsed, Arena.register, hfirst]
      exact ⟨htag, .unregistered hparsed hfirst⟩
    | none =>
      simp only [begin, hparsed, Arena.register, hfirst]
      exact trivial

theorem returns_launch (hcs : polled cs = false) : (launch job m cs s ms).Returns := by
  cases hpolls : job.parsePolls with
  | some polls =>
    simp only [launch, hpolls]
    exact ⟨rfl, rfl, rfl⟩
  | none =>
    simp only [launch, hpolls]
    exact returns_begin (iff_of_true hcs hpolls)

/-- **Whenever a job comes back**, it is known how it came out. -/
theorem Inv.returns {c c' : Moment} (h : c.Inv) (hstep : Step c c') : c'.Returns := by
  cases hstep with
  | finish =>
    obtain ⟨⟨root, past, hat⟩, -, -⟩ := Inv.walking_iff.mp h
    exact ⟨hat.atOnce_iff, hat.completed h.stores⟩
  | start => exact returns_launch rfl
  | suspend => exact ⟨rfl, rfl, rfl⟩
  | @fail v e cs s ms =>
    obtain ⟨⟨root, past, hat⟩, -, -⟩ := Inv.walking_iff.mp h
    exact ⟨hat.atOnce_iff.trans (Job.atOnce_cons (.completed v.node (.error e)) rfl).symm,
      hat.failed h.stores e⟩
  | @again job m run t name s ms =>
    cases t with
    | walking run node turn rest job m => trivial
    | parsing polls job m =>
      cases polls with
      | succ n => exact ⟨rfl, rfl, rfl⟩
      | zero => exact returns_begin (iff_of_false Bool.noConfusion (Inv.parsing_iff.mp h).1)
  | launch => exact returns_launch rfl
  | poll => exact ⟨rfl, rfl, rfl⟩
  | _ => trivial

theorem Reachable.returns {adapters : Array Adapter} {c : Moment} (h : Reachable adapters c) : c.Returns := by
  rcases Relation.ReflTransGen.cases_tail h with rfl | ⟨c₀, h₀, hstep⟩
  · trivial
  · exact Inv.returns (Reachable.inv h₀) hstep

end Moment

/-! ## Failures -/

theorem mem_turnsOf {run : RunId} {ms : List Mark} {x : Mark} :
    x ∈ turnsOf run ms ↔ x ∈ marksOf run ms ∧ x.isDeferral = false := by
  simp [turnsOf]

theorem eq_ok_of_mem_turned {done : List Node} {v : Node} {result : Except TransformError Unit}
    (h : .completed v result ∈ turned done) : result = .ok () := by
  obtain ⟨u, -, hu⟩ := List.mem_flatMap.mp h
  simp at hu
  exact hu.2

/-- Which failure a finished job comes to, by its run, if there is one, and its result. -/
structure FirstFailure (job : Job) (m : Manipulator) (s : Session) (ms : List Mark) (run : Option RunId)
    (result : Except TransformError Report) : Prop where
  ok_iff : (∃ report, result = .ok report) ↔
    (∃ root, job.parsed = .ok root ∧
      ∀ u ∈ root.preorder, Arena.validSpan job.code.toList u.span = true) ∧
    ∀ k, run = some k → ∀ v answer, .completed v answer ∈ marksOf k ms → answer = .ok ()
  /-- A good job has given every node its turn. -/
  turns : ∀ report, result = .ok report →
    ∃ root k, job.parsed = .ok root ∧ run = some k ∧ turnsOf k ms = turned (job.nodes root k)
  parse : ∀ e, job.parsed = .error e → run = none ∧ result = .error (.parse e)
  /-- The first node, each before its children, whose span is no range of the text. -/
  span : ∀ root before u after, job.parsed = .ok root → root.preorder = before ++ u :: after →
    (∀ x ∈ before, Arena.validSpan job.code.toList x.span = true) →
    Arena.validSpan job.code.toList u.span = false →
    run = none ∧ result = .error (.invalidSpan u.span (Text.size job.code.toList))
  /-- Without a run, nothing happens in the session, whatever turns would do. -/
  untouched : run = none → ∀ turnOf s₀, Session.begin turnOf job m s₀ = (.finished result, s₀)
  /-- A turn that fails is the last one, and the run is over. -/
  turn : ∀ k v e, run = some k → .completed v (.error e) ∈ marksOf k ms →
    result = .error e ∧
    (∃ root done todo, job.parsed = .ok root ∧ job.nodes root k = done ++ v :: todo ∧
      turnsOf k ms = turned done ++ [.started v, .completed v (.error e)]) ∧
    (∃ r, s.runs[k]? = some r ∧ r.phase = .failed) ∧ ∀ binding ∈ s.bindings, k ∉ binding.store

theorem Settled.firstFailure {job : Job} {s : Session} {ms : List Mark} {run : Option RunId}
    {result : Except TransformError Report} (h : Settled job s ms run result) (m : Manipulator) :
    FirstFailure job m s ms run result := by
  cases h with
  | @unparsed e hparsed =>
    exact {
      ok_iff := by simp [hparsed]
      turns := by simp
      parse := fun e' he => by
        cases hparsed.symm.trans he
        exact ⟨rfl, rfl⟩
      span := by simp [hparsed]
      untouched := fun _ turnOf s₀ => by simp only [Session.begin, hparsed]
      turn := by simp }
  | @unregistered root u hparsed hfirst =>
    have hinvalid : Arena.validSpan job.code.toList u.span = false := by simpa using List.find?_some hfirst
    exact {
      ok_iff := by
        refine iff_of_false (by simp) ?_
        rintro ⟨⟨root', hroot, hvalid⟩, -⟩
        cases hparsed.symm.trans hroot
        rw [hvalid u (List.mem_of_find?_eq_some hfirst)] at hinvalid
        cases hinvalid
      turns := by simp
      parse := by simp [hparsed]
      span := fun root' before u' after hroot hsplit hbefore hu' => by
        cases hparsed.symm.trans hroot
        have hfirst' : root.preorder.find? (fun u => !Arena.validSpan job.code.toList u.span) = some u' :=
          List.find?_eq_some_iff_append.mpr ⟨by simp [hu'], before, after, hsplit, by simpa using hbefore⟩
        cases hfirst.symm.trans hfirst'
        exact ⟨rfl, rfl⟩
      untouched := fun _ turnOf s₀ => by simp only [Session.begin, hparsed, Arena.register, hfirst]
      turn := by simp }
  | @completed k root r hparsed hvalid hturns hr hphase hstores =>
    have hgood : ∀ v answer, .completed v answer ∈ marksOf k ms → answer = .ok () := by
      intro v answer hmem
      have hmem' : .completed v answer ∈ turnsOf k ms := mem_turnsOf.mpr ⟨hmem, rfl⟩
      exact eq_ok_of_mem_turned (hturns ▸ hmem')
    exact {
      ok_iff := by
        refine iff_of_true ⟨_, rfl⟩ ⟨⟨root, hparsed, hvalid⟩, fun k' hk' => ?_⟩
        cases hk'
        exact hgood
      turns := fun _ _ => ⟨root, k, hparsed, rfl, hturns⟩
      parse := by simp [hparsed]
      span := fun root' before u after hroot hsplit _ hu => by
        cases hparsed.symm.trans hroot
        rw [hvalid u (by simp [hsplit])] at hu
        cases hu
      untouched := by simp
      turn := fun k' v e hk' hmem => by
        cases hk'
        cases hgood v _ hmem }
  | @failed k root r done v todo e hparsed hvalid hnodes hturns hr hphase hstores =>
    have hlast : ∀ v' answer, .completed v' answer ∈ marksOf k ms →
        answer = .ok () ∨ v' = v ∧ answer = .error e := by
      intro v' answer hmem
      have hmem' : .completed v' answer ∈ turnsOf k ms := mem_turnsOf.mpr ⟨hmem, rfl⟩
      rw [hturns, List.mem_append] at hmem'
      rcases hmem' with hdone | hlast
      · exact .inl (eq_ok_of_mem_turned hdone)
      · simp at hlast
        exact .inr hlast
    exact {
      ok_iff := by
        refine iff_of_false (by simp) ?_
        rintro ⟨-, hgood⟩
        have hmem : .completed v (.error e) ∈ turnsOf k ms := by simp [hturns]
        cases hgood k rfl v _ (mem_turnsOf.mp hmem).1
      turns := by simp
      parse := by simp [hparsed]
      span := fun root' before u after hroot hsplit _ hu => by
        cases hparsed.symm.trans hroot
        rw [hvalid u (by simp [hsplit])] at hu
        cases hu
      untouched := by simp
      turn := fun k' v' e' hk' hmem => by
        cases hk'
        rcases hlast v' _ hmem with h | ⟨rfl, h⟩
        · cases h
        · cases h
          exact ⟨rfl, ⟨root, done, todo, hparsed, hnodes, hturns⟩, ⟨r, hr, hphase⟩, hstores⟩ }

namespace Moment

variable {adapters : Array Adapter} {job : Job} {m : Manipulator} {s s' : Session} {ms : List Mark}

theorem Reachable.transform_leads (h : Reachable adapters (.rest s ms)) {polls : Nat}
    {result : Except TransformError Report} (htransform : s.transform job m polls = (some result, s')) :
    ∃ polling run ms',
      Leads (.rest s ms) ⟨.back job m run (.finished result), [.outside polling job.name], s', ms'⟩ ∧
      (polling = false ∧ (s.start job m).1 = .finished result ∨
        polling = true ∧ (s.start job m).1 = .deferred) := by
  obtain ⟨run, ms₁, hleads⟩ := start_leads job m s ms
  rw [s.start_eq]
  rcases Session.transform_cases htransform with hup | ⟨t, s₁, s₂, k, hup, htake, -, hpolls⟩
  · rw [hup] at hleads ⊢
    exact ⟨false, run, ms₁, hleads, .inl ⟨rfl, rfl⟩⟩
  · rw [hup] at hleads ⊢
    have hback : Reachable adapters ⟨.back job m run (.pending t), [.outside false job.name], s₁, ms₁⟩ :=
      Relation.ReflTransGen.trans h hleads
    obtain ⟨rfl, rfl, -⟩ := hback.returns
    obtain ⟨run', ms', hpolled, -⟩ := poll_leads htake polls ms₁
    rw [hpolls] at hpolled
    exact ⟨true, run', ms', (hleads.tail .leave).trans hpolled, .inr ⟨rfl, rfl⟩⟩

theorem Reachable.turn_of_error {run : Option RunId} {e : TransformError} {cs : List Caller}
    (h : Reachable adapters ⟨.back job m run (.finished (.error e)), cs, s, ms⟩) {root : Tree}
    (hparsed : job.parsed = .ok root)
    (hvalid : ∀ u ∈ root.preorder, Arena.validSpan job.code.toList u.span = true) :
    ∃ k v, run = some k ∧ .completed v (.error e) ∈ marksOf k ms := by
  have hsettled := h.returns.2
  cases hsettled with
  | unparsed hfailed =>
    rw [hparsed] at hfailed
    cases hfailed
  | unregistered hroot hfirst =>
    cases hparsed.symm.trans hroot
    have hinvalid := List.find?_some hfirst
    rw [hvalid _ (List.mem_of_find?_eq_some hfirst)] at hinvalid
    cases hinvalid
  | @failed k root r done v todo e hparsed hvalid hnodes hturns =>
    have hlast : .completed v (.error e) ∈ turnsOf k ms := by simp [hturns]
    exact ⟨k, v, rfl, (mem_turnsOf.mp hlast).1⟩

/-- The job fails only with a turn of its own, whoever starts it and with whatever manipulator: at every moment of every
history at which it comes back with an error, and when it is started and polled. -/
structure FailsOnlyInTurns (job : Job) : Prop where
  back : ∀ adapters m run e cs s ms,
    Reachable adapters ⟨.back job m run (.finished (.error e)), cs, s, ms⟩ →
    ∃ k v, run = some k ∧ .completed v (.error e) ∈ marksOf k ms
  transform : ∀ adapters m s ms polls e s', Reachable adapters (.rest s ms) →
    s.transform job m polls = (some (.error e), s') →
    ∃ polling k ms' v,
      Leads (.rest s ms) ⟨.back job m (some k) (.finished (.error e)), [.outside polling job.name], s', ms'⟩ ∧
      .completed v (.error e) ∈ marksOf k ms'

theorem failsOnlyInTurns {job : Job} {root : Tree} (hparsed : job.parsed = .ok root)
    (hvalid : ∀ u ∈ root.preorder, Arena.validSpan job.code.toList u.span = true) : FailsOnlyInTurns job where
  back _ _ _ _ _ _ _ h := h.turn_of_error hparsed hvalid
  transform adapters m s ms polls e s' h htransform := by
    obtain ⟨polling, run, ms', hleads, -⟩ := h.transform_leads htransform
    obtain ⟨k, v, rfl, hmark⟩ := Reachable.turn_of_error (Relation.ReflTransGen.trans h hleads) hparsed hvalid
    exact ⟨polling, k, ms', v, hleads, hmark⟩

/-- **The first failure decides.** At every moment of every history at which a job comes back finished, it is good
just when it was parsed, all spans are ranges of the text and all turns were good; else its error is that of the
parse, of the first bad span or of the turn that failed. So it is with every job that is started and polled to
its end, and each has an end if no turn waits for ever. -/
theorem first_failure (adapters : Array Adapter) :
    (∀ job m run result cs s ms, Reachable adapters ⟨.back job m run (.finished result), cs, s, ms⟩ →
      FirstFailure job m s ms run result) ∧
    ∀ job m s ms, Reachable adapters (.rest s ms) →
      (∀ polls result s', s.transform job m polls = (some result, s') →
        ∃ polling run ms',
          Leads (.rest s ms) ⟨.back job m run (.finished result), [.outside polling job.name], s', ms'⟩ ∧
          FirstFailure job m s' ms' run result) ∧
      ((∀ seen node, (m seen node).Terminates) →
        ∃ polls result, (s.transform job m polls).1 = some result) := by
  have hback : ∀ job m run result cs s ms,
      Reachable adapters ⟨.back job m run (.finished result), cs, s, ms⟩ →
      FirstFailure job m s ms run result := fun job m run result cs s ms h => h.returns.2.firstFailure m
  refine ⟨hback, fun job m s ms h => ⟨fun polls result s' htransform => ?_, fun hm => ?_⟩⟩
  · obtain ⟨polling, run, ms', hleads, -⟩ := h.transform_leads htransform
    exact ⟨polling, run, ms', hleads, hback _ _ _ _ _ _ _ (Relation.ReflTransGen.trans h hleads)⟩
  · exact Session.exists_polls_finished hm s

/-- The second of two children fails, so that the turn of the node above them is not reached. -/
theorem first_failure_second_child :
    let adapter : Adapter := { name := "any", isNode := fun _ => true }
    let first : Tree := { kind := "first", span := ⟨0, 1⟩ }
    let second : Tree := { kind := "second", span := ⟨1, 2⟩ }
    let root : Tree := { kind := "pair", span := ⟨0, 2⟩, children := [first, second] }
    let job : Job :=
      { name := "job", binding := 0, code := "xy", parsePolls := none, parsed := .ok root,
        sharedTree := false, map := {}, lookups := [] }
    let m : Manipulator := fun _ node =>
      if node.id = 2 then .done (.error .runFinished) else .done (.ok ())
    ∃ s ms, Reachable #[adapter]
        ⟨.back job m (some 0) (.finished (.error .runFinished)), [.outside false "job"], s, ms⟩ ∧
      FirstFailure job m s ms (some 0) (.error .runFinished) := by
  intro adapter first second root job m
  have hwalk := Step.launch_walk m (.ofAdapters #[adapter]) [] (show job.parsePolls = none from rfl)
    (show job.parsed = .ok root from rfl) (by decide)
  have hfirst := Relation.ReflTransGen.single hwalk |>.tail .enter |>.tail .enter |>.tail .visit
  have hsecond := hfirst |>.tail .succeed |>.tail .enter |>.tail .visit |>.tail .fail
  exact ⟨_, _, hsecond, (first_failure #[adapter]).1 _ _ _ _ _ _ _ hsecond⟩

/-! ## Outcomes -/

/-- What whoever starts a job hears: the result if all was there at once, also when a turn failed. -/
def Tagged (job : Job) (run : Option RunId) (ms : List Mark) (started : Started) : Prop :=
  ((∃ result, started = .finished result) ↔ job.AtOnce run ms) ∧
  ∀ k v e, run = some k → .completed v (.error e) ∈ marksOf k ms → started = .finished (.error e)

/-- What starting a job comes to, and what polling it comes to. -/
structure OutcomeTag (s : Session) (ms : List Mark) (job : Job) (m : Manipulator) : Prop where
  start : ∃ run p s' ms', Leads (.rest s ms) ⟨.back job m run p, [.outside false job.name], s', ms'⟩ ∧
    s.start job m = (p.started, s'.keep job.name p) ∧ Tagged job run ms' (s.start job m).1
  /-- If something was put off, the error of a turn that failed is there when the job is polled. -/
  poll : ∀ polls result s', s.transform job m polls = (some result, s') →
    ∃ polling run ms',
      Leads (.rest s ms) ⟨.back job m run (.finished result), [.outside polling job.name], s', ms'⟩ ∧
      ((s.start job m).1 = .finished result ∧ job.AtOnce run ms' ∨
        (s.start job m).1 = .deferred ∧ ¬ job.AtOnce run ms') ∧
      ∀ k v e, run = some k → .completed v (.error e) ∈ marksOf k ms' → result = .error e
  ends : (∀ seen node, (m seen node).Terminates) →
    ∃ polls result, (s.transform job m polls).1 = some result

theorem Reachable.pending {cs : List Caller} {run : Option RunId} {t : Task}
    (h : Reachable adapters ⟨.back job m run (.pending t), cs, s, ms⟩) :
    ¬ job.AtOnce run ms ∧
      ∀ k v answer, run = some k → .completed v answer ∈ marksOf k ms → answer = .ok () := by
  obtain ⟨rfl, -, rfl⟩ := h.returns
  have hpost := h.inv.sound t.post List.mem_cons_self
  cases t with
  | parsing polls job m => exact ⟨fun hnow => hpost hnow.1, fun k v answer hk => (nomatch hk)⟩
  | walking run node turn rest job m =>
    obtain ⟨root, past, hat⟩ := hpost
    refine ⟨fun hnow => Bool.noConfusion (hat.atOnce_iff.mpr hnow), fun k v answer hk hmem => ?_⟩
    cases hk
    have hmem' : .completed v answer ∈ turnsOf run ms := mem_turnsOf.mpr ⟨hmem, rfl⟩
    rw [hat.turns, List.mem_append] at hmem'
    rcases hmem' with hdone | hstarted
    · exact eq_ok_of_mem_turned hdone
    · simp at hstarted

theorem Reachable.tagged {cs : List Caller} {run : Option RunId} {p : Progression}
    (h : Reachable adapters ⟨.back job m run p, cs, s, ms⟩) (hcs : polled cs = false) :
    Tagged job run ms p.started := by
  cases p with
  | finished result =>
    obtain ⟨htag, hsettled⟩ := h.returns
    refine ⟨iff_of_true ⟨result, rfl⟩ (htag.mp hcs), fun k v e hk hmem => ?_⟩
    rw [((hsettled.firstFailure m).turn k v e hk hmem).1]
    rfl
  | pending t =>
    obtain ⟨hlater, hgood⟩ := h.pending
    refine ⟨iff_of_false (by simp [Progression.started]) hlater, fun k v e hk hmem => ?_⟩
    cases hgood k v _ hk hmem

/-- **The tag of an outcome.** A job that is started, by someone outside or in a turn, is finished at once just when
its parse and each turn that was taken were there at once, and then it gives the error of a turn that failed. A
job that has to be polled had something put off, and comes to that error when it is polled; it comes to some
end if no turn waits for ever. -/
theorem outcome_tag (adapters : Array Adapter) :
    (∀ job m run p cs s ms, Reachable adapters ⟨.back job m run p, cs, s, ms⟩ → polled cs = false →
      Tagged job run ms p.started) ∧
    ∀ job m s ms, Reachable adapters (.rest s ms) → OutcomeTag s ms job m := by
  refine ⟨fun job m run p cs s ms h hcs => h.tagged hcs, fun job m s ms h =>
    ⟨?start, ?poll, fun hm => Session.exists_polls_finished hm s⟩⟩
  case start =>
    obtain ⟨run, ms', hleads⟩ := start_leads job m s ms
    refine ⟨run, _, _, ms', hleads, s.start_eq job m, ?_⟩
    rw [s.start_eq]
    exact Reachable.tagged (Relation.ReflTransGen.trans h hleads) rfl
  case poll =>
    intro polls result s' htransform
    obtain ⟨polling, run, ms', hleads, hpolling⟩ := h.transform_leads htransform
    have hback : Reachable adapters
        ⟨.back job m run (.finished result), [.outside polling job.name], s', ms'⟩ :=
      Relation.ReflTransGen.trans h hleads
    obtain ⟨htag, hsettled⟩ := hback.returns
    refine ⟨polling, run, ms', hleads, ?_, fun k v e hk hmem => ((hsettled.firstFailure m).turn k v e hk hmem).1⟩
    rcases hpolling with ⟨rfl, hstart⟩ | ⟨rfl, hstart⟩
    · exact .inl ⟨hstart, htag.mp rfl⟩
    · exact .inr ⟨hstart, fun hnow => Bool.noConfusion (htag.mpr hnow)⟩

/-- A job whose parse is there after one poll, and whose only turn fails at once. -/
theorem outcome_tag_late_parse :
    let adapter : Adapter := { name := "any", isNode := fun _ => true }
    let root : Tree := { kind := "root", span := ⟨0, 2⟩ }
    let job : Job :=
      { name := "job", binding := 0, code := "xy", parsePolls := some 1, parsed := .ok root,
        sharedTree := false, map := {}, lookups := [] }
    let m : Manipulator := fun _ _ => .done (.error .runFinished)
    Reachable #[adapter] (.rest (.ofAdapters #[adapter]) []) ∧ OutcomeTag (.ofAdapters #[adapter]) [] job m ∧
      ((Session.ofAdapters #[adapter]).start job m).1 = .deferred :=
  ⟨.refl, (outcome_tag _).2 _ _ _ _ .refl, rfl⟩

end Moment

end TreeEdit
