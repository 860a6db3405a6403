/-
  A program and its step file show the same.

  A program can be run, or its steps can be written to a file and replayed from there.  In both
  cases an engine has the steps of the program before it.  `finishJob_run` follows such a job by
  induction on the steps that are left, and finds that it prints their `transcript`.  The steps of a
  generation do not depend on the log (`Generator.generate_log`) and are legible
  (`Generator.generate_legible`), so they are read back from the text of the step file
  (`read_stepText`), and that text is read back from the disk (`Disk.read_write`).
-/
import EventLoop.Proofs.Files
import EventLoop.Proofs.Legibility
import EventLoop.Proofs.Rendering
import EventLoop.Proofs.Stepping

namespace EventLoop.Cli

open Engine (Waitable RunState)

variable {α β : Type} {d d' : Disk} {path text : String} {a : Arguments} {line : List String}
  {log : Log} {v : Visualizer}

/-! ## Texts -/

theorem unifyLines_eq (done : List Char) {cs : List Char} (h : '\r' ∉ cs) :
    unifyLines done cs = done.reverse ++ cs := by
  induction cs generalizing done with
  | nil => rw [unifyLines, List.append_nil]
  | cons c rest ih =>
    rw [List.mem_cons, not_or] at h
    obtain ⟨hc, hrest⟩ := h
    rw [unifyLines, ih (c :: done) hrest, List.reverse_cons, List.append_assoc]
    · rfl
    · intro _ heq _
      exact hc heq.symm
    · intro heq
      exact hc heq.symm

/-- The text of a program file, as it is read. -/
def sourceOf (text : String) : String := String.ofList (unifyLines [] text.toList)

/-- What the program in a file comes to. -/
def generationOf (text : String) : Generation :=
  ((Generator.withLog {}).generate (some (sourceOf text))).1

/-- The text of the step file of a program. -/
def stepText (text : String) : String :=
  (Step.listToJson (generationOf text).steps).render .indented

/-- A text of some lines. -/
def unlines (lines : List String) : String := String.join (lines.map (· ++ "\n"))

/-- The lines that are printed for some steps. -/
def transcript (trace : Bool) (steps : List Step) : List String :=
  (steps.flatMap Step.signals).filterMap (signalLine? trace)

theorem generate_withLog (log : Log) (text : String) :
    ((Generator.withLog log).generate (some (sourceOf text))).1 = generationOf text :=
  (Generator.withLog {}).generate_log log (some (sourceOf text))

/-! ## Disks -/

namespace Disk

/-- Prints some lines. -/
def printed (d : Disk) (lines : List String) : Disk := { d with out := d.out ++ unlines lines }

theorem printed_nil (d : Disk) : d.printed [] = d := by
  rw [printed, unlines, List.map_nil, String.join_nil, String.append_empty]

theorem printed_files (d : Disk) (lines : List String) : (d.printed lines).files = d.files := rfl

theorem printed_append (d : Disk) (lines lines' : List String) :
    d.printed (lines ++ lines') = (d.printed lines).printed lines' := by
  simp only [printed, unlines, List.map_append, String.join_append, String.append_assoc]

theorem bind_apply (act : StateM Disk α) (f : α → StateM Disk β) (d : Disk) :
    (act >>= f) d = f (act d).1 (act d).2 := rfl

theorem pure_apply (a : α) (d : Disk) : (pure a : StateM Disk α) d = (a, d) := rfl

theorem write_apply (path text : String) (d : Disk) :
    host.write path text d = d.write path text := rfl

theorem print_apply (line : String) (d : Disk) : host.print line d = ((), d.printed [line]) := by
  have hline : unlines [line] = line ++ "\n" := by
    rw [unlines, List.map_singleton, String.join_cons, String.join_nil, String.append_empty]
  rw [printed, hline, ← String.append_assoc]
  rfl

theorem printAll_apply (lines : List String) (d : Disk) : (forIn lines PUnit.unit fun line _ => do
      host.print line
      pure (.yield PUnit.unit) : StateM Disk PUnit) d = (.unit, d.printed lines) := by
  induction lines generalizing d with
  | nil => rw [printed_nil, List.forIn_nil, pure_apply]
  | cons line rest ih =>
    rw [List.forIn_cons, bind_apply, bind_apply, print_apply, pure_apply]
    simp only
    rw [ih, ← printed_append, List.singleton_append]

end Disk

/-! ## Jobs -/

/-- An engine whose listener has forgotten what it has heard. -/
def forgetful (e : Engine) : Engine := { e with listener := { e.listener with heard := #[] } }

/-- The lines that are printed for what an engine lets its listener hear. -/
def heardLines (trace : Bool) (e : Engine) : List String :=
  e.listener.heard.toList.filterMap (signalLine? trace)

theorem heardLines_forgetful (trace : Bool) (e : Engine) : heardLines trace (forgetful e) = [] := rfl

theorem showHeard_apply (trace : Bool) (v : Visualizer) (d : Disk) : showHeard Disk.host trace v d =
      ({ v with engine := forgetful v.engine }, d.printed (heardLines trace v.engine)) := by
  rw [showHeard, Disk.bind_apply, Disk.printAll_apply]
  rfl

theorem finishJob_ended (trace : Bool) (fuel : Nat) (v : Visualizer) (result : JobResult)
    (d : Disk) : finishJob Disk.host trace fuel v (.ended result) d =
      (({ v with engine := forgetful v.engine }, result),
        d.printed (heardLines trace v.engine)) := by
  rw [finishJob, Disk.bind_apply, showHeard_apply]
  rfl

theorem finishJob_waits (trace : Bool) (fuel : Nat) {job : JobState} {p : Visualizer × JobProgress}
    (ms : Float) (d : Disk)
    (hjob : ({ v with engine := forgetful v.engine } : Visualizer).continueJob job = p) :
    finishJob Disk.host trace (fuel + 1) v (.waits ms job) d =
      finishJob Disk.host trace fuel p.1 p.2 (d.printed (heardLines trace v.engine)) := by
  rw [finishJob, Disk.bind_apply, showHeard_apply, ← hjob]
  rfl

section Jobs

variable {e : Engine} {speed : Speed} {epoch : Nat} {rest : List Step} {target : Store}

theorem ready_forgetful (h : e.Ready rest target) : (forgetful e).Ready rest target :=
  ⟨h.left, h.listener, h.picture⟩

/-- A job that goes on as a run prints what was heard before, and then the transcript of the steps
    that are left. -/
theorem finishJob_run (trace : Bool) {fuel : Nat} (wait : RunState → JobState)
    (result : Bool → JobResult) (hcontinue : ∀ (v : Visualizer) r,
      v.continueJob (wait r) = v.viaRun (v.engine.continueRun r) wait result)
    (hready : e.Ready rest target) (hwaitable : Waitable speed rest)
    (hover : e.isOver epoch = false) (hpaused : e.paused = false) (hfuel : rest.length ≤ fuel)
    (v : Visualizer) (d : Disk) : let p := v.viaRun (e.runNext speed epoch) wait result
    ∃ v', finishJob Disk.host trace fuel p.1 p.2 d =
      ((v', result true), d.printed (heardLines trace e ++ transcript trace rest)) := by
  induction rest generalizing v e d fuel with
  | nil =>
    have hnext : v.viaRun (e.runNext speed epoch) wait result =
        ({ v with engine := e.cleared }, .ended (result true)) := by
      rw [Engine.runNext, hready.isDone_eq, List.isEmpty_nil, if_pos rfl,
        Engine.finishRun_of_current hover, Visualizer.viaRun]
    have hlines : heardLines trace e ++ transcript trace [] = heardLines trace e.cleared :=
      List.append_nil _
    rw [hnext, hlines]
    exact ⟨_, finishJob_ended ..⟩
  | cons step rest ih =>
    obtain ⟨ms, hwait⟩ := hwaitable step List.mem_cons_self
    obtain ⟨e1, htake, hready1, hcontrol, hheard⟩ := hready.take hwait
    have hover1 : (forgetful e1).isOver epoch = false := (hcontrol.isOver_eq epoch).trans hover
    have hpaused1 : (forgetful e1).paused = false := hcontrol.paused.trans hpaused
    obtain ⟨fuel, rfl⟩ : ∃ n, fuel = n + 1 :=
      Nat.exists_eq_succ_of_ne_zero (Nat.ne_of_gt (Nat.lt_of_lt_of_le (Nat.succ_pos _) hfuel))
    -- what the step lets the listener hear is printed before the wait
    have hlines : heardLines trace e ++ transcript trace (step :: rest) =
        heardLines trace e1 ++ (heardLines trace (forgetful e1) ++ transcript trace rest) := by
      rw [heardLines_forgetful, List.nil_append, heardLines, heardLines, hheard, transcript,
        transcript, List.flatMap_cons, List.filterMap_append, List.filterMap_append,
        List.append_assoc]
    obtain ⟨v', hrest⟩ := ih (ready_forgetful hready1) hwaitable.tail hover1 hpaused1
      (Nat.le_of_succ_le_succ hfuel) { v with engine := forgetful e1 }
      (d.printed (heardLines trace e1))
    have hnext : v.viaRun (e.runNext speed epoch) wait result =
        ({ v with engine := e1 }, .waits ms (wait { speed, epoch, wait := .step })) := by
      rw [Engine.runNext_of_applied hready.isDone_eq hover hpaused htake, Visualizer.viaRun]
    have hjob := hcontinue { v with engine := forgetful e1 } { speed, epoch, wait := .step }
    rw [Engine.continueRun_of_step hover1] at hjob
    rw [hnext, hlines, Disk.printed_append]
    exact ⟨v', (finishJob_waits trace fuel ms d hjob).trans hrest⟩

/-- A job that begins as a run is given enough waits for all steps that are left. -/
theorem doJob_run (trace : Bool) {v v1 : Visualizer} {job : Job} (wait : RunState → JobState)
    (result : Bool → JobResult) (hcontinue : ∀ (v : Visualizer) r,
      v.continueJob (wait r) = v.viaRun (v.engine.continueRun r) wait result)
    (hstart : v.startJob job = v1.viaRun (e.runNext speed epoch) wait result)
    (hready : e.Ready rest target) (hwaitable : Waitable speed rest)
    (hover : e.isOver epoch = false) (hpaused : e.paused = false) (d : Disk) :
    ∃ v', doJob Disk.host trace v job d =
      ((v', result true), d.printed (heardLines trace e ++ transcript trace rest)) := by
  have hengine (q : Engine × Engine.RunProgress) : (v1.viaRun q wait result).1.engine = q.1 := by
    obtain ⟨e', p⟩ := q
    cases p <;> rfl
  have hlength : rest.length ≤ (v.startJob job).1.engine.steps.size + 1 := by
    have hsteps := (Engine.runNext_turn hover speed).place.1
    rw [hstart, hengine, hsteps, ← hready.left, List.length_drop, Array.length_toList]
    omega
  rw [doJob]
  rw [hstart] at hlength ⊢
  exact finishJob_run trace wait result hcontinue hready hwaitable hover hpaused hlength v1 d

end Jobs

/-! ## Commands -/

theorem readText_apply (h : d.read (Path.normalize path) = .text text) :
    readText Disk.host path d = (.ok (sourceOf text), d) := by
  have hread : Disk.host.read (Path.normalize path) d = (.text text, d) := congrArg (·, d) h
  rw [readText, Disk.bind_apply, hread]
  rfl

theorem warnAll_apply (warnings : List String) (d : Disk) :
    ∃ d' : Disk, (forIn warnings PUnit.unit fun warning _ => do
      Disk.host.warn ("Warning: " ++ warning)
      pure (.yield PUnit.unit) : StateM Disk PUnit) d = (.unit, d') ∧ d'.out = d.out := by
  induction warnings generalizing d with
  | nil => exact ⟨d, rfl, rfl⟩
  | cons warning rest ih =>
    obtain ⟨d', hrest, hout⟩ := ih (Disk.host.warn ("Warning: " ++ warning) d).2
    refine ⟨d', ?_, hout⟩
    rw [List.forIn_cons, Disk.bind_apply]
    exact hrest

/-- A step file whose steps can be shown and waited for is replayed to its end. -/
theorem replaySteps_apply (a : Arguments) (log : Log) {text : String} {data : Json}
    {steps : List Step} {target : Store} (hdata : Json.read text = .ok data)
    (hsteps : Step.listOfJson data = .ok steps) (htarget : Store.replay? {} steps = some target)
    (hwaitable : Waitable a.speed steps) (d : Disk) : ∃ log', replaySteps Disk.host a log text d =
      ((.success, log'), d.printed (transcript a.trace steps)) := by
  let e : Engine := ({ log } : Engine).load steps
  have hready : e.started.Ready steps target := ⟨rfl, rfl, htarget⟩
  have hstart : Visualizer.startJob { engine := e } (.run a.speed) =
      Visualizer.viaRun { engine := e } (e.started.runNext a.speed e.epoch) .run .run := rfl
  obtain ⟨v', hjob⟩ := doJob_run a.trace .run .run (fun _ _ => rfl) hstart hready hwaitable
    e.isOver_started rfl d
  refine ⟨v'.engine.log, ?_⟩
  rw [replaySteps, hdata]
  simp only [hsteps]
  rw [Disk.bind_apply, hjob]
  rfl

/-- A program that was played to its end has printed what its job has printed. -/
theorem runProgram_of_job {a : Arguments} {log : Log} {source : String} {v : Visualizer}
    {generation : Generation} {d d1 : Disk} (hsuccess : generation.succeeded = true)
    (hjob : doJob Disk.host a.trace (Visualizer.fresh log) (.play (.str source) a.speed) d =
      ((v, .play generation), d1)) :
    ∃ d', runProgram Disk.host a log source d = ((.success, v.engine.log), d') ∧
      d'.out = d1.out := by
  obtain ⟨d', hwarn, hout⟩ := warnAll_apply generation.warnings d1
  refine ⟨d', ?_, hout⟩
  have hfresh : ({ engine := { log } } : Visualizer) = Visualizer.fresh log := rfl
  rw [runProgram, Disk.bind_apply, hfresh, hjob]
  simp only
  rw [Disk.bind_apply, hwarn, if_pos hsuccess]
  rfl

theorem runProgram_apply (a : Arguments) (log : Log)
    (hsuccess : (generationOf text).succeeded = true)
    (hwaitable : Waitable a.speed (generationOf text).steps) (d : Disk) :
    ∃ log' d', runProgram Disk.host a log (sourceOf text) d = ((.success, log'), d') ∧
      d'.out = (d.printed (transcript a.trace (generationOf text).steps)).out := by
  rw [← generate_withLog log text] at hsuccess hwaitable ⊢
  obtain ⟨⟨target, hready⟩, hcontrol, hlistener, _⟩ :=
    Visualizer.prepare_ready log (sourceOf text) hsuccess
  have hstart := Visualizer.startJob_play log (sourceOf text) a.speed hsuccess
  generalize ((Visualizer.fresh log).reset.prepare (.str (sourceOf text))).2 = prepared
    at hready hcontrol hlistener hstart
  generalize ((Generator.withLog log).generate (some (sourceOf text))).1 = generation
    at hsuccess hwaitable hready hstart ⊢
  have hstarted : prepared.engine.started.Ready generation.steps target :=
    ⟨hready.left, hready.listener, hready.picture⟩
  have hheard : heardLines a.trace prepared.engine.started = [] := by
    show prepared.engine.listener.heard.toList.filterMap _ = []
    rw [hlistener]
    rfl
  obtain ⟨v, hjob⟩ := doJob_run a.trace (.play generation) (fun _ => .play generation)
    (fun _ _ => rfl) hstart hstarted hwaitable prepared.engine.isOver_started hcontrol.paused d
  rw [hheard, List.nil_append] at hjob
  exact ⟨v.engine.log, runProgram_of_job hsuccess hjob⟩

/-- The steps of a program that succeeds are written to its step file, if it can be written. -/
theorem emitSteps_apply (log : Log) (hsuccess : (generationOf text).succeeded = true)
    (hwrite : (d.write (Path.stepFile path) (stepText text)).1 = none) :
    ∃ log', emitSteps Disk.host log path (sourceOf text) d = ((.success, log'),
      (d.write (Path.stepFile path) (stepText text)).2.printed [Path.stepFile path]) := by
  rw [stepText, ← generate_withLog log text] at hwrite ⊢
  rw [← generate_withLog log text] at hsuccess
  rw [emitSteps]
  generalize (Generator.withLog log).generate (some (sourceOf text)) = q at hsuccess hwrite ⊢
  obtain ⟨generation, generator⟩ := q
  cases hresult : generation.result with
  | error report =>
    rw [Generation.succeeded, hresult] at hsuccess
    cases hsuccess
  | ok steps =>
    have hsteps : generation.steps = steps := by
      rw [Generation.steps, hresult]
      rfl
    rw [hsteps] at hwrite ⊢
    simp only [hresult]
    rw [Disk.bind_apply, Disk.write_apply, hwrite]
    simp only
    rw [Disk.bind_apply, Disk.print_apply, Disk.pure_apply]
    exact ⟨_, rfl⟩

theorem read_stepText (hsuccess : (generationOf text).succeeded = true) :
    sourceOf (stepText text) = stepText text ∧ ∃ data, Json.read (stepText text) = .ok data ∧
      Step.listOfJson data = .ok (generationOf text).steps := by
  have hlegible : ∀ s ∈ (generationOf text).steps, s.Legible :=
    Generator.generate_legible (Step.readable_small (by decide)) hsuccess
  have hdata := Step.listToJson_legible hlegible
  have hwhole : ∀ s ∈ (generationOf text).steps, s.kind ∈ StepKind.all ∧ s.duration.Whole :=
    fun s hs => ⟨(hlegible s hs).kind, (hlegible s hs).whole⟩
  refine ⟨?_, _, Json.read_render hdata, Step.listOfJson_listToJson hwhole⟩
  have hchars : (stepText text).toList =
      Json.chars 0 (Step.listToJson (generationOf text).steps) := by
    rw [stepText, Json.render, String.toList_join, Json.chars]
  have hreturn : '\r' ∉ (stepText text).toList := by
    rw [hchars]
    exact hdata.return_not_mem 0
  rw [sourceOf, unifyLines_eq [] hreturn, List.reverse_nil, List.nil_append, String.ofList_toList]

/-! ## Command lines -/

/-- The arguments that a command line gives ask for something. -/
structure Asks (line : List String) (a : Arguments) (mode : Mode) : Prop where
  words : Arguments.ofWords line = .ok a
  mode : a.mode? = some mode

/-- At the end of a command the log may be written to its file. -/
theorem run_of_asks {mode : Mode} (h : Asks line a mode) {exit : Exit}
    (hperform : perform Disk.host a { level := a.verbosity } mode d = ((exit, log), d')) :
    (run Disk.host line d).1 = exit ∧
    ((run Disk.host line d).2 = d' ∨
      ∃ text, (run Disk.host line d).2 = (d'.write logFile text).2) := by
  rw [run, h.words]
  simp only [h.mode]
  rw [Disk.bind_apply, hperform]
  simp only
  cases log.lines.isEmpty with
  | true => exact ⟨rfl, .inl rfl⟩
  | false => exact ⟨rfl, .inr ⟨_, rfl⟩⟩

theorem run_out_of_asks {mode : Mode} (h : Asks line a mode) {exit : Exit}
    (hperform : perform Disk.host a { level := a.verbosity } mode d = ((exit, log), d')) :
    (run Disk.host line d).1 = exit ∧ (run Disk.host line d).2.out = d'.out := by
  obtain ⟨hexit, hdisk | ⟨text, hdisk⟩⟩ := run_of_asks h hperform
  · exact ⟨hexit, by rw [hdisk]⟩
  · exact ⟨hexit, by rw [hdisk, Disk.write_out]⟩

namespace Disk

/-- The disk with nothing on its outputs. -/
def silent (d : Disk) : Disk := { d with out := "", err := "" }

/-- Carries out a command line, with nothing on the outputs before. -/
def carryOut (d : Disk) (line : List String) : Exit × Disk := (Cli.run host line).run d.silent

theorem silent_printed_out (d : Disk) (lines : List String) :
    (d.silent.printed lines).out = unlines lines := String.empty_append

end Disk

section CommandLines

variable {line : List String} {a : Arguments} {path text : String} {d : Disk}
  (hsuccess : (generationOf text).succeeded = true)

include hsuccess

/-- The step file of a program that succeeds is there after it was asked for. -/
theorem carryOut_emitSteps (h : Asks line a (.emitSteps path)) (htidy : d.Tidy)
    (htext : d.read (Path.normalize path) = .text text)
    (hwrite : (d.write (Path.stepFile path) (stepText text)).1 = none) :
    (d.carryOut line).1 = .success ∧
    (d.carryOut line).2.read (Path.stepFile path) = .text (stepText text) := by
  have hfiles : d.silent.files = d.files := rfl
  rw [← Disk.read_eq_of_files hfiles] at htext
  rw [← Disk.write_eq_of_files hfiles] at hwrite
  obtain ⟨log, hemit⟩ := emitSteps_apply { level := a.verbosity } hsuccess hwrite
  let written := (d.silent.write (Path.stepFile path) (stepText text)).2
  have hperform : perform Disk.host a { level := a.verbosity } (.emitSteps path) d.silent =
      ((.success, log), written.printed [Path.stepFile path]) := by
    rw [perform, Disk.bind_apply, readText_apply htext]
    exact hemit
  have hsilent : d.silent.Tidy := htidy
  have hread := Disk.read_write hsilent hwrite
  rw [← Disk.read_eq_of_files (written.printed_files [Path.stepFile path])] at hread
  obtain ⟨hexit, hdisk⟩ := run_of_asks h hperform
  refine ⟨hexit, ?_⟩
  show (run Disk.host line d.silent).2.read _ = _
  rcases hdisk with hdisk | ⟨logText, hdisk⟩
  · rw [hdisk, hread]
  · rw [hdisk, Disk.read_write_log hread]

/-- A step file that holds the steps of a program is replayed to its end. -/
theorem carryOut_replay (h : Asks line a (.replay path))
    (htext : d.read (Path.normalize path) = .text (stepText text))
    (hwaitable : Waitable a.speed (generationOf text).steps) : (d.carryOut line).1 = .success ∧
    (d.carryOut line).2.out = unlines (transcript a.trace (generationOf text).steps) := by
  have hfiles : d.silent.files = d.files := rfl
  rw [← Disk.read_eq_of_files hfiles] at htext
  obtain ⟨target, _, _, htarget⟩ := Generator.generate_pictured hsuccess
  obtain ⟨hsource, data, hdata, hsteps⟩ := read_stepText hsuccess
  obtain ⟨log, hreplay⟩ := replaySteps_apply a { level := a.verbosity } hdata hsteps
    htarget.replay?_eq hwaitable d.silent
  have hperform : perform Disk.host a { level := a.verbosity } (.replay path) d.silent =
      ((.success, log), d.silent.printed (transcript a.trace (generationOf text).steps)) := by
    rw [perform, Disk.bind_apply, readText_apply htext, hsource]
    exact hreplay
  obtain ⟨hexit, hout⟩ := run_out_of_asks h hperform
  exact ⟨hexit, hout.trans (d.silent_printed_out _)⟩

theorem carryOut_program (h : Asks line a (.program path))
    (htext : d.read (Path.normalize path) = .text text)
    (hwaitable : Waitable a.speed (generationOf text).steps) : (d.carryOut line).1 = .success ∧
    (d.carryOut line).2.out = unlines (transcript a.trace (generationOf text).steps) := by
  have hfiles : d.silent.files = d.files := rfl
  rw [← Disk.read_eq_of_files hfiles] at htext
  obtain ⟨log, d', hrun, hprinted⟩ :=
    runProgram_apply a { level := a.verbosity } hsuccess hwaitable d.silent
  have hperform : perform Disk.host a { level := a.verbosity } (.program path) d.silent =
      ((.success, log), d') := by
    rw [perform, Disk.bind_apply, readText_apply htext]
    exact hrun
  obtain ⟨hexit, hout⟩ := run_out_of_asks h hperform
  exact ⟨hexit, hout.trans (hprinted.trans (d.silent_printed_out _))⟩

end CommandLines

/-- A program and its step file print the same.  `emitLine` asks for the steps of a program to be
    written, `replayLine` asks for that step file to be replayed, and `line` asks for the program to
    be run.  The last two agree on whether steps are traced, and their speeds are such that all
    steps can be waited for: they always can if no speed is given (`Engine.waitable_zero`).

    If the program succeeds and its step file can be written, then all three commands succeed, and
    the replay and the run print the transcript of the program. -/
theorem replaying_equals_running {emitLine replayLine line : List String}
    {emit replay direct : Arguments} {path file text : String} {d d' : Disk}
    (hemit : Asks emitLine emit (.emitSteps path)) (hreplay : Asks replayLine replay (.replay file))
    (hdirect : Asks line direct (.program path)) (hfile : Path.normalize file = Path.stepFile path)
    (htrace : replay.trace = direct.trace)
    (hreplaySpeed : Waitable replay.speed (generationOf text).steps)
    (hdirectSpeed : Waitable direct.speed (generationOf text).steps)
    (htidy : d.Tidy) (htext : d.read (Path.normalize path) = .text text)
    (htext' : d'.read (Path.normalize path) = .text text)
    (hsuccess : (generationOf text).succeeded = true)
    (hwrite : (d.write (Path.stepFile path) (stepText text)).1 = none) :
    let emitted := d.carryOut emitLine
    let replayed := emitted.2.carryOut replayLine
    let ran := d'.carryOut line
    emitted.1 = .success ∧ replayed.1 = .success ∧ ran.1 = .success ∧
    replayed.2.out = ran.2.out ∧
    ran.2.out = unlines (transcript direct.trace (generationOf text).steps) := by
  intro emitted replayed ran
  obtain ⟨hemitted, hback⟩ := carryOut_emitSteps hsuccess hemit htidy htext hwrite
  rw [← hfile] at hback
  obtain ⟨hreplayed, hreplayedOut⟩ := carryOut_replay hsuccess hreplay hback hreplaySpeed
  obtain ⟨hran, hranOut⟩ := carryOut_program hsuccess hdirect htext' hdirectSpeed
  rw [htrace] at hreplayedOut
  exact ⟨hemitted, hreplayed, hran, hreplayedOut.trans hranOut.symm, hranOut⟩

/-- A program with a timer and a microtask, whose lines have quotes and tabs. -/
def lateProgram : String :=
  "setTimeout(() => console.log('\"late\"'), 5)\r\nPromise.resolve('a\tb').then(v => console.log(v))"

def lateDisk : Disk := { files := [("late.js", lateProgram)] }

/-- The steps of the program are replayed with the log of the first command beside them. -/
theorem replaying_equals_running_late :
    ((lateDisk.carryOut ["-v", "--emit-steps", "late.js"]).2.carryOut
      ["--steps", "./late.js.steps.json"]).1 = .success ∧
    ((lateDisk.carryOut ["-v", "--emit-steps", "late.js"]).2.carryOut
      ["--steps", "./late.js.steps.json"]).2.out = (lateDisk.carryOut ["late.js"]).2.out ∧
    (lateDisk.carryOut ["late.js"]).2.out = "a\tb\n\"late\"\n" := by
  have hemit : Asks ["-v", "--emit-steps", "late.js"]
      { verbosity := 1, emitSteps := some "late.js", mode := some .emitSteps }
      (.emitSteps "late.js") := ⟨rfl, rfl⟩
  have hreplay : Asks ["--steps", "./late.js.steps.json"]
      { steps := some "./late.js.steps.json", mode := some .steps }
      (.replay "./late.js.steps.json") := ⟨rfl, rfl⟩
  have hdirect : Asks ["late.js"] { program := some "late.js", isPlaced := true }
      (.program "late.js") := ⟨rfl, rfl⟩
  have htidy : lateDisk.Tidy := by
    intro f hf
    rw [List.mem_singleton.1 hf]
    decide +kernel
  have htext : lateDisk.read (Path.normalize "late.js") = .text lateProgram := by decide +kernel
  have hlate : (generationOf lateProgram).succeeded = true ∧
      unlines (transcript false (generationOf lateProgram).steps) = "a\tb\n\"late\"\n" := by
    decide +kernel
  obtain ⟨_, hreplayed, _, hsame, hout⟩ := replaying_equals_running hemit hreplay hdirect
    (by decide +kernel) rfl (Engine.waitable_zero _) (Engine.waitable_zero _) htidy htext htext
    hlate.1 (by decide +kernel)
  exact ⟨hreplayed, hsame, hout.trans hlate.2⟩

end EventLoop.Cli
