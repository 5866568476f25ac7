import RmdOptions.Command.Run
import RmdOptions.Proofs.Json.Written
import RmdOptions.Proofs.Panel.Reopen

/-!
# What a run does to the world

A run reads, and may fail, before it does anything. Then it does one thing: it prints a text or
writes it to the file. What that text is does not depend on which of the two is done.

* `Action`, `Arguments.perform` — a run as a program with effects, which stay when it fails;
* `Arguments.output` — the text that a run prints or writes;
* `Arguments.perform_eq`, `Arguments.run_eq` — a run does this one thing;
* `Arguments.perform_eq_run` — the two ways to say what a run does agree;
* `Arguments.effect_frame` — **what a run changes and what it leaves**.
-/

namespace RmdOptions

/-! ## Programs with effects -/

/-- What a run acts on. -/
structure World where
  /-- the files -/
  disk : Disk
  /-- all that has been printed -/
  printed : Text

/-- A program that acts on the world and may fail. What it has done before it fails is done. -/
abbrev Action := ExceptT RunError (StateM World)

namespace Action

/-- Prints a text. -/
def print (t : Text) : Action Unit :=
  modify fun world => { world with printed := world.printed ++ t }

/-- Writes a text to a file. -/
def writeFile (path t : Text) : Action Unit :=
  modify fun world => { world with disk := world.disk.write path t }

/-- Something that is had from the files, or else cannot be had. -/
def ask {α : Type} (read : Disk → Except RunError α) : Action α := do
  liftExcept (read (← get).disk)

/-- What an action answers, and the world afterwards. -/
def result {α : Type} (action : Action α) (world : World) : Except RunError α × World :=
  action.run.run world

/-- What an action answers that fails, or delivers a text and nothing else. -/
def delivers (deliver : Text → World) (world : World) :
    Except RunError Text → Except RunError Unit × World
  | .error error => (.error error, world)
  | .ok t => (.ok (), deliver t)

section Delivers

variable {deliver : Text → World} {world : World} {answer : Except RunError Text}

/-- Where there is no text, nothing is done. -/
theorem world_of_delivers_error {error : RunError}
    (h : (delivers deliver world answer).1 = .error error) :
    (delivers deliver world answer).2 = world := by
  cases answer with
  | error cause => rfl
  | ok t => cases h

/-- Where all went well, there is a text, and it has been delivered. -/
theorem exists_of_delivers_ok (h : (delivers deliver world answer).1 = .ok ()) :
    ∃ t, answer = .ok t ∧ (delivers deliver world answer).2 = deliver t := by
  cases answer with
  | error cause => cases h
  | ok t => exact ⟨t, rfl, rfl⟩

/-- Whether all goes well does not depend on where the text goes. -/
theorem delivers_fst (deliver deliver' : Text → World) (world : World)
    (answer : Except RunError Text) :
    (delivers deliver world answer).1 = (delivers deliver' world answer).1 := by
  cases answer <;> rfl

end Delivers

/-- Asking changes nothing, and ends the program if there is no answer. -/
theorem result_ask_bind {α : Type} {deliver : Text → World} {world : World}
    (read : Disk → Except RunError α) {next : α → Action Unit} {text : α → Except RunError Text}
    (h : ∀ a, (next a).result world = delivers deliver world (text a)) :
    (ask read >>= next).result world = delivers deliver world (read world.disk >>= text) := by
  have hstep : (ask read >>= next).result world =
      ((liftExcept (read world.disk) : Action α) >>= next).result world := rfl
  rw [hstep]
  cases read world.disk with
  | error error => rfl
  | ok a => exact h a

end Action

/-! ## Runs -/

namespace Arguments

/-- Runs the command, one step after the other. -/
def perform (arguments : Arguments) : Action Unit := do
  let config ← Action.ask arguments.loadConfig
  let doc ← Action.ask arguments.loadFile
  let panel ← Action.ask fun _ => (Panel.openOn doc arguments.chunk config).mapError .chunk
  if arguments.printBaseline then
    Action.print ((panel.baseline.options?.getD .empty).toJson.pretty ++ ['\n'])
  else
    let (_, edited, _) ← Action.ask fun _ => (panel.commit doc arguments.edits).mapError .commit
    if arguments.inPlace then Action.writeFile arguments.file edited.saved
    else Action.print edited.saved

/-- Whether the text of a run goes to the file. -/
def writes (arguments : Arguments) : Bool := arguments.inPlace && !arguments.printBaseline

/-- The text that a run prints or writes. -/
def output (arguments : Arguments) (disk : Disk) : Except RunError Text := do
  let config ← arguments.loadConfig disk
  let doc ← arguments.loadFile disk
  let panel ← (Panel.openOn doc arguments.chunk config).mapError .chunk
  if arguments.printBaseline then
    return (panel.baseline.options?.getD .empty).toJson.pretty ++ ['\n']
  else
    let (_, edited, _) ← (panel.commit doc arguments.edits).mapError .commit
    return edited.saved

/-- A run gives its text to the file, or prints it. -/
theorem run_eq (arguments : Arguments) (disk : Disk) :
    arguments.run disk = (arguments.output disk).map fun t =>
      if arguments.writes = true then ⟨[], disk.write arguments.file t⟩ else ⟨t, disk⟩ := by
  rw [run, output, writes]
  cases arguments.loadConfig disk with
  | error error => rfl
  | ok config =>
    cases arguments.loadFile disk with
    | error error => rfl
    | ok doc =>
      dsimp only [bind, Except.bind]
      cases (Panel.openOn doc arguments.chunk config).mapError RunError.chunk with
      | error error => rfl
      | ok panel =>
        dsimp only
        cases arguments.printBaseline with
        | true => simp [pure, Except.pure, Except.map]
        | false =>
          cases (panel.commit doc arguments.edits).mapError RunError.commit with
          | error error => rfl
          | ok committed =>
            cases arguments.inPlace <;> rfl

/-- The world after a text has been written to the file, or printed. -/
def deliver (arguments : Arguments) (world : World) (t : Text) : World :=
  if arguments.writes = true then { world with disk := world.disk.write arguments.file t }
  else { world with printed := world.printed ++ t }

/-- A run as a program delivers its text, and does nothing else. -/
theorem perform_eq (arguments : Arguments) (world : World) :
    arguments.perform.result world =
      Action.delivers (arguments.deliver world) world (arguments.output world.disk) := by
  refine Action.result_ask_bind _ fun config => ?_
  refine Action.result_ask_bind _ fun doc => ?_
  refine Action.result_ask_bind (fun _ => _) fun panel => ?_
  have hwrites : arguments.deliver world = fun t =>
      if (arguments.inPlace && !arguments.printBaseline) = true then
        { world with disk := world.disk.write arguments.file t }
      else { world with printed := world.printed ++ t } := rfl
  rw [hwrites]
  cases arguments.printBaseline with
  | true =>
    rw [Bool.not_true, Bool.and_false]
    rfl
  | false =>
    refine Action.result_ask_bind (fun _ => _) fun committed => ?_
    cases arguments.inPlace <;> rfl

/-- A run as a program does to the world what the run says. -/
theorem perform_eq_run (arguments : Arguments) (world : World) :
    arguments.perform.result world =
      match arguments.run world.disk with
      | .error error => (.error error, world)
      | .ok done => (.ok (), ⟨done.disk, world.printed ++ done.printed⟩) := by
  rw [perform_eq, run_eq]
  cases arguments.output world.disk with
  | error error => rfl
  | ok t =>
    simp only [Action.delivers, deliver, Except.map]
    split
    · rw [List.append_nil]
    · rfl

/-- With the options to be printed, the text is that of the baseline of the panel that is opened. -/
theorem exists_baseline_of_output {arguments : Arguments} {disk : Disk} {t : Text}
    (hprint : arguments.printBaseline = true) (h : arguments.output disk = .ok t) :
    ∃ config doc panel baseline, arguments.loadConfig disk = .ok config ∧
      arguments.loadFile disk = .ok doc ∧
      Panel.openOn doc arguments.chunk config = .ok panel ∧ panel.baseline = .ready baseline ∧
      t = baseline.toJson.pretty ++ ['\n'] := by
  rw [output] at h
  cases hconfig : arguments.loadConfig disk with
  | error error =>
    rw [hconfig] at h
    cases h
  | ok config =>
    cases hdoc : arguments.loadFile disk with
    | error error =>
      rw [hconfig, hdoc] at h
      cases h
    | ok doc =>
      cases hopen : Panel.openOn doc arguments.chunk config with
      | error error =>
        simp only [hconfig, hdoc, bind, Except.bind, hopen] at h
        cases h
      | ok panel =>
        obtain ⟨baseline, hready⟩ := Panel.ready_of_openOn hopen
        simp only [hconfig, hdoc, bind, Except.bind, hopen, Except.mapError, hprint, if_true,
          hready] at h
        cases h
        exact ⟨config, doc, panel, baseline, rfl, rfl, hopen, hready, rfl⟩

/-- With the options to be printed, the edit has no part in the text. -/
theorem output_edits {arguments : Arguments} (hprint : arguments.printBaseline = true)
    (edits : Edits) (disk : Disk) :
    ({ arguments with edits := edits } : Arguments).output disk = arguments.output disk := by
  simp only [output, hprint, if_true]
  rfl

/-- **What a run changes and what it leaves.** A run does to the world what is said of it as a
value. A run that fails changes nothing. Printing the options, or not writing in place, changes no
file. A run in place fails when the same run fails that prints, and with the same error. Otherwise
it prints nothing, changes no file but its own, and writes to that the bytes that the other run
prints. When the options are printed, the edit has no part in it, and what is printed is read as a
JSON object, whose members are those options in their order. -/
theorem effect_frame (arguments : Arguments) (world : World) :
    let done := arguments.perform.result world
    let shown := ({ arguments with inPlace := false } : Arguments).perform.result world
    (done = match arguments.run world.disk with
      | .error error => (.error error, world)
      | .ok after => (.ok (), ⟨after.disk, world.printed ++ after.printed⟩)) ∧
      (∀ error, done.1 = .error error → done.2 = world) ∧
      (arguments.printBaseline = true ∨ arguments.inPlace = false → done.2.disk = world.disk) ∧
      done.1 = shown.1 ∧
      (done.1 = .ok () → arguments.inPlace = true → arguments.printBaseline = false →
        done.2.printed = world.printed ∧
          (∀ path, path ≠ arguments.file →
            Keyed.find? path done.2.disk = Keyed.find? path world.disk) ∧
          ∃ t, shown.2.printed = world.printed ++ t ∧
            Keyed.find? arguments.file done.2.disk = some (String.ofList t).toUTF8) ∧
      (arguments.printBaseline = true →
        (∀ edits, ({ arguments with edits := edits } : Arguments).perform.result world = done) ∧
          (done.1 = .ok () → ∃ config doc panel baseline t members,
            arguments.loadConfig world.disk = .ok config ∧
              arguments.loadFile world.disk = .ok doc ∧
              Panel.openOn doc arguments.chunk config = .ok panel ∧
              panel.baseline = .ready baseline ∧ done.2.printed = world.printed ++ t ∧
              Json.read t = .ok (.object members) ∧
              OptionMap.ofJson (.object members) = .ok baseline)) := by
  intro done shown
  have hdone : done = Action.delivers (arguments.deliver world) world
      (arguments.output world.disk) := perform_eq arguments world
  have hshown : shown = Action.delivers (fun t => { world with printed := world.printed ++ t })
      world (arguments.output world.disk) := perform_eq { arguments with inPlace := false } world
  have hsuccess (hok : done.1 = .ok ()) :
      ∃ t, arguments.output world.disk = .ok t ∧ done.2 = arguments.deliver world t := by
    rw [hdone] at hok ⊢
    exact Action.exists_of_delivers_ok hok
  refine ⟨perform_eq_run arguments world, ?_, ?_, ?_, ?_,
    fun hprint => ⟨fun edits => ?_, fun hok => ?_⟩⟩
  · intro error herror
    rw [hdone] at herror ⊢
    exact Action.world_of_delivers_error herror
  · intro hprints
    have hwrites : arguments.writes = false := by
      rcases hprints with h | h <;> simp [writes, h]
    rw [hdone]
    cases arguments.output world.disk with
    | error cause => rfl
    | ok t => simp only [Action.delivers, deliver, hwrites, Bool.false_eq_true, if_false]
  · rw [hdone, hshown]
    exact Action.delivers_fst _ _ _ _
  · intro hok hinPlace hprint
    have hwrites : arguments.writes = true := by
      rw [writes, hinPlace, hprint]
      rfl
    obtain ⟨t, hout, hafter⟩ := hsuccess hok
    rw [hafter, hshown, hout, deliver, if_pos hwrites]
    refine ⟨rfl, fun path hpath => ?_, t, rfl, ?_⟩
    · rw [Disk.write, Keyed.find?_put, if_neg hpath]
    · rw [Disk.write, Keyed.find?_put, if_pos rfl]
  · rw [hdone, perform_eq, output_edits hprint]
    rfl
  · have hwrites : ¬ arguments.writes = true := by simp [writes, hprint]
    obtain ⟨t, hout, hafter⟩ := hsuccess hok
    obtain ⟨config, doc, panel, baseline, hconfig, hdoc, hopen, hready, rfl⟩ :=
      exists_baseline_of_output hprint hout
    have hfeed : ∀ c ∈ ['\n'], Json.isBlank c = true := by decide
    rw [hafter, deliver, if_neg hwrites]
    exact ⟨config, doc, panel, baseline, _, _, hconfig, hdoc, hopen, hready, rfl,
      baseline.read_pretty hfeed, baseline.ofJson_toJson⟩

end Arguments

end RmdOptions
