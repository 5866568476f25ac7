import RmdOptions.Proofs.Command.Effects
import RmdOptions.Proofs.Command.InPlace
import RmdOptions.Proofs.Config.LineEnding

/-!
# Files whose rows end with the pair

A run on a file whose rows end with the pair does what it does on the same file with line feeds. The
document is the same but for what it remembers of the file, and nothing looks at that before the
text is saved. Only a configuration may be read from the very file that is edited, and it is read
as it is: then it can be refused for another fault.

* `Document.load_write_pair` — the document of a file with pairs;
* `Panel.commit_ending` — a commit keeps how the rows of the file end, and does not look at it;
* `Arguments.loadConfig_pair`, `Arguments.output_pair` — the parts of a run;
* `Arguments.run_pair` — **a run on both files**.
-/

namespace RmdOptions

open LineEnding

/-- The document of a file with pairs is that of the file with line feeds, and will be saved with
pairs. -/
theorem Document.load_write_pair {t : Text} (hreturn : '\r' ∉ t) (hfeed : '\n' ∈ t) :
    load (pair.write t) = { load t with ending := pair } := by
  have hending : ofText (pair.write t) = pair := by
    rw [ofText, hasPair_write_pair hfeed]
    rfl
  rw [load, load, withLineFeeds_write pair hreturn, hending, Text.withLineFeeds_of_not_mem hreturn]

/-- A file without carriage returns is saved with line feeds. -/
theorem Document.ending_load {t : Text} (hreturn : '\r' ∉ t) : (load t).ending = lineFeed := by
  have hending : ofText t = lineFeed := by
    rw [ofText, Text.hasPair_eq_false hreturn]
    rfl
  exact hending

/-- Writing to one file leaves all others. -/
theorem Disk.text?_write_of_ne (disk : Disk) {path other : Text} (h : other ≠ path) (text : Text) :
    (disk.write path text).text? other = disk.text? other := by
  rw [text?, text?, write, Keyed.find?_put, if_neg h]

namespace Panel

/-- How the rows of the file end has no part in a commit. -/
theorem commit_ending (panel : Panel) (doc : Document) (ending : LineEnding) (edits : Edits) :
    panel.commit { doc with ending := ending } edits =
      (panel.commit doc edits).map fun done =>
        (done.1, { done.2.1 with ending := ending }, done.2.2) := by
  have hlocate : panel.locate { doc with ending := ending } = panel.locate doc := rfl
  rw [commit, commit, hlocate, commitAt, commitAt]
  cases panel.baseline with
  | unrequested => rfl
  | pending => rfl
  | ready baseline => cases panel.locate doc <;> rfl

end Panel

namespace Arguments

variable {arguments : Arguments} {disk : Disk} {t : Text}

/-- The configuration of another file is not touched. The one of the file that is edited is read
alike with pairs, or else has a fault either way. -/
theorem loadConfig_pair (arguments : Arguments) (disk : Disk) (t : Text) :
    arguments.loadConfig (disk.write arguments.file (pair.write t)) =
        arguments.loadConfig (disk.write arguments.file t) ∨
      arguments.config = some arguments.file ∧ ∃ fault fault',
        arguments.loadConfig (disk.write arguments.file t) =
            .error (.config arguments.file (.json fault)) ∧
          arguments.loadConfig (disk.write arguments.file (pair.write t)) =
            .error (.config arguments.file (.json fault')) := by
  rw [loadConfig, loadConfig]
  cases arguments.config with
  | none => exact Or.inl rfl
  | some path =>
    by_cases hpath : path = arguments.file
    · subst hpath
      dsimp only
      rw [Disk.text?_write, Disk.text?_write]
      rcases Config.fromJson_write t with h | ⟨fault, fault', h, h'⟩
      · exact Or.inl (congrArg (Except.mapError _) h)
      · refine Or.inr ⟨rfl, fault, fault', ?_, ?_⟩
        · simp only [h, Except.mapError]
        · simp only [h', Except.mapError]
    · dsimp only
      rw [Disk.text?_write_of_ne _ hpath, Disk.text?_write_of_ne _ hpath]
      exact Or.inl rfl

theorem loadFile_write (arguments : Arguments) (disk : Disk) (t : Text) :
    arguments.loadFile (disk.write arguments.file t) = .ok (.load t) := by
  rw [loadFile, Disk.text?_write]

/-- What is committed to a document with pairs is saved with pairs. -/
theorem saved_pair {panel panel' : Panel} {doc : Document} {edits : Edits} {outcome : Outcome}
    (hreturn : '\r' ∉ t) (h : panel.commit (.load t) edits = .ok (outcome, doc, panel')) :
    ({ doc with ending := pair } : Document).saved = pair.write doc.saved := by
  have hending : doc.ending = lineFeed := by
    rw [Panel.ending_of_commit h, Document.ending_load hreturn]
  rw [Document.saved, Document.saved, hending]
  rfl

/-- With the same configuration, the text of a run is the same when it is that of the options, and
has pairs for line feeds when it is that of the file. -/
theorem output_pair (hreturn : '\r' ∉ t) (hfeed : '\n' ∈ t)
    (hconfig : arguments.loadConfig (disk.write arguments.file (pair.write t)) =
      arguments.loadConfig (disk.write arguments.file t)) :
    arguments.output (disk.write arguments.file (pair.write t)) =
      (arguments.output (disk.write arguments.file t)).map fun u =>
        if arguments.printBaseline = true then u else pair.write u := by
  rw [output, output, hconfig, loadFile_write, loadFile_write,
    Document.load_write_pair hreturn hfeed]
  cases arguments.loadConfig (disk.write arguments.file t) with
  | error cause => rfl
  | ok config =>
    have hopen : Panel.openOn { Document.load t with ending := pair } arguments.chunk config =
        Panel.openOn (.load t) arguments.chunk config := rfl
    dsimp only [bind, Except.bind]
    rw [hopen]
    cases Panel.openOn (.load t) arguments.chunk config with
    | error cause => rfl
    | ok panel =>
      dsimp only [Except.mapError]
      cases arguments.printBaseline with
      | true => rfl
      | false =>
        rw [if_neg Bool.false_ne_true, if_neg Bool.false_ne_true, Panel.commit_ending]
        cases hcommit : panel.commit (.load t) arguments.edits with
        | error cause => rfl
        | ok done => exact congrArg Except.ok (saved_pair hreturn hcommit)

/-- **A run on a file with pairs.** Let a text have line feeds and no carriage return. On the file
with this text and on the file with the same text with pairs, a run fails either way and says the
same, or succeeds either way. The errors are equal, unless the file is its own configuration and is
refused as such. If the options are printed, they are the same; otherwise what is printed, or what
is in the file afterwards, has pairs where it would have line feeds. -/
theorem run_pair (arguments : Arguments) (disk : Disk) (hreturn : '\r' ∉ t) (hfeed : '\n' ∈ t) :
    let onFeeds := arguments.run (disk.write arguments.file t)
    let onPairs := arguments.run (disk.write arguments.file (pair.write t))
    (∃ error error', onFeeds = .error error ∧ onPairs = .error error' ∧
        error'.message = error.message ∧
        (error' = error ∨ arguments.config = some arguments.file ∧ ∃ fault fault',
          error = .config arguments.file (.json fault) ∧
            error' = .config arguments.file (.json fault'))) ∨
      ∃ result result', onFeeds = .ok result ∧ onPairs = .ok result' ∧
        (arguments.printBaseline = true → result'.printed = result.printed) ∧
        (arguments.printBaseline = false → arguments.inPlace = false →
          result'.printed = pair.write result.printed) ∧
        (arguments.printBaseline = false → arguments.inPlace = true →
          result.printed = [] ∧ result'.printed = [] ∧ ∃ saved,
            result.disk.text? arguments.file = some saved ∧
              result'.disk.text? arguments.file = some (pair.write saved)) := by
  intro onFeeds onPairs
  have hfeeds : onFeeds = _ := run_eq arguments (disk.write arguments.file t)
  have hpairs : onPairs = _ := run_eq arguments (disk.write arguments.file (pair.write t))
  rcases loadConfig_pair arguments disk t with hsame | ⟨hconfig, fault, fault', h, h'⟩
  · rw [output_pair hreturn hfeed hsame] at hpairs
    rw [hfeeds, hpairs]
    cases arguments.output (disk.write arguments.file t) with
    | error cause => exact Or.inl ⟨cause, cause, rfl, rfl, rfl, Or.inl rfl⟩
    | ok u =>
      refine Or.inr ⟨_, _, rfl, rfl, fun hprint => ?_, fun hprint hinPlace => ?_,
        fun hprint hinPlace => ?_⟩
      · simp only [writes, hprint, Bool.not_true, Bool.and_false, Bool.false_eq_true, if_false,
          if_true]
      · simp only [writes, hprint, hinPlace, Bool.false_and, Bool.false_eq_true, if_false]
      · have hwrites : arguments.writes = true := by
          rw [writes, hinPlace, hprint]
          rfl
        have hprint : ¬ arguments.printBaseline = true := by rw [hprint]; exact Bool.false_ne_true
        dsimp only
        rw [if_pos hwrites, if_pos hwrites, if_neg hprint]
        exact ⟨rfl, rfl, u, Disk.text?_write _ _ _, Disk.text?_write _ _ _⟩
  · have hout : arguments.output (disk.write arguments.file t) =
        .error (.config arguments.file (.json fault)) := by
      rw [output, h]
      rfl
    have hout' : arguments.output (disk.write arguments.file (pair.write t)) =
        .error (.config arguments.file (.json fault')) := by
      rw [output, h']
      rfl
    rw [hfeeds, hpairs, hout, hout']
    exact Or.inl ⟨_, _, rfl, rfl, rfl, Or.inr ⟨hconfig, fault, fault', rfl, rfl⟩⟩

/-- With an edit to be printed, the pair ends all rows that are printed, those of the edit too. -/
theorem run_pair_sample :
    let t : Text := "\x60\x60\x60\x7br\x7d\nx\n\x60\x60\x60\n".toList
    let arguments : Arguments := { file := ['a'], edits := { echo := some falseLiteral } }
    ∃ result result', arguments.run (Disk.write [] ['a'] t) = .ok result ∧
      arguments.run (Disk.write [] ['a'] (pair.write t)) = .ok result' ∧
      result.printed = ("\x60\x60\x60\x7br\x7d\nknitr::opts_chunk$set(echo = FALSE)\n" ++
        "x\n\x60\x60\x60\n").toList ∧
      result'.printed = ("\x60\x60\x60\x7br\x7d\r\nknitr::opts_chunk$set(echo = FALSE)\r\n" ++
        "x\r\n\x60\x60\x60\r\n").toList := by
  intro t arguments
  have houtput : arguments.output (Disk.write [] ['a'] t) =
      .ok ("\x60\x60\x60\x7br\x7d\nknitr::opts_chunk$set(echo = FALSE)\n" ++
        "x\n\x60\x60\x60\n").toList := by
    have hfile : arguments.loadFile (Disk.write [] ['a'] t) = .ok (.load t) :=
      loadFile_write arguments [] t
    rw [output, hfile]
    decide +kernel
  have hrun := run_eq arguments (Disk.write [] ['a'] t)
  rw [houtput] at hrun
  rcases run_pair arguments [] (t := t) (by decide) (by decide) with
    ⟨error, -, herror, -⟩ | ⟨result, result', hresult, hresult', -, hprinted, -⟩
  · rw [herror] at hrun
    cases hrun
  · obtain rfl := Except.ok.inj (hresult.symm.trans hrun)
    refine ⟨_, result', hresult, hresult', rfl, ?_⟩
    rw [hprinted rfl rfl]
    decide +kernel

/-- A file that is its own configuration, and breaks off in the digits of an escape: with one more
carriage return they are four characters, of which the last two are no digits. -/
theorem run_pair_config :
    let t : Text := "\x7b\x22\\u12\n".toList
    let arguments : Arguments := { file := ['a'], config := some ['a'] }
    '\r' ∉ t ∧ '\n' ∈ t ∧
      arguments.run (Disk.write [] ['a'] t) = .error (.config ['a'] (.json .unfinished)) ∧
      arguments.run (Disk.write [] ['a'] (pair.write t)) =
        .error (.config ['a'] (.json .malformed)) ∧
      RunError.config ['a'] (.json .malformed) ≠ .config ['a'] (.json .unfinished) := by
  intro t arguments
  have hrun {u : Text} {fault : Json.Fault} (hjson : Config.fromJson u = .error (.json fault)) :
      arguments.run (Disk.write [] ['a'] u) = .error (.config ['a'] (.json fault)) := by
    have hload : arguments.loadConfig (Disk.write [] ['a'] u) =
        (Config.fromJson u).mapError (.config ['a']) := by
      simp only [loadConfig, arguments, Disk.text?_write]
    rw [run, hload, hjson]
    rfl
  exact ⟨by decide, by decide, hrun (by decide +kernel), hrun (by decide +kernel), by decide⟩

end Arguments

end RmdOptions
